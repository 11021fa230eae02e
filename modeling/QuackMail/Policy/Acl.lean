import QuackMail.Policy.Wildmat

/-! # Address rules

`CidrMatch` and `CheckAcl` of `mailpolicy.cpp`.  An allow rule beats every block rule, in any
order of the table.  The length of a block goes through `atoi`: one that is no number is 0 or
what its digits in front say, so the block holds every address that agrees so far.
-/

namespace QuackMail.Policy

open Wildmat (wildmatMatch)

/-! ## The code -/

/-- A text as a C string. -/
def cstr (s : Bytes) : Bytes := s.takeWhile (· != 0)

/-- `std::atoi` of glibc: `strtol`, cut to 32 bits. -/
def atoi (s : Bytes) : Int := (strtoll (cstr s)).bmod 0x100000000

/-- The `inet_pton` of the two families, and `lower` of the database. -/
structure Env where
  pton4 : Bytes → Option (Vector Byte 4)
  pton6 : Bytes → Option (Vector Byte 16)
  sqlLower : Bytes → Bytes

/-- The two addresses, where both are of one family. -/
def addresses (env : Env) (ip net : Bytes) : Option (Bytes × Bytes) :=
  match env.pton4 (cstr ip), env.pton4 (cstr net) with
  | some a, some b => some (a.toList, b.toList)
  | _, _ =>
    match env.pton6 (cstr ip), env.pton6 (cstr net) with
    | some a, some b => some (a.toList, b.toList)
    | _, _ => none

/-- `0xff << (8 - rest)` as a byte. -/
def maskOf (rest : Nat) : Byte := UInt8.ofNat (255 <<< (8 - rest))

/-- The comparison of whole bytes and of the rest under a mask. -/
def samePrefix (a b : Bytes) (bits : Nat) : Bool :=
  let whole := bits / 8
  let rest := bits % 8
  if whole > 0 ∧ a.take whole ≠ b.take whole then false
  else if rest = 0 then true
  else (a.getD whole 0 &&& maskOf rest) == (b.getD whole 0 &&& maskOf rest)

def cidrMatch (env : Env) (ip cidr : Bytes) : Bool :=
  let (net, bits) : Bytes × Int :=
    match findChar (ch '/') cidr with
    | none => (cidr, -1)
    | some slash => (cidr.take slash, atoi (cidr.drop (slash + 1)))
  match addresses env ip net with
  | none => false
  | some (a, b) =>
    let total := a.length * 8
    samePrefix a b (if bits < 0 ∨ bits > total then total else bits.toNat)

inductive Verdict where
  | none | allow | block

/-- A row of `quackmail_acl`, NULL texts as empty ones. -/
structure Rule where
  scope : Bytes
  pattern : Bytes
  action : Bytes
  note : Bytes
  enabled : Bool

/-- The `hit` of a rule. -/
def hit (env : Env) (scope value : Bytes) (rule : Rule) : Bool :=
  if (lower scope = bytes "ip" ∨ lower scope = bytes "webadmin") ∧ ch '/' ∈ rule.pattern then
    cidrMatch env value rule.pattern
  else wildmatMatch (lower value) (lower rule.pattern)

def noteOf (front : String) (rule : Rule) : Bytes :=
  if rule.note = [] then bytes front ++ rule.pattern ++ bytes "'" else rule.note

/-- The loop of `CheckAcl`, with the note of the first block rule that hit. -/
def checkRules (env : Env) (scope value : Bytes) :
    Option Bytes → List Rule → Verdict × Bytes
  | none, [] => (.none, [])
  | some note, [] => (.block, note)
  | blocked, rule :: rules =>
    if rule.pattern = [] then checkRules env scope value blocked rules
    else if hit env scope value rule = false then checkRules env scope value blocked rules
    else if lower rule.action = bytes "allow" then (.allow, noteOf "allowed by rule '" rule)
    else if lower rule.action = bytes "block" ∧ blocked = none then
      checkRules env scope value (some (noteOf "blocked by rule '" rule)) rules
    else checkRules env scope value blocked rules

/-- `CheckAcl`, over the rows in the order of their ids. -/
def checkAcl (env : Env) (rules : List Rule) (scope value : Bytes) : Verdict × Bytes :=
  if value = [] then (.none, [])
  else checkRules env scope value none
    (rules.filter fun rule => env.sqlLower rule.scope = lower scope ∧ rule.enabled)

/-! ## The verdict -/

/-- An enabled rule of the scope with an action matches; an empty value or pattern names
nothing. -/
def Says (env : Env) (rules : List Rule) (scope value : Bytes) (action : String) : Prop :=
  value ≠ [] ∧ ∃ rule ∈ rules, env.sqlLower rule.scope = lower scope ∧ rule.enabled = true ∧
    lower rule.action = bytes action ∧ rule.pattern ≠ [] ∧ hit env scope value rule = true

/-- What the verdict on a value has to be. -/
structure Decides (env : Env) (rules : List Rule) (scope value : Bytes) (v : Verdict) : Prop where
  allow : v = .allow ↔ Says env rules scope value "allow"
  block : v = .block ↔ ¬Says env rules scope value "allow" ∧ Says env rules scope value "block"

variable (env : Env)

/-- A rule takes part in the loop. -/
def Hits (scope value : Bytes) (action : String) (rule : Rule) : Prop :=
  lower rule.action = bytes action ∧ rule.pattern ≠ [] ∧ hit env scope value rule = true

theorem checkRules_spec (scope value : Bytes) (rules : List Rule) : ∀ blocked,
    ((checkRules env scope value blocked rules).1 = .allow ↔
      ∃ rule ∈ rules, Hits env scope value "allow" rule) ∧
    ((checkRules env scope value blocked rules).1 = .block ↔
      (¬∃ rule ∈ rules, Hits env scope value "allow" rule) ∧
        (blocked.isSome = true ∨ ∃ rule ∈ rules, Hits env scope value "block" rule)) := by
  have hne : bytes "allow" ≠ bytes "block" := by decide
  induction rules with
  | nil =>
    intro blocked
    cases blocked <;> simp [checkRules]
  | cons rule rules ih =>
    intro blocked
    rw [checkRules]
    split
    · next hempty => simp [ih, Hits, hempty]
    · split
      · next hmiss => simp [ih, Hits, hmiss]
      · next hpattern hhit =>
        split
        · next hallow => simp [Hits, hallow, hpattern, hhit]
        · next hallow =>
          split
          · next hblock => simp [ih, Hits, hblock.1, hpattern, hhit, hne.symm]
          · next hblock =>
            rw [not_and_or] at hblock
            cases hblock with
            | inl hblock => simp [ih, Hits, hallow, hblock]
            | inr hblock =>
              have hsome : blocked.isSome = true := Option.isSome_iff_ne_none.mpr hblock
              simp [ih, Hits, hallow, hsome]

theorem decides_checkAcl (rules : List Rule) (scope value : Bytes) :
    Decides env rules scope value (checkAcl env rules scope value).1 := by
  have hsays : ∀ action, value ≠ [] → (Says env rules scope value action ↔
      ∃ rule ∈ rules.filter fun rule => env.sqlLower rule.scope = lower scope ∧ rule.enabled,
        Hits env scope value action rule) := by
    intro action hvalue
    simp [Says, Hits, hvalue, and_assoc]
  rw [checkAcl]
  by_cases hvalue : value = []
  · constructor <;> simp [Says, hvalue]
  · rw [if_neg hvalue]
    obtain ⟨hallow, hblock⟩ := checkRules_spec env scope value
      (rules.filter fun rule => env.sqlLower rule.scope = lower scope ∧ rule.enabled) none
    constructor
    · rw [hallow, hsays _ hvalue]
    · rw [hblock, hsays _ hvalue, hsays _ hvalue]
      simp

/-! ## Blocks of addresses -/

/-- Bit `i` of an address, the first one the highest. -/
def bitAt (a : Bytes) (i : Nat) : Bool := (a.getD (i / 8) 0).toBitVec.getMsbD (i % 8)

def AgreeOn (a b : Bytes) (n : Nat) : Prop := ∀ i < n, bitAt a i = bitAt b i

theorem and_maskOf (x y : Byte) {rest : Nat} (h : rest < 8) :
    x &&& maskOf rest = y &&& maskOf rest ↔
      ∀ j < rest, x.toBitVec.getMsbD j = y.toBitVec.getMsbD j := by
  have hmask : ∀ rest < 8, ∀ j < 8, (maskOf rest).toBitVec.getMsbD j = decide (j < rest) := by
    decide +kernel
  rw [← UInt8.toBitVec_inj, UInt8.toBitVec_and, UInt8.toBitVec_and]
  constructor
  · intro heq j hj
    have hbit := congrArg (·.getMsbD j) heq
    simpa [hmask rest h j (by omega), hj] using hbit
  · intro hbits
    apply BitVec.eq_of_getMsbD_eq
    intro j hj
    rw [BitVec.getMsbD_and, BitVec.getMsbD_and, hmask rest h j hj]
    by_cases hjr : j < rest
    · rw [hbits j hjr]
    · simp [hjr]

theorem byte_ext {x y : Byte} (h : ∀ j < 8, x.toBitVec.getMsbD j = y.toBitVec.getMsbD j) : x = y :=
  UInt8.toBitVec_inj.mp (BitVec.eq_of_getMsbD_eq fun j hj => h j hj)

variable {a b ip net len : Bytes}

theorem agreeOn_bytes {whole rest : Nat} (hrest : rest < 8) :
    AgreeOn a b (whole * 8 + rest) ↔ (∀ k < whole, a.getD k 0 = b.getD k 0) ∧
      ∀ j < rest, (a.getD whole 0).toBitVec.getMsbD j = (b.getD whole 0).toBitVec.getMsbD j := by
  have hat : ∀ s : Bytes, ∀ k j, j < 8 → bitAt s (k * 8 + j) = (s.getD k 0).toBitVec.getMsbD j := by
    intro s k j hj
    rw [bitAt, show (k * 8 + j) / 8 = k by omega, show (k * 8 + j) % 8 = j by omega]
  constructor
  · intro h
    constructor
    · intro k hk
      apply byte_ext
      intro j hj
      rw [← hat a k j hj, ← hat b k j hj]
      exact h _ (by omega)
    · intro j hj
      rw [← hat a whole j (by omega), ← hat b whole j (by omega)]
      exact h _ (by omega)
  · rintro ⟨hwhole, hlast⟩ i hi
    have hsplit : i = i / 8 * 8 + i % 8 := by omega
    rw [hsplit, hat _ _ _ (by omega), hat _ _ _ (by omega)]
    by_cases hk : i / 8 < whole
    · rw [hwhole _ hk]
    · have hk : i / 8 = whole := by omega
      rw [hk]
      exact hlast _ (by omega)

theorem take_eq_take (h : a.length = b.length) {n : Nat} :
    a.take n = b.take n ↔ ∀ k < n, a.getD k 0 = b.getD k 0 := by
  constructor
  · intro heq k hk
    have hget := congrArg (·[k]?) heq
    simp only [List.getElem?_take, if_pos hk] at hget
    rw [List.getD_eq_getElem?_getD, List.getD_eq_getElem?_getD, hget]
  · intro hget
    apply List.ext_getElem (by simp [h])
    intro k hk hk'
    rw [List.length_take] at hk hk'
    have := hget k (by omega)
    rw [List.getD_eq_getElem?_getD, List.getD_eq_getElem?_getD,
      List.getElem?_eq_getElem (by omega), List.getElem?_eq_getElem (by omega)] at this
    simpa using this

/-- The code compares the bits of the prefix. -/
theorem samePrefix_iff (h : a.length = b.length) (bits : Nat) :
    samePrefix a b bits = true ↔ AgreeOn a b bits := by
  have hbits : bits / 8 * 8 + bits % 8 = bits := by omega
  have hrest : bits % 8 < 8 := Nat.mod_lt bits (by omega)
  have hagree : AgreeOn a b (bits / 8 * 8 + bits % 8) ↔ _ := agreeOn_bytes hrest
  rw [hbits, ← take_eq_take h, ← and_maskOf _ _ hrest] at hagree
  rw [hagree, samePrefix]
  by_cases hwhole : a.take (bits / 8) = b.take (bits / 8)
  · simp only [hwhole, ne_eq, not_true_eq_false, and_false, if_false, true_and]
    by_cases hzero : bits % 8 = 0
    · rw [if_pos hzero, and_maskOf _ _ hrest]
      exact iff_of_true rfl (by omega)
    · rw [if_neg hzero, beq_iff_eq]
  · have hpos : bits / 8 > 0 := by
      apply Nat.pos_of_ne_zero
      intro hzero
      simp [hzero] at hwhole
    simp [hwhole, hpos]

theorem agreeOn_whole (h : a.length = b.length) : AgreeOn a b (a.length * 8) ↔ a = b := by
  have hagree : AgreeOn a b (a.length * 8 + 0) ↔ _ := agreeOn_bytes (by omega)
  rw [← take_eq_take h, List.take_length, h, List.take_length] at hagree
  rw [h]
  simpa using hagree

theorem length_addresses (h : addresses env ip net = some (a, b)) :
    a.length = b.length ∧ a.length * 8 ≤ 128 := by
  unfold addresses at h
  split at h
  · cases h
    simp
  · split at h
    · cases h
      simp
    · cases h

/-! ## Lengths -/

/-- A decimal number within the family. -/
def WellFormed (len : Bytes) (total : Nat) : Prop :=
  len ≠ [] ∧ (∀ c ∈ len, isDigit c = true) ∧ digitsFrom 0 len ≤ total

theorem atoi_wellFormed {total : Nat} (h : WellFormed len total)
    (htotal : total ≤ 128) : atoi len = digitsFrom 0 len := by
  obtain ⟨hne, hdigits, hle⟩ := h
  have hcstr : cstr len = len := by
    apply List.takeWhile_eq_self_iff.mpr
    intro c hc
    have hzero : isDigit 0 = false := by decide
    have hdigit := hdigits c hc
    apply bne_iff_ne.mpr
    rintro rfl
    cases hdigit
  rw [atoi, hcstr, strtoll_digits hdigits (by omega)]
  apply Int.bmod_eq_of_le
  · omega
  · omega

/-- What a block names: a length that is a number of the family counts bits, and any other one
names the address itself at most. -/
def Exact (matched : Bool) (ip net len : Bytes) : Prop :=
  match addresses env ip net with
  | none => matched = false
  | some (a, b) =>
    (WellFormed len (a.length * 8) → (matched = true ↔ AgreeOn a b (digitsFrom 0 len))) ∧
      (¬WellFormed len (a.length * 8) → matched = true → a = b)

/-- A length that is no number of the family is out of its range for `atoi` too, or the
addresses differ before it, or nowhere. -/
def Harmless (ip net len : Bytes) : Prop :=
  ∀ a b, addresses env ip net = some (a, b) → WellFormed len (a.length * 8) ∨ a = b ∨
    atoi len < 0 ∨ (a.length * 8 : Nat) < atoi len ∨ ¬AgreeOn a b (atoi len).toNat

theorem cidrMatch_block (h : ch '/' ∉ net) : cidrMatch env ip (net ++ ch '/' :: len) =
      match addresses env ip net with
      | none => false
      | some (a, b) => samePrefix a b
        (if atoi len < 0 ∨ atoi len > (a.length * 8 : Nat) then a.length * 8
          else (atoi len).toNat) := by
  rw [cidrMatch, findChar_append h]
  simp

theorem exact_iff (h : ch '/' ∉ net) :
    Exact env (cidrMatch env ip (net ++ ch '/' :: len)) ip net len ↔ Harmless env ip net len := by
  rw [cidrMatch_block env h, Exact]
  cases haddresses : addresses env ip net with
  | none => exact iff_of_true rfl fun a b hsome => by simp [haddresses] at hsome
  | some pair =>
    obtain ⟨a, b⟩ := pair
    obtain ⟨hlen, htotal⟩ := length_addresses env haddresses
    have hharmless : Harmless env ip net len ↔ WellFormed len (a.length * 8) ∨ a = b ∨
        atoi len < 0 ∨ (a.length * 8 : Nat) < atoi len ∨ ¬AgreeOn a b (atoi len).toNat := by
      constructor
      · exact fun hall => hall a b haddresses
      · intro hcond a' b' heq
        rw [haddresses] at heq
        cases heq
        exact hcond
    rw [hharmless]
    simp only [samePrefix_iff hlen]
    by_cases hwell : WellFormed len (a.length * 8)
    · -- the number is the one `atoi` reads
      have hatoi := atoi_wellFormed hwell htotal
      have hle := hwell.2.2
      rw [if_neg (by omega), hatoi, Int.toNat_natCast]
      exact iff_of_true ⟨fun _ => Iff.rfl, fun hno => absurd hwell hno⟩ (Or.inl hwell)
    · by_cases hout : atoi len < 0 ∨ atoi len > (a.length * 8 : Nat)
      · rw [if_pos hout, agreeOn_whole hlen]
        refine iff_of_true ⟨fun hyes => absurd hyes hwell, fun _ heq => heq⟩ (Or.inr (Or.inr ?_))
        cases hout with
        | inl hneg => exact Or.inl hneg
        | inr hbig => exact Or.inr (Or.inl hbig)
      · rw [if_neg hout]
        constructor
        · rintro ⟨-, hequal⟩
          by_cases hagree : AgreeOn a b (atoi len).toNat
          · exact Or.inr (Or.inl (hequal hwell hagree))
          · exact Or.inr (Or.inr (Or.inr (Or.inr hagree)))
        · intro hcond
          refine ⟨fun hyes => absurd hyes hwell, fun _ hagree => ?_⟩
          obtain hyes | heq | hneg | hbig | hno := hcond
          · exact absurd hyes hwell
          · exact heq
          · exact absurd (Or.inl hneg) hout
          · exact absurd (Or.inr hbig) hout
          · exact absurd hagree hno

/-- The scopes whose values are client addresses. -/
def IsAddressScope (scope : Bytes) : Prop := lower scope = bytes "ip" ∨ lower scope = bytes "webadmin"

/-- A rule of an address scope whose pattern is the block `net/len`. -/
structure IsBlock (scope : Bytes) (rule : Rule) (net len : Bytes) : Prop where
  scope : IsAddressScope scope
  pattern : rule.pattern = net ++ ch '/' :: len
  net : ch '/' ∉ net

theorem hit_block {scope value net len : Bytes} {rule : Rule} (h : IsBlock scope rule net len) :
    Exact env (hit env scope value rule) value net len ↔ Harmless env value net len := by
  have hhit : hit env scope value rule = cidrMatch env value (net ++ ch '/' :: len) := by
    rw [hit, if_pos ⟨h.scope, by simp [h.pattern]⟩, h.pattern]
  rw [hhit, exact_iff env h.net]

/-- In every scope the verdict is the one of the rules that match, in any order of them; and the
blocks of a table match exactly the addresses they name if and only if no length that is no number
of the family is read by `atoi` as a prefix that two different addresses share. -/
theorem checkAcl_exact (rules : List Rule) (scope value : Bytes) :
    (Decides env rules scope value (checkAcl env rules scope value).1 ∧
      ∀ rule ∈ rules, ∀ net len, IsBlock scope rule net len →
        Exact env (hit env scope value rule) value net len) ↔
      ∀ rule ∈ rules, ∀ net len, IsBlock scope rule net len → Harmless env value net len := by
  constructor
  · rintro ⟨-, hexact⟩ rule hrule net len hblock
    exact (hit_block env hblock).mp (hexact rule hrule net len hblock)
  · intro hharmless
    refine ⟨decides_checkAcl env rules scope value, ?_⟩
    intro rule hrule net len hblock
    exact (hit_block env hblock).mpr (hharmless rule hrule net len hblock)

/-- A part of a dotted address. -/
def octet (s : Bytes) : Option Byte :=
  if s ≠ [] ∧ s.length ≤ 3 ∧ s.all isDigit ∧ digitsFrom 0 s ≤ 255 ∧
      (s.head? = some (ch '0') → s.length = 1) then some (UInt8.ofNat (digitsFrom 0 s))
  else none

/-- An environment without IPv6. -/
def dotted : Env where
  pton4 s :=
    match (splitOn (ch '.') s).mapM octet with
    | some [a, b, c, d] => some #v[a, b, c, d]
    | _ => none
  pton6 _ := none
  sqlLower := lower

def blockRule (pattern : Bytes) : Rule :=
  { scope := bytes "ip", pattern := pattern, action := bytes "block", note := [], enabled := true }

/-- A block without a length holds every address. -/
theorem block_without_length : ¬∀ (env : Env) (rules : List Rule) (scope value : Bytes),
    Decides env rules scope value (checkAcl env rules scope value).1 ∧
      ∀ rule ∈ rules, ∀ net len, IsBlock scope rule net len →
        Exact env (hit env scope value rule) value net len := by
  intro h
  have haddresses : addresses dotted (bytes "192.168.1.1") (bytes "10.0.0.0") =
      some ([192, 168, 1, 1], [10, 0, 0, 0]) := by decide +kernel
  have hhit : hit dotted (bytes "ip") (bytes "192.168.1.1") (blockRule (bytes "10.0.0.0/")) =
      true := by decide +kernel
  obtain ⟨-, hexact⟩ := h dotted [blockRule (bytes "10.0.0.0/")] (bytes "ip")
    (bytes "192.168.1.1")
  have hmatch := hexact _ (List.mem_singleton.mpr rfl) (bytes "10.0.0.0") []
    ⟨Or.inl (by decide), by decide +kernel, by decide⟩
  have heq := hmatch.2 (fun hwell => hwell.1 rfl) hhit
  exact absurd heq (by decide)

end QuackMail.Policy
