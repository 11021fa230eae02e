import QuackMail.Imap.Session

/-! # Sequence sets

`ParseSet` counts through a range of sequence numbers, whose bounds are the client's, and reads
every number with `atoll`, which saturates.  Here its loops are run with their rounds.  A loop
whose last value is the largest of its type has no end.  What is named is stated on its own, with
numbers of any size.
-/

namespace QuackMail.Imap

/-! ## The loops of `ParseSet` -/

def maxInt64 : Nat := 9223372036854775807

/-- What a token of a set expands to, in so many rounds of its loop. -/
structure Expansion where
  positions : List Nat
  rounds : Nat

/-- `emit_pos`. -/
def emitPos (n : Nat) (v : Int) : List Nat := if 1 ≤ v ∧ v ≤ n then [v.toNat] else []

/-- `for (int64_t v = lo; v <= hi; v++)`.  After the largest value comes no larger one, and the
    loop goes on. -/
def countingLoop (n : Nat) (hi v : Int) : Option Expansion :=
  if v ≤ hi then
    if v = maxInt64 then none
    else (countingLoop n hi (v + 1)).map fun r => ⟨emitPos n v ++ r.positions, r.rounds + 1⟩
  else some ⟨[], 0⟩
termination_by (hi + 1 - v).toNat

/-- `uid_to_pos`. -/
def uidToPos (uids : List Nat) (uid : Int) : Nat :=
  ((positions uids).find? fun pos => (uidAt uids pos : Int) = uid).getD 0

def expandToken (uids : List Nat) (isUid : Bool) (tok : Bytes) : Option Expansion :=
  match findChar (ch ':') tok with
  | none =>
    let v := setNumber uids isUid tok
    if isUid then
      let pos := uidToPos uids v
      some ⟨emitPos uids.length pos, if pos = 0 then uids.length else pos⟩
    else some ⟨emitPos uids.length v, 0⟩
  | some colon =>
    let a := setNumber uids isUid (tok.take colon)
    let b := setNumber uids isUid (tok.drop (colon + 1))
    let lo := min a b
    let hi := max a b
    if isUid then
      some ⟨(positions uids).filter fun pos => lo ≤ uidAt uids pos ∧ (uidAt uids pos : Int) ≤ hi,
        uids.length⟩
    else countingLoop uids.length hi lo

def expandTokens (uids : List Nat) (isUid : Bool) : List Bytes → Option (List Expansion)
  | [] => some []
  | tok :: toks =>
    match expandToken uids isUid tok with
    | none => none
    | some r => (expandTokens uids isUid toks).map (r :: ·)

/-- `ParseSet`, token by token; none if a loop of it never ends. -/
def expandSet (set : Bytes) (uids : List Nat) (isUid : Bool) : Option (List Expansion) :=
  expandTokens uids isUid ((splitOn (ch ',') set).filter (· ≠ []))

/-! ## Where the counting ends -/

variable {p : Nat} {uids : List Nat} {isUid : Bool}

theorem mem_positions : p ∈ positions uids ↔ 1 ≤ p ∧ p ≤ uids.length := by
  simp only [positions, List.mem_map, List.mem_range]
  constructor
  · rintro ⟨i, hi, rfl⟩
    omega
  · rintro ⟨h₁, h₂⟩
    exact ⟨p - 1, by omega, by omega⟩

variable {v : Int}

theorem mem_emitPos {n : Nat} : p ∈ emitPos n v ↔ 1 ≤ p ∧ p ≤ n ∧ (p : Int) = v := by
  rw [emitPos]
  split
  · next h =>
    rw [List.mem_singleton]
    omega
  · next h =>
    simp only [List.not_mem_nil, false_iff]
    omega

/-- What the loop has done if it ends. -/
theorem countingLoop_spec {n : Nat} {hi : Int} {r : Expansion} (h : countingLoop n hi v = some r) :
    r.rounds = (hi + 1 - v).toNat ∧
      ∀ p, p ∈ r.positions ↔ 1 ≤ p ∧ p ≤ n ∧ v ≤ p ∧ (p : Int) ≤ hi := by
  induction v using countingLoop.induct hi generalizing r with
  | case1 hle =>
    rw [countingLoop, if_pos hle, if_pos rfl] at h
    cases h
  | case2 v hle hne ih =>
    rw [countingLoop, if_pos hle, if_neg hne] at h
    obtain ⟨r', hr', rfl⟩ := Option.map_eq_some_iff.mp h
    obtain ⟨hrounds, hmem⟩ := ih hr'
    constructor
    · simp only [hrounds]
      omega
    · intro p
      rw [List.mem_append, mem_emitPos, hmem]
      omega
  | case3 v hgt =>
    rw [countingLoop, if_neg hgt] at h
    cases h
    constructor
    · simp only
      omega
    · intro p
      simp only [List.not_mem_nil, false_iff]
      omega

theorem countingLoop_ends (n : Nat) {hi : Int} (hhi : hi < maxInt64) (v : Int) :
    ∃ r, countingLoop n hi v = some r := by
  induction v using countingLoop.induct hi with
  | case1 h => omega
  | case2 v hle hne ih =>
    obtain ⟨r, hr⟩ := ih
    exact ⟨_, by rw [countingLoop, if_pos hle, if_neg hne, hr, Option.map_some]⟩
  | case3 v hgt => exact ⟨_, by rw [countingLoop, if_neg hgt]⟩

theorem countingLoop_endless (n : Nat) (hv : v ≤ maxInt64) : countingLoop n maxInt64 v = none := by
  induction v using countingLoop.induct (maxInt64 : Int) with
  | case1 h => rw [countingLoop, if_pos h, if_pos rfl]
  | case2 v hle hne ih =>
    rw [countingLoop, if_pos hle, if_neg hne, ih (by omega), Option.map_none]
  | case3 v hgt => exact absurd hv hgt

/-! ## The positions of a token -/

theorem mem_take_one_filter {l : List Nat} {q : Nat → Bool} :
    p ∈ (l.filter q).take 1 ↔ l.find? q = some p := by
  rw [← List.head?_filter]
  cases l.filter q <;> simp [eq_comm]

/-- A search for what is there at most once. -/
theorem find?_eq_some_of_unique {l : List Nat} {q : Nat → Bool}
    (hunique : ∀ x ∈ l, ∀ y ∈ l, q x = true → q y = true → x = y) :
    l.find? q = some p ↔ p ∈ l ∧ q p = true := by
  constructor
  · intro h
    exact ⟨List.mem_of_find?_eq_some h, List.find?_some h⟩
  · rintro ⟨hp, hq⟩
    cases hfind : l.find? q with
    | none => exact absurd hq (List.find?_eq_none.mp hfind p hp)
    | some p' =>
      rw [hunique p' (List.mem_of_find?_eq_some hfind) p hp (List.find?_some hfind) hq]

/-- A token whose loop ends expands to the positions it names. -/
theorem mem_expandToken {tok : Bytes} {r : Expansion}
    (h : expandToken uids isUid tok = some r) (p : Nat) :
    p ∈ r.positions ↔ p ∈ tokenPositions uids isUid tok := by
  rw [expandToken] at h
  rw [tokenPositions]
  cases hcolon : findChar (ch ':') tok with
  | none =>
    simp only [hcolon] at h ⊢
    rw [mem_take_one_filter]
    cases isUid with
    | true =>
      simp only [if_true, Option.some.injEq] at h ⊢
      rw [← h, mem_emitPos, uidToPos]
      cases hfind : (positions uids).find?
          fun pos => (uidAt uids pos : Int) = setNumber uids true tok with
      | none =>
        simp only [Option.getD_none, reduceCtorEq, iff_false]
        omega
      | some pos =>
        have hpos := mem_positions.mp (List.mem_of_find?_eq_some hfind)
        simp only [Option.getD_some, Option.some.injEq]
        omega
    | false =>
      simp only [Bool.false_eq_true, if_false, Option.some.injEq] at h ⊢
      rw [← h, mem_emitPos, find?_eq_some_of_unique]
      · simp only [mem_positions, decide_eq_true_eq]
        tauto
      · intro x _ y _ hx hy
        simp only [decide_eq_true_eq] at hx hy
        omega
  | some colon =>
    simp only [hcolon] at h ⊢
    cases isUid with
    | true =>
      simp only [if_true, Option.some.injEq] at h ⊢
      rw [← h]
    | false =>
      rw [(countingLoop_spec h).2 p]
      simp only [List.mem_filter, mem_positions, decide_eq_true_eq]
      tauto

/-! ## What is named -/

/-- A number as the client writes it, or `*`. -/
inductive Bound where
  | star
  | number (digits : Bytes) (ne : digits ≠ []) (all : ∀ c ∈ digits, isDigit c = true)

inductive Item where
  | one (b : Bound)
  | range (a b : Bound)

def Bound.text : Bound → Bytes
  | .star => [ch '*']
  | .number digits _ _ => digits

def Item.text : Item → Bytes
  | .one b => b.text
  | .range a b => a.text ++ ch ':' :: b.text

def setText (items : List Item) : Bytes := joinWith (ch ',') (items.map Item.text)

/-- The messages of a selected mailbox by their UIDs, in a `std::vector<int64_t>`. -/
structure Mailbox where
  uids : List Nat
  ascending : uids.Pairwise (· < ·)
  bounded : ∀ u ∈ uids, u ≤ maxInt64
  length_lt : uids.length < 1152921504606846976

/-- The number of the message at a position, as a set names it. -/
def Mailbox.key (m : Mailbox) (isUid : Bool) (p : Nat) : Nat :=
  if isUid then uidAt m.uids p else p

/-- A number of any size; `*` is the largest in use. -/
def Bound.value (m : Mailbox) (isUid : Bool) : Bound → Nat
  | .star => if isUid then m.uids.getLast?.getD 0 else m.uids.length
  | .number digits _ _ => digitsFrom 0 digits

def Item.least (m : Mailbox) (isUid : Bool) : Item → Nat
  | .one b => b.value m isUid
  | .range a b => min (a.value m isUid) (b.value m isUid)

def Item.greatest (m : Mailbox) (isUid : Bool) : Item → Nat
  | .one b => b.value m isUid
  | .range a b => max (a.value m isUid) (b.value m isUid)

/-- The item names the number `k`: it is in the closed range, in whichever order it is written. -/
def Item.Covers (m : Mailbox) (isUid : Bool) (it : Item) (k : Nat) : Prop :=
  it.least m isUid ≤ k ∧ k ≤ it.greatest m isUid

/-- The set names the message at a position. -/
def Denotes (m : Mailbox) (isUid : Bool) (items : List Item) (p : Nat) : Prop :=
  1 ≤ p ∧ p ≤ m.uids.length ∧ ∃ it ∈ items, it.Covers m isUid (m.key isUid p)

/-- `ParseSet` ends, no loop of it is longer than the mailbox and the token together, and it
    yields the positions that are named. -/
def Exact (m : Mailbox) (isUid : Bool) (items : List Item) : Prop :=
  ∃ runs, expandSet (setText items) m.uids isUid = some runs ∧
    List.Forall₂ (fun it r => r.rounds ≤ m.uids.length + it.text.length) items runs ∧
    ∀ p, p ∈ runs.flatMap Expansion.positions ↔ Denotes m isUid items p

/-- A range of sequence numbers ends below the largest number and is no longer than the mailbox
    and its own text.  Of a set of UIDs, none that lies beyond the largest number is taken for that
    number. -/
structure Tame (m : Mailbox) (isUid : Bool) (items : List Item) : Prop where
  counted : isUid = false → ∀ {a b}, .range a b ∈ items →
    (Item.range a b).greatest m isUid < maxInt64 ∧
      (Item.range a b).greatest m isUid - (Item.range a b).least m isUid <
        m.uids.length + (Item.range a b).text.length
  edge : isUid = true → maxInt64 ∈ m.uids → ∀ {it}, it ∈ items → maxInt64 < it.least m isUid →
    ∃ it ∈ items, it.Covers m isUid maxInt64

/-! ## The text of a set -/

theorem Bound.text_spec (b : Bound) : b.text ≠ [] ∧ ch ',' ∉ b.text ∧ ch ':' ∉ b.text := by
  cases b with
  | star => decide
  | number digits ne all =>
    have hdigit : isDigit (ch ',') = false ∧ isDigit (ch ':') = false := by decide
    refine ⟨ne, fun h => ?_, fun h => ?_⟩
    · have := all _ h
      simp [hdigit] at this
    · have := all _ h
      simp [hdigit] at this

theorem Item.text_spec (it : Item) : it.text ≠ [] ∧ ch ',' ∉ it.text := by
  cases it with
  | one b => exact ⟨b.text_spec.1, b.text_spec.2.1⟩
  | range a b =>
    have hcomma : ch ',' ≠ ch ':' := by decide
    simp [Item.text, a.text_spec.2.1, b.text_spec.2.1, hcomma]

theorem expandSet_text (items : List Item) (uids : List Nat) (isUid : Bool) :
    expandSet (setText items) uids isUid = expandTokens uids isUid (items.map Item.text) := by
  rw [expandSet, setText]
  cases items with
  | nil => rfl
  | cons it items =>
    rw [splitOn_joinWith (by simp)]
    · congr 1
      rw [List.filter_eq_self]
      intro tok htok
      obtain ⟨it', -, rfl⟩ := List.mem_map.mp htok
      simpa using it'.text_spec.1
    · intro tok htok
      obtain ⟨it', -, rfl⟩ := List.mem_map.mp htok
      exact it'.text_spec.2

/-- What `atoll` makes of a bound: the largest number stands for all beyond. -/
theorem setNumber_text (m : Mailbox) (isUid : Bool) (b : Bound) :
    setNumber m.uids isUid b.text = (min maxInt64 (b.value m isUid) : Nat) := by
  cases b with
  | star =>
    have hstar : (Bound.star).text = bytes "*" := by decide
    rw [setNumber, if_pos hstar, Bound.value]
    cases isUid with
    | true =>
      have hle : m.uids.getLast?.getD 0 ≤ maxInt64 := by
        cases hlast : m.uids.getLast? with
        | none => exact Nat.zero_le _
        | some u => exact m.bounded u (List.mem_of_getLast? hlast)
      simp [Nat.min_eq_right hle]
    | false =>
      have hle : m.uids.length ≤ maxInt64 := by
        have := m.length_lt
        rw [maxInt64]
        omega
      simp [Nat.min_eq_right hle]
  | number digits ne all =>
    have hstar : digits ≠ bytes "*" := by
      rintro rfl
      have := all (ch '*') (by decide)
      revert this
      decide
    obtain ⟨c, s, rfl⟩ := List.exists_cons_of_ne_nil ne
    obtain ⟨hspace, hminus, hplus⟩ := isDigit_plain (all c List.mem_cons_self)
    rw [setNumber, Bound.text, if_neg hstar, strtoll, List.dropWhile_cons_of_neg (by simp [hspace])]
    simp only [if_neg hminus, if_neg hplus, Bound.value, maxInt64]
    omega

/-! ## Positions and their numbers -/

theorem uidAt_eq (h : p - 1 < uids.length) : uidAt uids p = uids[p - 1] := by
  rw [uidAt, List.getD_eq_getElem?_getD, List.getElem?_eq_getElem h, Option.getD_some]

theorem Mailbox.uidAt_mem (m : Mailbox) (h₁ : 1 ≤ p) (h₂ : p ≤ m.uids.length) :
    uidAt m.uids p ∈ m.uids := by
  rw [uidAt_eq (by omega)]
  exact List.getElem_mem _

theorem Mailbox.key_le (m : Mailbox) (isUid : Bool) (h₁ : 1 ≤ p)
    (h₂ : p ≤ m.uids.length) : m.key isUid p ≤ maxInt64 := by
  rw [key]
  cases isUid with
  | true => exact m.bounded _ (m.uidAt_mem h₁ h₂)
  | false =>
    have := m.length_lt
    simp only [Bool.false_eq_true, if_false, maxInt64]
    omega

theorem Mailbox.uidAt_inj (m : Mailbox) {q : Nat} (hp : p ∈ positions m.uids)
    (hq : q ∈ positions m.uids) (h : uidAt m.uids p = uidAt m.uids q) : p = q := by
  rw [mem_positions] at hp hq
  have hnodup : m.uids.Nodup := m.ascending.imp Nat.ne_of_lt
  rw [uidAt_eq (by omega), uidAt_eq (by omega)] at h
  have := (hnodup.getElem_inj_iff).mp h
  omega

/-- The numbers of a token: those it names, and the largest one for a token that lies beyond. -/
theorem mem_tokenPositions (m : Mailbox) (isUid : Bool) (it : Item) (p : Nat) :
    p ∈ tokenPositions m.uids isUid it.text ↔ 1 ≤ p ∧ p ≤ m.uids.length ∧
      (it.Covers m isUid (m.key isUid p) ∨
        m.key isUid p = maxInt64 ∧ maxInt64 < it.least m isUid) := by
  have hcast (q : Nat) : (if isUid then (uidAt m.uids q : Int) else q) = (m.key isUid q : Nat) := by
    cases isUid <;> rfl
  cases it with
  | one b =>
    rw [Item.text, tokenPositions, findChar_of_not_mem b.text_spec.2.2]
    rw [mem_take_one_filter, find?_eq_some_of_unique]
    · simp only [setNumber_text, mem_positions, Item.Covers, Item.least, Item.greatest]
      have hkey : (if isUid then
            decide ((uidAt m.uids p : Int) = (min maxInt64 (b.value m isUid) : Nat))
          else decide ((p : Int) = (min maxInt64 (b.value m isUid) : Nat))) = true ↔
          m.key isUid p = min maxInt64 (b.value m isUid) := by
        rw [Mailbox.key]
        cases isUid <;> simp only [Bool.false_eq_true, if_true, if_false, decide_eq_true_eq] <;>
          omega
      rw [hkey]
      constructor
      · rintro ⟨⟨h₁, h₂⟩, h⟩
        refine ⟨h₁, h₂, ?_⟩
        omega
      · rintro ⟨h₁, h₂, h⟩
        have := m.key_le isUid h₁ h₂
        refine ⟨⟨h₁, h₂⟩, ?_⟩
        omega
    · intro x hx y hy hqx hqy
      cases isUid with
      | true =>
        simp only [if_true, decide_eq_true_eq] at hqx hqy
        exact m.uidAt_inj hx hy (by omega)
      | false =>
        simp only [Bool.false_eq_true, if_false, decide_eq_true_eq] at hqx hqy
        omega
  | range a b =>
    have htake : (a.text ++ ch ':' :: b.text).take a.text.length = a.text := List.take_left
    have hdrop : (a.text ++ ch ':' :: b.text).drop (a.text.length + 1) = b.text := by
      rw [← List.drop_drop, List.drop_left, List.drop_succ_cons, List.drop_zero]
    rw [Item.text, tokenPositions, findChar_append a.text_spec.2.2]
    simp only [htake, hdrop, setNumber_text, hcast, List.mem_filter, mem_positions,
      decide_eq_true_eq, Item.Covers, Item.least, Item.greatest]
    constructor
    · rintro ⟨⟨h₁, h₂⟩, h⟩
      refine ⟨h₁, h₂, ?_⟩
      omega
    · rintro ⟨h₁, h₂, h⟩
      have := m.key_le isUid h₁ h₂
      refine ⟨⟨h₁, h₂⟩, ?_⟩
      omega

/-! ## The rounds of a token -/

theorem expandToken_one (m : Mailbox) (isUid : Bool) (b : Bound) :
    ∃ r, expandToken m.uids isUid (Item.one b).text = some r ∧ r.rounds ≤ m.uids.length := by
  rw [Item.text, expandToken, findChar_of_not_mem b.text_spec.2.2]
  cases isUid with
  | true =>
    refine ⟨_, rfl, ?_⟩
    split
    · exact Nat.le_refl _
    · next hpos =>
      rw [uidToPos] at hpos ⊢
      cases hfind : (positions m.uids).find?
          fun pos => (uidAt m.uids pos : Int) = setNumber m.uids true b.text with
      | none => simp [hfind] at hpos
      | some pos => exact (mem_positions.mp (List.mem_of_find?_eq_some hfind)).2
  | false => exact ⟨_, rfl, Nat.zero_le _⟩

theorem expandToken_range (m : Mailbox) (isUid : Bool) (a b : Bound) :
    expandToken m.uids isUid (Item.range a b).text =
      if isUid then
        some ⟨(positions m.uids).filter fun pos =>
          ((min maxInt64 ((Item.range a b).least m isUid) : Nat) : Int) ≤ uidAt m.uids pos ∧
            (uidAt m.uids pos : Int) ≤
              (min maxInt64 ((Item.range a b).greatest m isUid) : Nat), m.uids.length⟩
      else
        countingLoop m.uids.length (min maxInt64 ((Item.range a b).greatest m isUid) : Nat)
          (min maxInt64 ((Item.range a b).least m isUid) : Nat) := by
  have htake : (a.text ++ ch ':' :: b.text).take a.text.length = a.text := List.take_left
  have hdrop : (a.text ++ ch ':' :: b.text).drop (a.text.length + 1) = b.text := by
    rw [← List.drop_drop, List.drop_left, List.drop_succ_cons, List.drop_zero]
  have hmin : min ((min maxInt64 (a.value m isUid) : Nat) : Int)
      (min maxInt64 (b.value m isUid) : Nat) =
      (min maxInt64 ((Item.range a b).least m isUid) : Nat) := by
    rw [Item.least]
    omega
  have hmax : max ((min maxInt64 (a.value m isUid) : Nat) : Int)
      (min maxInt64 (b.value m isUid) : Nat) =
      (min maxInt64 ((Item.range a b).greatest m isUid) : Nat) := by
    rw [Item.greatest]
    omega
  rw [Item.text, expandToken, findChar_append a.text_spec.2.2]
  simp only [htake, hdrop, setNumber_text, hmin, hmax]

variable {items : List Item} {m : Mailbox}

/-- One item of a tame set ends in time. -/
theorem Tame.expandToken (h : Tame m isUid items) {it : Item} (hit : it ∈ items) :
    ∃ r, expandToken m.uids isUid it.text = some r ∧
      r.rounds ≤ m.uids.length + it.text.length := by
  cases it with
  | one b =>
    obtain ⟨r, hr, hrounds⟩ := expandToken_one m isUid b
    exact ⟨r, hr, by omega⟩
  | range a b =>
    rw [expandToken_range]
    cases isUid with
    | true => exact ⟨_, rfl, Nat.le_add_right _ _⟩
    | false =>
      obtain ⟨hlt, hlong⟩ := h.counted rfl hit
      have hhi : ((min maxInt64 ((Item.range a b).greatest m false) : Nat) : Int) < maxInt64 := by
        omega
      obtain ⟨r, hr⟩ := countingLoop_ends m.uids.length hhi
        (min maxInt64 ((Item.range a b).least m false) : Nat)
      refine ⟨r, hr, ?_⟩
      rw [(countingLoop_spec hr).1]
      omega

/-! ## All tokens -/

variable {runs : List Expansion}

theorem expandTokens_some {toks : List Bytes} : expandTokens uids isUid toks = some runs ↔
      List.Forall₂ (fun tok r => expandToken uids isUid tok = some r) toks runs := by
  induction toks generalizing runs with
  | nil => simp [expandTokens]
  | cons tok toks ih =>
    rw [expandTokens]
    constructor
    · intro h
      split at h
      · cases h
      · next r hr =>
        obtain ⟨runs', hruns, rfl⟩ := Option.map_eq_some_iff.mp h
        exact .cons hr (ih.mp hruns)
    · intro h
      cases h with
      | cons hr hrest =>
        rw [hr]
        simp [ih.mpr hrest]

/-- What a set expands to, if its loops end: the positions it names, and the last one for a token
    that lies beyond the largest number. -/
theorem mem_expansion (h : expandTokens m.uids isUid (items.map Item.text) = some runs) (p : Nat) :
    p ∈ runs.flatMap Expansion.positions ↔ 1 ≤ p ∧ p ≤ m.uids.length ∧
      ∃ it ∈ items, it.Covers m isUid (m.key isUid p) ∨
        m.key isUid p = maxInt64 ∧ maxInt64 < it.least m isUid := by
  rw [expandTokens_some, List.forall₂_map_left_iff] at h
  induction h with
  | nil => simp
  | @cons it r items runs hr _ ih =>
    rw [List.flatMap_cons, List.mem_append, ih, mem_expandToken hr, mem_tokenPositions]
    constructor
    · rintro (⟨h₁, h₂, h⟩ | ⟨h₁, h₂, it', hit, h⟩)
      · exact ⟨h₁, h₂, it, List.mem_cons_self, h⟩
      · exact ⟨h₁, h₂, it', List.mem_cons_of_mem _ hit, h⟩
    · rintro ⟨h₁, h₂, it', hit, h⟩
      obtain rfl | hit := List.mem_cons.mp hit
      · exact .inl ⟨h₁, h₂, h⟩
      · exact .inr ⟨h₁, h₂, it', hit, h⟩

/-- A set whose loops end names its positions, and no others unless one of its UIDs lies beyond the
    largest number. -/
theorem mem_expansion_iff (h : expandTokens m.uids isUid (items.map Item.text) = some runs)
    (hedge : isUid = true → maxInt64 ∈ m.uids → ∀ {it}, it ∈ items →
      maxInt64 < it.least m isUid → ∃ it ∈ items, it.Covers m isUid maxInt64) (p : Nat) :
    p ∈ runs.flatMap Expansion.positions ↔ Denotes m isUid items p := by
  rw [mem_expansion h]
  constructor
  · rintro ⟨h₁, h₂, it, hit, hcovers | ⟨hkey, hbeyond⟩⟩
    · exact ⟨h₁, h₂, it, hit, hcovers⟩
    · -- a token beyond the largest number, on a message that has it
      cases isUid with
      | true =>
        rw [Mailbox.key, if_pos rfl] at hkey
        have hmem : maxInt64 ∈ m.uids := by
          rw [← hkey]
          exact m.uidAt_mem h₁ h₂
        refine ⟨h₁, h₂, ?_⟩
        rw [Mailbox.key, if_pos rfl, hkey]
        exact hedge rfl hmem hit hbeyond
      | false =>
        rw [Mailbox.key, if_neg Bool.false_ne_true, maxInt64] at hkey
        have := m.length_lt
        omega
  · rintro ⟨h₁, h₂, it, hit, hcovers⟩
    exact ⟨h₁, h₂, it, hit, .inl hcovers⟩

/-! ## Exactly when -/

theorem exists_forall₂ {α β : Type} {R : α → β → Prop} {l : List α}
    (h : ∀ a ∈ l, ∃ b, R a b) : ∃ m, List.Forall₂ R l m := by
  induction l with
  | nil => exact ⟨[], .nil⟩
  | cons a l ih =>
    obtain ⟨b, hb⟩ := h a List.mem_cons_self
    obtain ⟨m, hm⟩ := ih fun a ha => h a (List.mem_cons_of_mem _ ha)
    exact ⟨b :: m, .cons hb hm⟩

theorem forall₂_both {α β : Type} {R S : α → β → Prop} {l : List α} {m : List β}
    (hR : List.Forall₂ R l m) (hS : List.Forall₂ S l m) {a : α} (ha : a ∈ l) :
    ∃ b, R a b ∧ S a b := by
  induction hR with
  | nil => cases ha
  | cons hr _ ih =>
    cases hS with
    | cons hs hS =>
      obtain rfl | ha := List.mem_cons.mp ha
      · exact ⟨_, hr, hs⟩
      · exact ih hS ha

theorem exact_of_tame (h : Tame m isUid items) : Exact m isUid items := by
  obtain ⟨runs, hruns⟩ := exists_forall₂ fun it hit => h.expandToken hit
  have hsome : expandTokens m.uids isUid (items.map Item.text) = some runs := by
    rw [expandTokens_some, List.forall₂_map_left_iff]
    exact hruns.imp fun it r hr => hr.1
  exact ⟨runs, by rw [expandSet_text, hsome], hruns.imp fun it r hr => hr.2,
    mem_expansion_iff hsome h.edge⟩

theorem tame_of_exact (h : Exact m isUid items) : Tame m isUid items := by
  obtain ⟨runs, hruns, hrounds, hmem⟩ := h
  rw [expandSet_text] at hruns
  have htokens := expandTokens_some.mp hruns
  rw [List.forall₂_map_left_iff] at htokens
  constructor
  · rintro rfl a b hit
    obtain ⟨r, hr, hlong⟩ := forall₂_both htokens hrounds hit
    rw [expandToken_range] at hr
    have hlt : (Item.range a b).greatest m false < maxInt64 := by
      by_contra hge
      rw [Nat.min_eq_left (by omega : maxInt64 ≤ (Item.range a b).greatest m false),
        countingLoop_endless _ (by omega)] at hr
      cases hr
    have hle : (Item.range a b).least m false ≤ (Item.range a b).greatest m false := min_le_max
    refine ⟨hlt, ?_⟩
    rw [(countingLoop_spec hr).1] at hlong
    omega
  · rintro rfl hmax it hit hbeyond
    obtain ⟨i, hi, hget⟩ := List.getElem_of_mem hmax
    have hkey : m.key true (i + 1) = maxInt64 := by
      rw [Mailbox.key, if_pos rfl, uidAt_eq (by simpa using hi)]
      exact hget
    have hnamed : i + 1 ∈ runs.flatMap Expansion.positions :=
      (mem_expansion hruns _).mpr ⟨by omega, by omega, it, hit, .inr ⟨hkey, hbeyond⟩⟩
    obtain ⟨-, -, hcovers⟩ := (hmem _).mp hnamed
    rw [hkey] at hcovers
    exact hcovers

/-- `ParseSet` is right where its ranges are counted through in time, and no token beyond the
    largest number is taken for it. -/
theorem expandSet_exact_iff (m : Mailbox) (isUid : Bool) (items : List Item) :
    Exact m isUid items ↔ Tame m isUid items :=
  ⟨tame_of_exact, exact_of_tame⟩

/-- A mailbox of one message. -/
def oneMessage : Mailbox where
  uids := [1]
  ascending := by simp
  bounded := by simp [maxInt64]
  length_lt := by simp

/-- `1:9223372036854775807` is counted through without an end. -/
theorem expandSet_endless :
    ¬ ∀ (m : Mailbox) (isUid : Bool) (items : List Item), Exact m isUid items := by
  intro h
  let first : Bound := .number (bytes "1") (by decide +kernel) (by decide +kernel)
  let last : Bound := .number (bytes "9223372036854775807") (by decide +kernel) (by decide +kernel)
  have htame := tame_of_exact (h oneMessage false [.range first last])
  have hlast : last.value oneMessage false = maxInt64 := by decide +kernel
  have := (htame.counted rfl (List.mem_singleton.mpr rfl)).1
  rw [Item.greatest, hlast] at this
  omega

end QuackMail.Imap
