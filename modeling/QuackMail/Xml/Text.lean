import QuackMail.Xml.Chunks

/-! # Text through the tokenizer

An escaped text comes back as an attribute's value and as character data.  A character
reference is decoded where its code point has at most three bytes and the reference at most
eleven: `Unescape` encodes no fourth byte, and takes a longer reference for plain text.
-/

namespace QuackMail.Xmlstream

/-! ## Entities in a text -/

theorem unescape_plain {c : Byte} (h : c ≠ ch '&') (s : Bytes) :
    unescape (c :: s) = c :: unescape s := by
  rw [unescape, if_pos h]

/-- An entity of at most nine bytes is replaced. -/
theorem unescape_entity {ent : Bytes} (hsemi : ch ';' ∉ ent) (hlen : ent.length ≤ 9) (s : Bytes) :
    unescape (ch '&' :: (ent ++ ch ';' :: s)) = entity ent ++ unescape s := by
  rw [unescape, if_neg (by simp), findChar_append hsemi]
  simp only
  rw [if_neg (by omega), List.take_left, ← List.singleton_append, ← List.append_assoc,
    List.drop_left' (by simp)]

/-- A longer one passes through. -/
theorem unescape_long {ent : Bytes} (hsemi : ch ';' ∉ ent) (hlen : 9 < ent.length) (s : Bytes) :
    unescape (ch '&' :: (ent ++ ch ';' :: s)) = ch '&' :: unescape (ent ++ ch ';' :: s) := by
  rw [unescape, if_neg (by simp), findChar_append hsemi]
  simp only
  rw [if_pos (by omega)]

variable {s v t : Bytes}

theorem unescape_of_not_mem (h : ch '&' ∉ s) (t : Bytes) : unescape (s ++ t) = s ++ unescape t := by
  induction s with
  | nil => rfl
  | cons c s ih =>
    rw [List.mem_cons, not_or] at h
    rw [List.cons_append, unescape_plain (Ne.symm h.1), ih h.2]
    rfl

theorem unescape_nil : unescape [] = [] := by rw [unescape]

/-- What is written for a byte is read as that byte. -/
theorem unescape_escapeByte (c : Byte) (s : Bytes) :
    unescape (escapeByte c ++ s) = c :: unescape s := by
  have hent (ent : Bytes) {d : Byte} (hc : c = d) (hsemi : ch ';' ∉ ent) (hlen : ent.length ≤ 9)
      (hval : entity ent = [d]) :
      unescape (ch '&' :: (ent ++ ch ';' :: s)) = c :: unescape s := by
    rw [unescape_entity hsemi hlen, hval, hc]
    rfl
  unfold escapeByte
  split
  · next hc => exact hent (bytes "lt") hc (by decide) (by decide) (by decide)
  · split
    · next hc => exact hent (bytes "gt") hc (by decide) (by decide) (by decide)
    · split
      · next hc => exact hent (bytes "amp") hc (by decide) (by decide) (by decide)
      · next hamp =>
        split
        · next hc => exact hent (bytes "quot") hc (by decide) (by decide) (by decide)
        · split
          · next hc => exact hent (bytes "apos") hc (by decide) (by decide) (by decide)
          · exact unescape_plain hamp s

/-- What is escaped comes back. -/
theorem unescape_escape (s : Bytes) : unescape (escape s) = s := by
  induction s with
  | nil => exact unescape_nil
  | cons c s ih =>
    rw [escape, List.flatMap_cons, unescape_escapeByte]
    exact congrArg (c :: ·) ih

/-- An escaped text has no byte that markup is made of. -/
theorem not_mem_escape {d : Byte} (hd : d = ch '<' ∨ d = ch '"') (s : Bytes) : d ∉ escape s := by
  intro hmem
  obtain ⟨c, -, hc⟩ := List.mem_flatMap.mp hmem
  have hbyte : ∀ c, ch '<' ∉ escapeByte c ∧ ch '"' ∉ escapeByte c :=
    forall_byte (by decide +kernel)
  cases hd with
  | inl h => exact (hbyte c).1 (h ▸ hc)
  | inr h => exact (hbyte c).2 (h ▸ hc)

/-! ## References in a text -/

/-- Every `&` of a text has a `;` behind it, as in XML every `&` begins a reference. -/
def Settled (s : Bytes) : Prop := ∀ a b, s = a ++ ch '&' :: b → ch ';' ∈ b

theorem Settled.of_append {a b : Bytes} (h : Settled (a ++ b)) : Settled b :=
  fun x y hxy => h (a ++ x) y (by rw [hxy, List.append_assoc])

/-- A settled text is decoded on its own. -/
theorem unescape_append (h : Settled s) (t : Bytes) :
    unescape (s ++ t) = unescape s ++ unescape t := by
  induction hn : s.length using Nat.strongRecOn generalizing s with
  | ind n ih =>
    cases s with
    | nil => rw [unescape_nil]; rfl
    | cons c s =>
      have htail {b : Bytes} (hb : Settled b) (hlen : b.length ≤ s.length) :=
        ih b.length (by rw [List.length_cons] at hn; omega) hb rfl
      by_cases hc : c = ch '&'
      · subst hc
        -- the `;` behind the `&` is found in `s`, whatever stands behind
        obtain ⟨ent, rest, rfl, hfirst⟩ := List.eq_append_cons_of_mem (h [] s rfl)
        have hrest : Settled rest := by
          refine Settled.of_append (a := ch '&' :: (ent ++ [ch ';'])) ?_
          simpa using h
        have hbehind : Settled (ent ++ ch ';' :: rest) := Settled.of_append (a := [ch '&']) h
        rw [List.cons_append, List.append_assoc, List.cons_append]
        by_cases hlen : ent.length ≤ 9
        · rw [unescape_entity hfirst hlen, unescape_entity hfirst hlen,
            htail hrest (by rw [List.length_append, List.length_cons]; omega), List.append_assoc]
        · rw [unescape_long hfirst (by omega), unescape_long hfirst (by omega),
            ← List.cons_append, ← List.append_assoc, htail hbehind (Nat.le_refl _)]
          rfl
      · rw [List.cons_append, unescape_plain hc, unescape_plain hc,
          htail (Settled.of_append (a := [c]) h) (Nat.le_refl _)]
        rfl

/-- A decimal or hexadecimal character reference. -/
structure CharRef where
  hex : Bool
  digits : Bytes
  nonempty : digits ≠ []
  valid : ∀ c ∈ digits, if hex then (hexVal c).isSome else isDigit c

namespace CharRef

/-- What stands between `&` and `;`. -/
def ent (r : CharRef) : Bytes := ch '#' :: (if r.hex then ch 'x' :: r.digits else r.digits)

def text (r : CharRef) : Bytes := ch '&' :: (r.ent ++ [ch ';'])

/-- The code point the digits say. -/
def code (r : CharRef) : Nat :=
  if r.hex then r.digits.foldl (fun n c => n * 16 + (hexVal c).getD 0) 0
  else r.digits.foldl (fun n c => n * 10 + (c.toNat - 48)) 0

theorem not_mem_ent (r : CharRef) {d : Byte} (hx : d ≠ ch 'x') (hnum : d ≠ ch '#')
    (hhex : hexVal d = none) : d ∉ r.ent := by
  have hdigits : d ∉ r.digits := by
    intro hmem
    have hvalid := r.valid d hmem
    have hdigit : isDigit d = false := by
      cases h : isDigit d with
      | false => rfl
      | true =>
        rw [hexVal, if_pos h] at hhex
        cases hhex
    rw [hhex, hdigit] at hvalid
    cases hhexa : r.hex with
    | true => simp at hvalid
    | false => simp at hvalid
  unfold ent
  split
  · simp [hx, hnum, hdigits]
  · simp [hnum, hdigits]

variable {s : Bytes}

theorem hexFrom_eq (h : ∀ c ∈ s, (hexVal c).isSome = true) (n : Nat) :
    hexFrom n s = s.foldl (fun n c => n * 16 + (hexVal c).getD 0) n := by
  induction s generalizing n with
  | nil => rfl
  | cons c s ih =>
    obtain ⟨d, hd⟩ := Option.isSome_iff_exists.mp (h c List.mem_cons_self)
    simp only [hexFrom, List.foldl_cons, hd, Option.getD_some]
    exact ih (fun c hc => h c (List.mem_cons_of_mem _ hc)) _

theorem digitsFrom_eq (h : ∀ c ∈ s, isDigit c = true) (n : Nat) :
    digitsFrom n s = s.foldl (fun n c => n * 10 + (c.toNat - 48)) n := by
  induction s generalizing n with
  | nil => rfl
  | cons c s ih =>
    rw [digitsFrom, if_pos (h c List.mem_cons_self), List.foldl_cons]
    exact ih (fun c hc => h c (List.mem_cons_of_mem _ hc)) _

/-- A digit is no space, no sign and no `x`. -/
theorem hexVal_isSome (c : Byte) : (hexVal c).isSome = true →
    QuackMail.isSpace c = false ∧ c ≠ ch '-' ∧ c ≠ ch '+' ∧ c ≠ ch 'x' ∧ c ≠ ch 'X' := by
  revert c
  exact forall_byte (by decide +kernel)

theorem strtolHex_digits (h : ∀ c ∈ s, (hexVal c).isSome = true)
    (hle : hexFrom 0 s ≤ 0x7fffffffffffffff) : strtolHex s = hexFrom 0 s := by
  cases s with
  | nil => rfl
  | cons c s =>
    obtain ⟨hspace, hminus, hplus, -, -⟩ := hexVal_isSome c (h c List.mem_cons_self)
    have hmark : skipHexMark (c :: s) = c :: s := by
      unfold skipHexMark
      split
      · next z x d t heq =>
        obtain ⟨-, hs⟩ := List.cons.inj heq
        obtain ⟨-, -, -, hx, hX⟩ := hexVal_isSome x (h x (by rw [hs]; simp))
        split
        · next hmark => exact (hmark.2.1.elim hx hX).elim
        · exact heq.symm
      · rfl
    unfold strtolHex
    rw [List.dropWhile_cons_of_neg (by rw [hspace]; simp)]
    simp only [if_neg hminus, if_neg hplus]
    rw [hmark]
    omega

/-- A reference's bytes are the encoding of its code. -/
theorem entity_ent (r : CharRef) (hle : r.code ≤ 0x7fffffffffffffff) :
    entity r.ent = encode r.code := by
  have hname {n : Bytes} (hn : n.head? ≠ some (ch '#')) : r.ent ≠ n := by
    intro h
    rw [← h] at hn
    exact hn rfl
  unfold entity
  have hvalid := r.valid
  cases hhex : r.hex with
  | true =>
    have hent : r.ent = ch '#' :: ch 'x' :: r.digits := by rw [ent, hhex]; rfl
    have hdigits : ∀ c ∈ r.digits, (hexVal c).isSome = true := by simpa [hhex] using hvalid
    have hcode : r.code = hexFrom 0 r.digits := by rw [code, hhex, hexFrom_eq hdigits]; rfl
    have hx : (ch '#' :: ch 'x' :: r.digits)[1]? = some (ch 'x') := rfl
    rw [hent, if_pos hx, hcode]
    rw [hcode] at hle
    exact congrArg encode (strtolHex_digits hdigits hle)
  | false =>
    have hent : r.ent = ch '#' :: r.digits := by rw [ent, hhex]; rfl
    have hdigits : ∀ c ∈ r.digits, isDigit c = true := by simpa [hhex] using hvalid
    have hcode : r.code = digitsFrom 0 r.digits := by rw [code, hhex, digitsFrom_eq hdigits]; rfl
    have hnox : (ch '#' :: r.digits)[1]? ≠ some (ch 'x') := by
      intro h
      have hmem : ch 'x' ∈ r.digits := List.mem_of_getElem? (i := 0) (by simpa using h)
      exact absurd (hdigits _ hmem) (by decide)
    rw [hent, if_neg hnox, hcode]
    rw [hcode] at hle
    exact congrArg encode (strtoll_digits hdigits hle)

end CharRef

/-! ## UTF-8 -/

/-- A code point of at most three bytes is encoded. -/
theorem encode_toNat {c : Char} (h : c.toNat < 0x10000) :
    encode c.toNat = String.utf8EncodeChar c := by
  have hlow (n : Nat) : n &&& 0x3F = n % 64 := Nat.and_two_pow_sub_one_eq_mod n 6
  have hcont : ∀ k < 64, 0x80 ||| k = k + 0x80 := by decide
  have hlead2 : ∀ k < 32, 0xC0 ||| k = k + 0xC0 := by decide
  have hlead3 : ∀ k < 16, 0xE0 ||| k = k + 0xE0 := by decide
  generalize hv : c.toNat = n at h
  unfold encode String.utf8EncodeChar
  rw [show c.val.toNat = n from hv]
  by_cases h1 : n < 0x80
  · rw [if_pos (by omega), if_pos (show n ≤ 0x7f by omega), UInt8.ofInt]
    congr 2
    omega
  · rw [if_neg (by omega), if_neg (show ¬n ≤ 0x7f by omega)]
    simp only [Int.toNat_natCast, Nat.shiftRight_eq_div_pow, hlow]
    by_cases h2 : n < 0x800
    · rw [if_pos (by omega), if_pos (show n ≤ 0x7ff by omega), hlead2 _ (by omega),
        hcont _ (by omega), Nat.mod_eq_of_lt (a := n / 64) (b := 0x20) (by omega)]
    · rw [if_neg (by omega), if_neg (show ¬n ≤ 0x7ff by omega), if_pos (show n ≤ 0xffff by omega),
        hlead3 _ (by omega), hcont _ (by omega), hcont _ (by omega),
        Nat.mod_eq_of_lt (a := n / 4096) (b := 0x10) (by omega)]

theorem length_encode {n : Nat} (h : 0x800 ≤ n) : (encode n).length = 3 := by
  unfold encode
  rw [if_neg (by omega)]
  rw [if_neg (by omega)]
  rfl

/-! ## An element with an attribute and a text -/

/-- The document `<a b="v">t</a>`. -/
def element (v t : Bytes) : Bytes :=
  bytes "<a b=\"" ++ (v ++ (bytes "\">" ++ (t ++ bytes "</a>")))

/-- The events of character data: none where it is empty. -/
def textEvents (t : Bytes) : List Event := if t = [] then [] else [{ kind := .TEXT, text := t }]

/-- The events of an element `a` with an attribute `b` and character data. -/
def elementEvents (v t : Bytes) : List Event :=
  { kind := .START, name := bytes "a", attrs := [(bytes "b", v)] } ::
    (textEvents t ++ [{ kind := .END, name := bytes "a" }])

theorem tagEnd_quoted (h : ch '"' ∉ v) (s : Bytes) :
    tagEnd (ch '"') (v ++ ch '"' :: s) = (tagEnd 0 s).map (· + (v.length + 1)) := by
  induction v with
  | nil => rfl
  | cons c v ih =>
    rw [List.mem_cons, not_or] at h
    rw [List.cons_append, tagEnd, if_pos (by decide), if_neg (Ne.symm h.1), ih h.2, Option.map_map]
    rfl

/-- A quoted value is decoded, whatever follows its name. -/
theorem attributes_quoted (h : ch '"' ∉ v) :
    attributes (bytes " b=\"" ++ (v ++ bytes "\"")) = [(bytes "b", unescape v)] := by
  have hnot : ∀ c ∈ v, (c != ch '"') = true := fun c hc => bne_iff_ne.mpr fun heq => h (heq ▸ hc)
  have hvalue : attrValue (ch '"' :: (v ++ [ch '"'])) = (unescape v, []) := by
    unfold attrValue
    rw [List.dropWhile_cons_of_neg (by decide)]
    simp only [true_or, if_true]
    rw [List.takeWhile_append_of_pos hnot, List.dropWhile_append_of_pos hnot]
    simp
  have hnext : nextAttr (ch 'b' :: ch '=' :: ch '"' :: (v ++ [ch '"'])) =
      ((bytes "b", unescape v), []) := by
    unfold nextAttr
    rw [List.takeWhile_cons_of_pos (by decide), List.takeWhile_cons_of_neg (by decide),
      List.dropWhile_cons_of_pos (by decide), List.dropWhile_cons_of_neg (by decide),
      List.dropWhile_cons_of_neg (by decide)]
    simp only [if_true]
    rw [hvalue]
    rfl
  have hnil : attributes [] = [] := by rw [attributes]; rfl
  rw [attributes]
  split
  · next hdrop => cases hdrop
  · next c rest hdrop =>
    have heq : c :: rest = ch 'b' :: ch '=' :: ch '"' :: (v ++ [ch '"']) := hdrop.symm
    rw [heq, hnext]
    simp [hnil, bytes]

/-- A marker differs from a tag in its second byte. -/
theorem not_marker {m : Bytes} {x c d : Byte} (hm : m[1]? = some x) (hx : x ≠ d) :
    ¬m <+: c :: d :: s := by
  intro hp
  obtain ⟨hlt, hget⟩ := List.getElem?_eq_some_iff.mp hm
  have := hp.getElem hlt
  rw [hget] at this
  exact hx this

/-- The start tag of an element. -/
theorem construct_element (h : ch '"' ∉ v) (s : Bytes) :
    construct (bytes "<a b=\"" ++ (v ++ (bytes "\">" ++ s))) =
      .event { kind := .START, name := bytes "a", attrs := [(bytes "b", unescape v)] } [] s := by
  have hopen : tagEnd 0 (bytes "a b=\"" ++ (v ++ (ch '"' :: ch '>' :: s))) =
      some (v.length + 6) := by
    show ((((((tagEnd (ch '"') (v ++ (ch '"' :: ch '>' :: s))).map (· + 1)).map
      (· + 1)).map (· + 1)).map (· + 1)).map (· + 1)) = _
    rw [tagEnd_quoted h, show tagEnd 0 (ch '>' :: s) = some 0 from rfl]
    simp only [Option.map_some, Option.some.injEq]
    omega
  have htag : (bytes "a b=\"" ++ (v ++ (ch '"' :: ch '>' :: s))).take (v.length + 6) =
      ch 'a' :: (bytes " b=\"" ++ (v ++ bytes "\"")) := by
    rw [show bytes "a b=\"" ++ (v ++ (ch '"' :: ch '>' :: s)) =
      (ch 'a' :: (bytes " b=\"" ++ (v ++ bytes "\""))) ++ (ch '>' :: s) from by
        simp [bytes], List.take_left' (by simp [bytes])]
  have hrest : (bytes "<a b=\"" ++ (v ++ (bytes "\">" ++ s))).drop (v.length + 6 + 2) = s := by
    rw [show bytes "<a b=\"" ++ (v ++ (bytes "\">" ++ s)) =
      (bytes "<a b=\"" ++ (v ++ bytes "\">")) ++ s from by simp,
      List.drop_left' (by simp [bytes])]
  have hlast : (ch 'a' :: (bytes " b=\"" ++ (v ++ bytes "\""))).getLast? = some (ch '"') := by
    rw [show ch 'a' :: (bytes " b=\"" ++ (v ++ bytes "\"")) = (ch 'a' :: (bytes " b=\"" ++ v)) ++
      [ch '"'] from by simp [bytes], List.getLast?_concat]
  have hstart : startTag (ch 'a' :: (bytes " b=\"" ++ (v ++ bytes "\""))) =
      { kind := .START, name := bytes "a", attrs := [(bytes "b", unescape v)] } := by
    unfold startTag
    rw [List.dropWhile_cons_of_neg (by decide)]
    simp only
    exact congrArg (fun attrs => ({ kind := .START, name := bytes "a", attrs := attrs } : Event))
      (attributes_quoted h)
  have hno {m : Bytes} {x : Byte} (hm : m[1]? = some x) (hx : x ≠ ch 'a') :
      ¬m <+: bytes "<a b=\"" ++ (v ++ (bytes "\">" ++ s)) := not_marker hm hx
  unfold construct
  rw [if_neg (hno (x := ch '!') rfl (by decide)), if_neg (by rw [not_not]; rfl),
    if_neg (hno (x := ch '?') rfl (by decide)), if_neg (hno (x := ch '!') rfl (by decide)),
    show (bytes "<a b=\"" ++ (v ++ (bytes "\">" ++ s))).drop 1 =
      bytes "a b=\"" ++ (v ++ (ch '"' :: ch '>' :: s)) from rfl, hopen]
  simp only
  rw [htag, hlast, hrest, hstart, if_neg (by rw [List.head?_cons]; decide), if_neg (by decide)]

/-- The end tag of an element. -/
theorem construct_end : construct (bytes "</a>") =
    .event { kind := .END, name := bytes "a" } [] [] := by
  rfl

theorem construct_text (hne : t ≠ []) (h : ch '<' ∉ t) (s : Bytes) : construct (t ++ ch '<' :: s) =
      .event { kind := .TEXT, text := unescape t } [] (ch '<' :: s) := by
  obtain ⟨c, t', rfl⟩ := List.exists_cons_of_ne_nil hne
  have hc : c ≠ ch '<' := fun heq => h (heq ▸ List.mem_cons_self)
  unfold construct
  rw [if_neg (by simp [bytes, Ne.symm hc]), if_pos (by simp [hc]), findChar_append h]
  simp

theorem entity_ne_nil (ent : Bytes) : entity ent ≠ [] := by
  have hencode (code : Int) : encode code ≠ [] := by
    unfold encode
    split
    · simp
    · split <;> simp
  unfold entity
  split <;> try decide
  split <;> try decide
  split <;> try decide
  split <;> try decide
  split <;> try decide
  split
  · split
    · exact hencode _
    · exact hencode _
  · simp

theorem unescape_ne_nil (h : t ≠ []) : unescape t ≠ [] := by
  obtain ⟨c, s, rfl⟩ := List.exists_cons_of_ne_nil h
  rw [unescape]
  split
  · simp
  · split
    · simp
    · split
      · simp
      · simp [entity_ne_nil]

/-- The events of an element are its attribute and its text, decoded. -/
theorem events_element (hv : ch '"' ∉ v) (ht : ch '<' ∉ t) :
    Tokenizer.events [element v t] = elementEvents (unescape v) (unescape t) := by
  have hstart := Tokenizer.next_event (construct_element hv (t ++ bytes "</a>"))
  have hend := Tokenizer.next_event construct_end
  have hwait : (Tokenizer.next { unread := [] }).1 = none := by
    rw [Tokenizer.next_incomplete construct_nil]
  have hlast : Tokenizer.reader.drain { unread := bytes "</a>" } =
      ([{ kind := .END, name := bytes "a" }], { unread := [] }) := by
    rw [Incremental.Reader.drain_event hend, Incremental.Reader.drain_nothing hwait]
    congr 1
    exact congrArg Prod.snd (Tokenizer.next_incomplete construct_nil)
  have htext : (Tokenizer.reader.drain { unread := t ++ bytes "</a>" }).1 =
      textEvents (unescape t) ++ [{ kind := .END, name := bytes "a" }] := by
    by_cases hnil : t = []
    · rw [hnil, List.nil_append, hlast, unescape_nil]
      rfl
    · have htext := Tokenizer.next_event (construct_text hnil ht (bytes "/a>"))
      rw [textEvents, if_neg (unescape_ne_nil hnil),
        Incremental.Reader.drain_event htext]
      exact congrArg (_ :: ·) (congrArg Prod.fst hlast)
  rw [Tokenizer.events, Incremental.Reader.run_eq_drain]
  show (Tokenizer.reader.drain { unread := [] ++ (element v t ++ []) }).1 = _
  rw [List.append_nil, List.nil_append, element, Incremental.Reader.drain_event hstart, htext]
  rfl

/-! ## What survives -/

/-- An escaped text survives as an attribute and as character data. -/
theorem events_element_escape (s : Bytes) :
    Tokenizer.events [element (escape s) (escape s)] = elementEvents s s := by
  rw [events_element (not_mem_escape (.inr rfl) s) (not_mem_escape (.inl rfl) s), unescape_escape]

/-- A reference is decoded to a character: at every place in an attribute and in character
    data the character's UTF-8 bytes stand for it. -/
def CharRef.Decodes (r : CharRef) (c : Char) : Prop :=
  ∀ pre post, Settled pre → ch '<' ∉ pre ++ post → ch '"' ∉ pre ++ post →
    Tokenizer.events [element (pre ++ (r.text ++ post)) (pre ++ (r.text ++ post))] =
      elementEvents (unescape pre ++ (String.utf8EncodeChar c ++ unescape post))
        (unescape pre ++ (String.utf8EncodeChar c ++ unescape post))

namespace CharRef

theorem not_mem_text (r : CharRef) {d : Byte} (hd : d = ch '<' ∨ d = ch '"') : d ∉ r.text := by
  have hent : d ∉ r.ent := by
    cases hd with
    | inl h => exact h ▸ r.not_mem_ent (by decide) (by decide) (by decide)
    | inr h => exact h ▸ r.not_mem_ent (by decide) (by decide) (by decide)
  have hamp : d ≠ ch '&' ∧ d ≠ ch ';' := by
    cases hd with
    | inl h => exact h ▸ by decide
    | inr h => exact h ▸ by decide
  simp [text, hent, hamp.1, hamp.2]

/-- The text of a reference is decoded in place. -/
theorem unescape_text (r : CharRef) (h : r.text.length ≤ 11) (hle : r.code ≤ 0x7fffffffffffffff)
    (s : Bytes) : unescape (r.text ++ s) = encode r.code ++ unescape s := by
  have hsemi : ch ';' ∉ r.ent := r.not_mem_ent (by decide) (by decide) (by decide)
  have hlength : r.text.length = r.ent.length + 2 := by simp [text]
  rw [text, List.cons_append, List.append_assoc, List.singleton_append,
    unescape_entity hsemi (by omega), r.entity_ent hle]

/-- A longer reference stays as it is written. -/
theorem unescape_text_long (r : CharRef) (h : 11 < r.text.length) : unescape r.text = r.text := by
  have hsemi : ch ';' ∉ r.ent := r.not_mem_ent (by decide) (by decide) (by decide)
  have hamp : ch '&' ∉ r.ent := r.not_mem_ent (by decide) (by decide) (by decide)
  have hlength : r.text.length = r.ent.length + 2 := by simp [text]
  rw [text, unescape_long hsemi (by omega), unescape_of_not_mem hamp, unescape_plain (by decide),
    unescape_nil]

/-- The code points of at most three bytes, in references of at most eleven, are the ones
    that are decoded. -/
theorem decodes_iff (r : CharRef) (c : Char) (hcode : r.code = c.toNat) :
    r.Decodes c ↔ c.toNat < 0x10000 ∧ r.text.length ≤ 11 := by
  have hmax : c.toNat < 0x100000000 := c.val.toNat_lt
  have hlong : r.code ≤ 0x7fffffffffffffff := by omega
  constructor
  · intro h
    have hevents := h [] [] (fun a b hab => by simp at hab) (by simp) (by simp)
    have hquote : ch '"' ∉ r.text := r.not_mem_text (.inr rfl)
    have hangle : ch '<' ∉ r.text := r.not_mem_text (.inl rfl)
    rw [List.nil_append, List.append_nil, events_element hquote hangle, unescape_nil,
      List.append_nil, List.nil_append] at hevents
    -- the attribute's value is in the first event
    have hvalue : unescape r.text = String.utf8EncodeChar c := by
      have hstart := congrArg (fun es => (es.headD {}).attrs) hevents
      simpa [elementEvents] using hstart
    have hsize := congrArg List.length hvalue
    rw [String.length_utf8EncodeChar] at hsize
    have hfour := c.utf8Size_le_four
    have hshort : r.text.length ≤ 11 := by
      by_contra hlt
      rw [r.unescape_text_long (by omega)] at hsize
      omega
    refine ⟨?_, hshort⟩
    by_contra hlt
    have hplane : c.utf8Size = 4 :=
      Char.utf8Size_eq_four_iff.mpr
        (UInt32.lt_iff_toNat_lt.mpr (show 0xffff < c.toNat by omega))
    have htext := r.unescape_text hshort hlong []
    rw [List.append_nil, unescape_nil, List.append_nil] at htext
    rw [htext, length_encode (by omega), hplane] at hsize
    omega
  · intro ⟨hplane, hshort⟩ pre post hpre hangle hquote
    rw [List.mem_append, not_or] at hangle hquote
    have hangle' : ch '<' ∉ pre ++ (r.text ++ post) := by
      simp [hangle.1, hangle.2, r.not_mem_text (.inl rfl)]
    have hquote' : ch '"' ∉ pre ++ (r.text ++ post) := by
      simp [hquote.1, hquote.2, r.not_mem_text (.inr rfl)]
    rw [events_element hquote' hangle', unescape_append hpre, r.unescape_text hshort hlong, hcode,
      encode_toNat hplane]

end CharRef

/-- Events do not depend on how the document is cut, an escaped text survives as an attribute
    and as character data, and exactly the references in at most eleven bytes to a code point
    below 0x10000 are decoded to its UTF-8 encoding. -/
theorem text_survives (cut cut' : List Bytes) (s : Bytes) (r : CharRef) (c : Char) :
    (cut.flatten = cut'.flatten → Tokenizer.events cut = Tokenizer.events cut') ∧
    Tokenizer.events [element (escape s) (escape s)] = elementEvents s s ∧
    (r.code = c.toNat → (r.Decodes c ↔ c.toNat < 0x10000 ∧ r.text.length ≤ 11)) := by
  refine ⟨?_, events_element_escape s, r.decodes_iff c⟩
  intro h
  rw [Tokenizer.events_flatten cut, Tokenizer.events_flatten cut', h]

/-- The reference `&#128512;`. -/
def grinningFace : CharRef :=
  { hex := false, digits := bytes "128512", nonempty := by decide, valid := by decide +kernel }

/-- A reference to a code point beyond the first plane is not decoded. -/
theorem astral_not_decoded : ¬((∀ cut cut' : List Bytes, cut.flatten = cut'.flatten →
        Tokenizer.events cut = Tokenizer.events cut') ∧
      (∀ s, 0 ∉ s → Tokenizer.events [element (escape s) (escape s)] = elementEvents s s) ∧
      ∀ (r : CharRef) (c : Char), c ≠ Char.ofNat 0 → r.code = c.toNat → r.Decodes c) := by
  intro h
  have hcode : grinningFace.code = (Char.ofNat 128512).toNat := by decide +kernel
  have hdecodes := h.2.2 grinningFace (Char.ofNat 128512) (by decide +kernel) hcode
  have hplane := ((CharRef.decodes_iff _ _ hcode).mp hdecodes).1
  exact absurd hplane (by decide +kernel)

end QuackMail.Xmlstream
