import QuackMail.Bytes

/-! # The XML tokenizer

The incremental tokenizer of `xmlstream.cpp`: entities, tags with their attributes, and
`Next`, which gives the next event of the bytes that have arrived or waits for more.
-/

namespace QuackMail.Xmlstream

def isSpace (c : Byte) : Bool := c == ch ' ' || c == ch '\t' || c == ch '\r' || c == ch '\n'

/-! ## Entities -/

/-- The value of a hexadecimal digit. -/
def hexVal (c : Byte) : Option Nat :=
  if isDigit c then some (c.toNat - 48)
  else if ch 'a' ≤ c && c ≤ ch 'f' then some (c.toNat - 87)
  else if ch 'A' ≤ c && c ≤ ch 'F' then some (c.toNat - 55)
  else none

/-- The value of a run of hexadecimal digits at the front. -/
def hexFrom (val : Nat) : Bytes → Nat
  | [] => val
  | c :: s =>
    match hexVal c with
    | some d => hexFrom (val * 16 + d) s
    | none => val

/-- The `0x` that `strtol` allows before hexadecimal digits. -/
def skipHexMark : Bytes → Bytes
  | z :: x :: c :: s =>
    if z = ch '0' ∧ (x = ch 'x' ∨ x = ch 'X') ∧ (hexVal c).isSome then c :: s
    else z :: x :: c :: s
  | s => s

/-- `std::strtol(s, nullptr, 16)`. -/
def strtolHex (s : Bytes) : Int :=
  match s.dropWhile QuackMail.isSpace with
  | [] => 0
  | c :: rest =>
    if c = ch '-' then max (-0x8000000000000000) (-(hexFrom 0 (skipHexMark rest) : Int))
    else if c = ch '+' then min 0x7fffffffffffffff (hexFrom 0 (skipHexMark rest) : Int)
    else min 0x7fffffffffffffff (hexFrom 0 (skipHexMark (c :: rest)) : Int)

/-- The bytes `Unescape` writes for a character reference. -/
def encode (code : Int) : Bytes :=
  if code < 0x80 then [UInt8.ofInt code]
  else
    let n := code.toNat
    if code < 0x800 then [UInt8.ofNat (0xC0 ||| n >>> 6), UInt8.ofNat (0x80 ||| n &&& 0x3F)]
    else
      [UInt8.ofNat (0xE0 ||| n >>> 12), UInt8.ofNat (0x80 ||| (n >>> 6) &&& 0x3F),
        UInt8.ofNat (0x80 ||| n &&& 0x3F)]

/-- What stands for the entity `ent`, the text between `&` and `;`. -/
def entity (ent : Bytes) : Bytes :=
  if ent = bytes "lt" then bytes "<"
  else if ent = bytes "gt" then bytes ">"
  else if ent = bytes "amp" then bytes "&"
  else if ent = bytes "quot" then bytes "\""
  else if ent = bytes "apos" then bytes "'"
  else if ent.head? = some (ch '#') then
    -- `ent[1]` of a lone `#` is the NUL that ends the string
    if ent[1]? = some (ch 'x') then encode (strtolHex (ent.drop 2))
    else encode (strtoll (ent.drop 1))
  else ch '&' :: ent ++ bytes ";"

/-- `Unescape`: the five predefined entities and numeric character references. -/
def unescape : Bytes → Bytes
  | [] => []
  | c :: s =>
    if c ≠ ch '&' then c :: unescape s
    else
      match findChar (ch ';') s with
      | none => c :: unescape s
      | some k =>
        if k + 1 > 10 then c :: unescape s
        else entity (s.take k) ++ unescape (s.drop (k + 1))
termination_by s => s.length
decreasing_by
  · exact Nat.lt_succ_self s.length
  · exact Nat.lt_succ_self s.length
  · exact Nat.lt_succ_self s.length
  · exact Nat.lt_succ_of_le (List.length_drop (i := k + 1) (l := s) ▸ Nat.sub_le _ _)

/-- What `Escape` writes for a byte. -/
def escapeByte (c : Byte) : Bytes :=
  if c = ch '<' then bytes "&lt;"
  else if c = ch '>' then bytes "&gt;"
  else if c = ch '&' then bytes "&amp;"
  else if c = ch '"' then bytes "&quot;"
  else if c = ch '\'' then bytes "&apos;"
  else [c]

/-- `Escape`. -/
def escape (s : Bytes) : Bytes := s.flatMap escapeByte

/-! ## Events -/

inductive Kind where
  | START
  | END
  | TEXT

structure Event where
  kind : Kind := .TEXT
  name : Bytes := []
  /-- in document order. -/
  attrs : List (Bytes × Bytes) := []
  /-- the payload of a `TEXT`. -/
  text : Bytes := []

/-! ## Tags -/

/-- Where the `>` that closes a tag stands, past those inside quoted values. -/
def tagEnd (quote : Byte) : Bytes → Option Nat
  | [] => none
  | c :: s =>
    if quote ≠ 0 then (tagEnd (if c = quote then 0 else quote) s).map (· + 1)
    else if c = ch '"' ∨ c = ch '\'' then (tagEnd c s).map (· + 1)
    else if c = ch '>' then some 0
    else (tagEnd 0 s).map (· + 1)

def isKeyByte (c : Byte) : Bool := c != ch '=' && !isSpace c

/-- An attribute's value behind its `=`, and the rest of the tag. -/
def attrValue (s : Bytes) : Bytes × Bytes :=
  match s.dropWhile isSpace with
  | [] => (unescape [], [])
  | q :: t =>
    if q = ch '"' ∨ q = ch '\'' then
      (unescape (t.takeWhile (· != q)), (t.dropWhile (· != q)).drop 1)
    else
      (unescape ((q :: t).takeWhile fun c => !isSpace c), (q :: t).dropWhile fun c => !isSpace c)

/-- One turn of the attribute loop: a key with its value, and the rest of the tag. -/
def nextAttr (s : Bytes) : (Bytes × Bytes) × Bytes :=
  let key := s.takeWhile isKeyByte
  match (s.dropWhile isKeyByte).dropWhile isSpace with
  | [] => ((key, []), [])
  | c :: rest =>
    if c = ch '=' then ((key, (attrValue rest).1), (attrValue rest).2)
    else ((key, []), c :: rest)

theorem length_dropWhile_le (p : Byte → Bool) (s : Bytes) : (s.dropWhile p).length ≤ s.length :=
  (List.dropWhile_suffix p).length_le

theorem attrValue_le (s : Bytes) : (attrValue s).2.length ≤ s.length := by
  have hsp := length_dropWhile_le isSpace s
  unfold attrValue
  split
  · simp
  · next q t ht =>
    rw [ht, List.length_cons] at hsp
    have hquoted := length_dropWhile_le (· != q) t
    have hbare := length_dropWhile_le (fun c => !isSpace c) (q :: t)
    split
    · simp only [List.length_drop]
      omega
    · exact Nat.le_trans hbare hsp

/-- Every turn of the attribute loop goes on in the tag. -/
theorem nextAttr_lt (c : Byte) (s : Bytes) : (nextAttr (c :: s)).2.length ≤ s.length := by
  -- past the key or a space; or there is neither, and the `=` stands first
  have hrest : (((c :: s).dropWhile isKeyByte).dropWhile isSpace).length ≤ s.length ∨
      ((c :: s).dropWhile isKeyByte).dropWhile isSpace = ch '=' :: s := by
    by_cases hkey : isKeyByte c = true
    · left
      rw [List.dropWhile_cons_of_pos hkey]
      exact Nat.le_trans (length_dropWhile_le _ _) (length_dropWhile_le _ _)
    · rw [List.dropWhile_cons_of_neg hkey]
      by_cases hsp : isSpace c = true
      · left
        rw [List.dropWhile_cons_of_pos hsp]
        exact length_dropWhile_le _ _
      · right
        have heq : c = ch '=' := by
          by_contra hne
          exact hkey (by simp [isKeyByte, hne, hsp])
        rw [List.dropWhile_cons_of_neg hsp, heq]
  unfold nextAttr
  split
  · simp
  · next d t ht =>
    rw [ht] at hrest
    have hvalue := attrValue_le t
    cases hrest with
    | inl h =>
      rw [List.length_cons] at h
      split
      · simp only
        omega
      · exact h
    | inr h =>
      obtain ⟨hd, hst⟩ := List.cons.inj h
      rw [if_pos hd, ← hst]
      exact hvalue

/-- The attribute loop over what follows a tag's name. -/
def attributes (s : Bytes) : List (Bytes × Bytes) :=
  match _h : s.dropWhile isSpace with
  | [] => []
  | c :: rest =>
    let a := nextAttr (c :: rest)
    if a.1.1 ≠ [] then a.1 :: attributes a.2 else attributes a.2
termination_by s.length
decreasing_by
  all_goals
    have hle := (List.dropWhile_suffix (l := s) isSpace).length_le
    rw [_h, List.length_cons] at hle
    have := nextAttr_lt c rest
    omega

/-- The event of an end tag: `tag` is what stands between `<` and `>`. -/
def endTag (tag : Bytes) : Event :=
  { kind := .END, name := ((tag.drop 1).dropWhile isSpace).takeWhile fun c => !isSpace c }

/-- The event of a start tag without its closing slash. -/
def startTag (tag : Bytes) : Event :=
  let tag := tag.dropWhile isSpace
  let name := tag.takeWhile fun c => !isSpace c
  { kind := .START, name := name, attrs := attributes (tag.drop name.length) }

/-! ## The next event -/

/-- What stands at the front of the input. -/
inductive Construct where
  | incomplete
  /-- a declaration or a comment: no event. -/
  | skip (rest : Bytes)
  /-- an event, the end of a self-closing element to queue behind it, and the rest. -/
  | event (e : Event) (pending rest : Bytes)

/-- The construct at the front of the input, one pass through the body of `Next`. -/
def construct (b : Bytes) : Construct :=
  if bytes "<![CDATA[" <+: b then
    match find (bytes "]]>") (b.drop 9) with
    | none => .incomplete
    | some e => .event { kind := .TEXT, text := (b.drop 9).take e } [] (b.drop (9 + e + 3))
  else if b.head? ≠ some (ch '<') then
    match findChar (ch '<') b with
    | none => .incomplete
    | some lt => .event { kind := .TEXT, text := unescape (b.take lt) } [] (b.drop lt)
  else if bytes "<?" <+: b then
    match find (bytes "?>") b with
    | none => .incomplete
    | some e => .skip (b.drop (e + 2))
  else if bytes "<!--" <+: b then
    match find (bytes "-->") b with
    | none => .incomplete
    | some e => .skip (b.drop (e + 3))
  else
    match tagEnd 0 (b.drop 1) with
    | none => .incomplete
    | some i =>
      let tag := (b.drop 1).take i
      if tag.head? = some (ch '/') then .event (endTag tag) [] (b.drop (i + 2))
      else if tag.getLast? = some (ch '/') then
        .event (startTag tag.dropLast) (startTag tag.dropLast).name (b.drop (i + 2))
      else .event (startTag tag) [] (b.drop (i + 2))

/-- What follows a construct. -/
def Construct.rest : Construct → Option Bytes
  | .incomplete => none
  | .skip rest => some rest
  | .event _ _ rest => some rest

/-- What follows a construct is shorter than the input it stands at the front of. -/
theorem construct_lt {b r : Bytes} (h : (construct b).rest = some r) : r.length < b.length := by
  have hdrop {n : Nat} (hb : b ≠ []) (hn : 0 < n) (hr : some (b.drop n) = some r) :
      r.length < b.length := by
    have := List.length_pos_iff.mpr hb
    rw [← Option.some.inj hr, List.length_drop]
    omega
  unfold construct at h
  split at h
  · next hcdata =>
    have hb : b ≠ [] := by
      intro hnil
      rw [hnil] at hcdata
      exact absurd hcdata (by decide)
    cases hfind : find (bytes "]]>") (b.drop 9) with
    | none =>
      rw [hfind] at h
      cases h
    | some e =>
      rw [hfind] at h
      exact hdrop hb (by omega) h
  · split at h
    · next hhead =>
      cases hlt : findChar (ch '<') b with
      | none =>
        rw [hlt] at h
        cases h
      | some lt =>
        rw [hlt] at h
        cases b with
        | nil => cases hlt
        | cons c s =>
          have hc : c ≠ ch '<' := fun h => hhead (by rw [h]; rfl)
          rw [findChar, if_neg hc] at hlt
          obtain ⟨k, _, rfl⟩ := Option.map_eq_some_iff.mp hlt
          exact hdrop (List.cons_ne_nil c s) (Nat.succ_pos k) h
    · next hhead =>
      have hb : b ≠ [] := fun h => hhead (by rw [h]; decide)
      split at h
      · cases hfind : find (bytes "?>") b with
        | none =>
          rw [hfind] at h
          cases h
        | some e =>
          rw [hfind] at h
          exact hdrop hb (by omega) h
      · split at h
        · cases hfind : find (bytes "-->") b with
          | none =>
            rw [hfind] at h
            cases h
          | some e =>
            rw [hfind] at h
            exact hdrop hb (by omega) h
        · cases hend : tagEnd 0 (b.drop 1) with
          | none =>
            rw [hend] at h
            cases h
          | some i =>
            rw [hend] at h
            dsimp only at h
            split at h
            · exact hdrop hb (Nat.succ_pos (i + 1)) h
            · split at h
              · exact hdrop hb (Nat.succ_pos (i + 1)) h
              · exact hdrop hb (Nat.succ_pos (i + 1)) h

structure Tokenizer where
  /-- `buf_` from `pos_` on: what is read and not consumed. -/
  unread : Bytes := []
  /-- the second half of a self-closing element. -/
  pending : Bytes := []

/-- `Feed`. -/
def Tokenizer.feed (t : Tokenizer) (data : Bytes) : Tokenizer :=
  { t with unread := t.unread ++ data }

/-- `Next`: an event, or that more bytes are needed. -/
def Tokenizer.next (t : Tokenizer) : Option Event × Tokenizer :=
  if t.pending ≠ [] then
    (some { kind := .END, name := t.pending }, { t with pending := [] })
  else
    match _h : construct t.unread with
    | .incomplete => (none, t)
    | .skip rest => Tokenizer.next { t with unread := rest }
    | .event e pending rest => (some e, { unread := rest, pending := pending })
termination_by t.unread.length
decreasing_by exact construct_lt (congrArg Construct.rest _h)

end QuackMail.Xmlstream
