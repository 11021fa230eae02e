import Mathlib.Data.List.Infix
import QuackMail.Bytes
import QuackMail.Lib.Wildcards

/-! # Wildmats

`WildmatMatch` of `wildmat.cpp`.  The pattern is cut at every comma before its grammar is
known, and the bounds of a class are compared as signed bytes.  Where no comma stands in a
class or behind a backslash, and no class misreads a byte that the matching of an item comes
to, the result is the one of the grammar: the last item that matches decides.
-/

namespace QuackMail.Wildmat

open Wildcards (Piece Splits)

/-! ## The grammar -/

/-- An element of an item. -/
inductive Element where
  | any
  | one
  | cls (negate : Bool) (ranges : List (Byte × Byte))
  | byte (c : Byte)
  deriving DecidableEq

/-- The bytes an element other than `any` stands for. -/
def Element.takes : Element → Byte → Bool
  | any, _ => true
  | one, _ => true
  | cls negate ranges, c => negate != ranges.any fun r => r.1 ≤ c && c ≤ r.2
  | byte d, c => d == c

/-- The `^` or `!` of a class. -/
def classNegation : Bytes → Bool × Bytes
  | [] => (false, [])
  | c :: s => if c = ch '^' ∨ c = ch '!' then (true, s) else (false, c :: s)

/-- The members of a class as ranges, and what follows its `]`; a `]` in front is a member. -/
def members : Bool → Bytes → Option (List (Byte × Byte) × Bytes)
  | _, [] => none
  | first, a :: s =>
    if a = ch ']' ∧ first = false then some ([], s)
    else
      match s with
      | dash :: b :: s' =>
        if dash = ch '-' ∧ b ≠ ch ']' then (members false s').map fun r => ((a, b) :: r.1, r.2)
        else (members false (dash :: b :: s')).map fun r => ((a, a) :: r.1, r.2)
      | s => (members false s).map fun r => ((a, a) :: r.1, r.2)

/-- The element that begins with `c`, and what follows it. -/
def element (c : Byte) (s : Bytes) : Option (Element × Bytes) :=
  if c = ch '*' then some (.any, s)
  else if c = ch '?' then some (.one, s)
  else if c = ch '[' then
    (members true (classNegation s).2).map fun r => (.cls (classNegation s).1 r.1, r.2)
  else
    match s with
    | [] => some (.byte c, [])
    | q :: s' => if c = ch '\\' then some (.byte q, s') else some (.byte c, q :: s')

variable {s pat : Bytes} {c p : Byte}

/-- The end of the range that starts with `a`, and what follows it. -/
def rangeEnd (a : Byte) : Bytes → Byte × Bytes
  | dash :: b :: s => if dash = ch '-' ∧ b ≠ ch ']' then (b, s) else (a, dash :: b :: s)
  | s => (a, s)

theorem rangeEnd_suffix (a : Byte) (s : Bytes) : (rangeEnd a s).2 <:+ s := by
  rcases s with _ | ⟨dash, _ | ⟨b, s⟩⟩
  · exact List.suffix_refl _
  · exact List.suffix_refl _
  · rw [rangeEnd]
    split_ifs
    · exact (List.suffix_cons b s).trans (List.suffix_cons dash _)
    · exact List.suffix_refl _

/-- One turn of the loop takes one range. -/
theorem members_cons {first : Bool} {a : Byte} (h : ¬(a = ch ']' ∧ first = false)) (s : Bytes) :
    members first (a :: s) =
      (members false (rangeEnd a s).2).map fun r => ((a, (rangeEnd a s).1) :: r.1, r.2) := by
  rw [members.eq_def]
  simp only [if_neg h]
  rcases s with _ | ⟨dash, _ | ⟨b, s⟩⟩
  · rfl
  · rfl
  · by_cases hrange : dash = ch '-' ∧ b ≠ ch ']'
    · simp only [rangeEnd, if_pos hrange]
    · simp only [rangeEnd, if_neg hrange]

theorem members_closed {first : Bool} : ∀ {ranges rest},
    members first s = some (ranges, rest) → ch ']' :: rest <:+ s := by
  intro ranges rest heq
  induction hn : s.length using Nat.strongRecOn generalizing first s ranges with
  | ind n ih =>
    cases s with
    | nil => simp [members] at heq
    | cons a s =>
      by_cases h : a = ch ']' ∧ first = false
      · rw [members.eq_def] at heq
        simp only [if_pos h, Option.some.injEq, Prod.mk.injEq] at heq
        rw [h.1, heq.2]
      · rw [members_cons h] at heq
        obtain ⟨r, hr, heq⟩ := Option.map_eq_some_iff.mp heq
        cases heq
        have hsuffix := rangeEnd_suffix a s
        have hlen := hsuffix.length_le
        rw [List.length_cons] at hn
        exact (ih _ (by omega) hr rfl).trans (hsuffix.trans (List.suffix_cons a s))

theorem classNegation_suffix (s : Bytes) : (classNegation s).2 <:+ s := by
  cases s with
  | nil => exact List.suffix_refl []
  | cons c s =>
    rw [classNegation]
    split
    · exact List.suffix_cons c s
    · exact List.suffix_refl _

variable {e : Element}

theorem element_suffix {rest : Bytes} (h : element c s = some (e, rest)) : rest <:+ s := by
  unfold element at h
  split at h
  · cases h
    exact List.suffix_refl s
  · split at h
    · cases h
      exact List.suffix_refl s
    · split at h
      · obtain ⟨r, hr, heq⟩ := Option.map_eq_some_iff.mp h
        cases heq
        exact (List.suffix_cons _ _).trans ((members_closed hr).trans (classNegation_suffix s))
      · split at h
        · cases h
          exact List.suffix_refl _
        · split at h
          · cases h
            exact List.suffix_cons _ _
          · cases h
            exact List.suffix_refl _

/-- The elements of an item; one with a class that does not end has none. -/
def elements : Bytes → Option (List Element)
  | [] => some []
  | c :: s =>
    match _h : element c s with
    | none => none
    | some r => (elements r.2).map (r.1 :: ·)
termination_by s => s.length
decreasing_by exact Nat.lt_succ_of_le (element_suffix ‹_›).length_le

/-- The items of a pattern: a comma in a class or behind a backslash does not end one, and a
`[` without its `]` opens none. -/
def items : Bytes → List Bytes
  | [] => [[]]
  | c :: s =>
    if c = ch ',' then [] :: items s
    else
      match _h : element c s with
      | none => extend [c] (items s)
      | some r => extend ((c :: s).take (s.length + 1 - r.2.length)) (items r.2)
termination_by s => s.length
decreasing_by
  · simp
  · simp
  · exact Nat.lt_succ_of_le (element_suffix ‹_›).length_le
where
  extend (front : Bytes) : List Bytes → List Bytes
    | [] => [front]
    | item :: rest => (front ++ item) :: rest

/-- An element as a piece of a pattern with wildcards; `r` says which bytes an element takes. -/
def Element.piece (r : Element → Byte → Bool) : Element → Piece Byte
  | any => .run fun _ => true
  | e => .one (r e)

/-- A whole text is what the elements stand for. -/
def Fits (r : Element → Byte → Bool) (els : List Element) (text : Bytes) : Prop :=
  ∃ caps, Splits (els.map (Element.piece r)) text caps

/-- A whole text is what the elements of an item stand for. -/
def MatchesAs (r : Element → Byte → Bool) (item text : Bytes) : Prop :=
  ∃ els, elements item = some els ∧ Fits r els text

def Matches (item text : Bytes) : Prop := MatchesAs Element.takes item text

/-- The body of an item, after its `!`. -/
def body (item : Bytes) : Bytes := if item.head? = some (ch '!') then item.drop 1 else item

/-- The last item whose body matches is there and not negated. -/
def Wanted (text pattern : Bytes) : Prop :=
  ∃ front item back, items pattern = front ++ item :: back ∧ Matches (body item) text ∧
    item.head? ≠ some (ch '!') ∧ ∀ later ∈ back, ¬Matches (body later) text

/-! ## The code -/

/-- `char` is signed. -/
def charOf (c : Byte) : Int := if c.toNat < 128 then c.toNat else (c.toNat : Int) - 256

/-- The test of a range. -/
def inRange (c lo hi : Byte) : Bool := charOf lo ≤ charOf c && charOf c ≤ charOf hi

theorem charOf_inj {a b : Byte} (h : charOf a = charOf b) : a = b := by
  have ha := a.toNat_lt
  have hb := b.toNat_lt
  unfold charOf at h
  apply UInt8.toNat_inj.mp
  split at h
  · split at h
    · omega
    · omega
  · split at h
    · omega
    · omega

theorem inRange_self (c a : Byte) : inRange c a a = (a == c) := by
  rw [Bool.eq_iff_iff, inRange, Bool.and_eq_true, decide_eq_true_eq, decide_eq_true_eq, beq_iff_eq]
  constructor
  · exact fun h => charOf_inj (Int.le_antisymm h.1 h.2)
  · intro h
    rw [h]
    exact ⟨Int.le_refl _, Int.le_refl _⟩

/-- The loop over a class, behind its `[` and the negation: whether it was hit, and what
follows its `]`.  A class without one is none. -/
def scanClass (c : Byte) : Bool → Bool → Bytes → Option (Bool × Bytes)
  | _, _, [] => none
  | first, hit, a :: s =>
    if a = ch ']' ∧ first = false then some (hit, s)
    else
      match s with
      | dash :: b :: s' =>
        if dash = ch '-' ∧ b ≠ ch ']' then scanClass c false (hit || inRange c a b) s'
        else scanClass c false (hit || a == c) (dash :: b :: s')
      | s => scanClass c false (hit || a == c) s

theorem scanClass_cons (c : Byte) {first : Bool} {a : Byte} (h : ¬(a = ch ']' ∧ first = false))
    (hit : Bool) (s : Bytes) : scanClass c first hit (a :: s) =
      scanClass c false (hit || inRange c a (rangeEnd a s).1) (rangeEnd a s).2 := by
  rw [scanClass.eq_def]
  simp only [if_neg h]
  rcases s with _ | ⟨dash, _ | ⟨b, s⟩⟩
  · simp only [rangeEnd, inRange_self]
  · simp only [rangeEnd, inRange_self]
  · by_cases hrange : dash = ch '-' ∧ b ≠ ch ']'
    · simp only [rangeEnd, if_pos hrange]
    · simp only [rangeEnd, if_neg hrange, inRange_self]

/-- The loop collects whether a range of the class holds the byte. -/
theorem scanClass_eq (c : Byte) (first hit : Bool) (s : Bytes) : scanClass c first hit s =
      (members first s).map fun r => (hit || r.1.any fun r => inRange c r.1 r.2, r.2) := by
  induction hn : s.length using Nat.strongRecOn generalizing first hit s with
  | ind n ih =>
    cases s with
    | nil => simp [scanClass, members]
    | cons a s =>
      by_cases h : a = ch ']' ∧ first = false
      · rw [scanClass.eq_def, members.eq_def]
        simp [if_pos h]
      · have hlen := (rangeEnd_suffix a s).length_le
        rw [List.length_cons] at hn
        rw [scanClass_cons c h, members_cons h, ih _ (by omega) _ _ _ rfl, Option.map_map]
        congr 1
        funext r
        simp [Bool.or_assoc]

/-- `MatchItem`. -/
def matchItem : Bytes → Bytes → Bool
  | [], text => text.isEmpty
  | p :: pat, text =>
    if p = ch '*' then
      if pat.dropWhile (· == ch '*') = [] then true
      else text.tails.any fun rest => matchItem (pat.dropWhile (· == ch '*')) rest
    else
      match text with
      | [] => false
      | c :: text' =>
        if p = ch '?' then matchItem pat text'
        else if p = ch '[' then
          match _h : scanClass c true false (classNegation pat).2 with
          | none => false
          | some r => if r.1 = (classNegation pat).1 then false else matchItem r.2 text'
        else
          match pat with
          | [] => p == c && matchItem [] text'
          | q :: pat' =>
            if p = ch '\\' then q == c && matchItem pat' text'
            else p == c && matchItem (q :: pat') text'
termination_by pat => pat.length
decreasing_by
  · exact Nat.lt_succ_of_le (List.length_dropWhile_le _ _)
  · simp
  · rw [scanClass_eq] at _h
    obtain ⟨r', hr, rfl⟩ := Option.map_eq_some_iff.mp _h
    have := (members_closed hr).length_le
    have := (classNegation_suffix pat).length_le
    simp only [List.length_cons] at *
    omega
  · simp
  · exact Nat.lt_succ_of_lt (Nat.lt_succ_self _)
  · simp

/-- A round of `WildmatMatch`, on `result` and `decided`. -/
def decideItem (text : Bytes) (st : Bool × Bool) (item : Bytes) : Bool × Bool :=
  if matchItem (body item) text then (!decide (item.head? = some (ch '!')), true) else st

def wildmatMatch (text pattern : Bytes) : Bool :=
  if pattern = [] then true
  else
    let st := (splitOn (ch ',') pattern).foldl (decideItem text) (false, false)
    st.2 && st.1

/-- The bytes of an element as the code compares them. -/
def Element.hit : Element → Byte → Bool
  | cls negate ranges, c => negate != ranges.any fun r => inRange c r.1 r.2
  | e, c => e.takes c

/-- A class that comes to stand at a byte, what is before it fitting the text before and what is
behind it the text behind, takes the byte if and only if it means it. -/
def Agrees : List Element → Bytes → Prop
  | [], _ => True
  | .any :: els, text => ∀ back, back <:+ text → Agrees els back
  | _ :: _, [] => True
  | e :: els, c :: text =>
    (Fits Element.hit els text → e.hit c = e.takes c) ∧ (e.takes c = true → Agrees els text)

/-! ## What an item matches -/

section Fits

variable {r : Element → Byte → Bool} {els : List Element} {text : Bytes}

theorem fits_nil : Fits r [] text ↔ text = [] := by
  constructor
  · rintro ⟨caps, hsplits⟩
    cases hsplits
    rfl
  · rintro rfl
    exact ⟨[], .nil⟩

/-- A `*` takes any front of the text. -/
theorem fits_any : Fits r (.any :: els) text ↔ ∃ back, back <:+ text ∧ Fits r els back := by
  constructor
  · rintro ⟨caps, hsplits⟩
    cases hsplits with
    | @run _ u _ v caps _ hsplits => exact ⟨v, List.suffix_append u v, caps, hsplits⟩
  · rintro ⟨back, ⟨u, rfl⟩, caps, hsplits⟩
    exact ⟨u :: caps, .run (fun _ _ => rfl) hsplits⟩

/-- Every other element takes one byte. -/
theorem fits_one (he : e ≠ .any) : Fits r (e :: els) text ↔
    ∃ d back, text = d :: back ∧ r e d = true ∧ Fits r els back := by
  have hpiece : e.piece r = .one (r e) := by
    cases e with
    | any => exact absurd rfl he
    | _ => rfl
  rw [Fits, List.map_cons, hpiece]
  constructor
  · rintro ⟨caps, hsplits⟩
    cases hsplits with
    | @one _ d _ v caps htakes hsplits => exact ⟨d, v, rfl, htakes, caps, hsplits⟩
  · rintro ⟨d, back, rfl, htakes, caps, hsplits⟩
    exact ⟨[d] :: caps, .one htakes hsplits⟩

/-- Elements that agree with the code on a text fit it in both readings or in none. -/
theorem fits_iff (h : Agrees els text) :
    Fits Element.hit els text ↔ Fits Element.takes els text := by
  induction els generalizing text with
  | nil => rw [fits_nil, fits_nil]
  | cons e els ih =>
    by_cases he : e = .any
    · rw [he] at h ⊢
      rw [fits_any, fits_any]
      exact exists_congr fun back => and_congr_right fun hback => ih (h back hback)
    · rw [fits_one he, fits_one he]
      cases text with
      | nil => simp
      | cons c text =>
        rw [Agrees.eq_4 e els c text he] at h
        obtain ⟨hreads, hrest⟩ := h
        constructor
        · rintro ⟨d, back, heq, hhit, hfits⟩
          cases heq
          have htakes : e.takes c = true := by rw [← hreads hfits, hhit]
          exact ⟨c, text, rfl, htakes, (ih (hrest htakes)).mp hfits⟩
        · rintro ⟨d, back, heq, htakes, hfits⟩
          cases heq
          have hfits := (ih (hrest htakes)).mpr hfits
          exact ⟨c, text, rfl, by rw [hreads hfits, htakes], hfits⟩

end Fits

/-! ## The matching -/

end QuackMail.Wildmat
