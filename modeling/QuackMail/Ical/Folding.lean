import QuackMail.Ical.ContentLine
import QuackMail.Json.Utf8

/-! # Where content lines are cut

`AppendFolded` writes physical lines of at most 75 octets and cuts no character in two.
A cut in a UTF-8 text is sound where the next byte is no continuation byte, and among
four bytes of such a text one is none.
-/

namespace QuackMail.Contentline

open Json (Unicode)

/-! ## Characters and their bytes -/

/-- Of the bytes of a character the first is no continuation byte, the up to three others are. -/
theorem utf8EncodeChar_shape (c : Char) : ∃ d t, String.utf8EncodeChar c = d :: t ∧
    isContinuation d = false ∧ (∀ x ∈ t, isContinuation x = true) ∧ t.length ≤ 3 := by
  have hcont : ∀ k < 64, isContinuation (UInt8.ofNat (k + 0x80)) = true := by decide +kernel
  have hascii : ∀ k ≤ 0x7f, isContinuation (UInt8.ofNat k) = false := by decide +kernel
  have hlead2 : ∀ k < 32, isContinuation (UInt8.ofNat (k + 0xC0)) = false := by decide +kernel
  have hlead3 : ∀ k < 16, isContinuation (UInt8.ofNat (k + 0xE0)) = false := by decide +kernel
  have hlead4 : ∀ k < 8, isContinuation (UInt8.ofNat (k + 0xF0)) = false := by decide +kernel
  have hmod (n : Nat) : n % 64 < 64 := Nat.mod_lt _ (by omega)
  unfold String.utf8EncodeChar
  simp only
  split
  · next h => exact ⟨_, _, rfl, hascii _ h, by simp, by simp⟩
  · split
    · refine ⟨_, _, rfl, hlead2 _ (Nat.mod_lt _ (by omega)), ?_, by simp⟩
      intro x hx
      rw [List.mem_singleton] at hx
      rw [hx]
      exact hcont _ (hmod _)
    · split
      · refine ⟨_, _, rfl, hlead3 _ (Nat.mod_lt _ (by omega)), ?_, by simp⟩
        intro x hx
        simp only [List.mem_cons, List.not_mem_nil, or_false] at hx
        cases hx with
        | inl hx => exact hx ▸ hcont _ (hmod _)
        | inr hx => exact hx ▸ hcont _ (hmod _)
      · refine ⟨_, _, rfl, hlead4 _ (Nat.mod_lt _ (by omega)), ?_, by simp⟩
        intro x hx
        simp only [List.mem_cons, List.not_mem_nil, or_false] at hx
        obtain hx | hx | hx := hx
        · exact hx ▸ hcont _ (hmod _)
        · exact hx ▸ hcont _ (hmod _)
        · exact hx ▸ hcont _ (hmod _)

/-- A text cut before a byte that is no continuation byte is cut between two characters. -/
theorem unicode_cut {s : Bytes} (h : Unicode s) {p : Nat}
    (hp : isContinuation (s.getD p 0) = false) : Unicode (s.take p) ∧ Unicode (s.drop p) := by
  obtain ⟨cs, rfl⟩ := h
  induction cs generalizing p with
  | nil => exact ⟨⟨[], by simp⟩, ⟨[], by simp⟩⟩
  | cons c cs ih =>
    obtain ⟨d, t, henc, -, ht, -⟩ := utf8EncodeChar_shape c
    rw [List.flatMap_cons] at hp ⊢
    cases Nat.eq_zero_or_pos p with
    | inl hzero => exact ⟨⟨[], by simp [hzero]⟩, ⟨c :: cs, by simp [hzero]⟩⟩
    | inr hpos =>
      have hle : (String.utf8EncodeChar c).length ≤ p := by
        -- an earlier cut would be before one of the other bytes of `c`
        by_contra hlt
        rw [List.getD_eq_getElem?_getD, List.getElem?_append_left (by omega), henc] at hp
        rw [henc, List.length_cons] at hlt
        obtain ⟨k, rfl⟩ := Nat.exists_eq_succ_of_ne_zero (Nat.ne_of_gt hpos)
        have hk : k < t.length := by omega
        rw [List.getElem?_cons_succ, List.getElem?_eq_getElem hk, Option.getD_some,
          ht _ (List.getElem_mem hk)] at hp
        cases hp
      obtain ⟨k, rfl⟩ := Nat.exists_eq_add_of_le hle
      rw [List.getD_eq_getElem?_getD, List.getElem?_append_right (by omega),
        Nat.add_sub_cancel_left, ← List.getD_eq_getElem?_getD] at hp
      obtain ⟨⟨before, hbefore⟩, hafter⟩ := ih hp
      rw [List.take_length_add_append, List.drop_length_add_append, hbefore]
      exact ⟨⟨c :: before, by simp⟩, hafter⟩

/-- Of four bytes in a row one is no continuation byte. -/
theorem exists_boundary {s : Bytes} (h : Unicode s) :
    ∀ p, ∃ q, q ≤ p ∧ p ≤ q + 3 ∧ isContinuation (s.getD q 0) = false := by
  obtain ⟨cs, rfl⟩ := h
  induction cs with
  | nil => exact fun p => ⟨p, by omega, by omega, by simp; decide⟩
  | cons c cs ih =>
    intro p
    obtain ⟨d, t, henc, hd, -, hlen⟩ := utf8EncodeChar_shape c
    rw [List.flatMap_cons]
    by_cases hin : p < (String.utf8EncodeChar c).length
    · -- the first byte of the character is near enough
      rw [henc, List.length_cons] at hin
      exact ⟨0, by omega, by omega, by rw [henc]; exact hd⟩
    · obtain ⟨q, hle, hge, hq⟩ := ih (p - (String.utf8EncodeChar c).length)
      refine ⟨(String.utf8EncodeChar c).length + q, by omega, by omega, ?_⟩
      rw [List.getD_eq_getElem?_getD, List.getElem?_append_right (by omega),
        Nat.add_sub_cancel_left, ← List.getD_eq_getElem?_getD]
      exact hq

/-! ## The cut -/

theorem backOff_le (rest : Bytes) : ∀ take, backOff rest take ≤ take
  | 0 => Nat.le_refl 0
  | 1 => Nat.le_refl 1
  | take + 2 => by
    rw [backOff]
    split
    · have := backOff_le rest (take + 1)
      omega
    · exact Nat.le_refl _

/-- Backing off stops at the last byte at or before `take` that is no continuation byte. -/
theorem backOff_sound {rest : Bytes} {q : Nat} (hq : isContinuation (rest.getD q 0) = false)
    (hpos : 1 < q) : ∀ {take}, q ≤ take → isContinuation (rest.getD (backOff rest take) 0) = false
  | 0, h => by omega
  | 1, h => by omega
  | take + 2, h => by
    rw [backOff]
    split
    · next hcont =>
      have hne : q ≠ take + 2 := by
        intro heq
        rw [← heq, hq] at hcont
        cases hcont
      exact backOff_sound hq hpos (by omega)
    · next hcont => exact Bool.eq_false_iff.mpr hcont

theorem takeOf_le (first : Bool) (rest : Bytes) :
    takeOf first rest ≤ if first then 75 else 74 := by
  have hmin := Nat.min_le_left (if first then 75 else 74) rest.length
  unfold takeOf
  by_cases hlt : min (if first then 75 else 74) rest.length < rest.length
  · simp only [if_pos hlt]
    exact Nat.le_trans (backOff_le _ _) hmin
  · simp only [if_neg hlt]
    exact hmin

/-- What is taken of a UTF-8 text and what is left of it are UTF-8. -/
theorem takeOf_sound (first : Bool) {rest : Bytes} (h : Unicode rest) :
    Unicode (rest.take (takeOf first rest)) ∧ Unicode (rest.drop (takeOf first rest)) := by
  have hbudget : 74 ≤ if first then 75 else 74 := by
    cases first with
    | true => decide
    | false => decide
  apply unicode_cut h
  unfold takeOf
  generalize (if first = true then 75 else 74) = budget at hbudget
  by_cases hlt : min budget rest.length < rest.length
  · simp only [if_pos hlt]
    have hmin : min budget rest.length = budget := Nat.min_eq_left (by omega)
    rw [hmin]
    obtain ⟨q, hle, hge, hq⟩ := exists_boundary h budget
    exact backOff_sound hq (by omega) hle
  · simp only [if_neg hlt]
    have hall : rest.length ≤ min budget rest.length := by omega
    rw [List.getD_eq_getElem?_getD, List.getElem?_eq_none hall]
    rfl

/-! ## The physical lines -/

/-- The physical lines of the pieces of a line: all but the first begin with a space. -/
def physical : List Bytes → List Bytes
  | [] => []
  | piece :: pieces => piece :: pieces.map (ch ' ' :: ·)

/-- A line written in pieces: the physical lines, each with its CRLF, are what `AppendFolded`
appends, they have at most 75 octets, and no cut is inside a character. -/
structure Folded (line : Bytes) (pieces : List Bytes) : Prop where
  written : appendFolded line = (physical pieces).flatMap (· ++ bytes "\r\n")
  whole : pieces.flatten = line
  short : ∀ octets ∈ physical pieces, octets.length ≤ 75
  sound : Unicode line → ∀ piece ∈ pieces, Unicode piece

/-- The continuations of a line. -/
theorem foldRest_pieces (rest : Bytes) : ∃ pieces : List Bytes,
    foldRest false rest = (pieces.map (ch ' ' :: ·)).flatMap (· ++ bytes "\r\n") ∧
      pieces.flatten = rest ∧ (∀ piece ∈ pieces, piece.length ≤ 74) ∧
      (Unicode rest → ∀ piece ∈ pieces, Unicode piece) := by
  induction hn : rest.length using Nat.strongRecOn generalizing rest with
  | ind n ih =>
    by_cases hnil : rest = []
    · exact ⟨[], by rw [foldRest, dif_pos hnil]; rfl, by rw [hnil]; rfl, by simp, by simp⟩
    · have hpos := takeOf_pos false hnil
      have hlen := List.length_pos_iff.mpr hnil
      obtain ⟨pieces, hwritten, hwhole, hshort, hsound⟩ :=
        ih _ (by rw [List.length_drop]; omega) (rest.drop (takeOf false rest)) rfl
      refine ⟨rest.take (takeOf false rest) :: pieces, ?_, ?_, ?_, ?_⟩
      · rw [foldRest, dif_neg hnil, if_neg Bool.false_ne_true, hwritten]
        simp
      · rw [List.flatten_cons, hwhole, List.take_append_drop]
      · intro piece hpiece
        cases List.mem_cons.mp hpiece with
        | inl heq =>
          rw [heq, List.length_take]
          exact Nat.le_trans (Nat.min_le_left _ _) (takeOf_le false rest)
        | inr hmem => exact hshort piece hmem
      · intro hunicode piece hpiece
        obtain ⟨htake, hdrop⟩ := takeOf_sound false hunicode
        cases List.mem_cons.mp hpiece with
        | inl heq => exact heq ▸ htake
        | inr hmem => exact hsound hdrop piece hmem

theorem exists_folded (line : Bytes) : ∃ pieces, Folded line pieces := by
  by_cases hnil : line = []
  · refine ⟨[[]], ?_, by simp [hnil], by simp [physical], ?_⟩
    · rw [appendFolded, if_pos hnil]
      rfl
    · intro _ piece hpiece
      rw [List.mem_singleton.mp hpiece]
      exact ⟨[], rfl⟩
  · obtain ⟨pieces, hwritten, hwhole, hshort, hsound⟩ :=
      foldRest_pieces (line.drop (takeOf true line))
    refine ⟨line.take (takeOf true line) :: pieces, ?_, ?_, ?_, ?_⟩
    · rw [appendFolded, if_neg hnil, foldRest, dif_neg hnil, hwritten]
      simp [physical]
    · rw [List.flatten_cons, hwhole, List.take_append_drop]
    · intro octets hoctets
      cases List.mem_cons.mp hoctets with
      | inl heq =>
        rw [heq, List.length_take]
        exact Nat.le_trans (Nat.min_le_left _ _) (takeOf_le true line)
      | inr hmem =>
        -- a continuation spends an octet on its space
        obtain ⟨piece, hpiece, rfl⟩ := List.mem_map.mp hmem
        have := hshort piece hpiece
        rw [List.length_cons]
        omega
    · intro hunicode piece hpiece
      obtain ⟨htake, hdrop⟩ := takeOf_sound true hunicode
      cases List.mem_cons.mp hpiece with
      | inl heq => exact heq ▸ htake
      | inr hmem => exact hsound hdrop piece hmem

/-- Folded lines are read back as they were, one empty line behind the last end, and each is
written in physical lines of at most 75 octets that cut no character. -/
theorem folding_lossless {lines : List Bytes}
    (h : ∀ line ∈ lines, ch '\r' ∉ line ∧ ch '\n' ∉ line ∧
      line.head? ≠ some (ch ' ') ∧ line.head? ≠ some (ch '\t')) :
    unfoldLines (lines.flatMap appendFolded) = lines ++ [[]] ∧
      ∀ line ∈ lines, ∃ pieces, Folded line pieces := by
  constructor
  · exact unfoldLines_flatMap fun line hline => (h line hline).2
  · exact fun line _ => exists_folded line

/-- An empty line, and a folded one of 40 characters of two octets each. -/
theorem folding_lossless_two :
    let line := bytes "X:" ++ (List.replicate 40 [0xC3, 0xA4]).flatten
    unfoldLines ([line, []].flatMap appendFolded) = [line, []] ++ [[]] ∧
      (∃ pieces, Folded line pieces) ∧ 75 < line.length := by
  intro line
  obtain ⟨hunfold, hfolded⟩ := @folding_lossless [line, []] (by decide +kernel)
  exact ⟨hunfold, hfolded line List.mem_cons_self, by decide +kernel⟩

end QuackMail.Contentline
