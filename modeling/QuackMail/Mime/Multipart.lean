import QuackMail.Mime.Entity

/-! # Splitting a multipart body

A body whose parts end in a newline and hold no line that begins with the delimiter
is split into these parts, each without the line ending in front of the delimiter.
-/

namespace QuackMail.Mime

def nl : Byte := ch '\n'

/-- A position where a line starts: the beginning, or after a newline. -/
def Starts (s : Bytes) : Prop := s = [] ∨ s.getLast? = some nl

/-- Whole lines none of which begins with the delimiter. -/
structure Quiet (dash x : Bytes) : Prop where
  ending : x = [] ∨ x.getLast? = some nl
  quiet : ∀ u v, x = u ++ v → v ≠ [] → Starts u → ¬dash <+: v

theorem Quiet.starts {dash x : Bytes} (h : Quiet dash x) : Starts x := h.ending

theorem starts_append {a x : Bytes} (ha : Starts a) (hx : Starts x) : Starts (a ++ x) := by
  rcases hx with rfl | hx
  · simpa using ha
  · right
    rw [List.getLast?_append, hx]
    rfl

theorem atLineStart_iff {a s : Bytes} : atLineStart (a ++ s) a.length = true ↔ Starts a := by
  unfold atLineStart Starts
  rcases List.eq_nil_or_concat a with rfl | ⟨a', c, rfl⟩
  · simp
  · simp only [List.concat_eq_append, Bool.or_eq_true, beq_iff_eq, List.length_append,
      List.length_singleton, Nat.add_sub_cancel, List.append_assoc, List.singleton_append]
    simp [nl]

/-- An occurrence of the delimiter in whole lines lies within them. -/
theorem prefix_of_lines {dash v s : Bytes} (hdash : nl ∉ dash) (hv : v.getLast? = some nl)
    (h : dash <+: v ++ s) : dash <+: v ∧ dash.length < v.length := by
  obtain ⟨v', rfl⟩ : ∃ v', v = v' ++ [nl] := by
    rcases List.eq_nil_or_concat v with rfl | ⟨v', c, rfl⟩
    · simp at hv
    · refine ⟨v', ?_⟩
      simp only [List.concat_eq_append, List.getLast?_append, List.getLast?_singleton,
        Option.some_or, Option.some.injEq] at hv
      rw [hv, List.concat_eq_append]
  rw [List.append_assoc] at h
  have hpre := prefix_of_append_cons hdash h
  exact ⟨hpre.trans (List.prefix_append v' _), by simp [Nat.lt_succ_of_le hpre.length_le]⟩

section Delimiters

variable {dash a x z : Bytes} (hpos : dash ≠ []) (hdash : nl ∉ dash) (ha : Starts a)
  (hx : Quiet dash x)
include hpos hdash ha hx

/-- From anywhere in the lines of a part the scan comes to the delimiter after them. -/
theorem delimiters_next (n : Nat) :
    ∀ k fuel, k ≤ x.length → x.length - k = n →
      (a ++ x ++ dash ++ z).length < fuel + (a.length + k) →
      ∃ fuel', (a ++ x ++ dash ++ z).length ≤ fuel' + (a.length + x.length) ∧
        delimiters dash (a ++ x ++ dash ++ z) fuel (a.length + k) =
          (delimiterAt dash (a ++ x ++ dash ++ z) (a ++ x).length).1 ::
            if (delimiterAt dash (a ++ x ++ dash ++ z) (a ++ x).length).2 then []
            else delimiters dash (a ++ x ++ dash ++ z) fuel'
              (delimiterAt dash (a ++ x ++ dash ++ z) (a ++ x).length).1.content := by
  induction n using Nat.strongRecOn with
  | ind n ih =>
    intro k fuel hk hn hfuel
    have hdlen : 0 < dash.length := List.length_pos_iff.mpr hpos
    obtain ⟨fuel, rfl⟩ : ∃ f, fuel = f + 1 := by
      refine ⟨fuel - 1, ?_⟩
      simp only [List.length_append] at hfuel
      omega
    have hdrop : (a ++ x ++ dash ++ z).drop (a.length + k) = x.drop k ++ (dash ++ z) := by
      rw [List.append_assoc, List.append_assoc, List.drop_length_add_append,
        List.drop_append_of_le_length hk]
    obtain ⟨q, hq, hfind⟩ := @exists_find_le dash (x.drop k ++ (dash ++ z))
      (x.drop k).length (by simp)
    have hfrom : findFrom dash (a ++ x ++ dash ++ z) (a.length + k) = some (q + (a.length + k)) := by
      rw [findFrom, hdrop, hfind]
      rfl
    rw [delimiters, hfrom]
    simp only [List.length_drop] at hq
    rcases Nat.lt_or_eq_of_le hq with hlt | heq
    · -- an occurrence within the part: it is not at the start of a line
      have hsplit : x = x.take (k + q) ++ x.drop (k + q) := (List.take_append_drop _ _).symm
      have hne : x.drop (k + q) ≠ [] := by
        simp only [ne_eq, List.drop_eq_nil_iff, Nat.not_le]
        omega
      have hend : (x.drop (k + q)).getLast? = some nl := by
        rcases hx.ending with hnil | hend
        · simp [hnil] at hlt
        · rw [hsplit, List.getLast?_append] at hend
          rcases List.eq_nil_or_concat (x.drop (k + q)) with hnil | ⟨y, c, hy⟩
          · exact absurd hnil hne
          · rw [hy] at hend ⊢
            simpa using hend
      have hocc : dash <+: x.drop (k + q) ++ (dash ++ z) := by
        have hspec := (find_spec hfind).1
        rwa [List.drop_append_of_le_length (by simp; omega), List.drop_drop] at hspec
      obtain ⟨hin, hlen⟩ := prefix_of_lines hdash hend hocc
      have hstart : atLineStart (a ++ x ++ dash ++ z) (q + (a.length + k)) = false := by
        rw [Bool.eq_false_iff]
        intro hstart
        have hat : a ++ x ++ dash ++ z =
            (a ++ x.take (k + q)) ++ (x.drop (k + q) ++ (dash ++ z)) := by
          conv_lhs => rw [hsplit]
          simp only [List.append_assoc]
        have hlen' : q + (a.length + k) = (a ++ x.take (k + q)).length := by
          simp only [List.length_append, List.length_take]
          omega
        rw [hat, hlen', atLineStart_iff] at hstart
        refine hx.quiet _ _ hsplit hne ?_ hin
        rcases hstart with hnil | hlast
        · exact .inl (List.append_eq_nil_iff.mp hnil).2
        · rcases List.eq_nil_or_concat (x.take (k + q)) with htake | ⟨y, c, hy⟩
          · exact .inl htake
          · right
            rw [hy] at hlast ⊢
            simpa using hlast
      simp only [hstart, Bool.false_eq_true, if_false]
      simp only [List.length_drop] at hlen
      rw [show q + (a.length + k) + dash.length = a.length + (k + q + dash.length) by omega]
      exact ih (x.length - (k + q + dash.length)) (by omega) _ fuel (by omega) rfl (by omega)
    · -- the delimiter after the part
      have hat : q + (a.length + k) = (a ++ x).length := by
        simp only [List.length_append]
        omega
      have hstart : atLineStart (a ++ x ++ dash ++ z) (a ++ x).length = true := by
        rw [List.append_assoc (a ++ x), atLineStart_iff]
        exact starts_append ha hx.starts
      rw [hat]
      refine ⟨fuel, by simp only [List.length_append] at hfuel ⊢; omega, ?_⟩
      simp only [hstart, if_true]

/-- A delimiter line that opens a part. -/
theorem delimiters_open {fuel : Nat}
    (hfuel : (a ++ x ++ dash ++ nl :: z).length < fuel + a.length) :
    ∃ fuel', (a ++ x ++ dash ++ nl :: z).length < fuel' + (a ++ x ++ dash ++ [nl]).length ∧
      delimiters dash (a ++ x ++ dash ++ nl :: z) fuel a.length =
        ⟨(a ++ x).length, (a ++ x ++ dash ++ [nl]).length⟩ ::
          delimiters dash (a ++ x ++ dash ++ nl :: z) fuel' (a ++ x ++ dash ++ [nl]).length := by
  obtain ⟨fuel', hfuel', hnext⟩ := delimiters_next (z := nl :: z) hpos hdash ha hx x.length 0 fuel
    (Nat.zero_le _) (by omega) (by simpa using hfuel)
  have hdelim : delimiterAt dash (a ++ x ++ dash ++ nl :: z) (a ++ x).length =
      (⟨(a ++ x).length, (a ++ x ++ dash ++ [nl]).length⟩, false) := by
    have hafter : (a ++ x).length + dash.length = (a ++ x ++ dash).length :=
      List.length_append.symm
    have hne : ¬(nl :: z).take 2 = bytes "--" := by
      intro h
      have hhead := congrArg List.head? h
      simp [bytes, nl, ch] at hhead
    simp only [delimiterAt, hafter, List.drop_left, hne, decide_false, if_false, findCharFrom]
    rw [findChar, if_pos (show nl = ch '\n' from rfl)]
    simp [Nat.add_assoc]
  rw [Nat.add_zero, hdelim] at hnext
  exact ⟨fuel', by simp only [List.length_append, List.length_singleton] at hfuel' ⊢; omega, hnext⟩

/-- The closing delimiter line. -/
theorem delimiters_close {fuel : Nat}
    (hfuel : (a ++ x ++ dash ++ (bytes "--" ++ z)).length < fuel + a.length) :
    ∃ content, delimiters dash (a ++ x ++ dash ++ (bytes "--" ++ z)) fuel a.length =
      [⟨(a ++ x).length, content⟩] := by
  obtain ⟨fuel', -, hnext⟩ := delimiters_next (z := bytes "--" ++ z) hpos hdash ha hx x.length 0
    fuel (Nat.zero_le _) (by omega) (by simpa using hfuel)
  have hclose : (delimiterAt dash (a ++ x ++ dash ++ (bytes "--" ++ z)) (a ++ x).length).2 =
      true := by
    have hafter : (a ++ x).length + dash.length = (a ++ x ++ dash).length :=
      List.length_append.symm
    simp only [delimiterAt, hafter, List.drop_left]
    rw [List.take_left' (by decide)]
    simp
  rw [Nat.add_zero, hclose] at hnext
  exact ⟨_, by simpa [delimiterAt] using hnext⟩

end Delimiters

/-- The parts with a delimiter line in front of each, and the closing one. -/
def partsText (dash : Bytes) (parts : List Bytes) : Bytes :=
  parts.flatMap (fun x => dash ++ nl :: x) ++ dash ++ (bytes "--" ++ [nl])

/-- Between one delimiter and the next stands one part. -/
theorem partsBetween_cons {a x z : Bytes} (p content : Nat) (rest : List Delimiter) :
    partsBetween (a ++ x ++ z) (⟨p, a.length⟩ :: ⟨(a ++ x).length, content⟩ :: rest) =
      trimEnding x :: partsBetween (a ++ x ++ z) (⟨(a ++ x).length, content⟩ :: rest) := by
  rw [partsBetween]
  rw [List.append_assoc, List.drop_left, List.length_append, Nat.add_sub_cancel_left,
    List.take_left]

theorem partsBetween_run {dash : Bytes} (hpos : dash ≠ []) (hdash : nl ∉ dash) :
    ∀ (parts : List Bytes) (a x : Bytes) (p fuel : Nat), Starts a → Quiet dash x →
      (∀ y ∈ parts, Quiet dash y) →
      (a ++ x ++ partsText dash parts).length < fuel + a.length →
      partsBetween (a ++ x ++ partsText dash parts)
        (⟨p, a.length⟩ :: delimiters dash (a ++ x ++ partsText dash parts) fuel a.length) =
        trimEnding x :: parts.map trimEnding := by
  intro parts
  induction parts with
  | nil =>
    intro a x p fuel ha hx _ hfuel
    have htext : a ++ x ++ partsText dash [] = a ++ x ++ dash ++ (bytes "--" ++ [nl]) := by
      simp [partsText]
    rw [htext] at hfuel ⊢
    obtain ⟨content, hclose⟩ := delimiters_close hpos hdash ha hx hfuel
    rw [hclose, List.append_assoc (a ++ x), partsBetween_cons]
    rfl
  | cons y parts ih =>
    intro a x p fuel ha hx hparts hfuel
    have htext : a ++ x ++ partsText dash (y :: parts) =
        a ++ x ++ dash ++ nl :: (y ++ partsText dash parts) := by
      simp [partsText]
    rw [htext] at hfuel ⊢
    obtain ⟨fuel', hfuel', hopen⟩ := delimiters_open hpos hdash ha hx hfuel
    have hnext : a ++ x ++ dash ++ nl :: (y ++ partsText dash parts) =
        (a ++ x ++ dash ++ [nl]) ++ y ++ partsText dash parts := by
      simp
    have hstart : Starts (a ++ x ++ dash ++ [nl]) := .inr (by simp)
    have hrun := ih (a ++ x ++ dash ++ [nl]) y (a ++ x).length fuel' hstart
      (hparts y List.mem_cons_self) (fun q hq => hparts q (List.mem_cons_of_mem _ hq))
      (by rwa [hnext] at hfuel')
    rw [← hnext] at hrun
    rw [hopen, List.append_assoc (a ++ x), partsBetween_cons, ← List.append_assoc (a ++ x), hrun]
    rfl

/-- A multipart body is split into its parts. -/
theorem splitMultipart_parts {boundary before : Bytes} {parts : List Bytes}
    (hboundary : nl ∉ boundary) (hbefore : Quiet (bytes "--" ++ boundary) before)
    (hparts : ∀ x ∈ parts, Quiet (bytes "--" ++ boundary) x) :
    splitMultipart (before ++ partsText (bytes "--" ++ boundary) parts) boundary =
      parts.map trimEnding := by
  have hpos : bytes "--" ++ boundary ≠ [] := by
    rw [ne_eq, List.append_eq_nil_iff, not_and]
    intro h
    exact absurd h (by decide)
  have hdash : nl ∉ bytes "--" ++ boundary := by
    intro h
    rcases List.mem_append.mp h with h | h
    · exact absurd h (by decide)
    · exact hboundary h
  have hrun := partsBetween_run hpos hdash parts [] before 0
    ((before ++ partsText (bytes "--" ++ boundary) parts).length + 1) (.inl rfl) hbefore hparts
    (by simp)
  -- the text in front of the first delimiter is no part
  rw [splitMultipart]
  rw [List.nil_append, List.length_nil] at hrun
  cases hdelims : delimiters (bytes "--" ++ boundary)
      (before ++ partsText (bytes "--" ++ boundary) parts)
      ((before ++ partsText (bytes "--" ++ boundary) parts).length + 1) 0 with
  | nil =>
    rw [hdelims, partsBetween] at hrun
    · simp at hrun
    · simp
  | cons d rest =>
    rw [hdelims, partsBetween, List.cons.injEq] at hrun
    exact hrun.2

end QuackMail.Mime
