import QuackMail.Diff.RoundTrip

/-! # The text of a patch

A patch is a sequence of tagged lines, each ended by a newline.  The applier does not
miss the last of these newlines.
-/

namespace QuackMail.Diff

open EditScript

/-- A line of a patch: it has a tag, which is no CR, and no newline. -/
structure TaggedLine (x : Bytes) : Prop where
  clean : nl ∉ x
  tag : ∃ c s, x = c :: s ∧ c ≠ ch '\r'

def IsPatch (text : Bytes) : Prop := ∃ lines, text = unlines lines ∧ ∀ x ∈ lines, TaggedLine x

theorem IsPatch.nil : IsPatch [] := ⟨[], rfl, by simp⟩

theorem IsPatch.append {s t : Bytes} (hs : IsPatch s) (ht : IsPatch t) : IsPatch (s ++ t) := by
  obtain ⟨xs, rfl, hxs⟩ := hs
  obtain ⟨ys, rfl, hys⟩ := ht
  refine ⟨xs ++ ys, (unlines_append xs ys).symm, fun x hx => ?_⟩
  rcases List.mem_append.mp hx with hx | hx
  · exact hxs x hx
  · exact hys x hx

theorem IsPatch.flatMap {α : Type} {f : α → Bytes} {l : List α} (h : ∀ x ∈ l, IsPatch (f x)) :
    IsPatch (l.flatMap f) := by
  induction l with
  | nil => exact .nil
  | cons x l ih =>
    rw [List.flatMap_cons]
    exact (h x List.mem_cons_self).append (ih fun y hy => h y (List.mem_cons_of_mem _ hy))

theorem isPatch_hunkHeader (aStart aCount bStart bCount : Nat) :
    IsPatch (hunkHeader aStart aCount bStart bCount) := by
  refine ⟨[headerLine aStart aCount bStart bCount], by simp [hunkHeader, unlines], ?_⟩
  intro x hx
  rw [List.mem_singleton.mp hx]
  refine ⟨headerLine_clean _ _ _ _, ch '@', (headerLine aStart aCount bStart bCount).tail, ?_,
    by decide⟩
  simp [headerLine, bytes]

theorem isPatch_markedLine {tag : Byte} {text : Bytes} {last fin : Bool} (htag : tag ≠ nl)
    (hcr : tag ≠ ch '\r') (htext : nl ∉ text) :
    ∀ x ∈ markedLine tag text last fin, TaggedLine x := by
  intro x hx
  refine ⟨markedLine_clean htag htext x hx, ?_⟩
  rcases List.mem_cons.mp hx with rfl | hx
  · exact ⟨tag, text, rfl, hcr⟩
  · unfold marker at hx
    split at hx
    · rw [List.mem_singleton.mp hx]
      exact ⟨ch '\\', noNewlineText.tail, by decide, by decide⟩
    · simp at hx

theorem isPatch_emitEdit {a b : Lines} (ha : WellFormed a) (hb : WellFormed b) (e : Edit) :
    IsPatch (emitEdit a b e) := by
  refine ⟨editLines a b e, emitEdit_eq a b e, ?_⟩
  unfold editLines
  cases e.op with
  | keep => exact isPatch_markedLine (by decide) (by decide) (getD_clean ha _)
  | del => exact isPatch_markedLine (by decide) (by decide) (getD_clean ha _)
  | ins => exact isPatch_markedLine (by decide) (by decide) (getD_clean hb _)

/-- What `Unified` writes is a sequence of tagged lines. -/
theorem isPatch_unified (src dst : Bytes) (ctxlen : Int) (maxLines maxEdits : Nat) :
    IsPatch (unified src dst ctxlen maxLines maxEdits) := by
  have hedit := isPatch_emitEdit (split_wellFormed src) (split_wellFormed dst)
  have hwhole : IsPatch (wholeFileDiff (split src) (split dst)) :=
    ((isPatch_hunkHeader _ _ _ _).append (.flatMap fun i _ => hedit ⟨.del, i⟩)).append
      (.flatMap fun i _ => hedit ⟨.ins, i⟩)
  unfold unified
  split
  · exact .nil
  · unfold unifiedLines
    split
    · exact hwhole
    · split
      · exact hwhole
      · exact .flatMap fun h _ => (isPatch_hunkHeader _ _ _ _).append (.flatMap fun e _ => hedit e)

/-! ## The last newline -/

theorem split_unlines_last {lines : List Bytes} {x : Bytes} (hlines : ∀ y ∈ lines, nl ∉ y)
    (hx : nl ∉ x) (hne : x ≠ []) : (split (unlines lines ++ x)).v = lines ++ [x] := by
  induction lines with
  | nil =>
    rw [unlines, List.flatMap_nil, List.nil_append, split, splitFrom_rest hx, if_neg (by simpa)]
    rfl
  | cons y lines ih =>
    have hcons : unlines (y :: lines) ++ x = y ++ nl :: (unlines lines ++ x) := by
      simp [unlines]
    rw [hcons, split_line (hlines y List.mem_cons_self),
      ih (fun z hz => hlines z (List.mem_cons_of_mem _ hz))]
    rfl

/-- A patch is applied the same way without its last newline. -/
theorem apply_dropLast {patch : Bytes} (h : IsPatch patch) (src : Bytes) :
    apply src patch.dropLast = apply src patch := by
  obtain ⟨lines, rfl, hlines⟩ := h
  rcases List.eq_nil_or_concat lines with rfl | ⟨front, x, rfl⟩
  · rfl
  · rw [List.concat_eq_append] at hlines ⊢
    have hclean : ∀ y ∈ front ++ [x], nl ∉ y := fun y hy => (hlines y hy).clean
    obtain ⟨c, s, hx, -⟩ := (hlines x (by simp)).tag
    have hdrop : (unlines (front ++ [x])).dropLast = unlines front ++ x := by
      rw [unlines_append, show unlines [x] = x ++ [nl] by simp [unlines], ← List.append_assoc,
        List.dropLast_concat]
    have hsame : (split (unlines (front ++ [x])).dropLast).v = (split (unlines (front ++ [x]))).v := by
      rw [hdrop, split_unlines hclean, split_unlines_last
        (fun y hy => hclean y (List.mem_append_left _ hy)) (hclean x (by simp)) (by simp [hx])]
    unfold apply
    rw [hsame]

end QuackMail.Diff
