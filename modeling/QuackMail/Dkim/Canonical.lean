import QuackMail.Dkim.Message

/-! # The canonical forms of a body

What the two body algorithms of RFC 6376 give, said without `CanonicalizeBody`, and how
far the program agrees with them: everywhere, except on a line that begins with white
space and goes on.
-/

namespace QuackMail.Dkim

/-! ## The two algorithms -/

/-- The lines of a text: every line but the last ends in CRLF, the last one may. -/
inductive Lines : Bytes → List Bytes → Prop where
  | nil : Lines [] []
  | last {x : Bytes} (ne : x ≠ []) (clean : ¬crlf <:+: x) : Lines x [x]
  | cons {x s : Bytes} {lines : List Bytes} (clean : ¬crlf <:+: x ++ [cr]) (rest : Lines s lines) :
      Lines (x ++ crlf ++ s) (x :: lines)

/-- Every run of white space is one space. -/
def squeeze : Bytes → Bytes
  | [] => []
  | c :: s =>
    if isWsp c then (if s.head?.any isWsp then squeeze s else ch ' ' :: squeeze s)
    else c :: squeeze s

/-- A line with its runs of white space reduced and none left at its end. -/
def reduceLine (line : Bytes) : Bytes := (squeeze line).rdropWhile isWsp

/-- The lines up to the last one that is not empty, each with its CRLF. -/
def linesText (lines : List Bytes) : Bytes :=
  (lines.rdropWhile (fun l => decide (l = []))).flatMap (· ++ crlf)

/-- Section 3.4.4, the relaxed form. -/
def IsRelaxed (body out : Bytes) : Prop :=
  ∃ lines, Lines body lines ∧ out = linesText (lines.map reduceLine)

/-- Section 3.4.3, the simple form: what CRLFs there are at the end become one. -/
def IsSimple (body out : Bytes) : Prop :=
  ∃ text n, body = text ++ (List.replicate n crlf).flatten ∧ ¬crlf <:+ text ∧ out = text ++ crlf

/-- A line that begins with white space and has something else in it. -/
def Indented (line : Bytes) : Prop :=
  (∃ c ∈ line.head?, isWsp c = true) ∧ ∃ c ∈ line, isWsp c = false

/-! ## The lines -/

theorem linesFrom_last {x : Bytes} (cur : Bytes) (h : ¬crlf <:+: x) :
    linesFrom false cur x = if cur ++ x = [] then [] else [cur ++ x] := by
  induction x generalizing cur with
  | nil => rw [linesFrom, List.append_nil]
  | cons c x ih =>
    have hnot : ¬(c = cr ∧ x.head? = some lf) := by
      rintro ⟨rfl, hhead⟩
      obtain ⟨x', rfl⟩ : ∃ x', x = lf :: x' := by
        cases x with
        | nil => simp at hhead
        | cons d x' => exact ⟨x', by rw [Option.some.inj hhead]⟩
      exact h ⟨[], x', rfl⟩
    have hrest : ¬crlf <:+: x := fun hin => h (hin.trans (List.suffix_cons c x).isInfix)
    rw [linesFrom, if_neg hnot, ih _ hrest, List.append_assoc]
    rfl

theorem linesFrom_line {x : Bytes} (cur s : Bytes) (h : ¬crlf <:+: x ++ [cr]) :
    linesFrom false cur (x ++ crlf ++ s) = (cur ++ x) :: linesFrom false [] s := by
  induction x generalizing cur with
  | nil =>
    rw [List.nil_append, List.append_nil]
    rfl
  | cons c x ih =>
    have hnot : ¬(c = cr ∧ (x ++ crlf ++ s).head? = some lf) := by
      rintro ⟨rfl, hhead⟩
      cases x with
      | nil =>
        rw [List.nil_append, crlf, List.cons_append, List.head?_cons] at hhead
        exact absurd hhead (by decide)
      | cons d x =>
        -- the line would end here
        obtain rfl : d = lf := Option.some.inj hhead
        exact h ⟨[], x ++ [cr], rfl⟩
    have hrest : ¬crlf <:+: x ++ [cr] :=
      fun hin => h (hin.trans (List.suffix_cons c (x ++ [cr])).isInfix)
    have ih' := ih (cur ++ [c]) hrest
    rw [List.append_assoc cur, List.singleton_append] at ih'
    rw [← ih', List.cons_append, List.cons_append, linesFrom, if_neg hnot]

variable {lines : List Bytes} {s : Bytes}

theorem crlfLines_of_lines (h : Lines s lines) : crlfLines s = lines := by
  induction h with
  | nil => rfl
  | last hne hclean =>
    rw [crlfLines, linesFrom_last [] hclean, List.nil_append, if_neg hne]
  | cons hclean _ ih =>
    rw [crlfLines, linesFrom_line [] _ hclean, List.nil_append, ← ih, crlfLines]

/-- A text is cut at its first CRLF. -/
theorem exists_first_crlf (h : crlf <:+: s) : ∃ x t, s = x ++ crlf ++ t ∧ ¬crlf <:+: x ++ [cr] := by
  induction s with
  | nil => simp [crlf] at h
  | cons c s ih =>
    by_cases hfirst : crlf <+: c :: s
    · obtain ⟨t, ht⟩ := hfirst
      exact ⟨[], t, ht.symm, by decide⟩
    · obtain ⟨x, t, rfl, hclean⟩ := ih ((List.infix_cons_iff.mp h).resolve_left hfirst)
      refine ⟨c :: x, t, rfl, fun hin => ?_⟩
      rcases List.infix_cons_iff.mp hin with hpre | hin
      · refine hfirst ?_
        obtain ⟨u, hu⟩ := hpre
        cases x with
        | nil => simp [crlf, lf, cr] at hu
        | cons d x =>
          obtain ⟨rfl, rfl, -⟩ := hu
          exact ⟨x ++ crlf ++ t, rfl⟩
      · exact hclean hin

theorem lines_crlfLines (s : Bytes) : Lines s (crlfLines s) := by
  obtain ⟨n, hn⟩ : ∃ n, n = s.length := ⟨_, rfl⟩
  induction n using Nat.strong_induction_on generalizing s with
  | _ n ih =>
    by_cases h : crlf <:+: s
    · obtain ⟨x, t, rfl, hclean⟩ := exists_first_crlf h
      have ht := ih t.length (by simp [hn, crlf]; omega) t rfl
      rw [crlfLines, linesFrom_line [] _ hclean, List.nil_append]
      exact .cons hclean ht
    · rw [crlfLines, linesFrom_last [] h, List.nil_append]
      split
      · next hnil => exact hnil ▸ .nil
      · next hne => exact .last hne h

theorem lines_iff : Lines s lines ↔ crlfLines s = lines :=
  ⟨crlfLines_of_lines, fun h => h ▸ lines_crlfLines s⟩

/-! ## One line -/

theorem reduceLine_cons_of_not {c : Byte} (hc : isWsp c = false) (s : Bytes) :
    reduceLine (c :: s) = c :: reduceLine s := by
  rw [reduceLine, squeeze, if_neg (by simp [hc]), rdropWhile_cons, if_neg (by simp [hc]), reduceLine]

/-- What a space in front of a line becomes. -/
def spaced (s : Bytes) : Bytes := if s = [] then [] else ch ' ' :: s

theorem reduceLine_space {c : Byte} (hc : isWsp c = true) (s : Bytes) :
    reduceLine (c :: s) = spaced (reduceLine (s.dropWhile isWsp)) := by
  induction s generalizing c with
  | nil =>
    rw [reduceLine, squeeze, if_pos hc]
    decide
  | cons d s ih =>
    by_cases hd : isWsp d = true
    · rw [List.dropWhile_cons_of_pos hd, ← ih hd, reduceLine, squeeze, if_pos hc,
        if_pos (by simpa using hd), reduceLine]
    · have hspace : isWsp (ch ' ') = true := by decide
      rw [List.dropWhile_cons_of_neg hd, spaced, reduceLine, squeeze, if_pos hc,
        if_neg (by simpa using hd), rdropWhile_cons, hspace]
      simp [reduceLine]

/-- In the middle of a line the program does what the RFC says. -/
theorem collapseFrom_started (inWsp : Bool) (s : Bytes) : collapseFrom true inWsp s =
      if inWsp then spaced (reduceLine (s.dropWhile isWsp)) else reduceLine s := by
  induction s generalizing inWsp with
  | nil => cases inWsp <;> rfl
  | cons c s ih =>
    by_cases hc : isWsp c = true
    · rw [collapseFrom, if_pos hc, ih, if_pos rfl, List.dropWhile_cons_of_pos hc,
        reduceLine_space hc, ite_self]
    · have hc' : isWsp c = false := by simpa using hc
      rw [collapseFrom, if_neg hc, ih, List.dropWhile_cons_of_neg hc,
        reduceLine_cons_of_not hc', if_neg Bool.false_ne_true, Bool.and_true]
      cases inWsp with
      | false => rfl
      | true => simp only [if_true, spaced, reduceCtorEq, if_false, List.singleton_append]

/-- In front of it the white space is gone. -/
theorem collapse_eq (s : Bytes) : collapse s = reduceLine (s.dropWhile isWsp) := by
  have hfrom : ∀ inWsp, collapseFrom false inWsp s = reduceLine (s.dropWhile isWsp) := by
    induction s with
    | nil => exact fun _ => rfl
    | cons c s ih =>
      intro inWsp
      by_cases hc : isWsp c = true
      · rw [collapseFrom, if_pos hc, ih, List.dropWhile_cons_of_pos hc]
      · have hc' : isWsp c = false := by simpa using hc
        rw [collapseFrom, if_neg hc, collapseFrom_started, List.dropWhile_cons_of_neg hc,
          reduceLine_cons_of_not hc', Bool.and_false, if_neg Bool.false_ne_true,
          if_neg Bool.false_ne_true, List.nil_append]
  exact hfrom false

theorem reduceLine_eq_nil_iff (h : s.head?.any isWsp = false) : reduceLine s = [] ↔ s = [] := by
  cases s with
  | nil => simp [reduceLine, squeeze]
  | cons c s => simp [reduceLine_cons_of_not (by simpa using h)]

theorem head_dropWhile (s : Bytes) : (s.dropWhile isWsp).head?.any isWsp = false := by
  induction s with
  | nil => rfl
  | cons c s ih =>
    by_cases hc : isWsp c = true
    · rw [List.dropWhile_cons_of_pos hc, ih]
    · rw [List.dropWhile_cons_of_neg hc]
      simpa using hc

/-- The two agree on a line that is not indented, and the RFC keeps one space more of one
    that is. -/
theorem reduceLine_eq (line : Bytes) : (¬Indented line → reduceLine line = collapse line) ∧
      (Indented line → reduceLine line = ch ' ' :: collapse line ∧ collapse line ≠ []) := by
  rw [collapse_eq]
  cases line with
  | nil => exact ⟨fun _ => rfl, fun h => by simp [Indented] at h⟩
  | cons c s =>
    by_cases hc : isWsp c = true
    · rw [reduceLine_space hc, List.dropWhile_cons_of_pos hc]
      have hnil := reduceLine_eq_nil_iff (head_dropWhile s)
      have hother : (∃ d ∈ c :: s, isWsp d = false) ↔ s.dropWhile isWsp ≠ [] := by
        simp [hc]
      constructor
      · intro h
        have hempty : s.dropWhile isWsp = [] := by
          by_contra hne
          exact h ⟨⟨c, rfl, hc⟩, hother.mpr hne⟩
        rw [hempty]
        rfl
      · rintro ⟨-, h⟩
        have hne := mt hnil.mp (hother.mp h)
        exact ⟨if_neg hne, hne⟩
    · rw [List.dropWhile_cons_of_neg hc]
      refine ⟨fun _ => rfl, fun h => ?_⟩
      obtain ⟨⟨d, hd, hwsp⟩, -⟩ := h
      obtain rfl : c = d := by simpa using hd
      exact absurd hwsp hc

/-! ## The whole body -/

theorem linesText_nil_iff :
    lines.rdropWhile (fun l => decide (l = [])) = [] → linesText lines = [] := by
  intro h
  rw [linesText, h]
  rfl

theorem canonicalizeBody_relaxed (body : Bytes) :
    canonicalizeBody body true = linesText ((crlfLines body).map collapse) := by
  simp only [canonicalizeBody, if_pos]
  split
  · next h => exact (linesText_nil_iff h).symm
  · rfl

theorem collapse_eq_nil_iff (line : Bytes) : collapse line = [] ↔ reduceLine line = [] := by
  obtain ⟨hsame, hmore⟩ := reduceLine_eq line
  by_cases h : Indented line
  · simp [(hmore h).1, (hmore h).2]
  · rw [hsame h]

/-- The empty lines at the end are the same ones for both. -/
theorem linesText_map {f : Bytes → Bytes} (hf : ∀ line, f line = [] ↔ reduceLine line = [])
    (lines : List Bytes) : linesText (lines.map f) =
      ((lines.rdropWhile (fun l => decide (reduceLine l = []))).map f).flatMap (· ++ crlf) := by
  have hpred : (fun l : Bytes => decide (l = [])) ∘ f = fun l => decide (reduceLine l = []) := by
    funext l
    simp [hf]
  rw [linesText, List.rdropWhile, List.rdropWhile, ← List.map_reverse, List.dropWhile_map, hpred,
    List.map_reverse]

/-- Where a line is indented the RFC's text is longer. -/
theorem length_flatMap_collapse (lines : List Bytes) :
    ((lines.map collapse).flatMap (· ++ crlf)).length ≤
        ((lines.map reduceLine).flatMap (· ++ crlf)).length ∧
      ((∃ line ∈ lines, Indented line) → ((lines.map collapse).flatMap (· ++ crlf)).length <
        ((lines.map reduceLine).flatMap (· ++ crlf)).length) := by
  induction lines with
  | nil => simp
  | cons line lines ih =>
    obtain ⟨hle, hlt⟩ := ih
    obtain ⟨hsame, hmore⟩ := reduceLine_eq line
    have hline : (collapse line).length ≤ (reduceLine line).length ∧
        (Indented line → (collapse line).length < (reduceLine line).length) := by
      by_cases h : Indented line
      · simp [(hmore h).1]
      · simp [hsame h, h]
    simp only [List.map_cons, List.flatMap_cons, List.length_append, List.exists_mem_cons_iff]
    refine ⟨by omega, ?_⟩
    rintro (h | h)
    · have := hline.2 h
      omega
    · have := hlt h
      omega

/-- The relaxed form is the RFC's exactly where no line is indented. -/
theorem isRelaxed_iff (body : Bytes) : IsRelaxed body (canonicalizeBody body true) ↔
    ∀ line ∈ crlfLines body, ¬Indented line := by
  have hcollapse := linesText_map collapse_eq_nil_iff (crlfLines body)
  have hreduce := linesText_map (f := reduceLine) (fun _ => Iff.rfl) (crlfLines body)
  constructor
  · rintro ⟨lines, hlines, hout⟩ line hline hindented
    rw [lines_iff] at hlines
    subst hlines
    -- an indented line is not empty, so it is among the lines that are kept
    have hkept : line ∈ (crlfLines body).rdropWhile (fun l => decide (reduceLine l = [])) := by
      have hsplit : (crlfLines body).rdropWhile (fun l => decide (reduceLine l = [])) ++
          (crlfLines body).rtakeWhile (fun l => decide (reduceLine l = [])) = crlfLines body :=
        List.rdropWhile_append_rtakeWhile
      rw [← hsplit, List.mem_append] at hline
      refine hline.resolve_right fun htaken => ?_
      have hnil := List.mem_rtakeWhile_imp htaken
      rw [decide_eq_true_eq, ← collapse_eq_nil_iff] at hnil
      exact ((reduceLine_eq line).2 hindented).2 hnil
    rw [canonicalizeBody_relaxed, hcollapse, hreduce] at hout
    have hlt := (length_flatMap_collapse _).2 ⟨line, hkept, hindented⟩
    rw [hout] at hlt
    exact Nat.lt_irrefl _ hlt
  · intro hclean
    refine ⟨_, lines_crlfLines body, ?_⟩
    have hmap : (crlfLines body).map collapse = (crlfLines body).map reduceLine :=
      List.map_congr_left fun line hline => ((reduceLine_eq line).1 (hclean line hline)).symm
    rw [canonicalizeBody_relaxed, hmap]

theorem linesText_cons (x : Bytes) (lines : List Bytes) : linesText (x :: lines) =
    if linesText lines = [] then (if x = [] then [] else x ++ crlf)
    else x ++ crlf ++ linesText lines := by
  have hnil : linesText lines = [] ↔ lines.rdropWhile (fun l => decide (l = [])) = [] := by
    refine ⟨fun h => ?_, linesText_nil_iff⟩
    rw [linesText, List.flatMap_eq_nil_iff] at h
    exact List.eq_nil_iff_forall_not_mem.mpr fun y hy => by simpa [crlf] using h y hy
  simp only [hnil]
  rw [linesText, rdropWhile_cons]
  by_cases hx : x = [] <;> by_cases hblank : lines.rdropWhile (fun l => decide (l = [])) = [] <;>
    simp [hx, hblank, linesText]

/-- The last line that is put out is not empty. -/
theorem linesText_ne_crlf (lines : List Bytes) : linesText lines ≠ crlf := by
  induction lines with
  | nil => decide
  | cons x lines ih =>
    intro h
    have hlen := congrArg List.length h
    rw [linesText_cons] at h hlen
    by_cases hnil : linesText lines = []
    · rw [if_pos hnil] at h hlen
      cases x with
      | nil => simp [crlf] at h
      | cons c x => simp [crlf] at hlen
    · have hpos := List.length_pos_iff.mpr hnil
      rw [if_neg hnil] at hlen
      simp at hlen
      omega

/-- A CRLF at the end of what follows a CRLF is an end of the rest. -/
theorem crlf_suffix_of_append {x t : Bytes} (ht : t ≠ []) (h : crlf <:+ x ++ crlf ++ t) :
    crlf <:+ t := by
  obtain ⟨front, c, rfl⟩ := (List.eq_nil_or_concat t).resolve_left ht
  rw [List.concat_eq_append] at h ⊢
  obtain ⟨u, hu⟩ := h
  rcases List.eq_nil_or_concat front with rfl | ⟨front', d, rfl⟩
  · -- the octet in front of the last one is an LF
    have hu' : u ++ [cr] ++ [lf] = x ++ [cr] ++ [lf] ++ [c] := by
      simpa [crlf] using hu
    have := (List.append_inj' hu' rfl).1
    have := (List.append_inj' this rfl).2
    simp [cr, lf] at this
  · have hu' : u ++ [cr] ++ [lf] = x ++ crlf ++ front' ++ [d] ++ [c] := by
      simpa [crlf] using hu
    obtain ⟨hfront, hc⟩ := List.append_inj' hu' rfl
    obtain ⟨-, hd⟩ := List.append_inj' hfront rfl
    refine ⟨front', ?_⟩
    rw [List.concat_eq_append, ← hc, ← hd, List.append_assoc]
    rfl

/-- The simple form of a text, line by line. -/
theorem isSimple_linesText {body : Bytes} (h : Lines body lines) :
    IsSimple body (if linesText lines = [] then crlf else linesText lines) := by
  induction h with
  | nil => exact ⟨[], 0, rfl, by decide, rfl⟩
  | @last x hne hclean =>
    have hout : linesText [x] = x ++ crlf := by
      rw [linesText_cons, if_pos (by rfl), if_neg hne]
    rw [hout, if_neg (by simp [crlf])]
    exact ⟨x, 0, by simp, fun hsuf => hclean hsuf.isInfix, rfl⟩
  | @cons x s lines hclean hlines ih =>
    obtain ⟨text, n, rfl, htext, hout⟩ := ih
    rw [linesText_cons]
    by_cases hnil : linesText lines = []
    · -- only empty lines follow
      rw [if_pos hnil] at hout
      have hempty : text = [] := by simpa using congrArg List.length hout
      subst hempty
      have hend : ¬crlf <:+ x := fun hsuf =>
        hclean (hsuf.isInfix.trans (List.prefix_append x [cr]).isInfix)
      refine ⟨x, n + 1, by simp [List.replicate_succ], hend, ?_⟩
      rw [if_pos hnil]
      by_cases hx : x = []
      · rw [if_pos hx, if_pos rfl, hx, List.nil_append]
      · rw [if_neg hx, if_neg (by simp [crlf])]
    · rw [if_neg hnil] at hout
      have hne : text ≠ [] := by
        rintro rfl
        exact linesText_ne_crlf lines hout
      refine ⟨x ++ crlf ++ text, n, by simp, fun hsuf => htext (crlf_suffix_of_append hne hsuf), ?_⟩
      rw [if_neg hnil, if_neg (by simp [crlf]), hout]
      simp

theorem isSimple (body : Bytes) : IsSimple body (canonicalizeBody body false) := by
  have h := isSimple_linesText (lines_crlfLines body)
  have hcode : canonicalizeBody body false =
      if linesText (crlfLines body) = [] then crlf else linesText (crlfLines body) := by
    simp only [canonicalizeBody, Bool.false_eq_true, if_false]
    split
    · next hnil => rw [linesText_nil_iff hnil, if_pos rfl]
    · next hne =>
      have : linesText (crlfLines body) ≠ [] := by
        intro hnil
        rw [linesText, List.flatMap_eq_nil_iff] at hnil
        refine hne (List.eq_nil_iff_forall_not_mem.mpr fun y hy => ?_)
        simpa [crlf] using hnil y hy
      rw [if_neg this]
      rfl
  rw [hcode]
  exact h

/-! ## The two together -/

/-- Both canonical forms are the RFC's exactly for a body without an indented line. -/
theorem canonicalizeBody_iff (body : Bytes) :
    IsRelaxed body (canonicalizeBody body true) ∧ IsSimple body (canonicalizeBody body false) ↔
      ∀ line ∈ crlfLines body, ¬Indented line := by
  rw [isRelaxed_iff]
  exact and_iff_left (isSimple body)

/-- The white space in front of a line is deleted, not reduced. -/
theorem canonicalizeBody_indented : canonicalizeBody (bytes " a\r\n") true = bytes "a\r\n" ∧
      ¬IsRelaxed (bytes " a\r\n") (canonicalizeBody (bytes " a\r\n") true) := by
  refine ⟨by decide, fun h => ?_⟩
  refine (isRelaxed_iff _).mp h (bytes " a") (by decide) ⟨⟨ch ' ', by decide, by decide⟩, ?_⟩
  exact ⟨ch 'a', by decide, by decide⟩

end QuackMail.Dkim
