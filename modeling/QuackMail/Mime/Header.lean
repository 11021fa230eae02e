import QuackMail.Mime.Entity

/-! # Reading plain header fields

Fields without folds, comments and escapes are read as they were written.
-/

namespace QuackMail.Mime

set_option maxRecDepth 20000

/-! ## Lines of a header block -/

theorem headerLines_chars {x : Bytes} (hx : ∀ c ∈ x, c ≠ ch '\r' ∧ c ≠ ch '\n') (cur s : Bytes) :
    headerLines false cur (x ++ s) = headerLines false (cur ++ x) s := by
  induction x generalizing cur with
  | nil => simp
  | cons c x ih =>
    obtain ⟨hcr, hlf⟩ := hx c List.mem_cons_self
    rw [List.cons_append, headerLines, if_neg (by simp), if_neg hcr, if_neg hlf,
      ih (fun d hd => hx d (List.mem_cons_of_mem _ hd))]
    simp

/-- A line that no continuation follows. -/
theorem headerLines_line {x s : Bytes} (hx : ∀ c ∈ x, c ≠ ch '\r' ∧ c ≠ ch '\n')
    (hs : s.head?.any isBlank = false) :
    headerLines false [] (x ++ ch '\n' :: s) = x :: headerLines false [] s := by
  rw [headerLines_chars hx, headerLines, if_neg (by simp), if_neg (by decide), if_pos rfl]
  simp [hs]

theorem headerLines_last {x : Bytes} (hx : ∀ c ∈ x, c ≠ ch '\r' ∧ c ≠ ch '\n') (hne : x ≠ []) :
    headerLines false [] x = [x] := by
  have h := headerLines_chars hx [] []
  rw [List.append_nil, List.nil_append] at h
  rw [h, headerLines, if_neg hne]

theorem headerValue_cons_pos {name want : Bytes} (h : lower name = lower want) (value : Bytes)
    (rest : List (Bytes × Bytes)) : headerValue ((name, value) :: rest) want = value := by
  rw [headerValue, List.find?_cons_of_pos (by simpa using h)]

theorem headerValue_cons_neg {name want : Bytes} (h : lower name ≠ lower want) (value : Bytes)
    (rest : List (Bytes × Bytes)) :
    headerValue ((name, value) :: rest) want = headerValue rest want := by
  rw [headerValue, List.find?_cons_of_neg (by simpa using h), headerValue]

theorem headerValue_nil (want : Bytes) : headerValue [] want = [] := rfl

/-! ## Parameters -/

/-- No byte that quotes, escapes, comments or separates. -/
def Plain (s : Bytes) : Prop :=
  ∀ c ∈ s, c ≠ ch '"' ∧ c ≠ ch '\\' ∧ c ≠ ch '(' ∧ c ≠ ch ';'

theorem stripComments_plain {s : Bytes} (h : ∀ c ∈ s, c ≠ ch '\\' ∧ c ≠ ch '(') (quoted : Bool) :
    stripComments 0 quoted s = s := by
  induction s generalizing quoted with
  | nil => cases quoted <;> simp [stripComments]
  | cons c s ih =>
    obtain ⟨hback, hopen⟩ := h c List.mem_cons_self
    have hrest := ih (fun d hd => h d (List.mem_cons_of_mem _ hd))
    cases quoted with
    | false =>
      by_cases hquote : c = ch '"'
      · rw [stripComments, if_pos hquote, hrest]
      · rw [stripComments, if_neg hquote, if_neg hopen, hrest]
    | true =>
      cases s with
      | nil => rw [stripComments]
      | cons d s => rw [stripComments, if_neg hback, hrest]

theorem splitSemicolons_plain {x : Bytes} (h : Plain x) (cur s : Bytes) :
    splitSemicolons false cur (x ++ s) = splitSemicolons false (cur ++ x) s := by
  induction x generalizing cur with
  | nil => simp
  | cons c x ih =>
    obtain ⟨hquote, -, -, hsemi⟩ := h c List.mem_cons_self
    rw [List.cons_append, splitSemicolons, if_neg hquote, if_neg hsemi,
      ih (fun d hd => h d (List.mem_cons_of_mem _ hd))]
    simp

theorem splitSemicolons_quoted {v : Bytes} (h : Plain v) (cur : Bytes) :
    splitSemicolons true cur (v ++ [ch '"']) = [cur ++ v ++ [ch '"']] := by
  induction v generalizing cur with
  | nil => simp [splitSemicolons]
  | cons c v ih =>
    obtain ⟨hquote, hback, -, -⟩ := h c List.mem_cons_self
    have hrest := ih (fun d hd => h d (List.mem_cons_of_mem _ hd)) (cur ++ [c])
    obtain ⟨d, s, hds⟩ : ∃ d s, v ++ [ch '"'] = d :: s := by
      cases v with
      | nil => exact ⟨ch '"', [], rfl⟩
      | cons e v => exact ⟨e, v ++ [ch '"'], rfl⟩
    rw [List.cons_append, hds, splitSemicolons, if_neg hback]
    · rw [hds] at hrest
      rw [show (c != ch '"') = true by simpa using hquote, hrest]
      simp

theorem unescape_plain {s : Bytes} (h : ch '\\' ∉ s) : unescape s = s := by
  induction s with
  | nil => rfl
  | cons c s ih =>
    rw [List.mem_cons, not_or] at h
    cases s with
    | nil => rfl
    | cons d s => rw [unescape, if_neg (Ne.symm h.1), ih h.2]

theorem unquote_quoted {v : Bytes} (h : Plain v) : unquote (ch '"' :: v ++ [ch '"']) = v := by
  have hlast := @List.getLast?_concat _ (ch '"' :: v) (ch '"')
  have htrim : trim (ch '"' :: v ++ [ch '"']) = ch '"' :: v ++ [ch '"'] :=
    trimBy_of_ends (c := ch '"') (d := ch '"') rfl (by decide) hlast (by decide)
  rw [unquote, htrim, if_pos ⟨by simp, rfl, hlast⟩, List.cons_append, List.drop_one, List.tail_cons,
    List.dropLast_concat, unescape_plain (fun hmem => (h _ hmem).2.1 rfl)]

/-- A token with one quoted parameter. -/
theorem parseContentType_quoted {token name v : Bytes} (htoken : Plain token) (hname : Plain name)
    (heq : ch '=' ∉ name) (hfirst : ∃ c, name.head? = some c ∧ isSpace c = false)
    (hkey : lower (trim name) = name) (hv : Plain v) :
    parseContentType (token ++ bytes "; " ++ name ++ bytes "=\"" ++ v ++ bytes "\"") =
      { parseContentType token with params := [(name, v)] } := by
  have hplain : ∀ c ∈ token ++ bytes "; " ++ name ++ bytes "=\"" ++ v ++ bytes "\"",
      c ≠ ch '\\' ∧ c ≠ ch '(' := by
    intro c hc
    simp only [List.mem_append] at hc
    have hlit : ∀ c ∈ bytes "; " ++ bytes "=\"" ++ bytes "\"", c ≠ ch '\\' ∧ c ≠ ch '(' :=
      forall_mem_of_all (by decide)
    rcases hc with ((((hc | hc) | hc) | hc) | hc) | hc
    · exact ⟨(htoken c hc).2.1, (htoken c hc).2.2.1⟩
    · exact hlit c (by simp [hc])
    · exact ⟨(hname c hc).2.1, (hname c hc).2.2.1⟩
    · exact hlit c (by simp [hc])
    · exact ⟨(hv c hc).2.1, (hv c hc).2.2.1⟩
    · exact hlit c (by simp [hc])
  obtain ⟨c, hhead, hc⟩ := hfirst
  obtain ⟨t, rfl⟩ : ∃ t, name = c :: t := by
    cases name with
    | nil => simp at hhead
    | cons d t =>
      rw [List.head?_cons, Option.some.injEq] at hhead
      exact ⟨t, by rw [hhead]⟩
  -- the two pieces around the semicolon
  have hparam : Plain (ch ' ' :: c :: t ++ bytes "=") := by
    intro d hd
    simp only [List.mem_append, List.mem_cons] at hd
    rcases hd with (rfl | hd) | hd
    · decide
    · exact hname d (List.mem_cons.mpr hd)
    · have hlit : ∀ d ∈ bytes "=", d ≠ ch '"' ∧ d ≠ ch '\\' ∧ d ≠ ch '(' ∧ d ≠ ch ';' :=
        forall_mem_of_all (by decide)
      exact hlit d hd
  have hsplit : splitSemicolons false [] (token ++ bytes "; " ++ (c :: t) ++ bytes "=\"" ++ v ++
      bytes "\"") = [token, ch ' ' :: c :: t ++ bytes "=" ++ (ch '"' :: v ++ [ch '"'])] := by
    have hshape : token ++ bytes "; " ++ (c :: t) ++ bytes "=\"" ++ v ++ bytes "\"" =
        token ++ (ch ';' :: ((ch ' ' :: c :: t ++ bytes "=") ++ (ch '"' :: (v ++ [ch '"'])))) := by
      simp [bytes]
    rw [hshape, splitSemicolons_plain htoken, splitSemicolons, if_neg (by decide), if_pos rfl,
      splitSemicolons_plain hparam, splitSemicolons, if_pos rfl, splitSemicolons_quoted hv]
    simp
  have hone : splitSemicolons false [] token = [token] := by
    have h := splitSemicolons_plain htoken [] []
    rw [List.append_nil, List.nil_append] at h
    rw [h, splitSemicolons]
  have htrim : trim (ch ' ' :: c :: t ++ bytes "=" ++ (ch '"' :: v ++ [ch '"'])) =
      c :: t ++ ch '=' :: (ch '"' :: v ++ [ch '"']) := by
    have hshape : ch ' ' :: c :: t ++ bytes "=" ++ (ch '"' :: v ++ [ch '"']) =
        ch ' ' :: (c :: t ++ ch '=' :: (ch '"' :: v ++ [ch '"'])) := by
      simp [bytes]
    have hlast : (c :: t ++ ch '=' :: (ch '"' :: v ++ [ch '"'])).getLast? = some (ch '"') := by
      have := @List.getLast?_concat _ (c :: t ++ ch '=' :: (ch '"' :: v)) (ch '"')
      simpa only [List.append_assoc, List.cons_append] using this
    rw [hshape, trim, trimBy_cons (by decide)]
    exact trimBy_of_ends (c := c) (d := ch '"') rfl hc hlast (by decide)
  have hread : parseParam (ch ' ' :: c :: t ++ bytes "=" ++ (ch '"' :: v ++ [ch '"'])) =
      some (c :: t, v) := by
    rw [parseParam, htrim]
    simp only [findChar_append heq]
    rw [List.take_left, List.drop_length_add_append, hkey, if_neg (by simp), List.drop_one,
      List.tail_cons, unquote_quoted hv]
  rw [parseContentType, stripComments_plain hplain, hsplit, parseContentType,
    stripComments_plain (fun d hd => ⟨(htoken d hd).2.1, (htoken d hd).2.2.1⟩), hone]
  simp only [List.filterMap_cons, hread, List.filterMap_nil]
  cases findChar (ch '/') (trim token) <;> rfl

end QuackMail.Mime
