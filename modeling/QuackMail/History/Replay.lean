import QuackMail.History.History

/-! # Replaying a history

What `History` reads of a text that `RecordRevision` wrote, and how `RevisionRaw` walks
along it.
-/

namespace QuackMail.Wiki

set_option maxRecDepth 20000

open Citadel Diff Mime

/-! ## Texts of lines -/

theorem unlines_cons (x : Bytes) (lines : List Bytes) :
    unlines (x :: lines) = x ++ Diff.nl :: unlines lines := by
  simp [unlines]

/-- Lines that do not begin with the delimiter. -/
theorem quiet_unlines {dash : Bytes} (hdash : Diff.nl ∉ dash) {lines : List Bytes}
    (h : ∀ x ∈ lines, Diff.nl ∉ x ∧ ¬dash <+: x) : Quiet dash (unlines lines) := by
  constructor
  · rcases List.eq_nil_or_concat lines with rfl | ⟨front, x, rfl⟩
    · exact .inl rfl
    · right
      simp [unlines, Diff.nl, Mime.nl]
  · induction lines with
    | nil =>
      intro u v hsplit hv
      exact absurd (List.append_eq_nil_iff.mp hsplit.symm).2 hv
    | cons x lines ih =>
      intro u v hsplit hv hu hpre
      have hx := h x List.mem_cons_self
      rw [unlines_cons] at hsplit
      rcases hu with rfl | hlast
      · rw [List.nil_append] at hsplit
        rw [← hsplit] at hpre
        exact hx.2 (prefix_of_append_cons hdash hpre)
      · have hmem : Mime.nl ∈ u := List.mem_of_getLast? hlast
        rcases List.append_eq_append_iff.mp hsplit with ⟨a, ha, hrest⟩ | ⟨c, hc, -⟩
        · cases a with
          | nil =>
            rw [List.append_nil] at ha
            exact hx.1 (ha ▸ hmem)
          | cons d a =>
            rw [List.cons_append, List.cons.injEq] at hrest
            refine ih (fun y hy => h y (List.mem_cons_of_mem _ hy)) a v hrest.2 hv ?_ hpre
            rcases List.eq_nil_or_concat a with rfl | ⟨a', d', rfl⟩
            · exact .inl rfl
            · right
              rw [ha, List.concat_eq_append] at hlast
              rw [List.concat_eq_append, List.getLast?_concat]
              rw [← List.cons_append, ← List.append_assoc, List.getLast?_concat] at hlast
              exact hlast
        · exact hx.1 (by rw [hc]; exact List.mem_append_left _ hmem)

theorem unlines_head {lines : List Bytes} (h : ∀ x ∈ lines, x.head? ≠ some (ch '\r')) (v : Bytes) :
    ch '\r' :: v ≠ unlines lines := by
  intro heq
  cases lines with
  | nil => simp [unlines] at heq
  | cons x lines =>
    rw [unlines_cons] at heq
    cases x with
    | nil =>
      rw [List.nil_append, List.cons.injEq] at heq
      exact absurd heq.1 (by decide)
    | cons d x =>
      rw [List.cons_append, List.cons.injEq] at heq
      exact h (d :: x) List.mem_cons_self (by rw [← heq.1]; rfl)

/-- Where no line starts with a CR there is no blank line of CRLFs. -/
theorem find_crlf_blank {lines : List Bytes}
    (h : ∀ x ∈ lines, Diff.nl ∉ x ∧ x.head? ≠ some (ch '\r')) {s : Bytes}
    (hs : s <+: unlines lines) : find (bytes "\r\n\r\n") s = none := by
  have hpair : ∀ {lines : List Bytes},
      (∀ x ∈ lines, Diff.nl ∉ x ∧ x.head? ≠ some (ch '\r')) → ∀ u v,
      unlines lines ≠ u ++ Diff.nl :: ch '\r' :: v := by
    intro lines
    induction lines with
    | nil =>
      intro _ u v hsplit
      simp [unlines] at hsplit
    | cons x lines ih =>
      intro hlines u v hsplit
      have hx := hlines x List.mem_cons_self
      have hrest := ih fun y hy => hlines y (List.mem_cons_of_mem _ hy)
      have hnext : ∀ y ∈ lines, y.head? ≠ some (ch '\r') := fun y hy =>
        (hlines y (List.mem_cons_of_mem _ hy)).2
      rw [unlines_cons] at hsplit
      rcases List.append_eq_append_iff.mp hsplit with ⟨a, ha, hrest'⟩ | ⟨c, hc, hrest'⟩
      · cases a with
        | nil =>
          rw [List.nil_append, List.cons.injEq] at hrest'
          exact unlines_head hnext v hrest'.2.symm
        | cons d a =>
          rw [List.cons_append, List.cons.injEq] at hrest'
          exact hrest a v hrest'.2
      · cases c with
        | nil =>
          rw [List.nil_append, List.cons.injEq] at hrest'
          exact unlines_head hnext v hrest'.2
        | cons d c =>
          rw [List.cons_append, List.cons.injEq] at hrest'
          exact hx.1 (by rw [hc, ← hrest'.1]; simp)
  apply find_eq_none
  rintro ⟨u, v, huv⟩
  obtain ⟨t, ht⟩ := hs
  refine hpair h (u ++ [ch '\r']) (ch '\n' :: v ++ t) ?_
  rw [← ht, ← huv]
  simp [bytes, Diff.nl]

/-! ## One part -/

/-- The text of a part as the parser gets it. -/
def partText (e : Entry) : Bytes := unlines [typeLine, memoLine e, []] ++ e.patch.dropLast

theorem encodeMemo_char (e : Entry) :
    ∀ c ∈ encodeMemo e.rev e.timestamp e.author, c ≠ ch '"' ∧ c ≠ ch '\\' ∧ c ≠ ch '(' ∧
      c ≠ ch ';' ∧ c ≠ ch '\r' ∧ c ≠ ch '\n' := by
  have halphabet : ∀ c ∈ Base64.alphabet, c ≠ ch '"' ∧ c ≠ ch '\\' ∧ c ≠ ch '(' ∧
      c ≠ ch ';' ∧ c ≠ ch '\r' ∧ c ≠ ch '\n' := by
    exact forall_mem_bytes (by decide +kernel)
  intro c hc
  rcases Base64.isChar_of_mem_encode hc with hc | rfl
  · exact halphabet c hc
  · decide

theorem encodeMemo_ne (e : Entry) : encodeMemo e.rev e.timestamp e.author ≠ [] := by
  intro hnil
  have hdecode := Base64.decode_encode (memo e.rev e.timestamp e.author)
  rw [← encodeMemo, hnil] at hdecode
  have hmemo := (Option.some.inj hdecode).symm
  simp [memo] at hmemo

theorem memoLine_clean (e : Entry) : ∀ c ∈ memoLine e, c ≠ ch '\r' ∧ c ≠ ch '\n' := by
  have hlit : ∀ c ∈ bytes "Content-disposition: attachment; filename=\"", c ≠ ch '\r' ∧ c ≠ ch '\n' := by
    exact forall_mem_bytes (by decide +kernel)
  intro c hc
  simp only [memoLine, List.mem_append] at hc
  rcases hc with (hc | hc) | hc
  · exact hlit c hc
  · exact ⟨(encodeMemo_char e c hc).2.2.2.2.1, (encodeMemo_char e c hc).2.2.2.2.2⟩
  · have hquote : ∀ c ∈ bytes "\"", c ≠ ch '\r' ∧ c ≠ ch '\n' :=
      forall_mem_of_all (by decide)
    exact hquote c hc

theorem memoLine_head (e : Entry) : ∃ t, memoLine e = ch 'C' :: t := by
  exact ⟨_, rfl⟩

theorem typeLine_clean : ∀ c ∈ typeLine, c ≠ ch '\r' ∧ c ≠ ch '\n' :=
  forall_mem_bytes (by decide +kernel)

variable {e : Entry} {boundary : Bytes} {es : List Entry}

/-- The lines of a part: none has a newline in it or starts with a CR. -/
theorem partContent_lines (h : IsPatch e.patch) :
    ∃ lines, partContent e = unlines ([typeLine, memoLine e, []] ++ lines) ∧
      e.patch = unlines lines ∧
      ∀ x ∈ [typeLine, memoLine e, []] ++ lines, Diff.nl ∉ x ∧ x.head? ≠ some (ch '\r') := by
  obtain ⟨lines, hpatch, hlines⟩ := h
  refine ⟨lines, by rw [partContent, unlines_append, hpatch], hpatch, ?_⟩
  intro x hx
  rcases List.mem_append.mp hx with hx | hx
  · simp only [List.mem_cons, List.not_mem_nil, or_false] at hx
    rcases hx with rfl | rfl | rfl
    · exact ⟨fun hmem => (typeLine_clean _ hmem).2 rfl, by decide⟩
    · obtain ⟨t, ht⟩ := memoLine_head e
      exact ⟨fun hmem => (memoLine_clean e _ hmem).2 rfl, by rw [ht, List.head?_cons]; decide⟩
    · exact ⟨by simp, by simp⟩
  · obtain ⟨hclean, c, s, rfl, hc⟩ := hlines x hx
    exact ⟨hclean, by simpa using hc⟩

theorem dropLast_concat {s : Bytes} {c : Byte} (h : s.getLast? = some c) : s = s.dropLast ++ [c] := by
  rcases List.eq_nil_or_concat s with rfl | ⟨t, d, rfl⟩
  · simp at h
  · rw [List.concat_eq_append, List.getLast?_concat, Option.some.injEq] at h
    rw [List.concat_eq_append, List.dropLast_concat, h]

/-- The line ending in front of the delimiter is the newline of the patch alone. -/
theorem trimEnding_partContent (h : e.Kept boundary) : trimEnding (partContent e) = partText e := by
  have hlast := isPatch_getLast h.isPatch h.ne
  have hpatch := dropLast_concat hlast
  have hcontent : partContent e = partText e ++ [ch '\n'] := by
    rw [partContent, partText, List.append_assoc, ← hpatch]
  have hcr : (partText e).getLast? ≠ some (ch '\r') := by
    intro hcr
    rcases List.eq_nil_or_concat e.patch.dropLast with hnil | ⟨t, d, ht⟩
    · rw [partText, hnil, List.append_nil, show unlines [typeLine, memoLine e, []] =
        unlines [typeLine, memoLine e] ++ [Diff.nl] by simp [unlines], List.getLast?_concat] at hcr
      exact absurd hcr (by decide)
    · rw [partText, ht, List.concat_eq_append, ← List.append_assoc, List.getLast?_concat,
        Option.some.injEq] at hcr
      apply h.ending
      rw [hpatch, ht, List.concat_eq_append, hcr]
      exact ⟨t, by simp [bytes]⟩
  rw [trimEnding, hcontent, List.getLast?_concat, if_pos rfl, List.dropLast_concat]
  simp [if_neg hcr]

/-- Headers and body of a part. -/
theorem split_partText (h : IsPatch e.patch) : splitHeadersBody (partText e) =
      (typeLine ++ ch '\n' :: memoLine e, e.patch.dropLast) := by
  obtain ⟨lines, hcontent, -, hlines⟩ := partContent_lines h
  have hlead : partText e <+: unlines ([typeLine, memoLine e, []] ++ lines) := by
    rw [← hcontent, partText, partContent]
    exact List.prefix_append_right_inj _ |>.mpr (List.dropLast_prefix _)
  have hshape : partText e =
      typeLine ++ (Diff.nl :: (memoLine e ++ ([Diff.nl, Diff.nl] ++ e.patch.dropLast))) := by
    simp [partText, unlines]
  obtain ⟨t, ht⟩ := memoLine_head e
  have hmid : ¬[Diff.nl, Diff.nl] <+:
      Diff.nl :: (memoLine e ++ ([Diff.nl, Diff.nl] ++ e.patch.dropLast)) := by
    intro hpre
    obtain ⟨-, hpre⟩ := List.cons_prefix_cons.mp hpre
    exact absurd (List.cons_prefix_cons.mp hpre).1 (by decide)
  have hfind : find (bytes "\n\n") (partText e) =
      some (typeLine ++ ch '\n' :: memoLine e).length := by
    have htype : Diff.nl ∉ typeLine := fun hmem => (typeLine_clean _ hmem).2 rfl
    have hmemo : Diff.nl ∉ memoLine e := fun hmem => (memoLine_clean e _ hmem).2 rfl
    rw [hshape, show bytes "\n\n" = [Diff.nl, Diff.nl] from rfl, find_skip htype,
      find_cons hmid, find_skip hmemo, find_head (List.prefix_append _ _)]
    simp only [Option.map_some, Option.some.injEq, List.length_append, List.length_cons]
    omega
  have hparts : partText e =
      (typeLine ++ ch '\n' :: memoLine e) ++ ([Diff.nl, Diff.nl] ++ e.patch.dropLast) := by
    rw [hshape]
    simp [Diff.nl]
  rw [splitHeadersBody, find_crlf_blank hlines hlead]
  simp only [hfind]
  rw [hparts, List.take_left, List.drop_length_add_append]
  rfl

/-- A field that ends in a quoted string. -/
theorem parseHeader_quoted {name : Bytes} (hcolon : ch ':' ∉ name) (hname : trim name = name)
    (hne : name ≠ []) {c : Byte} (hc : isSpace c = false) (value : Bytes) :
    parseHeader (name ++ ch ':' :: ch ' ' :: (c :: value ++ [ch '"'])) =
      some (name, c :: value ++ [ch '"']) := by
  have hlast := @List.getLast?_concat _ (c :: value) (ch '"')
  have htrim : trim (ch ' ' :: (c :: value ++ [ch '"'])) = c :: value ++ [ch '"'] := by
    rw [trim, trimBy_cons (by decide), trimBy_of_ends (c := c) (d := ch '"') rfl hc hlast (by decide)]
  rw [parseHeader, findChar_append hcolon]
  simp only
  rw [List.take_left, List.drop_length_add_append, hname, if_neg hne, List.drop_one,
    List.tail_cons, htrim]

theorem parseHeaderBlock_part (e : Entry) : parseHeaderBlock (typeLine ++ ch '\n' :: memoLine e) =
      [(bytes "Content-type", bytes "text/x-diff"),
        (bytes "Content-disposition",
          bytes "attachment" ++ bytes "; " ++ bytes "filename" ++ bytes "=\"" ++
            encodeMemo e.rev e.timestamp e.author ++ bytes "\"")] := by
  obtain ⟨t, ht⟩ := memoLine_head e
  have hblank : (memoLine e).head?.any isBlank = false := by
    rw [ht, List.head?_cons]
    decide
  have htype : parseHeader typeLine = some (bytes "Content-type", bytes "text/x-diff") := by
    decide
  have hmemo : parseHeader (memoLine e) = some (bytes "Content-disposition",
      bytes "attachment" ++ bytes "; " ++ bytes "filename" ++ bytes "=\"" ++
        encodeMemo e.rev e.timestamp e.author ++ bytes "\"") := by
    have hshape : memoLine e = bytes "Content-disposition" ++ ch ':' ::
        (ch ' ' :: (ch 'a' :: (bytes "ttachment; filename=\"" ++
          encodeMemo e.rev e.timestamp e.author) ++ [ch '"'])) := by
      have hlead : bytes "Content-disposition: attachment; filename=\"" =
          bytes "Content-disposition" ++ ch ':' :: ch ' ' :: ch 'a' ::
            bytes "ttachment; filename=\"" := by
        rw [bytes_ofList, bytes_ofList, bytes_ofList]
        rfl
      rw [memoLine, hlead, show bytes "\"" = [ch '"'] from rfl]
      simp only [List.append_assoc, List.cons_append]
    have hfile : ch 'a' :: bytes "ttachment; filename=\"" =
        bytes "attachment" ++ bytes "; " ++ bytes "filename" ++ bytes "=\"" := by
      rw [bytes_ofList, bytes_ofList, bytes_ofList, bytes_ofList, bytes_ofList]
      rfl
    rw [hshape, parseHeader_quoted (by decide) (by decide) (by decide) (by decide),
      ← List.cons_append, hfile]
    rfl
  rw [parseHeaderBlock, headerLines_line typeLine_clean hblank,
    headerLines_last (memoLine_clean e) (by simp [ht]), List.filterMap_cons, htype,
    List.filterMap_cons, hmemo]
  rfl

/-- The number at the front of a memo. -/
theorem parseMemo_memo {rev : Nat} (h : rev ≤ 0x7fffffffffffffff) (timestamp : Int)
    (author : Bytes) : ∃ m, parseMemo (memo rev timestamp author) = some m ∧ m.1 = rev := by
  have hstrip : (memo rev timestamp author).rdropWhile (fun c => decide (c = 0)) =
      num rev ++ ch '|' :: (numInt timestamp ++ [ch '|'] ++ author ++ [ch '|']) := by
    have hshape : memo rev timestamp author =
        ((num rev ++ ch '|' :: (numInt timestamp ++ [ch '|'] ++ author)) ++ [ch '|']) ++ [0] := by
      simp [memo]
    rw [hshape, List.rdropWhile_concat_pos _ _ _ (by decide), List.rdropWhile_concat_neg _ _ _ (by decide)]
    simp
  have hbar : ch '|' ∉ num rev := by
    intro hmem
    exact absurd (isDigit_of_mem_num hmem) (by decide)
  have hdigits : allDigits (num rev) = true := by
    simp only [allDigits, num_ne_nil, ne_eq, not_false_eq_true, decide_true, Bool.true_and,
      List.all_eq_true]
    exact fun c hc => isDigit_of_mem_num hc
  rw [parseMemo, hstrip, findChar_append hbar]
  simp only
  rw [List.take_left, hdigits, strtoll_num h]
  simp only [Bool.true_eq_false, if_false]
  split
  · exact ⟨_, rfl, rfl⟩
  · exact ⟨_, rfl, rfl⟩

theorem decode_7bit (body : Bytes) : decodeContentTransferEncoding (bytes "7bit") body = body := by
  rw [decodeContentTransferEncoding, if_neg (by decide), if_neg (by decide)]

/-- The node a part is parsed to: a leaf with the memo as its file name. -/
theorem parseNode_partText (h : IsPatch e.patch) :
    (parseNode (partText e)).1.filename = encodeMemo e.rev e.timestamp e.author ∧
      (parseNode (partText e)).1.bodyRaw = e.patch.dropLast ∧
      (parseNode (partText e)).1.bodyDecoded = e.patch.dropLast := by
  have hquoted : parseContentType (bytes "attachment" ++ bytes "; " ++ bytes "filename" ++
      bytes "=\"" ++ encodeMemo e.rev e.timestamp e.author ++ bytes "\"") =
      ⟨bytes "attachment", [], [(bytes "filename", encodeMemo e.rev e.timestamp e.author)]⟩ := by
    rw [@parseContentType_quoted (bytes "attachment") (bytes "filename") _
      (forall_mem_bytes (by decide)) (forall_mem_bytes (by decide)) (by decide)
      ⟨ch 'f', rfl, by decide⟩ (by decide)
      (fun c hc => ⟨(encodeMemo_char e c hc).1, (encodeMemo_char e c hc).2.1,
        (encodeMemo_char e c hc).2.2.1, (encodeMemo_char e c hc).2.2.2.1⟩),
      show parseContentType (bytes "attachment") = ⟨bytes "attachment", [], []⟩ by decide]
  obtain ⟨value, hvalue⟩ : ∃ v, v = bytes "attachment" ++ bytes "; " ++ bytes "filename" ++
      bytes "=\"" ++ encodeMemo e.rev e.timestamp e.author ++ bytes "\"" := ⟨_, rfl⟩
  have hheaders := parseHeaderBlock_part e
  rw [← hvalue] at hquoted hheaders
  have hvalue_ne : value ≠ [] := by simp [hvalue, bytes]
  -- the three fields the parser looks at
  have htype : contentTypeOf [(bytes "Content-type", bytes "text/x-diff"),
      (bytes "Content-disposition", value)] =
      (⟨bytes "text", bytes "x-diff", []⟩, bytes "us-ascii") := by
    rw [contentTypeOf, headerValue_cons_pos (by decide)]
    decide
  have hencoding : encodingOf [(bytes "Content-type", bytes "text/x-diff"),
      (bytes "Content-disposition", value)] = bytes "7bit" := by
    rw [encodingOf, headerValue_cons_neg (by decide), headerValue_cons_neg (by decide),
      headerValue_nil]
    decide
  have hdisposition : dispositionOf [(bytes "Content-type", bytes "text/x-diff"),
      (bytes "Content-disposition", value)] ⟨bytes "text", bytes "x-diff", []⟩ =
      (bytes "attachment", encodeMemo e.rev e.timestamp e.author) := by
    have hparam : (⟨bytes "attachment", [],
        [(bytes "filename", encodeMemo e.rev e.timestamp e.author)]⟩ : ContentType).param
        (bytes "filename") = encodeMemo e.rev e.timestamp e.author := by
      have hsame : (bytes "filename" == lower (bytes "filename")) = true := by decide
      simp only [ContentType.param, List.find?_cons, hsame]
    rw [dispositionOf, headerValue_cons_neg (by decide),
      headerValue_cons_pos (by decide)]
    simp only [if_neg hvalue_ne, hquoted, hparam, if_neg (encodeMemo_ne e)]
  have hleaf : ¬bytes "text" = bytes "multipart" := by decide
  rw [parseNode, split_partText h]
  simp only [hheaders, htype, hencoding, hdisposition, hleaf, decode_7bit, if_false, and_self]

/-- The revision a part is read as. -/
theorem revisionOf_partText (h : e.Kept boundary) :
    ∃ r, revisionOf (parseNode (partText e)).1 = some r ∧ r.rev = e.rev ∧
      r.diff = e.patch.dropLast := by
  obtain ⟨m, hm, hrev⟩ := parseMemo_memo h.rev e.timestamp e.author
  obtain ⟨hname, hraw, hdecoded⟩ := parseNode_partText h.isPatch
  have hdecode : Base64.decode (encodeMemo e.rev e.timestamp e.author) =
      some (memo e.rev e.timestamp e.author) := Base64.decode_encode _
  rw [revisionOf, hname, if_neg (encodeMemo_ne e), hdecode]
  simp only [hm, Option.map_some, hraw, hdecoded, ite_self]
  exact ⟨_, rfl, hrev, rfl⟩

/-! ## The whole history -/

theorem revisionOf_parse (fuel : Nat) (raw : Bytes) :
    revisionOf (parseEntityFuel fuel raw) = revisionOf (parseNode raw).1 := by
  cases fuel <;> rfl

example : opener [] = bytes "--" := by decide +kernel

theorem opener_clean (h : IsBoundary boundary) : Diff.nl ∉ opener boundary := by
  intro hmem
  rcases List.mem_append.mp hmem with hmem | hmem
  · exact absurd hmem (by decide)
  · exact (isWord_ne (h.word _ hmem)).2.2.1 rfl

theorem not_opener_first {c : Byte} (hc : c ≠ ch '-') (s : Bytes) :
    ¬opener boundary <+: c :: s := by
  intro hpre
  exact hc (List.cons_prefix_cons.mp (show ch '-' :: (ch '-' :: boundary) <+: c :: s from hpre)).1.symm

theorem quiet_part (hb : IsBoundary boundary) (h : e.Kept boundary) :
    Quiet (opener boundary) (partContent e) := by
  obtain ⟨lines, hcontent, hpatch, hlines⟩ := partContent_lines h.isPatch
  rw [hcontent]
  refine quiet_unlines (opener_clean hb) fun x hx => ⟨(hlines x hx).1, ?_⟩
  rcases List.mem_append.mp hx with hmem | hmem
  · obtain ⟨t, ht⟩ := memoLine_head e
    simp only [List.mem_cons, List.not_mem_nil, or_false] at hmem
    rcases hmem with rfl | rfl | rfl
    · exact not_opener_first (c := ch 'C') (by decide) _
    · exact not_opener_first (by decide) _
    · simp [opener, bytes]
  · refine h.quiet x ?_
    rw [hpatch, split_unlines fun y hy => (hlines y (List.mem_append_right _ hy)).1]
    exact hmem

theorem preamble_lines : preamble ++ bytes "\n" = unlines
    [bytes "This is a Citadel wiki history encoded as multipart MIME.",
      bytes "Each part is comprised of a diff script representing one change set.", []] := by
  rw [preamble, bytes_ofList, bytes_ofList, bytes_ofList, bytes_ofList]
  decide +kernel

theorem preamble_clean : ∀ x ∈ [bytes "This is a Citadel wiki history encoded as multipart MIME.",
      bytes "Each part is comprised of a diff script representing one change set.", []],
      Diff.nl ∉ x ∧ (x.head? = none ∨ x.head? = some (ch 'T') ∨ x.head? = some (ch 'E')) := by
  rw [bytes_ofList, bytes_ofList]
  decide +kernel

theorem quiet_preamble (hb : IsBoundary boundary) :
    Quiet (opener boundary) (preamble ++ bytes "\n") := by
  rw [preamble_lines]
  refine quiet_unlines (opener_clean hb) fun x hx => ?_
  obtain ⟨hnl, hhead⟩ := preamble_clean x hx
  refine ⟨hnl, ?_⟩
  cases x with
  | nil => simp [opener, bytes]
  | cons c x =>
    simp only [List.head?_cons, Option.some.injEq, reduceCtorEq, false_or] at hhead
    rcases hhead with rfl | rfl
    · exact not_opener_first (by decide) _
    · exact not_opener_first (by decide) _

/-- The lines of the parts: none has a newline in it or starts with a CR. -/
theorem partsOf_lines (hb : IsBoundary boundary) (hes : ∀ e ∈ es, e.Kept boundary) :
    ∃ lines, partsOf boundary es = unlines lines ∧
      ∀ x ∈ lines, Diff.nl ∉ x ∧ x.head? ≠ some (ch '\r') := by
  have hhead : ∀ x : Bytes, (opener boundary ++ x).head? ≠ some (ch '\r') := by
    intro x
    rw [show opener boundary ++ x = ch '-' :: (ch '-' :: boundary ++ x) from rfl, List.head?_cons]
    decide
  induction es with
  | nil =>
    refine ⟨[opener boundary ++ bytes "--"], by simp [unlines]; rfl, ?_⟩
    intro x hx
    rw [List.mem_singleton.mp hx]
    refine ⟨fun hmem => ?_, hhead _⟩
    rcases List.mem_append.mp hmem with hmem | hmem
    · exact opener_clean hb hmem
    · exact absurd hmem (by decide)
  | cons e es ih =>
    obtain ⟨rest, hrest, hrest_clean⟩ := ih fun e' he' => hes e' (List.mem_cons_of_mem _ he')
    obtain ⟨lines, hcontent, -, hlines⟩ := partContent_lines (hes e List.mem_cons_self).isPatch
    refine ⟨opener boundary :: ([typeLine, memoLine e, []] ++ lines ++ rest), ?_, ?_⟩
    · rw [unlines_cons, unlines_append, ← hcontent, ← hrest]
      simp [partsOf, partsText, Diff.nl, Mime.nl]
    · intro x hx
      rcases List.mem_cons.mp hx with rfl | hx
      · exact ⟨opener_clean hb, by simpa using hhead []⟩
      · rcases List.mem_append.mp hx with hx | hx
        · exact hlines x hx
        · exact hrest_clean x hx

/-- Headers and body of a history. -/
theorem split_historyText (hb : IsBoundary boundary) (hes : ∀ e ∈ es, e.Kept boundary) :
    splitHeadersBody (historyText boundary es) =
      (rootLine boundary, preamble ++ bytes "\n" ++ partsOf boundary es) := by
  obtain ⟨lines, hparts, hlines⟩ := partsOf_lines hb hes
  have hshape : historyText boundary es =
      rootLine boundary ++ (bytes "\n\n" ++ (preamble ++ bytes "\n" ++ partsOf boundary es)) := by
    simp [historyText, historyHead]
  have htext : historyText boundary es = unlines ([rootLine boundary, [],
      bytes "This is a Citadel wiki history encoded as multipart MIME.",
      bytes "Each part is comprised of a diff script representing one change set.", []] ++ lines) := by
    have hblank : bytes "\n\n" = [Diff.nl, Diff.nl] := rfl
    -- for any lines: the kernel would read the two literals out
    have hhead : ∀ root a b : Bytes, root ++ ([Diff.nl, Diff.nl] ++ (unlines [a, b, []] ++
        unlines lines)) = unlines [root, [], a, b, []] ++ unlines lines := by
      simp [unlines]
    rw [unlines_append, hshape, preamble_lines, hparts, hblank]
    exact hhead _ _ _
  have hclean : ∀ x ∈ [rootLine boundary, [],
      bytes "This is a Citadel wiki history encoded as multipart MIME.",
      bytes "Each part is comprised of a diff script representing one change set.", []] ++ lines,
      Diff.nl ∉ x ∧ x.head? ≠ some (ch '\r') := by
    intro x hx
    rcases List.mem_append.mp hx with hx | hx
    · cases List.mem_cons.mp hx with
      | inl heq =>
        subst heq
        refine ⟨fun hmem => (rootLine_clean hb _ hmem).2 rfl, fun hhead => ?_⟩
        exact (rootLine_clean hb _ (List.mem_of_head? hhead)).1 rfl
      | inr hx =>
        cases List.mem_cons.mp hx with
        | inl heq =>
          subst heq
          simp
        | inr hx =>
          obtain ⟨hnl, hhead⟩ := preamble_clean x hx
          refine ⟨hnl, fun hcr => ?_⟩
          rw [hcr] at hhead
          exact absurd hhead (by decide)
    · exact hlines x hx
  have hcrlf : find (bytes "\r\n\r\n") (historyText boundary es) = none :=
    find_crlf_blank hclean (by rw [htext])
  rw [splitHeadersBody, hcrlf]
  simp only [find_blank_historyText hb]
  rw [hshape, List.take_left, List.drop_length_add_append,
    List.drop_left' (show (bytes "\n\n").length = 2 by decide)]

/-- The root is a multipart with the boundary it was written with. -/
theorem contentTypeOf_rootLine (hb : IsBoundary boundary) :
    (contentTypeOf (parseHeaderBlock (rootLine boundary))).1 =
      ⟨bytes "multipart", bytes "mixed", [(bytes "boundary", boundary)]⟩ := by
  have hshape : rootLine boundary = bytes "Content-type" ++ ch ':' ::
      (ch ' ' :: (ch 'm' :: (bytes "ultipart/mixed; boundary=\"" ++ boundary) ++ [ch '"'])) := by
    have hlead : bytes "Content-type: multipart/mixed; boundary=\"" =
        bytes "Content-type" ++ ch ':' :: ch ' ' :: ch 'm' ::
          bytes "ultipart/mixed; boundary=\"" := by
      rw [bytes_ofList, bytes_ofList, bytes_ofList]
      rfl
    rw [rootLine, hlead, show bytes "\"" = [ch '"'] from rfl]
    simp only [List.append_assoc, List.cons_append]
  have hvalue : ch 'm' :: (bytes "ultipart/mixed; boundary=\"" ++ boundary) ++ [ch '"'] =
      bytes "multipart/mixed" ++ bytes "; " ++ bytes "boundary" ++ bytes "=\"" ++ boundary ++
        bytes "\"" := by
    have hlead : ch 'm' :: bytes "ultipart/mixed; boundary=\"" =
        bytes "multipart/mixed" ++ bytes "; " ++ bytes "boundary" ++ bytes "=\"" := by
      rw [bytes_ofList, bytes_ofList, bytes_ofList, bytes_ofList, bytes_ofList]
      rfl
    rw [← List.cons_append, hlead]
    rfl
  have hquoted : parseContentType (bytes "multipart/mixed" ++ bytes "; " ++ bytes "boundary" ++
      bytes "=\"" ++ boundary ++ bytes "\"") =
      ⟨bytes "multipart", bytes "mixed", [(bytes "boundary", boundary)]⟩ := by
    rw [@parseContentType_quoted (bytes "multipart/mixed") (bytes "boundary") _
      (forall_mem_bytes (by decide)) (forall_mem_bytes (by decide)) (by decide)
      ⟨ch 'b', rfl, by decide⟩ (by decide)
      (fun c hc => ⟨(isWord_ne (hb.word c hc)).1, (isWord_ne (hb.word c hc)).2.2.2.2.1,
        (isWord_ne (hb.word c hc)).2.2.2.2.2.1, (isWord_ne (hb.word c hc)).2.1⟩),
      show parseContentType (bytes "multipart/mixed") = ⟨bytes "multipart", bytes "mixed", []⟩ by
        decide]
  have hheader : parseHeaderBlock (rootLine boundary) =
      [(bytes "Content-type", bytes "multipart/mixed" ++ bytes "; " ++ bytes "boundary" ++
        bytes "=\"" ++ boundary ++ bytes "\"")] := by
    rw [parseHeaderBlock, headerLines_last (rootLine_clean hb) (by simp [rootLine, bytes]),
      List.filterMap_cons, hshape, parseHeader_quoted (by decide) (by decide)
      (by decide) (by decide), hvalue]
    rfl
  have hne : bytes "multipart/mixed" ++ bytes "; " ++ bytes "boundary" ++ bytes "=\"" ++ boundary ++
      bytes "\"" ≠ [] := by
    simp [bytes]
  have htype : bytes "multipart" ≠ [] := by decide
  rw [hheader, contentTypeOf, headerValue_cons_pos (by decide)]
  simp only [if_neg hne, hquoted, if_neg htype]

/-- The texts the children are parsed from. -/
theorem parseNode_historyText (hb : IsBoundary boundary) (hes : ∀ e ∈ es, e.Kept boundary) :
    (parseNode (historyText boundary es)).2 = es.map partText := by
  have hparam : (⟨bytes "multipart", bytes "mixed", [(bytes "boundary", boundary)]⟩ :
      ContentType).param (bytes "boundary") = boundary := by
    have hsame : (bytes "boundary" == lower (bytes "boundary")) = true := by decide
    simp only [ContentType.param, List.find?_cons, hsame]
  have hne : boundary ≠ [] := by
    obtain ⟨t, rfl⟩ := hb.head
    simp
  have hsplit : splitMultipart (preamble ++ bytes "\n" ++ partsOf boundary es) boundary =
      (es.map partContent).map trimEnding := by
    refine splitMultipart_parts (fun hmem => (isWord_ne (hb.word _ hmem)).2.2.1 rfl)
      (quiet_preamble hb) fun x hx => ?_
    obtain ⟨e, he, rfl⟩ := List.mem_map.mp hx
    exact quiet_part hb (hes e he)
  rw [parseNode, split_historyText hb hes]
  simp only [contentTypeOf_rootLine hb, hparam]
  rw [if_pos trivial, if_neg hne, hsplit, List.map_map]
  refine List.map_congr_left fun e he => ?_
  rw [Function.comp_apply, trimEnding_partContent (hes e he)]

/-- What `History` reads of the text of some entries. -/
theorem revisionsOf_historyText (hb : IsBoundary boundary) (hes : ∀ e ∈ es, e.Kept boundary) :
    (revisionsOf (historyText boundary es)).map (fun r => (r.rev, r.diff)) =
      (es.map (fun e => ((e.rev : Int), e.patch.dropLast))).take maxRevisions := by
  have hne : historyText boundary es ≠ [] := by
    rw [historyText, historyHead, rootLine, bytes_cons]
    simp
  have hparts : ∀ fuel : Nat, ∀ es : List Entry, (∀ e ∈ es, e.Kept boundary) →
      (((es.map partText).map (parseEntityFuel fuel)).filterMap revisionOf).map
        (fun r => (r.rev, r.diff)) = es.map (fun e => ((e.rev : Int), e.patch.dropLast)) := by
    intro fuel es
    induction es with
    | nil => exact fun _ => rfl
    | cons e es ih =>
      intro hes
      obtain ⟨r, hr, hrev, hdiff⟩ := revisionOf_partText (hes e List.mem_cons_self)
      rw [List.map_cons, List.map_cons, List.filterMap_cons, revisionOf_parse, hr, List.map_cons,
        ih fun e' he' => hes e' (List.mem_cons_of_mem _ he'), hrev, hdiff, List.map_cons]
  rw [revisionsOf, if_neg hne, List.map_take, parseEntity, parseEntityFuel]
  rw [parseNode_historyText hb hes, hparts _ es hes]

end QuackMail.Wiki
