import QuackMail.Net.DotStuffed

/-! # Writers and readers of dot-stuffed texts

POP3's `SendDotStuffed`, NNTP's `WriteDotStuffed` and the SMTP client's `DotStuff` write a text
as lines that end at a dot; `ReadDotStuffed` and the POP3 client's `Pop3Multi` with `JoinLines`
read one.  The writers agree, and what is read back is the text with its line ends made CRLF.
-/

namespace QuackMail.Net

/-! ## The writers -/

/-- Dot-stuff a line. -/
def stuff (line : Bytes) : Bytes := if line.head? = some (ch '.') then ch '.' :: line else line

/-- What is sent for a line of the text. -/
def sent (line : Bytes) : Bytes := stuff (stripCr line) ++ crlf

/-- The `flush` of `SendDotStuffed`: what is written, whether the body begins, and the lines of
    it so far; nothing where the body has had its lines. -/
def flushLine (maxBodyLines : Int) (inBody : Bool) (bodyLines : Nat) (line : Bytes) :
    Option (Bytes × Bool × Nat) :=
  if inBody = true ∧ 0 ≤ maxBodyLines ∧ maxBodyLines ≤ bodyLines then none
  else if inBody then some (sent line, true, bodyLines + 1)
  else some (sent line, decide (stripCr line = []), bodyLines)

/-- The loop of `SendDotStuffed`.  A `flush` that refuses ends it, and the one behind the loop
    refuses again. -/
def sendLoop (maxBodyLines : Int) : Bool → Nat → Bytes → Bytes → Bytes
  | inBody, bodyLines, line, [] =>
    if line = [] then []
    else
      match flushLine maxBodyLines inBody bodyLines line with
      | none => []
      | some (out, _, _) => out
  | inBody, bodyLines, line, c :: raw =>
    if c = ch '\n' then
      match flushLine maxBodyLines inBody bodyLines line with
      | none => []
      | some (out, inBody', bodyLines') => out ++ sendLoop maxBodyLines inBody' bodyLines' [] raw
    else sendLoop maxBodyLines inBody bodyLines (line ++ [c]) raw

/-- POP3's `SendDotStuffed`. -/
def sendDotStuffed (raw : Bytes) (maxBodyLines : Int) : Bytes :=
  sendLoop maxBodyLines false 0 [] raw ++ dot ++ crlf

def writeLoop : Bytes → Bytes → Bytes
  | line, [] => if line = [] then [] else sent line
  | line, c :: text =>
    if c = ch '\n' then sent line ++ writeLoop [] text else writeLoop (line ++ [c]) text

/-- NNTP's `WriteDotStuffed`. -/
def writeDotStuffed (text : Bytes) : Bytes := writeLoop [] text ++ dot ++ crlf

/-- `DotStuff` of the SMTP client, from a line on. -/
def dotStuff (raw : Bytes) : Bytes :=
  if raw = [] then []
  else
    match _h : findChar (ch '\n') raw with
    | none => sent raw
    | some nl => sent (raw.take nl) ++ dotStuff (raw.drop (nl + 1))
termination_by raw.length
decreasing_by
  have hne : raw ≠ [] := by assumption
  rw [List.length_drop]
  exact Nat.sub_lt (List.length_pos_iff.mpr hne) (Nat.succ_pos nl)

/-! ## The readers -/

/-- Read on to the line that is a dot. -/
def drainDot : Nat → ClientStream → ClientStream
  | 0, s => s
  | fuel + 1, s =>
    match readLine 65536 s with
    | (s', none) => s'
    | (s', some line) => if line = dot then s' else drainDot fuel s'

/-- The loop of `Pop3Multi`; a limit of zero is none. -/
def pop3MultiLoop (maxBytes : Nat) :
    Nat → Nat → List Bytes → ClientStream → ClientStream × Option (List Bytes)
  | 0, _, _, s => (s, none)
  | fuel + 1, total, lines, s =>
    match readLine 65536 s with
    | (s', none) => (s', none)
    | (s', some line) =>
      if line = dot then (s', some lines)
      else if maxBytes > 0 ∧ total + line.length + 2 > maxBytes then (drainDot fuel s', none)
      else pop3MultiLoop maxBytes fuel (total + line.length + 2) (lines ++ [unstuff line]) s'

/-- `Pop3Multi`. -/
def pop3Multi (maxBytes : Nat) (s : ClientStream) : ClientStream × Option (List Bytes) :=
  pop3MultiLoop maxBytes ((rest s).length + 1) 0 [] s

/-- `JoinLines`. -/
def joinLines (lines : List Bytes) : Bytes := lines.flatMap (· ++ crlf)

/-! ## The lines of a text -/

/-- The lines of a text behind the beginning of one; the last need not end. -/
def linesFrom : Bytes → Bytes → List Bytes
  | line, [] => if line = [] then [] else [line]
  | line, c :: raw =>
    if c = ch '\n' then line :: linesFrom [] raw else linesFrom (line ++ [c]) raw

def textLines (raw : Bytes) : List Bytes := linesFrom [] raw

theorem linesFrom_append {x : Bytes} (h : ch '\n' ∉ x) (line raw : Bytes) :
    linesFrom line (x ++ raw) = linesFrom (line ++ x) raw := by
  induction x generalizing line with
  | nil => simp
  | cons c x ih =>
    have hc : c ≠ ch '\n' := fun hc => h (by simp [hc])
    rw [List.cons_append, linesFrom, if_neg hc, ih (fun hx => h (List.mem_cons_of_mem _ hx))]
    simp

variable {line : Bytes}

theorem linesFrom_ne_nil (h : line ≠ []) (raw : Bytes) : linesFrom line raw ≠ [] := by
  induction raw generalizing line with
  | nil => simp [linesFrom, h]
  | cons c raw ih =>
    rw [linesFrom]
    split
    · simp
    · exact ih (by simp)

theorem not_mem_textLines {raw : Bytes} (h : ch '\n' ∉ line) :
    ∀ l ∈ linesFrom line raw, ch '\n' ∉ l := by
  induction raw generalizing line with
  | nil =>
    intro l hl
    rw [linesFrom] at hl
    split at hl
    · cases hl
    · rw [List.mem_singleton] at hl
      rwa [hl]
  | cons c raw ih =>
    intro l hl
    rw [linesFrom] at hl
    split at hl
    · cases List.mem_cons.mp hl with
      | inl heq => rwa [heq]
      | inr hmem => exact ih (by simp) l hmem
    · next hc =>
      refine ih ?_ l hl
      rw [List.mem_append, List.mem_singleton, not_or]
      exact ⟨h, Ne.symm hc⟩

theorem writeLoop_eq (line text : Bytes) :
    writeLoop line text = (linesFrom line text).flatMap sent := by
  induction text generalizing line with
  | nil =>
    rw [writeLoop, linesFrom]
    split
    · rfl
    · simp
  | cons c text ih =>
    rw [writeLoop, linesFrom]
    split
    · rw [ih, List.flatMap_cons]
    · exact ih _

theorem dotStuff_eq (raw : Bytes) : dotStuff raw = (textLines raw).flatMap sent := by
  induction hn : raw.length using Nat.strongRecOn generalizing raw with
  | ind n ih =>
    rw [dotStuff.eq_def]
    split
    · next hnil => rw [hnil]; rfl
    · next hne =>
      split
      · next hfind =>
        have hlines : textLines raw = [raw] := by
          have h := linesFrom_append (findChar_none hfind) [] []
          rw [List.append_nil] at h
          rw [textLines, h, linesFrom, List.nil_append, if_neg hne]
        rw [hlines]
        simp
      · next nl hfind =>
        obtain ⟨hclean, hsplit⟩ := findChar_some hfind
        have hlines : textLines raw = raw.take nl :: textLines (raw.drop (nl + 1)) := by
          conv_lhs => rw [hsplit]
          rw [textLines, linesFrom_append hclean, linesFrom, if_pos rfl, List.nil_append, textLines]
        have hshort : (raw.drop (nl + 1)).length < n := by
          have hpos := List.length_pos_iff.mpr hne
          rw [List.length_drop]
          omega
        rw [hlines, List.flatMap_cons, ih _ hshort _ rfl]

/-- What `SendDotStuffed` writes for lines. -/
def sendLines (maxBodyLines : Int) : Bool → Nat → List Bytes → Bytes
  | _, _, [] => []
  | inBody, bodyLines, line :: lines =>
    match flushLine maxBodyLines inBody bodyLines line with
    | none => []
    | some (out, inBody', bodyLines') => out ++ sendLines maxBodyLines inBody' bodyLines' lines

theorem sendLoop_eq (maxBodyLines : Int) (inBody : Bool) (bodyLines : Nat) (line raw : Bytes) :
    sendLoop maxBodyLines inBody bodyLines line raw =
      sendLines maxBodyLines inBody bodyLines (linesFrom line raw) := by
  induction raw generalizing inBody bodyLines line with
  | nil =>
    rw [sendLoop, linesFrom]
    split
    · rfl
    · rw [sendLines]
      cases flushLine maxBodyLines inBody bodyLines line with
      | none => rfl
      | some flushed => simp [sendLines]
  | cons c raw ih =>
    rw [sendLoop, linesFrom]
    split
    · rw [sendLines]
      cases flushLine maxBodyLines inBody bodyLines line with
      | none => rfl
      | some flushed => simp only [ih]
    · exact ih _ _ _

theorem flushLine_header (maxBodyLines : Int) (bodyLines : Nat) (line : Bytes) :
    flushLine maxBodyLines false bodyLines line =
      some (sent line, decide (stripCr line = []), bodyLines) := by
  rw [flushLine, if_neg (by simp), if_neg Bool.false_ne_true]

theorem flushLine_body {maxBodyLines : Int} {bodyLines : Nat}
    (h : maxBodyLines < 0 ∨ bodyLines < maxBodyLines) (line : Bytes) :
    flushLine maxBodyLines true bodyLines line = some (sent line, true, bodyLines + 1) := by
  rw [flushLine, if_neg (by omega), if_pos rfl]

theorem flushLine_refused (bodyLines : Nat) (line : Bytes) :
    flushLine bodyLines true bodyLines line = none := by
  rw [flushLine, if_pos ⟨rfl, Int.natCast_nonneg _, Int.le_refl _⟩]

/-- Without a limit every line is sent. -/
theorem sendLines_all {maxBodyLines : Int} (h : maxBodyLines < 0) (inBody : Bool) (bodyLines : Nat)
    (lines : List Bytes) : sendLines maxBodyLines inBody bodyLines lines = lines.flatMap sent := by
  induction lines generalizing inBody bodyLines with
  | nil => rfl
  | cons line lines ih =>
    cases inBody with
    | true => simp only [sendLines, flushLine_body (Or.inl h), ih, List.flatMap_cons]
    | false => simp only [sendLines, flushLine_header, ih, List.flatMap_cons]

/-- In the body as many lines are sent as are left. -/
theorem sendLines_body (limit bodyLines : Nat) (h : bodyLines ≤ limit) (lines : List Bytes) :
    sendLines limit true bodyLines lines = (lines.take (limit - bodyLines)).flatMap sent := by
  induction lines generalizing bodyLines with
  | nil => simp [sendLines]
  | cons line lines ih =>
    by_cases hend : limit = bodyLines
    · subst hend
      simp only [sendLines, flushLine_refused, Nat.sub_self, List.take_zero, List.flatMap_nil]
    · have hmore : bodyLines + 1 ≤ limit := by omega
      rw [sendLines, flushLine_body (Or.inr (by exact_mod_cast hmore))]
      show sent line ++ sendLines limit true (bodyLines + 1) lines = _
      rw [ih (bodyLines + 1) hmore,
        show limit - bodyLines = limit - (bodyLines + 1) + 1 by omega, List.take_succ_cons,
        List.flatMap_cons]

/-- The header block, the blank line and so many lines of the body. -/
def topLines (limit : Nat) (lines : List Bytes) : List Bytes :=
  lines.takeWhile (fun line => !decide (stripCr line = [])) ++
    (lines.dropWhile (fun line => !decide (stripCr line = []))).take (limit + 1)

/-- The header is sent in full, then the blank line and as many lines of the body as are
    asked for. -/
theorem sendLines_header (limit : Nat) (lines : List Bytes) :
    sendLines limit false 0 lines = (topLines limit lines).flatMap sent := by
  induction lines with
  | nil => rfl
  | cons line lines ih =>
    show sent line ++ sendLines limit (decide (stripCr line = [])) 0 lines = _
    by_cases hblank : stripCr line = []
    · rw [decide_eq_true hblank, sendLines_body limit 0 (Nat.zero_le _), topLines,
        List.takeWhile_cons_of_neg (by simp [hblank]),
        List.dropWhile_cons_of_neg (by simp [hblank]), List.nil_append, List.take_succ_cons,
        List.flatMap_cons, Nat.sub_zero]
    · rw [decide_eq_false hblank, ih, topLines, topLines,
        List.takeWhile_cons_of_pos (by simp [hblank]),
        List.dropWhile_cons_of_pos (by simp [hblank]), List.cons_append, List.flatMap_cons]

/-! ## Reading what was written -/

theorem stripCr_concat (line : Bytes) : stripCr (line ++ [ch '\r']) = line := by
  rw [stripCr, if_pos (by simp), List.dropLast_concat]

theorem stuff_ne_dot (line : Bytes) : stuff line ≠ dot := by
  unfold stuff
  split
  · next h =>
    intro heq
    rw [(List.cons.inj heq).2] at h
    cases h
  · next h =>
    intro heq
    rw [heq] at h
    exact h rfl

theorem unstuff_stuff (line : Bytes) : unstuff (stuff line) = line := by
  unfold stuff
  split
  · rfl
  · next h => rw [unstuff, if_neg h]

theorem mem_stuff {c : Byte} (h : c ∈ stuff line) : c = ch '.' ∨ c ∈ line := by
  unfold stuff at h
  split at h
  · exact List.mem_cons.mp h
  · exact Or.inr h

theorem mem_stripCr {c : Byte} (h : c ∈ stripCr line) : c ∈ line := by
  unfold stripCr at h
  split at h
  · exact List.dropLast_subset _ h
  · exact h

/-- A line that was sent is the first line of what it is the beginning of. -/
theorem firstLine_sent (h : ch '\n' ∉ line) (tail : Bytes) :
    FirstLine (sent line ++ tail) (stuff (stripCr line) ++ [ch '\r']) tail := by
  refine ⟨by simp [sent, crlf], ?_⟩
  rw [List.mem_append, List.mem_singleton, not_or]
  refine ⟨fun hmem => ?_, by decide⟩
  cases mem_stuff hmem with
  | inl heq => exact absurd heq (by decide)
  | inr hmem => exact h (mem_stripCr hmem)

theorem firstLine_dot (tail : Bytes) : FirstLine (dot ++ crlf ++ tail) (dot ++ [ch '\r']) tail :=
  ⟨rfl, by decide⟩

/-- The lines as the reader splits them off. -/
def bodiesOf (lines : List Bytes) : List Bytes :=
  lines.map fun line => stuff (stripCr line) ++ [ch '\r']

theorem dotText_sent {lines : List Bytes} (h : ∀ line ∈ lines, ch '\n' ∉ line) (tail : Bytes) :
    DotText (lines.flatMap sent ++ (dot ++ crlf) ++ tail) (bodiesOf lines) tail := by
  induction lines with
  | nil => exact .done (firstLine_dot tail) (stripCr_concat dot)
  | cons line lines ih =>
    have hline := firstLine_sent (h line List.mem_cons_self)
      (lines.flatMap sent ++ (dot ++ crlf) ++ tail)
    have hnot : stripCr (stuff (stripCr line) ++ [ch '\r']) ≠ dot := by
      rw [stripCr_concat]
      exact stuff_ne_dot _
    have hnext := ih (fun l hl => h l (List.mem_cons_of_mem _ hl))
    rw [List.flatMap_cons, List.append_assoc (sent line), List.append_assoc (sent line)]
    exact .line hline hnot hnext

theorem received_bodiesOf (lines : List Bytes) :
    received (bodiesOf lines) = lines.flatMap fun line => stripCr line ++ crlf := by
  induction lines with
  | nil => rfl
  | cons line lines ih =>
    rw [bodiesOf, List.map_cons, ← bodiesOf, received_cons, stripCr_concat, unstuff_stuff, ih,
      List.flatMap_cons]

/-- What `Pop3Multi` reads of lines within its limits. -/
theorem pop3MultiLoop_append {maxBytes : Nat} {lines : List Bytes}
    (h : ∀ line ∈ lines, ch '\n' ∉ line)
    (hlen : ∀ line ∈ lines, (stuff (stripCr line)).length < 65536) (tail : Bytes) :
    ∀ (fuel total : Nat) (before : List Bytes) (s : ClientStream), Steady s →
      (rest s).length < fuel → rest s = lines.flatMap sent ++ (dot ++ crlf) ++ tail →
        (maxBytes = 0 ∨ total + (lines.flatMap sent).length ≤ maxBytes) →
          ∃ s', pop3MultiLoop maxBytes fuel total before s =
              (s', some (before ++ lines.map stripCr)) ∧ rest s' = tail ∧ Steady s' := by
  induction lines with
  | nil =>
    intro fuel total before s hsteady hfuel hrest _
    cases fuel with
    | zero => exact absurd hfuel (Nat.not_lt_zero _)
    | succ fuel =>
      have hfirst : FirstLine (rest s) (dot ++ [ch '\r']) tail := by
        rw [hrest]
        exact firstLine_dot tail
      obtain ⟨t, hread, ht, hst⟩ := readLine_first hsteady hfirst (show _ ≤ 65536 by decide)
      rw [stripCr_concat] at hread
      refine ⟨t, ?_, ht, hst⟩
      simp only [pop3MultiLoop, hread, if_pos, List.map_nil, List.append_nil]
  | cons line lines ih =>
    intro fuel total before s hsteady hfuel hrest hmax
    cases fuel with
    | zero => exact absurd hfuel (Nat.not_lt_zero _)
    | succ fuel =>
      have hfirst : FirstLine (rest s) (stuff (stripCr line) ++ [ch '\r'])
          (lines.flatMap sent ++ (dot ++ crlf) ++ tail) := by
        rw [hrest, List.flatMap_cons, List.append_assoc (sent line), List.append_assoc (sent line)]
        exact firstLine_sent (h line List.mem_cons_self) _
      have hshort : (stuff (stripCr line) ++ [ch '\r']).length ≤ 65536 := by
        rw [List.length_append, List.length_singleton]
        exact hlen line List.mem_cons_self
      obtain ⟨t, hread, ht, hst⟩ := readLine_first hsteady hfirst hshort
      rw [stripCr_concat] at hread
      have hsent : (sent line).length = (stuff (stripCr line)).length + 2 := by
        rw [sent, List.length_append, length_crlf]
      rw [List.flatMap_cons, List.length_append, hsent] at hmax
      have hfits : ¬(maxBytes > 0 ∧ total + (stuff (stripCr line)).length + 2 > maxBytes) := by
        omega
      have hless := hfirst.shorter
      rw [← ht] at hless
      obtain ⟨s', hloop, hs', hst'⟩ := ih (fun l hl => h l (List.mem_cons_of_mem _ hl))
        (fun l hl => hlen l (List.mem_cons_of_mem _ hl)) fuel
        (total + (stuff (stripCr line)).length + 2) (before ++ [stripCr line]) t hst (by omega) ht
        (by omega)
      refine ⟨s', ?_, hs', hst'⟩
      simp only [pop3MultiLoop, hread, if_neg (stuff_ne_dot (stripCr line)), if_neg hfits,
        unstuff_stuff]
      rw [hloop]
      simp

theorem pop3Multi_sent {maxBytes : Nat} {lines : List Bytes} (h : ∀ line ∈ lines, ch '\n' ∉ line)
    (hlen : ∀ line ∈ lines, (stuff (stripCr line)).length < 65536) {tail : Bytes}
    {s : ClientStream} (hsteady : Steady s)
    (hrest : rest s = lines.flatMap sent ++ (dot ++ crlf) ++ tail)
    (hmax : maxBytes = 0 ∨ (lines.flatMap sent).length ≤ maxBytes) :
    ∃ s', pop3Multi maxBytes s = (s', some (lines.map stripCr)) ∧ rest s' = tail ∧ Steady s' := by
  have hloop := pop3MultiLoop_append h hlen tail ((rest s).length + 1) 0 [] s hsteady
    (Nat.lt_succ_self _) hrest (by simpa using hmax)
  simpa [pop3Multi] using hloop

/-! ## Line ends -/

/-- The text with every line end, LF or CRLF, made CRLF, and one added if the last line has
    none. -/
def withCrlf : Bytes → Bytes
  | [] => []
  | [c] => if c = ch '\n' then crlf else c :: crlf
  | c :: d :: raw =>
    if c = ch '\r' ∧ d = ch '\n' then crlf ++ withCrlf raw
    else if c = ch '\n' then crlf ++ withCrlf (d :: raw)
    else c :: withCrlf (d :: raw)

/-- A CR that ends the text is taken for a line end. -/
def endCr (raw : Bytes) : Bytes :=
  if raw.getLast? = some (ch '\r') then raw ++ [ch '\n'] else raw

theorem stripCr_cons {c : Byte} (h : line ≠ []) : stripCr (c :: line) = c :: stripCr line := by
  obtain ⟨d, rest, rfl⟩ := List.exists_cons_of_ne_nil h
  unfold stripCr
  rw [List.getLast?_cons_cons, List.dropLast_cons_cons]
  split <;> rfl

/-- A line that ends. -/
theorem withCrlf_line (h : ch '\n' ∉ line) (raw : Bytes) :
    withCrlf (line ++ ch '\n' :: raw) = stripCr line ++ crlf ++ withCrlf raw := by
  have hlf : ¬(ch '\n' = ch '\r') := by decide
  induction line with
  | nil =>
    cases raw with
    | nil => rfl
    | cons d raw =>
      rfl
  | cons c line ih =>
    have hc : c ≠ ch '\n' := fun hc => h (by simp [hc])
    have hline : ch '\n' ∉ line := fun hm => h (List.mem_cons_of_mem _ hm)
    cases line with
    | nil =>
      rw [List.singleton_append, withCrlf]
      by_cases hcr : c = ch '\r'
      · rw [if_pos ⟨hcr, rfl⟩, hcr]
        rfl
      · rw [if_neg (fun hh => hcr hh.1), if_neg hc, stripCr, if_neg (by simpa using hcr)]
        have hih := ih hline
        rw [List.nil_append] at hih
        rw [hih]
        rfl
    | cons d line =>
      have hd : d ≠ ch '\n' := fun hd => hline (by simp [hd])
      have hstrip : stripCr (c :: d :: line) = c :: stripCr (d :: line) := stripCr_cons (by simp)
      rw [List.cons_append, List.cons_append, withCrlf, if_neg (fun hh => hd hh.2), if_neg hc,
        ← List.cons_append, ih hline, hstrip]
      rfl

/-- The last line, when it does not end. -/
theorem withCrlf_last (h : ch '\n' ∉ line) (hne : line ≠ []) :
    withCrlf (endCr line) = stripCr line ++ crlf := by
  unfold endCr
  split
  · rw [withCrlf_line h []]
    exact List.append_nil _
  · next hlast =>
    rw [stripCr, if_neg hlast]
    induction line with
    | nil => exact absurd rfl hne
    | cons c line ih =>
      have hc : c ≠ ch '\n' := fun hc => h (by simp [hc])
      cases line with
      | nil => rw [withCrlf, if_neg hc]; rfl
      | cons d line =>
        have hline : ch '\n' ∉ d :: line := fun hm => h (List.mem_cons_of_mem _ hm)
        have hd : d ≠ ch '\n' := fun hd => hline (by simp [hd])
        rw [withCrlf, if_neg (fun hh => hd hh.2), if_neg hc,
          ih hline (by simp) (by rwa [List.getLast?_cons_cons] at hlast)]
        rfl

theorem endCr_append (x raw : Bytes) : endCr (x ++ ch '\n' :: raw) = x ++ ch '\n' :: endCr raw := by
  unfold endCr
  cases raw with
  | nil =>
    have hlf : ¬(ch '\n' = ch '\r') := by decide
    rw [if_neg (by simpa using hlf)]
    rfl
  | cons c raw =>
    have hlast : (x ++ ch '\n' :: c :: raw).getLast? = (c :: raw).getLast? := by
      rw [List.getLast?_append, List.getLast?_cons_cons, List.getLast?_eq_some_getLast (by simp),
        Option.some_or]
    by_cases hcr : (c :: raw).getLast? = some (ch '\r')
    · rw [if_pos hcr, if_pos (hlast.trans hcr), List.append_assoc]
      rfl
    · rw [if_neg hcr, if_neg (fun h => hcr (hlast.symm.trans h))]

theorem flatMap_linesFrom (h : ch '\n' ∉ line) (raw : Bytes) :
    (linesFrom line raw).flatMap (fun l => stripCr l ++ crlf) = withCrlf (endCr (line ++ raw)) := by
  induction raw generalizing line with
  | nil =>
    rw [linesFrom, List.append_nil]
    split
    · next hnil => rw [hnil]; rfl
    · next hne =>
      rw [withCrlf_last h hne]
      simp
  | cons c raw ih =>
    rw [linesFrom]
    split
    · next hc =>
      rw [List.flatMap_cons, ih (by simp), hc, endCr_append, withCrlf_line h]
      rfl
    · next hc =>
      rw [ih (by rw [List.mem_append, List.mem_singleton, not_or]; exact ⟨h, Ne.symm hc⟩)]
      simp

/-! ## Writers and readers agree -/

/-- The three writers write the same. -/
theorem writers_agree (raw : Bytes) {maxBodyLines : Int} (h : maxBodyLines < 0) :
    sendDotStuffed raw maxBodyLines = (textLines raw).flatMap sent ++ (dot ++ crlf) ∧
      writeDotStuffed raw = (textLines raw).flatMap sent ++ (dot ++ crlf) ∧
      dotStuff raw ++ (dot ++ crlf) = (textLines raw).flatMap sent ++ (dot ++ crlf) := by
  refine ⟨?_, ?_, ?_⟩
  · rw [sendDotStuffed, sendLoop_eq, sendLines_all h, textLines, List.append_assoc]
  · rw [writeDotStuffed, writeLoop_eq, textLines, List.append_assoc]
  · rw [dotStuff_eq]

/-- Lines of which the last is the only one that is a dot. -/
def EndsAtDot (written : Bytes) : Prop :=
  ∃ lines : List Bytes, (∀ line ∈ lines, ch '\n' ∉ line ∧ line ≠ dot) ∧
    written = (lines ++ [dot]).flatMap (· ++ crlf)

/-- `ReadDotStuffed` reads the text, where its limit allows it, and nothing behind it. -/
def ReadsBack (written text : Bytes) : Prop :=
  ∀ (s : ClientStream) (tail : Bytes) (maxBytes : Nat), Steady s → rest s = written ++ tail →
    2 ≤ maxBytes → text.length ≤ maxBytes →
      ∃ s', readDotStuffed maxBytes s = (s', some text) ∧ rest s' = tail

/-- `Pop3Multi` and `JoinLines` read the text, where their limits allow it, and nothing behind
    it. -/
def PopsBack (written text : Bytes) : Prop :=
  ∀ (s : ClientStream) (tail : Bytes) (maxBytes : Nat), Steady s → rest s = written ++ tail →
    (maxBytes = 0 ∨ written.length ≤ maxBytes) →
      ∃ s' lines, pop3Multi maxBytes s = (s', some lines) ∧ joinLines lines = text ∧ rest s' = tail

/-- No line is longer as sent than `Pop3Multi` reads. -/
def ShortLines (raw : Bytes) : Prop :=
  ∀ line ∈ textLines raw, (stuff (stripCr line)).length < 65536

/-- What a writer of dot-stuffed texts and the readers make of a text. -/
structure Carries (written raw text : Bytes) : Prop where
  ends : EndsAtDot written
  read : ReadsBack written text
  popped : ShortLines raw → PopsBack written text

theorem carries_sent (raw : Bytes) :
    Carries ((textLines raw).flatMap sent ++ (dot ++ crlf)) raw (withCrlf (endCr raw)) := by
  have hclean : ∀ line ∈ textLines raw, ch '\n' ∉ line := not_mem_textLines (by simp)
  have htext : (textLines raw).flatMap (fun l => stripCr l ++ crlf) = withCrlf (endCr raw) :=
    flatMap_linesFrom (by simp) raw
  constructor
  · refine ⟨(textLines raw).map fun line => stuff (stripCr line), ?_, ?_⟩
    · intro line hline
      obtain ⟨l, hl, rfl⟩ := List.mem_map.mp hline
      refine ⟨fun hmem => ?_, stuff_ne_dot _⟩
      cases mem_stuff hmem with
      | inl heq => exact absurd heq (by decide)
      | inr hmem => exact hclean l hl (mem_stripCr hmem)
    · rw [List.flatMap_append, List.flatMap_map]
      rfl
  · intro s tail maxBytes hsteady hrest hmax hlen
    have hdot := dotText_sent hclean tail
    rw [← hrest] at hdot
    have hreceived := (received_bodiesOf (textLines raw)).trans htext
    obtain ⟨s', hread, hs', -⟩ := readDotStuffed_complete hmax hsteady hdot (by rwa [hreceived])
    rw [hreceived] at hread
    exact ⟨s', hread, hs'⟩
  · intro hshort s tail maxBytes hsteady hrest hmax
    have hbody : maxBytes = 0 ∨ ((textLines raw).flatMap sent).length ≤ maxBytes := by
      rw [List.length_append] at hmax
      omega
    obtain ⟨s', hread, hs', -⟩ := pop3Multi_sent hclean hshort hsteady hrest hbody
    refine ⟨s', _, hread, ?_, hs'⟩
    rw [joinLines, List.flatMap_map, ← htext]

/-- Every writer's text ends at its last line, the only one that is a dot, and both readers read
    it back with its line ends made CRLF, a CR at its end taken for one; `TOP` sends the header,
    the blank line and the lines of the body it is asked for. -/
theorem dotStuffing_agrees (raw : Bytes) : (∀ maxBodyLines : Int, maxBodyLines < 0 →
      Carries (sendDotStuffed raw maxBodyLines) raw (withCrlf (endCr raw))) ∧
    Carries (writeDotStuffed raw) raw (withCrlf (endCr raw)) ∧
    Carries (dotStuff raw ++ (dot ++ crlf)) raw (withCrlf (endCr raw)) ∧
    ∀ n : Nat,
      sendDotStuffed raw n = (topLines n (textLines raw)).flatMap sent ++ (dot ++ crlf) := by
  have hall := carries_sent raw
  obtain ⟨-, hnntp, hsmtp⟩ := writers_agree raw (show (-1 : Int) < 0 by decide)
  refine ⟨fun maxBodyLines h => ?_, by rwa [hnntp], by rwa [hsmtp], fun n => ?_⟩
  · rw [(writers_agree raw h).1]
    exact hall
  · rw [sendDotStuffed, sendLoop_eq, sendLines_header, ← textLines, List.append_assoc]

/-- A CR at the end of a text is not carried as it is. -/
theorem final_cr_lost : ¬∀ raw : Bytes, Carries (writeDotStuffed raw) raw (withCrlf raw) := by
  intro h
  obtain ⟨s', hread, -⟩ := (h [ch 'a', ch '\r']).read (connect [bytes "a\r\n.\r\n"]) [] 100
    (steady_connect (by unfold Received; decide)) (by decide +kernel) (by decide) (by decide)
  have hother : (readDotStuffed 100 (connect [bytes "a\r\n.\r\n"])).2 = some (bytes "a\r\n") := by
    decide +kernel
  rw [hread] at hother
  simp only [Option.some.injEq] at hother
  exact absurd hother (by decide +kernel)

end QuackMail.Net
