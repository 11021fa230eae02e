import QuackMail.Bytes

/-! # Content lines

The line grammar of `contentline.cpp` that iCalendar objects are written in: unfolding and
folding of lines, and the escapes of a value.  Unfolding gives back the lines that were
folded, and unescaping the value that was escaped.
-/

namespace QuackMail.Contentline

/-! ## Unfolding -/

/-- A physical line without the CR before its LF. -/
def stripCr (line : Bytes) : Bytes :=
  if line.getLast? = some (ch '\r') then line.dropLast else line

/-- A physical line read: a continuation goes to the last line, another starts one. -/
def addLine (lines : List Bytes) (line : Bytes) : List Bytes :=
  if (line.head? = some (ch ' ') ∨ line.head? = some (ch '\t')) ∧ lines ≠ [] then
    lines.dropLast ++ [lines.getLastD [] ++ line.drop 1]
  else lines ++ [line]

/-- `Unfold`: the logical lines of a text. -/
def unfoldLines (text : Bytes) : List Bytes :=
  (splitOn (ch '\n') text).foldl (fun lines line => addLine lines (stripCr line)) []

/-! ## Folding -/

/-- A continuation byte of UTF-8. -/
def isContinuation (c : Byte) : Bool := c &&& 0xC0 == 0x80

/-- The cut before or at `take` that does not land inside a character. -/
def backOff (rest : Bytes) : Nat → Nat
  | 0 => 0
  | 1 => 1
  | take + 2 =>
    if isContinuation (rest.getD (take + 2) 0) then backOff rest (take + 1) else take + 2

theorem backOff_pos (rest : Bytes) {take : Nat} (h : 0 < take) : 0 < backOff rest take := by
  induction take with
  | zero => exact absurd h (Nat.lt_irrefl 0)
  | succ take ih =>
    cases take with
    | zero => exact Nat.one_pos
    | succ take =>
      rw [backOff]
      split
      · exact ih (Nat.succ_pos take)
      · omega

/-- How much of what is left of a line goes on the next physical line. -/
def takeOf (first : Bool) (rest : Bytes) : Nat :=
  let take := min (if first then 75 else 74) rest.length
  if take < rest.length then backOff rest take else take

theorem takeOf_pos (first : Bool) {rest : Bytes} (h : rest ≠ []) : 0 < takeOf first rest := by
  have hlen := List.length_pos_iff.mpr h
  have hmin : 0 < min (if first then 75 else 74) rest.length := by
    cases first with
    | true => simp only [if_true]; omega
    | false => simp only [if_neg Bool.false_ne_true]; omega
  unfold takeOf
  by_cases hlt : min (if first then 75 else 74) rest.length < rest.length
  · simp only [if_pos hlt]
    exact backOff_pos rest hmin
  · simp only [if_neg hlt]
    exact hmin

/-- The loop of `AppendFolded` over what is left of a line. -/
def foldRest (first : Bool) (rest : Bytes) : Bytes :=
  if _h : rest = [] then []
  else
    (if first then [] else [ch ' ']) ++ rest.take (takeOf first rest) ++ bytes "\r\n" ++
      foldRest false (rest.drop (takeOf first rest))
termination_by rest.length
decreasing_by
  have := takeOf_pos first _h
  have := List.length_pos_iff.mpr _h
  rw [List.length_drop]
  omega

/-- What `AppendFolded` appends for a line. -/
def appendFolded (line : Bytes) : Bytes :=
  if line = [] then bytes "\r\n" else foldRest true line

/-! ## Escapes -/

/-- `Unescape`; an escape that is none keeps both bytes. -/
def unescape : Bytes → Bytes
  | [] => []
  | [c] => [c]
  | c :: n :: s =>
    if c = ch '\\' then
      (if n = ch 'n' ∨ n = ch 'N' then [ch '\n']
        else if n = ch ',' ∨ n = ch ';' ∨ n = ch '\\' then [n]
        else [c, n]) ++ unescape s
    else c :: unescape (n :: s)

/-- What `Escape` writes for a byte; a CR is dropped. -/
def escapeByte (c : Byte) : Bytes :=
  if c = ch '\\' then bytes "\\\\"
  else if c = ch ';' then bytes "\\;"
  else if c = ch ',' then bytes "\\,"
  else if c = ch '\n' then bytes "\\n"
  else if c = ch '\r' then []
  else [c]

/-- `Escape`. -/
def escape (s : Bytes) : Bytes := s.flatMap escapeByte

/-- The loop of `SplitRaw`. -/
def splitRawFrom (sep : Byte) (cur : Bytes) : Bytes → List Bytes
  | [] => [cur]
  | [c] => if c = sep then [cur, []] else [cur ++ [c]]
  | c :: n :: s =>
    if c = ch '\\' then splitRawFrom sep (cur ++ [c, n]) s
    else if c = sep then cur :: splitRawFrom sep [] (n :: s)
    else splitRawFrom sep (cur ++ [c]) (n :: s)

def splitRaw (s : Bytes) (sep : Byte) : List Bytes := splitRawFrom sep [] s

/-! ## What was escaped is unescaped -/

theorem unescape_cons {c : Byte} (h : c ≠ ch '\\') (s : Bytes) :
    unescape (c :: s) = c :: unescape s := by
  cases s with
  | nil => rfl
  | cons n s => rw [unescape, if_neg h]

/-- The escape of a byte other than CR is read as that byte. -/
theorem unescape_escapeByte {c : Byte} (h : c ≠ ch '\r') (s : Bytes) :
    unescape (escapeByte c ++ s) = c :: unescape s := by
  unfold escapeByte
  split
  · next hc =>
    rw [hc]
    show unescape (ch '\\' :: ch '\\' :: s) = _
    rw [unescape, if_pos rfl, if_neg (by decide), if_pos (by decide)]
    rfl
  · next hback =>
    split
    · next hc =>
      rw [hc]
      show unescape (ch '\\' :: ch ';' :: s) = _
      rw [unescape, if_pos rfl, if_neg (by decide), if_pos (by decide)]
      rfl
    · split
      · next hc =>
        rw [hc]
        show unescape (ch '\\' :: ch ',' :: s) = _
        rw [unescape, if_pos rfl, if_neg (by decide), if_pos (by decide)]
        rfl
      · split
        · next hc =>
          rw [hc]
          show unescape (ch '\\' :: ch 'n' :: s) = _
          rw [unescape, if_pos rfl, if_pos (by decide)]
          rfl
        · exact unescape_cons hback s

/-- A value without CR survives escaping. -/
theorem unescape_escape {v : Bytes} (h : ch '\r' ∉ v) : unescape (escape v) = v := by
  induction v with
  | nil => rfl
  | cons c v ih =>
    rw [List.mem_cons, not_or] at h
    rw [escape, List.flatMap_cons, unescape_escapeByte (Ne.symm h.1)]
    exact congrArg (c :: ·) (ih h.2)

theorem not_mem_escape {d : Byte} (hd : d = ch '\n' ∨ d = ch '\r') (v : Bytes) : d ∉ escape v := by
  intro hmem
  obtain ⟨c, -, hc⟩ := List.mem_flatMap.mp hmem
  have hbyte : ∀ c, ch '\n' ∉ escapeByte c ∧ ch '\r' ∉ escapeByte c :=
    forall_byte (by decide +kernel)
  cases hd with
  | inl h => exact (hbyte c).1 (h ▸ hc)
  | inr h => exact (hbyte c).2 (h ▸ hc)

/-! ## What was folded is unfolded -/

/-- Reading on from some lines. -/
def unfoldFrom (lines : List Bytes) (text : Bytes) : List Bytes :=
  (splitOn (ch '\n') text).foldl (fun lines line => addLine lines (stripCr line)) lines

theorem unfoldFrom_line (piece : Bytes) (h : ch '\n' ∉ piece) (lines : List Bytes) (s : Bytes) :
    unfoldFrom lines (piece ++ bytes "\r\n" ++ s) = unfoldFrom (addLine lines piece) s := by
  have hmem : ch '\n' ∉ piece ++ [ch '\r'] := by
    rw [List.mem_append, not_or]
    exact ⟨h, by decide⟩
  have htext : piece ++ bytes "\r\n" ++ s = (piece ++ [ch '\r']) ++ ch '\n' :: s := by
    simp [bytes]
  have hstrip : stripCr (piece ++ [ch '\r']) = piece := by
    rw [stripCr, List.getLast?_concat, if_pos rfl, List.dropLast_concat]
  rw [unfoldFrom, htext, splitOn_append hmem, List.foldl_cons, hstrip]
  rfl

/-- The rest of a folded line goes to the line it continues. -/
theorem unfoldFrom_rest {rest : Bytes} (h : ch '\n' ∉ rest) (lines : List Bytes) (line s : Bytes) :
    unfoldFrom (lines ++ [line]) (foldRest false rest ++ s) =
      unfoldFrom (lines ++ [line ++ rest]) s := by
  induction hn : rest.length using Nat.strongRecOn generalizing rest line with
  | ind n ih =>
    by_cases hnil : rest = []
    · rw [foldRest, dif_pos hnil, hnil, List.append_nil, List.nil_append]
    · have hpos := takeOf_pos false hnil
      have hlen := List.length_pos_iff.mpr hnil
      have htake : ch '\n' ∉ ch ' ' :: rest.take (takeOf false rest) := by
        rw [List.mem_cons, not_or]
        exact ⟨by decide, fun hmem => h (List.mem_of_mem_take hmem)⟩
      have hdrop : ch '\n' ∉ rest.drop (takeOf false rest) :=
        fun hmem => h (List.mem_of_mem_drop hmem)
      have hlt : (rest.drop (takeOf false rest)).length < n := by
        rw [List.length_drop]
        omega
      have hadd : addLine (lines ++ [line]) (ch ' ' :: rest.take (takeOf false rest)) =
          lines ++ [line ++ rest.take (takeOf false rest)] := by
        rw [addLine, if_pos ⟨.inl rfl, by simp⟩, List.dropLast_concat]
        simp
      rw [foldRest, dif_neg hnil, if_neg Bool.false_ne_true]
      rw [show [ch ' '] ++ rest.take (takeOf false rest) ++ bytes "\r\n" ++
          foldRest false (rest.drop (takeOf false rest)) ++ s =
        ch ' ' :: rest.take (takeOf false rest) ++ bytes "\r\n" ++
          (foldRest false (rest.drop (takeOf false rest)) ++ s) from by simp]
      rw [unfoldFrom_line _ htake, hadd, ih _ hlt hdrop _ rfl, List.append_assoc,
        List.take_append_drop]

/-- A line that is not a continuation and has no LF. -/
def Plain (line : Bytes) : Prop :=
  ch '\n' ∉ line ∧ line.head? ≠ some (ch ' ') ∧ line.head? ≠ some (ch '\t')

theorem unfoldFrom_appendFolded {line : Bytes} (h : Plain line) (lines : List Bytes) (s : Bytes) :
    unfoldFrom lines (appendFolded line ++ s) = unfoldFrom (lines ++ [line]) s := by
  obtain ⟨hlf, hspace, htab⟩ := h
  have hadd (piece : Bytes) (hhead : piece.head? = line.head?) :
      addLine lines piece = lines ++ [piece] := by
    rw [addLine, if_neg]
    rw [hhead]
    exact fun hcont => hcont.1.elim hspace htab
  unfold appendFolded
  split
  · next hnil =>
    have hempty := unfoldFrom_line [] (by simp) lines s
    rw [hnil, ← hadd [] (by rw [hnil])]
    exact hempty
  · next hne =>
    have hpos := takeOf_pos true hne
    have htake : ch '\n' ∉ line.take (takeOf true line) :=
      fun hmem => hlf (List.mem_of_mem_take hmem)
    have hdrop : ch '\n' ∉ line.drop (takeOf true line) :=
      fun hmem => hlf (List.mem_of_mem_drop hmem)
    have hhead : (line.take (takeOf true line)).head? = line.head? := by
      rw [List.head?_take, if_neg (by omega)]
    rw [foldRest, dif_neg hne, if_pos rfl, List.nil_append, List.append_assoc,
      unfoldFrom_line _ htake, hadd _ hhead, unfoldFrom_rest hdrop, List.take_append_drop]

/-- The lines that were folded come back; behind the last line's end an empty one begins. -/
theorem unfoldLines_flatMap {lines : List Bytes} (h : ∀ line ∈ lines, Plain line) :
    unfoldLines (lines.flatMap appendFolded) = lines ++ [[]] := by
  have hfrom : ∀ (before after : List Bytes), (∀ line ∈ after, Plain line) →
      unfoldFrom before (after.flatMap appendFolded) = before ++ after ++ [[]] := by
    intro before after hplain
    induction after generalizing before with
    | nil =>
      show addLine before [] = _
      rw [addLine, if_neg (by simp), List.append_nil]
    | cons line after ih =>
      rw [List.flatMap_cons, unfoldFrom_appendFolded (hplain line List.mem_cons_self),
        ih _ fun l hl => hplain l (List.mem_cons_of_mem _ hl)]
      simp
  exact hfrom [] lines h

end QuackMail.Contentline
