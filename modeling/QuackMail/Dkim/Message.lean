import QuackMail.Bytes

/-! # Messages as DKIM reads them

`SplitMessage` and the canonicalizations of `dkim.cpp`.
-/

namespace QuackMail.Dkim

def cr : Byte := 13

def lf : Byte := 10

def crlf : Bytes := [cr, lf]

/-- The end of a header block and the blank line after it. -/
def blank : Bytes := [cr, lf, cr, lf]

def isWsp (c : Byte) : Bool := c == ch ' ' || c == ch '\t'

def isTrimmed (c : Byte) : Bool := c == ch ' ' || c == ch '\t' || c == cr || c == lf

/-- `Trim`. -/
def trim (s : Bytes) : Bytes := trimBy isTrimmed s

/-- One header as it appeared on the wire: the name and the raw value, folded lines
    included. -/
structure RawHeader where
  name : Bytes
  value : Bytes

/-- Line endings become CRLF: a CR is dropped and put back before every LF. -/
def normalize (raw : Bytes) : Bytes :=
  raw.flatMap (fun c => if c = cr then [] else if c = lf then crlf else [c])

/-- The lines of a text that ends its lines in CRLF; the flag says that the LF of a
    CRLF comes next. -/
def linesFrom : Bool → Bytes → Bytes → List Bytes
  | _, cur, [] => if cur = [] then [] else [cur]
  | true, cur, _ :: s => linesFrom false cur s
  | false, cur, c :: s =>
    if c = cr ∧ s.head? = some lf then cur :: linesFrom true [] s
    else linesFrom false (cur ++ [c]) s

def crlfLines (s : Bytes) : List Bytes := linesFrom false [] s

/-- The headers of the lines of a header block, with the one being read: a line that
    starts with white space continues it, a line without a colon is no header. -/
def headersFrom : Option RawHeader → List Bytes → List RawHeader
  | cur, [] => cur.toList
  | cur, line :: rest =>
    match line with
    | [] => headersFrom cur rest
    | c :: _ =>
      if isWsp c then
        headersFrom (cur.map (fun h => { h with value := h.value ++ crlf ++ line })) rest
      else
        cur.toList ++
          match findChar (ch ':') line with
          | none => headersFrom none rest
          | some colon => headersFrom (some ⟨line.take colon, line.drop (colon + 1)⟩) rest

/-- Where the header block ends; it keeps the CRLF of its last line. -/
def splitHead (norm : Bytes) : Bytes × Bytes :=
  match find blank norm with
  | none => (norm, [])
  | some sep => (norm.take (sep + 2), norm.drop (sep + 4))

/-- `SplitMessage`: the headers and the body. -/
def splitMessage (raw : Bytes) : List RawHeader × Bytes :=
  let parts := splitHead (normalize raw)
  (headersFrom none (crlfLines parts.1), parts.2)

/-! ## Canonicalization -/

/-- Runs of white space become one space, except in front; what is at the end goes.
    `started` says that something was put out. -/
def collapseFrom : Bool → Bool → Bytes → Bytes
  | _, _, [] => []
  | started, inWsp, c :: s =>
    if isWsp c then collapseFrom started true s
    else (if inWsp && started then [ch ' '] else []) ++ c :: collapseFrom true false s

def collapse (s : Bytes) : Bytes := collapseFrom false false s

/-- `CanonicalizeBody`. -/
def canonicalizeBody (body : Bytes) (relaxed : Bool) : Bytes :=
  let lines := crlfLines body
  let lines := if relaxed then lines.map collapse else lines
  let lines := lines.rdropWhile (fun l => decide (l = []))
  if lines = [] then (if relaxed then [] else crlf) else lines.flatMap (· ++ crlf)

/-- A CR or LF disappears when a value is unfolded. -/
def unfold (value : Bytes) : Bytes := value.filter (fun c => c != cr && c != lf)

/-- `CanonicalizeHeader`. -/
def canonicalizeHeader (name value : Bytes) (relaxed : Bool) : Bytes :=
  if relaxed then lower (trim name) ++ [ch ':'] ++ collapse (unfold value) ++ crlf
  else name ++ [ch ':'] ++ value ++ crlf

/-! ## A header in front of a message -/

/-- A header value on the wire: a CR only where a line is folded. -/
inductive Folded : Bytes → Prop where
  | nil : Folded []
  | char {c : Byte} {v : Bytes} (hcr : c ≠ cr) (hlf : c ≠ lf) (h : Folded v) : Folded (c :: v)
  | fold {w : Byte} {v : Bytes} (hw : isWsp w = true) (h : Folded v) : Folded (cr :: lf :: w :: v)

theorem Folded.append {u v : Bytes} (hu : Folded u) (hv : Folded v) : Folded (u ++ v) := by
  induction hu with
  | nil => exact hv
  | char hcr hlf _ ih => exact .char hcr hlf ih
  | fold hw _ ih => exact .fold hw ih

theorem folded_of_clean {v : Bytes} (h : ∀ c ∈ v, c ≠ cr ∧ c ≠ lf) : Folded v := by
  induction v with
  | nil => exact .nil
  | cons c v ih =>
    have hc := h c List.mem_cons_self
    exact .char hc.1 hc.2 (ih (fun d hd => h d (List.mem_cons_of_mem _ hd)))

@[simp] theorem normalize_append (u v : Bytes) : normalize (u ++ v) = normalize u ++ normalize v := by
  simp [normalize]

theorem wsp_ne_cr {w : Byte} (h : isWsp w = true) : w ≠ cr ∧ w ≠ lf := by
  simp only [isWsp, Bool.or_eq_true, beq_iff_eq] at h
  rcases h with rfl | rfl <;> decide

/-- A folded value is in CRLF form already. -/
theorem Folded.normalize {v : Bytes} (h : Folded v) : normalize v = v := by
  induction h with
  | nil => rfl
  | char hcr hlf _ ih =>
    rw [Dkim.normalize, List.flatMap_cons, if_neg hcr, if_neg hlf, ← Dkim.normalize, ih]
    rfl
  | fold hw _ ih =>
    obtain ⟨hcr, hlf⟩ := wsp_ne_cr hw
    rw [Dkim.normalize, List.flatMap_cons, List.flatMap_cons, List.flatMap_cons, if_pos rfl,
      if_neg (by decide), if_pos rfl, if_neg hcr, if_neg hlf, ← Dkim.normalize, ih]
    rfl

/-- The blank line is not found inside a folded value. -/
theorem Folded.find_blank {v : Bytes} (h : Folded v) {t : Bytes} (ht : ¬crlf <+: t) :
    find blank (v ++ crlf ++ t) = (find blank t).map (· + (v.length + 2)) := by
  have hstep : ∀ {c : Byte} {s : Bytes}, ¬blank <+: (c :: s) →
      find blank (c :: s) = (find blank s).map (· + 1) := by
    intro c s hpre
    rw [find, if_neg (by simpa using hpre)]
  have hother : ∀ {c : Byte} {s : Bytes}, c ≠ cr → ¬blank <+: (c :: s) := by
    intro c s hc hpre
    simp [blank, Ne.symm hc] at hpre
  have hmap : ∀ (o : Option Nat) (a b : Nat),
      (o.map (· + a)).map (· + b) = o.map (· + (a + b)) := by
    intro o a b
    simp [Function.comp_def, Nat.add_assoc]
  induction h with
  | nil =>
    have hend : ¬blank <+: (cr :: lf :: t) := by
      intro hpre
      exact ht (by simpa [blank, crlf] using hpre)
    change find blank (cr :: lf :: t) = _
    rw [hstep hend, hstep (hother (by decide)), hmap]
    rfl
  | char hcr hlf _ ih =>
    rw [List.cons_append, List.cons_append, hstep (hother hcr), ih, hmap, List.length_cons]
  | fold hw _ ih =>
    obtain ⟨hcr, hlf⟩ := wsp_ne_cr hw
    simp only [List.cons_append]
    rw [hstep (by simp [blank, Ne.symm hcr]), hstep (hother (by decide)), hstep (hother hcr), ih,
      hmap, hmap, hmap]
    simp

/-- The lines of a folded value: the rest of the line it starts on, and lines that
    continue it. -/
theorem Folded.lines {v : Bytes} (h : Folded v) :
    ∃ first conts, (∀ line ∈ conts, ∃ w s, line = w :: s ∧ isWsp w = true) ∧
      v = first ++ conts.flatMap (crlf ++ ·) ∧
      ∀ cur t, linesFrom false cur (v ++ crlf ++ t) =
        (cur ++ first) :: (conts ++ linesFrom false [] t) := by
  induction h with
  | nil =>
    refine ⟨[], [], by simp, rfl, ?_⟩
    intro cur t
    simp [crlf, linesFrom]
  | @char c v hcr hlf _ ih =>
    obtain ⟨first, conts, hconts, hv, hlines⟩ := ih
    refine ⟨c :: first, conts, hconts, by rw [hv]; rfl, ?_⟩
    intro cur t
    rw [List.cons_append, List.cons_append, linesFrom, if_neg (by simp [hcr]), hlines]
    simp
  | @fold w v hw _ ih =>
    obtain ⟨hcr, hlf⟩ := wsp_ne_cr hw
    obtain ⟨first, conts, hconts, hv, hlines⟩ := ih
    refine ⟨[], (w :: first) :: conts, ?_, by simp [hv, crlf], ?_⟩
    · intro line hline
      rcases List.mem_cons.mp hline with rfl | hline
      · exact ⟨w, first, rfl, hw⟩
      · exact hconts line hline
    · intro cur t
      simp only [List.cons_append]
      rw [linesFrom, if_pos ⟨rfl, rfl⟩, linesFrom, linesFrom, if_neg (by simp [hcr]), hlines]
      simp

theorem linesFrom_cons (cur : Bytes) (c : Byte) (s : Bytes) :
    ∃ line more, linesFrom false (cur ++ [c]) s = (cur ++ c :: line) :: more := by
  induction s generalizing cur c with
  | nil => exact ⟨[], [], by simp [linesFrom]⟩
  | cons d s ih =>
    rw [linesFrom]
    split
    · exact ⟨[], linesFrom true [] s, by simp⟩
    · obtain ⟨line, more, h⟩ := ih (cur ++ [c]) d
      exact ⟨d :: line, more, by simpa using h⟩

theorem linesFrom_clean {x : Bytes} (h : ∀ c ∈ x, c ≠ cr) (cur s : Bytes) :
    linesFrom false cur (x ++ s) = linesFrom false (cur ++ x) s := by
  induction x generalizing cur with
  | nil => simp
  | cons c x ih =>
    have hc := h c List.mem_cons_self
    rw [List.cons_append, linesFrom, if_neg (by simp [hc]),
      ih (fun d hd => h d (List.mem_cons_of_mem _ hd))]
    simp

/-- Lines that continue a header go to its value. -/
theorem headersFrom_conts {conts : List Bytes}
    (h : ∀ line ∈ conts, ∃ w s, line = w :: s ∧ isWsp w = true) (hd : RawHeader)
    (rest : List Bytes) :
    headersFrom (some hd) (conts ++ rest) =
      headersFrom (some { hd with value := hd.value ++ conts.flatMap (crlf ++ ·) }) rest := by
  induction conts generalizing hd with
  | nil => simp
  | cons line conts ih =>
    obtain ⟨w, s, rfl, hw⟩ := h line List.mem_cons_self
    rw [List.cons_append, headersFrom]
    simp only [hw, if_true, Option.map_some]
    rw [ih (fun l hl => h l (List.mem_cons_of_mem _ hl))]
    simp

/-- A line that starts a header ends the one before it. -/
theorem headersFrom_flush {c : Byte} {s : Bytes} (hc : isWsp c = false) (hd : RawHeader)
    (rest : List Bytes) :
    headersFrom (some hd) ((c :: s) :: rest) = hd :: headersFrom none ((c :: s) :: rest) := by
  rw [headersFrom, headersFrom]
  simp [hc]

/-- The text starts with a header field line. -/
def StartsWithField (raw : Bytes) : Prop :=
  ∃ name rest, raw = name ++ ch ':' :: rest ∧ name ≠ [] ∧
    (∀ c ∈ name, c ≠ cr ∧ c ≠ lf ∧ c ≠ ch ':') ∧ ∀ c, name.head? = some c → isWsp c = false

/-- A header in front of a message is read back as the first header, and the message
    after it as before. -/
theorem splitMessage_cons {name value raw : Bytes} (hraw : StartsWithField raw)
    (hname : name ≠ []) (hclean : ∀ c ∈ name, c ≠ cr ∧ c ≠ lf ∧ c ≠ ch ':')
    (hwsp : ∀ c, name.head? = some c → isWsp c = false) (hvalue : Folded value) :
    splitMessage (name ++ ch ':' :: value ++ crlf ++ raw) =
      (⟨name, value⟩ :: (splitMessage raw).1, (splitMessage raw).2) := by
  obtain ⟨field, rest, rfl, hfield, hfclean, hfwsp⟩ := hraw
  obtain ⟨f, fs, rfl⟩ := List.exists_cons_of_ne_nil hfield
  obtain ⟨n, ns, rfl⟩ := List.exists_cons_of_ne_nil hname
  have hf := hfclean f List.mem_cons_self
  have hfolded : Folded (n :: ns ++ ch ':' :: value) :=
    (folded_of_clean (fun c hc => ⟨(hclean c hc).1, (hclean c hc).2.1⟩)).append
      (.char (by decide) (by decide) hvalue)
  -- the message itself after the line endings were put in order
  have hnorm : normalize (f :: fs ++ ch ':' :: rest) = f :: (fs ++ ch ':' :: normalize rest) := by
    rw [normalize_append, (folded_of_clean (fun c hc =>
      ⟨(hfclean c hc).1, (hfclean c hc).2.1⟩)).normalize]
    rfl
  have hhead : ¬crlf <+: normalize (f :: fs ++ ch ':' :: rest) := by
    rw [hnorm]
    simp [crlf, Ne.symm hf.1]
  have hwhole : normalize (n :: ns ++ ch ':' :: value ++ crlf ++ (f :: fs ++ ch ':' :: rest)) =
      (n :: ns ++ ch ':' :: value) ++ crlf ++ normalize (f :: fs ++ ch ':' :: rest) := by
    rw [normalize_append, normalize_append, hfolded.normalize]
    rfl
  -- the lines of the new header are its value, and the next line ends it
  have hheads : ∀ t, headersFrom none
      (crlfLines ((n :: ns ++ ch ':' :: value) ++ crlf ++ f :: t)) =
      ⟨n :: ns, value⟩ :: headersFrom none (crlfLines (f :: t)) := by
    intro t
    obtain ⟨first, conts, hconts, hv, hlines⟩ := hvalue.lines
    obtain ⟨line, more, hline⟩ : ∃ line more, linesFrom false [] (f :: t) = (f :: line) :: more := by
      rw [linesFrom, if_neg (by simp [hf.1])]
      exact linesFrom_cons [] f t
    have hclean' : ∀ c ∈ n :: ns ++ [ch ':'], c ≠ cr := by
      intro c hc
      rcases List.mem_append.mp hc with hc | hc
      · exact (hclean c hc).1
      · rw [List.mem_singleton.mp hc]
        decide
    have hread : crlfLines ((n :: ns ++ ch ':' :: value) ++ crlf ++ f :: t) =
        (n :: ns ++ ch ':' :: first) :: (conts ++ (f :: line) :: more) := by
      rw [← hline, crlfLines, show (n :: ns ++ ch ':' :: value) ++ crlf ++ f :: t =
        (n :: ns ++ [ch ':']) ++ (value ++ crlf ++ f :: t) by simp, linesFrom_clean hclean', hlines]
      simp
    rw [hread, crlfLines, hline, List.cons_append, headersFrom]
    have hcolon : findChar (ch ':') (n :: (ns ++ ch ':' :: first)) = some (n :: ns).length := by
      exact findChar_append (fun hc => (hclean _ hc).2.2 rfl) first
    simp only [hwsp n rfl, Bool.false_eq_true, if_false, Option.toList_none, List.nil_append, hcolon]
    rw [headersFrom_conts hconts, headersFrom_flush (hfwsp f rfl)]
    simp [hv]
  rw [splitMessage, splitMessage, hwhole, splitHead, hfolded.find_blank hhead, splitHead]
  cases hsep : find blank (normalize (f :: fs ++ ch ':' :: rest)) with
  | none =>
    rw [hnorm]
    exact Prod.ext (hheads _) rfl
  | some sep =>
    simp only [Option.map_some]
    have hlen : ((n :: ns ++ ch ':' :: value) ++ crlf).length =
        (n :: ns ++ ch ':' :: value).length + 2 := List.length_append
    rw [show sep + ((n :: ns ++ ch ':' :: value).length + 2) + 2 =
        ((n :: ns ++ ch ':' :: value) ++ crlf).length + (sep + 2) by omega,
      show sep + ((n :: ns ++ ch ':' :: value).length + 2) + 4 =
        ((n :: ns ++ ch ':' :: value) ++ crlf).length + (sep + 4) by omega,
      List.take_length_add_append, List.drop_length_add_append, hnorm]
    exact Prod.ext (hheads _) rfl

end QuackMail.Dkim
