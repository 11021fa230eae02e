import QuackMail.Bytes

/-! # Quoted-printable

`EncodeQuotedPrintable` and the decoder of `mime_codec.cpp`.  The text comes back with CRLF for
its line ends, and every line written has at most 76 printable octets.  White space at the end
of a line is written as it is, so the lines are those of RFC 2045 exactly where the text has
none there.
-/

namespace QuackMail.Mime

/-! ## The codec -/

/-- `HexVal`, `none` for -1. -/
def hexVal (c : Byte) : Option Nat :=
  if isDigit c then some (c.toNat - 48)
  else if ch 'A' ≤ c ∧ c ≤ ch 'F' then some (c.toNat - 55)
  else if ch 'a' ≤ c ∧ c ≤ ch 'f' then some (c.toNat - 87)
  else none

/-- `DecodeQpImpl`. -/
def decodeQpImpl (underscoreIsSpace : Bool) : Bytes → Bytes
  | [] => []
  | c :: s =>
    if c = ch '=' then
      match s with
      | [] => [c]
      | [a] => if a = ch '\n' then [] else c :: decodeQpImpl underscoreIsSpace [a]
      | a :: b :: t =>
        if a = ch '\n' then decodeQpImpl underscoreIsSpace (b :: t)
        else if a = ch '\r' ∧ b = ch '\n' then decodeQpImpl underscoreIsSpace t
        else
          match hexVal a, hexVal b with
          | some hi, some lo =>
            UInt8.ofNat (hi * 16 + lo) :: decodeQpImpl underscoreIsSpace t
          | _, _ => c :: decodeQpImpl underscoreIsSpace (a :: b :: t)
    else if underscoreIsSpace ∧ c = ch '_' then ch ' ' :: decodeQpImpl underscoreIsSpace s
    else c :: decodeQpImpl underscoreIsSpace s

def decodeQuotedPrintable (s : Bytes) : Bytes := decodeQpImpl false s

def isPrintable (c : Byte) : Bool :=
  (33 ≤ c && c ≤ 126 && c != ch '=') || c == ch ' ' || c == ch '\t'

/-- `kHex`. -/
def hexDigit (n : Nat) : Byte := if n < 10 then UInt8.ofNat (48 + n) else UInt8.ofNat (55 + n)

/-- What is written for a byte other than CR and LF. -/
def token (c : Byte) : Bytes :=
  if isPrintable c then [c] else [ch '=', hexDigit (c.toNat / 16), hexDigit (c.toNat % 16)]

/-- The loop of `EncodeQuotedPrintable`, `lineLen` octets into a line. -/
def encodeFrom (lineLen : Nat) : Bytes → Bytes
  | [] => []
  | c :: s =>
    if c = ch '\n' then ch '\r' :: ch '\n' :: encodeFrom 0 s
    else if c = ch '\r' then encodeFrom lineLen s
    else if lineLen + (token c).length > 75 then
      ch '=' :: ch '\r' :: ch '\n' :: (token c ++ encodeFrom (token c).length s)
    else token c ++ encodeFrom (lineLen + (token c).length) s

def encodeQuotedPrintable (s : Bytes) : Bytes := encodeFrom 0 s

/-! ## The text comes back -/

/-- A text without its CRs, and with CRLF for every LF. -/
def normalize (s : Bytes) : Bytes :=
  (s.filter (· ≠ ch '\r')).flatMap fun c => if c = ch '\n' then [ch '\r', ch '\n'] else [c]

theorem hexVal_hexDigit {n : Nat} (h : n < 16) : hexVal (hexDigit n) = some n := by
  have hall : ∀ n < 16, hexVal (hexDigit n) = some n := by decide +kernel
  exact hall n h

example : hexVal (hexDigit 11) = some 11 := by decide +kernel

theorem hexDigit_plain {n : Nat} (h : n < 16) :
    hexDigit n ≠ ch '\n' ∧ hexDigit n ≠ ch '\r' ∧ hexDigit n ≠ ch ' ' ∧ hexDigit n ≠ ch '\t' ∧
      33 ≤ hexDigit n ∧ hexDigit n ≤ 126 := by
  have hall : ∀ n < 16, hexDigit n ≠ ch '\n' ∧ hexDigit n ≠ ch '\r' ∧ hexDigit n ≠ ch ' ' ∧
      hexDigit n ≠ ch '\t' ∧ 33 ≤ hexDigit n ∧ hexDigit n ≤ 126 := by decide +kernel
  exact hall n h

theorem isPrintable_ne {c : Byte} (h : isPrintable c = true) :
    c ≠ ch '=' ∧ c ≠ ch '\r' ∧ c ≠ ch '\n' := by
  have hall : ∀ c, isPrintable c = true → c ≠ ch '=' ∧ c ≠ ch '\r' ∧ c ≠ ch '\n' :=
    forall_byte (by decide +kernel)
  exact hall c h

example : token (ch '=') = bytes "=3D" := by decide +kernel

theorem decodeQpImpl_plain {c : Byte} (h : c ≠ ch '=') (s : Bytes) :
    decodeQpImpl false (c :: s) = c :: decodeQpImpl false s := by
  rw [decodeQpImpl.eq_def]
  simp [h]

variable (c : Byte) (s : Bytes)

/-- What is written for a byte is read as that byte. -/
theorem decodeQpImpl_token : decodeQpImpl false (token c ++ s) = c :: decodeQpImpl false s := by
  by_cases hc : isPrintable c = true
  · rw [token, if_pos hc]
    exact decodeQpImpl_plain (isPrintable_ne hc).1 s
  · have hbyte := c.toNat_lt
    have hhi : c.toNat / 16 < 16 := by omega
    have hlo : c.toNat % 16 < 16 := by omega
    have hvalue : UInt8.ofNat (c.toNat / 16 * 16 + c.toNat % 16) = c := by
      rw [Nat.div_add_mod']
      exact UInt8.ofNat_toNat
    obtain ⟨hlf, hcr, -⟩ := hexDigit_plain hhi
    rw [token, if_neg hc]
    show decodeQpImpl false (ch '=' :: hexDigit (c.toNat / 16) :: hexDigit (c.toNat % 16) :: s) = _
    rw [decodeQpImpl, if_pos rfl]
    simp only [if_neg hlf, if_neg fun h : hexDigit (c.toNat / 16) = ch '\r' ∧ _ => hcr h.1,
      hexVal_hexDigit hhi, hexVal_hexDigit hlo, hvalue]

theorem decodeQpImpl_soft :
    decodeQpImpl false (ch '=' :: ch '\r' :: ch '\n' :: s) = decodeQpImpl false s := by
  rw [decodeQpImpl, if_pos rfl]
  simp [show ch '\r' ≠ ch '\n' from by decide]

theorem decode_encodeFrom : ∀ n, decodeQpImpl false (encodeFrom n s) = normalize s := by
  induction s with
  | nil => exact fun n => rfl
  | cons c s ih =>
    intro n
    rw [encodeFrom]
    by_cases hlf : c = ch '\n'
    · rw [if_pos hlf, decodeQpImpl_plain (by decide), decodeQpImpl_plain (by decide), ih]
      simp [normalize, hlf, show ch '\n' ≠ ch '\r' from by decide]
    · rw [if_neg hlf]
      by_cases hcr : c = ch '\r'
      · rw [if_pos hcr, ih]
        simp [normalize, hcr]
      · have hcons : normalize (c :: s) = c :: normalize s := by simp [normalize, hlf, hcr]
        rw [if_neg hcr, hcons]
        by_cases hlen : n + (token c).length > 75
        · rw [if_pos hlen, decodeQpImpl_soft, decodeQpImpl_token, ih]
        · rw [if_neg hlen, decodeQpImpl_token, ih]

/-! ## The lines of the encoding -/

/-- The lines of an encoded text, between its CRLFs. -/
def crlfLines : Bytes → List Bytes
  | [] => [[]]
  | [c] => [[c]]
  | c :: d :: s =>
    if c = ch '\r' ∧ d = ch '\n' then [] :: crlfLines s
    else (c :: (crlfLines (d :: s)).headD []) :: (crlfLines (d :: s)).tail

/-- The lines of the text, which may end in LF or in CRLF. -/
def textLines (s : Bytes) : List Bytes := splitOn (ch '\n') (s.filter (· ≠ ch '\r'))

/-- The line ends in white space. -/
def EndsBlank (line : Bytes) : Prop :=
  line.getLast? = some (ch ' ') ∨ line.getLast? = some (ch '\t')

instance (line : Bytes) : Decidable (EndsBlank line) := inferInstanceAs (Decidable (_ ∨ _))

/-- Printable ASCII, space and tab. -/
def isLegal (c : Byte) : Bool := (33 ≤ c && c ≤ 126) || c == ch ' ' || c == ch '\t'

/-- A line as RFC 2045 wants it. -/
structure LegalLine (line : Bytes) : Prop where
  short : line.length ≤ 76
  legal : ∀ c ∈ line, isLegal c = true
  noBlank : ¬EndsBlank line

theorem crlfLines_break : crlfLines (ch '\r' :: ch '\n' :: s) = [] :: crlfLines s := by
  rw [crlfLines, if_pos ⟨rfl, rfl⟩]

theorem crlfLines_cons {c : Byte} (hc : c ≠ ch '\r') {s line : Bytes} {lines : List Bytes}
    (h : crlfLines s = line :: lines) : crlfLines (c :: s) = (c :: line) :: lines := by
  cases s with
  | nil =>
    obtain ⟨rfl, rfl⟩ := List.cons.inj (show [] :: [] = line :: lines from h)
    rfl
  | cons d s =>
    rw [crlfLines, if_neg fun hcr => hc hcr.1, h]
    rfl

theorem crlfLines_append {x : Bytes} (hx : ch '\r' ∉ x) {s line : Bytes} {lines : List Bytes}
    (h : crlfLines s = line :: lines) : crlfLines (x ++ s) = (x ++ line) :: lines := by
  induction x with
  | nil => exact h
  | cons c x ih =>
    rw [List.mem_cons, not_or] at hx
    exact crlfLines_cons (Ne.symm hx.1) (ih hx.2)

theorem crlfLines_ne_nil : ∀ s, ∃ line lines, crlfLines s = line :: lines
  | [] => ⟨_, _, rfl⟩
  | [_] => ⟨_, _, rfl⟩
  | c :: d :: s => by
    rw [crlfLines]
    split
    · exact ⟨_, _, rfl⟩
    · exact ⟨_, _, rfl⟩

/-- The CRLFs between the lines put the text together again. -/
theorem intercalate_crlfLines : [ch '\r', ch '\n'].intercalate (crlfLines s) = s := by
  induction s using crlfLines.induct with
  | case1 => rfl
  | case2 c => simp [crlfLines]
  | case3 c d s h ih =>
    obtain ⟨rfl, rfl⟩ := h
    obtain ⟨line, lines, hlines⟩ := crlfLines_ne_nil s
    rw [hlines] at ih
    rw [crlfLines_break, hlines, List.intercalate_cons_cons, ih]
    rfl
  | case4 c d s h ih =>
    obtain ⟨line, lines, hlines⟩ := crlfLines_ne_nil (d :: s)
    rw [crlfLines, if_neg h]
    rw [hlines] at ih ⊢
    cases lines with
    | nil => simpa using ih
    | cons next lines =>
      rw [List.headD_cons, List.tail_cons, List.intercalate_cons_cons]
      rw [List.intercalate_cons_cons] at ih
      rw [← ih]
      rfl

theorem token_spec : ch '\r' ∉ token c ∧ (∀ d ∈ token c, isLegal d = true) ∧
    0 < (token c).length ∧ (token c).length ≤ 3 := by
  have hall : ∀ c, ch '\r' ∉ token c ∧ (token c).all isLegal = true ∧
      0 < (token c).length ∧ (token c).length ≤ 3 := forall_byte (by decide +kernel)
  obtain ⟨hcr, hlegal, hlen⟩ := hall c
  exact ⟨hcr, List.all_eq_true.mp hlegal, hlen⟩

/-- A byte written at the end of a line is white space there only if it is white space. -/
theorem endsBlank_token : EndsBlank (token c) ↔ EndsBlank [c] := by
  have hall : ∀ c, (EndsBlank (token c) ↔ EndsBlank [c]) := forall_byte (by decide +kernel)
  exact hall c

theorem endsBlank_append {x y : Bytes} (hy : y ≠ []) : EndsBlank (x ++ y) ↔ EndsBlank y := by
  rw [EndsBlank, EndsBlank, List.getLast?_append_of_ne_nil x hy]

/-- `lineLen` octets into a line, the rest of it fits and so do the lines after it, and the
octets are legal. -/
theorem encodeFrom_legal : ∀ n ≤ 75, ∃ line lines,
    crlfLines (encodeFrom n s) = line :: lines ∧ n + line.length ≤ 76 ∧
      (∀ l ∈ lines, l.length ≤ 76) ∧ ∀ l ∈ line :: lines, ∀ c ∈ l, isLegal c = true := by
  induction s with
  | nil =>
    intro n hn
    exact ⟨[], [], rfl, by simpa using Nat.le_succ_of_le hn, by simp, by simp⟩
  | cons c s ih =>
    intro n hn
    obtain ⟨hcr', hlegal, hpos, hle⟩ := token_spec c
    rw [encodeFrom]
    by_cases hlf : c = ch '\n'
    · obtain ⟨line, lines, hlines, hlen, hlens, hall⟩ := ih 0 (by omega)
      rw [if_pos hlf, crlfLines_break, hlines]
      refine ⟨[], line :: lines, rfl, by simpa using Nat.le_succ_of_le hn, ?_, ?_⟩
      · intro l hl
        cases List.mem_cons.mp hl with
        | inl heq => rw [heq]; omega
        | inr hmem => exact hlens l hmem
      · intro l hl
        cases List.mem_cons.mp hl with
        | inl heq => rw [heq]; simp
        | inr hmem => exact hall l hmem
    · rw [if_neg hlf]
      by_cases hcr : c = ch '\r'
      · rw [if_pos hcr]
        exact ih n hn
      · rw [if_neg hcr]
        by_cases hlong : n + (token c).length > 75
        · -- a soft break ends the line before the byte
          obtain ⟨line, lines, hlines, hlen, hlens, hall⟩ := ih (token c).length (by omega)
          rw [if_pos hlong, crlfLines_cons (by decide) (crlfLines_break _),
            crlfLines_append hcr' hlines]
          refine ⟨[ch '='], (token c ++ line) :: lines, rfl, by simp; omega, ?_, ?_⟩
          · intro l hl
            cases List.mem_cons.mp hl with
            | inl heq => rw [heq, List.length_append]; omega
            | inr hmem => exact hlens l hmem
          · intro l hl d hd
            simp only [List.mem_cons] at hl
            obtain rfl | rfl | hmem := hl
            · rw [List.mem_singleton.mp hd]
              decide
            · cases List.mem_append.mp hd with
              | inl hd => exact hlegal d hd
              | inr hd => exact hall line List.mem_cons_self d hd
            · exact hall l (List.mem_cons_of_mem _ hmem) d hd
        · obtain ⟨line, lines, hlines, hlen, hlens, hall⟩ := ih (n + (token c).length) (by omega)
          rw [if_neg hlong, crlfLines_append hcr' hlines]
          refine ⟨token c ++ line, lines, rfl, by rw [List.length_append]; omega, hlens, ?_⟩
          intro l hl d hd
          cases List.mem_cons.mp hl with
          | inl heq =>
            rw [heq] at hd
            cases List.mem_append.mp hd with
            | inl hd => exact hlegal d hd
            | inr hd => exact hall line List.mem_cons_self d hd
          | inr hmem => exact hall l (List.mem_cons_of_mem _ hmem) d hd

/-- The line of the text that is being written is empty with the line of the encoding, and
white space stands at the ends of both or of neither. -/
theorem encodeFrom_ends : ∀ n, ∃ line lines text texts,
    crlfLines (encodeFrom n s) = line :: lines ∧ textLines s = text :: texts ∧
      (line = [] ↔ text = []) ∧
      ((∀ l ∈ line :: lines, ¬EndsBlank l) ↔ ∀ t ∈ text :: texts, ¬EndsBlank t) := by
  induction s with
  | nil => exact fun n => ⟨[], [], [], [], rfl, rfl, Iff.rfl, Iff.rfl⟩
  | cons c s ih =>
    intro n
    rw [encodeFrom]
    by_cases hlf : c = ch '\n'
    · obtain ⟨line, lines, text, texts, hlines, htexts, -, hends⟩ := ih 0
      have htext : textLines (c :: s) = [] :: text :: texts := by
        rw [← htexts, hlf]
        rfl
      rw [if_pos hlf, crlfLines_break, hlines]
      refine ⟨[], line :: lines, [], text :: texts, rfl, htext, Iff.rfl, ?_⟩
      have hsplit (p : Bytes) (ps : List Bytes) : (∀ l ∈ p :: ps, ¬EndsBlank l) ↔
          ¬EndsBlank p ∧ ∀ l ∈ ps, ¬EndsBlank l := List.forall_mem_cons
      rw [hsplit, hsplit [] (text :: texts), hends]
    · rw [if_neg hlf]
      by_cases hcr : c = ch '\r'
      · have htext : textLines (c :: s) = textLines s := by rw [hcr]; rfl
        rw [if_pos hcr, htext]
        exact ih n
      · have hstep (line : Bytes) (lines : List Bytes) (text : Bytes) (texts : List Bytes)
            (hempty : line = [] ↔ text = [])
            (hends : (∀ l ∈ line :: lines, ¬EndsBlank l) ↔ ∀ t ∈ text :: texts, ¬EndsBlank t) :
            (∀ l ∈ (token c ++ line) :: lines, ¬EndsBlank l) ↔
              ∀ t ∈ (c :: text) :: texts, ¬EndsBlank t := by
          have hnil : ¬EndsBlank [] := by simp [EndsBlank]
          rw [List.forall_mem_cons, List.forall_mem_cons] at hends ⊢
          by_cases htext : text = []
          · have hline := hempty.mpr htext
            subst htext hline
            rw [List.append_nil, endsBlank_token c]
            simp only [hnil, not_false_eq_true, true_and] at hends
            rw [hends]
          · have hline : line ≠ [] := fun h => htext (hempty.mp h)
            rw [endsBlank_append hline, ← List.singleton_append, endsBlank_append htext]
            exact hends
        have htextLines (text : Bytes) (texts : List Bytes) (h : textLines s = text :: texts) :
            textLines (c :: s) = (c :: text) :: texts := by
          rw [textLines, List.filter_cons_of_pos (by simpa using hcr), splitOn, if_neg hlf]
          rw [textLines] at h
          rw [h]
        obtain ⟨hcr', -⟩ := token_spec c
        rw [if_neg hcr]
        by_cases hlong : n + (token c).length > 75
        · obtain ⟨line, lines, text, texts, hlines, htexts, hempty, hends⟩ := ih (token c).length
          rw [if_pos hlong, crlfLines_cons (by decide) (crlfLines_break _),
            crlfLines_append hcr' hlines]
          refine ⟨_, _, _, _, rfl, htextLines _ _ htexts, by simp, ?_⟩
          rw [List.forall_mem_cons, hstep line lines text texts hempty hends]
          have hsoft : ¬EndsBlank [ch '='] := by decide
          simp [hsoft]
        · obtain ⟨line, lines, text, texts, hlines, htexts, hempty, hends⟩ :=
            ih (n + (token c).length)
          rw [if_neg hlong, crlfLines_append hcr' hlines]
          refine ⟨_, _, _, _, rfl, htextLines _ _ htexts, ?_, hstep _ _ _ _ hempty hends⟩
          simp [List.ne_nil_of_length_pos (token_spec c).2.2.1]

/-! ## Legal and reversible -/

/-- A relay that takes the white space off the ends of the lines. -/
def relayed (s : Bytes) : Bytes :=
  [ch '\r', ch '\n'].intercalate
    ((crlfLines s).map fun line => line.rdropWhile fun c => c == ch ' ' || c == ch '\t')

theorem relayed_eq {s : Bytes} (h : ∀ line ∈ crlfLines s, ¬EndsBlank line) : relayed s = s := by
  have hline : ∀ line ∈ crlfLines s,
      line.rdropWhile (fun c => c == ch ' ' || c == ch '\t') = line := by
    intro line hmem
    rw [List.rdropWhile_eq_self_iff]
    intro hne hblank
    apply h line hmem
    rw [EndsBlank, List.getLast?_eq_some_getLast hne]
    simpa using hblank
  rw [relayed, List.map_congr_left hline, List.map_id', intercalate_crlfLines]

/-- The text comes back, and the lines are legal and survive a relay, exactly where no line of
the text ends in white space. -/
theorem quoted_printable_legal (s : Bytes) :
    (decodeQuotedPrintable (encodeQuotedPrintable s) = normalize s ∧
      (∀ line ∈ crlfLines (encodeQuotedPrintable s), LegalLine line) ∧
      decodeQuotedPrintable (relayed (encodeQuotedPrintable s)) = normalize s) ↔
    ∀ line ∈ textLines s, ¬EndsBlank line := by
  obtain ⟨line, lines, text, texts, hlines, htexts, -, hends⟩ := encodeFrom_ends s 0
  obtain ⟨line', lines', hlines', hlen, hlens, hlegal⟩ := encodeFrom_legal s 0 (by omega)
  rw [encodeQuotedPrintable, htexts, ← hends, ← hlines]
  constructor
  · exact fun h l hl => (h.2.1 l hl).noBlank
  · intro h
    have hdecode : decodeQuotedPrintable (encodeFrom 0 s) = normalize s := decode_encodeFrom s 0
    refine ⟨hdecode, fun l hl => ⟨?_, hlegal l (hlines' ▸ hl), h l hl⟩, ?_⟩
    · rw [hlines'] at hl
      cases List.mem_cons.mp hl with
      | inl heq => rw [heq]; omega
      | inr hmem => exact hlens l hmem
    · rw [relayed_eq h, hdecode]

/-- White space at the end of a line is written as it is. -/
theorem quoted_printable_blank :
    ¬∀ line ∈ crlfLines (encodeQuotedPrintable (bytes "a \nb")), LegalLine line := by
  intro h
  exact (h (bytes "a ") (by decide +kernel)).noBlank (by decide)

end QuackMail.Mime
