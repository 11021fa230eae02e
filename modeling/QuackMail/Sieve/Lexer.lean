import QuackMail.Bytes

/-! # The lexer of Sieve scripts

`Lexer` of `sieve.cpp`.  The position is what is left of the script.  `END` is the end of
the token list; only its line is kept.
-/

namespace QuackMail.Sieve

/-! ## Tokens -/

inductive Tok where
  | identifier (name : Bytes)
  | tag (name : Bytes)
  | number (v : Int)
  | string (value : Bytes)
  | lbracket
  | rbracket
  | lparen
  | rparen
  | lbrace
  | rbrace
  | comma
  | semicolon
  deriving DecidableEq

structure Token where
  tok : Tok
  line : Nat

/-- `long long` arithmetic, with the wrap of the machine. -/
def longLong (v : Int) : Int := v.bmod 18446744073709551616

/-! ## White space and comments -/

mutual

/-- `SkipWhitespaceAndComments`. -/
def skipGap : Bytes → Nat → Bytes × Nat
  | [], line => ([], line)
  | c :: s, line =>
    if c = ch '\n' then skipGap s (line + 1)
    else if isSpace c then skipGap s line
    else if c = ch '#' then skipComment s line
    else
      match s with
      | [] => ([c], line)
      | d :: s' =>
        if c = ch '/' ∧ d = ch '*' then skipBlock s' line else (c :: d :: s', line)

/-- A `#` comment runs to the end of its line. -/
def skipComment : Bytes → Nat → Bytes × Nat
  | [], line => ([], line)
  | c :: s, line => if c = ch '\n' then skipGap s (line + 1) else skipComment s line

/-- A bracketed comment; one that is never closed runs to the end of the script. -/
def skipBlock : Bytes → Nat → Bytes × Nat
  | [], line => ([], line)
  | c :: s, line =>
    match s with
    | [] => ([], line)
    | d :: s' =>
      if c = ch '*' ∧ d = ch '/' then skipGap s' line
      else skipBlock (d :: s') (if c = ch '\n' then line + 1 else line)

end

/-! ## Strings -/

/-- `ReadQuotedString` after the opening quote. -/
def readQuotedString : Bytes → Nat → Option (Bytes × Bytes × Nat)
  | [], _ => none
  | c :: s, line =>
    if c = ch '"' then some ([], s, line)
    else if c = ch '\\' then
      match s with
      | [] => none
      | d :: s' =>
        (readQuotedString s' (if d = ch '\n' then line + 1 else line)).map
          fun r => (d :: r.1, r.2)
    else
      (readQuotedString s (if c = ch '\n' then line + 1 else line)).map fun r => (c :: r.1, r.2)

/-- A line without its `\r`. -/
def popReturn (line : Bytes) : Bytes :=
  if line.getLast? = some (ch '\r') then line.dropLast else line

/-- Dot-stuffing, as in SMTP. -/
def unstuff : Bytes → Bytes
  | c :: d :: s => if c = ch '.' ∧ d = ch '.' then d :: s else c :: d :: s
  | s => s

/-- The lines of `ReadMultiline`, of which `raw` has been read. -/
def readLines (raw : Bytes) : Bytes → Nat → Option (Bytes × Bytes × Nat)
  | [], line => if popReturn raw = bytes "." then some ([], [], line + 1) else none
  | c :: s, line =>
    if c = ch '\n' then
      if popReturn raw = bytes "." then some ([], s, line + 1)
      else
        (readLines [] s (line + 1)).map
          fun r => (unstuff (popReturn raw) ++ bytes "\r\n" ++ r.1, r.2)
    else readLines (raw ++ [c]) s line

/-- `ReadMultiline` after the colon. -/
def readMultiline (s : Bytes) (line : Nat) : Option (Bytes × Bytes × Nat) :=
  match s.dropWhile (· ≠ ch '\n') with
  | [] => none
  | _ :: rest => readLines [] rest (line + 1)

/-! ## Numbers and names -/

/-- A byte of a tag's name. -/
def tagByte (c : Byte) : Bool := isAlnum c || c == ch '_' || c == ch '.' || c == ch '-'

/-- A byte of an identifier. -/
def wordByte (c : Byte) : Bool := isAlnum c || c == ch '_'

/-- What a suffix scales a number by. -/
def suffixScale (c : Byte) : Option Int :=
  if toLower c = ch 'k' then some 1024
  else if toLower c = ch 'm' then some (1024 * 1024)
  else if toLower c = ch 'g' then some (1024 * 1024 * 1024)
  else none

/-- The digits of a number. -/
def digitsValue (digits : Bytes) : Int :=
  digits.foldl (fun v c => longLong (v * 10 + ((c.toNat : Int) - 48))) 0

/-- A number with the suffix that scales it. -/
def readNumber (s : Bytes) : Int × Bytes :=
  let v := digitsValue (s.takeWhile isDigit)
  match s.dropWhile isDigit with
  | [] => (v, [])
  | c :: rest =>
    match suffixScale c with
    | some k => (longLong (v * k), rest)
    | none => (v, c :: rest)

/-! ## The lexer -/

def onLine (line : Nat) : Bytes := bytes " on line " ++ num line

def punct (c : Byte) : Option Tok :=
  if c = ch '[' then some .lbracket
  else if c = ch ']' then some .rbracket
  else if c = ch '(' then some .lparen
  else if c = ch ')' then some .rparen
  else if c = ch '\x7b' then some .lbrace
  else if c = ch '\x7d' then some .rbrace
  else if c = ch ',' then some .comma
  else if c = ch ';' then some .semicolon
  else none

/-- A name, or the `text:` that begins a multi-line literal. -/
def readName (s : Bytes) (line : Nat) : Except Bytes (Tok × Bytes × Nat) :=
  let name := lower (s.takeWhile wordByte)
  match s.dropWhile wordByte with
  | [] => .ok (.identifier name, [], line)
  | c :: rest =>
    if name = bytes "text" ∧ c = ch ':' then
      match readMultiline rest line with
      | some (value, rest', line') => .ok (.string value, rest', line')
      | none => .error (bytes "unterminated 'text:' block")
    else .ok (.identifier name, c :: rest, line)

/-- The token that begins with the byte `c`. -/
def readToken (c : Byte) (s : Bytes) (line : Nat) : Except Bytes (Tok × Bytes × Nat) :=
  match punct c with
  | some t => .ok (t, s, line)
  | none =>
    if c = ch '"' then
      match readQuotedString s line with
      | some (value, rest, line') => .ok (.string value, rest, line')
      | none => .error (bytes "unterminated string starting" ++ onLine line)
    else if c = ch ':' then
      if s.takeWhile tagByte = [] then .error (bytes "stray ':'" ++ onLine line)
      else .ok (.tag (lower (s.takeWhile tagByte)), s.dropWhile tagByte, line)
    else if isDigit c then .ok (.number (readNumber (c :: s)).1, (readNumber (c :: s)).2, line)
    else if isAlpha c || c == ch '_' then readName (c :: s) line
    else .error (bytes "unexpected character '" ++ c :: bytes "'" ++ onLine line)

/-! ### Every token is a step forward -/

mutual

theorem length_skipGap : ∀ (s : Bytes) (line : Nat), (skipGap s line).1.length ≤ s.length
  | [], _ => by simp [skipGap]
  | c :: s, line => by
    have hgap := length_skipGap s
    have hcomment := length_skipComment s line
    rw [skipGap.eq_def]
    simp only
    split_ifs
    · exact Nat.le_succ_of_le (hgap (line + 1))
    · exact Nat.le_succ_of_le (hgap line)
    · exact Nat.le_succ_of_le hcomment
    · cases s with
      | nil => simp
      | cons d s' =>
        have hblock := length_skipBlock s' line
        simp only
        split_ifs
        · simp only [List.length_cons]
          omega
        · simp

theorem length_skipComment : ∀ (s : Bytes) (line : Nat), (skipComment s line).1.length ≤ s.length
  | [], _ => by simp [skipComment]
  | c :: s, line => by
    have hgap := length_skipGap s (line + 1)
    have hcomment := length_skipComment s line
    rw [skipComment]
    split_ifs
    · exact Nat.le_succ_of_le hgap
    · exact Nat.le_succ_of_le hcomment

theorem length_skipBlock : ∀ (s : Bytes) (line : Nat), (skipBlock s line).1.length ≤ s.length
  | [], _ => by simp [skipBlock]
  | [c], line => by simp [skipBlock]
  | c :: d :: s', line => by
    have hgap := length_skipGap s' line
    have hblock := length_skipBlock (d :: s')
    rw [skipBlock]
    split_ifs
    · simp only [List.length_cons]
      omega
    · exact Nat.le_succ_of_le (hblock (line + 1))
    · exact Nat.le_succ_of_le (hblock line)

end

theorem length_readQuotedString {s value rest : Bytes} {line line' : Nat}
    (h : readQuotedString s line = some (value, rest, line')) : rest.length < s.length := by
  induction s, line using readQuotedString.induct generalizing value with
  | case1 => simp [readQuotedString] at h
  | case2 line s =>
    rw [readQuotedString.eq_def] at h
    simp only [if_true, Option.some.injEq, Prod.mk.injEq] at h
    rw [← h.2.1]
    simp
  | case3 line hq =>
    rw [readQuotedString.eq_def] at h
    simp [hq] at h
  | case4 line d s' hq ih =>
    rw [readQuotedString.eq_def] at h
    obtain ⟨⟨v, r⟩, hr, hv⟩ := Option.map_eq_some_iff.mp h
    simp only [Prod.mk.injEq] at hv
    rw [hv.2] at hr
    have := ih hr
    simp only [List.length_cons]
    omega
  | case5 line c s hq hc ih =>
    rw [readQuotedString.eq_def] at h
    simp only [if_neg hq, if_neg hc] at h
    obtain ⟨⟨v, r⟩, hr, hv⟩ := Option.map_eq_some_iff.mp h
    simp only [Prod.mk.injEq] at hv
    rw [hv.2] at hr
    have := ih hr
    simp only [List.length_cons]
    omega

theorem length_readLines {raw s value rest : Bytes} {line line' : Nat}
    (h : readLines raw s line = some (value, rest, line')) : rest.length ≤ s.length := by
  induction s generalizing raw value line with
  | nil =>
    rw [readLines] at h
    split_ifs at h
    simp only [Option.some.injEq, Prod.mk.injEq] at h
    rw [← h.2.1]
  | cons c s ih =>
    rw [readLines] at h
    split_ifs at h
    · simp only [Option.some.injEq, Prod.mk.injEq] at h
      rw [← h.2.1]
      simp
    · obtain ⟨⟨v, r⟩, hr, hv⟩ := Option.map_eq_some_iff.mp h
      simp only [Prod.mk.injEq] at hv
      rw [hv.2] at hr
      exact Nat.le_succ_of_le (ih hr)
    · exact Nat.le_succ_of_le (ih h)

theorem length_readMultiline {s value rest : Bytes} {line line' : Nat}
    (h : readMultiline s line = some (value, rest, line')) : rest.length ≤ s.length := by
  have hlen := (List.dropWhile_suffix (l := s) (· ≠ ch '\n')).length_le
  rw [readMultiline] at h
  split at h
  · simp at h
  · next d rest' hdrop =>
    rw [hdrop, List.length_cons] at hlen
    have := length_readLines h
    omega

theorem length_readNumber (s : Bytes) : (readNumber s).2.length ≤ (s.dropWhile isDigit).length := by
  rw [readNumber]
  split
  · next hdrop => simp
  · next c rest hdrop =>
    rw [hdrop]
    split <;> simp

theorem length_readName {s rest : Bytes} {t : Tok} {line line' : Nat}
    (h : readName s line = .ok (t, rest, line')) :
    rest.length ≤ (s.dropWhile wordByte).length := by
  rw [readName] at h
  split at h
  · next hdrop =>
    simp only [Except.ok.injEq, Prod.mk.injEq] at h
    rw [← h.2.1]
    simp
  · next c after hdrop =>
    rw [hdrop]
    split at h
    · split at h
      · next hread =>
        simp only [Except.ok.injEq, Prod.mk.injEq] at h
        have := length_readMultiline hread
        rw [← h.2.1, List.length_cons]
        omega
      · simp at h
    · simp only [Except.ok.injEq, Prod.mk.injEq] at h
      rw [← h.2.1]

theorem length_readToken {c : Byte} {s rest : Bytes} {t : Tok} {line line' : Nat}
    (h : readToken c s line = .ok (t, rest, line')) : rest.length ≤ s.length := by
  rw [readToken] at h
  split at h
  · simp only [Except.ok.injEq, Prod.mk.injEq] at h
    rw [← h.2.1]
  · split_ifs at h with hquote hcolon hempty hdigit hname
    · split at h
      · next hread =>
        simp only [Except.ok.injEq, Prod.mk.injEq] at h
        rw [← h.2.1]
        exact Nat.le_of_lt (length_readQuotedString hread)
      · simp at h
    · simp only [Except.ok.injEq, Prod.mk.injEq] at h
      rw [← h.2.1]
      exact (List.dropWhile_suffix _).length_le
    · simp only [Except.ok.injEq, Prod.mk.injEq] at h
      rw [← h.2.1]
      refine (length_readNumber (c :: s)).trans ?_
      rw [List.dropWhile_cons_of_pos hdigit]
      exact (List.dropWhile_suffix _).length_le
    · refine (length_readName h).trans ?_
      have hword : wordByte c = true := by
        simp only [Bool.or_eq_true] at hname
        simp only [wordByte, isAlnum, Bool.or_eq_true]
        exact hname.imp_left .inl
      rw [List.dropWhile_cons_of_pos hword]
      exact (List.dropWhile_suffix _).length_le

/-- `Lexer::Run` from a position on: the tokens, and the line of `END`. -/
def lex (s : Bytes) (line : Nat) : Except Bytes (List Token × Nat) :=
  match _hskip : skipGap s line with
  | ([], line') => .ok ([], line')
  | (c :: rest, line') =>
    match _hread : readToken c rest line' with
    | .error err => .error err
    | .ok (t, rest', line'') =>
      (lex rest' line'').map fun r => (⟨t, line'⟩ :: r.1, r.2)
termination_by s.length
decreasing_by
  have hgap := length_skipGap s line
  rw [_hskip, List.length_cons] at hgap
  have := length_readToken _hread
  omega

end QuackMail.Sieve
