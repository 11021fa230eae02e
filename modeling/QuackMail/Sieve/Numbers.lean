import Mathlib.Algebra.Ring.Nat
import QuackMail.Sieve.Evaluate
import QuackMail.Sieve.Parser

/-! # The numbers of Sieve scripts

A number is read by `v * 10 + digit` and one multiplication, both in `long long` and without
a check.  Since the wrap is a ring homomorphism, what the lexer yields is the wrap of the number
that the author wrote: it is that number exactly up to `2^63 - 1`, and never above.
-/

namespace QuackMail.Sieve

theorem map_eq_ok {ε α β : Type} {x : Except ε α} {f : α → β} {b : β} :
    x.map f = .ok b ↔ ∃ a, x = .ok a ∧ f a = b := by
  cases x with
  | error e => simp [Except.map]
  | ok a => simp [Except.map]

/-! ## What an author writes -/

/-- The letters of a suffix. -/
def suffixLetters : Bytes := bytes "KMGkmg"

/-- Digits, and a suffix or none. -/
structure Numeral where
  digits : Bytes
  suffix : Option Byte
  digits_ne : digits ≠ []
  digits_all : ∀ c ∈ digits, isDigit c = true
  suffix_mem : ∀ c ∈ suffix, c ∈ suffixLetters

namespace Numeral

def text (n : Numeral) : Bytes := n.digits ++ n.suffix.toList

/-- What the suffix multiplies by. -/
def scale (n : Numeral) : Nat :=
  match n.suffix with
  | none => 1
  | some c => if toLower c = ch 'k' then 2 ^ 10 else if toLower c = ch 'm' then 2 ^ 20 else 2 ^ 30

/-- The number that the author means. -/
def value (n : Numeral) : Nat := digitsFrom 0 n.digits * n.scale

/-- The text after a number without a suffix does not go on with it. -/
def Ends (n : Numeral) (rest : Bytes) : Prop :=
  n.suffix = none → ∀ c ∈ rest.head?, isDigit c = false ∧ suffixScale c = none

/-- The number is read exactly or refused, and the limit of `:over` and the days of a
    `vacation` are the ones written. -/
structure ReadExactly (n : Numeral) : Prop where
  token : ∀ {rest line toks eof}, n.Ends rest → lex (n.text ++ rest) line = .ok (toks, eof) →
    n.value < 9223372036854775808 ∧ toks.head? = some ⟨.number n.value, line⟩
  limit : ∀ {rest line toks eof t left}, n.Ends rest →
    lex (bytes ":over " ++ (n.text ++ rest)) line = .ok (toks, eof) →
    parseSize eof toks = .ok (t, left) →
    ∀ parseAddressList m flags vars,
      evalTest parseAddressList m flags t vars = (decide (n.value < m.raw.length), vars)
  days : ∀ {rest line toks eof args args' left}, n.Ends rest →
    lex (bytes ":days " ++ (n.text ++ rest)) line = .ok (toks, eof) →
    parseTag eof args (bytes "days") toks.tail = .ok (args', left) →
    args'.vacDays = n.value ∧
      vacationDays args'.vacDays = Int32.ofInt (if n.value = 0 then 7 else min n.value 365)

end Numeral

/-! ## The wrap of the machine -/

theorem longLong_of_lt {v : Nat} (h : v < 9223372036854775808) : longLong v = v := by
  apply Int.bmod_eq_of_le
  · omega
  · omega

/-- Wrapping early changes nothing. -/
theorem longLong_mul (a b : Int) : longLong (longLong a * b) = longLong (a * b) :=
  Int.bmod_mul_bmod

theorem longLong_step (a d : Int) : longLong (longLong a * 10 + d) = longLong (a * 10 + d) := by
  rw [longLong, longLong, longLong, ← Int.bmod_add_bmod, Int.bmod_mul_bmod, Int.bmod_add_bmod]

theorem digit_toNat {c : Byte} (h : isDigit c = true) :
    (c.toNat : Int) - 48 = (c.toNat - 48 : Nat) := by
  have : 48 ≤ c.toNat := by
    simp only [isDigit, Bool.and_eq_true, decide_eq_true_eq] at h
    exact h.1
  omega

/-- The digits yield the wrap of their value. -/
theorem foldl_digits {digits : Bytes} (h : ∀ c ∈ digits, isDigit c = true) (v : Nat) :
    digits.foldl (fun v c => longLong (v * 10 + ((c.toNat : Int) - 48))) (longLong v) =
      longLong (digitsFrom v digits : Nat) := by
  induction digits generalizing v with
  | nil => rw [List.foldl_nil, digitsFrom]
  | cons c s ih =>
    have hc : isDigit c = true := h c (by simp)
    rw [List.foldl_cons, longLong_step, digit_toNat hc, digitsFrom, if_pos hc,
      ← ih (fun d hd => h d (List.mem_cons_of_mem _ hd))]
    norm_cast

theorem digitsValue_eq {digits : Bytes} (h : ∀ c ∈ digits, isDigit c = true) :
    digitsValue digits = longLong (digitsFrom 0 digits : Nat) := by
  have hzero : longLong (0 : Nat) = 0 := longLong_of_lt (by decide)
  rw [digitsValue, ← foldl_digits h 0, hzero]

/-- The scale of each letter. -/
theorem suffixScale_letters : ∀ c ∈ suffixLetters, isDigit c = false ∧
    suffixScale c = some (if toLower c = ch 'k' then 2 ^ 10
      else if toLower c = ch 'm' then 2 ^ 20 else 2 ^ 30) := by
  decide +kernel

/-! ## Tokens that begin with a digit or a colon -/

theorem lex_eq {s s' rest : Bytes} {c : Byte} {line line' line'' : Nat} {t : Tok}
    (hgap : skipGap s line = (c :: s', line'))
    (hread : readToken c s' line' = .ok (t, rest, line'')) :
    lex s line = (lex rest line'').map fun r => (⟨t, line'⟩ :: r.1, r.2) := by
  rw [lex]
  split
  · next heq =>
    rw [hgap] at heq
    simp at heq
  · next heq =>
    rw [hgap] at heq
    obtain ⟨⟨rfl, rfl⟩, rfl⟩ := heq
    split
    · next heq' =>
      rw [hread] at heq'
      simp at heq'
    · next heq' =>
      rw [hread] at heq'
      obtain ⟨rfl, rfl, rfl⟩ := heq'
      rfl

theorem lex_nil (line : Nat) : lex [] line = .ok ([], line) := by
  rw [lex]
  split
  · next heq =>
    rw [skipGap.eq_def] at heq
    simp only [Prod.mk.injEq, true_and] at heq
    rw [heq]
  · next heq =>
    rw [skipGap.eq_def] at heq
    simp at heq

theorem skipGap_digit {c : Byte} (hc : isDigit c = true) (s : Bytes) (line : Nat) :
    skipGap (c :: s) line = (c :: s, line) := by
  have hne : ∀ c : Byte, isDigit c = true →
      c ≠ ch '\n' ∧ isSpace c = false ∧ c ≠ ch '#' ∧ c ≠ ch '/' :=
    forall_byte (by decide +kernel)
  obtain ⟨h₁, h₂, h₃, h₄⟩ := hne c hc
  rw [skipGap.eq_def]
  cases s <;> simp [h₁, h₂, h₃, h₄]

theorem readToken_digit {c : Byte} (hc : isDigit c = true) (s : Bytes) (line : Nat) :
    readToken c s line = .ok (.number (readNumber (c :: s)).1, (readNumber (c :: s)).2, line) := by
  have hne : ∀ c : Byte, isDigit c = true → punct c = none ∧ c ≠ ch '"' ∧ c ≠ ch ':' :=
    forall_byte (by decide +kernel)
  obtain ⟨h₁, h₂, h₃⟩ := hne c hc
  simp [readToken, h₁, h₂, h₃, hc]

namespace Numeral

variable (n : Numeral)

/-- What the lexer reads of a number is the wrap of its value. -/
theorem readNumber_text {rest : Bytes} (hends : n.Ends rest) :
    readNumber (n.text ++ rest) = (longLong n.value, rest) := by
  have htake (s : Bytes) (hs : ∀ c ∈ s.head?, isDigit c = false) :
      (n.digits ++ s).takeWhile isDigit = n.digits ∧
        (n.digits ++ s).dropWhile isDigit = s := by
    rw [List.takeWhile_append_of_pos n.digits_all, List.dropWhile_append_of_pos n.digits_all]
    cases s with
    | nil => simp
    | cons c s =>
      have hc : isDigit c = false := hs c rfl
      simp [hc]
  cases hsuffix : n.suffix with
  | none =>
    have hrest := hends hsuffix
    obtain ⟨hdigits, hafter⟩ := htake rest fun c hc => (hrest c hc).1
    have hvalue : longLong n.value = digitsValue n.digits := by
      simp [value, scale, hsuffix, digitsValue_eq n.digits_all]
    rw [text, hsuffix, Option.toList_none, List.append_nil, readNumber, hdigits, hafter, hvalue]
    cases rest with
    | nil => rfl
    | cons c rest => simp [(hrest c rfl).2]
  | some c =>
    obtain ⟨hc, hscale⟩ := suffixScale_letters c (n.suffix_mem c hsuffix)
    obtain ⟨hdigits, hafter⟩ := htake (c :: rest) (by simp [hc])
    have hvalue : longLong n.value = longLong (digitsValue n.digits * n.scale) := by
      rw [digitsValue_eq n.digits_all, longLong_mul, value, Int.natCast_mul]
    have hscale' : suffixScale c = some (n.scale : Int) := by
      rw [hscale, scale, hsuffix]
      push_cast
      rfl
    rw [text, hsuffix, Option.toList_some, List.append_assoc, List.singleton_append, readNumber,
      hdigits, hafter, hvalue]
    simp [hscale']

/-! ## The number in a script -/

theorem skipGap_text (rest : Bytes) (line : Nat) :
    skipGap (n.text ++ rest) line = (n.text ++ rest, line) := by
  obtain ⟨c, s, hdigits⟩ := List.exists_cons_of_ne_nil n.digits_ne
  have hc : isDigit c = true := n.digits_all c (by simp [hdigits])
  rw [text, hdigits, List.cons_append, List.cons_append]
  exact skipGap_digit hc _ line

/-- The token of a number that comes next. -/
theorem lex_number {s rest : Bytes} {line : Nat} (hends : n.Ends rest)
    (hskip : skipGap s line = (n.text ++ rest, line)) :
    lex s line = (lex rest line).map fun r => (⟨.number (longLong n.value), line⟩ :: r.1, r.2) := by
  obtain ⟨c, s', hdigits⟩ := List.exists_cons_of_ne_nil n.digits_ne
  have hc : isDigit c = true := n.digits_all c (by simp [hdigits])
  have htext : n.text ++ rest = c :: (s' ++ n.suffix.toList ++ rest) := by
    simp [text, hdigits]
  have hread := readToken_digit hc (s' ++ n.suffix.toList ++ rest) line
  rw [← htext, n.readNumber_text hends] at hread
  rw [htext] at hskip
  rw [lex_eq hskip hread]

/-- A tag in front of a number, with the space between. -/
theorem lex_tag (tag : Bytes) {rest : Bytes} (hends : n.Ends rest) (line : Nat)
    (htag : tag ∈ [bytes "over", bytes "days"]) :
    lex (ch ':' :: (tag ++ ch ' ' :: (n.text ++ rest))) line =
      (lex rest line).map fun r =>
        (⟨.tag tag, line⟩ :: ⟨.number (longLong n.value), line⟩ :: r.1, r.2) := by
  have hfacts : ∀ tag ∈ [bytes "over", bytes "days"],
      tag ≠ [] ∧ lower tag = tag ∧ ∀ c ∈ tag, tagByte c = true := by
    decide +kernel
  obtain ⟨hne, hlower, hbytes⟩ := hfacts tag htag
  have hspace : tagByte (ch ' ') = false := by decide
  have htake : (tag ++ ch ' ' :: (n.text ++ rest)).takeWhile tagByte = tag := by
    rw [List.takeWhile_append_of_pos hbytes, List.takeWhile_cons_of_neg (by simp [hspace]),
      List.append_nil]
  have hdrop : (tag ++ ch ' ' :: (n.text ++ rest)).dropWhile tagByte =
      ch ' ' :: (n.text ++ rest) := by
    rw [List.dropWhile_append_of_pos hbytes, List.dropWhile_cons_of_neg (by simp [hspace])]
  have hcolon : skipGap (ch ':' :: (tag ++ ch ' ' :: (n.text ++ rest))) line =
      (ch ':' :: (tag ++ ch ' ' :: (n.text ++ rest)), line) := by
    rw [skipGap.eq_def]
    cases tag <;> simp [isSpace, ch]
  have hread : readToken (ch ':') (tag ++ ch ' ' :: (n.text ++ rest)) line =
      .ok (.tag tag, ch ' ' :: (n.text ++ rest), line) := by
    have hpunct : punct (ch ':') = none := by decide
    have hquote : ch ':' ≠ ch '"' := by decide
    rw [readToken, hpunct]
    simp [hquote, htake, hdrop, hne, hlower]
  have hgap : skipGap (ch ' ' :: (n.text ++ rest)) line = (n.text ++ rest, line) := by
    rw [skipGap.eq_def]
    simp [isSpace, ch, n.skipGap_text]
  rw [lex_eq hcolon hread, n.lex_number hends hgap]
  cases lex rest line <;> rfl

/-! ## Exactly when -/

theorem token_exact (hfits : n.value < 9223372036854775808) {rest : Bytes} {line eof : Nat}
    {toks : List Token} (hends : n.Ends rest) (h : lex (n.text ++ rest) line = .ok (toks, eof)) :
    toks.head? = some ⟨.number n.value, line⟩ := by
  rw [n.lex_number hends (n.skipGap_text rest line), longLong_of_lt hfits] at h
  obtain ⟨r, -, hr⟩ := map_eq_ok.mp h
  simp only [Prod.mk.injEq] at hr
  simp [← hr.1]

/-- `size :over N` compares with what was read. -/
theorem parseSize_over {after : List Token} {line eof : Nat} {v : Int} {t : Test}
    {left : List Token}
    (h : parseSize eof (⟨.tag (bytes "over"), line⟩ :: ⟨.number v, line⟩ :: after) =
      .ok (t, left)) :
    ∃ tags : MatchTags, tags.sizeRelation = some .over ∧ t = .size tags v := by
  have htags : parseMatchTags {} (⟨.tag (bytes "over"), line⟩ :: ⟨.number v, line⟩ :: after) =
      (({} : MatchTags).add (bytes "over"), ⟨.number v, line⟩ :: after) := by
    simp [parseMatchTags]
  have hover : (({} : MatchTags).add (bytes "over")).sizeRelation = some .over := by decide
  rw [parseSize, htags] at h
  simp only [hover, reduceCtorEq, if_false, Except.ok.injEq, Prod.mk.injEq] at h
  exact ⟨_, hover, h.1.symm⟩

theorem limit_exact (hfits : n.value < 9223372036854775808) {rest : Bytes} {line eof : Nat}
    {toks left : List Token} {t : Test} (hends : n.Ends rest)
    (h : lex (bytes ":over " ++ (n.text ++ rest)) line = .ok (toks, eof))
    (hparse : parseSize eof toks = .ok (t, left)) (parseAddressList : Bytes → List Bytes)
    (m : Message) (flags : List Bytes) (vars : Variables) :
    evalTest parseAddressList m flags t vars = (decide (n.value < m.raw.length), vars) := by
  have hlex := n.lex_tag (bytes "over") hends line (by simp)
  rw [longLong_of_lt hfits] at hlex
  obtain ⟨r, -, hr⟩ := map_eq_ok.mp (hlex.symm.trans h)
  simp only [Prod.mk.injEq] at hr
  rw [← hr.1] at hparse
  obtain ⟨tags, hover, rfl⟩ := parseSize_over hparse
  simp [evalTest, hover]

/-- The window of a `vacation`, when its days fit. -/
theorem vacationDays_eq (v : Nat) :
    vacationDays v = Int32.ofInt (if v = 0 then 7 else min v 365) := by
  rw [vacationDays]
  by_cases hv : v = 0
  · subst hv
    decide
  · rw [if_pos (by omega), if_neg hv]

theorem days_exact (hfits : n.value < 9223372036854775808) {rest : Bytes} {line eof : Nat}
    {toks left : List Token} {args args' : Args} (hends : n.Ends rest)
    (h : lex (bytes ":days " ++ (n.text ++ rest)) line = .ok (toks, eof))
    (hparse : parseTag eof args (bytes "days") toks.tail = .ok (args', left)) :
    args'.vacDays = n.value := by
  have hlex := n.lex_tag (bytes "days") hends line (by simp)
  rw [longLong_of_lt hfits] at hlex
  obtain ⟨r, -, hr⟩ := map_eq_ok.mp (hlex.symm.trans h)
  simp only [Prod.mk.injEq] at hr
  have hflags : bytes "days" ≠ bytes "flags" := by decide
  rw [← hr.1, List.tail_cons, parseTag, if_neg hflags, if_pos (.inl rfl), parseDays] at hparse
  obtain ⟨d, hd, hargs⟩ := map_eq_ok.mp hparse
  simp only [Except.ok.injEq] at hd
  simp only [Prod.mk.injEq, Args.addDays, if_true] at hargs
  rw [← hargs.1, ← hd]

/-- Numbers are read exactly up to `2^63 - 1`; above, the wrap is taken for the number. -/
theorem readExactly_iff : n.ReadExactly ↔ n.value ≤ 9223372036854775807 := by
  constructor
  · intro h
    have hends : n.Ends [] := fun _ => by simp
    have hlex := n.lex_number hends (n.skipGap_text [] 1)
    rw [lex_nil] at hlex
    have := (h.token hends hlex).1
    omega
  · intro hle
    have hfits : n.value < 9223372036854775808 := by omega
    exact {
      token := fun hends h => ⟨hfits, n.token_exact hfits hends h⟩
      limit := fun hends h hparse => n.limit_exact hfits hends h hparse
      days := fun hends h hparse => by
        have hdays := n.days_exact hfits hends h hparse
        exact ⟨hdays, by rw [hdays, vacationDays_eq]⟩ }

end Numeral

/-- 2^64 octets. -/
def sixteenExbi : Numeral where
  digits := bytes "17179869184"
  suffix := some (ch 'G')
  digits_ne := by decide +kernel
  digits_all := by decide +kernel
  suffix_mem := by decide +kernel

/-- `size :over 17179869184G` is read as `size :over 0`: it holds of a message of one octet. -/
theorem size_over_wraps : ¬ ∀ n : Numeral, n.ReadExactly := by
  intro h
  have hends : sixteenExbi.Ends [] := fun hnone => by cases hnone
  have hvalue : sixteenExbi.value = 18446744073709551616 := by decide
  have hlex := sixteenExbi.lex_tag (bytes "over") hends 1 (by simp)
  rw [lex_nil, hvalue] at hlex
  have hparse : parseSize 1 [⟨.tag (bytes "over"), 1⟩, ⟨.number 0, 1⟩] =
      .ok (.size { sizeRelation := some .over } 0, []) := rfl
  have hexact := (h sixteenExbi).limit hends hlex hparse (fun _ => [])
    ⟨⟨[], [], [], []⟩, bytes "x", ⟨[], [], []⟩⟩ [] {}
  have hlength : (bytes "x").length = 1 := by decide
  simp [evalTest, hvalue, hlength] at hexact

end QuackMail.Sieve
