import QuackMail.Codec.Accumulator
import QuackMail.Ical.Folding
import QuackMail.Mime.QuotedPrintable

/-! # Encoded words

`EncodeEncodedWord` and `DecodeEncodedWords` of `mime_codec.cpp`.  A header text that needs it
is written as base64 words of at most 45 bytes, cut between characters and joined by folds;
the decoder drops the folds again, so every byte string comes back.
-/

namespace QuackMail.Mime

open Contentline (isContinuation unicode_cut exists_boundary)
open Json (Unicode)

/-! ## Reading -/

/-- `Latin1ToUtf8`. -/
def latin1ToUtf8 (s : Bytes) : Bytes :=
  s.flatMap fun c =>
    if c < 0x80 then [c] else [(0xC0 : Byte) ||| (c >>> 6), (0x80 : Byte) ||| (c &&& 0x3F)]

/-- `DecodeOneEncodedWord`. -/
def decodeOneEncodedWord (charset : Bytes) (enc : Byte) (text : Bytes) : Bytes :=
  let decoded (raw : Bytes) :=
    if lower charset ∈ [bytes "iso-8859-1", bytes "latin1", bytes "iso8859-1"] then latin1ToUtf8 raw
    else raw
  if toUpper enc = ch 'B' then decoded ((Base64.decode text).getD [])
  else if toUpper enc = ch 'Q' then decoded (decodeQpImpl true text)
  else text

/-- `=?charset?E?text?=` at the front of a text, and what follows it. -/
def wordAt : Bytes → Option (Bytes × Byte × Bytes × Bytes)
  | eq :: q :: t =>
    if eq = ch '=' ∧ q = ch '?' then
      match findChar (ch '?') t with
      | none => none
      | some q1 =>
        match t.drop (q1 + 1) with
        | enc :: q2 :: u =>
          if q2 = ch '?' then
            (find (bytes "?=") u).map fun e => (t.take q1, enc, u.take e, u.drop (e + 2))
          else none
        | _ => none
    else none
  | _ => none

theorem length_wordAt {s charset text rest : Bytes} {enc : Byte}
    (h : wordAt s = some (charset, enc, text, rest)) : rest.length < s.length := by
  unfold wordAt at h
  split at h
  · next eq q t =>
    split at h
    · split at h
      · cases h
      · next q1 hq1 =>
        split at h
        · next enc' q2 u hdrop =>
          split at h
          · obtain ⟨e, -, he⟩ := Option.map_eq_some_iff.mp h
            simp only [Prod.mk.injEq] at he
            have hlen := congrArg List.length hdrop
            rw [List.length_drop, List.length_cons, List.length_cons] at hlen
            rw [← he.2.2.2, List.length_drop, List.length_cons, List.length_cons]
            omega
          · cases h
        · cases h
    · cases h
  · cases h

def isLinearSpace (c : Byte) : Bool :=
  c == ch ' ' || c == ch '\t' || c == ch '\r' || c == ch '\n'

/-- The loop of `DecodeEncodedWords`: whether a word was just put out, and the white space held
back since. -/
def decodeWordsFrom (lastWasWord : Bool) (pending : Bytes) : Bytes → Bytes
  | [] => pending
  | c :: s =>
    match _h : wordAt (c :: s) with
    | some word =>
      (if lastWasWord ∧ pending ≠ [] then [] else pending) ++
        decodeOneEncodedWord word.1 word.2.1 word.2.2.1 ++ decodeWordsFrom true [] word.2.2.2
    | none =>
      if isLinearSpace c then decodeWordsFrom lastWasWord (pending ++ [c]) s
      else pending ++ c :: decodeWordsFrom false [] s
termination_by s => s.length
decreasing_by
  · exact length_wordAt ‹_›
  · simp
  · simp

theorem decodeWordsFrom_of_word {s charset text rest : Bytes} {enc : Byte}
    (h : wordAt s = some (charset, enc, text, rest)) (lastWasWord : Bool) (pending : Bytes) :
    decodeWordsFrom lastWasWord pending s =
      (if lastWasWord ∧ pending ≠ [] then [] else pending) ++
        decodeOneEncodedWord charset enc text ++ decodeWordsFrom true [] rest := by
  cases s with
  | nil => cases h
  | cons c s =>
    rw [decodeWordsFrom]
    split
    · next word hword =>
      rw [h] at hword
      cases hword
      rfl
    · next hnone =>
      rw [h] at hnone
      cases hnone

theorem decodeWordsFrom_of_none {c : Byte} {s : Bytes} (h : wordAt (c :: s) = none)
    (lastWasWord : Bool) (pending : Bytes) : decodeWordsFrom lastWasWord pending (c :: s) =
      if isLinearSpace c then decodeWordsFrom lastWasWord (pending ++ [c]) s
      else pending ++ c :: decodeWordsFrom false [] s := by
  rw [decodeWordsFrom]
  split
  · next word hword =>
    rw [h] at hword
    cases hword
  · rfl

def decodeEncodedWords (s : Bytes) : Bytes := decodeWordsFrom false [] s

/-! ## Writing -/

def needsEncoding (s : Bytes) : Bool :=
  (find (bytes "=?") s).isSome || s.any fun c => 0x80 ≤ c || c == ch '\r' || c == ch '\n'

/-- Back off while the byte after the cut is a continuation byte. -/
def backOffWord (rest : Bytes) : Nat → Nat
  | 0 => 0
  | take + 1 =>
    if take + 1 < rest.length ∧ isContinuation (rest.getD (take + 1) 0) then backOffWord rest take
    else take + 1

/-- How much of what is left goes into the next word. -/
def wordTake (rest : Bytes) : Nat :=
  let take := backOffWord rest (min 45 rest.length)
  if take = 0 then min 45 rest.length else take

def word (raw : Bytes) : Bytes := bytes "=?UTF-8?B?" ++ Base64.encode raw ++ bytes "?="

theorem wordTake_pos {rest : Bytes} (h : rest ≠ []) : 0 < wordTake rest := by
  have hlen := List.length_pos_iff.mpr h
  unfold wordTake
  simp only
  split
  · omega
  · omega

/-- The loop of `EncodeEncodedWord`. -/
def encodeWords (first : Bool) (rest : Bytes) : Bytes :=
  if _h : rest = [] then []
  else
    (if first then [] else bytes "\r\n ") ++ word (rest.take (wordTake rest)) ++
      encodeWords false (rest.drop (wordTake rest))
termination_by rest.length
decreasing_by
  have := wordTake_pos _h
  have := List.length_pos_iff.mpr _h
  rw [List.length_drop]
  omega

def encodeEncodedWord (s : Bytes) : Bytes := if needsEncoding s then encodeWords true s else s

/-! ## One word -/

theorem isChar_plain {c : Byte} (h : Base64.IsChar c) : c ≠ ch '?' ∧ c ≠ ch '\r' ∧ c ≠ ch '\n' := by
  cases h with
  | inl hmem =>
    have hall : ∀ c ∈ Base64.alphabet, c ≠ ch '?' ∧ c ≠ ch '\r' ∧ c ≠ ch '\n' := by
      exact forall_mem_bytes (by decide +kernel)
    exact hall c hmem
  | inr heq =>
    rw [heq]
    decide

variable (raw s : Bytes)

theorem wordAt_word :
    wordAt (word raw ++ s) = some (bytes "UTF-8", ch 'B', Base64.encode raw, s) := by
  have hquestion : ch '?' ∉ Base64.encode raw := fun hmem =>
    (isChar_plain (Base64.isChar_of_mem_encode hmem)).1 rfl
  have hfind : find (bytes "?=") (Base64.encode raw ++ (bytes "?=" ++ s)) =
      some (Base64.encode raw).length := by
    have hclose : bytes "?=" = [ch '?', ch '='] := by decide
    rw [hclose, find_skip hquestion, find_head (by simp)]
    simp
  have htext : word raw ++ s = ch '=' :: ch '?' :: (bytes "UTF-8" ++ ch '?' :: ch 'B' :: ch '?' ::
      (Base64.encode raw ++ (bytes "?=" ++ s))) := by
    rw [word, show bytes "=?UTF-8?B?" =
      [ch '=', ch '?'] ++ bytes "UTF-8" ++ [ch '?', ch 'B', ch '?'] from by decide]
    simp
  have hchar : findChar (ch '?') (bytes "UTF-8" ++ ch '?' :: ch 'B' :: ch '?' ::
      (Base64.encode raw ++ (bytes "?=" ++ s))) = some (bytes "UTF-8").length :=
    findChar_append (by decide) _
  have hclose : (bytes "?=").length = 2 := by decide
  rw [htext, wordAt, if_pos ⟨rfl, rfl⟩, hchar]
  simp only [List.drop_length_add_append, List.drop_one, List.tail_cons, if_pos, hfind,
    Option.map_some, List.take_left, Option.some.injEq, Prod.mk.injEq, true_and]
  rw [← hclose, List.drop_left]

example : wordAt (bytes "=?a?q?b?= c") = some (bytes "a", ch 'q', bytes "b", bytes " c") := by
  decide +kernel

theorem decodeOneEncodedWord_word :
    decodeOneEncodedWord (bytes "UTF-8") (ch 'B') (Base64.encode raw) = raw := by
  have hcharset : lower (bytes "UTF-8") ∉
      [bytes "iso-8859-1", bytes "latin1", bytes "iso8859-1"] := by decide +kernel
  rw [decodeOneEncodedWord, if_pos (by decide)]
  simp only [if_neg hcharset, Base64.decode_encode, Option.getD_some]

/-- A word is decoded, and the white space before it is dropped if another was before that. -/
theorem decodeWordsFrom_word (lastWasWord : Bool) (pending raw s : Bytes) :
    decodeWordsFrom lastWasWord pending (word raw ++ s) =
      (if lastWasWord ∧ pending ≠ [] then [] else pending) ++ raw ++ decodeWordsFrom true [] s := by
  rw [decodeWordsFrom_of_word (wordAt_word raw s), decodeOneEncodedWord_word]

theorem wordAt_none {c : Byte} (h : c ≠ ch '=') (s : Bytes) : wordAt (c :: s) = none := by
  cases s with
  | nil => rfl
  | cons d s => rw [wordAt, if_neg fun heq => h heq.1]

theorem decodeWordsFrom_space {c : Byte} (h : isLinearSpace c = true) (lastWasWord : Bool)
    (pending s : Bytes) : decodeWordsFrom lastWasWord pending (c :: s) =
      decodeWordsFrom lastWasWord (pending ++ [c]) s := by
  have hne : c ≠ ch '=' := by
    intro heq
    rw [heq] at h
    exact absurd h (by decide)
  rw [decodeWordsFrom_of_none (wordAt_none hne s), if_pos h]

/-- A fold between two words is dropped. -/
theorem decodeWordsFrom_fold : decodeWordsFrom true [] (bytes "\r\n " ++ (word raw ++ s)) =
      raw ++ decodeWordsFrom true [] s := by
  show decodeWordsFrom true [] (ch '\r' :: ch '\n' :: ch ' ' :: (word raw ++ s)) = _
  rw [decodeWordsFrom_space (by decide), decodeWordsFrom_space (by decide),
    decodeWordsFrom_space (by decide), decodeWordsFrom_word, if_pos ⟨rfl, by simp⟩, List.nil_append]

/-! ## A text of words -/

theorem decodeWordsFrom_encodeWords (rest : Bytes) :
    decodeWordsFrom true [] (encodeWords false rest) = rest := by
  induction hn : rest.length using Nat.strongRecOn generalizing rest with
  | ind n ih =>
    rw [encodeWords]
    by_cases hnil : rest = []
    · rw [dif_pos hnil, hnil, decodeWordsFrom]
    · have hpos := wordTake_pos hnil
      have hlen := List.length_pos_iff.mpr hnil
      rw [dif_neg hnil, if_neg Bool.false_ne_true, List.append_assoc, decodeWordsFrom_fold,
        ih _ (by rw [List.length_drop]; omega) _ rfl, List.take_append_drop]

/-- A text without `=?` is none of words. -/
theorem decodeWordsFrom_plain {s : Bytes} (h : ¬bytes "=?" <:+: s) :
    ∀ lastWasWord pending, decodeWordsFrom lastWasWord pending s = pending ++ s := by
  induction s with
  | nil =>
    intro lastWasWord pending
    rw [decodeWordsFrom, List.append_nil]
  | cons c s ih =>
    intro lastWasWord pending
    have hnone : wordAt (c :: s) = none := by
      cases s with
      | nil => rfl
      | cons d s =>
        rw [wordAt, if_neg]
        rintro ⟨rfl, rfl⟩
        have hstart : bytes "=?" = [ch '=', ch '?'] := by decide
        exact h (hstart ▸ List.IsPrefix.isInfix ⟨s, rfl⟩)
    have ih' := ih fun hs => h (List.IsInfix.trans hs (List.suffix_cons c s).isInfix)
    rw [decodeWordsFrom_of_none hnone, ih', ih']
    split
    · simp
    · simp

theorem decodeEncodedWords_encodeEncodedWord : decodeEncodedWords (encodeEncodedWord s) = s := by
  rw [encodeEncodedWord]
  by_cases hneeds : needsEncoding s = true
  · have hnil : s ≠ [] := by
      intro hnil
      rw [hnil] at hneeds
      exact absurd hneeds (by decide)
    rw [if_pos hneeds, encodeWords, dif_neg hnil, if_pos rfl, List.nil_append, decodeEncodedWords,
      decodeWordsFrom_word, decodeWordsFrom_encodeWords, if_neg (by simp), List.nil_append,
      List.take_append_drop]
  · rw [if_neg hneeds]
    apply decodeWordsFrom_plain
    intro hinfix
    obtain ⟨x, y, hxy⟩ := hinfix
    have hat : bytes "=?" <+: s.drop x.length := by
      rw [← hxy, List.append_assoc, List.drop_left]
      exact List.prefix_append _ _
    obtain ⟨q, -, hq⟩ := exists_find_le hat
    apply hneeds
    rw [needsEncoding, hq]
    rfl

/-! ## The words -/

theorem length_encode : (Base64.encode s).length = 4 * ((s.length + 2) / 3) := by
  rw [← Base64.encode32_eq, Base64.encode_eq_rfc4648]
  induction s using Base64.rfc4648.induct with
  | case1 => rfl
  | case2 a => simp [Base64.rfc4648, Base64.digitsOf]
  | case3 a b => simp [Base64.rfc4648, Base64.digitsOf]
  | case4 a b c s ih =>
    rw [Base64.rfc4648, List.length_append, ih]
    simp [Base64.digitsOf]
    omega

theorem length_word {raw : Bytes} (h : raw.length ≤ 45) : (word raw).length ≤ 75 := by
  have hopen : (bytes "=?UTF-8?B?").length = 10 := by decide
  have hclose : (bytes "?=").length = 2 := by decide
  rw [word, List.length_append, List.length_append, hopen, hclose, length_encode]
  omega

theorem word_clean {raw : Bytes} : ∀ c ∈ word raw, c ≠ ch '\r' ∧ c ≠ ch '\n' := by
  have hopen : ∀ c ∈ bytes "=?UTF-8?B?", c ≠ ch '\r' ∧ c ≠ ch '\n' :=
    forall_mem_bytes (by decide +kernel)
  have hclose : ∀ c ∈ bytes "?=", c ≠ ch '\r' ∧ c ≠ ch '\n' :=
    forall_mem_bytes (by decide +kernel)
  intro c hc
  rw [word, List.mem_append, List.mem_append] at hc
  obtain (hc | hc) | hc := hc
  · exact hopen c hc
  · exact (isChar_plain (Base64.isChar_of_mem_encode hc)).2
  · exact hclose c hc

theorem decodeEncodedWords_word : decodeEncodedWords (word raw) = raw := by
  have h := decodeWordsFrom_word false [] raw []
  rw [List.append_nil] at h
  rw [decodeEncodedWords, h, decodeWordsFrom]
  simp

example : word [104, 105] = bytes "=?UTF-8?B?aGk=?=" := by decide +kernel

theorem backOffWord_le (rest : Bytes) : ∀ take, backOffWord rest take ≤ take
  | 0 => Nat.le_refl 0
  | take + 1 => by
    rw [backOffWord]
    split
    · exact Nat.le_succ_of_le (backOffWord_le rest take)
    · exact Nat.le_refl _

theorem backOffWord_sound {rest : Bytes} {q : Nat} (hq : isContinuation (rest.getD q 0) = false)
    (hpos : 0 < q) : ∀ {take}, q ≤ take → q ≤ backOffWord rest take ∧
      (backOffWord rest take < rest.length →
        isContinuation (rest.getD (backOffWord rest take) 0) = false)
  | 0, h => by omega
  | take + 1, h => by
    rw [backOffWord]
    by_cases hcont : take + 1 < rest.length ∧ isContinuation (rest.getD (take + 1) 0) = true
    · have hne : q ≠ take + 1 := by
        intro heq
        rw [← heq, hq] at hcont
        cases hcont.2
      rw [if_pos hcont]
      exact backOffWord_sound hq hpos (by omega)
    · rw [if_neg hcont]
      exact ⟨h, fun hlt => Bool.eq_false_iff.mpr fun hc => hcont ⟨hlt, hc⟩⟩

theorem wordTake_le (rest : Bytes) : wordTake rest ≤ 45 := by
  have hmin := Nat.min_le_left 45 rest.length
  have hback := backOffWord_le rest (min 45 rest.length)
  unfold wordTake
  simp only
  split
  · exact hmin
  · exact Nat.le_trans hback hmin

/-- What goes into a word of a UTF-8 text is UTF-8, and so is what is left. -/
theorem wordTake_sound {rest : Bytes} (h : Unicode rest) :
    Unicode (rest.take (wordTake rest)) ∧ Unicode (rest.drop (wordTake rest)) := by
  apply unicode_cut h
  have hpast : ∀ {p}, rest.length ≤ p → isContinuation (rest.getD p 0) = false := by
    intro p hp
    rw [List.getD_eq_getElem?_getD, List.getElem?_eq_none hp]
    decide
  -- within four bytes of the cut a character begins, so the loop stops well before 0
  obtain ⟨q, hle, hge, hq⟩ := exists_boundary h (min 45 rest.length)
  by_cases hshort : rest.length ≤ 45
  · cases hrest : rest.length with
    | zero => exact hpast (by omega)
    | succ n =>
      have hmin : min 45 rest.length = n + 1 := by omega
      have hback : backOffWord rest (n + 1) = n + 1 := by
        rw [backOffWord, if_neg fun hlt => absurd hlt.1 (by omega)]
      apply hpast
      rw [wordTake, hmin, hback]
      simp [hrest]
  · have hmin : min 45 rest.length = 45 := by omega
    rw [hmin] at hle hge
    obtain ⟨hlow, hsound⟩ := backOffWord_sound hq (by omega) hle
    have hhigh := backOffWord_le rest 45
    have htake : wordTake rest = backOffWord rest 45 := by
      rw [wordTake, hmin]
      exact if_neg (by omega)
    rw [htake]
    exact hsound (by omega)

/-! ## What is written -/

/-- A text as the words of its chunks, one to a line. -/
structure Encoded (s out : Bytes) (chunks : List Bytes) : Prop where
  written : out = (bytes "\r\n ").intercalate (chunks.map word)
  whole : chunks.flatten = s
  short : ∀ chunk ∈ chunks, (word chunk).length ≤ 75
  clean : ∀ chunk ∈ chunks, ∀ c ∈ word chunk, c ≠ ch '\r' ∧ c ≠ ch '\n'
  decoded : ∀ chunk ∈ chunks, decodeEncodedWords (word chunk) = chunk
  sound : Unicode s → ∀ chunk ∈ chunks, Unicode chunk

theorem exists_chunks (rest : Bytes) : ∃ chunks : List Bytes,
    encodeWords false rest = chunks.flatMap (fun chunk => bytes "\r\n " ++ word chunk) ∧
      chunks.flatten = rest ∧ (∀ chunk ∈ chunks, chunk.length ≤ 45) ∧
      (Unicode rest → ∀ chunk ∈ chunks, Unicode chunk) := by
  induction hn : rest.length using Nat.strongRecOn generalizing rest with
  | ind n ih =>
    rw [encodeWords]
    by_cases hnil : rest = []
    · rw [dif_pos hnil, hnil]
      exact ⟨[], rfl, rfl, by simp, by simp⟩
    · have hpos := wordTake_pos hnil
      have hlen := List.length_pos_iff.mpr hnil
      obtain ⟨chunks, hwritten, hwhole, hshort, hsound⟩ :=
        ih _ (by rw [List.length_drop]; omega) (rest.drop (wordTake rest)) rfl
      refine ⟨rest.take (wordTake rest) :: chunks, ?_, ?_, ?_, ?_⟩
      · rw [dif_neg hnil, if_neg Bool.false_ne_true, hwritten, List.flatMap_cons]
      · rw [List.flatten_cons, hwhole, List.take_append_drop]
      · intro chunk hchunk
        cases List.mem_cons.mp hchunk with
        | inl heq =>
          have := wordTake_le rest
          rw [heq, List.length_take]
          omega
        | inr hmem => exact hshort chunk hmem
      · intro h chunk hchunk
        obtain ⟨htake, hdrop⟩ := wordTake_sound h
        cases List.mem_cons.mp hchunk with
        | inl heq => exact heq ▸ htake
        | inr hmem => exact hsound hdrop chunk hmem

theorem intercalate_cons (sep piece : Bytes) (pieces : List Bytes) :
    sep.intercalate (piece :: pieces) = piece ++ pieces.flatMap (sep ++ ·) := by
  induction pieces generalizing piece with
  | nil => simp
  | cons next pieces ih => simp [ih]

theorem encoded {s : Bytes} (h : s ≠ []) : ∃ chunks, Encoded s (encodeWords true s) chunks := by
  obtain ⟨chunks, hwritten, hwhole, hshort, hsound⟩ := exists_chunks s
  cases chunks with
  | nil => exact absurd hwhole.symm h
  | cons chunk chunks =>
    refine ⟨chunk :: chunks, ?_, hwhole, ?_, fun _ _ => word_clean, ?_, hsound⟩
    · -- the first word stands without the fold
      rw [encodeWords, dif_neg h, if_neg Bool.false_ne_true, List.append_assoc,
        List.flatMap_cons, List.append_assoc] at hwritten
      rw [encodeWords, dif_neg h, if_pos rfl, List.nil_append, List.append_cancel_left hwritten,
        List.map_cons, intercalate_cons, List.flatMap_map]
    · exact fun chunk hchunk => length_word (hshort chunk hchunk)
    · exact fun chunk _ => decodeEncodedWords_word chunk

/-- A text comes back from its words, whatever it holds; and it is written as it is, with no
CR or LF, or as words of 75 bytes and folds between them. -/
theorem encoded_words_round_trip (s : Bytes) : decodeEncodedWords (encodeEncodedWord s) = s ∧
      ((encodeEncodedWord s = s ∧ ∀ c ∈ s, c ≠ ch '\r' ∧ c ≠ ch '\n') ∨
        ∃ chunks, Encoded s (encodeEncodedWord s) chunks) := by
  refine ⟨decodeEncodedWords_encodeEncodedWord s, ?_⟩
  rw [encodeEncodedWord]
  by_cases hneeds : needsEncoding s = true
  · have hnil : s ≠ [] := by
      intro hnil
      rw [hnil] at hneeds
      exact absurd hneeds (by decide)
    rw [if_pos hneeds]
    exact Or.inr (encoded hnil)
  · rw [if_neg hneeds]
    refine Or.inl ⟨rfl, fun c hc => ?_⟩
    rw [needsEncoding, Bool.or_eq_true, List.any_eq_true] at hneeds
    constructor
    · intro heq
      exact hneeds (Or.inr ⟨c, hc, by simp [heq]⟩)
    · intro heq
      exact hneeds (Or.inr ⟨c, hc, by simp [heq]⟩)

end QuackMail.Mime
