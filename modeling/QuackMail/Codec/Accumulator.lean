import Mathlib.Algebra.Ring.Nat
import QuackMail.Codec.Base64

/-! # The base64 accumulator

`Base64Encode` and `Base64Decode` shift their input through an `int` they never mask, so
that from the fifth byte on the high bits fall out of it.  Here the accumulator is the
32-bit word it is, arithmetic shifts included, and the url alphabet of `Base64UrlEncode`
stands beside the other one.
-/

namespace QuackMail.Base64

/-- `kEnc[(val >> shift) & 0x3F]`. -/
def sextet32 (val : BitVec 32) (shift : Nat) : Byte :=
  encChar (val.sshiftRight shift &&& BitVec.ofNat 32 (2 ^ 6 - 1)).toNat

/-- `while (bits >= 0)`, with `n` for `bits + 6`. -/
def drain32 (val : BitVec 32) (n : Nat) : Bytes × Nat :=
  if n ≥ 6 then
    let r := drain32 val (n - 6)
    (sextet32 val (n - 6) :: r.1, r.2)
  else ([], n)

def encodeFrom32 : BitVec 32 → Nat → Bytes → Bytes
  | val, n, [] => if n > 0 then [sextet32 (val <<< 8) (n + 2)] else []
  | val, n, c :: s =>
    let val' := (val <<< 8) + BitVec.ofNat 32 c.toNat
    let r := drain32 val' (n + 8)
    r.1 ++ encodeFrom32 val' r.2 s

/-- `Base64Encode`. -/
def encode32 (s : Bytes) : Bytes := pad (encodeFrom32 0 0 s)

/-- `char((val >> shift) & 0xFF)`. -/
def octet32 (val : BitVec 32) (shift : Nat) : Byte :=
  UInt8.ofNat (val.sshiftRight shift &&& BitVec.ofNat 32 (2 ^ 8 - 1)).toNat

/-- The loop of the decoder, with `n` for `bits + 8`. -/
def decodeFrom32 : BitVec 32 → Nat → Bytes → Option Bytes
  | _, _, [] => some []
  | val, n, c :: s =>
    if c = ch '=' ∨ isSpace c then decodeFrom32 val n s
    else
      match decChar c with
      | none => none
      | some d =>
        let val' := (val <<< 6) + BitVec.ofNat 32 d
        if n + 6 ≥ 8 then
          (decodeFrom32 val' (n + 6 - 8) s).map (octet32 val' (n + 6 - 8) :: ·)
        else decodeFrom32 val' (n + 6) s

/-- `Base64Decode`, `none` where it returns false. -/
def decode32 (s : Bytes) : Option Bytes := decodeFrom32 0 0 s

/-- The character `Base64UrlEncode` writes for one of the other alphabet. -/
def toUrl (c : Byte) : Byte := if c = ch '+' then ch '-' else if c = ch '/' then ch '_' else c

def fromUrl (c : Byte) : Byte := if c = ch '-' then ch '+' else if c = ch '_' then ch '/' else c

/-- `Base64UrlEncode`: neither padding nor line breaks. -/
def urlEncode (s : Bytes) : Bytes :=
  ((encode32 s).filter (fun c => c ≠ ch '=' ∧ c ≠ 13 ∧ c ≠ 10)).map toUrl

/-- `Base64UrlDecode`. -/
def urlDecode (s : Bytes) : Option Bytes :=
  decode32 (pad ((s.filter (fun c => c ≠ 13 ∧ c ≠ 10)).map fromUrl))

/-! ## The low bits -/

/-- The lowest `w` bits above `shift` are the same in the word and in the number, as long as
they lie within the word. -/
theorem toNat_sshiftRight_and {shift w : Nat} (h : shift + w ≤ 32) (v : Nat) :
    ((BitVec.ofNat 32 v).sshiftRight shift &&& BitVec.ofNat 32 (2 ^ w - 1)).toNat =
      (v >>> shift) % 2 ^ w := by
  apply Nat.eq_of_testBit_eq
  intro i
  rw [BitVec.testBit_toNat, BitVec.getLsbD_and, BitVec.getLsbD_sshiftRight, Nat.testBit_mod_two_pow,
    Nat.testBit_shiftRight, BitVec.getLsbD_ofNat, BitVec.getLsbD_ofNat, Nat.testBit_two_pow_sub_one]
  by_cases hi : i < w
  · have : shift + i < 32 := by omega
    have : i < 32 := by omega
    simp [*]
  · simp [hi]

theorem sextet32_ofNat {shift : Nat} (h : shift ≤ 26) (v : Nat) :
    sextet32 (BitVec.ofNat 32 v) shift = sextet v shift :=
  congrArg encChar (toNat_sshiftRight_and (by omega) v)

theorem octet32_ofNat {shift : Nat} (h : shift ≤ 24) (v : Nat) :
    octet32 (BitVec.ofNat 32 v) shift = UInt8.ofNat (v >>> shift) := by
  rw [octet32, toNat_sshiftRight_and (by omega)]
  apply UInt8.toNat_inj.mp
  rw [UInt8.toNat_ofNat', UInt8.toNat_ofNat', Nat.mod_mod]

theorem ofNat_shiftLeft (v k : Nat) : BitVec.ofNat 32 v <<< k = BitVec.ofNat 32 (v <<< k) := by
  apply BitVec.eq_of_toNat_eq
  rw [BitVec.toNat_shiftLeft, BitVec.toNat_ofNat, BitVec.toNat_ofNat, Nat.shiftLeft_eq,
    Nat.shiftLeft_eq, Nat.mod_mul_mod]

/-- A byte leaves at most thirteen bits waiting, which is one round of the loop or two. -/
theorem drain32_ofNat {n : Nat} (h : n ≤ 13) (v : Nat) :
    drain32 (BitVec.ofNat 32 v) n = drain v n := by
  have hone : sextet32 (BitVec.ofNat 32 v) (n - 6) = sextet v (n - 6) :=
    sextet32_ofNat (by omega) v
  have htwo : sextet32 (BitVec.ofNat 32 v) (n - 12) = sextet v (n - 12) :=
    sextet32_ofNat (by omega) v
  rw [drain32, drain]
  by_cases h12 : n ≥ 12
  · have hend : ¬n - 6 - 6 ≥ 6 := by omega
    rw [if_pos (by omega), if_pos h12, drain32, if_pos (by omega), drain32, if_neg hend]
    simp only [Nat.sub_sub, Nat.reduceAdd, hone, htwo]
  · rw [if_neg h12]
    by_cases h6 : n ≥ 6
    · have hend : ¬n - 6 ≥ 6 := by omega
      rw [if_pos h6, if_pos h6, drain32, if_neg hend]
      simp [hone]
    · rw [if_neg h6, if_neg h6]

theorem drain_lt {n : Nat} (h : n ≤ 13) (v : Nat) : (drain v n).2 < 6 := by
  rw [drain]
  split
  · omega
  · split
    · omega
    · omega

variable (s : Bytes)

/-- The invariant of the encoder: the word is the number modulo 2^32, and less than six bits
wait in it. -/
theorem encodeFrom32_ofNat :
    ∀ v n, n < 6 → encodeFrom32 (BitVec.ofNat 32 v) n s = encodeFrom v n s := by
  induction s with
  | nil =>
    intro v n hn
    rw [encodeFrom32, encodeFrom, ofNat_shiftLeft, sextet32_ofNat (by omega)]
  | cons c s ih =>
    intro v n hn
    have hval : BitVec.ofNat 32 v <<< 8 + BitVec.ofNat 32 c.toNat =
        BitVec.ofNat 32 ((v <<< 8) + c.toNat) := by
      rw [ofNat_shiftLeft, BitVec.ofNat_add]
    simp only [encodeFrom32, encodeFrom, hval]
    rw [drain32_ofNat (by omega), ih _ _ (drain_lt (by omega) _)]

theorem encode32_eq : encode32 s = encode s := by
  exact congrArg pad (encodeFrom32_ofNat s 0 0 (by omega))

/-- The invariant of the decoder: less than eight bits wait. -/
theorem decodeFrom32_ofNat :
    ∀ v n, n < 8 → decodeFrom32 (BitVec.ofNat 32 v) n s = decodeFrom v n s := by
  induction s with
  | nil =>
    intro v n hn
    rfl
  | cons c s ih =>
    intro v n hn
    rw [decodeFrom32, decodeFrom]
    by_cases hskip : c = ch '=' ∨ isSpace c = true
    · rw [if_pos hskip, if_pos hskip, ih v n hn]
    · rw [if_neg hskip, if_neg hskip]
      generalize decChar c = entry
      cases entry with
      | none => rfl
      | some d =>
        have hval : BitVec.ofNat 32 v <<< 6 + BitVec.ofNat 32 d =
            BitVec.ofNat 32 ((v <<< 6) + d) := by
          rw [ofNat_shiftLeft, BitVec.ofNat_add]
        simp only [hval]
        by_cases h8 : n + 6 ≥ 8
        · rw [if_pos h8, if_pos h8, ih _ _ (by omega), octet32_ofNat (by omega)]
        · rw [if_neg h8, if_neg h8, ih _ _ (by omega)]

theorem decode32_eq : decode32 s = decode s :=
  decodeFrom32_ofNat s 0 0 (by omega)

/-! ## The encoding of RFC 4648 -/

/-- The four digits of three bytes: six bits each. -/
def digitsOf (a b c : Byte) : List Nat :=
  [a.toNat / 4, a.toNat % 4 * 16 + b.toNat / 16, b.toNat % 16 * 4 + c.toNat / 64, c.toNat % 64]

/-- Groups of three bytes are written as four digits; a short last group is filled up with zero
bits and with the padding character, where there is one. -/
def rfc4648 (digit : Nat → Byte) (padding : Bytes) : Bytes → Bytes
  | [] => []
  | [a] => ((digitsOf a 0 0).take 2).map digit ++ padding ++ padding
  | [a, b] => ((digitsOf a b 0).take 3).map digit ++ padding
  | a :: b :: c :: s => (digitsOf a b c).map digit ++ rfc4648 digit padding s

/-- The digits of RFC 4648 section 5. -/
def urlAlphabet : Bytes :=
  bytes "ABCDEFGHIJKLMNOPQRSTUVWXYZabcdefghijklmnopqrstuvwxyz0123456789-_"

theorem pad_append {x : Bytes} (h : x.length % 4 = 0) (s : Bytes) : pad (x ++ s) = x ++ pad s := by
  rw [pad, pad, List.length_append, List.append_assoc]
  congr 4
  omega

/-- What was in the accumulator before does not matter. -/
theorem pad_encodeFrom : ∀ v, pad (encodeFrom v 0 s) = rfc4648 encChar [ch '='] s := by
  induction s using rfc4648.induct with
  | case1 =>
    intro v
    simp [encodeFrom, pad, rfc4648]
  | case2 a =>
    intro v
    have ha := a.toNat_lt
    obtain ⟨w, hw⟩ : ∃ w, w = v * 256 + a.toNat := ⟨_, rfl⟩
    have h₁ : w / 4 % 64 = a.toNat / 4 := by omega
    have h₂ : w * 256 / 16 % 64 = a.toNat % 4 * 16 := by omega
    simp [encodeFrom, drain, sextet, pad, rfc4648, digitsOf, Nat.shiftLeft_eq,
      Nat.shiftRight_eq_div_pow, ← hw, h₁, h₂]
  | case3 a b =>
    intro v
    have ha := a.toNat_lt
    have hb := b.toNat_lt
    obtain ⟨w, hw⟩ : ∃ w, w = v * 256 + a.toNat := ⟨_, rfl⟩
    obtain ⟨x, hx⟩ : ∃ x, x = w * 256 + b.toNat := ⟨_, rfl⟩
    have h₁ : w / 4 % 64 = a.toNat / 4 := by omega
    have h₂ : x / 16 % 64 = a.toNat % 4 * 16 + b.toNat / 16 := by omega
    have h₃ : x * 256 / 64 % 64 = b.toNat % 16 * 4 := by omega
    simp [encodeFrom, drain, sextet, pad, rfc4648, digitsOf, Nat.shiftLeft_eq,
      Nat.shiftRight_eq_div_pow, ← hw, ← hx, h₁, h₂, h₃]
  | case4 a b c s ih =>
    intro v
    have ha := a.toNat_lt
    have hb := b.toNat_lt
    have hc := c.toNat_lt
    obtain ⟨w, hw⟩ : ∃ w, w = v * 256 + a.toNat := ⟨_, rfl⟩
    obtain ⟨x, hx⟩ : ∃ x, x = w * 256 + b.toNat := ⟨_, rfl⟩
    obtain ⟨y, hy⟩ : ∃ y, y = x * 256 + c.toNat := ⟨_, rfl⟩
    have hlength (i j k l : Byte) : [i, j, k, l].length % 4 = 0 := by simp
    have h₁ : w / 4 % 64 = a.toNat / 4 := by omega
    have h₂ : x / 16 % 64 = a.toNat % 4 * 16 + b.toNat / 16 := by omega
    have h₃ : y / 64 % 64 = b.toNat % 16 * 4 + c.toNat / 64 := by omega
    have h₄ : y % 64 = c.toNat % 64 := by omega
    rw [encodeFrom_group, pad_append (hlength _ _ _ _), ih, rfc4648]
    simp [sextet, digitsOf, Nat.shiftRight_eq_div_pow, ← hw, ← hx, ← hy, h₁, h₂, h₃, h₄]

theorem rfc4648_map (digit : Nat → Byte) (f : Byte → Byte) (padding s : Bytes) :
    (rfc4648 digit padding s).map f = rfc4648 (fun i => f (digit i)) (padding.map f) s := by
  induction s using rfc4648.induct with
  | case1 => rfl
  | case2 a => simp [rfc4648, digitsOf]
  | case3 a b => simp [rfc4648, digitsOf]
  | case4 a b c s ih => simp [rfc4648, ih]

theorem encode_eq_rfc4648 : encode32 s = rfc4648 encChar [ch '='] s := by
  rw [encode32_eq, encode, pad_encodeFrom]

/-! ## The url alphabet -/

theorem toUrl_alphabet {c : Byte} (h : c ∈ alphabet) :
    fromUrl (toUrl c) = c ∧ toUrl c ≠ 13 ∧ toUrl c ≠ 10 ∧ c ≠ ch '=' ∧ c ≠ 13 ∧ c ≠ 10 := by
  have hall : ∀ c ∈ alphabet,
      fromUrl (toUrl c) = c ∧ toUrl c ≠ 13 ∧ toUrl c ≠ 10 ∧ c ≠ ch '=' ∧ c ≠ 13 ∧ c ≠ 10 := by
    exact forall_mem_bytes (by decide +kernel)
  exact hall c h

/-- What `Base64UrlEncode` drops is the padding. -/
theorem urlEncode_eq : urlEncode s = (encodeFrom 0 0 s).map toUrl := by
  rw [urlEncode, encode32_eq, encode, pad, List.filter_append, List.filter_eq_self.mpr,
    List.filter_replicate, if_neg (by simp), List.append_nil]
  intro c hc
  obtain ⟨-, -, -, heq, hcr, hlf⟩ := toUrl_alphabet (mem_alphabet_of_mem_encodeFrom s 0 0 c hc)
  simp [heq, hcr, hlf]

theorem urlDecode_urlEncode : urlDecode (urlEncode s) = some s := by
  have hplain : ∀ c ∈ encodeFrom 0 0 s, c ∈ alphabet := mem_alphabet_of_mem_encodeFrom s 0 0
  have hkeep : ((encodeFrom 0 0 s).map toUrl).filter (fun c => c ≠ 13 ∧ c ≠ 10) =
      (encodeFrom 0 0 s).map toUrl := by
    apply List.filter_eq_self.mpr
    intro d hd
    obtain ⟨c, hc, rfl⟩ := List.mem_map.mp hd
    obtain ⟨-, hcr, hlf, -⟩ := toUrl_alphabet (hplain c hc)
    simp [hcr, hlf]
  have hback : ((encodeFrom 0 0 s).map toUrl).map fromUrl = encodeFrom 0 0 s := by
    rw [List.map_map]
    conv_rhs => rw [← List.map_id (encodeFrom 0 0 s)]
    exact List.map_congr_left fun c hc => (toUrl_alphabet (hplain c hc)).1
  rw [urlDecode, urlEncode_eq, hkeep, hback, decode32_eq]
  exact decode_encode s

/-- The digits of RFC 4648 section 5 are those of section 4 but for two. -/
theorem toUrl_encChar {i : Nat} (h : i < 64) : toUrl (encChar i) = urlAlphabet.getD i 0 := by
  have hall : ∀ i < 64, toUrl (encChar i) = urlAlphabet.getD i 0 := by
    simp only [encChar, urlAlphabet, alphabet]
    rw [bytes_ofList, bytes_ofList]
    decide +kernel
  exact hall i h

/-- The digits of an encoding are numbers below 64. -/
theorem rfc4648_congr {digit digit' : Nat → Byte} (h : ∀ i < 64, digit i = digit' i)
    (padding s : Bytes) : rfc4648 digit padding s = rfc4648 digit' padding s := by
  have hdigits (a b c : Byte) : ∀ i ∈ digitsOf a b c, digit i = digit' i := by
    intro i hi
    have ha := a.toNat_lt
    have hb := b.toNat_lt
    have hc := c.toNat_lt
    apply h
    simp only [digitsOf, List.mem_cons, List.not_mem_nil, or_false] at hi
    omega
  induction s using rfc4648.induct with
  | case1 => rfl
  | case2 a =>
    rw [rfc4648, rfc4648, List.map_congr_left fun i hi => hdigits a 0 0 i (List.mem_of_mem_take hi)]
  | case3 a b =>
    rw [rfc4648, rfc4648, List.map_congr_left fun i hi => hdigits a b 0 i (List.mem_of_mem_take hi)]
  | case4 a b c s ih => rw [rfc4648, rfc4648, List.map_congr_left (hdigits a b c), ih]

/-- The encoding without its padding. -/
theorem encodeFrom_eq_rfc4648 :
    (rfc4648 encChar [ch '='] s).filter (· ≠ ch '=') = rfc4648 encChar [] s := by
  have hkeep (a b c : Byte) (l : List Nat) (hl : l ⊆ digitsOf a b c) :
      (l.map encChar).filter (· ≠ ch '=') = l.map encChar := by
    apply List.filter_eq_self.mpr
    intro d hd
    obtain ⟨i, hi, rfl⟩ := List.mem_map.mp hd
    have ha := a.toNat_lt
    have hb := b.toNat_lt
    have hc := c.toNat_lt
    have hlt : i < 64 := by
      have hmem := hl hi
      simp only [digitsOf, List.mem_cons, List.not_mem_nil, or_false] at hmem
      omega
    have hne := (toUrl_alphabet (encChar_mem hlt)).2.2.2.1
    simp [hne]
  induction s using rfc4648.induct with
  | case1 => rfl
  | case2 a =>
    rw [rfc4648, rfc4648, List.filter_append, List.filter_append,
      hkeep a 0 0 _ (List.take_subset _ _)]
    rfl
  | case3 a b =>
    rw [rfc4648, rfc4648, List.filter_append, hkeep a b 0 _ (List.take_subset _ _)]
    rfl
  | case4 a b c s ih =>
    rw [rfc4648, rfc4648, List.filter_append, hkeep a b c _ (List.Subset.refl _), ih]

theorem urlEncode_eq_rfc4648 : urlEncode s = rfc4648 (urlAlphabet.getD · 0) [] s := by
  have hpad : (encodeFrom 0 0 s) = rfc4648 encChar [] s := by
    rw [← encodeFrom_eq_rfc4648, ← encode_eq_rfc4648, encode32_eq, encode, pad, List.filter_append,
      List.filter_eq_self.mpr, List.filter_replicate, if_neg (by simp), List.append_nil]
    intro c hc
    have hne := (toUrl_alphabet (mem_alphabet_of_mem_encodeFrom s 0 0 c hc)).2.2.2.1
    simp [hne]
  rw [urlEncode_eq, hpad, rfc4648_map]
  exact rfc4648_congr (fun i hi => toUrl_encChar hi) [] s

/-! ## Round trips -/

/-- Both codecs give back what was encoded, with the accumulator a 32-bit word; the encodings
are those of RFC 4648, and white space anywhere does not matter to the decoder. -/
theorem base64_round_trip (s : Bytes) :
    decode32 (encode32 s) = some s ∧ urlDecode (urlEncode s) = some s ∧
      encode32 s = rfc4648 encChar [ch '='] s ∧
      urlEncode s = rfc4648 (urlAlphabet.getD · 0) [] s ∧
      ∀ t : Bytes, t.filter (fun c => !isSpace c) = encode32 s → decode32 t = some s := by
  refine ⟨?_, urlDecode_urlEncode s, encode_eq_rfc4648 s, urlEncode_eq_rfc4648 s, ?_⟩
  · rw [decode32_eq, encode32_eq, decode_encode]
  · intro t ht
    rw [decode32_eq, decode, ← decodeFrom_filter, ht, encode32_eq]
    exact decode_encode s

/-- One byte, with a line break in its encoding. -/
theorem base64_round_trip_folded : decode32 (bytes "TQ\r\n==") = some (bytes "M") :=
  (base64_round_trip (bytes "M")).2.2.2.2 _ (by rw [encode32_eq]; decide +kernel)

end QuackMail.Base64
