import QuackMail.Bytes

/-! # Base64

`Base64Encode` and `Base64Decode` of `util.cpp`: bits are collected in `val` and
taken off in groups of six or eight.  `n` counts the bits collected and not yet
taken off.  The decoder skips `=` and white space wherever they stand.
-/

namespace QuackMail.Base64

/-- `kEnc`. -/
def alphabet : Bytes :=
  bytes "ABCDEFGHIJKLMNOPQRSTUVWXYZabcdefghijklmnopqrstuvwxyz0123456789+/"

def encChar (i : Nat) : Byte := alphabet.getD i 0

/-- The entry of the decoding table, `none` for -1. -/
def decChar (c : Byte) : Option Nat := alphabet.idxOf? c

/-- Six bits of `val` above its lowest `shift` bits, as a character. -/
def sextet (val shift : Nat) : Byte := encChar ((val >>> shift) % 64)

/-- Take off groups of six while there are any: at most two after a byte. -/
def drain (val n : Nat) : Bytes × Nat :=
  if n ≥ 12 then ([sextet val (n - 6), sextet val (n - 12)], n - 12)
  else if n ≥ 6 then ([sextet val (n - 6)], n - 6)
  else ([], n)

def encodeFrom : Nat → Nat → Bytes → Bytes
  | val, n, [] => if n > 0 then [sextet (val <<< 8) (n + 2)] else []
  | val, n, c :: s =>
    let val' := (val <<< 8) + c.toNat
    let r := drain val' (n + 8)
    r.1 ++ encodeFrom val' r.2 s

/-- Fill up with `=` to a multiple of four. -/
def pad (s : Bytes) : Bytes := s ++ List.replicate ((4 - s.length % 4) % 4) (ch '=')

def encode (s : Bytes) : Bytes := pad (encodeFrom 0 0 s)

def decodeFrom : Nat → Nat → Bytes → Option Bytes
  | _, _, [] => some []
  | val, n, c :: s =>
    if c = ch '=' ∨ isSpace c then decodeFrom val n s
    else
      match decChar c with
      | none => none
      | some d =>
        let val' := (val <<< 6) + d
        if n + 6 ≥ 8 then
          (decodeFrom val' (n + 6 - 8) s).map (UInt8.ofNat (val' >>> (n + 6 - 8)) :: ·)
        else decodeFrom val' (n + 6) s

def decode (s : Bytes) : Option Bytes := decodeFrom 0 0 s

/-- What the decoder has put out when it stops, at the end or at a byte it refuses. -/
def decodedFrom : Nat → Nat → Bytes → Bytes
  | _, _, [] => []
  | val, n, c :: s =>
    if c = ch '=' ∨ isSpace c then decodedFrom val n s
    else
      match decChar c with
      | none => []
      | some d =>
        let val' := (val <<< 6) + d
        if n + 6 ≥ 8 then UInt8.ofNat (val' >>> (n + 6 - 8)) :: decodedFrom val' (n + 6 - 8) s
        else decodedFrom val' (n + 6) s

def decoded (s : Bytes) : Bytes := decodedFrom 0 0 s

/-! ## The round trip -/

theorem decChar_encChar {i : Nat} (h : i < 64) : decChar (encChar i) = some i := by
  have : ∀ i < 64, decChar (encChar i) = some i := by
    simp only [decChar, encChar]
    rw [alphabet, bytes_ofList]
    decide +kernel
  exact this i h

theorem encChar_plain {i : Nat} (h : i < 64) :
    ¬(encChar i = ch '=' ∨ isSpace (encChar i) = true) := by
  have : ∀ i < 64, ¬(encChar i = ch '=' ∨ isSpace (encChar i) = true) := by
    simp only [encChar]
    rw [alphabet, bytes_ofList]
    decide +kernel
  exact this i h

/-- The characters of an encoding: the alphabet and the padding. -/
def IsChar (c : Byte) : Prop := c ∈ alphabet ∨ c = ch '='

theorem encChar_mem {i : Nat} (h : i < 64) : encChar i ∈ alphabet := by
  have hlength : alphabet.length = 64 := by
    rw [alphabet, bytes_ofList]
    rfl
  rw [encChar, List.getD_eq_getElem?_getD, List.getElem?_eq_getElem (by rwa [hlength])]
  exact List.getElem_mem _

/-- Decoding one encoded group of six bits. -/
theorem decodeFrom_sextet (v n w shift : Nat) (s : Bytes) :
    decodeFrom v n (sextet w shift :: s) =
      if n + 6 ≥ 8 then
        (decodeFrom (v * 64 + (w >>> shift) % 64) (n + 6 - 8) s).map
          (UInt8.ofNat ((v * 64 + (w >>> shift) % 64) >>> (n + 6 - 8)) :: ·)
      else decodeFrom (v * 64 + (w >>> shift) % 64) (n + 6) s := by
  have hlt : (w >>> shift) % 64 < 64 := Nat.mod_lt _ (by omega)
  rw [sextet, decodeFrom, if_neg (encChar_plain hlt), decChar_encChar hlt]
  simp [Nat.shiftLeft_eq]

theorem decodeFrom_pads (v n k : Nat) : decodeFrom v n (List.replicate k (ch '=')) = some [] := by
  induction k with
  | zero => rfl
  | succ k ih => rw [List.replicate_succ, decodeFrom, if_pos (.inl rfl), ih]

/-- Three bytes are four characters, whatever bits were there before. -/
theorem encodeFrom_group (v : Nat) (a b c : Byte) (s : Bytes) :
    encodeFrom v 0 (a :: b :: c :: s) =
      let w := ((v * 256 + a.toNat) * 256 + b.toNat) * 256 + c.toNat
      [sextet (v * 256 + a.toNat) 2, sextet ((v * 256 + a.toNat) * 256 + b.toNat) 4, sextet w 6,
        sextet w 0] ++ encodeFrom w 0 s := by
  simp [encodeFrom, drain, Nat.shiftLeft_eq]

/-- Four characters are three bytes again. -/
theorem decodeFrom_group (v v' : Nat) (a b c : Byte) (s : Bytes) :
    ∃ v'', decodeFrom v' 0 ([sextet (v * 256 + a.toNat) 2,
        sextet ((v * 256 + a.toNat) * 256 + b.toNat) 4,
        sextet (((v * 256 + a.toNat) * 256 + b.toNat) * 256 + c.toNat) 6,
        sextet (((v * 256 + a.toNat) * 256 + b.toNat) * 256 + c.toNat) 0] ++ s) =
      (decodeFrom v'' 0 s).map (fun t => a :: b :: c :: t) := by
  have ha := a.toNat_lt
  have hb := b.toNat_lt
  have hc := c.toNat_lt
  obtain ⟨w₁, hw₁⟩ : ∃ w, w = v * 256 + a.toNat := ⟨_, rfl⟩
  obtain ⟨w₂, hw₂⟩ : ∃ w, w = w₁ * 256 + b.toNat := ⟨_, rfl⟩
  obtain ⟨w₃, hw₃⟩ : ∃ w, w = w₂ * 256 + c.toNat := ⟨_, rfl⟩
  rw [← hw₁, ← hw₂, ← hw₃]
  refine ⟨(((v' * 64 + w₁ / 4 % 64) * 64 + w₂ / 16 % 64) * 64 + w₃ / 64 % 64) * 64 + w₃ % 64, ?_⟩
  simp only [List.cons_append, List.nil_append, decodeFrom_sextet]
  simp only [Nat.zero_add, Nat.reduceLeDiff, ge_iff_le, if_false, Nat.reduceAdd, Nat.reduceSub,
    if_true, Option.map_map, Nat.shiftRight_eq_div_pow, Nat.reducePow, Nat.div_one]
  congr 1
  funext t
  simp only [Function.comp_apply, List.cons.injEq, and_true]
  refine ⟨?_, ?_, ?_⟩
  · apply UInt8.toNat_inj.mp
    rw [UInt8.toNat_ofNat']
    omega
  · apply UInt8.toNat_inj.mp
    rw [UInt8.toNat_ofNat']
    omega
  · apply UInt8.toNat_inj.mp
    rw [UInt8.toNat_ofNat']
    omega

theorem decodeFrom_encodeFrom (s : Bytes) :
    ∀ v v' k, decodeFrom v' 0 (encodeFrom v 0 s ++ List.replicate k (ch '=')) = some s := by
  induction hn : s.length using Nat.strongRecOn generalizing s with
  | ind n ih =>
    intro v v' k
    match s, hn with
    | [], _ => exact decodeFrom_pads v' 0 k
    | [a], _ =>
      have ha := a.toNat_lt
      have henc : encodeFrom v 0 [a] =
          [sextet (v * 256 + a.toNat) 2, sextet ((v * 256 + a.toNat) * 256) 4] := by
        simp [encodeFrom, drain, Nat.shiftLeft_eq]
      rw [henc]
      simp only [List.cons_append, List.nil_append, decodeFrom_sextet]
      simp only [Nat.zero_add, Nat.reduceLeDiff, ge_iff_le, if_false, Nat.reduceAdd, Nat.reduceSub,
        if_true, decodeFrom_pads, Option.map_some, Nat.shiftRight_eq_div_pow, Nat.reducePow]
      congr 2
      apply UInt8.toNat_inj.mp
      rw [UInt8.toNat_ofNat']
      omega
    | [a, b], _ =>
      have ha := a.toNat_lt
      have hb := b.toNat_lt
      have henc : encodeFrom v 0 [a, b] = [sextet (v * 256 + a.toNat) 2,
          sextet ((v * 256 + a.toNat) * 256 + b.toNat) 4,
          sextet (((v * 256 + a.toNat) * 256 + b.toNat) * 256) 6] := by
        simp [encodeFrom, drain, Nat.shiftLeft_eq]
      rw [henc]
      simp only [List.cons_append, List.nil_append, decodeFrom_sextet]
      simp only [Nat.zero_add, Nat.reduceLeDiff, ge_iff_le, if_false, Nat.reduceAdd, Nat.reduceSub,
        if_true, decodeFrom_pads, Option.map_some, Nat.shiftRight_eq_div_pow, Nat.reducePow]
      congr 2
      · apply UInt8.toNat_inj.mp
        rw [UInt8.toNat_ofNat']
        omega
      · congr 1
        apply UInt8.toNat_inj.mp
        rw [UInt8.toNat_ofNat']
        omega
    | a :: b :: c :: s, hn =>
      rw [encodeFrom_group, List.append_assoc]
      obtain ⟨v'', hv⟩ := decodeFrom_group v v' a b c
        (encodeFrom (((v * 256 + a.toNat) * 256 + b.toNat) * 256 + c.toNat) 0 s ++
          List.replicate k (ch '='))
      rw [hv, ih s.length (by simp at hn; omega) s rfl]
      rfl

/-- Decoding gives back what was encoded. -/
theorem decode_encode (s : Bytes) : decode (encode s) = some s :=
  decodeFrom_encodeFrom s 0 0 _

/-- White space between the characters does not matter to the decoder. -/
theorem decodeFrom_filter (s : Bytes) :
    ∀ v n, decodeFrom v n (s.filter (fun c => !isSpace c)) = decodeFrom v n s := by
  induction s with
  | nil => intro v n; rfl
  | cons c s ih =>
    intro v n
    by_cases hc : isSpace c = true
    · rw [List.filter_cons_of_neg (by simp [hc]), decodeFrom, if_pos (.inr hc), ih]
    · rw [List.filter_cons_of_pos (by simp [hc]), decodeFrom, decodeFrom]
      simp [ih]

theorem mem_alphabet_of_mem_encodeFrom (s : Bytes) :
    ∀ (v n : Nat), ∀ c ∈ encodeFrom v n s, c ∈ alphabet := by
  have hsextet : ∀ v k, sextet v k ∈ alphabet := fun v k => encChar_mem (Nat.mod_lt _ (by omega))
  have hdrain : ∀ v n, ∀ c ∈ (drain v n).1, c ∈ alphabet := by
    intro v n c hc
    unfold drain at hc
    split at hc
    · simp only [List.mem_cons, List.not_mem_nil, or_false] at hc
      rcases hc with rfl | rfl
      · exact hsextet _ _
      · exact hsextet _ _
    · split at hc
      · rw [List.mem_singleton] at hc
        subst hc
        exact hsextet _ _
      · cases hc
  induction s with
  | nil =>
    intro v n c hc
    unfold encodeFrom at hc
    split at hc
    · rw [List.mem_singleton] at hc
      subst hc
      exact hsextet _ _
    · cases hc
  | cons a s ih =>
    intro v n c hc
    rcases List.mem_append.mp hc with hc | hc
    · exact hdrain _ _ c hc
    · exact ih _ _ c hc

theorem isChar_of_mem_encode {s : Bytes} {c : Byte} (h : c ∈ encode s) : IsChar c := by
  rcases List.mem_append.mp h with h | h
  · exact .inl (mem_alphabet_of_mem_encodeFrom s 0 0 c h)
  · exact .inr (List.eq_of_mem_replicate h)

end QuackMail.Base64
