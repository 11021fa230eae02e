import QuackMail.Dav.Identity
import QuackMail.Http.Request

/-! # Paths

`PercentEncode` of `http.cpp` beside `PercentDecode` and `NormalizePath`, and the names of resources
as segments of a path.  `strchr` finds the NUL that ends the safe set, so with a safe set a NUL
goes unescaped.
-/

namespace QuackMail.Http

open Dav (hexDigit nameForEuid euidForName isSafeNameByte)
open Dav.Naming (euidForName_nameForEuid)

/-! ## Encoding -/

def isUnreserved (c : Byte) : Bool :=
  isAlnum c || c == ch '-' || c == ch '.' || c == ch '_' || c == ch '~'

/-- The bytes that pass; `safe` is a C string. -/
def passes (safe : Bytes) (c : Byte) : Bool :=
  isUnreserved c || (decide (safe ≠ []) && (decide (c ∈ safe) || c == 0))

def percentEscape (c : Byte) : Bytes := [ch '%', hexDigit (c.toNat / 16), hexDigit (c.toNat % 16)]

def percentEncode (safe s : Bytes) : Bytes :=
  s.flatMap fun c => if passes safe c then [c] else percentEscape c

/-- An unreserved byte, one of the safe set, or an escape. -/
inductive Piece (safe : Bytes) : Bytes → Prop where
  | unreserved {c : Byte} (h : isUnreserved c = true) : Piece safe [c]
  | safe {c : Byte} (h : c ∈ safe) : Piece safe [c]
  | escape {h l : Byte} (hh : h ∈ bytes "0123456789ABCDEF") (hl : l ∈ bytes "0123456789ABCDEF") :
      Piece safe [ch '%', h, l]

def Encoded (safe e : Bytes) : Prop :=
  ∃ pieces : List Bytes, e = pieces.flatten ∧ ∀ p ∈ pieces, Piece safe p

theorem hexVal_hexDigit : ∀ n < 16, hexVal (hexDigit n) = some n := by decide

theorem hexDigit_mem : ∀ n < 16, hexDigit n ∈ bytes "0123456789ABCDEF" := by decide

variable {c : Byte} {safe euid : Bytes} {trail : Bool}

theorem percentDecode_cons {plus : Bool} (hpercent : c ≠ ch '%') (hplus : c ≠ ch '+')
    (s : Bytes) : percentDecode plus (c :: s) = c :: percentDecode plus s := by
  rw [percentDecode.eq_def]
  simp [hpercent, hplus]

theorem percentDecode_escape (plus : Bool) (c : Byte) (s : Bytes) :
    percentDecode plus (percentEscape c ++ s) = c :: percentDecode plus s := by
  have hhi := hexVal_hexDigit (c.toNat / 16) (by have := c.toNat_lt; omega)
  have hlo := hexVal_hexDigit (c.toNat % 16) (by omega)
  have hplus : (plus && ch '%' == ch '+') = false := by cases plus <;> decide
  rw [percentEscape, List.cons_append, List.cons_append, List.cons_append, List.nil_append,
    percentDecode.eq_def]
  simp only [hplus, hhi, hlo, if_true, Bool.false_eq_true, if_false]
  rw [Nat.div_add_mod', UInt8.ofNat_toNat]

/-- A byte that passes is no `%` and no `+`. -/
theorem passes_plain (hpercent : ch '%' ∉ safe) (hplus : ch '+' ∉ safe)
    (h : passes safe c = true) : c ≠ ch '%' ∧ c ≠ ch '+' := by
  constructor
  · rintro rfl
    simp [passes, hpercent, show isUnreserved (ch '%') = false by decide,
      show (ch '%' == 0) = false by decide] at h
  · rintro rfl
    simp [passes, hplus, show isUnreserved (ch '+') = false by decide,
      show (ch '+' == 0) = false by decide] at h

theorem percentDecode_percentEncode {safe : Bytes} (hpercent : ch '%' ∉ safe)
    (hplus : ch '+' ∉ safe) (plus : Bool) (s : Bytes) :
    percentDecode plus (percentEncode safe s) = s := by
  induction s with
  | nil => rfl
  | cons c s ih =>
    rw [percentEncode, List.flatMap_cons]
    split
    · next h =>
      obtain ⟨hc, hc'⟩ := passes_plain hpercent hplus h
      rw [List.singleton_append, percentDecode_cons hc hc']
      exact congrArg _ ih
    · rw [percentDecode_escape]
      exact congrArg _ ih

theorem not_mem_of_encoded {e : Bytes} (hsafe : 0 ∉ safe) (h : Encoded safe e) : 0 ∉ e := by
  obtain ⟨pieces, rfl, hpieces⟩ := h
  intro hmem
  obtain ⟨p, hp, hzero⟩ := List.mem_flatten.mp hmem
  cases hpieces p hp with
  | unreserved h =>
    rw [List.mem_singleton] at hzero
    subst hzero
    exact absurd h (by decide)
  | safe h =>
    rw [List.mem_singleton] at hzero
    subst hzero
    exact hsafe h
  | escape hh hl =>
    have hdigits : 0 ∉ bytes "0123456789ABCDEF" := by decide
    simp only [List.mem_cons, List.not_mem_nil, or_false] at hzero
    rcases hzero with hzero | rfl | rfl
    · exact absurd hzero (by decide)
    · exact hdigits hh
    · exact hdigits hl

/-- Exactly a NUL that passes is none of what the encoding should be made of. -/
theorem encoded_percentEncode (hsafe : 0 ∉ safe) (s : Bytes) :
    Encoded safe (percentEncode safe s) ↔ safe = [] ∨ 0 ∉ s := by
  constructor
  · intro h
    by_contra hnot
    obtain ⟨hne, hmem⟩ := not_or.mp hnot
    refine not_mem_of_encoded hsafe h ?_
    refine List.mem_flatMap.mpr ⟨0, not_not.mp hmem, ?_⟩
    simp [passes, hne]
  · intro h
    refine ⟨s.map fun c => if passes safe c then [c] else percentEscape c, ?_, ?_⟩
    · rw [percentEncode, List.flatMap_def]
    · intro p hp
      obtain ⟨c, hc, rfl⟩ := List.mem_map.mp hp
      split
      · next hpasses =>
        simp only [passes, Bool.or_eq_true, Bool.and_eq_true, decide_eq_true_eq,
          beq_iff_eq] at hpasses
        rcases hpasses with hunreserved | ⟨hne, hin | rfl⟩
        · exact .unreserved hunreserved
        · exact .safe hin
        · exact absurd hc (h.resolve_left hne)
      · exact .escape (hexDigit_mem _ (by have := c.toNat_lt; omega)) (hexDigit_mem _ (by omega))

/-! ## Normal paths -/

/-- The segments that are not empty. -/
def segments (path : Bytes) : List Bytes := (splitOn (ch '/') (path.drop 1)).filter (· ≠ [])

/-- A path in normal form: a slash at the end may stay. -/
structure Normal (path : Bytes) : Prop where
  rooted : path.head? = some (ch '/')
  full : ∀ s ∈ (splitOn (ch '/') (path.drop 1)).dropLast, s ≠ []
  dotless : ∀ s ∈ splitOn (ch '/') (path.drop 1), s ≠ bytes "." ∧ s ≠ bytes ".."
  printable : ∀ c ∈ path, ¬c < 0x20 ∧ c ≠ 0x7f
  fixed : normalizePath path = some path

theorem flatMap_slash {pieces : List Bytes} (h : pieces ≠ []) :
    pieces.flatMap (ch '/' :: ·) = ch '/' :: joinWith (ch '/') pieces := by
  induction pieces with
  | nil => exact absurd rfl h
  | cons p pieces ih =>
    cases pieces with
    | nil => simp [joinWith]
    | cons q pieces =>
      have hne : q :: pieces ≠ [] := List.cons_ne_nil q pieces
      rw [List.flatMap_cons, ih hne, joinWith.eq_3 _ _ _ hne, List.cons_append]

/-- A segment that may stand in a path. -/
def Clean (p : Bytes) : Prop :=
  ch '/' ∉ p ∧ p ≠ bytes "." ∧ p ≠ bytes ".." ∧ ∀ c ∈ p, ¬c < 0x20 ∧ c ≠ 0x7f

/-- The path of the segments, with a slash at the end or without. -/
def pathOf (kept : List Bytes) (trail : Bool) : Bytes :=
  kept.flatMap (ch '/' :: ·) ++ if trail then bytes "/" else []

theorem pathOf_eq {kept : List Bytes} (h : kept ≠ [] ∨ trail = true) :
    pathOf kept trail = ch '/' :: joinWith (ch '/') (kept ++ if trail then [[]] else []) := by
  rw [← flatMap_slash, pathOf, List.flatMap_append]
  · cases trail <;> rfl
  · cases trail with
    | true => simp
    | false => simpa using h

theorem splitOn_pathOf {kept : List Bytes} (h : kept ≠ [] ∨ trail = true)
    (hclean : ∀ p ∈ kept, Clean p) : splitOn (ch '/') ((pathOf kept trail).drop 1) =
      kept ++ if trail then [[]] else [] := by
  rw [pathOf_eq h, List.drop_one, List.tail_cons, splitOn_joinWith]
  · cases trail with
    | true => simp
    | false => simpa using h
  · intro p hp
    rcases List.mem_append.mp hp with hp | hp
    · exact (hclean p hp).1
    · cases trail with
      | true => rw [List.mem_singleton.mp hp]; exact List.not_mem_nil
      | false => cases hp

/-- What `NormalizePath` writes of a path that it takes. -/
theorem normalizePath_eq {decoded : Bytes} (hroot : decoded.head? = some (ch '/'))
    (hchars : ∀ c ∈ decoded, ¬c < 0x20 ∧ c ≠ 0x7f)
    (hdots : ∀ s ∈ splitOn (ch '/') (decoded.drop 1), s ≠ bytes "." ∧ s ≠ bytes "..") :
    normalizePath decoded = some (pathOf (segments decoded) (decide (segments decoded = [] ∨
      1 < decoded.length ∧ decoded.getLast? = some (ch '/')))) := by
  have hchars' : ¬(decoded.any fun c => c < 0x20 || c == 0x7f) = true := by
    simpa only [List.any_eq_true, Bool.or_eq_true, decide_eq_true_eq, beq_iff_eq, not_exists,
      not_and, not_or] using hchars
  have hdots' : ¬((splitOn (ch '/') (decoded.drop 1)).any fun s =>
      s == bytes "." || s == bytes "..") = true := by
    simpa only [List.any_eq_true, Bool.or_eq_true, beq_iff_eq, not_exists, not_and, not_or]
      using hdots
  rw [normalizePath, if_neg (not_not.mpr hroot), if_neg hchars']
  rw [if_neg hdots']
  change (if segments decoded = [] then _ else some ((segments decoded).flatMap _ ++ _)) = _
  split
  · next hnil =>
    rw [hnil]
    rfl
  · next hsome => simp [pathOf, hsome]

theorem getLast_pathOf {kept : List Bytes} (hne : ∀ p ∈ kept, p ≠ []) (trail : Bool)
    (hclean : ∀ p ∈ kept, Clean p) :
    (pathOf kept trail).getLast? = some (ch '/') ↔ trail = true := by
  cases trail with
  | true => simp [pathOf, bytes]
  | false =>
    simp only [Bool.false_eq_true, iff_false]
    obtain rfl | ⟨front, p, rfl⟩ := List.eq_nil_or_concat kept
    · simp [pathOf]
    · have hp := hne p (by simp)
      have hslash := (hclean p (by simp)).1
      obtain ⟨x, c, rfl⟩ := (List.eq_nil_or_concat p).resolve_left hp
      simp only [List.concat_eq_append, List.mem_append, List.mem_singleton, not_or] at hslash
      have hlast : (pathOf (front.concat (x.concat c)) false).getLast? = some c := by
        simp [pathOf, List.getLast?_cons]
      rw [hlast, Option.some.injEq]
      exact fun h => hslash.2 h.symm

/-- What `NormalizePath` writes of a path. -/
theorem normalizePath_pathOf {kept : List Bytes} {trail : Bool} (h : kept ≠ [] ∨ trail = true)
    (hne : ∀ p ∈ kept, p ≠ []) (hclean : ∀ p ∈ kept, Clean p) : Normal (pathOf kept trail) ∧
      segments (pathOf kept trail) = kept := by
  have hsplit := splitOn_pathOf h hclean
  have hmem : ∀ p ∈ kept ++ (if trail then [[]] else []), p = [] ∨ p ∈ kept := by
    intro p hp
    rcases List.mem_append.mp hp with hp | hp
    · exact .inr hp
    · cases trail with
      | true => exact .inl (List.mem_singleton.mp hp)
      | false => cases hp
  have hroot : (pathOf kept trail).head? = some (ch '/') := by rw [pathOf_eq h]; rfl
  have hkept : (kept ++ if trail then [[]] else []).filter (· ≠ []) = kept := by
    have hself : kept.filter (· ≠ []) = kept :=
      List.filter_eq_self.mpr fun p hp => decide_eq_true (hne p hp)
    rw [List.filter_append, hself]
    cases trail <;> simp
  have hdotless : ∀ s ∈ splitOn (ch '/') ((pathOf kept trail).drop 1),
      s ≠ bytes "." ∧ s ≠ bytes ".." := by
    intro s hs
    rw [hsplit] at hs
    rcases hmem s hs with rfl | hs
    · exact ⟨by decide, by decide⟩
    · exact ⟨(hclean s hs).2.1, (hclean s hs).2.2.1⟩
  have hprintable : ∀ c ∈ pathOf kept trail, ¬c < 0x20 ∧ c ≠ 0x7f := by
    intro c hc
    have hslash : ¬ch '/' < 0x20 ∧ ch '/' ≠ 0x7f := by decide
    rcases List.mem_append.mp hc with hc | hc
    · obtain ⟨p, hp, hc⟩ := List.mem_flatMap.mp hc
      rcases List.mem_cons.mp hc with rfl | hc
      · exact hslash
      · exact (hclean p hp).2.2.2 c hc
    · cases trail with
      | true => rw [List.mem_singleton.mp hc]; exact hslash
      | false => cases hc
  refine ⟨⟨hroot, ?_, hdotless, hprintable, ?_⟩, by rw [segments, hsplit, hkept]⟩
  · intro s hs
    rw [hsplit] at hs
    cases trail with
    | true => exact hne s (by simpa using hs)
    | false => exact hne s (List.mem_of_mem_dropLast (by simpa using hs))
  · have hsegments : segments (pathOf kept trail) = kept := by rw [segments, hsplit, hkept]
    have htrail : decide (kept = [] ∨ 1 < (pathOf kept trail).length ∧
        (pathOf kept trail).getLast? = some (ch '/')) = trail := by
      simp only [getLast_pathOf hne trail hclean]
      by_cases hnil : kept = []
      · simp [hnil, h.resolve_left (not_not.mpr hnil)]
      · obtain ⟨p, rest, rfl⟩ := List.exists_cons_of_ne_nil hnil
        have hp := List.length_pos_of_ne_nil (hne p List.mem_cons_self)
        have hlong : 1 < (pathOf (p :: rest) trail).length := by
          simp [pathOf]
          omega
        simp [hlong]
    rw [normalizePath_eq hroot hprintable hdotless, hsegments, htrail]

theorem normalizePath_normal {decoded out : Bytes} (h : normalizePath decoded = some out) :
    Normal out ∧ segments out = segments decoded := by
  have htaken : decoded.head? = some (ch '/') ∧ (∀ c ∈ decoded, ¬c < 0x20 ∧ c ≠ 0x7f) ∧
      ∀ s ∈ splitOn (ch '/') (decoded.drop 1), s ≠ bytes "." ∧ s ≠ bytes ".." := by
    rw [normalizePath] at h
    split at h
    · cases h
    split at h
    · cases h
    next hroot hchars =>
    dsimp only at h
    split at h
    · cases h
    next hdots =>
    simp only [List.any_eq_true, Bool.or_eq_true, beq_iff_eq, not_exists, not_and, not_or,
      decide_eq_true_eq] at hchars hdots
    exact ⟨not_not.mp hroot, hchars, hdots⟩
  obtain ⟨hroot, hchars, hdots⟩ := htaken
  rw [normalizePath_eq hroot hchars hdots] at h
  rw [← Option.some.inj h]
  refine normalizePath_pathOf ?_ (fun p hp => of_decide_eq_true (List.mem_filter.mp hp).2) ?_
  · rw [decide_eq_true_eq]
    tauto
  · intro p hp
    have hsplit := (List.mem_filter.mp hp).1
    obtain ⟨hslash, hsub⟩ := mem_splitOn hsplit
    obtain ⟨hdot, hdotdot⟩ := hdots p hsplit
    exact ⟨hslash, hdot, hdotdot, fun c hc => hchars c (List.mem_of_mem_drop (hsub c hc))⟩

/-! ## Results -/

/-- What coding a text and normalizing a path should do. -/
structure Consistent (safe s raw : Bytes) : Prop where
  decoded : ∀ plus, percentDecode plus (percentEncode safe s) = s
  encoded : Encoded safe (percentEncode safe s)
  normal : ∀ plus out, normalizePath (percentDecode plus raw) = some out →
    Normal out ∧ segments out = segments (percentDecode plus raw)

/-- They are exactly where no NUL goes unescaped. -/
theorem consistent_iff (hpercent : ch '%' ∉ safe) (hplus : ch '+' ∉ safe)
    (hsafe : 0 ∉ safe) (s raw : Bytes) : Consistent safe s raw ↔ safe = [] ∨ 0 ∉ s := by
  rw [← encoded_percentEncode hsafe s]
  constructor
  · exact fun h => h.encoded
  · exact fun h => ⟨fun plus => percentDecode_percentEncode hpercent hplus plus s, h,
      fun _ _ => normalizePath_normal⟩

theorem consistent_iff_slash : Consistent (bytes "/") (bytes "a b") (bytes "/a%2Fb/") ↔
    bytes "/" = [] ∨ 0 ∉ bytes "a b" :=
  consistent_iff (by decide) (by decide) (by decide) (bytes "a b") (bytes "/a%2Fb/")

/-- A NUL goes unescaped beside a safe set. -/
theorem nul_unescaped : percentEncode (bytes "/") [0] = [0] ∧ ¬Encoded (bytes "/") [0] ∧
    ¬Consistent (bytes "/") [0] [] := by
  have hself : percentEncode (bytes "/") [0] = [0] := by decide +kernel
  have hnot : ¬Encoded (bytes "/") [0] := fun h =>
    not_mem_of_encoded (by decide) h List.mem_cons_self
  refine ⟨hself, hnot, fun h => hnot ?_⟩
  exact h.encoded

/-- A byte of a name. -/
def isNameByte (c : Byte) : Bool := isSafeNameByte c || c == ch '~'

theorem nameForEuid_bytes (euid : Bytes) : ∀ c ∈ nameForEuid euid, isNameByte c = true := by
  have hdigits : ∀ n < 16, isNameByte (hexDigit n) = true := by decide
  have hescaped : ∀ d : Byte, ∀ c ∈ Dav.escaped d, isNameByte c = true := by
    intro d c hc
    simp only [Dav.escaped, List.mem_cons, List.not_mem_nil, or_false] at hc
    rcases hc with rfl | rfl | rfl
    · decide
    · exact hdigits _ (by have := d.toNat_lt; omega)
    · exact hdigits _ (by omega)
  have htail : ∀ c ∈ Dav.nameTail euid, isNameByte c = true := by
    intro c hc
    obtain ⟨d, -, hc⟩ := List.mem_flatMap.mp hc
    split at hc
    · next hd =>
      rw [List.mem_singleton.mp hc]
      simp [isNameByte, hd]
    · exact hescaped d c hc
  cases euid with
  | nil => exact fun c hc => by cases hc
  | cons d euid =>
    intro c hc
    rcases List.mem_append.mp hc with hc | hc
    · split at hc
      · next hd =>
        rw [Bool.and_eq_true] at hd
        rw [List.mem_singleton.mp hc]
        simp [isNameByte, hd.1]
      · exact hescaped d c hc
    · refine htail c ?_
      exact List.mem_append_right _ hc

theorem nameForEuid_head : (nameForEuid euid).head? ≠ some (ch '.') := by
  cases euid with
  | nil => simp [nameForEuid]
  | cons c euid =>
    rw [nameForEuid]
    split
    · next h =>
      simp at h
      simp [h]
    · simp [Dav.escaped]
      decide

/-- Every euid has a name of its own, a segment that no coding and no normalizing changes. -/
theorem names_are_segments (h : euid ≠ []) : euidForName (nameForEuid euid) = euid ∧
      (∀ other, nameForEuid other = nameForEuid euid → other = euid) ∧
      nameForEuid euid ≠ [] ∧
      (∀ c ∈ nameForEuid euid,
        isAlnum c = true ∨ c = ch '.' ∨ c = ch '_' ∨ c = ch '-' ∨ c = ch '~') ∧
      nameForEuid euid ≠ bytes "." ∧ nameForEuid euid ≠ bytes ".." ∧
      (∀ safe, percentEncode safe (nameForEuid euid) = nameForEuid euid) ∧
      (∀ plus, percentDecode plus (nameForEuid euid) = nameForEuid euid) ∧
      normalizePath (ch '/' :: nameForEuid euid) = some (ch '/' :: nameForEuid euid) := by
  have hbytes := nameForEuid_bytes euid
  have hhead : (nameForEuid euid).head? ≠ some (ch '.') := nameForEuid_head
  have hne := Dav.Naming.nameForEuid_ne h
  have hplain : ∀ c, isNameByte c = true → isUnreserved c = true ∧ c ≠ ch '%' ∧ c ≠ ch '+' ∧
      c ≠ ch '/' ∧ ¬c < 0x20 ∧ c ≠ 0x7f :=
    forall_byte (by decide +kernel)
  have hdot : nameForEuid euid ≠ bytes "." := fun heq => hhead (by rw [heq]; rfl)
  have hdots : nameForEuid euid ≠ bytes ".." := fun heq => hhead (by rw [heq]; rfl)
  have hencode : ∀ safe, percentEncode safe (nameForEuid euid) = nameForEuid euid := by
    intro safe
    conv_rhs => rw [← List.flatMap_singleton' (nameForEuid euid)]
    refine List.flatMap_congr fun c hc => ?_
    rw [if_pos (by simp [passes, (hplain c (hbytes c hc)).1])]
  refine ⟨euidForName_nameForEuid euid, ?_, hne, ?_, hdot, hdots, hencode, ?_, ?_⟩
  · intro other heq
    rw [← euidForName_nameForEuid other, heq, euidForName_nameForEuid]
  · intro c hc
    have hc := hbytes c hc
    simp only [isNameByte, isSafeNameByte, Bool.or_eq_true, beq_iff_eq] at hc
    obtain (((h | h) | h) | h) | h := hc
    · exact .inl h
    · exact .inr (.inl h)
    · exact .inr (.inr (.inl h))
    · exact .inr (.inr (.inr (.inl h)))
    · exact .inr (.inr (.inr (.inr h)))
  · intro plus
    have h := @percentDecode_percentEncode [] List.not_mem_nil List.not_mem_nil plus
      (nameForEuid euid)
    rwa [hencode] at h
  · have hclean : Clean (nameForEuid euid) :=
      ⟨fun hc => (hplain _ (hbytes _ hc)).2.2.2.1 rfl, hdot, hdots,
        fun c hc => (hplain c (hbytes c hc)).2.2.2.2⟩
    have hnormal := (@normalizePath_pathOf [nameForEuid euid] false
      (.inl (by simp)) (by simpa using hne) (by simpa using hclean)).1.fixed
    simpa [pathOf] using hnormal

theorem names_are_segments_dots : bytes ".." ≠ [] ∧
    euidForName (nameForEuid (bytes "..")) = bytes ".." :=
  ⟨by decide, (names_are_segments (by decide)).1⟩

end QuackMail.Http
