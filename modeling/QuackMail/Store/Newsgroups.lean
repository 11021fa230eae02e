import QuackMail.Bytes

/-! # The newsgroups of the rooms

A room whose name is a newsgroup's is that newsgroup.  Any other is `ctdl.` and its name with
escapes.  The prefix keeps the two kinds apart, since no name that passes as it is begins with
it.
-/

namespace QuackMail.Citadel

/-! ## The two directions -/

def ctdlPrefix : Bytes := bytes "ctdl."

/-- `strncasecmp(name, "ctdl.", 5) == 0` on a name that is long enough. -/
def converted (name : Bytes) : Bool := lower (name.take 5) == ctdlPrefix

/-- `IsValidNewsgroupName`. -/
def isValidNewsgroupName (name : Bytes) : Bool :=
  !converted name && name.all (fun c => isAlnum c || c == ch '.' || c == ch '+' || c == ch '-') &&
    name.any isAlpha && decide (1 ≤ name.count (ch '.'))

/-- A digit of `%02x`. -/
def hexDigit (n : Nat) : Byte := UInt8.ofNat (if n < 10 then 48 + n else 87 + n)

/-- What a byte of a room name becomes. -/
def newsgroupByte (c : Byte) : Bytes :=
  if isAlnum c || c == ch '.' || c == ch '-' then [toLower c]
  else [ch '+', hexDigit (c.toNat / 16), hexDigit (c.toNat % 16)]

/-- `RoomToNewsgroup`. -/
def roomToNewsgroup (room : Bytes) : Bytes :=
  if isValidNewsgroupName room then room else ctdlPrefix ++ room.flatMap newsgroupByte

def hexVal (c : Byte) : Option Nat :=
  if isDigit c then some (c.toNat - 48)
  else if ch 'a' ≤ toLower c && toLower c ≤ ch 'f' then some ((toLower c).toNat - 87)
  else none

def hexFrom (val : Nat) : Bytes → Nat
  | [] => val
  | c :: s =>
    match hexVal c with
    | some d => hexFrom (val * 16 + d) s
    | none => val

/-- `std::strtol(s, nullptr, 16)` of two bytes.  They have no room for a `0x` with a digit. -/
def strtol16 (s : Bytes) : Int :=
  match s.dropWhile isSpace with
  | [] => 0
  | c :: rest =>
    if c = ch '-' then -(hexFrom 0 rest : Int)
    else if c = ch '+' then hexFrom 0 rest
    else hexFrom 0 (c :: rest)

/-- The loop of `NewsgroupToRoom`, after the prefix. -/
def unescape : Bytes → Bytes
  | c :: a :: b :: s =>
    if c = ch '+' then UInt8.ofNat (strtol16 [a, b] % 256).toNat :: unescape s
    else c :: unescape (a :: b :: s)
  | c :: s => c :: unescape s
  | [] => []

/-- `NewsgroupToRoom`. -/
def newsgroupToRoom (newsgroup : Bytes) : Bytes :=
  if converted newsgroup then unescape (newsgroup.drop 5) else newsgroup

/-! ## One byte -/

theorem hexDigit_spec : ∀ n < 16, hexVal (hexDigit n) = some n ∧ isSpace (hexDigit n) = false ∧
    hexDigit n ≠ ch '-' ∧ hexDigit n ≠ ch '+' := by decide +kernel

example : hexVal (hexDigit 10) = some 10 := by decide +kernel

theorem strtol16_hexDigits {a b : Nat} (ha : a < 16) (hb : b < 16) :
    strtol16 [hexDigit a, hexDigit b] = (a * 16 + b : Nat) := by
  obtain ⟨hval, hspace, hminus, hplus⟩ := hexDigit_spec a ha
  have hvalb : hexVal (hexDigit b) = some b := (hexDigit_spec b hb).1
  rw [strtol16, List.dropWhile_cons_of_neg (by simp [hspace])]
  simp [hminus, hplus, hexFrom, hval, hvalb]

theorem unescape_hexDigits (c : Byte) : UInt8.ofNat
    (strtol16 [hexDigit (c.toNat / 16), hexDigit (c.toNat % 16)] % 256).toNat = c := by
  have hlt : c.toNat < 256 := c.toNat_lt
  have hbyte : ((c.toNat / 16 * 16 + c.toNat % 16 : Nat) % 256 : Int).toNat = c.toNat := by
    omega
  rw [strtol16_hexDigits (by omega) (by omega), hbyte]
  exact UInt8.ofNat_toNat

/-- What a byte is after both directions: letters have lost their case. -/
theorem unescape_newsgroupByte (c : Byte) (s : Bytes) :
    ∃ d, toLower d = toLower c ∧ unescape (newsgroupByte c ++ s) = d :: unescape s := by
  have hplain : ∀ c : Byte, (isAlnum c || c == ch '.' || c == ch '-') = true →
      toLower c ≠ ch '+' :=
    forall_byte (by decide +kernel)
  rw [newsgroupByte]
  split
  · next h =>
    refine ⟨toLower c, toLower_toLower c, ?_⟩
    rw [List.singleton_append]
    -- the loop looks two bytes ahead
    match s with
    | [] => simp [unescape]
    | [a] => simp [unescape]
    | a :: b :: s => simp [unescape, hplain c h]
  · exact ⟨c, rfl, by simp [unescape, unescape_hexDigits]⟩

theorem lower_unescape (room : Bytes) :
    lower (unescape (room.flatMap newsgroupByte)) = lower room := by
  induction room with
  | nil => rfl
  | cons c room ih =>
    obtain ⟨d, hd, hunescape⟩ := unescape_newsgroupByte c (room.flatMap newsgroupByte)
    rw [List.flatMap_cons, hunescape]
    simp only [lower, List.map_cons, hd] at ih ⊢
    rw [ih]

/-- The bytes of a newsgroup. -/
def newsgroupChar (c : Byte) : Bool :=
  isAlnum c || c == ch '.' || c == ch '-' || c == ch '+'

theorem newsgroupByte_chars (c : Byte) :
    ∀ d ∈ newsgroupByte c, newsgroupChar d = true ∧ toLower d = d := by
  apply forall_mem_of_all
  revert c
  apply forall_byte
  decide +kernel

/-! ## Whole names -/

theorem converted_append (s : Bytes) : converted (ctdlPrefix ++ s) = true := by
  have hlength : ctdlPrefix.length = 5 := by decide
  have hlower : lower ctdlPrefix = ctdlPrefix := by decide
  rw [converted, List.take_append_of_le_length (by omega), List.take_of_length_le (by omega),
    hlower]
  simp

theorem not_converted {name : Bytes} (h : isValidNewsgroupName name = true) :
    converted name = false := by
  simp only [isValidNewsgroupName, Bool.and_eq_true, Bool.not_eq_true'] at h
  exact h.1.1.1

theorem converted_lower (name : Bytes) : converted (lower name) = converted name := by
  rw [converted, converted]
  simp only [lower, List.map_take, List.map_map]
  congr 2
  simp

/-- A room comes back from its newsgroup, but for the case of its letters. -/
theorem newsgroupToRoom_roomToNewsgroup (room : Bytes) :
    lower (newsgroupToRoom (roomToNewsgroup room)) = lower room := by
  rw [roomToNewsgroup]
  cases hvalid : isValidNewsgroupName room with
  | true => simp [newsgroupToRoom, not_converted hvalid]
  | false =>
    have hdrop : (ctdlPrefix ++ room.flatMap newsgroupByte).drop 5 =
        room.flatMap newsgroupByte := rfl
    simp only [Bool.false_eq_true, if_false]
    rw [newsgroupToRoom, if_pos (converted_append _), hdrop, lower_unescape]

/-- A converted name has no upper case letters. -/
theorem lower_converted (room : Bytes) :
    lower (ctdlPrefix ++ room.flatMap newsgroupByte) =
      ctdlPrefix ++ room.flatMap newsgroupByte := by
  have hlower : lower ctdlPrefix = ctdlPrefix := by decide
  rw [lower_append, hlower]
  congr 1
  rw [lower, List.map_congr_left (g := id), List.map_id]
  intro d hd
  obtain ⟨c, -, hd⟩ := List.mem_flatMap.mp hd
  exact (newsgroupByte_chars c d hd).2

/-- Two rooms share a newsgroup, up to case, only if they share their name. -/
theorem lower_eq_of_roomToNewsgroup {room other : Bytes}
    (h : lower (roomToNewsgroup room) = lower (roomToNewsgroup other)) :
    lower room = lower other := by
  -- a name that passes as it is has no prefix, a converted one has
  have happart {n m : Bytes} (hn : isValidNewsgroupName n = true)
      (heq : lower n = ctdlPrefix ++ m.flatMap newsgroupByte) : False := by
    have hconverted : converted (lower n) = true := by
      rw [heq]
      exact converted_append _
    rw [converted_lower, not_converted hn] at hconverted
    cases hconverted
  have hroom := newsgroupToRoom_roomToNewsgroup room
  have hother := newsgroupToRoom_roomToNewsgroup other
  rw [roomToNewsgroup] at h hroom
  rw [roomToNewsgroup] at h hother
  cases hn : isValidNewsgroupName room with
  | true =>
    cases hm : isValidNewsgroupName other with
    | true => simpa [hn, hm] using h
    | false =>
      simp only [hn, hm, Bool.false_eq_true, if_true, if_false, lower_converted] at h
      exact (happart hn h).elim
  | false =>
    cases hm : isValidNewsgroupName other with
    | true =>
      simp only [hn, hm, Bool.false_eq_true, if_true, if_false, lower_converted] at h
      exact (happart hm h.symm).elim
    | false =>
      simp only [hn, hm, Bool.false_eq_true, if_false, lower_converted] at h hroom hother
      rw [← hroom, h, hother]

theorem roomToNewsgroup_chars (room : Bytes) :
    ∀ c ∈ roomToNewsgroup room, newsgroupChar c = true := by
  intro c hc
  rw [roomToNewsgroup] at hc
  cases hvalid : isValidNewsgroupName room with
  | true =>
    simp only [hvalid, if_true] at hc
    simp only [isValidNewsgroupName, Bool.and_eq_true] at hvalid
    have := List.all_eq_true.mp hvalid.1.1.2 c hc
    simp only [newsgroupChar, Bool.or_eq_true] at this ⊢
    tauto
  | false =>
    simp only [hvalid, Bool.false_eq_true, if_false, List.mem_append] at hc
    obtain hc | hc := hc
    · have hprefix : ∀ c ∈ ctdlPrefix, newsgroupChar c = true := by decide +kernel
      exact hprefix c hc
    · obtain ⟨d, -, hd⟩ := List.mem_flatMap.mp hc
      exact (newsgroupByte_chars d c hd).1

/-- The newsgroups are a faithful encoding of the room names up to case, in letters, digits,
    `.`, `-` and `+`. -/
theorem newsgroups_faithful :
    (∀ room, lower (newsgroupToRoom (roomToNewsgroup room)) = lower room) ∧
      (∀ room other, lower room ≠ lower other →
        lower (roomToNewsgroup room) ≠ lower (roomToNewsgroup other)) ∧
      ∀ room, ∀ c ∈ roomToNewsgroup room, newsgroupChar c = true :=
  ⟨newsgroupToRoom_roomToNewsgroup,
    fun _ _ hne h => hne (lower_eq_of_roomToNewsgroup h),
    roomToNewsgroup_chars⟩

end QuackMail.Citadel
