import Mathlib.Data.List.Dedup
import Mathlib.Data.List.Sort
import QuackMail.Jmap.Mailboxes

/-! # The floors a user may create rooms on

`CreatableFloors` asks one query for the stored grants with `k` in place of the rights of every
room.  Of a public room a user who is no aide is derived no `k`, so the two could only part over
the stored grants.  They do: the rights of an identifier are those of its first row, and the
query looks at every row that spells it in some case.
-/

namespace QuackMail.Jmap

open Citadel Imap

/-! ## `CreatableFloors` -/

/-- `lower(identifier) = lower($1) OR lower(identifier) = 'anyone'`. -/
def speaksOf (sql : SqlLower) (username : Bytes) (g : Grant) : Bool :=
  decide (sql g.identifier = sql username ∨ sql g.identifier = anyone)

/-- `SELECT DISTINCT room_num`: the rooms with a grant of `k` to the user or to everybody. -/
def grantedRooms (m : Realm) (username : Bytes) : List Nat :=
  ((m.acl.filter fun g => g.rights.contains (ch 'k') && speaksOf m.dir.sqlLower username g).map
    Grant.roomNum).dedup

/-- A round of the loop over the rooms. -/
def collectFloor (aide : Bool) (granted : List Nat) (out : List Int) (room : Room) : List Int :=
  if room.mailboxOwner ≠ 0 then out
  else if !aide && decide (room.roomNum ∉ granted) then out
  else if room.floorNum ∈ out then out
  else out ++ [room.floorNum]

def creatableFloors (t : Tables) (username : Bytes) : List Int :=
  if anonymous username then []
  else
    let aide := decide (kAideAxLevel ≤ getAxLevel t.realm username)
    let granted := if aide then [] else grantedRooms t.realm username
    if !aide && granted.isEmpty then []
    else ((listRooms t username).foldl (collectFloor aide granted) []).insertionSort (· ≤ ·)

/-! ## What the list is for -/

/-- Some public room on the floor is listed, and the user has `k` on it. -/
def Creatable (t : Tables) (username : Bytes) (floor : Int) : Prop :=
  ∃ room ∈ listRooms t username, room.mailboxOwner = 0 ∧ room.floorNum = floor ∧
    ch 'k' ∈ effectiveRights t.realm username room

/-- The floors are listed in order, each once, and they are those. -/
structure FloorsExact (t : Tables) (username : Bytes) : Prop where
  ascending : (creatableFloors t username).Pairwise (· < ·)
  floors : ∀ floor, floor ∈ creatableFloors t username ↔ Creatable t username floor

/-- A row that grants `k` in the room to the user or to everybody. -/
def HasRow (m : Realm) (username : Bytes) (room : Room) : Prop :=
  ∃ g ∈ m.acl, g.roomNum = room.roomNum ∧ ch 'k' ∈ g.rights ∧ speaksOf m.dir.sqlLower username g = true

/-- The first row of the user or of everybody in the room grants `k`. -/
def HasFirst (m : Realm) (username : Bytes) (room : Room) : Prop :=
  ch 'k' ∈ storedRights m room.roomNum anyone ∨ ch 'k' ∈ storedRights m room.roomNum username

/-- No row with `k` stands behind another one of its identifier, unless its floor has a room where
    such a row comes first.  Where everybody is meant there is no such row at all. -/
structure Unshadowed (t : Tables) (username : Bytes) : Prop where
  nobody : anonymous username = true → ∀ room ∈ listRooms t username,
    room.mailboxOwner = 0 → ch 'k' ∉ storedRights t.realm room.roomNum anyone
  user : anonymous username = false → getAxLevel t.realm username < kAideAxLevel →
    ∀ room ∈ listRooms t username, room.mailboxOwner = 0 → HasRow t.realm username room →
      ∃ other ∈ listRooms t username, other.mailboxOwner = 0 ∧
        other.floorNum = room.floorNum ∧ HasFirst t.realm username other

/-! ## The loop -/

variable {m : Realm} {username : Bytes}

theorem mem_grantedRooms {room : Room} :
    room.roomNum ∈ grantedRooms m username ↔ HasRow m username room := by
  simp only [grantedRooms, List.mem_dedup, List.mem_map, List.mem_filter, Bool.and_eq_true,
    List.contains_iff_mem, HasRow]
  constructor
  · rintro ⟨g, ⟨hg, hk, hspeaks⟩, hroom⟩
    exact ⟨g, hg, hroom, hk, hspeaks⟩
  · rintro ⟨g, hg, hroom, hk, hspeaks⟩
    exact ⟨g, ⟨hg, hk, hspeaks⟩, hroom⟩

/-- What the loop looks for. -/
def Counts (aide : Bool) (granted : List Nat) (room : Room) (floor : Int) : Prop :=
  room.mailboxOwner = 0 ∧ (aide = true ∨ room.roomNum ∈ granted) ∧ room.floorNum = floor

variable (aide : Bool) (granted : List Nat)

theorem collectFloor_spec (room : Room) {out : List Int} (hnodup : out.Nodup) :
    (collectFloor aide granted out room).Nodup ∧
      ∀ floor, floor ∈ collectFloor aide granted out room ↔
        floor ∈ out ∨ Counts aide granted room floor := by
  rw [collectFloor]
  split_ifs with howner hgranted hmem
  · exact ⟨hnodup, fun floor => by simp [Counts, howner]⟩
  · simp only [Bool.and_eq_true, Bool.not_eq_true', decide_eq_true_eq] at hgranted
    exact ⟨hnodup, fun floor => by simp [Counts, hgranted]⟩
  · refine ⟨hnodup, fun floor => ⟨.inl, ?_⟩⟩
    rintro (h | ⟨-, -, rfl⟩)
    · exact h
    · exact hmem
  · have hcounts : room.mailboxOwner = 0 ∧ (aide = true ∨ room.roomNum ∈ granted) := by
      simp only [Bool.and_eq_true, Bool.not_eq_true', decide_eq_true_eq, not_and,
        not_not] at hgranted
      refine ⟨not_not.mp howner, ?_⟩
      cases aide with
      | true => exact .inl rfl
      | false => exact .inr (hgranted rfl)
    refine ⟨?_, fun floor => ?_⟩
    · rw [List.nodup_append]
      refine ⟨hnodup, List.nodup_singleton _, fun floor hfloor floor' hfloor' heq => hmem ?_⟩
      rw [← List.mem_singleton.mp hfloor', ← heq]
      exact hfloor
    · rw [List.mem_append, List.mem_singleton, Counts]
      simp [hcounts, eq_comm]

theorem collectFloors_spec (rooms : List Room) (out : List Int) (hnodup : out.Nodup) :
    (rooms.foldl (collectFloor aide granted) out).Nodup ∧
      ∀ floor, floor ∈ rooms.foldl (collectFloor aide granted) out ↔
        floor ∈ out ∨ ∃ room ∈ rooms, Counts aide granted room floor := by
  induction rooms generalizing out with
  | nil => simp [hnodup]
  | cons room rooms ih =>
    obtain ⟨hnodup', hmem'⟩ := collectFloor_spec aide granted room hnodup
    obtain ⟨hfinal, hmem⟩ := ih _ hnodup'
    rw [List.foldl_cons]
    refine ⟨hfinal, ?_⟩
    intro floor
    rw [hmem, hmem', List.exists_mem_cons_iff, or_assoc]

theorem sorted_ascending (rooms : List Room) :
    ((rooms.foldl (collectFloor aide granted) []).insertionSort (· ≤ ·)).Pairwise (· < ·) := by
  obtain ⟨hnodup, -⟩ := collectFloors_spec aide granted rooms [] .nil
  have hsorted := List.pairwise_insertionSort (· ≤ ·)
    (rooms.foldl (collectFloor aide granted) [])
  have hnodup' := (List.perm_insertionSort (· ≤ ·) _).nodup_iff.mpr hnodup
  exact (hsorted.and hnodup').imp fun h => lt_of_le_of_ne h.1 h.2

theorem creatableFloors_ascending (t : Tables) (username : Bytes) :
    (creatableFloors t username).Pairwise (· < ·) := by
  rw [creatableFloors]
  cases anonymous username with
  | true => exact .nil
  | false =>
    simp only [Bool.false_eq_true, if_false]
    generalize (if decide (kAideAxLevel ≤ getAxLevel t.realm username) = true then []
      else grantedRooms t.realm username) = granted
    split
    · exact .nil
    · exact sorted_ascending _ _ _

/-- The floors that the list names. -/
theorem mem_creatableFloors {t : Tables} {floor : Int} :
    floor ∈ creatableFloors t username ↔ anonymous username = false ∧
      ∃ room ∈ listRooms t username, room.mailboxOwner = 0 ∧
        (kAideAxLevel ≤ getAxLevel t.realm username ∨ HasRow t.realm username room) ∧
        room.floorNum = floor := by
  rw [creatableFloors]
  cases hanonymous : anonymous username with
  | true => simp
  | false =>
    simp only [Bool.false_eq_true, if_false, true_and]
    by_cases haide : kAideAxLevel ≤ getAxLevel t.realm username
    · obtain ⟨-, hmem⟩ := collectFloors_spec true [] (listRooms t username) [] .nil
      simp only [haide, decide_true, Bool.not_true, Bool.false_and, Bool.false_eq_true, if_false,
        if_true, List.mem_insertionSort, hmem, List.not_mem_nil, false_or, Counts, true_or,
        true_and]
    · obtain ⟨-, hmem⟩ := collectFloors_spec false (grantedRooms t.realm username)
        (listRooms t username) [] .nil
      simp only [haide, decide_false, Bool.not_false, Bool.true_and, Bool.false_eq_true, if_false,
        false_or]
      split_ifs with hempty
      · -- without a grant the query settles it
        simp only [List.not_mem_nil, false_iff, not_exists, not_and]
        intro room _ _ hrow
        rw [← mem_grantedRooms, List.isEmpty_iff.mp hempty] at hrow
        cases hrow
      · simp only [List.mem_insertionSort, hmem, List.not_mem_nil, false_or, Counts,
          Bool.false_eq_true, mem_grantedRooms]

/-! ## The rights -/

/-- On a public room `k` is an aide's, or stored in the first row of its identifier. -/
theorem mem_effectiveRights_k {room : Room} (hpublic : room.mailboxOwner = 0) :
    ch 'k' ∈ effectiveRights m username room ↔
      anonymous username = false ∧ kAideAxLevel ≤ getAxLevel m username ∨
        ch 'k' ∈ storedRights m room.roomNum anyone ∨
        anonymous username = false ∧ ch 'k' ∈ storedRights m room.roomNum username := by
  have hright : ch 'k' ∈ kAclRights := by decide
  have hmember : ch 'k' ∉ memberRights room := by
    rw [memberRights]
    split_ifs <;> decide
  have howns : ownsRoom m username room = false := by
    simp [ownsRoom, hpublic]
  rw [mem_effectiveRights hright, Rules, Granted]
  simp [hmember, howns]

theorem HasFirst.hasRow {room : Room} (h : HasFirst m username room) : HasRow m username room := by
  have hrow {identifier : Bytes} (hk : ch 'k' ∈ storedRights m room.roomNum identifier) :
      ∃ g ∈ m.acl, g.roomNum = room.roomNum ∧ ch 'k' ∈ g.rights ∧
        m.dir.sqlLower g.identifier = m.dir.sqlLower identifier := by
    rw [storedRights] at hk
    split at hk
    · next g hg =>
      have hmatch := List.find?_some hg
      simp only [decide_eq_true_eq] at hmatch
      exact ⟨g, List.mem_of_find?_eq_some hg, hmatch.1, hk, hmatch.2⟩
    · cases hk
  obtain hk | hk := h
  · have hanyone : m.dir.sqlLower anyone = anyone := m.dir.sqlLower.of_ascii (by decide +kernel)
    obtain ⟨g, hg, hroom, hk, hid⟩ := hrow hk
    exact ⟨g, hg, hroom, hk, by simp [speaksOf, hid, hanyone]⟩
  · obtain ⟨g, hg, hroom, hk, hid⟩ := hrow hk
    exact ⟨g, hg, hroom, hk, by simp [speaksOf, hid]⟩

/-! ## Exactly when -/

/-- The list is right unless a grant of `k` is shadowed by an earlier row of its identifier. -/
theorem floorsExact_iff (t : Tables) (username : Bytes) :
    FloorsExact t username ↔ Unshadowed t username := by
  constructor
  · intro h
    constructor
    · intro hanonymous room hroom hpublic hk
      have hcreatable : Creatable t username room.floorNum :=
        ⟨room, hroom, hpublic, rfl, (mem_effectiveRights_k hpublic).mpr (.inr (.inl hk))⟩
      obtain ⟨hnamed, -⟩ := mem_creatableFloors.mp ((h.floors _).mpr hcreatable)
      rw [hanonymous] at hnamed
      cases hnamed
    · intro hnamed hlevel room hroom hpublic hrow
      have hlisted : room.floorNum ∈ creatableFloors t username :=
        mem_creatableFloors.mpr ⟨hnamed, room, hroom, hpublic, .inr hrow, rfl⟩
      obtain ⟨other, hother, hpublic', hfloor, hk⟩ := (h.floors _).mp hlisted
      refine ⟨other, hother, hpublic', hfloor, ?_⟩
      obtain ⟨-, haide⟩ | hk | ⟨-, hk⟩ := (mem_effectiveRights_k hpublic').mp hk
      · omega
      · exact .inl hk
      · exact .inr hk
  · intro h
    refine ⟨creatableFloors_ascending t username, fun floor => ⟨fun hlisted => ?_, ?_⟩⟩
    · obtain ⟨hnamed, room, hroom, hpublic, hright, rfl⟩ := mem_creatableFloors.mp hlisted
      by_cases haide : kAideAxLevel ≤ getAxLevel t.realm username
      · exact ⟨room, hroom, hpublic, rfl,
          (mem_effectiveRights_k hpublic).mpr (.inl ⟨hnamed, haide⟩)⟩
      · obtain ⟨other, hother, hpublic', hfloor, hfirst⟩ :=
          h.user hnamed (by omega) room hroom hpublic (hright.resolve_left haide)
        refine ⟨other, hother, hpublic', hfloor, (mem_effectiveRights_k hpublic').mpr (.inr ?_)⟩
        exact hfirst.imp_right fun hk => ⟨hnamed, hk⟩
    · rintro ⟨room, hroom, hpublic, rfl, hk⟩
      rw [mem_effectiveRights_k hpublic] at hk
      have hnamed : anonymous username = false := by
        cases hanonymous : anonymous username with
        | false => rfl
        | true =>
          rw [hanonymous] at hk
          simp only [Bool.true_eq_false, false_and, false_or, or_false] at hk
          exact absurd hk (h.nobody hanonymous room hroom hpublic)
      refine mem_creatableFloors.mpr ⟨hnamed, room, hroom, hpublic, ?_, rfl⟩
      obtain ⟨-, haide⟩ | hk | ⟨-, hk⟩ := hk
      · exact .inl haide
      · exact .inr (HasFirst.hasRow (.inl hk))
      · exact .inr (HasFirst.hasRow (.inr hk))

/-- A room on floor 2, and two rows for one user: `Bob` may look, `bob` may create. -/
def twoSpellings : Tables where
  realm := {
    dir := {
      store := {
        messages := []
        roomMsgs := []
        tombstones := []
        rooms := [⟨5, 2, 0, 0, 0, 0⟩]
        seq := 1
        config := []
        users := []
        credentials := [bytes "bob"]
        quotas := [] }
      labels := [⟨5, bytes "Projects", bytes "Projects", []⟩]
      userSeq := 1
      roomSeq := 6 }
    acl := [⟨5, bytes "Bob", bytes "lr"⟩, ⟨5, bytes "bob", bytes "k"⟩]
    levels := []
    unlocked := [] }
  flags := []
  zapped := []

/-- `bob` is offered a floor on which he may not create a room. -/
theorem shadowed_grant_counts : ¬ ∀ (t : Tables) (username : Bytes), username ≠ [] →
    FloorsExact t username := by
  intro h
  have hlisted : 2 ∈ creatableFloors twoSpellings (bytes "bob") := by decide +kernel
  have hrights : ∀ room ∈ listRooms twoSpellings (bytes "bob"),
      ch 'k' ∉ effectiveRights twoSpellings.realm (bytes "bob") room := by
    decide +kernel
  obtain ⟨room, hroom, -, -, hk⟩ :=
    ((h twoSpellings (bytes "bob") (by decide +kernel)).floors 2).mp hlisted
  exact hrights room hroom hk

end QuackMail.Jmap
