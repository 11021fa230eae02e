import QuackMail.Store.Rooms

/-! # Rights on rooms

`EffectiveRights`, `SetRights`, `ResolveRoom` and `KillRoom` of `citadel_store.cpp`.  Rights
are derived from the room and from who the caller is, and stored grants only add to them.
-/

namespace QuackMail.Citadel

/-! ## The tables -/

/-- A row of `citadel_room_acl`. -/
structure Grant where
  roomNum : Nat
  identifier : Bytes
  rights : Bytes

/-- The rooms with what decides who may do what to them. -/
structure Realm where
  dir : Directory
  acl : List Grant
  /-- the `axlevel` of the users that have one -/
  levels : List (Bytes × Int)
  /-- the rooms whose password a user has given -/
  unlocked : List (Bytes × Nat)

def qrPassworded : Nat := 8
def qrReadOnly : Nat := 8192

def kAideAxLevel : Int := 6
def kLobbyRoom : Nat := 0
def kAideRoom : Nat := 1

/-- Lookup, read, keep-seen, write-flags, insert, post, create, delete-mailbox,
    delete-message, expunge, administer. -/
def kAclRights : Bytes := bytes "lrswipkxtea"

def hasFlag (room : Room) (flag : Nat) : Bool := room.qrFlags &&& flag != 0

def labelOf (d : Directory) (roomNum : Nat) : Option RoomLabel :=
  d.labels.find? (fun l => l.roomNum = roomNum)

/-- `lower(display_name) = lower($1)`. -/
def isNamed (d : Directory) (room : Room) (wanted : Bytes) : Bool :=
  d.labels.any (fun l =>
    l.roomNum = room.roomNum ∧ d.sqlLower l.displayName = d.sqlLower wanted)

/-! ## Rooms by display name -/

/-- `ResolveRoom`: a public room of that name, or else a room of the user's own. -/
def resolveRoom (d : Directory) (username wanted : Bytes) : Directory × Option Room :=
  match d.store.rooms.find? (fun r => r.mailboxOwner = 0 ∧ isNamed d r wanted = true) with
  | some room => (d, some room)
  | none =>
    if username = [] then (d, none)
    else
      let r := getOrAssignUserNum d username
      if r.2 ≤ 0 then (r.1, none)
      else
        (r.1, r.1.store.rooms.find? (fun room =>
          room.mailboxOwner = r.2 ∧ isNamed r.1 room wanted = true))

/-- `KillRoom`: everything keyed by the room goes, and the room. -/
def killRoom (m : Realm) (roomNum : Nat) : Realm × Except Bytes Unit :=
  if roomNum = kLobbyRoom then (m, .error (bytes "cannot delete the Lobby"))
  else if roomNum = kAideRoom then (m, .error (bytes "cannot delete the Aide room"))
  else
    ({ m with
        dir := { m.dir with
          store := { m.dir.store with
            roomMsgs := m.dir.store.roomMsgs.filter (fun p => p.roomNum ≠ roomNum)
            tombstones := m.dir.store.tombstones.filter (fun t => t.roomNum ≠ roomNum)
            rooms := m.dir.store.rooms.filter (fun r => r.roomNum ≠ roomNum) }
          labels := m.dir.labels.filter (fun l => l.roomNum ≠ roomNum) }
        acl := m.acl.filter (fun g => g.roomNum ≠ roomNum)
        unlocked := m.unlocked.filter (fun u => u.2 ≠ roomNum) }, .ok ())

theorem sqlLower_resolveRoom (d : Directory) (username wanted : Bytes) :
    (resolveRoom d username wanted).1.sqlLower = d.sqlLower := by
  rw [resolveRoom]
  split
  · rfl
  split
  · rfl
  extract_lets r
  split
  · exact sqlLower_number d username
  · exact sqlLower_number d username

theorem sqlLower_killRoom (m : Realm) (roomNum : Nat) :
    (killRoom m roomNum).1.dir.sqlLower = m.dir.sqlLower := by
  rw [killRoom]
  split
  · rfl
  split
  · rfl
  · rfl

/-! ## Rights -/

def getAxLevel (m : Realm) (username : Bytes) : Int :=
  match m.levels.find? (fun l => l.1 = username) with
  | some l => l.2
  | none => 4

def userNumOf (m : Realm) (username : Bytes) : Int := (getOrAssignUserNum m.dir username).2

/-- Whether the room is a personal room of the user. -/
def ownsRoom (m : Realm) (username : Bytes) (room : Room) : Bool :=
  decide (room.mailboxOwner > 0 ∧ room.mailboxOwner = userNumOf m username)

/-- `RoomUnlocked`: the room has no password, or the user owns it or has given it. -/
def roomUnlocked (m : Realm) (username : Bytes) (room : Room) : Bool :=
  if hasFlag room qrPassworded = false ∨
      ((labelOf m.dir room.roomNum).elim [] RoomLabel.password) = [] then true
  else if username = [] then false
  else ownsRoom m username room || decide ((username, room.roomNum) ∈ m.unlocked)

/-- The rights in either text, in the order of `kAclRights`. -/
def unionRights (a b : Bytes) : Bytes := kAclRights.filter (fun c => c ∈ a ∨ c ∈ b)

def storedRights (m : Realm) (roomNum : Nat) (identifier : Bytes) : Bytes :=
  match m.acl.find? (fun g =>
    g.roomNum = roomNum ∧ m.dir.sqlLower g.identifier = m.dir.sqlLower identifier) with
  | some g => g.rights
  | none => []

def anyone : Bytes := bytes "anyone"

def isAnyone (identifier : Bytes) : Bool := decide (lower identifier = anyone)

/-- Without a name, or by the name of everybody: nothing is derived. -/
def anonymous (username : Bytes) : Bool := decide (username = []) || isAnyone username

/-- What a user who may enter the room holds. -/
def memberRights (room : Room) : Bytes :=
  bytes "lrs" ++ if hasFlag room qrReadOnly then [] else bytes "wi"

def derivedRights (m : Realm) (username : Bytes) (room : Room) : Bytes :=
  if anonymous username then []
  else if ownsRoom m username room || decide (getAxLevel m username ≥ kAideAxLevel) then kAclRights
  else if decide (room.mailboxOwner > 0) || hasFlag room qrPrivate ||
      !roomUnlocked m username room then []
  else memberRights room

def effectiveRights (m : Realm) (username : Bytes) (room : Room) : Bytes :=
  let everybody := storedRights m room.roomNum anyone
  unionRights (derivedRights m username room)
    (if anonymous username then everybody
      else unionRights everybody (storedRights m room.roomNum username))

/-- `SetRights`: no rights remove the row. -/
def setRights (m : Realm) (room : Room) (identifier rights : Bytes) : Realm × Except Bytes Unit :=
  if identifier = [] then (m, .error (bytes "an ACL entry needs an identifier"))
  else
    -- strchr finds the terminator, so a zero byte is no unknown right
    match rights.find? (fun c => c ∉ kAclRights ∧ c ≠ 0) with
    | some c => (m, .error (bytes "unknown right '" ++ [c] ++ bytes "'"))
    | none =>
      if rights = [] then
        ({ m with acl := m.acl.filter (fun g =>
            ¬(g.roomNum = room.roomNum ∧
              m.dir.sqlLower g.identifier = m.dir.sqlLower identifier)) }, .ok ())
      else
        let row := ⟨room.roomNum, identifier, unionRights rights []⟩
        let same := fun (g : Grant) => decide (g.roomNum = room.roomNum ∧ g.identifier = identifier)
        ({ m with acl := if m.acl.any same then m.acl.map (fun g => if same g then row else g)
                         else m.acl ++ [row] }, .ok ())

/-- `ListRights`: the grants of the room, by identifier. -/
def listRights (m : Realm) (room : Room) : List (Bytes × Bytes) :=
  ((m.acl.filter (fun g => g.roomNum = room.roomNum)).map (fun g => (g.identifier, g.rights))).insertionSort
    (fun a b => a.1 ≤ b.1)

/-! ## What a right takes -/

/-- The user owns the room or is an aide. -/
def Rules (m : Realm) (username : Bytes) (room : Room) : Prop :=
  anonymous username = false ∧ (ownsRoom m username room = true ∨ kAideAxLevel ≤ getAxLevel m username)

/-- A public room that is neither for invitation only nor locked for the user. -/
def Enters (m : Realm) (username : Bytes) (room : Room) : Prop :=
  anonymous username = false ∧ room.mailboxOwner ≤ 0 ∧ hasFlag room qrPrivate = false ∧
    roomUnlocked m username room = true

/-- A stored grant to everybody or to the user. -/
def Granted (m : Realm) (username : Bytes) (roomNum : Nat) (right : Byte) : Prop :=
  right ∈ storedRights m roomNum anyone ∨
    anonymous username = false ∧ right ∈ storedRights m roomNum username

theorem mem_unionRights {a b : Bytes} {c : Byte} :
    c ∈ unionRights a b ↔ c ∈ kAclRights ∧ (c ∈ a ∨ c ∈ b) := by
  rw [unionRights, List.mem_filter, decide_eq_true_eq]

theorem mem_derivedRights {m : Realm} {username : Bytes} {room : Room} {right : Byte}
    (hright : right ∈ kAclRights) :
    right ∈ derivedRights m username room ↔
      Rules m username room ∨ Enters m username room ∧ right ∈ memberRights room := by
  rw [derivedRights, Rules, Enters]
  cases hanonymous : anonymous username with
  | true => simp
  | false =>
    simp only [Bool.false_eq_true, if_false, true_and]
    split
    · next hrules =>
      rw [Bool.or_eq_true, decide_eq_true_eq] at hrules
      exact iff_of_true hright (.inl hrules)
    · next hrules =>
      rw [Bool.or_eq_true, decide_eq_true_eq] at hrules
      rw [or_iff_right hrules]
      split
      · next hclosed =>
        simp only [Bool.or_eq_true, decide_eq_true_eq, Bool.not_eq_true'] at hclosed
        refine iff_of_false (fun h => by cases h) ?_
        rintro ⟨⟨howner, hprivate, hunlocked⟩, -⟩
        rcases hclosed with (hclosed | hclosed) | hclosed
        · omega
        · rw [hprivate] at hclosed; cases hclosed
        · rw [hunlocked] at hclosed; cases hclosed
      · next hopen =>
        simp only [Bool.or_eq_true, decide_eq_true_eq, Bool.not_eq_true', not_or] at hopen
        obtain ⟨⟨howner, hprivate⟩, hunlocked⟩ := hopen
        exact (and_iff_right ⟨by omega, by simpa using hprivate, by simpa using hunlocked⟩).symm

theorem mem_effectiveRights {m : Realm} {username : Bytes} {room : Room} {right : Byte}
    (hright : right ∈ kAclRights) :
    right ∈ effectiveRights m username room ↔
      Rules m username room ∨ (Enters m username room ∧ right ∈ memberRights room) ∨
        Granted m username room.roomNum right := by
  rw [effectiveRights, mem_unionRights, and_iff_right hright, mem_derivedRights hright, or_assoc,
    Granted]
  refine or_congr_right (or_congr_right ?_)
  cases anonymous username with
  | true => simp
  | false => simp [mem_unionRights, hright]

/-! ## What the calls keep -/

variable (d : Directory) (username : Bytes)

theorem getOrAssignUserNum_frame : (getOrAssignUserNum d username).1.store.rooms = d.store.rooms ∧
      (getOrAssignUserNum d username).1.labels = d.labels ∧
      (getOrAssignUserNum d username).1.store.roomMsgs = d.store.roomMsgs := by
  rw [getOrAssignUserNum]
  split
  · split
    · exact ⟨rfl, rfl, rfl⟩
    · exact ⟨rfl, rfl, rfl⟩
  · exact ⟨rfl, rfl, rfl⟩

/-- Rooms are made, and nothing that was there is touched. -/
structure Grown (d d' : Directory) : Prop where
  rooms : ∀ r ∈ d.store.rooms, r ∈ d'.store.rooms
  labels : ∀ l ∈ d.labels, l ∈ d'.labels
  pointers : d'.store.roomMsgs = d.store.roomMsgs

theorem Grown.refl : Grown d d := ⟨fun _ hr => hr, fun _ hl => hl, rfl⟩

theorem Grown.trans {d e f : Directory} (h : Grown d e) (h' : Grown e f) : Grown d f :=
  ⟨fun r hr => h'.rooms r (h.rooms r hr), fun l hl => h'.labels l (h.labels l hl),
    h'.pointers.trans h.pointers⟩

theorem getOrAssignUserNum_grown : Grown d (getOrAssignUserNum d username).1 := by
  obtain ⟨hrooms, hlabels, hpointers⟩ := getOrAssignUserNum_frame d username
  exact ⟨fun r hr => hrooms ▸ hr, fun l hl => hlabels ▸ hl, hpointers⟩

theorem createRoom_grown (displayName : Bytes) (floor : Int) (qrFlags : Nat)
    (password : Bytes) (mailboxOwner : Nat) :
    Grown d (createRoom d displayName floor qrFlags password mailboxOwner).1 := by
  rw [createRoom]
  split
  · exact .refl d
  · split
    · exact .refl d
    · generalize (if mailboxOwner > 0 then mailboxRoomName mailboxOwner displayName
        else displayName) = internal
      simp only
      split
      · exact ⟨fun _ hr => hr, fun _ hl => hl, rfl⟩
      · exact ⟨fun r hr => List.mem_append_left _ hr, fun l hl => List.mem_append_left _ hl, rfl⟩

theorem getOrCreateUserRoom_grown (displayName : Bytes) :
    Grown d (getOrCreateUserRoom d username displayName).1 := by
  have hassign := getOrAssignUserNum_grown d username
  rw [getOrCreateUserRoom]
  split
  · exact hassign
  · split
    · exact hassign
    · have hcreate := hassign.trans (createRoom_grown (getOrAssignUserNum d username).1 displayName
        0 mailboxFlags [] (getOrAssignUserNum d username).2.toNat)
      split
      · next hcall => rw [hcall] at hcreate; exact hcreate
      · next hcall => rw [hcall] at hcreate; exact hcreate

/-- A grant of another room stays. -/
theorem setRights_other {m : Realm} {room : Room} {identifier rights : Bytes} {g : Grant}
    (hother : g.roomNum ≠ room.roomNum) :
    g ∈ (setRights m room identifier rights).1.acl ↔ g ∈ m.acl := by
  rw [setRights]
  split
  · exact Iff.rfl
  · split
    · exact Iff.rfl
    · split
      · simp only [List.mem_filter, decide_eq_true_eq]
        exact and_iff_left fun h => hother h.1
      · simp only
        split
        · rw [List.mem_map]
          constructor
          · rintro ⟨g', hg', heq⟩
            split at heq
            · exact absurd (heq ▸ rfl) hother
            · exact heq ▸ hg'
          · intro hg
            exact ⟨g, hg, if_neg (by simp [hother])⟩
        · rw [List.mem_append, List.mem_singleton]
          exact or_iff_left fun h => hother (h ▸ rfl)

theorem setRights_frame (m : Realm) (room : Room) (identifier rights : Bytes) :
    (setRights m room identifier rights).1.dir = m.dir := by
  rw [setRights]
  split
  · rfl
  · split
    · rfl
    · split
      · rfl
      · rfl

end QuackMail.Citadel
