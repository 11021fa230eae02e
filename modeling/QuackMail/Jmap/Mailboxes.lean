import QuackMail.Imap.Mailboxes

/-! # Mailboxes of a JMAP account

`ListRooms` and `CanPost` of `citadel_store.cpp`, `ResolveRoomNumFor` of `web_chrome.cpp`, and
`JmapMailboxes`, `ResolveMailbox`, `LoadEmailFor`, `IdOf` and `IdNum` of the JMAP sources.  What
they answer depends on the rooms up to `highest_msg`, so filing and unlinking messages leave
a user's access as it is (`SameAccess`).
-/

namespace QuackMail.Jmap

open Citadel Imap

/-! ## The tables -/

/-- The tables of all commands, with the rooms that users have zapped. -/
structure Tables extends Host where
  zapped : List (Bytes × Nat)

def Tables.store (t : Tables) : Store := t.realm.dir.store

def Tables.withStore (t : Tables) (s : Store) : Tables :=
  { t with realm := { t.realm with dir := { t.realm.dir with store := s } } }

def Tables.withFlags (t : Tables) (flags : List FlagRow) : Tables := { t with flags := flags }

/-- `Ctx`: who makes the request. -/
structure Ctx where
  username : Bytes
  axlevel : Int

def Ctx.isAide (c : Ctx) : Bool := decide (c.axlevel ≥ 6)

/-! ## Ids -/

/-- `IdOf`. -/
def idOf (n : Nat) : Bytes := num n

/-- `IdNum`: decimal digits only; `strtoll` stops at the largest number. -/
def idNum (id : Bytes) : Option Nat :=
  if id = [] ∨ id.any (fun c => !isDigit c) then none
  else some (min 0x7fffffffffffffff (digitsFrom 0 id))

/-! ## Rooms -/

/-- The internal key of a room. -/
def keyName (m : Realm) (room : Room) : Bytes := (labelOf m.dir room.roomNum).elim [] RoomLabel.name

/-- An access list names the user, or everybody, with the lookup right. -/
def lookupGranted (m : Realm) (username : Bytes) (room : Room) : Bool :=
  m.acl.any (fun a => decide (a.roomNum = room.roomNum ∧
    (m.dir.sqlLower a.identifier = m.dir.sqlLower username ∨
      m.dir.sqlLower a.identifier = anyone) ∧ ch 'l' ∈ a.rights))

/-- The number of the user in a query: 0 without a name. -/
def usernumOf (m : Realm) (username : Bytes) : Int :=
  if username = [] then 0 else userNumOf m username

/-- The WHERE clause of `ListRooms(con, username, -1, "all")`. -/
def isListed (t : Tables) (username : Bytes) (room : Room) : Bool :=
  let usernum := usernumOf t.realm username
  let aide := decide (username ≠ [] ∧ getAxLevel t.realm username ≥ kAideAxLevel)
  decide (room.mailboxOwner = 0 ∨ room.mailboxOwner = usernum) &&
    (aide || !hasFlag room qrPrivate || decide (room.mailboxOwner = usernum) ||
      (decide (username ≠ []) && lookupGranted t.realm username room)) &&
    (decide (username = []) || !t.zapped.any (fun z => z = (username, room.roomNum)))

/-- `ListRooms(con, username, -1, "all")`: in the order of the keys. -/
def listRooms (t : Tables) (username : Bytes) : List Room :=
  (t.store.rooms.filter (isListed t username)).insertionSort
    (fun a b => keyName t.realm a ≤ keyName t.realm b)

/-- `CanPost`. -/
def canPost (m : Realm) (username : Bytes) (room : Room) : Bool :=
  decide ((if username = [] then ch 'p' else ch 'i') ∈ effectiveRights m username room)

/-- `ResolveRoomNumFor`. -/
def resolveRoomNumFor (c : Ctx) (t : Tables) (roomNum : Nat) : Option Room :=
  if c.username = [] then none
  else
    match getRoomByNum t.store roomNum with
    | none => none
    | some out =>
      let usernum := userNumOf t.realm c.username
      if out.mailboxOwner ≠ 0 ∧ out.mailboxOwner ≠ usernum then none
      else if c.isAide = false ∧ hasFlag out qrPrivate = true ∧ out.mailboxOwner ≠ usernum then
        if ch 'l' ∈ effectiveRights t.realm c.username out then some out else none
      else some out

/-! ## Mailboxes -/

/-- `JmapMailboxes`: a locked room stays out. -/
def jmapMailboxes (c : Ctx) (t : Tables) : List Room :=
  (listRooms t c.username).filter (roomUnlocked t.realm c.username)

/-- `ResolveMailbox`. -/
def resolveMailbox (c : Ctx) (t : Tables) (id : Bytes) : Option Room :=
  match idNum id with
  | none => none
  | some n =>
    match resolveRoomNumFor c t n with
    | none => none
    | some room => if roomUnlocked t.realm c.username room then some room else none

/-- `LoadEmailFor`: the message, and the first mailbox it is found in. -/
def loadEmailFor (c : Ctx) (t : Tables) (msgnum : Nat) : Option (Message × Nat) :=
  match (jmapMailboxes c t).find? (fun room => messageInRoom t.store room.roomNum msgnum) with
  | none => none
  | some room => (loadMessage t.store msgnum).map (fun msg => (msg, room.roomNum))

/-! ## Ids are read back -/

theorem idNum_eq_some {id : Bytes} {n : Nat} (h : idNum id = some n) : n ≤ 0x7fffffffffffffff := by
  unfold idNum at h
  split at h
  · cases h
  · exact Option.some.inj h ▸ Nat.min_le_left _ _

theorem idNum_idOf {n : Nat} (h : n ≤ 0x7fffffffffffffff) : idNum (idOf n) = some n := by
  have hne : num n ≠ [] := num_ne_nil n
  have hdigits : (num n).any (fun c => !isDigit c) = false := by
    rw [List.any_eq_false]
    intro c hc
    simp [isDigit_of_mem_num hc]
  rw [idNum, idOf, if_neg (by simp [hne, hdigits]), digitsFrom_num, Nat.min_eq_right h]

theorem idOf_inj {m n : Nat} (h : idOf m = idOf n) : m = n := by
  rw [← digitsFrom_num m, ← digitsFrom_num n]
  exact congrArg (digitsFrom 0) h

/-! ## What a user has access to -/

/-- A room without what filing a message changes of it. -/
def plain (room : Room) : Room := { room with highestMsg := 0 }

theorem plain_eq {room room' : Room} (h : plain room' = plain room) :
    room'.qrFlags = room.qrFlags ∧ room'.mailboxOwner = room.mailboxOwner ∧
      room'.roomNum = room.roomNum := by
  simp only [plain, Room.mk.injEq] at h
  exact ⟨h.2.2.1, h.2.2.2.2.1, h.1⟩

/-- The tables that access is decided on are the same. -/
structure SameAccess (t t' : Tables) : Prop where
  rooms : t'.store.rooms.map plain = t.store.rooms.map plain
  messages : t'.store.messages = t.store.messages
  users : t'.store.users = t.store.users
  credentials : t'.store.credentials = t.store.credentials
  labels : t'.realm.dir.labels = t.realm.dir.labels
  userSeq : t'.realm.dir.userSeq = t.realm.dir.userSeq
  sqlLower : t'.realm.dir.sqlLower = t.realm.dir.sqlLower
  acl : t'.realm.acl = t.realm.acl
  levels : t'.realm.levels = t.realm.levels
  unlocked : t'.realm.unlocked = t.realm.unlocked
  zapped : t'.zapped = t.zapped

variable (t : Tables)

theorem SameAccess.refl : SameAccess t t :=
  ⟨rfl, rfl, rfl, rfl, rfl, rfl, rfl, rfl, rfl, rfl, rfl⟩

theorem SameAccess.trans {t u v : Tables} (h : SameAccess t u) (h' : SameAccess u v) :
    SameAccess t v :=
  ⟨h'.rooms.trans h.rooms, h'.messages.trans h.messages, h'.users.trans h.users,
    h'.credentials.trans h.credentials, h'.labels.trans h.labels, h'.userSeq.trans h.userSeq,
    h'.sqlLower.trans h.sqlLower, h'.acl.trans h.acl, h'.levels.trans h.levels,
    h'.unlocked.trans h.unlocked, h'.zapped.trans h.zapped⟩

theorem SameAccess.flags (flags : List FlagRow) : SameAccess t (t.withFlags flags) :=
  ⟨rfl, rfl, rfl, rfl, rfl, rfl, rfl, rfl, rfl, rfl, rfl⟩

theorem map_plain_link (s : Store) (roomNum msgnum : Nat) :
    (link s roomNum msgnum).rooms.map plain = s.rooms.map plain := by
  have hrooms : (link s roomNum msgnum).rooms =
      s.rooms.map (fun r =>
        if r.roomNum = roomNum then { r with highestMsg := max r.highestMsg msgnum } else r) := by
    unfold link bumpHighest
    split
    · rfl
    · rfl
  rw [hrooms, List.map_map]
  refine List.map_congr_left fun r _ => ?_
  simp only [Function.comp_apply]
  split
  · rfl
  · rfl

theorem SameAccess.link (roomNum msgnum : Nat) :
    SameAccess t (t.withStore (link t.store roomNum msgnum)) where
  rooms := map_plain_link t.store roomNum msgnum
  messages := link_messages t.store roomNum msgnum
  users := by unfold Citadel.link bumpHighest; split <;> rfl
  credentials := by unfold Citadel.link bumpHighest; split <;> rfl
  labels := rfl
  userSeq := rfl
  sqlLower := rfl
  acl := rfl
  levels := rfl
  unlocked := rfl
  zapped := rfl

theorem SameAccess.unlink (w : World) (t : Tables) (roomNum msgnum : Nat) :
    SameAccess t (t.withStore (unlink w t.store roomNum msgnum)) :=
  ⟨rfl, rfl, rfl, rfl, rfl, rfl, rfl, rfl, rfl, rfl, rfl⟩

/-- The number of a user is read off the users and the sequence that numbers them. -/
theorem userNumOf_eq (m m' : Realm) (hcredentials : m'.dir.store.credentials = m.dir.store.credentials)
    (husers : m'.dir.store.users = m.dir.store.users) (hseq : m'.dir.userSeq = m.dir.userSeq)
    (username : Bytes) : userNumOf m' username = userNumOf m username := by
  unfold userNumOf getOrAssignUserNum
  rw [hcredentials, husers, hseq]
  split
  · cases List.find? (fun u => decide (u.1 = username)) m.dir.store.users with
    | some u => rfl
    | none => rfl
  · rfl

section Congr

variable {t t' : Tables} {room room' : Room} (h : SameAccess t t') (hroom : plain room' = plain room)

include h

variable (username : Bytes)

theorem userNumOf_congr : userNumOf t'.realm username = userNumOf t.realm username :=
  userNumOf_eq t.realm t'.realm h.credentials h.users h.userSeq username

theorem getAxLevel_congr : getAxLevel t'.realm username = getAxLevel t.realm username := by
  rw [getAxLevel, getAxLevel, h.levels]

theorem storedRights_congr (roomNum : Nat) (identifier : Bytes) :
    storedRights t'.realm roomNum identifier = storedRights t.realm roomNum identifier := by
  rw [storedRights, storedRights, h.acl, h.sqlLower]

include hroom

theorem roomUnlocked_congr :
    roomUnlocked t'.realm username room' = roomUnlocked t.realm username room := by
  obtain ⟨hflags, howner, hnum⟩ := plain_eq hroom
  unfold roomUnlocked hasFlag labelOf ownsRoom
  rw [hflags, howner, hnum, h.labels, h.unlocked, userNumOf_congr h]

theorem effectiveRights_congr :
    effectiveRights t'.realm username room' = effectiveRights t.realm username room := by
  obtain ⟨hflags, howner, hnum⟩ := plain_eq hroom
  have hderived : derivedRights t'.realm username room' = derivedRights t.realm username room := by
    unfold derivedRights memberRights hasFlag ownsRoom
    rw [hflags, howner, userNumOf_congr h, getAxLevel_congr h, roomUnlocked_congr h hroom]
  unfold effectiveRights
  rw [hderived, hnum, storedRights_congr h, storedRights_congr h]

theorem canPost_congr : canPost t'.realm username room' = canPost t.realm username room := by
  rw [canPost, canPost, effectiveRights_congr h hroom]

theorem isListed_congr : isListed t' username room' = isListed t username room := by
  obtain ⟨hflags, howner, hnum⟩ := plain_eq hroom
  unfold isListed usernumOf lookupGranted hasFlag
  rw [hflags, howner, hnum, h.acl, h.sqlLower, h.zapped, userNumOf_congr h, getAxLevel_congr h]

end Congr

/-! ## Mailboxes by number -/

section Seen

variable {c : Ctx} {t t' : Tables}

theorem mem_jmapMailboxes {room : Room} : room ∈ jmapMailboxes c t ↔
      room ∈ t.store.rooms ∧ isListed t c.username room = true ∧
        roomUnlocked t.realm c.username room = true := by
  rw [jmapMailboxes, List.mem_filter, listRooms, List.mem_insertionSort, List.mem_filter, and_assoc]

/-- The number is that of one of the user's mailboxes. -/
def Sees (c : Ctx) (t : Tables) (roomNum : Nat) : Prop :=
  ∃ room ∈ jmapMailboxes c t, room.roomNum = roomNum

instance (c : Ctx) (t : Tables) (roomNum : Nat) : Decidable (Sees c t roomNum) :=
  inferInstanceAs (Decidable (∃ room ∈ jmapMailboxes c t, room.roomNum = roomNum))

/-- The user may file messages into the mailbox and take them out. -/
def Writable (c : Ctx) (t : Tables) (roomNum : Nat) : Prop :=
  (resolveMailbox c t (idOf roomNum)).any (canPost t.realm c.username) = true

instance (c : Ctx) (t : Tables) (roomNum : Nat) : Decidable (Writable c t roomNum) :=
  inferInstanceAs (Decidable (_ = true))

theorem Sees.congr (h : SameAccess t t') {roomNum : Nat} (hsees : Sees c t roomNum) :
    Sees c t' roomNum := by
  obtain ⟨room, hmem, rfl⟩ := hsees
  obtain ⟨hroom, hlisted, hunlocked⟩ := mem_jmapMailboxes.mp hmem
  have hplain : plain room ∈ t'.store.rooms.map plain := h.rooms ▸ List.mem_map_of_mem hroom
  obtain ⟨room', hroom', heq⟩ := List.mem_map.mp hplain
  refine ⟨room', mem_jmapMailboxes.mpr ⟨hroom', ?_, ?_⟩, (plain_eq heq).2.2⟩
  · rw [isListed_congr h heq, hlisted]
  · rw [roomUnlocked_congr h heq, hunlocked]

/-- The row of a room, up to what filing changes. -/
theorem getRoomByNum_congr (h : SameAccess t t') (roomNum : Nat) :
    (getRoomByNum t'.store roomNum).map plain = (getRoomByNum t.store roomNum).map plain := by
  have hfind : ∀ rooms : List Room,
      (rooms.find? (fun r => decide (r.roomNum = roomNum))).map plain =
        (rooms.map plain).find? (fun r => decide (r.roomNum = roomNum)) := by
    intro rooms
    rw [List.find?_map]
    rfl
  rw [getRoomByNum, getRoomByNum, hfind, hfind, h.rooms]

theorem resolveRoomNumFor_congr (h : SameAccess t t') (roomNum : Nat) :
    (resolveRoomNumFor c t' roomNum).map plain = (resolveRoomNumFor c t roomNum).map plain := by
  have hrow := getRoomByNum_congr h roomNum
  unfold resolveRoomNumFor
  by_cases hname : c.username = []
  · rw [if_pos hname, if_pos hname]
  rw [if_neg hname, if_neg hname]
  cases hold : getRoomByNum t.store roomNum with
  | none =>
    rw [hold, Option.map_none, Option.map_eq_none_iff] at hrow
    rw [hrow]
  | some room =>
    rw [hold, Option.map_some, Option.map_eq_some_iff] at hrow
    obtain ⟨room', hnew, heq⟩ := hrow
    obtain ⟨hflags, howner, -⟩ := plain_eq heq
    rw [hnew]
    simp only
    unfold hasFlag
    rw [hflags, howner, userNumOf_congr h, effectiveRights_congr h heq]
    by_cases hother : room.mailboxOwner ≠ 0 ∧ room.mailboxOwner ≠ userNumOf t.realm c.username
    · rw [if_pos hother, if_pos hother]
    rw [if_neg hother, if_neg hother]
    by_cases hinvited : c.isAide = false ∧ (room.qrFlags &&& qrPrivate != 0) = true ∧
        room.mailboxOwner ≠ userNumOf t.realm c.username
    · rw [if_pos hinvited, if_pos hinvited]
      by_cases hlookup : ch 'l' ∈ effectiveRights t.realm c.username room
      · rw [if_pos hlookup, if_pos hlookup, Option.map_some, Option.map_some, heq]
      · rw [if_neg hlookup, if_neg hlookup]
    · rw [if_neg hinvited, if_neg hinvited, Option.map_some, Option.map_some, heq]

theorem resolveMailbox_congr (h : SameAccess t t') (id : Bytes) :
    (resolveMailbox c t' id).map plain = (resolveMailbox c t id).map plain := by
  unfold resolveMailbox
  cases idNum id with
  | none => rfl
  | some n =>
    simp only
    have hresolve := resolveRoomNumFor_congr (c := c) h n
    cases hold : resolveRoomNumFor c t n with
    | none =>
      rw [hold, Option.map_none, Option.map_eq_none_iff] at hresolve
      rw [hresolve]
    | some room =>
      rw [hold, Option.map_some, Option.map_eq_some_iff] at hresolve
      obtain ⟨room', hnew, heq⟩ := hresolve
      rw [hnew]
      simp only
      rw [roomUnlocked_congr h heq]
      split
      · rw [Option.map_some, Option.map_some, heq]
      · rfl

theorem writable_congr (h : SameAccess t t') (roomNum : Nat) :
    Writable c t' roomNum ↔ Writable c t roomNum := by
  have hresolve := resolveMailbox_congr (c := c) h (idOf roomNum)
  unfold Writable
  cases hold : resolveMailbox c t (idOf roomNum) with
  | none =>
    rw [hold, Option.map_none, Option.map_eq_none_iff] at hresolve
    rw [hresolve]
    rfl
  | some room =>
    rw [hold, Option.map_some, Option.map_eq_some_iff] at hresolve
    obtain ⟨room', hnew, heq⟩ := hresolve
    rw [hnew, Option.any_some, Option.any_some, canPost_congr h heq]

theorem resolveMailbox_roomNum {id : Bytes} {room : Room} (h : resolveMailbox c t id = some room) :
    idNum id = some room.roomNum ∧ getRoomByNum t.store room.roomNum = some room := by
  unfold resolveMailbox at h
  cases hid : idNum id with
  | none => rw [hid] at h; cases h
  | some n =>
    rw [hid] at h
    simp only at h
    cases hres : resolveRoomNumFor c t n with
    | none => rw [hres] at h; cases h
    | some found =>
      rw [hres] at h
      simp only at h
      split at h
      · obtain rfl := Option.some.inj h
        have hrow : getRoomByNum t.store n = some found := by
          unfold resolveRoomNumFor at hres
          split at hres
          · cases hres
          cases hget : getRoomByNum t.store n with
          | none => rw [hget] at hres; cases hres
          | some out =>
            rw [hget] at hres
            simp only at hres
            split at hres
            · cases hres
            split at hres
            · split at hres
              · exact hres
              · cases hres
            · exact hres
        have hnum : found.roomNum = n := by simpa using List.find?_some hrow
        exact ⟨by rw [hnum], by rw [hnum]; exact hrow⟩
      · cases h

/-- The message can be loaded: it is in one of the user's mailboxes and has a row. -/
theorem loadEmailFor_isSome {msgnum : Nat} : (loadEmailFor c t msgnum).isSome = true ↔
      (∃ n, Sees c t n ∧ messageInRoom t.store n msgnum = true) ∧
        (loadMessage t.store msgnum).isSome = true := by
  unfold loadEmailFor
  cases hfind : (jmapMailboxes c t).find? (fun room => messageInRoom t.store room.roomNum msgnum) with
  | none =>
    rw [List.find?_eq_none] at hfind
    refine iff_of_false (by simp) ?_
    rintro ⟨⟨n, ⟨room, hroom, rfl⟩, hin⟩, -⟩
    exact hfind room hroom hin
  | some room =>
    have hin : messageInRoom t.store room.roomNum msgnum = true := by
      simpa using List.find?_some hfind
    simp only [Option.isSome_map]
    exact (and_iff_right ⟨_, ⟨room, List.mem_of_find?_eq_some hfind, rfl⟩, hin⟩).symm

/-- The mailbox that is named does hold the message. -/
theorem loadEmailFor_room {msgnum fromRoom : Nat} {msg : Message}
    (h : loadEmailFor c t msgnum = some (msg, fromRoom)) :
    messageInRoom t.store fromRoom msgnum = true := by
  unfold loadEmailFor at h
  cases hfind : (jmapMailboxes c t).find? (fun room => messageInRoom t.store room.roomNum msgnum) with
  | none => rw [hfind] at h; cases h
  | some room =>
    rw [hfind, Option.map_eq_some_iff] at h
    obtain ⟨_, -, heq⟩ := h
    rw [Prod.mk.injEq] at heq
    rw [← heq.2]
    simpa using List.find?_some hfind

end Seen

end QuackMail.Jmap
