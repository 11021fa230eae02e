import QuackMail.Store.Messages

/-! # Rooms by name

`GetOrAssignUserNum`, `CreateRoom`, `UpdateRoom`, `FindUserRoom` and `GetOrCreateUserRoom` of
`citadel_store.cpp`.  The key of a personal room starts with the number of its owner;
`Sound` says what the constraints of the tables and `IsReservedRoomName` keep up, so that
a key that is found belongs to the user it was built for.
-/

namespace QuackMail.Citadel

/-! ## The tables -/

/-- The columns of `citadel_rooms` that name a room; `name` is its internal key. -/
structure RoomLabel where
  roomNum : Nat
  name : Bytes
  displayName : Bytes
  password : Bytes
  deriving DecidableEq

/-- The tables with the names of the rooms and the sequences that number users and rooms. -/
structure Directory where
  store : Store
  labels : List RoomLabel
  /-- the number `nextval('citadel_user_seq')` returns next -/
  userSeq : Nat
  /-- the number `nextval('citadel_room_seq')` returns next -/
  roomSeq : Nat
  /-- the `lower()` of the queries -/
  sqlLower : SqlLower := .ofAscii

def qrPrivate : Nat := 4

/-- `QR_MAILBOX | QR_PRIVATE | QR_PERMANENT`. -/
def mailboxFlags : Nat := 16390

/-- `%010lld`: at least ten digits. -/
def pad10 (n : Nat) : Bytes := List.replicate (10 - (num n).length) (ch '0') ++ num n

def mailboxRoomName (usernum : Nat) (displayName : Bytes) : Bytes :=
  pad10 usernum ++ ch '.' :: displayName

/-- The shape `MailboxRoomName` builds: ten digits, a dot, then anything. -/
def isReservedRoomName (displayName : Bytes) : Bool :=
  decide (12 ≤ displayName.length) && (displayName.take 10).all isDigit &&
    displayName[10]? == some (ch '.')

/-! ## The calls -/

/-- `GetOrAssignUserNum`: 0 for a name without credentials. -/
def getOrAssignUserNum (d : Directory) (username : Bytes) : Directory × Int :=
  if username ∈ d.store.credentials then
    match d.store.users.find? (fun u => u.1 = username) with
    | some u => (d, u.2)
    | none =>
      ({ d with store := { d.store with users := d.store.users ++ [(username, (d.userSeq : Int))] },
                userSeq := d.userSeq + 1 }, d.userSeq)
  else (d, 0)

/-- `CreateRoom`; the name of a room is unique. -/
def createRoom (d : Directory) (displayName : Bytes) (floor : Int) (qrFlags : Nat)
    (password : Bytes) (mailboxOwner : Nat) : Directory × Except Bytes Nat :=
  if displayName = [] then (d, .error (bytes "room name may not be empty"))
  else if mailboxOwner = 0 ∧ isReservedRoomName displayName then
    (d, .error (bytes "that name is reserved for personal mailboxes"))
  else
    let internal := if mailboxOwner > 0 then mailboxRoomName mailboxOwner displayName else displayName
    let drawn := { d with roomSeq := d.roomSeq + 1 }
    if d.labels.any (fun l => l.name = internal) then
      (drawn, .error (bytes "room already exists"))
    else
      ({ drawn with
          store := { d.store with
            rooms := d.store.rooms ++ [⟨d.roomSeq, floor, qrFlags, 0, mailboxOwner, 0⟩] }
          labels := d.labels ++ [⟨d.roomSeq, internal, displayName, password⟩] }, .ok d.roomSeq)

/-- `UpdateRoom`: the key follows the display name.  `floors` are the floors there are. -/
def updateRoom (floors : List Int) (d : Directory) (room : Room) (displayName password : Bytes) :
    Directory × Except Bytes Unit :=
  match getRoomByNum d.store room.roomNum with
  | none => (d, .error (bytes "no such room"))
  | some existing =>
    if displayName = [] then (d, .error (bytes "room name may not be empty"))
    else if existing.mailboxOwner = 0 ∧ isReservedRoomName displayName then
      (d, .error (bytes "that name is reserved for personal mailboxes"))
    else if room.floorNum ≠ existing.floorNum ∧ room.floorNum ∉ floors then
      (d, .error (bytes "no such floor"))
    else
      let internal := if existing.mailboxOwner > 0 then
        mailboxRoomName existing.mailboxOwner.toNat displayName else displayName
      if d.labels.any (fun l => l.name = internal ∧ l.roomNum ≠ room.roomNum) then
        (d, .error (bytes "a room with that name already exists"))
      else
        ({ d with
            store := { d.store with
              rooms := d.store.rooms.map (fun r =>
                if r.roomNum = room.roomNum then
                  { r with floorNum := room.floorNum, qrFlags := room.qrFlags,
                           defaultView := room.defaultView }
                else r) }
            labels := d.labels.map (fun l =>
              if l.roomNum = room.roomNum then
                { l with name := internal, displayName := displayName, password := password }
              else l) }, .ok ())

/-- `FindUserRoom`: the number of the room, or -1. -/
def findUserRoom (d : Directory) (username displayName : Bytes) : Directory × Int :=
  let r := getOrAssignUserNum d username
  if r.2 ≤ 0 then (r.1, -1)
  else
    match r.1.labels.find? (fun l =>
      d.sqlLower l.name = d.sqlLower (mailboxRoomName r.2.toNat displayName)) with
    | some l => (r.1, l.roomNum)
    | none => (r.1, -1)

/-- `GetOrCreateUserRoom`: the number of the room, or -1. -/
def getOrCreateUserRoom (d : Directory) (username displayName : Bytes) : Directory × Int :=
  let r := getOrAssignUserNum d username
  if r.2 ≤ 0 then (r.1, -1)
  else
    match r.1.labels.find? (fun l => l.name = mailboxRoomName r.2.toNat displayName) with
    | some l => (r.1, l.roomNum)
    | none =>
      match createRoom r.1 displayName 0 mailboxFlags [] r.2.toNat with
      | (d', .ok roomNum) => (d', roomNum)
      | (d', .error _) => (d', -1)

def getOrCreateMailRoom (d : Directory) (username : Bytes) : Directory × Int :=
  getOrCreateUserRoom d username (bytes "Mail")

@[simp] theorem sqlLower_number (d : Directory) (username : Bytes) :
    (getOrAssignUserNum d username).1.sqlLower = d.sqlLower := by
  rw [getOrAssignUserNum]
  split
  · split
    · rfl
    · rfl
  · rfl

@[simp] theorem sqlLower_createRoom (d : Directory) (name : Bytes) (floor : Int) (qrFlags : Nat)
    (password : Bytes) (owner : Nat) :
    (createRoom d name floor qrFlags password owner).1.sqlLower = d.sqlLower := by
  rw [createRoom]
  split
  · rfl
  split
  · rfl
  extract_lets internal drawn
  split
  · rfl
  · rfl

@[simp] theorem sqlLower_getOrCreateUserRoom (d : Directory) (username displayName : Bytes) :
    (getOrCreateUserRoom d username displayName).1.sqlLower = d.sqlLower := by
  rw [getOrCreateUserRoom]
  split
  · exact sqlLower_number d username
  · split
    · exact sqlLower_number d username
    · have hcreated := sqlLower_createRoom (getOrAssignUserNum d username).1 displayName 0
        mailboxFlags [] (getOrAssignUserNum d username).2.toNat
      rw [sqlLower_number] at hcreated
      split
      · next heq => rwa [heq] at hcreated
      · next heq => rwa [heq] at hcreated

/-! ## Keys -/

theorem pad10_eq (n : Nat) : ∃ k, pad10 n = List.replicate k (ch '0') ++ num n := ⟨_, rfl⟩

variable {n roomNum : Nat} {displayName : Bytes}

theorem isDigit_of_mem_pad10 {c : Byte} (h : c ∈ pad10 n) : isDigit c = true := by
  rw [pad10, List.mem_append] at h
  cases h with
  | inl h => rw [List.eq_of_mem_replicate h]; decide
  | inr h => exact isDigit_of_mem_num h

theorem digitsFrom_pad10 (n : Nat) : digitsFrom 0 (pad10 n) = n := by
  obtain ⟨k, hk⟩ := pad10_eq n
  have hzeros : ∀ k, digitsFrom 0 (List.replicate k (ch '0')) = 0 := by
    intro k
    induction k with
    | zero => rfl
    | succ k ih =>
      exact ih
  rw [hk, digitsFrom_append (fun c hc => by rw [List.eq_of_mem_replicate hc]; decide), hzeros,
    digitsFrom_num]

/-- Digits have no case. -/
theorem lower_digits {s : Bytes} (h : ∀ c ∈ s, isDigit c = true) : lower s = s := by
  have hdigit : ∀ c : Byte, isDigit c = true → toLower c = c :=
    forall_byte (P := fun c => isDigit c = true → toLower c = c) (by decide +kernel)
  conv_rhs => rw [← List.map_id s]
  exact List.map_congr_left fun c hc => hdigit c (h c hc)

theorem fold_mailboxRoomName (sql : SqlLower) (n : Nat) (d : Bytes) :
    sql (mailboxRoomName n d) = pad10 n ++ sql (ch '.' :: d) := by
  have hascii : ∀ c : Byte, isDigit c = true → c < 128 :=
    forall_byte (P := fun c => isDigit c = true → c < 128) (by decide +kernel)
  rw [mailboxRoomName, sql.ascii _ _ fun c hc => hascii c (isDigit_of_mem_pad10 hc),
    lower_digits fun c hc => isDigit_of_mem_pad10 hc]

/-- Equal keys are keys of one user. -/
theorem mailboxRoomName_inj {m : Nat} {x y : Bytes}
    (h : mailboxRoomName m x = mailboxRoomName n y) : m = n := by
  have hval : ∀ (n : Nat) (d : Bytes), digitsFrom 0 (mailboxRoomName n d) = n := by
    intro n d
    rw [mailboxRoomName, digitsFrom_append (fun c hc => isDigit_of_mem_pad10 hc), digitsFrom_pad10,
      digitsFrom, if_neg (by decide)]
  rw [← hval m x, h, hval]

theorem mailboxRoomName_fold_inj (sql : SqlLower) {m : Nat} {x y : Bytes}
    (h : sql (mailboxRoomName m x) = sql (mailboxRoomName n y)) : m = n := by
  have hdot : ∀ z : Bytes, sql (ch '.' :: z) = ch '.' :: sql z :=
    fun z => sql.ascii [ch '.'] z (by decide +kernel)
  rw [fold_mailboxRoomName, fold_mailboxRoomName, hdot, hdot] at h
  exact mailboxRoomName_inj h

/-! ## What the calls keep -/

/-- Numbers of users, rooms and messages come from their sequences, and a key of the shape of a
    personal room's is the key of a room of that user. -/
structure Sound (d : Directory) : Prop where
  userSeqPos : 0 < d.userSeq
  users : ∀ u ∈ d.store.users, 0 < u.2 ∧ u.2 < d.userSeq
  usersUnique : ∀ u ∈ d.store.users, ∀ v ∈ d.store.users, u.2 = v.2 → u.1 = v.1
  rooms : ∀ r ∈ d.store.rooms, r.roomNum < d.roomSeq
  roomsUnique : ∀ r ∈ d.store.rooms, ∀ r' ∈ d.store.rooms, r.roomNum = r'.roomNum → r = r'
  owners : ∀ r ∈ d.store.rooms, r.mailboxOwner < d.userSeq
  pointers : ∀ p ∈ d.store.roomMsgs, p.msgnum < d.store.seq ∧ p.roomNum < d.roomSeq
  keyed : ∀ l ∈ d.labels, ∀ n name, 0 < n →
    d.sqlLower l.name = d.sqlLower (mailboxRoomName n name) →
    ∃ r ∈ d.store.rooms, r.roomNum = l.roomNum ∧ r.mailboxOwner = n

/-- The room is a personal room of the user. -/
def Owns (d : Directory) (username : Bytes) (roomNum : Nat) : Prop :=
  ∃ r ∈ d.store.rooms, r.roomNum = roomNum ∧ 0 < r.mailboxOwner ∧
    r.mailboxOwner = userNum d.store username

/-- Users and rooms are added, and nothing else changes. -/
structure Extends (d d' : Directory) : Prop where
  credentials : d'.store.credentials = d.store.credentials
  quotas : d'.store.quotas = d.store.quotas
  rooms : ∀ r ∈ d.store.rooms, r ∈ d'.store.rooms
  newRooms : ∀ r ∈ d'.store.rooms, r ∈ d.store.rooms ∨ d.roomSeq ≤ r.roomNum
  labels : ∀ l ∈ d.labels, l ∈ d'.labels
  newUsers : ∀ u, userNum d'.store u = userNum d.store u ∨ (d.userSeq : Int) ≤ userNum d'.store u
  userNum : ∀ u, 0 < userNum d.store u → userNum d'.store u = userNum d.store u
  userSeq : d.userSeq ≤ d'.userSeq
  roomSeq : d.roomSeq ≤ d'.roomSeq
  messages : d'.store.messages = d.store.messages
  roomMsgs : d'.store.roomMsgs = d.store.roomMsgs
  tombstones : d'.store.tombstones = d.store.tombstones
  seq : d'.store.seq = d.store.seq
  sqlLower : d'.sqlLower = d.sqlLower

theorem Extends.refl (d : Directory) : Extends d d where
  credentials := rfl
  quotas := rfl
  rooms := fun _ h => h
  newRooms := fun _ h => .inl h
  labels := fun _ h => h
  userNum := fun _ _ => rfl
  newUsers := fun _ => .inl rfl
  userSeq := le_refl _
  roomSeq := le_refl _
  messages := rfl
  roomMsgs := rfl
  tombstones := rfl
  seq := rfl
  sqlLower := rfl

variable {d : Directory} {username : Bytes}

theorem Extends.trans {e f : Directory} (h : Extends d e) (h' : Extends e f) : Extends d f where
  credentials := h'.credentials.trans h.credentials
  quotas := h'.quotas.trans h.quotas
  rooms := fun r hr => h'.rooms r (h.rooms r hr)
  newRooms := by
    intro r hr
    cases h'.newRooms r hr with
    | inl hr => exact h.newRooms r hr
    | inr hnew => exact .inr (h.roomSeq.trans hnew)
  labels := fun l hl => h'.labels l (h.labels l hl)
  newUsers := by
    intro u
    have := h.userSeq
    cases h'.newUsers u with
    | inl heq => rw [heq]; exact h.newUsers u
    | inr hnew => exact .inr (by omega)
  userSeq := h.userSeq.trans h'.userSeq
  roomSeq := h.roomSeq.trans h'.roomSeq
  userNum := fun u hu => by rw [h'.userNum u (by rw [h.userNum u hu]; exact hu), h.userNum u hu]
  messages := h'.messages.trans h.messages
  roomMsgs := h'.roomMsgs.trans h.roomMsgs
  tombstones := h'.tombstones.trans h.tombstones
  seq := h'.seq.trans h.seq
  sqlLower := h'.sqlLower.trans h.sqlLower

/-- A room of that number was named or made. -/
def Added (d d' : Directory) (roomNum : Nat) : Prop :=
  (∃ l ∈ d'.labels, l ∉ d.labels ∧ l.roomNum = roomNum) ∨
    ∃ r ∈ d'.store.rooms, r ∉ d.store.rooms ∧ r.roomNum = roomNum

variable {d' : Directory}

theorem not_added (hlabels : d'.labels = d.labels)
    (hrooms : d'.store.rooms = d.store.rooms) (roomNum : Nat) : ¬Added d d' roomNum := by
  rintro (⟨l, hl, hnew, -⟩ | ⟨r, hr, hnew, -⟩)
  · exact hnew (hlabels ▸ hl)
  · exact hnew (hrooms ▸ hr)

theorem Added.split {e f : Directory} (h : Added d f roomNum) :
    Added d e roomNum ∨ Added e f roomNum := by
  cases h with
  | inl h =>
    obtain ⟨l, hl, hnew, hnum⟩ := h
    by_cases hbetween : l ∈ e.labels
    · exact .inl (.inl ⟨l, hbetween, hnew, hnum⟩)
    · exact .inr (.inl ⟨l, hl, hbetween, hnum⟩)
  | inr h =>
    obtain ⟨r, hr, hnew, hnum⟩ := h
    by_cases hbetween : r ∈ e.store.rooms
    · exact .inl (.inr ⟨r, hbetween, hnew, hnum⟩)
    · exact .inr (.inr ⟨r, hr, hbetween, hnum⟩)

theorem Owns.mono
    (h : Owns d username roomNum) (hext : Extends d d') : Owns d' username roomNum := by
  obtain ⟨r, hr, hnum, hpos, howner⟩ := h
  exact ⟨r, hext.rooms r hr, hnum, hpos, by rw [hext.userNum _ (howner ▸ hpos), howner]⟩

theorem mem_users_of_userNum {s : Store} (h : 0 < userNum s username) :
    (username, userNum s username) ∈ s.users := by
  rw [userNum] at h ⊢
  split at h
  · next hcred =>
    rw [if_pos hcred]
    cases hfind : s.users.find? (fun u => u.1 = username) with
    | none =>
      rw [hfind] at h
      exact absurd h (lt_irrefl 0)
    | some u =>
      have hname : u.1 = username := by simpa using List.find?_some hfind
      rw [← hname]
      exact List.mem_of_find?_eq_some hfind
  · exact absurd h (lt_irrefl 0)

theorem userNum_lt (h : Sound d) (username : Bytes) : userNum d.store username < d.userSeq := by
  by_cases hpos : 0 < userNum d.store username
  · exact (h.users _ (mem_users_of_userNum hpos)).2
  · have := h.userSeqPos
    omega

/-- A room has one owner. -/
theorem Owns.user_eq (hd : Sound d) {username' : Bytes}
    (h : Owns d username roomNum) (h' : Owns d username' roomNum) : username = username' := by
  obtain ⟨r, hr, hnum, hpos, howner⟩ := h
  obtain ⟨r', hr', hnum', hpos', howner'⟩ := h'
  obtain rfl := hd.roomsUnique r hr r' hr' (hnum.trans hnum'.symm)
  exact hd.usersUnique _ (mem_users_of_userNum (howner ▸ hpos)) _
    (mem_users_of_userNum (howner' ▸ hpos')) (howner.symm.trans howner')

/-- `GetOrAssignUserNum` answers what the tables then hold. -/
theorem getOrAssignUserNum_spec (h : Sound d) (username : Bytes) :
    Sound (getOrAssignUserNum d username).1 ∧ Extends d (getOrAssignUserNum d username).1 ∧
      (getOrAssignUserNum d username).2 = userNum (getOrAssignUserNum d username).1.store username ∧
      (getOrAssignUserNum d username).1.labels = d.labels ∧
      (getOrAssignUserNum d username).1.store.rooms = d.store.rooms ∧
      (0 < (getOrAssignUserNum d username).2 ↔ username ∈ d.store.credentials) := by
  rw [getOrAssignUserNum]
  split
  · next hcred =>
    cases hfind : d.store.users.find? (fun u => u.1 = username) with
    | some u =>
      refine ⟨h, .refl d, ?_, ?_⟩
      · simp only [userNum, if_pos hcred, hfind]
      · exact ⟨rfl, rfl, iff_of_true (h.users u (List.mem_of_find?_eq_some hfind)).1 hcred⟩
    | none =>
      have hseq : (0 : Int) < d.userSeq := by exact_mod_cast h.userSeqPos
      refine ⟨⟨Nat.succ_pos _, ?_, ?_, h.rooms, h.roomsUnique, ?_, h.pointers, h.keyed⟩,
        ⟨rfl, rfl, fun _ hr => hr, fun _ hr => .inl hr, fun _ hl => hl, ?_, ?_, Nat.le_succ _,
          le_refl _, rfl, rfl, rfl, rfl, rfl⟩, ?_, rfl, rfl, iff_of_true hseq hcred⟩
      · intro u hu
        push_cast
        cases List.mem_append.mp hu with
        | inl hu =>
          have := h.users u hu
          omega
        | inr hu =>
          rw [List.mem_singleton.mp hu]
          omega
      · intro u hu v hv heq
        cases List.mem_append.mp hu with
        | inl hu =>
          cases List.mem_append.mp hv with
          | inl hv => exact h.usersUnique u hu v hv heq
          | inr hv =>
            have := (h.users u hu).2
            rw [List.mem_singleton.mp hv] at heq
            exact absurd this (by rw [heq]; exact lt_irrefl _)
        | inr hu =>
          cases List.mem_append.mp hv with
          | inl hv =>
            have := (h.users v hv).2
            rw [List.mem_singleton.mp hu] at heq
            exact absurd this (by rw [← heq]; exact lt_irrefl _)
          | inr hv => rw [List.mem_singleton.mp hu, List.mem_singleton.mp hv]
      · intro r hr
        have := h.owners r hr
        push_cast
        omega
      · intro u
        simp only [userNum]
        split
        · rw [List.find?_append]
          cases d.store.users.find? (fun v => v.1 = u) with
          | some v => exact .inl rfl
          | none =>
            -- only the name that was numbered is found in the new row
            by_cases hu : username = u
            · exact .inr (by simp [hu])
            · exact .inl (by simp [hu])
        · exact .inl rfl
      · intro u hu
        simp only [userNum] at hu ⊢
        split at hu
        · next hcred' =>
          rw [if_pos hcred', if_pos hcred', List.find?_append]
          cases hfound : d.store.users.find? (fun v => v.1 = u) with
          | some v => rfl
          | none =>
            rw [hfound] at hu
            exact absurd hu (lt_irrefl 0)
        · exact absurd hu (lt_irrefl 0)
      · simp [userNum, if_pos hcred, hfind]
  · next hcred =>
    refine ⟨h, .refl d, ?_, rfl, rfl, iff_of_false (lt_irrefl 0) hcred⟩
    simp only [userNum, if_neg hcred]

/-- The rooms and labels after `CreateRoom` of a personal room. -/
theorem createRoom_spec (h : Sound d) {displayName : Bytes} {usernum : Nat}
    (hpos : 0 < usernum) (hbelow : usernum < d.userSeq) (hname : displayName ≠ []) {floor : Int}
    {qrFlags : Nat} {password : Bytes}
    (hnew : d.labels.find? (fun l => l.name = mailboxRoomName usernum displayName) = none) :
    ∃ d', createRoom d displayName floor qrFlags password usernum = (d', .ok d.roomSeq) ∧
      Sound d' ∧ Extends d d' ∧
      d'.labels = d.labels ++
        [⟨d.roomSeq, mailboxRoomName usernum displayName, displayName, password⟩] ∧
      ∃ r : Room, d'.store.rooms = d.store.rooms ++ [r] ∧ r.roomNum = d.roomSeq ∧
        r.mailboxOwner = usernum := by
  have hnone : d.labels.any (fun l => l.name = mailboxRoomName usernum displayName) = false := by
    rw [List.any_eq_false]
    exact fun l hl => List.find?_eq_none.mp hnew l hl
  rw [createRoom, if_neg hname, if_neg (by omega)]
  simp only [if_pos hpos, hnone, Bool.false_eq_true, if_false]
  refine ⟨_, rfl, ⟨h.userSeqPos, h.users, h.usersUnique, ?_, ?_, ?_, fun p hp =>
      ⟨(h.pointers p hp).1, Nat.lt_succ_of_lt (h.pointers p hp).2⟩, ?_⟩,
    ⟨rfl, rfl, fun r hr => List.mem_append_left _ hr, ?_, fun l hl => List.mem_append_left _ hl,
      fun _ => .inl rfl, fun _ _ => rfl, le_refl _, Nat.le_succ _, rfl, rfl, rfl, rfl, rfl⟩, rfl, _,
    rfl, rfl, rfl⟩
  · intro r hr
    cases List.mem_append.mp hr with
    | inl hr => exact Nat.lt_succ_of_lt (h.rooms r hr)
    | inr hr => rw [List.mem_singleton.mp hr]; exact Nat.lt_succ_self _
  · intro r hr r' hr' heq
    cases List.mem_append.mp hr with
    | inl hr =>
      cases List.mem_append.mp hr' with
      | inl hr' => exact h.roomsUnique r hr r' hr' heq
      | inr hr' =>
        have := h.rooms r hr
        rw [List.mem_singleton.mp hr'] at heq
        exact absurd heq (Nat.ne_of_lt this)
    | inr hr =>
      cases List.mem_append.mp hr' with
      | inl hr' =>
        have := h.rooms r' hr'
        rw [List.mem_singleton.mp hr] at heq
        exact absurd heq.symm (Nat.ne_of_lt this)
      | inr hr' => rw [List.mem_singleton.mp hr, List.mem_singleton.mp hr']
  · intro r hr
    cases List.mem_append.mp hr with
    | inl hr => exact h.owners r hr
    | inr hr =>
      rw [List.mem_singleton.mp hr]
      exact Int.ofNat_lt.mpr hbelow
  · intro l hl n name hn heq
    cases List.mem_append.mp hl with
    | inl hl =>
      obtain ⟨r, hr, hnum⟩ := h.keyed l hl n name hn heq
      exact ⟨r, List.mem_append_left _ hr, hnum⟩
    | inr hl =>
      rw [List.mem_singleton.mp hl] at heq ⊢
      exact ⟨_, List.mem_append_right _ (List.mem_singleton_self _), rfl,
        by rw [mailboxRoomName_fold_inj d.sqlLower heq]⟩
  · intro r hr
    cases List.mem_append.mp hr with
    | inl hr => exact .inl hr
    | inr hr => exact .inr (by rw [List.mem_singleton.mp hr])

/-- What a call for a room of a user answers: -1, or the number of a room of that user. -/
structure RoomCall (d : Directory) (username : Bytes) (r : Directory × Int) : Prop where
  sound : Sound r.1
  ext : Extends d r.1
  owns : 0 ≤ r.2 → Owns r.1 username r.2.toNat
  added : ∀ roomNum, Added d r.1 roomNum → 0 ≤ r.2 ∧ Owns r.1 username roomNum

/-- A room under a key of the user is a room of the user. -/
theorem owns_of_label (h : Sound d) {l : RoomLabel}
    (hl : l ∈ d.labels) {name : Bytes} (hpos : 0 < userNum d.store username)
    (hkey : d.sqlLower l.name = d.sqlLower (mailboxRoomName (userNum d.store username).toNat name)) :
    Owns d username l.roomNum := by
  obtain ⟨r, hr, hnum, howner⟩ := h.keyed l hl _ name (by omega) hkey
  exact ⟨r, hr, hnum, by omega, by omega⟩

theorem findUserRoom_spec (h : Sound d) (username displayName : Bytes) :
    RoomCall d username (findUserRoom d username displayName) := by
  obtain ⟨hsound, hext, hnum, hlabels, hrooms, -⟩ := getOrAssignUserNum_spec h username
  have hold := not_added hlabels hrooms
  rw [findUserRoom]
  split
  · exact ⟨hsound, hext, fun hneg => (by cases hneg), fun n hn => absurd hn (hold n)⟩
  · next hpos =>
    cases hfind : (getOrAssignUserNum d username).1.labels.find? (fun l =>
        d.sqlLower l.name = d.sqlLower (mailboxRoomName (getOrAssignUserNum d username).2.toNat
          displayName)) with
    | none => exact ⟨hsound, hext, fun hneg => (by cases hneg), fun n hn => absurd hn (hold n)⟩
    | some l =>
      refine ⟨hsound, hext, fun _ => ?_, fun n hn => absurd hn (hold n)⟩
      rw [hnum, ← hext.sqlLower] at hfind
      rw [hnum] at hpos
      exact owns_of_label hsound (List.mem_of_find?_eq_some hfind) (by omega)
        (by simpa using List.find?_some hfind)

theorem getOrCreateUserRoom_spec {d : Directory} (h : Sound d) (username displayName : Bytes) :
    RoomCall d username (getOrCreateUserRoom d username displayName) := by
  obtain ⟨hsound, hext, hnum, hlabels, hrooms, -⟩ := getOrAssignUserNum_spec h username
  have hold := not_added hlabels hrooms
  rw [getOrCreateUserRoom]
  split
  · exact ⟨hsound, hext, fun hneg => (by cases hneg), fun n hn => absurd hn (hold n)⟩
  · next hpos =>
    cases hfind : (getOrAssignUserNum d username).1.labels.find? (fun l =>
        l.name = mailboxRoomName (getOrAssignUserNum d username).2.toNat displayName) with
    | some l =>
      refine ⟨hsound, hext, fun _ => ?_, fun n hn => absurd hn (hold n)⟩
      rw [hnum] at hpos hfind
      exact owns_of_label hsound (List.mem_of_find?_eq_some hfind) (by omega)
        (congrArg _ (by simpa using List.find?_some hfind))
    | none =>
      by_cases hname : displayName = []
      · -- a room without a name is refused
        rw [createRoom, if_pos hname]
        exact ⟨hsound, hext, fun hneg => (by cases hneg), fun n hn => absurd hn (hold n)⟩
      have hbelow := userNum_lt hsound username
      obtain ⟨d', hcreate, hsound', hext', hnew, r, hmade, hroom, howner⟩ :=
        @createRoom_spec _ hsound displayName _ (by omega) (by omega) hname 0 mailboxFlags [] hfind
      simp only [hcreate]
      have huser : userNum d'.store username =
          userNum (getOrAssignUserNum d username).1.store username :=
        hext'.userNum _ (by omega)
      have howns : Owns d' username (getOrAssignUserNum d username).1.roomSeq := by
        refine ⟨r, hmade ▸ List.mem_append_right _ (List.mem_singleton_self r), hroom, by omega, ?_⟩
        omega
      refine ⟨hsound', hext.trans hext', fun _ => howns, fun n hn => ⟨Int.natCast_nonneg _, ?_⟩⟩
      cases (Added.split hn).resolve_left (hold n) with
      | inl hn =>
        obtain ⟨l, hl, hfresh, rfl⟩ := hn
        rw [hnew] at hl
        rw [List.mem_singleton.mp ((List.mem_append.mp hl).resolve_left hfresh)]
        exact howns
      | inr hn =>
        obtain ⟨r', hr', hfresh, rfl⟩ := hn
        rw [hmade] at hr'
        rw [List.mem_singleton.mp ((List.mem_append.mp hr').resolve_left hfresh), hroom]
        exact howns

/-- Where no statement fails, a user with an account gets a room. -/
theorem getOrCreateUserRoom_nonneg_iff {d : Directory} (h : Sound d) {username : Bytes}
    (hname : displayName ≠ []) :
    0 ≤ (getOrCreateUserRoom d username displayName).2 ↔ username ∈ d.store.credentials := by
  obtain ⟨hsound, -, hnum, -, -, hcred⟩ := getOrAssignUserNum_spec h username
  rw [← hcred, getOrCreateUserRoom]
  split
  · next hneg => exact iff_of_false (fun h => by cases h) (by omega)
  · next hpos =>
    refine iff_of_true ?_ (by omega)
    cases hfind : (getOrAssignUserNum d username).1.labels.find? (fun l =>
        l.name = mailboxRoomName (getOrAssignUserNum d username).2.toNat displayName) with
    | some l => exact Int.natCast_nonneg _
    | none =>
      have hbelow := userNum_lt hsound username
      obtain ⟨d', hcreate, -⟩ :=
        @createRoom_spec _ hsound displayName _ (by omega) (by omega) hname 0 mailboxFlags [] hfind
      simp only [hcreate]
      exact Int.natCast_nonneg _

/-! ## Calls one after the other -/

/-- The directory after calls of `GetOrCreateUserRoom`, each a user and a name. -/
def askRooms (d : Directory) (calls : List (Bytes × Bytes)) : Directory :=
  calls.foldl (fun d c => (getOrCreateUserRoom d c.1 c.2).1) d

theorem askRooms_sound (calls : List (Bytes × Bytes)) {d : Directory} (h : Sound d) :
    Sound (askRooms d calls) ∧ Extends d (askRooms d calls) := by
  induction calls generalizing d with
  | nil => exact ⟨h, .refl d⟩
  | cons c calls ih =>
    -- a call keeps what those before it made
    have hcall : RoomCall d c.1 _ := getOrCreateUserRoom_spec h c.1 c.2
    obtain ⟨hsound, hext⟩ := ih hcall.sound
    exact ⟨hsound, hcall.ext.trans hext⟩

/-- Two calls with any calls between them are answered with one room only for one user. -/
theorem room_of_one_user {d : Directory} (h : Sound d) (between : List (Bytes × Bytes))
    (user name user' name' : Bytes) :
    let first := getOrCreateUserRoom d user name
    let last := getOrCreateUserRoom (askRooms first.1 between) user' name'
    0 ≤ first.2 → last.2 = first.2 → user = user' := by
  intro first last hroom heq
  have hfirst : RoomCall d user first := getOrCreateUserRoom_spec h user name
  obtain ⟨hsound, hext⟩ := askRooms_sound between hfirst.sound
  have hlast : RoomCall _ user' last := getOrCreateUserRoom_spec hsound user' name'
  have howns := (hfirst.owns hroom).mono (hext.trans hlast.ext)
  have howns' := hlast.owns (heq ▸ hroom)
  rw [heq] at howns'
  exact howns.user_eq hlast.sound howns'

/-- The second user asks for the room the first one has. -/
theorem room_of_one_user_two :
    let d : Directory := ⟨⟨[], [], [], [], 1, [], [], [[1], [2]], []⟩, [], 1, 100, .ofAscii⟩
    let first := getOrCreateUserRoom d [1] [3]
    (getOrCreateUserRoom (askRooms first.1 [([2], [4]), ([1], [])]) [2] [3]).2 ≠ first.2 := by
  intro d first heq
  have hsound : Sound d := by constructor <;> simp [d]
  have hsame : ([1] : Bytes) = [2] :=
    room_of_one_user hsound [([2], [4]), ([1], [])] [1] [3] [2] [3] (by decide) heq
  simp at hsame

/-! ## What other calls leave alone -/

/-- The user has a room of that name, in any case. -/
def HasRoom (d : Directory) (username displayName : Bytes) : Prop :=
  0 < userNum d.store username ∧ ∃ l ∈ d.labels,
    d.sqlLower l.name = d.sqlLower (mailboxRoomName (userNum d.store username).toNat displayName)

theorem findUserRoom_nonneg_iff (h : Sound d) (username displayName : Bytes) :
    0 ≤ (findUserRoom d username displayName).2 ↔ HasRoom d username displayName := by
  obtain ⟨hsound, hext, hnum, hlabels, -⟩ := getOrAssignUserNum_spec h username
  rw [findUserRoom, hlabels]
  split
  · next hneg =>
    refine iff_of_false (fun h => by cases h) fun hroom => ?_
    have := hext.userNum _ hroom.1
    have := hroom.1
    omega
  · next hpos =>
    constructor
    · intro hfound
      cases hfind : d.labels.find? (fun l =>
          d.sqlLower l.name = d.sqlLower (mailboxRoomName (getOrAssignUserNum d username).2.toNat
            displayName)) with
      | none => rw [hfind] at hfound; cases hfound
      | some l =>
        have hl := List.mem_of_find?_eq_some hfind
        have hkey : d.sqlLower l.name = d.sqlLower (mailboxRoomName (getOrAssignUserNum d username).2.toNat
          displayName) := by simpa using List.find?_some hfind
        -- a number assigned just now is the owner of no room, so the number is an old one
        obtain ⟨r, hr, -, howner⟩ := h.keyed l hl _ displayName (by omega) hkey
        have hbelow := h.owners r hr
        have hsame : (getOrAssignUserNum d username).2 = userNum d.store username := by
          cases hext.newUsers username with
          | inl hsame => omega
          | inr hnew => omega
        rw [hsame] at hkey hpos
        exact ⟨by omega, l, hl, hkey⟩
    · rintro ⟨hpos', l, hl, hkey⟩
      rw [hnum, hext.userNum _ hpos']
      cases hfind : d.labels.find? (fun l =>
          d.sqlLower l.name = d.sqlLower (mailboxRoomName (userNum d.store username).toNat displayName)) with
      | none => exact absurd hkey (by simpa using List.find?_eq_none.mp hfind l hl)
      | some l' => exact Int.natCast_nonneg _

theorem HasRoom.mono (h : HasRoom d username displayName) (hext : Extends d d') :
    HasRoom d' username displayName := by
  obtain ⟨hpos, l, hl, hkey⟩ := h
  rw [HasRoom, hext.userNum _ hpos, hext.sqlLower]
  exact ⟨hpos, l, hext.labels l hl, hkey⟩

/-- Rooms of others make no difference. -/
theorem HasRoom.of_extends (hd : Sound d) (hd' : Sound d') (hext : Extends d d')
    (hnew : ∀ roomNum, Added d d' roomNum → ∃ other, other ≠ username ∧ Owns d' other roomNum)
    (h : HasRoom d' username displayName) : HasRoom d username displayName := by
  obtain ⟨hpos, l, hl, hkey⟩ := h
  by_cases hold : l ∈ d.labels
  · rw [hext.sqlLower] at hkey
    obtain ⟨r, hr, -, howner⟩ := hd.keyed l hold _ displayName (by omega) hkey
    have hbelow := hd.owners r hr
    have hsame : userNum d'.store username = userNum d.store username := by
      cases hext.newUsers username with
      | inl hsame => exact hsame
      | inr hnew => omega
    rw [hsame] at hpos hkey
    exact ⟨hpos, l, hold, hkey⟩
  · obtain ⟨other, hne, howns⟩ := hnew l.roomNum (.inl ⟨l, hl, hold, rfl⟩)
    exact absurd (howns.user_eq hd' (owns_of_label hd' hl hpos hkey)) hne

/-- New rooms are empty, and a new number is the owner of none. -/
theorem computeUsage_extends (hd : Sound d) (hext : Extends d d')
    (username : Bytes) : computeUsage d'.store username = computeUsage d.store username := by
  have hkept : ∀ owner msgnum, keptBy d'.store owner msgnum = keptBy d.store owner msgnum := by
    intro owner msgnum
    rw [keptBy, keptBy, hext.roomMsgs, Bool.eq_iff_iff, List.any_eq_true, List.any_eq_true]
    refine exists_congr fun p => and_congr_right fun hp => ?_
    rw [Bool.and_eq_true, Bool.and_eq_true, List.any_eq_true, List.any_eq_true]
    refine and_congr_right fun _ => ?_
    constructor
    · rintro ⟨r, hr, hmatch⟩
      cases hext.newRooms r hr with
      | inl hr => exact ⟨r, hr, hmatch⟩
      | inr hnew =>
        have := (hd.pointers p hp).2
        rw [Bool.and_eq_true, beq_iff_eq] at hmatch
        omega
    · rintro ⟨r, hr, hmatch⟩
      exact ⟨r, hext.rooms r hr, hmatch⟩
  have hnone : ∀ owner : Int, (d.userSeq : Int) ≤ owner → ∀ msgnum,
      keptBy d.store owner msgnum = false := by
    intro owner howner msgnum
    rw [keptBy, List.any_eq_false]
    intro p _
    rw [Bool.and_eq_true, List.any_eq_true]
    rintro ⟨-, r, hr, hmatch⟩
    rw [Bool.and_eq_true, beq_iff_eq, beq_iff_eq] at hmatch
    have := hd.owners r hr
    omega
  have hseq := hd.userSeqPos
  rw [computeUsage, computeUsage, hext.messages]
  simp only [hkept]
  cases hext.newUsers username with
  | inl hsame => rw [hsame]
  | inr hnew =>
    -- a number that was assigned since: the user was 0 before, or has kept its number
    rw [if_neg (by omega)]
    simp only [hnone _ hnew, Bool.and_false, List.filter_false, List.map_nil, List.sum_nil]
    split
    · rfl
    · next hpos =>
      have := hext.userNum username (by omega)
      have := userNum_lt hd username
      omega

end QuackMail.Citadel
