import QuackMail.Jmap.Effects
import QuackMail.Jmap.Keywords
import QuackMail.Lib.FirstMention

/-! # The emails of an account

`AccountState`, `EmailToJson` and `EmailChanges` of the JMAP sources.  The state of an account
is the largest token of its mailboxes, and what changed since a state is read off the messages
and the tombstones with larger numbers, mailbox by mailbox.  An email whose first mention is a
tombstone counts as updated, any other as created.
-/

namespace QuackMail.Jmap

open Citadel Imap FirstMention

/-! ## State strings -/

/-- The largest token of the mailboxes. -/
def accountHigh (c : Ctx) (t : Tables) : Nat :=
  (jmapMailboxes c t).foldl
    (fun high room =>
      let token := roomChangeToken t.store room.roomNum
      if token > high then token else high) 0

/-- `AccountState`. -/
def accountState (c : Ctx) (t : Tables) : Bytes := num (accountHigh c t)

/-- `AccountStateValue`. -/
def accountStateValue (state : Bytes) : Option Nat := idNum state

/-! ## Emails -/

/-- What `EmailToJson` shows: everything else in it is a function of the message and the name
    of the node. -/
structure Email where
  message : Message
  node : Bytes
  mailboxIds : List Bytes
  keywords : List Bytes

def emailToJson (c : Ctx) (t : Tables) (msg : Message) (roomNum : Nat) : Email :=
  let ids := ((jmapMailboxes c t).filter
    (fun room => messageInRoom t.store room.roomNum msg.msgnum)).map (fun room => idOf room.roomNum)
  { message := msg
    node := getConfig t.store (bytes "c_nodename") (bytes "quackcit")
    mailboxIds := if ids = [] then [idOf roomNum] else ids
    keywords := keywordsFor t.server c.username msg.msgnum }

/-- The object that `Email/get` returns for the id of the message, if the user may see it. -/
def emailGet (c : Ctx) (t : Tables) (msgnum : Nat) : Option Email :=
  (loadEmailFor c t msgnum).map (fun found => emailToJson c t found.1 found.2)

/-- The same JSON object: the order of its members does not matter. -/
def Email.Same (a b : Email) : Prop :=
  a.message = b.message ∧ a.node = b.node ∧ (∀ id, id ∈ a.mailboxIds ↔ id ∈ b.mailboxIds) ∧
    ∀ k, k ∈ a.keywords ↔ k ∈ b.keywords

def SameObject : Option Email → Option Email → Prop
  | none, none => True
  | some a, some b => a.Same b
  | _, _ => False

/-- The user can see the message. -/
def Visible (c : Ctx) (t : Tables) (msgnum : Nat) : Prop :=
  ∃ n, Sees c t n ∧ messageInRoom t.store n msgnum = true

/-! ## Changes -/

/-- The list of an answer of `Email/changes` that an id goes into. -/
inductive Class where
  | created | updated | destroyed

structure Changes where
  created : List Bytes
  updated : List Bytes
  destroyed : List Bytes

def Changes.listOf (changes : Changes) : Class → List Bytes
  | .created => changes.created
  | .updated => changes.updated
  | .destroyed => changes.destroyed

def Changes.all (changes : Changes) : List Bytes :=
  changes.created ++ changes.updated ++ changes.destroyed

/-- A message removed from one room may still be in another the user can see. -/
def classOf (c : Ctx) (t : Tables) (ch : RoomChange) : Class :=
  if (loadEmailFor c t ch.msgnum).isSome = false then .destroyed
  else if ch.deleted then .updated
  else .created

def Changes.push (changes : Changes) (c : Ctx) (t : Tables) (ch : RoomChange) : Changes :=
  match classOf c t ch with
  | .created => { changes with created := changes.created ++ [idOf ch.msgnum] }
  | .updated => { changes with updated := changes.updated ++ [idOf ch.msgnum] }
  | .destroyed => { changes with destroyed := changes.destroyed ++ [idOf ch.msgnum] }

/-- The loops of `EmailChanges`: a message counts where it is mentioned first. -/
def changesSince (c : Ctx) (t : Tables) (since : Nat) : Changes :=
  ((jmapMailboxes c t).foldl
    (fun acc room => (roomChangesSince t.store room.roomNum since).foldl
      (skipping RoomChange.msgnum (fun changes ch => changes.push c t ch)) acc)
    ([], ⟨[], [], []⟩)).2

structure ChangesAnswer where
  oldState : Bytes
  newState : Bytes
  changes : Changes

/-- `EmailChanges`, with the arguments it reads. -/
def emailChanges (account : Bytes) (c : Ctx) (accountId sinceState : Bytes) (maxChanges : Int)
    (t : Tables) : Except Bytes ChangesAnswer :=
  if accountId ≠ [] ∧ accountId ≠ account then .error (bytes "accountNotFound")
  else
    match accountStateValue sinceState with
    | none => .error (bytes "cannotCalculateChanges")
    | some since =>
      let changes := changesSince c t since
      if maxChanges > 0 ∧ (changes.all.length : Int) > maxChanges then
        .error (bytes "cannotCalculateChanges")
      else .ok ⟨num since, accountState c t, changes⟩

/-! ## The rooms in the order of the mailboxes -/

/-- The numbers of the mailboxes. -/
def mailboxNums (c : Ctx) (t : Tables) : List Nat := (jmapMailboxes c t).map Room.roomNum

/-- Everything but the messages, the flags and what is in which room is the same. -/
structure Undisturbed (t t' : Tables) : Prop where
  framed : Framed t.store t'.store
  labels : t'.realm.dir.labels = t.realm.dir.labels
  userSeq : t'.realm.dir.userSeq = t.realm.dir.userSeq
  sqlLower : t'.realm.dir.sqlLower = t.realm.dir.sqlLower
  acl : t'.realm.acl = t.realm.acl
  levels : t'.realm.levels = t.realm.levels
  unlocked : t'.realm.unlocked = t.realm.unlocked
  zapped : t'.zapped = t.zapped

section Nums

variable {c : Ctx} {t t' : Tables}

theorem Undisturbed.refl (t : Tables) : Undisturbed t t := ⟨.refl _, rfl, rfl, rfl, rfl, rfl, rfl, rfl⟩

theorem Undisturbed.trans {u : Tables} (h : Undisturbed t t') (h' : Undisturbed t' u) :
    Undisturbed t u :=
  ⟨h.framed.trans h'.framed, h'.labels.trans h.labels, h'.userSeq.trans h.userSeq,
    h'.sqlLower.trans h.sqlLower, h'.acl.trans h.acl, h'.levels.trans h.levels,
    h'.unlocked.trans h.unlocked, h'.zapped.trans h.zapped⟩

theorem Undisturbed.withStore {s : Store} (h : Framed t.store s) : Undisturbed t (t.withStore s) :=
  ⟨h, rfl, rfl, rfl, rfl, rfl, rfl, rfl⟩

theorem Undisturbed.withFlags (t : Tables) (flags : List FlagRow) :
    Undisturbed t (t.withFlags flags) :=
  ⟨.refl _, rfl, rfl, rfl, rfl, rfl, rfl, rfl⟩

/-- Access does not depend on the messages, so these may be put back. -/
theorem Undisturbed.sameAccess (h : Undisturbed t t') :
    SameAccess t (t'.withStore { t'.store with messages := t.store.messages }) :=
  ⟨h.framed.rooms, rfl, h.framed.users, h.framed.credentials, h.labels, h.userSeq, h.sqlLower,
    h.acl, h.levels, h.unlocked, h.zapped⟩

theorem userNumOf_messages (t : Tables) (messages : List Row) (username : Bytes) :
    userNumOf (t.withStore { t.store with messages := messages }).realm username =
      userNumOf t.realm username :=
  userNumOf_eq t.realm (t.withStore { t.store with messages := messages }).realm rfl rfl rfl username

theorem isListed_undisturbed (h : Undisturbed t t') (username : Bytes) :
    isListed t' username = isListed t username := by
  funext room
  rw [← isListed_congr h.sameAccess rfl username]
  unfold isListed usernumOf
  rw [userNumOf_messages]
  rfl

theorem roomUnlocked_undisturbed (h : Undisturbed t t') (username : Bytes) :
    roomUnlocked t'.realm username = roomUnlocked t.realm username := by
  funext room
  rw [← roomUnlocked_congr h.sameAccess rfl username]
  unfold roomUnlocked ownsRoom
  rw [userNumOf_messages]
  rfl

theorem mem_mailboxNums {n : Nat} : n ∈ mailboxNums c t ↔ Sees c t n := by
  rw [mailboxNums, List.mem_map]
  rfl

theorem plain_plain (room : Room) : plain (plain room) = plain room := rfl

/-- The mailboxes are read off the rooms as they are without what filing changes. -/
theorem map_plain_jmapMailboxes (c : Ctx) (t : Tables) : (jmapMailboxes c t).map plain =
      (((t.store.rooms.map plain).filter (isListed t c.username)).insertionSort
        (fun a b => keyName t.realm a ≤ keyName t.realm b)).filter
          (roomUnlocked t.realm c.username) := by
  have hunlocked : ∀ rooms : List Room, (rooms.filter (roomUnlocked t.realm c.username)).map plain =
      (rooms.map plain).filter (roomUnlocked t.realm c.username) := by
    intro rooms
    rw [List.filter_map]
    refine congrArg _ (List.filter_congr fun r _ => ?_)
    exact (roomUnlocked_congr (SameAccess.refl t) (plain_plain r) c.username).symm
  have hlisted : ∀ rooms : List Room, (rooms.filter (isListed t c.username)).map plain =
      (rooms.map plain).filter (isListed t c.username) := by
    intro rooms
    rw [List.filter_map]
    refine congrArg _ (List.filter_congr fun r _ => ?_)
    exact (isListed_congr (SameAccess.refl t) (plain_plain r) c.username).symm
  have hsorted : ∀ rooms : List Room,
      (rooms.insertionSort (fun a b => keyName t.realm a ≤ keyName t.realm b)).map plain =
        (rooms.map plain).insertionSort (fun a b => keyName t.realm a ≤ keyName t.realm b) :=
    fun rooms => List.map_insertionSort _ _ plain rooms fun _ _ _ _ => Iff.rfl
  rw [jmapMailboxes, hunlocked, listRooms, hsorted, hlisted]

theorem mailboxNums_congr (h : Undisturbed t t') : mailboxNums c t' = mailboxNums c t := by
  have hnums : ∀ u : Tables, mailboxNums c u = ((jmapMailboxes c u).map plain).map Room.roomNum := by
    intro u
    rw [List.map_map]
    rfl
  have hkeys : ∀ room, keyName t'.realm room = keyName t.realm room := by
    intro room
    rw [keyName, keyName, labelOf, labelOf, h.labels]
  rw [hnums, hnums, map_plain_jmapMailboxes, map_plain_jmapMailboxes, h.framed.rooms,
    isListed_undisturbed h, roomUnlocked_undisturbed h]
  simp [hkeys]

theorem sees_undisturbed (h : Undisturbed t t') (n : Nat) : Sees c t' n ↔ Sees c t n := by
  rw [← mem_mailboxNums, ← mem_mailboxNums, mailboxNums_congr h]

end Nums

/-! ## Objects -/

section Objects

variable {c : Ctx} {t t' : Tables} {E E' : Nat → Message} {m : Nat}

theorem SameObject.refl (a : Option Email) : SameObject a a := by
  cases a with
  | none => trivial
  | some a => exact ⟨rfl, rfl, fun _ => Iff.rfl, fun _ => Iff.rfl⟩

theorem SameObject.trans {x y z : Option Email} (h : SameObject x y) (h' : SameObject y z) :
    SameObject x z := by
  cases x with
  | none =>
    cases y with
    | none => exact h'
    | some b => exact h.elim
  | some a =>
    cases y with
    | none => exact h.elim
    | some b =>
      cases z with
      | none => exact h'.elim
      | some d =>
        obtain ⟨hmessage, hnode, hids, hkeywords⟩ := h
        obtain ⟨hmessage', hnode', hids', hkeywords'⟩ := h'
        exact ⟨hmessage.trans hmessage', hnode.trans hnode', fun id => (hids id).trans (hids' id),
          fun k => (hkeywords k).trans (hkeywords' k)⟩

theorem loadMessage_of_ok (hok : Ok E t.store) {n : Nat}
    (hin : messageInRoom t.store n m = true) : loadMessage t.store m = some (E m) := by
  obtain ⟨r, hr, hnum⟩ := hok.pointers ⟨n, m⟩ (of_decide_eq_true hin)
  have hnum' : r.msg.msgnum = m := hnum
  rw [loadMessage, ← hnum', findRow_of_mem hok hr, Option.map_some]
  exact congrArg some (hok.rowLabel r hr)

theorem loadEmailFor_isSome_iff (hok : Ok E t.store) :
    (loadEmailFor c t m).isSome = true ↔ Visible c t m := by
  rw [loadEmailFor_isSome]
  refine and_iff_left_of_imp ?_
  rintro ⟨n, -, hin⟩
  rw [loadMessage_of_ok hok hin]
  rfl

theorem emailGet_isSome_iff (hok : Ok E t.store) :
    (emailGet c t m).isSome = true ↔ Visible c t m := by
  rw [emailGet, Option.isSome_map, loadEmailFor_isSome_iff hok]

/-- What the object shows. -/
theorem emailGet_eq_some (hok : Ok E t.store) {e : Email} (h : emailGet c t m = some e) :
    e.message = E m ∧ e.node = getConfig t.store (bytes "c_nodename") (bytes "quackcit") ∧
      (∀ id, id ∈ e.mailboxIds ↔
        ∃ n, Sees c t n ∧ messageInRoom t.store n m = true ∧ idOf n = id) ∧
      e.keywords = keywordsFor t.server c.username m := by
  rw [emailGet, Option.map_eq_some_iff] at h
  obtain ⟨⟨msg, roomNum⟩, hload, rfl⟩ := h
  obtain ⟨n, hsees, hin⟩ := (loadEmailFor_isSome_iff hok).mp (Option.isSome_iff_exists.mpr ⟨_, hload⟩)
  have hmsg : msg = E m := by
    unfold loadEmailFor at hload
    rw [loadMessage_of_ok hok hin] at hload
    split at hload
    · cases hload
    · exact (congrArg Prod.fst (Option.some.inj hload)).symm
  have hnum : msg.msgnum = m := by
    obtain ⟨r, hr, hrnum⟩ := hok.pointers ⟨n, m⟩ (of_decide_eq_true hin)
    have hrnum' : r.msg.msgnum = m := hrnum
    rw [hmsg, ← hrnum', ← hok.rowLabel r hr]
  subst hnum
  refine ⟨hmsg, rfl, fun id => ?_, rfl⟩
  have hids : ∀ id, id ∈ ((jmapMailboxes c t).filter (fun room =>
      messageInRoom t.store room.roomNum msg.msgnum)).map (fun room => idOf room.roomNum) ↔
        ∃ n, Sees c t n ∧ messageInRoom t.store n msg.msgnum = true ∧ idOf n = id := by
    intro id
    rw [List.mem_map]
    constructor
    · rintro ⟨room, hroom, rfl⟩
      obtain ⟨hmem, hholds⟩ := List.mem_filter.mp hroom
      exact ⟨room.roomNum, ⟨room, hmem, rfl⟩, hholds, rfl⟩
    · rintro ⟨_, ⟨room, hmem, rfl⟩, hholds, rfl⟩
      exact ⟨room, List.mem_filter.mpr ⟨hmem, hholds⟩, rfl⟩
  have hnonempty : ((jmapMailboxes c t).filter (fun room =>
      messageInRoom t.store room.roomNum msg.msgnum)).map (fun room => idOf room.roomNum) ≠ [] :=
    List.ne_nil_of_mem ((hids (idOf n)).mpr ⟨n, hsees, hin, rfl⟩)
  simp only [emailToJson]
  rw [if_neg hnonempty, hids]

/-- The object is decided by the message, the mailboxes that hold it and its keywords. -/
theorem sameObject_of (hok : Ok E t.store) (hok' : Ok E' t'.store) (h : Undisturbed t t')
    (hmessage : Visible c t m → E' m = E m)
    (hrooms : ∀ n, Sees c t n →
      (messageInRoom t'.store n m = true ↔ messageInRoom t.store n m = true))
    (hkeywords : Visible c t m → ∀ k, k ∈ keywordsFor t'.server c.username m ↔
      k ∈ keywordsFor t.server c.username m) :
    SameObject (emailGet c t m) (emailGet c t' m) := by
  have hvisible : Visible c t' m ↔ Visible c t m := by
    refine exists_congr fun n => ?_
    rw [sees_undisturbed h]
    exact and_congr_right fun hsees => hrooms n hsees
  cases hobject : emailGet c t m with
  | none =>
    cases hobject' : emailGet c t' m with
    | none => trivial
    | some e' =>
      have hsome := (emailGet_isSome_iff hok).mpr (hvisible.mp
        ((emailGet_isSome_iff hok').mp (by rw [hobject']; rfl)))
      rw [hobject] at hsome
      cases hsome
  | some e =>
    have hseen : Visible c t m := (emailGet_isSome_iff hok).mp (by rw [hobject]; rfl)
    obtain ⟨e', hobject'⟩ := Option.isSome_iff_exists.mp
      ((emailGet_isSome_iff hok').mpr (hvisible.mpr hseen))
    rw [hobject']
    obtain ⟨hm, hnode, hids, hkeys⟩ := emailGet_eq_some hok hobject
    obtain ⟨hm', hnode', hids', hkeys'⟩ := emailGet_eq_some hok' hobject'
    refine ⟨by rw [hm, hm', hmessage hseen], ?_, fun id => ?_, fun k => ?_⟩
    · rw [hnode, hnode', getConfig, getConfig, h.framed.config]
    · rw [hids, hids']
      refine exists_congr fun n => ?_
      rw [sees_undisturbed h]
      exact and_congr_right fun hsees => and_congr_left fun _ => (hrooms n hsees).symm
    · rw [hkeys, hkeys', hkeywords hseen]

end Objects

/-! ## What is named since a state -/

/-- One of the mailboxes names the message after the token, as `RoomChangesSince` does. -/
def NamedSince (c : Ctx) (t : Tables) (token msgnum : Nat) : Prop :=
  ∃ n, Sees c t n ∧
    (messageInRoom t.store n msgnum = true ∧ token < msgnum ∨ Gone t.store token n msgnum)

/-- The first of the rooms that names the message holds it. -/
def Heralded (holds gone : Nat → Prop) : List Nat → Prop
  | [] => True
  | n :: rest => holds n ∨ ¬gone n ∧ Heralded holds gone rest

section Named

variable {c : Ctx} {t : Tables} {E : Nat → Message} {token : Nat}

theorem accountHigh_le_iff {k : Nat} :
    accountHigh c t ≤ k ↔ ∀ n, Sees c t n → roomChangeToken t.store n ≤ k := by
  have hfold : ∀ (rooms : List Room) (high : Nat),
      rooms.foldl (fun high room =>
        let token := roomChangeToken t.store room.roomNum
        if token > high then token else high) high ≤ k ↔
      high ≤ k ∧ ∀ room ∈ rooms, roomChangeToken t.store room.roomNum ≤ k := by
    intro rooms
    induction rooms with
    | nil => intro high; simp
    | cons room rooms ih =>
      intro high
      rw [List.foldl_cons, ih, List.forall_mem_cons, ← and_assoc]
      refine and_congr_left fun _ => ?_
      simp only
      split <;> omega
  rw [accountHigh, hfold, and_iff_right (Nat.zero_le k)]
  constructor
  · rintro h n ⟨room, hroom, rfl⟩
    exact h room hroom
  · exact fun h room hroom => h _ ⟨room, hroom, rfl⟩

variable {n m : Nat}

theorem token_le_accountHigh (h : Sees c t n) : roomChangeToken t.store n ≤ accountHigh c t :=
  accountHigh_le_iff.mp (Nat.le_refl _) n h

theorem accountHigh_lt_seq (hok : Ok E t.store) : accountHigh c t < t.store.seq := by
  have hpos := hok.seqPos
  have hle : accountHigh c t ≤ t.store.seq - 1 :=
    accountHigh_le_iff.mpr fun n _ => Nat.le_sub_one_of_lt (roomChangeToken_lt hok n)
  omega

/-- What is in a mailbox has a number that the state is not below. -/
theorem le_accountHigh (h : Sees c t n) (hin : messageInRoom t.store n m = true) :
    m ≤ accountHigh c t := by
  have hmem : (⟨n, m⟩ : Pointer) ∈ t.store.roomMsgs := of_decide_eq_true hin
  exact Nat.le_trans (pointer_le_token hmem) (token_le_accountHigh h)

/-- What is named after a token is below the state. -/
theorem NamedSince.lt_accountHigh (h : NamedSince c t token m) : token < accountHigh c t := by
  obtain ⟨n, hsees, hnamed⟩ := h
  cases hnamed with
  | inl hadded => exact Nat.lt_of_lt_of_le hadded.2 (le_accountHigh hsees hadded.1)
  | inr hgone =>
    obtain ⟨tomb, htomb, hroom, hgt, hnum⟩ := hgone
    have hle : tomb.seq ≤ roomChangeToken t.store n :=
      removal_le_token ⟨tomb, htomb, hroom, rfl, rfl⟩
    exact Nat.lt_of_lt_of_le hgt (Nat.le_trans hle (token_le_accountHigh hsees))

/-- What `RoomChangesSince` tells about one message. -/
theorem mem_roomChangesSince_iff (hok : Ok E t.store) {ch : RoomChange} :
    ch ∈ roomChangesSince t.store n token ↔
      (ch.deleted = false ∧ ch.seq = ch.msgnum ∧ ch.euid = (E ch.msgnum).euid ∧
          messageInRoom t.store n ch.msgnum = true ∧ token < ch.msgnum) ∨
        ch.deleted = true ∧ ∃ tomb ∈ t.store.tombstones, tomb.roomNum = n ∧ token < tomb.seq ∧
          tomb.msgnum = ch.msgnum ∧ tomb.seq = ch.seq ∧ tomb.euid = ch.euid := by
  obtain ⟨seq, euid, msgnum, deleted⟩ := ch
  unfold roomChangesSince additionsSince removalsSince
  simp only [List.mem_insertionSort, List.mem_append, List.mem_map, List.mem_filter,
    decide_eq_true_eq, RoomChange.mk.injEq, messageInRoom]
  constructor
  · rintro (⟨r, ⟨hr, hin, hgt⟩, rfl, rfl, rfl, rfl⟩ | ⟨tomb, ⟨htomb, hroom, hgt⟩, rfl, rfl, rfl, rfl⟩)
    · exact .inl ⟨rfl, rfl, congrArg Message.euid (hok.rowLabel r hr), hin, hgt⟩
    · exact .inr ⟨rfl, tomb, htomb, hroom, hgt, rfl, rfl, rfl⟩
  · rintro (⟨rfl, rfl, rfl, hin, hgt⟩ | ⟨rfl, tomb, htomb, hroom, hgt, rfl, rfl, rfl⟩)
    · obtain ⟨r, hr, hnum⟩ := hok.pointers _ hin
      have hnum' : r.msg.msgnum = seq := hnum
      subst hnum'
      exact .inl ⟨r, ⟨hr, hin, hgt⟩, rfl, congrArg Message.euid (hok.rowLabel r hr), rfl, rfl⟩
    · exact .inr ⟨tomb, ⟨htomb, hroom, hgt⟩, rfl, rfl, rfl, rfl⟩

/-- All changes of the account, mailbox by mailbox. -/
def allChanges (c : Ctx) (t : Tables) (token : Nat) : List RoomChange :=
  (mailboxNums c t).flatMap (fun n => roomChangesSince t.store n token)

/-- The first change that mentions the message. -/
def firstMention (msgnum : Nat) (changes : List RoomChange) : Option RoomChange :=
  changes.find? (fun ch => decide (ch.msgnum = msgnum))

theorem firstMention_isSome_iff (hok : Ok E t.store) :
    (firstMention m (allChanges c t token)).isSome = true ↔ NamedSince c t token m := by
  rw [firstMention, List.find?_isSome]
  simp only [allChanges, List.mem_flatMap, mem_mailboxNums, decide_eq_true_eq,
    mem_roomChangesSince_iff hok]
  constructor
  · rintro ⟨ch, ⟨n, hsees, ⟨-, -, -, hin, hgt⟩ | ⟨-, tomb, htomb, hroom, hgt, hnum, -, -⟩⟩, rfl⟩
    · exact ⟨n, hsees, .inl ⟨hin, hgt⟩⟩
    · exact ⟨n, hsees, .inr ⟨tomb, htomb, hroom, hgt, hnum⟩⟩
  · rintro ⟨n, hsees, ⟨hin, hgt⟩ | ⟨tomb, htomb, hroom, hgt, hnum⟩⟩
    · exact ⟨⟨m, (E m).euid, m, false⟩, ⟨n, hsees, .inl ⟨rfl, rfl, rfl, hin, hgt⟩⟩, rfl⟩
    · exact ⟨⟨tomb.seq, tomb.euid, m, true⟩,
        ⟨n, hsees, .inr ⟨rfl, tomb, htomb, hroom, hgt, hnum, rfl, rfl⟩⟩, rfl⟩

/-- A message that is not newer than the token is mentioned by tombstones only. -/
theorem firstMention_deleted (hok : Ok E t.store) {ch : RoomChange} (hle : m ≤ token)
    (h : firstMention m (allChanges c t token) = some ch) : ch.deleted = true := by
  have hnum : ch.msgnum = m := by simpa using List.find?_some h
  obtain ⟨n, -, hch⟩ := List.mem_flatMap.mp (List.mem_of_find?_eq_some h)
  cases (mem_roomChangesSince_iff hok).mp hch with
  | inl hadded => exact absurd (hnum ▸ hadded.2.2.2.2) (Nat.not_lt.mpr hle)
  | inr hremoved => exact hremoved.1

/-- In a mailbox that holds a new message the addition comes before any tombstone. -/
theorem firstMention_room (hok : Ok E t.store) (hlate : TombstonesLate t.store)
    (hgt : token < m) (hin : messageInRoom t.store n m = true) :
    ∃ ch, firstMention m (roomChangesSince t.store n token) = some ch ∧ ch.deleted = false := by
  have hadded : (⟨m, (E m).euid, m, false⟩ : RoomChange) ∈ roomChangesSince t.store n token :=
    (mem_roomChangesSince_iff hok).mpr (.inl ⟨rfl, rfl, rfl, hin, hgt⟩)
  have hsome : (firstMention m (roomChangesSince t.store n token)).isSome = true := by
    rw [firstMention, List.find?_isSome]
    exact ⟨_, hadded, decide_eq_true rfl⟩
  obtain ⟨ch, hch⟩ := Option.isSome_iff_exists.mp hsome
  refine ⟨ch, hch, ?_⟩
  have hnum : ch.msgnum = m := by simpa using List.find?_some hch
  cases (mem_roomChangesSince_iff hok).mp (List.mem_of_find?_eq_some hch) with
  | inl h => exact h.1
  | inr h =>
    -- a tombstone would come after the addition in the order of the numbers
    obtain ⟨-, tomb, htomb, -, -, htnum, hseq, -⟩ := h
    have hlt := hlate tomb htomb
    rw [htnum, hseq, hnum] at hlt
    exfalso
    have hsorted : (roomChangesSince t.store n token).Pairwise (fun a b => a.seq ≤ b.seq) :=
      List.pairwise_insertionSort _ _
    obtain ⟨before, after, hsplit, hbefore⟩ := List.find?_eq_some_iff_append.mp hch |>.2
    rw [hsplit] at hsorted hadded
    rw [List.mem_append] at hadded
    cases hadded with
    | inl hfirst => simpa using hbefore _ hfirst
    | inr hrest =>
      cases List.mem_cons.mp hrest with
      | inl heq =>
        rw [← heq] at hlt
        exact Nat.lt_irrefl m hlt
      | inr hmem =>
        have hle := (List.pairwise_cons.mp (List.pairwise_append.mp hsorted).2.1).1 _ hmem
        exact absurd hlt (Nat.not_lt.mpr hle)

/-- A new message whose first mailbox that names it holds it is mentioned as an addition. -/
theorem firstMention_added (hok : Ok E t.store) (hlate : TombstonesLate t.store)
    (hgt : token < m) {nums : List Nat}
    (hheralded : Heralded (fun n => messageInRoom t.store n m = true) (Gone t.store token · m) nums)
    (hheld : ∃ n ∈ nums, messageInRoom t.store n m = true) :
    ∃ ch, firstMention m (nums.flatMap (fun n => roomChangesSince t.store n token)) = some ch ∧
      ch.deleted = false := by
  induction nums with
  | nil => obtain ⟨n, hn, -⟩ := hheld; cases hn
  | cons n rest ih =>
    rw [List.flatMap_cons, firstMention, List.find?_append]
    by_cases hin : messageInRoom t.store n m = true
    · obtain ⟨ch, hch, hadded⟩ := firstMention_room hok hlate hgt hin
      rw [firstMention] at hch
      rw [hch]
      exact ⟨ch, rfl, hadded⟩
    · -- the room does not name the message at all
      obtain ⟨hgone, hrest⟩ := hheralded.resolve_left hin
      obtain ⟨k, hk, hkin⟩ := hheld
      have hkrest : k ∈ rest := (List.mem_cons.mp hk).resolve_left fun heq => hin (heq ▸ hkin)
      have hnone : firstMention m (roomChangesSince t.store n token) = none := by
        rw [firstMention, List.find?_eq_none]
        intro ch hch heq
        rw [decide_eq_true_eq] at heq
        cases (mem_roomChangesSince_iff hok).mp hch with
        | inl h => exact hin (heq ▸ h.2.2.2.1)
        | inr h =>
          obtain ⟨-, tomb, htomb, hroom, hgt', hnum, -, -⟩ := h
          exact hgone ⟨tomb, htomb, hroom, hgt', hnum.trans heq⟩
      rw [firstMention] at hnone
      rw [hnone, Option.none_or]
      exact ih hrest ⟨k, hkrest, hkin⟩

end Named

/-! ## Answers -/

section Answers

variable {c : Ctx} {t : Tables}

theorem changesSince_eq (c : Ctx) (t : Tables) (since : Nat) : changesSince c t since =
      (firsts RoomChange.msgnum [] (allChanges c t since)).foldl
        (fun changes ch => changes.push c t ch) ⟨[], [], []⟩ := by
  rw [changesSince, ← foldl_skipping, allChanges, mailboxNums, List.flatMap_map, List.foldl_flatMap]

theorem mem_push (changes : Changes) (ch : RoomChange) (k : Class) (id : Bytes) :
    id ∈ (changes.push c t ch).listOf k ↔
      id ∈ changes.listOf k ∨ classOf c t ch = k ∧ id = idOf ch.msgnum := by
  unfold Changes.push Changes.listOf
  cases classOf c t ch with
  | created => cases k <;> simp
  | updated => cases k <;> simp
  | destroyed => cases k <;> simp

theorem count_push (changes : Changes) (ch : RoomChange) (id : Bytes) :
    (changes.push c t ch).all.count id =
      changes.all.count id + if idOf ch.msgnum = id then 1 else 0 := by
  unfold Changes.push Changes.all
  cases classOf c t ch with
  | created => simp [List.count_cons]; omega
  | updated => simp [List.count_cons]; omega
  | destroyed => simp [List.count_cons]; omega

theorem mem_foldl_push (entries : List RoomChange) (changes : Changes) (k : Class) (id : Bytes) :
    id ∈ (entries.foldl (fun changes ch => changes.push c t ch) changes).listOf k ↔
      id ∈ changes.listOf k ∨ ∃ ch ∈ entries, classOf c t ch = k ∧ id = idOf ch.msgnum := by
  induction entries generalizing changes with
  | nil => simp
  | cons ch entries ih =>
    rw [List.foldl_cons, ih, mem_push, or_assoc]
    simp

theorem count_foldl_push (entries : List RoomChange) (changes : Changes) (id : Bytes) :
    (entries.foldl (fun changes ch => changes.push c t ch) changes).all.count id =
      changes.all.count id + (entries.map (fun ch => idOf ch.msgnum)).count id := by
  induction entries generalizing changes with
  | nil => simp
  | cons ch entries ih =>
    rw [List.foldl_cons, ih, count_push, List.map_cons, List.count_cons]
    simp only [beq_iff_eq]
    omega

/-- A message that is mentioned is listed once, where its first mention puts it. -/
theorem listed_of_firstMention {since m : Nat} {ch : RoomChange}
    (h : firstMention m (allChanges c t since) = some ch) :
    (changesSince c t since).all.count (idOf m) = 1 ∧
      idOf m ∈ (changesSince c t since).listOf (classOf c t ch) := by
  have hnum : ch.msgnum = m := by simpa using List.find?_some h
  have hfirst : ch ∈ firsts RoomChange.msgnum [] (allChanges c t since) := by
    rw [mem_firsts_iff, hnum]
    exact ⟨List.not_mem_nil, h⟩
  rw [changesSince_eq, count_foldl_push, mem_foldl_push]
  refine ⟨?_, .inr ⟨ch, hfirst, rfl, by rw [hnum]⟩⟩
  have hnodup : ((firsts RoomChange.msgnum [] (allChanges c t since)).map
      (fun ch => idOf ch.msgnum)).Nodup := by
    have hkeys : ((firsts RoomChange.msgnum [] (allChanges c t since)).map
        RoomChange.msgnum).Nodup := nodup_firsts
    have hids := hkeys.map (f := idOf) fun _ _ heq => idOf_inj heq
    rwa [List.map_map] at hids
  have hmem : idOf m ∈ (firsts RoomChange.msgnum [] (allChanges c t since)).map
      (fun ch => idOf ch.msgnum) := List.mem_map.mpr ⟨ch, hfirst, by rw [hnum]⟩
  rw [List.count_eq_one_of_mem hnodup hmem]
  rfl

end Answers

end QuackMail.Jmap
