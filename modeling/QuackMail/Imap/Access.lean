import QuackMail.Imap.Mailboxes

/-! # Access control

`Obeys` says that a command reads, fills, empties, renames and deletes only rooms on which
the user holds the right for it.  The commands on access lists ask for the right; all others
take whatever room they find, so they obey exactly where nothing they do needs a right that
is missing.
-/

namespace QuackMail.Imap

set_option maxRecDepth 20000

open Citadel

/-! ## Obeying -/

/-- `EffectiveRights` of the user on the room of that number holds the right. -/
def Has (m : Realm) (user : Bytes) (roomNum : Nat) (right : Byte) : Prop :=
  ∃ room, getRoomByNum m.dir.store roomNum = some room ∧ right ∈ effectiveRights m user room

/-- Every read and every change of a room had its right in the tables the command found. -/
structure Obeys (user : Bytes) (r : Result) : Prop where
  reads : ∀ n ∈ r.reads, Has r.found user n (ch 'r')
  inserts : ∀ p ∈ r.host.realm.dir.store.roomMsgs, p ∉ r.found.dir.store.roomMsgs →
    Has r.found user p.roomNum (ch 'i')
  removes : ∀ p ∈ r.found.dir.store.roomMsgs, p ∉ r.host.realm.dir.store.roomMsgs →
    p.roomNum ∈ roomNums r.host.realm.dir.store →
      Has r.found user p.roomNum (ch 't') ∨ Has r.found user p.roomNum (ch 'e')
  deletes : ∀ n ∈ roomNums r.found.dir.store, n ∉ roomNums r.host.realm.dir.store →
    Has r.found user n (ch 'x') ∨ Has r.found user n (ch 'a')
  renames : ∀ l ∈ r.found.dir.labels, l ∉ r.host.realm.dir.labels →
    l.roomNum ∈ roomNums r.host.realm.dir.store →
      Has r.found user l.roomNum (ch 'x') ∨ Has r.found user l.roomNum (ch 'a')
  grants : ∀ g : Grant, ¬(g ∈ r.host.realm.acl ↔ g ∈ r.found.acl) →
    g.roomNum ∈ roomNums r.host.realm.dir.store → Has r.found user g.roomNum (ch 'a')

/-! ## Who may do what -/

/-- The user owns the room or is an aide, or may enter it where that is enough, or has been
    granted one of the rights. -/
def May (member : Room → Prop) (rights : Bytes) (m : Realm) (user : Bytes) (roomNum : Nat) : Prop :=
  ∃ room, getRoomByNum m.dir.store roomNum = some room ∧
    (Rules m user room ∨ Enters m user room ∧ member room ∨
      ∃ right ∈ rights, Granted m user roomNum right)

def MayRead : Realm → Bytes → Nat → Prop := May (fun _ => True) (bytes "r")

def MayInsert : Realm → Bytes → Nat → Prop :=
  May (fun room => hasFlag room qrReadOnly = false) (bytes "i")

/-- Membership takes no message out of a room. -/
def MayRemove : Realm → Bytes → Nat → Prop := May (fun _ => False) (bytes "te")

/-- Membership neither renames nor deletes a room. -/
def MayChange : Realm → Bytes → Nat → Prop := May (fun _ => False) (bytes "xa")

theorem may_iff {member : Room → Prop} {rights : Bytes} (m : Realm) (user : Bytes) (roomNum : Nat)
    (hrights : ∀ right ∈ rights, right ∈ kAclRights) (hne : rights ≠ [])
    (hmember : ∀ room, (∃ right ∈ rights, right ∈ memberRights room) ↔ member room) :
    (∃ right ∈ rights, Has m user roomNum right) ↔ May member rights m user roomNum := by
  obtain ⟨some', hsome⟩ := List.exists_mem_of_ne_nil rights hne
  have hnum : ∀ room, getRoomByNum m.dir.store roomNum = some room → room.roomNum = roomNum :=
    fun room hroom => by simpa using List.find?_some hroom
  constructor
  · rintro ⟨right, hin, room, hroom, hheld⟩
    refine ⟨room, hroom, ?_⟩
    rw [mem_effectiveRights (hrights right hin), hnum room hroom] at hheld
    rcases hheld with hrules | ⟨henters, hheld⟩ | hgranted
    · exact .inl hrules
    · exact .inr (.inl ⟨henters, (hmember room).mp ⟨right, hin, hheld⟩⟩)
    · exact .inr (.inr ⟨right, hin, hgranted⟩)
  · rintro ⟨room, hroom, hrules | ⟨henters, hheld⟩ | ⟨right, hin, hgranted⟩⟩
    · exact ⟨some', hsome, room, hroom, (mem_effectiveRights (hrights _ hsome)).mpr (.inl hrules)⟩
    · obtain ⟨right, hin, hright⟩ := (hmember room).mpr hheld
      exact ⟨right, hin, room, hroom,
        (mem_effectiveRights (hrights _ hin)).mpr (.inr (.inl ⟨henters, hright⟩))⟩
    · refine ⟨right, hin, room, hroom, (mem_effectiveRights (hrights _ hin)).mpr (.inr (.inr ?_))⟩
      rw [hnum room hroom]
      exact hgranted

section Rights

variable (m : Realm) (user : Bytes) (n : Nat)

theorem mayRead_iff : Has m user n (ch 'r') ↔ MayRead m user n := by
  rw [MayRead, ← may_iff m user n (by decide) (by decide)]
  · simp [bytes]
  · intro room
    exact iff_of_true ⟨ch 'r', by decide, List.mem_append_left _ (by decide)⟩ trivial

theorem mayInsert_iff : Has m user n (ch 'i') ↔ MayInsert m user n := by
  rw [MayInsert, ← may_iff m user n (by decide) (by decide)]
  · simp [bytes]
  · intro room
    rw [memberRights]
    cases hasFlag room qrReadOnly with
    | true => decide
    | false => decide

theorem mayRemove_iff : Has m user n (ch 't') ∨ Has m user n (ch 'e') ↔ MayRemove m user n := by
  rw [MayRemove, ← may_iff m user n (by decide) (by decide)]
  · simp [bytes]
  · intro room
    rw [memberRights]
    cases hasFlag room qrReadOnly with
    | true => decide
    | false => decide

theorem mayChange_iff : Has m user n (ch 'x') ∨ Has m user n (ch 'a') ↔ MayChange m user n := by
  rw [MayChange, ← may_iff m user n (by decide) (by decide)]
  · simp [bytes]
  · intro room
    rw [memberRights]
    cases hasFlag room qrReadOnly with
    | true => decide
    | false => decide

end Rights

/-! ## What obeys -/

/-- The tables and the mailbox that a name finds. -/
def findMailbox (h : Host) (user name : Bytes) : Realm × Option Nat :=
  let r := resolveMailbox h.realm.dir user name
  ({ h.realm with dir := r.1 }, r.2)

/-- Some message that is named loads. -/
def FetchPermitted (h : Host) (s : Session) (isUid : Bool) (args : Bytes) : Prop :=
  s.selected = true →
    (∃ pos ∈ parseSet (setArgs isUid args).1 s.uids isUid,
      loadMessage h.realm.dir.store (uidAt s.uids pos) ≠ none) →
    MayRead h.realm s.user s.room

/-- A message is in the selected room and the mailbox that is found is another room: it is put
    there where it is not there yet, and a MOVE takes it from the selected room. -/
def TransferPermitted (h : Host) (s : Session) (isUid isMove : Bool) (body : Bytes) : Prop :=
  let m := (findMailbox h s.user (unquoted (splitWord body).2)).1
  ∀ droom, (findMailbox h s.user (unquoted (splitWord body).2)).2 = some droom →
    s.selected = true → droom ≠ s.room → (getRoomByNum m.dir.store droom).isSome →
    ∀ pos ∈ parseSet (splitWord body).1 s.uids isUid,
      messageInRoom m.dir.store s.room (uidAt s.uids pos) = true →
      (messageInRoom m.dir.store droom (uidAt s.uids pos) = false → MayInsert m s.user droom) ∧
        (isMove = true → s.room ∈ roomNums m.dir.store → MayRemove m s.user s.room)

/-- The message is stored, under a number the room does not hold. -/
def AppendPermitted (w : World) (subject : Bytes → Bytes) (h : Host) (s : Session)
    (args raw : Bytes) : Prop :=
  let a := appendArgs args
  let m := (findMailbox h s.user a.mailbox).1
  ∀ droom, (findMailbox h s.user a.mailbox).2 = some droom →
    wouldExceed m.dir.store s.user a.count = false → 0 ≤ a.count →
    quotaRefusal m.dir.store [droom] = none →
    w.fault (appendMessage ⟨w, fun _ => some droom, subject⟩ ⟨m.dir.store, h.flags⟩ s.user
      a.mailbox raw) = none →
    messageInRoom m.dir.store droom m.dir.store.seq = false → MayInsert m s.user droom

def ExpungePermitted (h : Host) (s : Session) : Prop :=
  s.selected = true → s.room ∈ roomNums h.realm.dir.store →
    (∃ uid ∈ s.uids, deletedFlag ∈ loadFlags h.server uid s.user ∧
      messageInRoom h.realm.dir.store s.room uid = true) →
    MayRemove h.realm s.user s.room

/-- The Lobby and the Aide room are not deleted. -/
def DeletePermitted (h : Host) (s : Session) (args : Bytes) : Prop :=
  let m := (findMailbox h s.user (unquoted args)).1
  ∀ room, (findMailbox h s.user (unquoted args)).2 = some room →
    room ≠ kLobbyRoom → room ≠ kAideRoom → room ∈ roomNums m.dir.store → MayChange m s.user room

/-- A room that has the new name already is not renamed. -/
def RenamePermitted (h : Host) (s : Session) (args : Bytes) : Prop :=
  let a := splitWord args
  let m := (findMailbox h s.user (unquoted a.1)).1
  ∀ room, (findMailbox h s.user (unquoted a.1)).2 = some room →
    room ∈ roomNums m.dir.store →
    (∃ l ∈ m.dir.labels, l.roomNum = room ∧ l.displayName ≠ leafOf (unquoted a.2)) →
    MayChange m s.user room

def Permitted (w : World) (subject : Bytes → Bytes) (h : Host) (s : Session) :
    MailboxCommand → Prop
  | .status args => ∀ room, (findMailbox h s.user (statusArgs args).1).2 = some room →
      MayRead (findMailbox h s.user (statusArgs args).1).1 s.user room
  | .select _ args => ∀ room, (findMailbox h s.user (unquoted args)).2 = some room →
      MayRead (findMailbox h s.user (unquoted args)).1 s.user room
  | .fetch isUid args => FetchPermitted h s isUid args
  | .search _ _ => s.selected = true → s.uids ≠ [] → MayRead h.realm s.user s.room
  | .transfer isUid isMove body => TransferPermitted h s isUid isMove body
  | .append args raw => AppendPermitted w subject h s args raw
  | .expunge => ExpungePermitted h s
  | .delete args => DeletePermitted h s args
  | .rename args => RenamePermitted h s args
  | .noop => True
  | .idle => True
  | .getQuotaRoot _ => True
  | .store _ _ => True
  | .create _ => True
  | .acl _ _ => True
  | .close => True
  | .other => True

/-! ## Commands that change no room -/

/-- The tables of rooms are as the command found them. -/
structure Still (r : Result) : Prop where
  pointers : r.host.realm.dir.store.roomMsgs = r.found.dir.store.roomMsgs
  rooms : roomNums r.host.realm.dir.store = roomNums r.found.dir.store
  labels : r.host.realm.dir.labels = r.found.dir.labels
  acl : r.host.realm.acl = r.found.acl

theorem obeys_of_still {r : Result} {user : Bytes} (h : Still r) :
    Obeys user r ↔ ∀ n ∈ r.reads, MayRead r.found user n := by
  simp only [← mayRead_iff]
  refine ⟨Obeys.reads, fun hreads => ⟨hreads, ?_, ?_, ?_, ?_, ?_⟩⟩
  · exact fun p hp hnew => absurd (h.pointers ▸ hp) hnew
  · exact fun p hp hgone => absurd (h.pointers ▸ hp) hgone
  · exact fun n hn hgone => absurd (h.rooms ▸ hn) hgone
  · exact fun l hl hgone => absurd (h.labels ▸ hl) hgone
  · exact fun g hchanged => absurd (h.acl ▸ Iff.rfl) hchanged

theorem obeys_of_unread {r : Result} {user : Bytes} (h : Still r) (hreads : r.reads = []) :
    Obeys user r :=
  (obeys_of_still h).mpr fun n hn => by rw [hreads] at hn; cases hn

/-- Only pointers change. -/
theorem obeys_of_pointers {r : Result} {user : Bytes} (hreads : r.reads = [])
    (hrooms : roomNums r.host.realm.dir.store = roomNums r.found.dir.store)
    (hlabels : r.host.realm.dir.labels = r.found.dir.labels)
    (hacl : r.host.realm.acl = r.found.acl) :
    Obeys user r ↔
      (∀ p ∈ r.host.realm.dir.store.roomMsgs, p ∉ r.found.dir.store.roomMsgs →
        MayInsert r.found user p.roomNum) ∧
      ∀ p ∈ r.found.dir.store.roomMsgs, p ∉ r.host.realm.dir.store.roomMsgs →
        p.roomNum ∈ roomNums r.found.dir.store → MayRemove r.found user p.roomNum := by
  simp only [← mayInsert_iff, ← mayRemove_iff, ← hrooms]
  constructor
  · exact fun h => ⟨h.inserts, h.removes⟩
  · rintro ⟨hinserts, hremoves⟩
    refine ⟨fun n hn => ?_, hinserts, hremoves, ?_, ?_, ?_⟩
    · rw [hreads] at hn
      cases hn
    · exact fun n hn hgone => absurd (hrooms ▸ hn) hgone
    · exact fun l hl hgone => absurd (hlabels ▸ hl) hgone
    · exact fun g hchanged => absurd (hacl ▸ Iff.rfl) hchanged

/-! ## Pointers -/

section Pointers

variable {w : World} {fromRoom toRoom : Nat} {isCopy : Bool}

/-- Messages go from the one room to the other. -/
def Goes (s : Store) (fromRoom toRoom : Nat) : Prop :=
  toRoom ≠ fromRoom ∧ (getRoomByNum s toRoom).isSome

theorem pointers_moveMessage {s : Store} {msgnum : Nat} {p : Pointer} :
    p ∈ (moveMessage w s fromRoom toRoom msgnum isCopy).1.roomMsgs ↔
      (p ∈ s.roomMsgs ∧ ¬(isCopy = false ∧ Goes s fromRoom toRoom ∧ p = ⟨fromRoom, msgnum⟩)) ∨
        (Goes s fromRoom toRoom ∧ ⟨fromRoom, msgnum⟩ ∈ s.roomMsgs ∧ p = ⟨toRoom, msgnum⟩) := by
  refine moveMessage_rule (P := fun u => p ∈ u.roomMsgs ↔ _) (fun hstays => ?_)
    fun hin hroom hdifferent => ?_
  · constructor
    · refine fun hp => .inl ⟨hp, ?_⟩
      rintro ⟨-, ⟨hne, hsome⟩, rfl⟩
      exact hstays ⟨by simpa [messageInRoom] using hp, hsome, hne.symm⟩
    · rintro (⟨hp, -⟩ | ⟨⟨hne, hsome⟩, hin, -⟩)
      · exact hp
      · exact (hstays ⟨by simpa [messageInRoom] using hin, hsome, hne.symm⟩).elim
  · rw [messageInRoom, decide_eq_true_eq] at hin
    have hgoes : Goes s fromRoom toRoom := ⟨hdifferent.symm, hroom⟩
    cases isCopy with
    | true => simp [hin, hgoes]
    | false =>
      rw [if_neg (by simp), mem_unlink, mem_link]
      constructor
      · rintro ⟨hp | rfl, hnot⟩
        · exact .inl ⟨hp, fun h => hnot h.2.2⟩
        · exact .inr ⟨hgoes, hin, rfl⟩
      · rintro (⟨hp, hnot⟩ | ⟨-, -, rfl⟩)
        · exact ⟨.inl hp, fun h => hnot ⟨rfl, hgoes, h⟩⟩
        · exact ⟨.inr rfl, fun h => hgoes.1 (congrArg Pointer.roomNum h)⟩

theorem roomNums_moveMessage {s : Store} (msgnum : Nat) :
    roomNums (moveMessage w s fromRoom toRoom msgnum isCopy).1 = roomNums s := by
  refine moveMessage_rule (P := fun u => roomNums u = _) (fun _ => rfl) fun _ _ _ => ?_
  cases isCopy with
  | true => exact roomNums_link s toRoom msgnum
  | false => exact roomNums_link s toRoom msgnum

/-- What a set names is added to the one room, and a MOVE takes it from the other. -/
theorem pointers_transferAll {uids set : List Nat} {s : Store} {p : Pointer} :
    p ∈ (transferAll w fromRoom toRoom isCopy uids s set).roomMsgs ↔
      (p ∈ s.roomMsgs ∧ ¬(isCopy = false ∧ Goes s fromRoom toRoom ∧ p.roomNum = fromRoom ∧
        ∃ pos ∈ set, uidAt uids pos = p.msgnum)) ∨
        (Goes s fromRoom toRoom ∧ p.roomNum = toRoom ∧ ⟨fromRoom, p.msgnum⟩ ∈ s.roomMsgs ∧
          ∃ pos ∈ set, uidAt uids pos = p.msgnum) := by
  unfold transferAll
  induction set generalizing s with
  | nil => simp
  | cons pos set ih =>
    obtain ⟨room, m⟩ := p
    have hgoes : Goes (moveMessage w s fromRoom toRoom (uidAt uids pos) isCopy).1 fromRoom toRoom ↔
        Goes s fromRoom toRoom := by
      rw [Goes, Goes, getRoomByNum_move]
    rw [List.foldl_cons, ih, hgoes]
    simp only [pointers_moveMessage, Pointer.mk.injEq, List.exists_mem_cons_iff]
    by_cases hg : Goes s fromRoom toRoom
    · have hne : fromRoom ≠ toRoom := fun h => hg.1 h.symm
      simp only [hg, true_and]
      by_cases hroom : room = fromRoom
      · -- a pointer of the room they go from: it stays, or the first or a later move takes it
        subst hroom
        simp only [hne, false_and, and_false, or_false, true_and, eq_comm (a := m)]
        rw [and_assoc, ← not_or, ← and_or_left]
      · -- a pointer of another room: it was there, or the first or a later one brings it
        simp only [hroom, hne, false_and, and_false, or_false, not_false_eq_true, and_true,
          eq_comm (a := m)]
        by_cases hm : uidAt uids pos = m
        · subst hm
          simp only [and_true, true_or]
          constructor
          · rintro ((hold | ⟨hthere, hto⟩) | ⟨hto, ⟨hthere, -⟩, -⟩)
            · exact .inl hold
            · exact .inr ⟨hto, hthere⟩
            · exact .inr ⟨hto, hthere⟩
          · rintro (hold | ⟨hto, hthere⟩)
            · exact .inl (.inl hold)
            · exact .inl (.inr ⟨hthere, hto⟩)
        · simp [hm]
    · simp [hg]

theorem roomNums_transferAll {uids set : List Nat} {s : Store} :
    roomNums (transferAll w fromRoom toRoom isCopy uids s set) = roomNums s := by
  unfold transferAll
  induction set generalizing s with
  | nil => rfl
  | cons pos set ih => rw [List.foldl_cons, ih, roomNums_moveMessage]

end Pointers

/-! ## One command -/

section Commands

variable (w : World) (subject : Bytes → Bytes) (h : Host) (s : Session)

variable (isUid : Bool) (args : Bytes)

theorem obeys_status_iff : Obeys s.user (handle w subject h s (.status args)) ↔
      Permitted w subject h s (.status args) := by
  rw [handle, Permitted, findMailbox]
  split
  · next hnone =>
    refine iff_of_true (obeys_of_unread ⟨rfl, rfl, rfl, rfl⟩ rfl) fun room hroom => ?_
    rw [hnone] at hroom
    cases hroom
  · next room hroom =>
    rw [obeys_of_still ⟨rfl, rfl, rfl, rfl⟩, List.forall_mem_singleton]
    simp only [hroom, Option.some.injEq, forall_eq']
    rfl

theorem obeys_select_iff (examine : Bool) (args : Bytes) :
    Obeys s.user (handle w subject h s (.select examine args)) ↔
      Permitted w subject h s (.select examine args) := by
  have hstill : Still (handle w subject h s (.select examine args)) := by
    rw [handle]
    simp only [select]
    split
    · exact ⟨rfl, rfl, rfl, rfl⟩
    · exact ⟨rfl, rfl, rfl, rfl⟩
  rw [obeys_of_still hstill, Permitted]
  simp only [handle, Option.mem_toList]
  rfl

theorem obeys_fetch_iff :
    Obeys s.user (handle w subject h s (.fetch isUid args)) ↔ FetchPermitted h s isUid args := by
  have hstore : (fetch isUid args (h.conn s)).server.store = h.realm.dir.store := by
    rw [fetch]
    split
    · exact fetchAll_store _ _ _ _ _
    · rfl
  have hstill : Still (handle w subject h s (.fetch isUid args)) :=
    ⟨congrArg Store.roomMsgs hstore, congrArg roomNums hstore, rfl, rfl⟩
  rw [obeys_of_still hstill, FetchPermitted, handle]
  split
  · next hreads =>
    rw [Bool.and_eq_true, List.any_eq_true] at hreads
    obtain ⟨hselected, pos, hpos, hloads⟩ := hreads
    rw [List.forall_mem_singleton]
    refine ⟨fun hmay _ _ => hmay, fun hmay => hmay hselected ⟨pos, hpos, ?_⟩⟩
    exact Option.isSome_iff_ne_none.mp hloads
  · next hreads =>
    refine iff_of_true (fun n hn => by cases hn) fun hselected hreads' => ?_
    obtain ⟨pos, hpos, hloads⟩ := hreads'
    rw [Bool.and_eq_true, List.any_eq_true] at hreads
    exact absurd ⟨hselected, pos, hpos, Option.isSome_iff_ne_none.mpr hloads⟩ hreads

theorem obeys_search_iff : Obeys s.user (handle w subject h s (.search isUid args)) ↔
      Permitted w subject h s (.search isUid args) := by
  have hstill : Still (handle w subject h s (.search isUid args)) := ⟨rfl, rfl, rfl, rfl⟩
  rw [obeys_of_still hstill, Permitted, handle]
  split
  · next hreads =>
    rw [Bool.and_eq_true, bne_iff_ne] at hreads
    rw [List.forall_mem_singleton]
    exact ⟨fun hmay _ _ => hmay, fun hmay => hmay hreads.1 hreads.2⟩
  · next hreads =>
    refine iff_of_true (fun n hn => by cases hn) fun hselected huids => ?_
    rw [Bool.and_eq_true, bne_iff_ne] at hreads
    exact absurd ⟨hselected, huids⟩ hreads

theorem obeys_transfer_iff (isMove : Bool) (body : Bytes) :
    Obeys s.user (handle w subject h s (.transfer isUid isMove body)) ↔
      TransferPermitted h s isUid isMove body := by
  let found := findMailbox h s.user (unquoted (splitWord body).2)
  let conn : Conn := Host.conn { h with realm := found.1 } s
  let o : Outside := ⟨w, fun _ => found.2, subject⟩
  by_cases hresolves : s.selected = true ∧ ∃ droom, found.2 = some droom
  · obtain ⟨hselected, droom, hfound⟩ := hresolves
    have hstore : (handle w subject h s (.transfer isUid isMove body)).host.realm.dir.store =
        transferAll w s.room droom (!isMove) s.uids found.1.dir.store
          (parseSet (splitWord body).1 s.uids isUid) :=
      @transfer_store conn o isUid isMove body droom hselected hfound
    rw [obeys_of_pointers rfl (by rw [hstore]; exact roomNums_transferAll) rfl rfl, hstore,
      TransferPermitted]
    simp only [pointers_transferAll]
    constructor
    · rintro ⟨hinserts, hremoves⟩ droom' hfound' - hne hexists pos hpos hthere
      obtain rfl : droom = droom' := Option.some.inj (hfound.symm.trans hfound')
      rw [messageInRoom, decide_eq_true_eq] at hthere
      rw [messageInRoom, decide_eq_false_iff_not]
      refine ⟨fun hnew => ?_, fun hmove hroom => ?_⟩
      · exact hinserts ⟨droom, _⟩ (.inr ⟨⟨hne, hexists⟩, rfl, hthere, pos, hpos, rfl⟩) hnew
      · refine hremoves ⟨s.room, _⟩ hthere ?_ hroom
        rintro (⟨-, hstays⟩ | ⟨-, hto, -⟩)
        · exact hstays ⟨by rw [hmove]; rfl, ⟨hne, hexists⟩, rfl, pos, hpos, rfl⟩
        · exact hne hto.symm
    · intro hpermitted
      constructor
      · rintro p (⟨hold, -⟩ | ⟨hgoes, hto, hthere, pos, hpos, huid⟩) hnew
        · exact absurd hold hnew
        · rw [hto]
          refine (hpermitted droom hfound hselected hgoes.1 hgoes.2 pos hpos ?_).1 ?_
          · rw [messageInRoom, decide_eq_true_eq, huid]
            exact hthere
          · rw [messageInRoom, decide_eq_false_iff_not, huid, ← hto]
            exact hnew
      · intro p hold hgone hroom
        rw [not_or, not_and_not_right] at hgone
        obtain ⟨hmove, hgoes, hfrom, pos, hpos, huid⟩ := hgone.1 hold
        rw [hfrom] at hroom ⊢
        refine (hpermitted droom hfound hselected hgoes.1 hgoes.2 pos hpos ?_).2 ?_ hroom
        · rw [messageInRoom, decide_eq_true_eq, huid, ← hfrom]
          exact hold
        · simpa using hmove
  · -- nothing is selected, or the mailbox is not found
    have hnone : s.selected = true → found.2 = none := by
      intro hselected
      cases hfound : found.2 with
      | none => rfl
      | some droom => exact absurd ⟨hselected, droom, hfound⟩ hresolves
    have hserver : transfer o isUid isMove body conn = conn := transfer_none hnone
    have hstill : Still (handle w subject h s (.transfer isUid isMove body)) :=
      ⟨congrArg (fun c : Conn => c.server.store.roomMsgs) hserver,
        congrArg (fun c : Conn => roomNums c.server.store) hserver, rfl, rfl⟩
    refine iff_of_true (obeys_of_unread hstill rfl) fun droom hfound hselected => ?_
    exact absurd ⟨hselected, droom, hfound⟩ hresolves

theorem obeys_append_iff (raw : Bytes) : Obeys s.user (handle w subject h s (.append args raw)) ↔
      AppendPermitted w subject h s args raw := by
  let found := findMailbox h s.user (appendArgs args).mailbox
  let conn : Conn := Host.conn { h with realm := found.1 } s
  let o : Outside := ⟨w, fun _ => found.2, subject⟩
  let r := handle w subject h s (.append args raw)
  have happend : r.host.realm.dir.store = (append o args raw conn).server.store := rfl
  -- where no message is inserted, nothing changes and nothing is needed
  have hstays : (append o args raw conn).server.store = found.1.dir.store →
      AppendPermitted w subject h s args raw →
      (Obeys s.user r ↔ AppendPermitted w subject h s args raw) := by
    intro hsame hpermitted
    have hstore := happend.trans hsame
    exact iff_of_true (obeys_of_unread ⟨congrArg Store.roomMsgs hstore, congrArg roomNums hstore,
      rfl, rfl⟩ rfl) hpermitted
  cases hfound : found.2 with
  | none =>
    refine hstays ?_ fun droom hroom => ?_
    · simp only [append, o, hfound]
      rfl
    · rw [show (findMailbox h s.user (appendArgs args).mailbox).2 = none from hfound] at hroom
      cases hroom
  | some droom =>
    have honly : ∀ droom', (findMailbox h s.user (appendArgs args).mailbox).2 = some droom' →
        droom = droom' := fun droom' h' => Option.some.inj (hfound.symm.trans h')
    cases hover : wouldExceed conn.server.store conn.session.user (appendArgs args).count with
    | true =>
      refine hstays ?_ fun droom' _ hunder => ?_
      · simp only [append, o, hfound]
        rw [if_pos hover]
        rfl
      · cases hover.symm.trans hunder
    | false =>
      by_cases hcount : (appendArgs args).count < 0
      · refine hstays ?_ fun droom' _ _ hpos => absurd hcount (by omega)
        simp only [append, o, hfound]
        rw [if_neg (ne_true_of_eq_false hover), if_pos hcount]
        rfl
      · let msg := appendMessage o conn.server s.user (appendArgs args).mailbox raw
        have hinsert : (append o args raw conn).server.store =
            (insertMessage w found.1.dir.store msg [droom]).1 := by
          simp only [append, o, hfound]
          rw [if_neg (ne_true_of_eq_false hover), if_neg hcount, appendStored_store]
          rfl
        cases hrefusal : quotaRefusal found.1.dir.store [droom] with
        | some err =>
          refine hstays ?_ fun droom' hroom _ _ hnone => ?_
          · rw [hinsert, insertMessage, hrefusal]
          · obtain rfl := honly droom' hroom
            cases hrefusal.symm.trans hnone
        | none =>
          cases hfault : w.fault msg with
          | some err =>
            have hpointers : r.host.realm.dir.store.roomMsgs = found.1.dir.store.roomMsgs ∧
                roomNums r.host.realm.dir.store = roomNums found.1.dir.store := by
              rw [happend, hinsert, insertMessage, hrefusal, hfault]
              exact ⟨rfl, rfl⟩
            refine iff_of_true (obeys_of_unread ⟨hpointers.1, hpointers.2, rfl, rfl⟩ rfl)
              fun droom' _ _ _ _ hnone => ?_
            cases hfault.symm.trans hnone
          | none =>
            have hstore : r.host.realm.dir.store = link { found.1.dir.store with
                messages := found.1.dir.store.messages ++ [storedRow w found.1.dir.store msg]
                seq := found.1.dir.store.seq + 1 } droom found.1.dir.store.seq := by
              rw [happend, hinsert, insertMessage, hrefusal, hfault]
              rfl
            rw [obeys_of_pointers rfl (by rw [hstore]; exact roomNums_link _ _ _) rfl rfl, hstore,
              AppendPermitted]
            simp only [mem_link]
            constructor
            · rintro ⟨hinserts, -⟩ droom' hroom - - - - hnew
              obtain rfl := honly droom' hroom
              rw [messageInRoom, decide_eq_false_iff_not] at hnew
              exact hinserts ⟨droom, _⟩ (.inr rfl) hnew
            · intro hpermitted
              constructor
              · rintro p (hold | rfl) hnew
                · exact absurd hold hnew
                · refine hpermitted droom hfound hover (by omega) hrefusal hfault ?_
                  rw [messageInRoom, decide_eq_false_iff_not]
                  exact hnew
              · exact fun p hold hgone => absurd (.inl hold) hgone

theorem obeys_expunge_iff :
    Obeys s.user (handle w subject h s .expunge) ↔ ExpungePermitted h s := by
  let doomed := s.uids.reverse.filter (fun uid => decide (deletedFlag ∈ loadFlags h.server uid s.user))
  by_cases hselected : s.selected = true
  · have hconn : (h.conn s).session.selected = true := hselected
    have hstore : (handle w subject h s .expunge).host.realm.dir.store =
        expungeAll w s.room doomed h.realm.dir.store := by
      have hexpunge : (handle w subject h s .expunge).host.realm.dir.store =
          (expunge ⟨w, fun _ => none, subject⟩ (h.conn s)).server.store := rfl
      rw [hexpunge, expunge, if_pos hconn]
      rfl
    have hframe := @deleteAll_frame w s.room doomed h.realm.dir.store
    rw [← expungeAll_eq, ← hstore] at hframe
    have hmem : ∀ p, p ∈ (handle w subject h s .expunge).host.realm.dir.store.roomMsgs ↔
        p ∈ h.realm.dir.store.roomMsgs ∧ ¬(p.roomNum = s.room ∧ p.msgnum ∈ doomed) := by
      intro p
      rw [hframe.2, List.mem_filter, decide_eq_true_eq]
    rw [obeys_of_pointers rfl (congrArg (List.map Room.roomNum) hframe.1.rooms) rfl rfl,
      ExpungePermitted]
    simp only [hmem]
    constructor
    · rintro ⟨-, hremoves⟩ - hroom ⟨uid, huid, hflagged, hthere⟩
      rw [messageInRoom, decide_eq_true_eq] at hthere
      refine hremoves ⟨s.room, uid⟩ hthere (fun hstays => hstays.2 ⟨rfl, ?_⟩) hroom
      exact List.mem_filter.mpr ⟨List.mem_reverse.mpr huid, decide_eq_true hflagged⟩
    · intro hpermitted
      refine ⟨fun p hp hnew => absurd hp.1 hnew, fun p hold hgone hroom => ?_⟩
      rw [not_and_not_right] at hgone
      obtain ⟨hfrom, hdoomed⟩ := hgone hold
      obtain ⟨huid, hflagged⟩ := List.mem_filter.mp hdoomed
      rw [hfrom] at hroom ⊢
      refine hpermitted hselected hroom ⟨p.msgnum, List.mem_reverse.mp huid,
        of_decide_eq_true hflagged, ?_⟩
      rw [messageInRoom, decide_eq_true_eq, ← hfrom]
      exact hold
  · have hconn : ¬(h.conn s).session.selected = true := hselected
    have hserver : (expunge ⟨w, fun _ => none, subject⟩ (h.conn s)) = h.conn s := by
      rw [expunge, if_neg hconn]
    have hstill : Still (handle w subject h s .expunge) :=
      ⟨congrArg (fun c : Conn => c.server.store.roomMsgs) hserver,
        congrArg (fun c : Conn => roomNums c.server.store) hserver, rfl, rfl⟩
    exact iff_of_true (obeys_of_unread hstill rfl) fun h => absurd h hselected

theorem obeys_delete_iff :
    Obeys s.user (handle w subject h s (.delete args)) ↔ DeletePermitted h s args := by
  let found := findMailbox h s.user (unquoted args)
  have honly : ∀ room room', found.2 = some room →
      (findMailbox h s.user (unquoted args)).2 = some room' → room = room' :=
    fun room room' hroom hroom' => Option.some.inj (hroom.symm.trans hroom')
  rw [handle]
  cases hfound : found.2 with
  | none =>
    rw [show (resolveMailbox h.realm.dir s.user (unquoted args)).2 = none from hfound]
    refine iff_of_true (obeys_of_unread ⟨rfl, rfl, rfl, rfl⟩ rfl) fun room hroom => ?_
    rw [show (findMailbox h s.user (unquoted args)).2 = none from hfound] at hroom
    cases hroom
  | some room =>
    rw [show (resolveMailbox h.realm.dir s.user (unquoted args)).2 = some room from hfound]
    simp only
    rw [killRoom]
    by_cases hlobby : room = kLobbyRoom
    · rw [if_pos hlobby]
      refine iff_of_true (obeys_of_unread ⟨rfl, rfl, rfl, rfl⟩ rfl) fun room' hroom hne => ?_
      exact absurd ((honly room room' hfound hroom) ▸ hlobby) hne
    · rw [if_neg hlobby]
      by_cases haide : room = kAideRoom
      · rw [if_pos haide]
        refine iff_of_true (obeys_of_unread ⟨rfl, rfl, rfl, rfl⟩ rfl) fun room' hroom _ hne => ?_
        exact absurd ((honly room room' hfound hroom) ▸ haide) hne
      · rw [if_neg haide]
        have hleft : ∀ n, n ∈ (found.1.dir.store.rooms.filter
            (fun r => r.roomNum ≠ room)).map Room.roomNum ↔
              n ∈ roomNums found.1.dir.store ∧ n ≠ room := by
          intro n
          simp only [List.mem_map, List.mem_filter, decide_eq_true_eq, roomNums]
          constructor
          · rintro ⟨r, ⟨hr, hne⟩, rfl⟩
            exact ⟨⟨r, hr, rfl⟩, hne⟩
          · rintro ⟨⟨r, hr, rfl⟩, hne⟩
            exact ⟨r, ⟨hr, hne⟩, rfl⟩
        constructor
        · intro hobeys room' hroom _ _ hthere
          obtain rfl := honly room room' hfound hroom
          exact (mayChange_iff _ _ _).mp (hobeys.deletes room hthere fun hin =>
            ((hleft room).mp hin).2 rfl)
        · intro hpermitted
          refine ⟨fun n hn => (by cases hn), fun p hp hnew => ?_, fun p hold hgone hin => ?_,
            fun n hn hgone => ?_, fun l hl hgone hin => ?_, fun g hchanged hin => ?_⟩
          · exact absurd (List.mem_of_mem_filter hp) hnew
          · exact absurd (List.mem_filter.mpr ⟨hold, decide_eq_true ((hleft _).mp hin).2⟩) hgone
          · obtain rfl : n = room := by
              by_contra hne
              exact hgone ((hleft n).mpr ⟨hn, hne⟩)
            exact (mayChange_iff _ _ _).mpr (hpermitted n hfound hlobby haide hn)
          · exact absurd (List.mem_filter.mpr ⟨hl, decide_eq_true ((hleft _).mp hin).2⟩) hgone
          · refine absurd ?_ hchanged
            rw [List.mem_filter, decide_eq_true_eq]
            exact and_iff_left ((hleft _).mp hin).2

theorem obeys_rename_iff :
    Obeys s.user (handle w subject h s (.rename args)) ↔ RenamePermitted h s args := by
  let found := findMailbox h s.user (unquoted (splitWord args).1)
  let leaf := leafOf (unquoted (splitWord args).2)
  rw [handle]
  cases hfound : found.2 with
  | none =>
    rw [show (resolveMailbox h.realm.dir s.user (unquoted (splitWord args).1)).2 = none
      from hfound]
    refine iff_of_true (obeys_of_unread ⟨rfl, rfl, rfl, rfl⟩ rfl) fun room hroom => ?_
    rw [show (findMailbox h s.user (unquoted (splitWord args).1)).2 = none from hfound] at hroom
    cases hroom
  | some room =>
    rw [show (resolveMailbox h.realm.dir s.user (unquoted (splitWord args).1)).2 = some room
      from hfound]
    have hlabel : ∀ l, l ∈ (renameRoom found.1.dir room leaf).labels ↔
        (l ∈ found.1.dir.labels ∧ l.roomNum ≠ room) ∨
          ∃ l' ∈ found.1.dir.labels, l'.roomNum = room ∧ l = { l' with displayName := leaf } := by
      intro l
      rw [renameRoom, List.mem_map]
      constructor
      · rintro ⟨l', hl', rfl⟩
        split
        · next hroom => exact .inr ⟨l', hl', hroom, rfl⟩
        · next hroom => exact .inl ⟨hl', hroom⟩
      · rintro (⟨hl, hroom⟩ | ⟨l', hl', hroom, rfl⟩)
        · exact ⟨l, hl, if_neg hroom⟩
        · exact ⟨l', hl', if_pos hroom⟩
    constructor
    · rintro hobeys room' hroom hthere ⟨l, hl, hnum, hname⟩
      obtain rfl := Option.some.inj (hfound.symm.trans hroom)
      rw [← hnum]
      refine (mayChange_iff _ _ _).mp (hobeys.renames l hl (fun hstays => ?_) (hnum ▸ hthere))
      rcases (hlabel l).mp hstays with ⟨-, hne⟩ | ⟨l', -, -, rfl⟩
      · exact hne hnum
      · exact hname rfl
    · intro hpermitted
      refine ⟨fun n hn => (by cases hn), fun p hp hnew => absurd hp hnew,
        fun p hold hgone => absurd hold hgone, fun n hn hgone => absurd hn hgone,
        fun l hl hgone hin => ?_, fun g hchanged => absurd Iff.rfl hchanged⟩
      by_cases hnum : l.roomNum = room
      · rw [hnum]
        refine (mayChange_iff _ _ _).mpr (hpermitted room hfound (hnum ▸ hin) ⟨l, hl, hnum, ?_⟩)
        intro hname
        have hsame : leaf = l.displayName := hname.symm
        exact hgone ((hlabel l).mpr (.inr ⟨l, hl, hnum, by rw [hsame]⟩))
      · exact absurd ((hlabel l).mpr (.inl ⟨hl, hnum⟩)) hgone

/-- The access list of the room is all that changes, and only for a holder of `a`. -/
theorem aclRoom_spec (m : Realm) (user : Bytes) (room : Room) (cmd : AclCommand) (a : List Bytes) :
    (aclRoom m user room cmd a).1.dir.store.roomMsgs = m.dir.store.roomMsgs ∧
      (aclRoom m user room cmd a).1.dir.store.rooms = m.dir.store.rooms ∧
      (aclRoom m user room cmd a).1.dir.labels = m.dir.labels ∧
      ∀ g, ¬(g ∈ (aclRoom m user room cmd a).1.acl ↔ g ∈ m.acl) →
        g.roomNum = room.roomNum ∧ ch 'a' ∈ effectiveRights m user room := by
  let m' := if anonymous user then m else { m with dir := (getOrAssignUserNum m.dir user).1 }
  have hm' : m'.dir.store.roomMsgs = m.dir.store.roomMsgs ∧
      m'.dir.store.rooms = m.dir.store.rooms ∧ m'.dir.labels = m.dir.labels ∧ m'.acl = m.acl := by
    obtain ⟨hrooms, hlabels, hpointers⟩ := getOrAssignUserNum_frame m.dir user
    unfold m'
    split
    · exact ⟨rfl, rfl, rfl, rfl⟩
    · exact ⟨hpointers, hrooms, hlabels, rfl⟩
  have hstill : ∀ m'' : Realm, m'' = m' → m''.dir.store.roomMsgs = m.dir.store.roomMsgs ∧
      m''.dir.store.rooms = m.dir.store.rooms ∧ m''.dir.labels = m.dir.labels ∧
      ∀ g, ¬(g ∈ m''.acl ↔ g ∈ m.acl) →
        g.roomNum = room.roomNum ∧ ch 'a' ∈ effectiveRights m user room := by
    rintro m'' rfl
    exact ⟨hm'.1, hm'.2.1, hm'.2.2.1, fun g hchanged => absurd (hm'.2.2.2 ▸ Iff.rfl) hchanged⟩
  -- the check stands before both commands that set rights
  have hset : ch 'a' ∈ effectiveRights m user room → ∀ identifier rights,
      (setRights m' room identifier rights).1.dir.store.roomMsgs = m.dir.store.roomMsgs ∧
      (setRights m' room identifier rights).1.dir.store.rooms = m.dir.store.rooms ∧
      (setRights m' room identifier rights).1.dir.labels = m.dir.labels ∧
      ∀ g, ¬(g ∈ (setRights m' room identifier rights).1.acl ↔ g ∈ m.acl) →
        g.roomNum = room.roomNum ∧ ch 'a' ∈ effectiveRights m user room := by
    intro hholds identifier rights
    rw [setRights_frame]
    refine ⟨hm'.1, hm'.2.1, hm'.2.2.1, fun g hchanged => ⟨?_, hholds⟩⟩
    by_contra hother
    exact hchanged ((setRights_other hother).trans (by rw [hm'.2.2.2]))
  rw [aclRoom]
  by_cases hmine : cmd = .myRights
  · simp only [if_pos hmine]
    exact hstill _ rfl
  · simp only [if_neg hmine]
    by_cases hholds : ch 'a' ∈ effectiveRights m user room
    · simp only [if_neg (not_not.mpr hholds)]
      cases cmd with
      | myRights => exact hstill _ rfl
      | getAcl => exact hstill _ rfl
      | listRights =>
        simp only
        split
        · exact hstill _ rfl
        · exact hstill _ rfl
      | deleteAcl =>
        simp only
        split
        · exact hstill _ rfl
        · have hspec := hset hholds (a.getD 1 []) []
          split
          · next hcall => rw [hcall] at hspec; exact hspec
          · next hcall => rw [hcall] at hspec; exact hspec
      | setAcl =>
        simp only
        split
        · exact hstill _ rfl
        · have hspec := hset hholds (a.getD 1 []) (wantedRights m' room (a.getD 1 []) (a.getD 2 []))
          split
          · next hcall => rw [hcall] at hspec; exact hspec
          · next hcall => rw [hcall] at hspec; exact hspec
    · simp only [if_pos hholds]
      exact hstill _ rfl

/-- The commands on access lists ask for the right. -/
theorem obeys_acl (cmd : AclCommand) (args : Bytes) :
    Obeys s.user (handle w subject h s (.acl cmd args)) := by
  rw [handle, aclCommand]
  split
  · exact obeys_of_unread ⟨rfl, rfl, rfl, rfl⟩ rfl
  · next mailbox rest _ =>
    simp only
    split
    · exact obeys_of_unread ⟨rfl, rfl, rfl, rfl⟩ rfl
    · next room hroom =>
      obtain ⟨n, -, hfind⟩ := Option.bind_eq_some_iff.mp hroom
      have hnum : room.roomNum = n := by simpa using List.find?_some hfind
      obtain ⟨hpointers, hrooms, hlabels, hacl⟩ := aclRoom_spec
        (h.withDir (resolveMailbox h.realm.dir s.user mailbox).1).realm s.user room cmd
        (mailbox :: rest)
      refine ⟨fun n hn => (by cases hn), fun p hp hnew => absurd (hpointers ▸ hp) hnew,
        fun p hp hgone => absurd (hpointers ▸ hp) hgone,
        fun n hn hgone => ?_, fun l hl hgone => absurd (hlabels ▸ hl) hgone, fun g hchanged _ => ?_⟩
      · rw [roomNums, hrooms] at hgone
        exact absurd hn hgone
      · obtain ⟨hg, hholds⟩ := hacl g hchanged
        exact ⟨room, by rw [hg, hnum]; exact hfind, hholds⟩

/-- CREATE makes a room of the user's own. -/
theorem obeys_create : Obeys s.user (handle w subject h s (.create args)) := by
  have hgrown := getOrCreateUserRoom_grown h.realm.dir s.user (leafOf (unquoted args))
  refine ⟨fun n hn => (by cases hn), fun p hp hnew => absurd (hgrown.pointers ▸ hp) hnew,
    fun p hp hgone => absurd (hgrown.pointers ▸ hp) hgone, fun n hn hgone => absurd ?_ hgone,
    fun l hl hgone => absurd (hgrown.labels l hl) hgone, fun g hchanged => absurd Iff.rfl hchanged⟩
  obtain ⟨r, hr, rfl⟩ := List.mem_map.mp hn
  exact List.mem_map_of_mem (hgrown.rooms r hr)

/-- A command obeys the rights it advertises exactly when it is permitted. -/
theorem obeys_iff (cmd : MailboxCommand) :
    Obeys s.user (handle w subject h s cmd) ↔ Permitted w subject h s cmd := by
  cases cmd with
  | status args => exact obeys_status_iff w subject h s args
  | select examine args => exact obeys_select_iff w subject h s examine args
  | fetch isUid args => exact obeys_fetch_iff w subject h s isUid args
  | search isUid args => exact obeys_search_iff w subject h s isUid args
  | transfer isUid isMove body => exact obeys_transfer_iff w subject h s isUid isMove body
  | append args raw => exact obeys_append_iff w subject h s args raw
  | expunge => exact obeys_expunge_iff w subject h s
  | delete args => exact obeys_delete_iff w subject h s args
  | rename args => exact obeys_rename_iff w subject h s args
  | acl cmd args => exact iff_of_true (obeys_acl w subject h s cmd args) trivial
  | noop =>
    have hserver : (noop (h.conn s)).server = h.server := by
      rw [noop]
      split
      · rfl
      · rfl
    exact iff_of_true (obeys_of_unread ⟨congrArg (fun v : Server => v.store.roomMsgs) hserver,
      congrArg (fun v : Server => roomNums v.store) hserver, rfl, rfl⟩ rfl) trivial
  | idle => exact iff_of_true (obeys_of_unread ⟨rfl, rfl, rfl, rfl⟩ rfl) trivial
  | getQuotaRoot args => exact iff_of_true (obeys_of_unread ⟨rfl, rfl, rfl, rfl⟩ rfl) trivial
  | store isUid args =>
    have hstore : (storeCommand isUid args (h.conn s)).server.store = h.realm.dir.store := by
      rw [storeCommand]
      split
      · exact storeAll_store _ _ _ _ _ _
      · rfl
    exact iff_of_true (obeys_of_unread ⟨congrArg Store.roomMsgs hstore, congrArg roomNums hstore,
      rfl, rfl⟩ rfl) trivial
  | create args => exact iff_of_true (obeys_create w subject h s args) trivial
  | close => exact iff_of_true (obeys_of_unread ⟨rfl, rfl, rfl, rfl⟩ rfl) trivial
  | other => exact iff_of_true (obeys_of_unread ⟨rfl, rfl, rfl, rfl⟩ rfl) trivial

end Commands

/-- A site with a public room, a room for invitation only, and the user bob. -/
def plansHost : Host where
  realm :=
    { dir := ⟨⟨[], [], [], [⟨100, 0, 0, 0, 0, 0⟩, ⟨101, 0, qrPrivate, 0, 0, 0⟩], 1, [],
          [(bytes "bob", 1)], [bytes "bob"], []⟩,
        [⟨100, bytes "Plans", bytes "Plans", []⟩, ⟨101, bytes "Board", bytes "Board", []⟩], 2, 102,
        .ofAscii⟩
      acl := []
      levels := [(bytes "bob", 4)]
      unlocked := [] }
  flags := []

def bobSession : Session := ⟨bytes "bob", false, false, 0, []⟩

/-- Bob deletes the public room, and reads the room he is not invited to. -/
theorem bob_disobeys (w : World) (subject : Bytes → Bytes) :
    ¬Obeys (bytes "bob") (handle w subject plansHost bobSession (.delete (bytes "Plans"))) ∧
      ¬Obeys (bytes "bob") (handle w subject plansHost bobSession (.select true (bytes "Board"))) := by
  have hgranted : ∀ n right, ¬Granted plansHost.realm (bytes "bob") n right := by
    rintro n right (h | ⟨-, h⟩)
    · cases h
    · cases h
  constructor
  · intro hobeys
    obtain ⟨room, hroom, hrules | ⟨-, hnever⟩ | ⟨right, -, hgrant⟩⟩ :=
      (obeys_delete_iff w subject plansHost bobSession (bytes "Plans")).mp hobeys 100
        (by decide +kernel) (by decide) (by decide) (by decide +kernel)
    · obtain rfl : (⟨100, 0, 0, 0, 0, 0⟩ : Room) = room := Option.some.inj hroom
      exact absurd hrules.2 (by decide +kernel)
    · exact hnever
    · exact hgranted 100 right hgrant
  · intro hobeys
    obtain ⟨room, hroom, hrules | ⟨henters, -⟩ | ⟨right, -, hgrant⟩⟩ :=
      (obeys_select_iff w subject plansHost bobSession true (bytes "Board")).mp hobeys 101
        (by decide +kernel)
    · obtain rfl : (⟨101, 0, qrPrivate, 0, 0, 0⟩ : Room) = room := Option.some.inj hroom
      exact absurd hrules.2 (by decide +kernel)
    · obtain rfl : (⟨101, 0, qrPrivate, 0, 0, 0⟩ : Room) = room := Option.some.inj hroom
      exact absurd henters.2.2.1 (by decide +kernel)
    · exact hgranted 101 right hgrant

theorem not_obeyed : ¬∀ (w : World) (subject : Bytes → Bytes) (h : Host) (s : Session)
    (cmd : MailboxCommand), Obeys s.user (handle w subject h s cmd) := fun hall =>
  (bob_disobeys ⟨0, [], [], fun _ => none, fun _ _ => []⟩ id).1
    (hall _ _ plansHost bobSession _)

end QuackMail.Imap
