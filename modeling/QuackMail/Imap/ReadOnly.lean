import QuackMail.Imap.SequenceMap

/-! # EXAMINE

`read_only` is written at EXAMINE and read by no command after it.  `Harmless` says when a
command on an examined mailbox changes neither the room nor a flag; a sequence of
commands changes nothing exactly when each of them is harmless.
-/

namespace QuackMail.Imap

open Citadel

/-- A command that SELECTs nothing, copies nothing in, and during which nobody else acts. -/
def Own : Request → Prop
  | .noop => True
  | .idle rounds => ∀ changes ∈ rounds, changes = []
  | .fetch _ _ => True
  | .store _ _ => True
  | .search _ _ => True
  | .transfer _ _ _ => True
  | .expunge => True
  | .close => True
  | .append _ _ => False
  | .select _ _ => False

/-- Such commands, each with what it takes from outside. -/
abbrev OwnRequest := Outside × { r : Request // Own r }

def performAll (c : Conn) (requests : List OwnRequest) : Conn :=
  requests.foldl (fun c r => perform r.1 c r.2.1) c

/-- The room holds the same messages, and every message has the same flags for everybody. -/
structure SameMailbox (c c' : Conn) : Prop where
  room : c'.session.room = c.session.room
  messages : ∀ m, m ∈ roomUids c'.server.store c.session.room ↔
    m ∈ roomUids c.server.store c.session.room
  flags : ∀ msgnum user flag, flag ∈ loadFlags c'.server msgnum user ↔
    flag ∈ loadFlags c.server msgnum user

theorem SameMailbox.refl (c : Conn) : SameMailbox c c := ⟨rfl, fun _ => Iff.rfl, fun _ _ _ => Iff.rfl⟩

theorem SameMailbox.symm {c c' : Conn} (h : SameMailbox c c') : SameMailbox c' c :=
  ⟨h.room.symm, fun m => by rw [h.room, h.messages], fun m u f => (h.flags m u f).symm⟩

theorem SameMailbox.trans {c₁ c₂ c₃ : Conn} (h₁ : SameMailbox c₁ c₂) (h₂ : SameMailbox c₂ c₃) :
    SameMailbox c₁ c₃ :=
  ⟨h₂.room.trans h₁.room, fun m => by rw [← h₁.room, h₂.messages, h₁.room, h₁.messages],
    fun m u f => (h₂.flags m u f).trans (h₁.flags m u f)⟩

/-! ## What changes nothing -/

def seenFlag : Bytes := bytes "\\Seen"

/-- No body that is asked for without PEEK is of a message that loads and is unseen. -/
def FetchHarmless (isUid : Bool) (args : Bytes) (c : Conn) : Prop :=
  c.session.selected = true → bodySection (upper (setArgs isUid args).2) ≠ none →
    peeks (upper (setArgs isUid args).2) = false →
    ∀ pos ∈ parseSet (setArgs isUid args).1 c.session.uids isUid,
      loadMessage c.server.store (uidAt c.session.uids pos) ≠ none →
      seenFlag ∈ loadFlags c.server (uidAt c.session.uids pos) c.session.user

/-- The flags to add are there, or those to remove are not. -/
def StoreHarmless (isUid : Bool) (args : Bytes) (c : Conn) : Prop :=
  c.session.selected = true → ∀ pos ∈ parseSet (setArgs isUid args).1 c.session.uids isUid,
    ∀ flag ∈ storeFlags (setArgs isUid args).2,
      (flag ∈ loadFlags c.server (uidAt c.session.uids pos) c.session.user ↔
        storeRemoves (setArgs isUid args).2 = false)

/-- Nothing that is still in the room is moved to another room. -/
def MoveHarmless (o : Outside) (isUid isMove : Bool) (body : Bytes) (c : Conn) : Prop :=
  c.session.selected = true → isMove = true →
    ∀ droom, o.resolve (unquoted (splitWord body).2) = some droom → droom ≠ c.session.room →
      (getRoomByNum c.server.store droom).isSome →
      ∀ pos ∈ parseSet (splitWord body).1 c.session.uids isUid,
        uidAt c.session.uids pos ∉ c.now

/-- No message that is flagged is still in the room. -/
def ExpungeHarmless (c : Conn) : Prop :=
  c.session.selected = true → ∀ m ∈ c.session.uids, Flagged c m → m ∉ c.now

def Harmless (o : Outside) (c : Conn) : Request → Prop
  | .fetch isUid args => FetchHarmless isUid args c
  | .store isUid args => StoreHarmless isUid args c
  | .transfer isUid isMove body => MoveHarmless o isUid isMove body c
  | .expunge => ExpungeHarmless c
  | .noop => True
  | .idle _ => True
  | .search _ _ => True
  | .append _ _ => True
  | .select _ _ => True
  | .close => True

def EachHarmless : Conn → List OwnRequest → Prop
  | _, [] => True
  | c, r :: requests => Harmless r.1 c r.2.1 ∧ EachHarmless (perform r.1 c r.2.1) requests

/-! ## Flags -/

section Flags

variable {v : Server} {msgnum : Nat} {user flag : Bytes}

theorem mem_loadFlags : flag ∈ loadFlags v msgnum user ↔ ⟨msgnum, user, flag⟩ ∈ v.flags := by
  simp only [loadFlags, List.mem_map, List.mem_filter, decide_eq_true_eq]
  constructor
  · rintro ⟨⟨m, u, f⟩, ⟨hmem, rfl, rfl⟩, rfl⟩
    exact hmem
  · exact fun h => ⟨_, ⟨h, rfl, rfl⟩, rfl⟩

variable {row : FlagRow} {uids : List Nat} {flags : List Bytes}

theorem mem_addFlag :
    row ∈ (addFlag v msgnum user flag).flags ↔ row ∈ v.flags ∨ row = ⟨msgnum, user, flag⟩ := by
  unfold addFlag
  split
  · next h =>
    rw [mem_loadFlags] at h
    exact ⟨.inl, fun hrow => hrow.elim id (fun heq => heq ▸ h)⟩
  · simp

/-- FETCH adds `\Seen` to the messages it shows. -/
theorem mem_fetchAll {items : Bytes} {set : List Nat} :
    row ∈ (set.foldl (fetchOne user items uids) v).flags ↔
      row ∈ v.flags ∨ (bodySection items ≠ none ∧ peeks items = false ∧
        ∃ pos ∈ set, loadMessage v.store (uidAt uids pos) ≠ none ∧
          row = ⟨uidAt uids pos, user, seenFlag⟩) := by
  induction set generalizing v with
  | nil => simp
  | cons pos set ih =>
    have hstore : (fetchOne user items uids v pos).store = v.store :=
      fetchAll_store user items uids [pos] v
    have hone : row ∈ (fetchOne user items uids v pos).flags ↔
        row ∈ v.flags ∨ (bodySection items ≠ none ∧ peeks items = false ∧
          loadMessage v.store (uidAt uids pos) ≠ none ∧
            row = ⟨uidAt uids pos, user, seenFlag⟩) := by
      unfold fetchOne
      simp only
      cases hload : loadMessage v.store (uidAt uids pos) with
      | none => simp
      | some msg =>
        cases hsect : bodySection items with
        | none => simp
        | some sect =>
          cases hpeek : peeks items with
          | true => simp
          | false => simp [mem_addFlag, seenFlag]
    rw [List.foldl_cons, ih, hstore, hone]
    simp only [List.exists_mem_cons_iff]
    tauto

/-- A row that STORE names. -/
def NamedRow (user : Bytes) (flags : List Bytes) (uids set : List Nat) (row : FlagRow) : Prop :=
  ∃ pos ∈ set, ∃ flag ∈ flags, row = ⟨uidAt uids pos, user, flag⟩

theorem mem_storeOne_remove {pos : Nat} : row ∈ (storeOne user true flags uids v pos).flags ↔
      row ∈ v.flags ∧ ¬∃ flag ∈ flags, row = ⟨uidAt uids pos, user, flag⟩ := by
  unfold storeOne
  induction flags generalizing v with
  | nil => simp
  | cons flag flags ih =>
    rw [List.foldl_cons, ih, if_pos rfl, removeFlag]
    simp [and_assoc]

theorem mem_storeOne_add {pos : Nat} : row ∈ (storeOne user false flags uids v pos).flags ↔
      row ∈ v.flags ∨ ∃ flag ∈ flags, row = ⟨uidAt uids pos, user, flag⟩ := by
  unfold storeOne
  induction flags generalizing v with
  | nil => simp
  | cons flag flags ih =>
    rw [List.foldl_cons, ih, if_neg (by simp), mem_addFlag]
    simp [or_assoc]

/-- STORE removes its flags from the messages it names. -/
theorem mem_storeAll_remove {set : List Nat} :
    row ∈ (set.foldl (storeOne user true flags uids) v).flags ↔
      row ∈ v.flags ∧ ¬NamedRow user flags uids set row := by
  induction set generalizing v with
  | nil => simp [NamedRow]
  | cons pos set ih =>
    rw [List.foldl_cons, ih, mem_storeOne_remove]
    simp only [NamedRow, List.exists_mem_cons_iff, not_or, and_assoc]

/-- STORE adds its flags to the messages it names. -/
theorem mem_storeAll_add {set : List Nat} :
    row ∈ (set.foldl (storeOne user false flags uids) v).flags ↔
      row ∈ v.flags ∨ NamedRow user flags uids set row := by
  induction set generalizing v with
  | nil => simp [NamedRow]
  | cons pos set ih =>
    rw [List.foldl_cons, ih, mem_storeOne_add]
    simp only [NamedRow, List.exists_mem_cons_iff, or_assoc]

end Flags

/-! ## Moving out -/

/-- The message is one of those that a MOVE to another room names. -/
def MovedOut (s : Store) (fromRoom toRoom : Nat) (uids set : List Nat) (m : Nat) : Prop :=
  toRoom ≠ fromRoom ∧ (getRoomByNum s toRoom).isSome ∧ ∃ pos ∈ set, uidAt uids pos = m

theorem getRoomByNum_link (s : Store) (room msgnum roomNum : Nat) :
    (getRoomByNum (link s room msgnum) roomNum).isSome = (getRoomByNum s roomNum).isSome := by
  have hrooms : roomNums (link s room msgnum) = roomNums s := roomNums_link s room msgnum
  have hmem : ∀ t : Store, (getRoomByNum t roomNum).isSome = decide (roomNum ∈ roomNums t) := by
    intro t
    rw [Bool.eq_iff_iff, getRoomByNum, List.find?_isSome, decide_eq_true_eq, roomNums, List.mem_map]
    simp
  rw [hmem, hmem, hrooms]

theorem mem_moveMessage {w : World} {s : Store} {fromRoom toRoom msgnum m : Nat} {isCopy : Bool} :
    (⟨fromRoom, m⟩ : Pointer) ∈ (moveMessage w s fromRoom toRoom msgnum isCopy).1.roomMsgs ↔
      (⟨fromRoom, m⟩ : Pointer) ∈ s.roomMsgs ∧
        ¬(isCopy = false ∧ toRoom ≠ fromRoom ∧ (getRoomByNum s toRoom).isSome ∧ msgnum = m) := by
  refine moveMessage_rule (P := fun u => _ ∈ u.roomMsgs ↔ _) (fun hstays => ?_)
    fun _ hroom hdifferent => ?_
  · refine ⟨fun h => ⟨h, ?_⟩, fun h => h.1⟩
    rintro ⟨-, hne, hsome, rfl⟩
    exact hstays ⟨by simpa [messageInRoom] using h, hsome, hne.symm⟩
  · cases isCopy with
    | true => simp [hdifferent]
    | false =>
      rw [if_neg (by simp), mem_unlink, mem_link]
      simp only [Pointer.mk.injEq, hdifferent, false_and, or_false, true_and, hroom, ne_eq,
        Ne.symm hdifferent, not_false_eq_true, eq_comm (a := msgnum)]

theorem getRoomByNum_move (w : World) (s : Store) (fromRoom toRoom msgnum : Nat) (isCopy : Bool)
    (roomNum : Nat) :
    (getRoomByNum (moveMessage w s fromRoom toRoom msgnum isCopy).1 roomNum).isSome =
      (getRoomByNum s roomNum).isSome := by
  refine moveMessage_rule (P := fun u => (getRoomByNum u roomNum).isSome = _) (fun _ => rfl)
    fun _ _ _ => ?_
  cases isCopy with
  | true => exact getRoomByNum_link _ _ _ _
  | false => exact getRoomByNum_link _ _ _ _

/-- A MOVE takes from the room what it names, a COPY nothing. -/
theorem mem_transferAll {w : World} {fromRoom toRoom m : Nat} {isCopy : Bool} {uids set : List Nat}
    {s : Store} :
    (⟨fromRoom, m⟩ : Pointer) ∈ (transferAll w fromRoom toRoom isCopy uids s set).roomMsgs ↔
      (⟨fromRoom, m⟩ : Pointer) ∈ s.roomMsgs ∧
        ¬(isCopy = false ∧ MovedOut s fromRoom toRoom uids set m) := by
  unfold transferAll
  induction set generalizing s with
  | nil => simp [MovedOut]
  | cons pos set ih =>
    rw [List.foldl_cons, ih, mem_moveMessage]
    simp only [MovedOut, getRoomByNum_move, List.exists_mem_cons_iff]
    rw [and_assoc, ← not_or]
    simp [← and_or_left]

/-! ## One command -/

section Commands

variable {c : Conn}

theorem sameMailbox_fetch_iff (isUid : Bool) (args : Bytes) :
    SameMailbox c (fetch isUid args c) ↔ FetchHarmless isUid args c := by
  unfold fetch FetchHarmless
  by_cases hselected : c.session.selected = true
  swap
  · rw [if_neg hselected]
    exact ⟨fun _ h => absurd h hselected, fun _ => .refl c⟩
  rw [if_pos hselected]
  constructor
  · intro h _ hbody hpeek pos hpos hload
    rw [← h.flags, mem_loadFlags]
    exact mem_fetchAll.mpr (.inr ⟨hbody, hpeek, pos, hpos, hload, rfl⟩)
  · intro h
    refine ⟨rfl, fun m => by simp only [fetchAll_store], fun msgnum user flag => ?_⟩
    rw [mem_loadFlags, mem_loadFlags, mem_fetchAll, or_iff_left_iff_imp]
    rintro ⟨hbody, hpeek, pos, hpos, hload, hrow⟩
    rw [hrow]
    exact mem_loadFlags.mp (h hselected hbody hpeek pos hpos hload)

theorem sameMailbox_store_iff (isUid : Bool) (args : Bytes) :
    SameMailbox c (storeCommand isUid args c) ↔ StoreHarmless isUid args c := by
  unfold storeCommand StoreHarmless
  by_cases hselected : c.session.selected = true
  swap
  · rw [if_neg hselected]
    exact ⟨fun _ h => absurd h hselected, fun _ => .refl c⟩
  rw [if_pos hselected]
  simp only [hselected, true_implies]
  have hstore := storeAll_store c.session.user (storeRemoves (setArgs isUid args).2)
    (storeFlags (setArgs isUid args).2) c.session.uids
    (parseSet (setArgs isUid args).1 c.session.uids isUid) c.server
  cases hremoves : storeRemoves (setArgs isUid args).2 with
  | true =>
    rw [hremoves] at hstore
    constructor
    · intro h pos hpos flag hflag
      simp only [Bool.true_eq_false, iff_false]
      intro hmem
      rw [← h.flags, mem_loadFlags, mem_storeAll_remove] at hmem
      exact hmem.2 ⟨pos, hpos, flag, hflag, rfl⟩
    · intro h
      refine ⟨rfl, fun m => by simp only [hstore], fun msgnum user flag => ?_⟩
      rw [mem_loadFlags, mem_loadFlags, mem_storeAll_remove, and_iff_left_iff_imp]
      rintro hmem ⟨pos, hpos, f, hf, hrow⟩
      rw [hrow, ← mem_loadFlags] at hmem
      exact absurd ((h pos hpos f hf).mp hmem) (by simp)
  | false =>
    rw [hremoves] at hstore
    constructor
    · intro h pos hpos flag hflag
      rw [← h.flags, mem_loadFlags]
      exact ⟨fun _ => rfl, fun _ => mem_storeAll_add.mpr (.inr ⟨pos, hpos, flag, hflag, rfl⟩)⟩
    · intro h
      refine ⟨rfl, fun m => by simp only [hstore], fun msgnum user flag => ?_⟩
      rw [mem_loadFlags, mem_loadFlags, mem_storeAll_add, or_iff_left_iff_imp]
      rintro ⟨pos, hpos, f, hf, hrow⟩
      rw [hrow, ← mem_loadFlags]
      exact (h pos hpos f hf).mpr rfl

theorem transfer_room (o : Outside) (isUid isMove : Bool) (body : Bytes) :
    (transfer o isUid isMove body c).session.room = c.session.room ∧
      (transfer o isUid isMove body c).server.flags = c.server.flags := by
  unfold transfer
  repeat' split
  all_goals exact ⟨rfl, rfl⟩

variable {o : Outside}

theorem transfer_store {isUid isMove : Bool} {body : Bytes} {droom : Nat}
    (hselected : c.session.selected = true)
    (hresolve : o.resolve (unquoted (splitWord body).2) = some droom) :
    (transfer o isUid isMove body c).server.store =
      transferAll o.world c.session.room droom (!isMove) c.session.uids c.server.store
        (parseSet (splitWord body).1 c.session.uids isUid) := by
  unfold transfer
  simp only [hselected, if_true, hresolve]
  split <;> rfl

/-- Where nothing is selected or the mailbox does not resolve nothing happens. -/
theorem transfer_none {isUid isMove : Bool} {body : Bytes}
    (h : c.session.selected = true → o.resolve (unquoted (splitWord body).2) = none) :
    transfer o isUid isMove body c = c := by
  unfold transfer
  simp only
  split
  · next hselected => simp only [h hselected]
  · rfl

theorem sameMailbox_transfer_iff (hok : ∃ E, Ok E c.server.store) (isUid isMove : Bool)
    (body : Bytes) :
    SameMailbox c (transfer o isUid isMove body c) ↔ MoveHarmless o isUid isMove body c := by
  by_cases hresolves : c.session.selected = true ∧
      ∃ droom, o.resolve (unquoted (splitWord body).2) = some droom
  swap
  · have hnone : c.session.selected = true → o.resolve (unquoted (splitWord body).2) = none := by
      intro hselected
      cases hresolve : o.resolve (unquoted (splitWord body).2) with
      | none => rfl
      | some droom => exact absurd ⟨hselected, droom, hresolve⟩ hresolves
    rw [transfer_none hnone]
    refine ⟨fun _ hselected _ droom hresolve => ?_, fun _ => .refl c⟩
    rw [hnone hselected] at hresolve
    simp at hresolve
  obtain ⟨hselected, droom, hresolve⟩ := hresolves
  obtain ⟨hroom, hflags⟩ := transfer_room (c := c) o isUid isMove body
  have hstore := @transfer_store _ _ isUid isMove _ _ hselected hresolve
  obtain ⟨E', hok'⟩ := ok_transferAll o.world c.session.room droom (!isMove) c.session.uids
    (parseSet (splitWord body).1 c.session.uids isUid) c.server.store hok
  obtain ⟨E, hok⟩ := hok
  rw [← hstore] at hok'
  have hmem : ∀ m, m ∈ roomUids (transfer o isUid isMove body c).server.store c.session.room ↔
      m ∈ c.now ∧ ¬(isMove = true ∧ MovedOut c.server.store c.session.room droom c.session.uids
        (parseSet (splitWord body).1 c.session.uids isUid) m) := by
    intro m
    rw [mem_roomUids hok', mem_now hok]
    show (⟨c.session.room, m⟩ : Pointer) ∈ (transfer o isUid isMove body c).server.store.roomMsgs ↔ _
    rw [hstore, mem_transferAll]
    simp
  constructor
  · intro h _ hmove droom' hresolve' hne hexists pos hpos hin
    rw [hresolve, Option.some.injEq] at hresolve'
    subst hresolve'
    have hstill := (h.messages _).mpr hin
    exact ((hmem _).mp hstill).2 ⟨hmove, hne, hexists, pos, hpos, rfl⟩
  · intro h
    refine ⟨hroom, fun m => ?_, fun msgnum user flag => ?_⟩
    · rw [hmem]
      refine ⟨fun hm => hm.1, fun hm => ⟨hm, ?_⟩⟩
      rintro ⟨hmove, hne, hexists, pos, hpos, rfl⟩
      exact h hselected hmove droom hresolve hne hexists pos hpos hm
    · rw [mem_loadFlags, mem_loadFlags, hflags]

theorem sameMailbox_expunge_iff (hok : ∃ E, Ok E c.server.store) :
    SameMailbox c (expunge o c) ↔ ExpungeHarmless c := by
  unfold expunge ExpungeHarmless
  by_cases hselected : c.session.selected = true
  swap
  · rw [if_neg hselected]
    exact ⟨fun _ h => absurd h hselected, fun _ => .refl c⟩
  rw [if_pos hselected]
  simp only [hselected, true_implies]
  obtain ⟨E', hok'⟩ := ok_expungeAll o.world c.session.room (c.session.uids.reverse.filter
    (fun uid => decide (deletedFlag ∈ loadFlags c.server uid c.session.user))) c.server.store hok
  obtain ⟨E, hok⟩ := hok
  have hmem : ∀ m, m ∈ roomUids (expungeAll o.world c.session.room (c.session.uids.reverse.filter
      (fun uid => decide (deletedFlag ∈ loadFlags c.server uid c.session.user)))
        c.server.store) c.session.room ↔ m ∈ c.now ∧ ¬(m ∈ c.session.uids ∧ Flagged c m) := by
    intro m
    rw [mem_roomUids hok', mem_now hok]
    refine mem_expungeAll.trans ?_
    simp [Flagged]
  constructor
  · intro h m hm hflag hin
    exact ((hmem m).mp ((h.messages m).mpr hin)).2 ⟨hm, hflag⟩
  · intro h
    refine ⟨rfl, fun m => ?_, fun _ _ _ => Iff.rfl⟩
    rw [hmem]
    exact ⟨fun hm => hm.1, fun hm => ⟨hm, fun hgone => h m hgone.1 hgone.2 hm⟩⟩

theorem idle_server {rounds : List (List Change)} (h : ∀ changes ∈ rounds, changes = []) (token : Nat) :
    ∀ c : Conn, (idleLoop rounds token c).server = c.server ∧
      (idleLoop rounds token c).session.room = c.session.room := by
  induction rounds generalizing token with
  | nil => exact fun c => ⟨rfl, rfl⟩
  | cons changes rounds ih =>
    intro c
    have hrounds : ∀ changes ∈ rounds, changes = [] :=
      fun x hx => h x (List.mem_cons_of_mem _ hx)
    obtain rfl := h changes List.mem_cons_self
    rw [idleLoop]
    split
    · exact ih hrounds _ _
    · exact ih hrounds _ _

theorem SameMailbox.of_server {c' : Conn} (hserver : c'.server = c.server)
    (hroom : c'.session.room = c.session.room) : SameMailbox c c' :=
  ⟨hroom, fun _ => by rw [hserver], fun _ _ _ => by rw [hserver]⟩

/-- A command changes nothing exactly when it is harmless. -/
theorem sameMailbox_perform_iff (hok : ∃ E, Ok E c.server.store) {r : Request}
    (hown : Own r) : SameMailbox c (perform o c r) ↔ Harmless o c r := by
  cases r with
  | noop =>
    refine iff_of_true (.of_server ?_ ?_) trivial
    · rw [perform, noop]
      split <;> rfl
    · rw [perform, noop]
      split <;> rfl
  | idle rounds =>
    obtain ⟨hserver, hroom⟩ := idle_server hown
      (if c.session.selected then roomChangeToken c.server.store c.session.room else 0) c
    exact iff_of_true (.of_server hserver hroom) trivial
  | fetch isUid args => exact sameMailbox_fetch_iff isUid args
  | store isUid args => exact sameMailbox_store_iff isUid args
  | search isUid args => exact iff_of_true (.refl c) trivial
  | transfer isUid isMove body => exact sameMailbox_transfer_iff hok isUid isMove body
  | append args raw => exact absurd hown id
  | expunge => exact sameMailbox_expunge_iff hok
  | select examine args => exact absurd hown id
  | close => exact iff_of_true (.of_server rfl rfl) trivial

theorem ok_perform (hok : ∃ E, Ok E c.server.store) {r : Request} (hown : Own r) :
    ∃ E, Ok E (perform o c r).server.store := by
  cases r with
  | noop =>
    rw [perform, noop]
    split <;> exact hok
  | idle rounds =>
    have hserver := (idle_server hown
      (if c.session.selected then roomChangeToken c.server.store c.session.room else 0) c).1
    rw [perform, idle, hserver]
    exact hok
  | fetch isUid args =>
    rw [perform, fetch]
    split
    · simpa only [fetchAll_store] using hok
    · exact hok
  | store isUid args =>
    rw [perform, storeCommand]
    split
    · simpa only [storeAll_store] using hok
    · exact hok
  | search isUid args => exact hok
  | transfer isUid isMove body =>
    rw [perform]
    by_cases hresolves : c.session.selected = true ∧
        ∃ droom, o.resolve (unquoted (splitWord body).2) = some droom
    · obtain ⟨hselected, droom, hresolve⟩ := hresolves
      rw [transfer_store hselected hresolve]
      exact ok_transferAll _ _ _ _ _ _ _ hok
    · rw [transfer_none]
      · exact hok
      · intro hselected
        cases hresolve : o.resolve (unquoted (splitWord body).2) with
        | none => rfl
        | some droom => exact absurd ⟨hselected, droom, hresolve⟩ hresolves
  | append args raw => exact absurd hown id
  | expunge =>
    rw [perform, expunge]
    split
    · exact ok_expungeAll _ _ _ _ hok
    · exact hok
  | select examine args => exact absurd hown id
  | close => exact hok

theorem sameMailbox_all_iff (requests : List OwnRequest) :
    ∀ {c : Conn}, (∃ E, Ok E c.server.store) →
      ((∀ pre post, requests = pre ++ post → SameMailbox c (performAll c pre)) ↔
        EachHarmless c requests) := by
  induction requests with
  | nil =>
    intro c _
    refine iff_of_true (fun pre post h => ?_) trivial
    obtain ⟨rfl, -⟩ := List.append_eq_nil_iff.mp h.symm
    exact .refl c
  | cons r requests ih =>
    intro c hok
    have hstep := sameMailbox_perform_iff (o := r.1) hok r.2.2
    have hrest := ih (ok_perform (o := r.1) hok r.2.2)
    rw [EachHarmless, ← hstep, ← hrest]
    constructor
    · intro h
      have hfirst := h [r] requests rfl
      refine ⟨hfirst, fun pre post hsplit => ?_⟩
      exact hfirst.symm.trans (h (r :: pre) post (by rw [hsplit]; rfl))
    · rintro ⟨hfirst, hlater⟩ pre post hsplit
      cases pre with
      | nil => exact .refl c
      | cons p pre =>
        obtain ⟨rfl, htail⟩ := List.cons.inj hsplit
        exact hfirst.trans (hlater pre post htail)

end Commands

/-- On an examined mailbox a sequence of commands, and every front of it, leaves the messages
    and the flags as they are exactly when each command is harmless where it is given. -/
theorem examine_unchanged_iff (rooms : List Room) (config : List (Bytes × Bytes))
    (users : List (Bytes × Int)) (credentials : List Bytes) (quotas : List Limit)
    (past : List (World × Op)) (flags : List FlagRow) (user : Bytes) (room : Nat)
    (requests : List OwnRequest) :
    let c := selectedConn ⟨run (fresh rooms config users credentials quotas) past, flags⟩ user true room
    (∀ pre post, requests = pre ++ post → SameMailbox c (performAll c pre)) ↔
      EachHarmless c requests := by
  intro c
  obtain ⟨E, hok⟩ := ok_run rooms config users credentials quotas past
  exact sameMailbox_all_iff requests ⟨E, hok⟩

/-- An examined mailbox with one message: FETCH of its body sets the flag, and STORE and
    EXPUNGE remove it. -/
theorem examine_expunges :
    let o : Outside := ⟨⟨0, [], [], fun _ => none, fun _ _ => []⟩, fun _ => none, fun _ => []⟩
    let store := run (fresh [⟨100, 0, 0, 0, 0, 0⟩] [] [] [] []) [(o.world, .insert .blank [100])]
    let c := selectedConn ⟨store, []⟩ (bytes "u") true 100
    let fetched := performAll c [(o, ⟨.fetch false (bytes "1 RFC822"), trivial⟩)]
    let expunged := performAll c [(o, ⟨.store false (bytes "1 +FLAGS (\\Deleted)"), trivial⟩),
      (o, ⟨.expunge, trivial⟩)]
    c.session.readOnly = true ∧ loadFlags c.server 1 (bytes "u") = [] ∧
      loadFlags fetched.server 1 (bytes "u") = [seenFlag] ∧ roomUids c.server.store 100 = [1] ∧
      roomUids expunged.server.store 100 = [] := by
  decide +kernel

end QuackMail.Imap
