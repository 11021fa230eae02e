import QuackMail.Store.Invariant
import QuackMail.History.Upsert

/-! # Synchronizing clients

A client has recorded what a room holds together with `RoomChangeToken`.  Later it
asks for `RoomChangesSince` and looks every number or euid named there up again, as
the JMAP and DAV front-ends do.  `InSync` says that it ends up with what the room
holds now.
-/

namespace QuackMail.Citadel

open ChangeJournal

/-! ## Runs -/

inductive Op where
  | insert (msg : Message) (rooms : List Nat)
  | delete (roomNum msgnum : Nat)
  | move (fromRoom toRoom msgnum : Nat) (isCopy : Bool)
  | upsert (msg : Message) (roomNum : Nat)
  | expire

def step (s : Store) (c : World × Op) : Store :=
  match c.2 with
  | .insert msg rooms => (insertMessage c.1 s msg rooms).1
  | .delete roomNum msgnum => (deleteMessage c.1 s roomNum msgnum).1
  | .move fromRoom toRoom msgnum isCopy => (moveMessage c.1 s fromRoom toRoom msgnum isCopy).1
  | .upsert msg roomNum => (Wiki.upsertByEuid c.1 s msg roomNum).1
  | .expire => (runExpiry c.1 s).1

def run (s : Store) (ops : List (World × Op)) : Store := ops.foldl step s

/-- A database no message was stored in yet. -/
def fresh (rooms : List Room) (config : List (Bytes × Bytes)) (users : List (Bytes × Int))
    (credentials : List Bytes) (quotas : List Limit) : Store where
  messages := []
  roomMsgs := []
  tombstones := []
  rooms := rooms
  seq := 1
  config := config
  users := users
  credentials := credentials
  quotas := quotas

/-- `P` holds of the state the run starts in and of every state it reaches. -/
def Throughout (P : Store → Prop) : Store → List (World × Op) → Prop
  | s, [] => P s
  | s, c :: ops => P s ∧ Throughout P (step s c) ops

/-- `C` holds of every step of the run and the state the step is taken in. -/
def EveryStep (C : Store → Op → Prop) : Store → List (World × Op) → Prop
  | _, [] => True
  | s, c :: ops => C s c.2 ∧ EveryStep C (step s c) ops

/-! ## Clients -/

/-- A client that knows a room by its numbers, as `Email/changes` does: what is named is
    forgotten, and kept again where the room still holds it. -/
def syncNumbers (s : Store) (roomNum since : Nat) (known : List Nat) : List Nat :=
  let named := (roomChangesSince s roomNum since).map RoomChange.msgnum
  known.filter (fun m => m ∉ named) ++ named.filter (fun m => messageInRoom s roomNum m)

/-- A client that knows a room by its resources, as the `sync-collection` report does:
    every euid named is resolved by `FindByEuid`. -/
def syncResources (s : Store) (roomNum since : Nat) (known : Bytes → Option Nat) (euid : Bytes) :
    Option Nat :=
  if euid ∈ (roomChangesSince s roomNum since).map RoomChange.euid then findByEuid s roomNum euid
  else known euid

/-- Both clients, having recorded the room in `base` at the token, have what it holds
    in `s`. -/
def InSync (roomNum token : Nat) (base s : Store) : Prop :=
  (∀ m, m ∈ syncNumbers s roomNum token (roomMessages base roomNum) ↔
    m ∈ roomMessages s roomNum) ∧
  ∀ euid, euid ≠ [] →
    syncResources s roomNum token (findByEuid base roomNum) euid = findByEuid s roomNum euid

/-- The step does not bring a message into the room whose number is not above the token
    and which no tombstone of the room after the token names. -/
def StepAnnounced (roomNum token : Nat) (s : Store) : Op → Prop
  | .move fromRoom toRoom msgnum _ => MoveAnnounced roomNum token s fromRoom toRoom msgnum
  | _ => True

/-! ## Every operation evolves the store -/

theorem evolves_replaceByEuid (roomNum token : Nat) (w : World) (s : Store) (msg : Message)
    (room : Nat) (old : Option Nat) :
    Evolves roomNum token s (Wiki.replaceByEuid w s msg room old).1 :=
  Wiki.replaceByEuid_rule (.refl _ _ _)
    (fun _ hu => hu.trans (evolves_insertMessage _ _ _ _ _ _))
    fun _ _ _ hu => hu.trans (evolves_deleteMessage _ _ _ _ _ _)

theorem evolves_recordRevision (roomNum token : Nat) (w : World) (s : Store) (room : Nat)
    (page newRaw : Bytes) :
    Evolves roomNum token s (Wiki.recordRevision w s room page newRaw).1 :=
  Wiki.recordRevision_rule (.refl _ _ _) fun _ => evolves_replaceByEuid _ _ _ _ _ _ _

theorem evolves_upsertByEuid (roomNum token : Nat) (w : World) (s : Store) (msg : Message)
    (room : Nat) : Evolves roomNum token s (Wiki.upsertByEuid w s msg room).1 :=
  Wiki.upsertByEuid_rule (.refl _ _ _)
    fun _ _ _ _ hu => hu.trans (evolves_replaceByEuid _ _ _ _ _ _ _)

variable {roomNum token : Nat} {s base : Store} {E : Nat → Message}

/-- What one announced step does to the journal of a room. -/
theorem evolves_step {c : World × Op}
    (h : StepAnnounced roomNum token s c.2) : Evolves roomNum token s (step s c) := by
  obtain ⟨w, op⟩ := c
  cases op with
  | insert msg rooms => exact evolves_insertMessage _ _ _ _ _ _
  | delete room msgnum => exact evolves_deleteMessage _ _ _ _ _ _
  | move fromRoom toRoom msgnum isCopy => exact evolves_moveMessage w isCopy h
  | upsert msg room => exact evolves_upsertByEuid _ _ _ _ _ _
  | expire => exact evolves_runExpiry _ _ _ _

/-- Any step at all keeps the invariant: a token of 0 announces every number. -/
theorem ok_step (hok : Ok E s) (c : World × Op) :
    ∃ E', (∀ n < s.seq, E' n = E n) ∧ Ok E' (step s c) ∧ s.seq ≤ (step s c).seq := by
  have hann : StepAnnounced 0 0 s c.2 := by
    cases hc : c.2 with
    | move fromRoom toRoom msgnum isCopy =>
      intro _ hin _
      obtain ⟨r, hr, hnum⟩ := hok.pointers ⟨fromRoom, msgnum⟩ (by simpa [messageInRoom] using hin)
      have hpos := (hok.rows r hr).1
      rw [hnum] at hpos
      exact .inr (.inl hpos)
    | insert msg rooms => trivial
    | delete room msgnum => trivial
    | upsert msg room => trivial
    | expire => trivial
  obtain ⟨E', heq, hok', hseq, _⟩ := evolves_step (c := c) hann E hok hok.seqPos
  exact ⟨E', heq, hok', hseq⟩

theorem ok_run (rooms : List Room) (config : List (Bytes × Bytes)) (users : List (Bytes × Int))
    (credentials : List Bytes) (quotas : List Limit) (ops : List (World × Op)) :
    ∃ E, Ok E (run (fresh rooms config users credentials quotas) ops) := by
  have hrun : ∀ (ops : List (World × Op)) (s : Store), (∃ E, Ok E s) → ∃ E, Ok E (run s ops) := by
    intro ops
    induction ops with
    | nil => intro s hs; exact hs
    | cons c ops ih =>
      intro s ⟨E, hok⟩
      obtain ⟨E', _, hok', _⟩ := ok_step hok c
      exact ih (step s c) ⟨E', hok'⟩
  refine hrun ops _ ⟨fun _ => .blank, ?_⟩
  exact ⟨Nat.one_pos, by simp [fresh], by simp [fresh], by simp [fresh], by simp [fresh],
    by simp [fresh], by simp [fresh]⟩

/-- A pointer is to one message. -/
theorem Ok.exists_unique {E : Nat → Message} {s : Store} (hok : Ok E s) {p : Pointer}
    (hp : p ∈ s.roomMsgs) : ∃! r, r ∈ s.messages ∧ r.msg.msgnum = p.msgnum := by
  obtain ⟨r, hr, hnum⟩ := hok.pointers p hp
  refine ⟨r, ⟨hr, hnum⟩, fun r' hr' => ?_⟩
  exact List.inj_on_of_nodup_map hok.rowsNodup hr'.1 hr (hr'.2.trans hnum.symm)

/-- After every run a pointer is to one message, and the number drawn next is new. -/
theorem pointer_run (rooms : List Room) (config : List (Bytes × Bytes)) (users : List (Bytes × Int))
    (credentials : List Bytes) (quotas : List Limit) (ops : List (World × Op)) :
    let s := run (fresh rooms config users credentials quotas) ops
    (∀ p ∈ s.roomMsgs, ∃! r, r ∈ s.messages ∧ r.msg.msgnum = p.msgnum) ∧
      (∀ p ∈ s.roomMsgs, p.msgnum < s.seq) ∧ (∀ r ∈ s.messages, r.msg.msgnum < s.seq) ∧
      ∀ t ∈ s.tombstones, t.msgnum < s.seq := by
  intro s
  obtain ⟨E, hok⟩ := ok_run rooms config users credentials quotas ops
  refine ⟨fun p hp => hok.exists_unique hp, fun p hp => ?_, fun r hr => (hok.rows r hr).2,
    fun t ht => (hok.tombs t ht).2⟩
  obtain ⟨r, hr, hnum⟩ := hok.pointers p hp
  exact hnum ▸ (hok.rows r hr).2

/-! ## What the clients are told -/

section Told

variable {E : Nat → Message} {s : Store} {roomNum token : Nat}

variable {m : Nat}

theorem mem_roomMessages : m ∈ roomMessages s roomNum ↔ m ∈ (view s roomNum).members := by
  unfold roomMessages view
  rw [List.mem_insertionSort]
  simp only [List.mem_map, List.mem_filter, decide_eq_true_eq, Set.mem_ofPred_eq]
  constructor
  · rintro ⟨p, ⟨hp, rfl⟩, rfl⟩
    exact hp
  · intro hp
    exact ⟨_, ⟨hp, rfl⟩, rfl⟩

/-- The changes named are those of the journal, under the euid of their message. -/
theorem mem_roomChangesSince (hok : Ok E s) {euid : Bytes} :
    (∃ c ∈ roomChangesSince s roomNum token, c.msgnum = m ∧ c.euid = euid) ↔
      Named id token (view s roomNum) m ∧ (E m).euid = euid := by
  unfold roomChangesSince additionsSince removalsSince
  simp only [List.mem_insertionSort, List.mem_append, List.mem_map, List.mem_filter,
    decide_eq_true_eq]
  constructor
  · rintro ⟨c, ⟨r, ⟨hr, hin, hgt⟩, rfl⟩ | ⟨t, ⟨ht, hroom, hgt⟩, rfl⟩, rfl, rfl⟩
    · exact ⟨.inl ⟨hin, hgt⟩, (congrArg Message.euid (hok.rowLabel r hr)).symm⟩
    · exact ⟨.inr ⟨t.seq, hgt, t, ht, hroom, rfl, rfl⟩, (hok.tombEuid t ht).symm⟩
  · rintro ⟨⟨hin, hgt⟩ | ⟨q, hgt, t, ht, hroom, rfl, rfl⟩, rfl⟩
    · obtain ⟨r, hr, rfl⟩ := hok.pointers _ hin
      exact ⟨_, .inl ⟨r, ⟨hr, hin, hgt⟩, rfl⟩, rfl, congrArg Message.euid (hok.rowLabel r hr)⟩
    · exact ⟨_, .inr ⟨t, ⟨ht, hroom, hgt⟩, rfl⟩, rfl, hok.tombEuid t ht⟩

theorem mem_named_numbers (hok : Ok E s) :
    m ∈ (roomChangesSince s roomNum token).map RoomChange.msgnum ↔
      Named id token (view s roomNum) m := by
  rw [List.mem_map]
  constructor
  · rintro ⟨c, hc, rfl⟩
    exact ((mem_roomChangesSince hok).mp ⟨c, hc, rfl, rfl⟩).1
  · intro h
    obtain ⟨c, hc, hnum, _⟩ := (mem_roomChangesSince hok).mpr ⟨h, rfl⟩
    exact ⟨c, hc, hnum⟩

theorem mem_named_euids (hok : Ok E s) {euid : Bytes} :
    euid ∈ (roomChangesSince s roomNum token).map RoomChange.euid ↔
      ∃ m, Named id token (view s roomNum) m ∧ (E m).euid = euid := by
  rw [List.mem_map]
  constructor
  · rintro ⟨c, hc, rfl⟩
    exact ⟨c.msgnum, (mem_roomChangesSince hok).mp ⟨c, hc, rfl, rfl⟩⟩
  · rintro ⟨m, h⟩
    obtain ⟨c, hc, _, heuid⟩ := (mem_roomChangesSince hok).mpr h
    exact ⟨c, hc, heuid⟩

theorem mem_rowsByEuid (hok : Ok E s) {euid : Bytes} :
    m ∈ rowsByEuid s roomNum euid ↔ m ∈ (view s roomNum).members ∧ (E m).euid = euid := by
  unfold rowsByEuid view
  simp only [List.mem_map, List.mem_filter, decide_eq_true_eq, Set.mem_ofPred_eq]
  constructor
  · rintro ⟨r, ⟨hr, heuid, hin⟩, rfl⟩
    exact ⟨hin, by rw [← hok.rowLabel r hr, heuid]⟩
  · rintro ⟨hin, heuid⟩
    obtain ⟨r, hr, rfl⟩ := hok.pointers _ hin
    exact ⟨r, ⟨hr, by rw [hok.rowLabel r hr, heuid], hin⟩, rfl⟩

end Told

/-- The newest of two lists with the same members is the same. -/
theorem max?_congr {xs ys : List Nat} (h : ∀ n, n ∈ xs ↔ n ∈ ys) : xs.max? = ys.max? := by
  cases hx : xs.max? with
  | none =>
    rw [List.max?_eq_none_iff] at hx
    subst hx
    have : ys = [] := List.eq_nil_iff_forall_not_mem.mpr (fun n hn => by simpa using (h n).mpr hn)
    rw [this]
    rfl
  | some a =>
    obtain ⟨ha, hle⟩ := List.max?_eq_some_iff.mp hx
    exact (List.max?_eq_some_iff.mpr ⟨(h a).mp ha, fun b hb => hle b ((h b).mpr hb)⟩).symm

theorem roomChangeToken_lt (hok : Ok E s) (roomNum : Nat) : roomChangeToken s roomNum < s.seq := by
  have hmax : ∀ xs : List Nat, (∀ n ∈ xs, n < s.seq) → xs.max?.getD 0 < s.seq := by
    intro xs hxs
    cases hx : xs.max? with
    | none => exact hok.seqPos
    | some a => exact hxs a (List.max?_eq_some_iff.mp hx).1
  refine Nat.max_lt.mpr ⟨hmax _ ?_, hmax _ ?_⟩
  · intro n hn
    obtain ⟨p, hp, rfl⟩ := List.mem_map.mp hn
    obtain ⟨r, hr, hnum⟩ := hok.pointers p (List.mem_of_mem_filter hp)
    exact hnum ▸ (hok.rows r hr).2
  · intro n hn
    obtain ⟨t, ht, rfl⟩ := List.mem_map.mp hn
    exact (hok.tombs t (List.mem_of_mem_filter ht)).1

/-! ## Completeness -/

/-- `s` was reached from `base` by steps that keep the numbering. -/
def Reached (base s : Store) : Prop :=
  ∃ E₀ E, Ok E₀ base ∧ Ok E s ∧ (∀ n < base.seq, E n = E₀ n) ∧ base.seq ≤ s.seq

theorem Reached.step (h : Reached base s) (c : World × Op) : Reached base (step s c) := by
  obtain ⟨E₀, E, hok₀, hok, heq, hseq⟩ := h
  obtain ⟨E', heq', hok', hseq'⟩ := ok_step hok c
  refine ⟨E₀, E', hok₀, hok', ?_, by omega⟩
  intro n hn
  rw [heq' n (by omega), heq n hn]

/-- The clients are in sync exactly when the journal of the room follows the one they
    recorded. -/
theorem inSync_iff (h : Reached base s) : InSync roomNum token base s ↔
      Follows id token (view base roomNum) (view s roomNum) := by
  obtain ⟨E₀, E, hok₀, hok, heq, _⟩ := h
  have hnumbers : (∀ m, m ∈ syncNumbers s roomNum token (roomMessages base roomNum) ↔
      m ∈ roomMessages s roomNum) ↔ Follows id token (view base roomNum) (view s roomNum) := by
    rw [← sync_eq_iff, Set.ext_iff]
    apply forall_congr'
    intro m
    have hin : messageInRoom s roomNum m = true ↔ m ∈ (view s roomNum).members := by
      simp [messageInRoom, view]
    simp only [syncNumbers, List.mem_append, List.mem_filter, decide_eq_true_eq,
      mem_named_numbers hok, mem_roomMessages, hin, sync, Set.mem_ofPred_eq]
    rw [or_comm, and_comm (a := m ∈ (view base roomNum).members)]
  rw [InSync, hnumbers, and_iff_left_iff_imp]
  intro hfollows euid hne
  unfold syncResources
  by_cases hnamed : euid ∈ (roomChangesSince s roomNum token).map RoomChange.euid
  · rw [if_pos hnamed]
  rw [if_neg hnamed, findByEuid, findByEuid, if_neg hne, if_neg hne]
  rw [mem_named_euids hok] at hnamed
  apply max?_congr
  intro m
  rw [mem_rowsByEuid hok₀, mem_rowsByEuid hok]
  have hold : m ∈ (view base roomNum).members → E m = E₀ m := by
    intro hm
    obtain ⟨r, hr, hnum⟩ := hok₀.pointers _ hm
    exact heq m (by have := (hok₀.rows r hr).2; simp only at hnum; omega)
  constructor
  · rintro ⟨hm, heuid⟩
    rw [← hold hm] at heuid
    rcases hfollows m with hn | hiff
    · exact absurd ⟨m, hn, heuid⟩ hnamed
    · exact ⟨hiff.mpr hm, heuid⟩
  · rintro ⟨hm, heuid⟩
    rcases hfollows m with hn | hiff
    · exact absurd ⟨m, hn, heuid⟩ hnamed
    · have hbase := hiff.mp hm
      exact ⟨hbase, hold hbase ▸ heuid⟩

/-- The journal of the room a message is moved or copied into. -/
theorem view_moveMessage_target (hok : Ok E s) (w : World)
    {fromRoom toRoom msgnum : Nat} (isCopy : Bool) (hin : messageInRoom s fromRoom msgnum = true)
    (htarget : (getRoomByNum s toRoom).isSome) (hne : fromRoom ≠ toRoom) :
    view (moveMessage w s fromRoom toRoom msgnum isCopy).1 toRoom =
      (view s toRoom).apply (.enter msgnum) := by
  have hrow := hok.pointers ⟨fromRoom, msgnum⟩ (by simpa [messageInRoom] using hin)
  obtain ⟨target, htarget⟩ := Option.isSome_iff_exists.mp htarget
  rw [moveMessage, if_pos hin, htarget]
  rw [if_neg hne]
  cases isCopy with
  | true => simp [view_link]
  | false =>
    rw [if_neg (by simp), view_unlink (hok.link hrow) (by simpa using hrow), if_neg hne,
      view_link, if_pos rfl]

/-- A move that is not announced leaves the journal behind. -/
theorem not_follows_move (w : World) {fromRoom toRoom msgnum : Nat} (isCopy : Bool) (hok : Ok E s)
    (hfollows : Follows id token (view base roomNum) (view s roomNum))
    (h : ¬MoveAnnounced roomNum token s fromRoom toRoom msgnum) :
    ¬Follows id token (view base roomNum)
      (view (moveMessage w s fromRoom toRoom msgnum isCopy).1 roomNum) := by
  simp only [MoveAnnounced, Classical.not_imp] at h
  obtain ⟨rfl, hin, htarget, hann⟩ := h
  have hmiss := not_follows_enter hfollows (fun ha => hann (announced_enter_iff.mp ha))
  have hne : fromRoom ≠ toRoom := by
    rintro rfl
    exact hann (.inl hin)
  rwa [view_moveMessage_target hok w isCopy hin htarget hne]

theorem Throughout.head {P : Store → Prop} {ops : List (World × Op)}
    (h : Throughout P s ops) : P s := by
  cases ops with
  | nil => exact h
  | cons c ops => exact h.1

theorem throughout_iff (htoken : token < base.seq) :
    ∀ (ops : List (World × Op)) {s : Store}, Reached base s →
      Follows id token (view base roomNum) (view s roomNum) →
      (Throughout (InSync roomNum token base) s ops ↔
        EveryStep (StepAnnounced roomNum token) s ops) := by
  intro ops
  induction ops with
  | nil =>
    intro s hreach hfollows
    simp only [Throughout, EveryStep, iff_true]
    exact (inSync_iff hreach).mpr hfollows
  | cons c ops ih =>
    intro s hreach hfollows
    have hnow := (inSync_iff hreach).mpr hfollows
    have hreach' := hreach.step c
    obtain ⟨E₀, E, hok₀, hok, _, hseq⟩ := hreach
    by_cases hann : StepAnnounced roomNum token s c.2
    · obtain ⟨_, _, _, _, hsteps⟩ := evolves_step hann E hok (by omega)
      simp only [Throughout, EveryStep, hnow, hann, true_and]
      exact ih hreach' (hfollows.steps hsteps)
    · refine ⟨fun h => ?_, fun h => absurd h.1 hann⟩
      obtain ⟨w, op⟩ := c
      cases op with
      | move fromRoom toRoom msgnum isCopy =>
        exact absurd ((inSync_iff hreach').mp h.2.head)
          (not_follows_move w isCopy hok hfollows hann)
      | insert msg rooms => exact absurd trivial hann
      | delete room msgnum => exact absurd trivial hann
      | upsert msg room => exact absurd trivial hann
      | expire => exact absurd trivial hann

/-- A client that recorded a room together with its token stays in sync throughout a run
    exactly when every step of the run is announced. -/
theorem inSync_throughout_iff (rooms : List Room) (config : List (Bytes × Bytes))
    (users : List (Bytes × Int)) (credentials : List Bytes) (quotas : List Limit)
    (past future : List (World × Op)) (roomNum : Nat) :
    let base := run (fresh rooms config users credentials quotas) past
    let token := roomChangeToken base roomNum
    Throughout (InSync roomNum token base) base future ↔
      EveryStep (StepAnnounced roomNum token) base future := by
  intro base token
  obtain ⟨E, hok⟩ := ok_run rooms config users credentials quotas past
  exact throughout_iff (roomChangeToken_lt hok roomNum) future
    ⟨E, E, hok, hok, fun _ _ => rfl, Nat.le_refl _⟩ (Follows.refl _)

/-- Two rooms, a message in each: the one of the first room is moved into the second
    after the second was recorded, and no change names it. -/
theorem move_of_old_message_missed : let w : World := ⟨0, [], [], fun _ => none, fun _ _ => []⟩
    let room : Nat → Room := fun n => ⟨n, 0, 0, 0, 0, 0⟩
    let msg : Message := { Message.blank with euid := bytes "e", formatType := 4 }
    let base := run (fresh [room 100, room 101] [] [] [] [])
      [(w, .insert msg [100]), (w, .insert { msg with euid := bytes "f" } [101])]
    let moved := run base [(w, .move 100 101 1 false)]
    roomChangesSince moved 101 (roomChangeToken base 101) = [] ∧
      roomMessages base 101 = [2] ∧ roomMessages moved 101 = [1, 2] ∧
      ¬InSync 101 (roomChangeToken base 101) base moved := by
  refine ⟨by decide, by decide, by decide, ?_⟩
  intro h
  exact absurd (h.1 1) (by decide)

end QuackMail.Citadel
