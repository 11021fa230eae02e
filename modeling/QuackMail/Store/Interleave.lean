import QuackMail.Store.Sync

/-! # Sessions that interleave

Every session runs its statements on a connection of its own, and only the statements
of `InsertMessage` between BEGIN and COMMIT belong to one transaction.  `advance` is one
step of a session: up to the next statement that others can see.  A client asks for
`sync-collection` reports meanwhile: the token is read first, then the changes, then the
resources that were named, one after the other.
-/

namespace QuackMail.Citadel

open ChangeJournal

/-! ## Sessions -/

inductive Session where
  /-- `InsertMessage` was called -/
  | insert (msg : Message) (rooms : List Nat)
  /-- the number is drawn, the transaction is not committed -/
  | drawn (row : Row) (rooms : List Nat)
  /-- `DeleteMessage` was called -/
  | delete (roomNum msgnum : Nat)
  /-- the message was in the room, `Unlink` was called -/
  | unlink (roomNum msgnum : Nat)
  /-- the euid was read -/
  | removing (roomNum msgnum : Nat) (euid : Bytes)
  /-- the pointer is deleted -/
  | removed (roomNum msgnum : Nat) (euid : Bytes)
  /-- the number of the tombstone is drawn -/
  | stamped (roomNum msgnum : Nat) (euid : Bytes) (seq : Nat)
  | done
  deriving DecidableEq

/-- COMMIT: the row and its pointers become visible together. -/
def commitRow (s : Store) (row : Row) (rooms : List Nat) : Store :=
  rooms.foldl (fun t room => link t room row.msg.msgnum) { s with messages := s.messages ++ [row] }

/-- `DELETE FROM citadel_room_msgs`. -/
def deletePointer (s : Store) (roomNum msgnum : Nat) : Store :=
  { s with roomMsgs := s.roomMsgs.filter (· ≠ ⟨roomNum, msgnum⟩) }

/-- `SELECT nextval('citadel_msg_seq')`. -/
def drawNumber (s : Store) : Store := { s with seq := s.seq + 1 }

/-- The next step of a session. -/
def advance (w : World) (s : Store) : Session → Store × Session
  | .insert msg rooms =>
    match quotaRefusal s rooms with
    | some _ => (s, .done)
    | none => (drawNumber s, .drawn (storedRow w s msg) rooms)
  | .drawn row rooms => (commitRow s row rooms, .done)
  | .delete roomNum msgnum =>
    (s, if messageInRoom s roomNum msgnum then .unlink roomNum msgnum else .done)
  | .unlink roomNum msgnum =>
    (s, .removing roomNum msgnum ((findRow s msgnum).elim [] (fun r => r.msg.euid)))
  | .removing roomNum msgnum euid => (deletePointer s roomNum msgnum, .removed roomNum msgnum euid)
  | .removed roomNum msgnum euid => (drawNumber s, .stamped roomNum msgnum euid s.seq)
  | .stamped roomNum msgnum euid seq => (putTombstone s ⟨roomNum, seq, euid, msgnum, w.now⟩, .done)
  | .done => (s, .done)

/-! ## The client -/

inductive Phase where
  | idle
  /-- the token of the report was read -/
  | reading (now : Nat)
  /-- the changes were read; `todo` is still to be looked up -/
  | resolving (now : Nat) (todo : List Bytes) (reply : List (Bytes × Option Nat))
  deriving DecidableEq

/-- A client of one room: the resources it knows, by euid, and its token. -/
structure Client where
  known : Bytes → Option Nat
  token : Nat
  phase : Phase

/-- The client takes over what the report says of every resource it names. -/
def applyReply (reply : List (Bytes × Option Nat)) (known : Bytes → Option Nat) :
    Bytes → Option Nat :=
  reply.foldl (fun known r => Function.update known r.1 r.2) known

/-- The resources a report looks up: every euid once, ordinary messages left out. -/
def namedEuids (s : Store) (roomNum since : Nat) : List Bytes :=
  (((roomChangesSince s roomNum since).map RoomChange.euid).filter (· ≠ [])).eraseDups

/-! ## Schedules -/

structure System where
  store : Store
  sessions : Nat → Session
  client : Client

inductive Action where
  | insert (k : Nat) (msg : Message) (rooms : List Nat)
  | delete (k roomNum msgnum : Nat)
  /-- session `k` takes its next step -/
  | next (k : Nat) (w : World)
  /-- session `k` stops at a statement that fails; a transaction is rolled back -/
  | stop (k : Nat)
  | readToken
  | readChanges
  | lookUp
  | answer

def System.put (st : System) (k : Nat) (r : Store × Session) : System :=
  { st with store := r.1, sessions := Function.update st.sessions k r.2 }

@[simp] theorem put_sessions (st : System) (k l : Nat) (r : Store × Session) :
    (st.put k r).sessions l = if l = k then r.2 else st.sessions l := by
  simp [System.put, Function.update_apply]

def System.at (st : System) (phase : Phase) : System :=
  { st with client := { st.client with phase := phase } }

/-- One action; the client is a client of the room `roomNum`. -/
def act (roomNum : Nat) (st : System) : Action → System
  | .insert k msg rooms =>
    if st.sessions k = .done then st.put k (st.store, .insert msg rooms) else st
  | .delete k room msgnum =>
    if st.sessions k = .done then st.put k (st.store, .delete room msgnum) else st
  | .next k w => st.put k (advance w st.store (st.sessions k))
  | .stop k => st.put k (st.store, .done)
  | .readToken =>
    match st.client.phase with
    | .idle => st.at (.reading (roomChangeToken st.store roomNum))
    | _ => st
  | .readChanges =>
    match st.client.phase with
    | .reading now => st.at (.resolving now (namedEuids st.store roomNum st.client.token) [])
    | _ => st
  | .lookUp =>
    match st.client.phase with
    | .resolving now (euid :: todo) reply =>
      st.at (.resolving now todo (reply ++ [(euid, findByEuid st.store roomNum euid)]))
    | _ => st
  | .answer =>
    match st.client.phase with
    | .resolving now [] reply =>
      { st with client := ⟨applyReply reply st.client.known, now, .idle⟩ }
    | _ => st

def schedule (roomNum : Nat) (st : System) (acts : List Action) : System :=
  acts.foldl (act roomNum) st

/-- No session is on its way, and the client knows nothing yet. -/
def System.start (s : Store) : System := ⟨s, fun _ => .done, ⟨fun _ => none, 0, .idle⟩⟩

def System.Quiescent (st : System) : Prop := ∀ k, st.sessions k = .done

/-- A whole report. -/
def report (roomNum : Nat) (st : System) : System :=
  let asked := schedule roomNum st [.readToken, .readChanges]
  let todo := namedEuids st.store roomNum st.client.token
  act roomNum (schedule roomNum asked (List.replicate todo.length .lookUp)) .answer

/-- Once all sessions are quiescent, a report leaves the client with what the room holds. -/
def Settles (roomNum : Nat) (st : System) : Prop :=
  st.Quiescent → st.client.phase = .idle →
    ∀ euid, euid ≠ [] → (report roomNum st).client.known euid = findByEuid st.store roomNum euid

/-- The number a session holds for a change of the room that is not visible yet. -/
def Session.holds (roomNum : Nat) : Session → Option Nat
  | .drawn row rooms => if roomNum ∈ rooms ∧ row.msg.euid ≠ [] then some row.msg.msgnum else none
  | .stamped room _ euid seq => if room = roomNum ∧ euid ≠ [] then some seq else none
  | _ => none

/-- The session took a resource out of the room and has not written the tombstone. -/
def Session.owes (roomNum : Nat) : Session → Bool
  | .removed room _ euid => decide (room = roomNum ∧ euid ≠ [])
  | .stamped room _ euid _ => decide (room = roomNum ∧ euid ≠ [])
  | _ => false

/-- A token is read while every number that is held for the room is above it, and no
    session stops between the removal of a resource and its tombstone. -/
def Timely (roomNum : Nat) (st : System) : Action → Prop
  | .readToken => st.client.phase = .idle →
      ∀ k n, (st.sessions k).holds roomNum = some n → roomChangeToken st.store roomNum < n
  | .stop k => (st.sessions k).owes roomNum = false
  | _ => True

/-- Every action of the schedule is timely. -/
def AllTimely (roomNum : Nat) : System → List Action → Prop
  | _, [] => True
  | st, a :: acts => Timely roomNum st a ∧ AllTimely roomNum (act roomNum st a) acts

/-! ## Commits -/

section Commits

variable {E : Nat → Message} {s : Store}

@[simp] theorem commitRow_messages (row : Row) (rooms : List Nat) :
    (commitRow s row rooms).messages = s.messages ++ [row] := (links_frame _ _).1

@[simp] theorem commitRow_tombstones (row : Row) (rooms : List Nat) :
    (commitRow s row rooms).tombstones = s.tombstones := (links_frame _ _).2.1

@[simp] theorem commitRow_seq (row : Row) (rooms : List Nat) :
    (commitRow s row rooms).seq = s.seq := (links_frame _ _).2.2

@[simp] theorem mem_commitRow {row : Row} {rooms : List Nat} {p : Pointer} :
    p ∈ (commitRow s row rooms).roomMsgs ↔
      p ∈ s.roomMsgs ∨ (p.msgnum = row.msg.msgnum ∧ p.roomNum ∈ rooms) := mem_links rooms

/-- A number that is drawn may stand for any message. -/
theorem Ok.drawNumber {E' : Nat → Message} (h : Ok E s) (hE : ∀ n < s.seq, E' n = E n) :
    Ok E' (drawNumber s) where
  seqPos := Nat.succ_pos _
  rows := fun r hr => ⟨(h.rows r hr).1, Nat.lt_succ_of_lt (h.rows r hr).2⟩
  rowsNodup := h.rowsNodup
  rowLabel := fun r hr => by rw [hE _ (h.rows r hr).2]; exact h.rowLabel r hr
  pointers := h.pointers
  tombs := fun t ht => ⟨Nat.lt_succ_of_lt (h.tombs t ht).1, Nat.lt_succ_of_lt (h.tombs t ht).2⟩
  tombEuid := fun t ht => by rw [hE _ (h.tombs t ht).2]; exact h.tombEuid t ht

theorem Ok.commitRow {row : Row} (h : Ok E s) (rooms : List Nat) (hpos : 0 < row.msg.msgnum)
    (hlt : row.msg.msgnum < s.seq) (hnew : ∀ r ∈ s.messages, r.msg.msgnum ≠ row.msg.msgnum)
    (hlabel : row.msg = E row.msg.msgnum) : Ok E (commitRow s row rooms) where
  seqPos := by simpa using h.seqPos
  rows := by
    intro r hr
    rw [commitRow_messages, List.mem_append, List.mem_singleton] at hr
    rw [commitRow_seq]
    cases hr with
    | inl hr => exact h.rows r hr
    | inr hr => exact hr ▸ ⟨hpos, hlt⟩
  rowsNodup := by
    rw [commitRow_messages, List.map_append, List.map_singleton]
    refine List.Nodup.append h.rowsNodup (List.nodup_singleton _) ?_
    intro n hn hn'
    obtain ⟨r, hr, rfl⟩ := List.mem_map.mp hn
    exact hnew r hr (List.mem_singleton.mp hn')
  rowLabel := by
    intro r hr
    rw [commitRow_messages, List.mem_append, List.mem_singleton] at hr
    cases hr with
    | inl hr => exact h.rowLabel r hr
    | inr hr => exact hr ▸ hlabel
  pointers := by
    intro p hp
    rw [commitRow_messages]
    cases mem_commitRow.mp hp with
    | inl hp =>
      obtain ⟨r, hr, hnum⟩ := h.pointers p hp
      exact ⟨r, List.mem_append_left _ hr, hnum⟩
    | inr hp => exact ⟨row, by simp, hp.1.symm⟩
  tombs := by simpa using h.tombs
  tombEuid := by simpa using h.tombEuid

theorem Ok.deletePointer (h : Ok E s) (roomNum msgnum : Nat) :
    Ok E (deletePointer s roomNum msgnum) where
  seqPos := h.seqPos
  rows := h.rows
  rowsNodup := h.rowsNodup
  rowLabel := h.rowLabel
  pointers := fun p hp => h.pointers p (List.mem_of_mem_filter hp)
  tombs := h.tombs
  tombEuid := h.tombEuid

/-- A tombstone under a number no tombstone has replaces nothing. -/
theorem putTombstone_new {t : Tombstone} (hnew : ∀ u ∈ s.tombstones, u.seq ≠ t.seq) :
    (putTombstone s t).tombstones = s.tombstones ++ [t] := by
  rw [putTombstone]
  rw [List.filter_eq_self.mpr]
  intro u hu
  simp [hnew u hu]

theorem Ok.putTombstone {t : Tombstone} (h : Ok E s)
    (hnew : ∀ u ∈ s.tombstones, u.seq ≠ t.seq) (hseq : t.seq < s.seq) (hnum : t.msgnum < s.seq)
    (heuid : t.euid = (E t.msgnum).euid) : Ok E (putTombstone s t) where
  seqPos := h.seqPos
  rows := h.rows
  rowsNodup := h.rowsNodup
  rowLabel := h.rowLabel
  pointers := h.pointers
  tombs := by
    intro u hu
    rw [putTombstone_new hnew, List.mem_append, List.mem_singleton] at hu
    cases hu with
    | inl hu => exact h.tombs u hu
    | inr hu =>
      subst hu
      exact ⟨hseq, hnum⟩
  tombEuid := by
    intro u hu
    rw [putTombstone_new hnew, List.mem_append, List.mem_singleton] at hu
    cases hu with
    | inl hu => exact h.tombEuid u hu
    | inr hu => exact hu ▸ heuid

end Commits

/-! ## What the sessions keep -/

/-- The number a session has drawn and not used yet. -/
def Session.number : Session → Option Nat
  | .drawn row _ => some row.msg.msgnum
  | .stamped _ _ _ seq => some seq
  | _ => none

/-- What a session remembers of a message is what its number stands for. -/
def Session.Labelled (E : Nat → Message) (s : Store) : Session → Prop
  | .drawn row _ => row.msg = E row.msg.msgnum
  | .unlink _ msgnum => ∃ r ∈ s.messages, r.msg.msgnum = msgnum
  | .removing _ msgnum euid => msgnum < s.seq ∧ euid = (E msgnum).euid
  | .removed _ msgnum euid => msgnum < s.seq ∧ euid = (E msgnum).euid
  | .stamped _ msgnum euid _ => msgnum < s.seq ∧ euid = (E msgnum).euid
  | _ => True

/-- Every number was given out once, to a row, a tombstone or a session. -/
structure Coherent (E : Nat → Message) (st : System) : Prop where
  ok : Ok E st.store
  pos : ∀ k n, (st.sessions k).number = some n → 0 < n ∧ n < st.store.seq
  newRow : ∀ k n, (st.sessions k).number = some n → ∀ r ∈ st.store.messages, r.msg.msgnum ≠ n
  newTomb : ∀ k n, (st.sessions k).number = some n → ∀ t ∈ st.store.tombstones, t.seq ≠ n
  distinct : ∀ k l n, (st.sessions k).number = some n → (st.sessions l).number = some n → k = l
  label : ∀ k, (st.sessions k).Labelled E st.store

variable {E : Nat → Message} {s : Store} {roomNum : Nat}

theorem Session.Labelled.mono {E' : Nat → Message} {s' : Store} {x : Session}
    (h : x.Labelled E s) (hnum : ∀ n, x.number = some n → n < s.seq)
    (hE : ∀ n < s.seq, E' n = E n) (hrows : ∀ r ∈ s.messages, r ∈ s'.messages)
    (hseq : s.seq ≤ s'.seq) : x.Labelled E' s' := by
  cases x with
  | drawn row rooms => exact h.trans (hE _ (hnum _ rfl)).symm
  | unlink room msgnum =>
    obtain ⟨r, hr, heq⟩ := h
    exact ⟨r, hrows r hr, heq⟩
  | removing room msgnum euid => exact ⟨Nat.lt_of_lt_of_le h.1 hseq, by rw [hE _ h.1]; exact h.2⟩
  | removed room msgnum euid => exact ⟨Nat.lt_of_lt_of_le h.1 hseq, by rw [hE _ h.1]; exact h.2⟩
  | stamped room msgnum euid seq =>
    exact ⟨Nat.lt_of_lt_of_le h.1 hseq, by rw [hE _ h.1]; exact h.2⟩
  | insert msg rooms => trivial
  | delete room msgnum => trivial
  | done => trivial

variable {st : System}

/-- A step of session `k` that uses its number for at most one row or tombstone and draws
    at most one new number. -/
theorem Coherent.put {E' : Nat → Message} {k : Nat} {s' : Store} {x' : Session}
    (h : Coherent E st) (hok : Ok E' s') (hE : ∀ n < st.store.seq, E' n = E n)
    (hseq : st.store.seq ≤ s'.seq) (hkeep : ∀ r ∈ st.store.messages, r ∈ s'.messages)
    (hrows : ∀ r ∈ s'.messages, r ∈ st.store.messages ∨
      (st.sessions k).number = some r.msg.msgnum)
    (htombs : ∀ t ∈ s'.tombstones, t ∈ st.store.tombstones ∨
      (st.sessions k).number = some t.seq)
    (hnum : ∀ n, x'.number = some n → st.store.seq ≤ n ∧ n < s'.seq)
    (hlabel : x'.Labelled E' s') : Coherent E' (st.put k (s', x')) := by
  have hat : (st.put k (s', x')).sessions k = x' := by simp
  have hother : ∀ l, l ≠ k → (st.put k (s', x')).sessions l = st.sessions l :=
    fun l hl => by simp [hl]
  refine ⟨hok, ?_, ?_, ?_, ?_, ?_⟩
  · intro l n hl
    by_cases hlk : l = k
    · subst hlk
      rw [hat] at hl
      exact ⟨Nat.lt_of_lt_of_le h.ok.seqPos (hnum n hl).1, (hnum n hl).2⟩
    · rw [hother l hlk] at hl
      exact ⟨(h.pos l n hl).1, Nat.lt_of_lt_of_le (h.pos l n hl).2 hseq⟩
  · intro l n hl r hr heq
    by_cases hlk : l = k
    · subst hlk
      rw [hat] at hl
      have hge := (hnum n hl).1
      cases hrows r hr with
      | inl hr =>
        have := (h.ok.rows r hr).2
        omega
      | inr hr =>
        have := (h.pos l _ hr).2
        omega
    · rw [hother l hlk] at hl
      cases hrows r hr with
      | inl hr => exact h.newRow l n hl r hr heq
      | inr hr => exact hlk (h.distinct l k n hl (heq ▸ hr))
  · intro l n hl t ht heq
    by_cases hlk : l = k
    · subst hlk
      rw [hat] at hl
      have hge := (hnum n hl).1
      cases htombs t ht with
      | inl ht =>
        have := (h.ok.tombs t ht).1
        omega
      | inr ht =>
        have := (h.pos l _ ht).2
        omega
    · rw [hother l hlk] at hl
      cases htombs t ht with
      | inl ht => exact h.newTomb l n hl t ht heq
      | inr ht => exact hlk (h.distinct l k n hl (heq ▸ ht))
  · intro l m n hl hm
    by_cases hlk : l = k
    · by_cases hmk : m = k
      · rw [hlk, hmk]
      · rw [hlk, hat] at hl
        rw [hother m hmk] at hm
        have := (hnum n hl).1
        have := (h.pos m n hm).2
        omega
    · rw [hother l hlk] at hl
      by_cases hmk : m = k
      · rw [hmk, hat] at hm
        have := (hnum n hm).1
        have := (h.pos l n hl).2
        omega
      · rw [hother m hmk] at hm
        exact h.distinct l m n hl hm
  · intro l
    by_cases hlk : l = k
    · subst hlk
      rw [hat]
      exact hlabel
    · rw [hother l hlk]
      exact (h.label l).mono (fun n hn => (h.pos l n hn).2) hE hkeep hseq

/-- A step that leaves the store as it is. -/
theorem Coherent.session {k : Nat} {x' : Session}
    (h : Coherent E st) (hnum : x'.number = none) (hlabel : x'.Labelled E st.store) :
    Coherent E (st.put k (st.store, x')) :=
  h.put h.ok (fun _ _ => rfl) (Nat.le_refl _) (fun _ hr => hr) (fun _ hr => .inl hr)
    (fun _ ht => .inl ht) (fun n hn => by rw [hnum] at hn; cases hn) hlabel

/-! ## What a client is owed -/

/-- The tombstone of the session will name the resource after the token. -/
def Session.leaves (roomNum token : Nat) (euid : Bytes) : Session → Prop
  | .removed room _ e => room = roomNum ∧ e = euid
  | .stamped room _ e seq => room = roomNum ∧ e = euid ∧ token < seq
  | _ => False

/-- A change after the token names the resource, or will. -/
def Owed (roomNum token : Nat) (st : System) (euid : Bytes) : Prop :=
  euid ∈ (roomChangesSince st.store roomNum token).map RoomChange.euid ∨
    ∃ k, (st.sessions k).leaves roomNum token euid

/-- Whatever becomes visible from now on is above the token. -/
def Clear (roomNum token : Nat) (st : System) : Prop :=
  token < st.store.seq ∧ ∀ k n, (st.sessions k).holds roomNum = some n → token < n

/-- The client has what the room holds, but for what it is owed. -/
def Caught (roomNum token : Nat) (known : Bytes → Option Nat) (st : System) : Prop :=
  ∀ euid, euid ≠ [] →
    known euid = findByEuid st.store roomNum euid ∨ Owed roomNum token st euid

/-- What a step of a session does for any client that may read what is to come. -/
structure Carries (roomNum : Nat) (st st' : System) : Prop where
  clear : ∀ token, Clear roomNum token st → Clear roomNum token st'
  owed : ∀ token, Clear roomNum token st → ∀ euid, euid ≠ [] →
    Owed roomNum token st euid → Owed roomNum token st' euid
  found : ∀ token, Clear roomNum token st → ∀ euid, euid ≠ [] →
    Owed roomNum token st' euid ∨
      findByEuid st'.store roomNum euid = findByEuid st.store roomNum euid

theorem Caught.carry {token : Nat} {known : Bytes → Option Nat} {st' : System}
    (h : Caught roomNum token known st) (hcarry : Carries roomNum st st')
    (hclear : Clear roomNum token st) : Caught roomNum token known st' := by
  intro euid hne
  cases h euid hne with
  | inr howed => exact .inr (hcarry.owed token hclear euid hne howed)
  | inl hknown =>
    cases hcarry.found token hclear euid hne with
    | inl howed => exact .inr howed
    | inr hfound => exact .inl (hknown.trans hfound.symm)

section Steps

variable {E : Nat → Message} {st : System} {roomNum k : Nat}

/-- A step of session `k`, by what it means for one resource. -/
theorem carries_put {s' : Store} {x' : Session} (hseq : st.store.seq ≤ s'.seq)
    (hholds : ∀ n, x'.holds roomNum = some n → st.store.seq ≤ n)
    (hnamed : ∀ token euid, euid ≠ [] →
      euid ∈ (roomChangesSince st.store roomNum token).map RoomChange.euid →
      euid ∈ (roomChangesSince s' roomNum token).map RoomChange.euid ∨
        x'.leaves roomNum token euid)
    (hleaves : ∀ token euid, Clear roomNum token st → euid ≠ [] →
      (st.sessions k).leaves roomNum token euid →
      euid ∈ (roomChangesSince s' roomNum token).map RoomChange.euid ∨
        x'.leaves roomNum token euid)
    (hfound : ∀ token euid, Clear roomNum token st → euid ≠ [] →
      (euid ∈ (roomChangesSince s' roomNum token).map RoomChange.euid ∨
        x'.leaves roomNum token euid) ∨
      findByEuid s' roomNum euid = findByEuid st.store roomNum euid) :
    Carries roomNum st (st.put k (s', x')) := by
  have howed : ∀ {token euid}, (euid ∈ (roomChangesSince s' roomNum token).map RoomChange.euid ∨
      x'.leaves roomNum token euid) → Owed roomNum token (st.put k (s', x')) euid := by
    intro token euid h
    cases h with
    | inl h => exact .inl h
    | inr h => exact .inr ⟨k, by simpa using h⟩
  refine ⟨?_, ?_, ?_⟩
  · intro token hclear
    refine ⟨Nat.lt_of_lt_of_le hclear.1 hseq, fun l n hl => ?_⟩
    rw [put_sessions] at hl
    split at hl
    · exact Nat.lt_of_lt_of_le hclear.1 (hholds n hl)
    · exact hclear.2 l n hl
  · intro token hclear euid hne h
    cases h with
    | inl h => exact howed (hnamed token euid hne h)
    | inr h =>
      obtain ⟨l, hl⟩ := h
      by_cases hlk : l = k
      · exact howed (hleaves token euid hclear hne (hlk ▸ hl))
      · exact .inr ⟨l, by simpa [hlk] using hl⟩
  · intro token hclear euid hne
    exact (hfound token euid hclear hne).imp_left howed

/-- A step that changes neither the store nor what is on its way in the room. -/
theorem carries_session {x' : Session} (hholds : x'.holds roomNum = none)
    (hleaves : ∀ token euid, euid ≠ [] → ¬(st.sessions k).leaves roomNum token euid) :
    Carries roomNum st (st.put k (st.store, x')) :=
  carries_put (Nat.le_refl _) (fun n hn => by rw [hholds] at hn; cases hn)
    (fun _ _ _ h => .inl h) (fun _ _ _ hne h => absurd h (hleaves _ _ hne)) (fun _ _ _ _ => .inr rfl)

/-- A commit names the message, or concerns no resource of the room. -/
theorem carries_commit {row : Row} {rooms : List Nat} (h : Coherent E st)
    (hx : st.sessions k = .drawn row rooms) :
    Carries roomNum st (st.put k (commitRow st.store row rooms, .done)) ∧
      Coherent E (st.put k (commitRow st.store row rooms, .done)) := by
  have hnumber : (st.sessions k).number = some row.msg.msgnum := by rw [hx]; rfl
  have hlabel : row.msg = E row.msg.msgnum := by
    have := h.label k
    rwa [hx] at this
  have hok' := h.ok.commitRow rooms (h.pos k _ hnumber).1 (h.pos k _ hnumber).2
    (h.newRow k _ hnumber) hlabel
  have hmem : ∀ m, m ∈ (view (commitRow st.store row rooms) roomNum).members ↔
      m ∈ (view st.store roomNum).members ∨ (m = row.msg.msgnum ∧ roomNum ∈ rooms) :=
    fun m => mem_commitRow
  have hgrow : ∀ token m, Named id token (view st.store roomNum) m →
      Named id token (view (commitRow st.store row rooms) roomNum) m := by
    intro token m hnamed
    cases hnamed with
    | inl hin => exact .inl ⟨(hmem m).mpr (.inl hin.1), hin.2⟩
    | inr hout =>
      right
      simpa [view] using hout
  constructor
  · refine carries_put (by simp) (fun n hn => by cases hn) ?_ ?_ ?_
    · intro token euid _ hin
      obtain ⟨m, hnamed, heuid⟩ := (mem_named_euids h.ok).mp hin
      exact .inl ((mem_named_euids hok').mpr ⟨m, hgrow token m hnamed, heuid⟩)
    · intro token euid _ _ hleaves
      rw [hx] at hleaves
      exact hleaves.elim
    · intro token euid hclear hne
      by_cases hin : roomNum ∈ rooms ∧ row.msg.euid = euid
      · -- the number was held for the room, so it is above the token
        have habove : token < row.msg.msgnum :=
          hclear.2 k _ (by rw [hx]; exact if_pos ⟨hin.1, hin.2 ▸ hne⟩)
        refine .inl (.inl ((mem_named_euids hok').mpr ⟨row.msg.msgnum, .inl ⟨?_, habove⟩, ?_⟩))
        · exact (hmem _).mpr (.inr ⟨rfl, hin.1⟩)
        · rw [← hlabel, hin.2]
      · right
        rw [findByEuid, findByEuid, if_neg hne, if_neg hne]
        apply max?_congr
        intro m
        rw [mem_rowsByEuid hok', mem_rowsByEuid h.ok, hmem]
        constructor
        · rintro ⟨hm | ⟨rfl, hroom⟩, heuid⟩
          · exact ⟨hm, heuid⟩
          · rw [← hlabel] at heuid
            exact absurd ⟨hroom, heuid⟩ hin
        · exact fun hm => ⟨.inl hm.1, hm.2⟩
  · refine h.put hok' (fun _ _ => rfl) (by simp) (fun r hr => by simp [hr]) ?_ ?_ ?_ trivial
    · intro r hr
      rw [commitRow_messages, List.mem_append, List.mem_singleton] at hr
      exact hr.imp_right fun hr => by rw [hr, hnumber]
    · intro t ht
      rw [commitRow_tombstones] at ht
      exact .inl ht
    · intro n hn
      cases hn

/-- A pointer that is deleted leaves its session with the tombstone to write. -/
theorem carries_deletePointer {room msgnum : Nat} {euid : Bytes} (h : Coherent E st)
    (hx : st.sessions k = .removing room msgnum euid) :
    Carries roomNum st
      (st.put k (deletePointer st.store room msgnum, .removed room msgnum euid)) := by
  have hlabel : msgnum < st.store.seq ∧ euid = (E msgnum).euid := by
    have := h.label k
    rwa [hx] at this
  have hok' := h.ok.deletePointer room msgnum
  have hmem : ∀ m, m ∈ (view (deletePointer st.store room msgnum) roomNum).members ↔
      m ∈ (view st.store roomNum).members ∧ ¬(roomNum = room ∧ m = msgnum) := by
    intro m
    simp [view, deletePointer, imp_iff_not_or]
  refine carries_put (Nat.le_refl _) (fun n hn => by cases hn) ?_ ?_ ?_
  · intro token e _ hin
    obtain ⟨m, hnamed, heuid⟩ := (mem_named_euids h.ok).mp hin
    by_cases hgone : roomNum = room ∧ m = msgnum
    · exact .inr ⟨hgone.1.symm, by rw [hlabel.2, ← hgone.2, heuid]⟩
    · refine .inl ((mem_named_euids hok').mpr ⟨m, ?_, heuid⟩)
      cases hnamed with
      | inl hin => exact .inl ⟨(hmem m).mpr ⟨hin.1, hgone⟩, hin.2⟩
      | inr hout => exact .inr hout
  · intro token e _ _ hleaves
    rw [hx] at hleaves
    exact hleaves.elim
  · intro token e _ hne
    by_cases hgone : roomNum = room ∧ e = euid
    · exact .inl (.inr ⟨hgone.1.symm, hgone.2.symm⟩)
    · right
      rw [findByEuid, findByEuid, if_neg hne, if_neg hne]
      apply max?_congr
      intro m
      rw [mem_rowsByEuid hok', mem_rowsByEuid h.ok, hmem]
      constructor
      · exact fun hm => ⟨hm.1.1, hm.2⟩
      · rintro ⟨hm, heuid⟩
        refine ⟨⟨hm, fun hboth => hgone ⟨hboth.1, ?_⟩⟩, heuid⟩
        rw [← heuid, hboth.2, hlabel.2]

/-- The tombstone names the resource in place of its session. -/
theorem carries_putTombstone {room msgnum seq : Nat} {euid : Bytes} (w : World)
    (h : Coherent E st) (hx : st.sessions k = .stamped room msgnum euid seq) :
    Carries roomNum st
        (st.put k (putTombstone st.store ⟨room, seq, euid, msgnum, w.now⟩, .done)) ∧
      Coherent E (st.put k (putTombstone st.store ⟨room, seq, euid, msgnum, w.now⟩, .done)) := by
  have hnumber : (st.sessions k).number = some seq := by rw [hx]; rfl
  have hlabel : msgnum < st.store.seq ∧ euid = (E msgnum).euid := by
    have := h.label k
    rwa [hx] at this
  have htombs := putTombstone_new (t := ⟨room, seq, euid, msgnum, w.now⟩) (h.newTomb k _ hnumber)
  have hok' := h.ok.putTombstone (t := ⟨room, seq, euid, msgnum, w.now⟩) (h.newTomb k _ hnumber)
    (h.pos k _ hnumber).2 hlabel.1 hlabel.2
  constructor
  · refine carries_put (Nat.le_refl _) (fun n hn => by cases hn) ?_ ?_ (fun _ _ _ _ => .inr rfl)
    · intro token e _ hin
      obtain ⟨m, hnamed, heuid⟩ := (mem_named_euids h.ok).mp hin
      refine .inl ((mem_named_euids hok').mpr ⟨m, ?_, heuid⟩)
      cases hnamed with
      | inl hin => exact .inl hin
      | inr hout =>
        obtain ⟨q, hq, t, ht, hrest⟩ := hout
        exact .inr ⟨q, hq, t, by rw [htombs]; exact List.mem_append_left _ ht, hrest⟩
    · intro token e _ _ hleaves
      rw [hx] at hleaves
      obtain ⟨rfl, rfl, habove⟩ := hleaves
      refine .inl ((mem_named_euids hok').mpr ⟨msgnum, .inr ⟨seq, habove, ?_⟩, hlabel.2.symm⟩)
      exact ⟨_, by rw [htombs]; exact List.mem_append_right _ (List.mem_singleton_self _),
        rfl, rfl, rfl⟩
  · refine h.put hok' (fun _ _ => rfl) (Nat.le_refl _) (fun _ hr => hr) (fun _ hr => .inl hr) ?_
      (fun n hn => by cases hn) trivial
    intro t ht
    rw [htombs, List.mem_append, List.mem_singleton] at ht
    exact ht.imp_right fun ht => by rw [ht, hnumber]

/-- Every step of a session carries every client that may read what is to come. -/
theorem carries_advance (roomNum : Nat) (w : World) (h : Coherent E st) (k : Nat) :
    Carries roomNum st (st.put k (advance w st.store (st.sessions k))) ∧
      ∃ E', Coherent E' (st.put k (advance w st.store (st.sessions k))) := by
  have hpass : ∀ x', x'.holds roomNum = none → x'.number = none → x'.Labelled E st.store →
      (∀ token euid, euid ≠ [] → ¬(st.sessions k).leaves roomNum token euid) →
      Carries roomNum st (st.put k (st.store, x')) ∧
        ∃ E', Coherent E' (st.put k (st.store, x')) :=
    fun x' hholds hnum hlabel hleaves =>
      ⟨carries_session hholds hleaves, E, h.session hnum hlabel⟩
  have hlabel := h.label k
  cases hx : st.sessions k with
  | insert msg rooms =>
    rw [advance]
    cases quotaRefusal st.store rooms with
    | some err => exact hpass .done rfl rfl trivial (fun _ _ _ hl => by rw [hx] at hl; exact hl)
    | none =>
      refine ⟨carries_put (Nat.le_succ _) ?_ (fun _ _ _ hin => .inl hin) ?_
        (fun _ _ _ _ => .inr rfl), Function.update E st.store.seq (storedRow w st.store msg).msg, ?_⟩
      · intro n hn
        simp only [Session.holds] at hn
        split at hn
        · rw [← Option.some.inj hn]
          exact Nat.le_refl _
        · cases hn
      · intro token euid _ _ hl
        rw [hx] at hl
        exact hl.elim
      · have hagree : ∀ n < st.store.seq,
            Function.update E st.store.seq (storedRow w st.store msg).msg n = E n :=
          fun n hn => Function.update_of_ne (Nat.ne_of_lt hn) _ _
        refine h.put (h.ok.drawNumber hagree) hagree (Nat.le_succ _) (fun _ hr => hr)
          (fun _ hr => .inl hr) (fun _ ht => .inl ht) ?_ ?_
        · intro n hn
          rw [← Option.some.inj hn]
          exact ⟨Nat.le_refl _, Nat.lt_succ_self _⟩
        · exact (Function.update_self st.store.seq (storedRow w st.store msg).msg E).symm
  | drawn row rooms =>
    obtain ⟨hcarry, hcoherent⟩ := @carries_commit _ _ roomNum _ _ _ h hx
    exact ⟨hcarry, E, hcoherent⟩
  | delete room msgnum =>
    rw [advance]
    split
    · next hin =>
      refine hpass _ rfl rfl ?_ (fun _ _ _ hl => by rw [hx] at hl; exact hl)
      exact h.ok.pointers ⟨room, msgnum⟩ (by simpa [messageInRoom] using hin)
    · exact hpass _ rfl rfl trivial (fun _ _ _ hl => by rw [hx] at hl; exact hl)
  | unlink room msgnum =>
    rw [hx] at hlabel
    obtain ⟨r, hr, rfl⟩ := hlabel
    refine hpass _ rfl rfl ⟨(h.ok.rows r hr).2, ?_⟩ (fun _ _ _ hl => by rw [hx] at hl; exact hl)
    rw [findRow_of_mem h.ok hr, ← h.ok.rowLabel r hr]
    rfl
  | removing room msgnum euid =>
    rw [hx] at hlabel
    exact ⟨carries_deletePointer h hx, E, h.put (h.ok.deletePointer room msgnum) (fun _ _ => rfl)
      (Nat.le_refl _) (fun _ hr => hr) (fun _ hr => .inl hr) (fun _ ht => .inl ht)
      (fun n hn => by cases hn) hlabel⟩
  | removed room msgnum euid =>
    rw [hx] at hlabel
    refine ⟨carries_put (Nat.le_succ _) ?_ (fun _ _ _ hin => .inl hin) ?_
      (fun _ _ _ _ => .inr rfl), E, h.put (h.ok.drawNumber fun _ _ => rfl) (fun _ _ => rfl)
      (Nat.le_succ _) (fun _ hr => hr) (fun _ hr => .inl hr) (fun _ ht => .inl ht) ?_
      ⟨Nat.lt_succ_of_lt hlabel.1, hlabel.2⟩⟩
    · intro n hn
      simp only [Session.holds] at hn
      split at hn
      · rw [← Option.some.inj hn]
      · cases hn
    · intro token e hclear _ hl
      rw [hx] at hl
      exact .inr ⟨hl.1, hl.2, hclear.1⟩
    · intro n hn
      rw [← Option.some.inj hn]
      exact ⟨Nat.le_refl _, Nat.lt_succ_self _⟩
  | stamped room msgnum euid seq =>
    obtain ⟨hcarry, hcoherent⟩ := @carries_putTombstone _ _ roomNum _ _ _ _ _ w h hx
    exact ⟨hcarry, E, hcoherent⟩
  | done => exact hpass .done rfl rfl trivial (fun _ _ _ hl => by rw [hx] at hl; exact hl)

end Steps

/-! ## What the client keeps -/

/-- The client has what the room held when it read its token, and what a report that is
    under way has already looked up. -/
def Knows (roomNum : Nat) (st : System) : Prop :=
  match st.client.phase with
  | .idle =>
    Clear roomNum st.client.token st ∧ Caught roomNum st.client.token st.client.known st
  | .reading now =>
    Clear roomNum st.client.token st ∧ Caught roomNum st.client.token st.client.known st ∧
      Clear roomNum now st
  | .resolving now todo reply =>
    Clear roomNum now st ∧ ∀ euid, euid ≠ [] → euid ∈ todo ∨
      applyReply reply st.client.known euid = findByEuid st.store roomNum euid ∨
        Owed roomNum now st euid

theorem Knows.carry {st' : System} (h : Knows roomNum st)
    (hcarry : Carries roomNum st st') (hclient : st'.client = st.client) : Knows roomNum st' := by
  unfold Knows at h ⊢
  rw [hclient]
  cases hphase : st.client.phase with
  | idle =>
    rw [hphase] at h
    exact ⟨hcarry.clear _ h.1, h.2.carry hcarry h.1⟩
  | reading now =>
    rw [hphase] at h
    exact ⟨hcarry.clear _ h.1, h.2.1.carry hcarry h.1, hcarry.clear _ h.2.2⟩
  | resolving now todo reply =>
    rw [hphase] at h
    refine ⟨hcarry.clear _ h.1, fun euid hne => ?_⟩
    cases h.2 euid hne with
    | inl htodo => exact .inl htodo
    | inr hrest =>
      right
      cases hrest with
      | inr howed => exact .inr (hcarry.owed now h.1 euid hne howed)
      | inl hknown =>
        cases hcarry.found now h.1 euid hne with
        | inl howed => exact .inr howed
        | inr hfound => exact .inl (hknown.trans hfound.symm)

theorem mem_namedEuids {since : Nat} {euid : Bytes} : euid ∈ namedEuids s roomNum since ↔
      euid ∈ (roomChangesSince s roomNum since).map RoomChange.euid ∧ euid ≠ [] := by
  rw [namedEuids, List.mem_eraseDups, List.mem_filter, decide_eq_true_eq]

theorem applyReply_snoc (reply : List (Bytes × Option Nat)) (known : Bytes → Option Nat)
    (euid : Bytes) (found : Option Nat) :
    applyReply (reply ++ [(euid, found)]) known =
      Function.update (applyReply reply known) euid found := by
  rw [applyReply, List.foldl_append]
  rfl

/-- What is owed after one token is owed after another that is clear, unless a change
    names it now. -/
theorem Owed.later {token now : Nat} {euid : Bytes} (hne : euid ≠ [])
    (h : Owed roomNum token st euid) (hclear : Clear roomNum now st) :
    euid ∈ namedEuids st.store roomNum token ∨ Owed roomNum now st euid := by
  cases h with
  | inl hin => exact .inl (mem_namedEuids.mpr ⟨hin, hne⟩)
  | inr hleaves =>
    obtain ⟨k, hk⟩ := hleaves
    refine .inr (.inr ⟨k, ?_⟩)
    cases hx : st.sessions k with
    | removed room msgnum e =>
      rw [hx] at hk
      exact hk
    | stamped room msgnum e seq =>
      rw [hx] at hk
      refine ⟨hk.1, hk.2.1, hclear.2 k seq ?_⟩
      rw [hx]
      exact if_pos ⟨hk.1, hk.2.1 ▸ hne⟩
    | insert msg rooms => rw [hx] at hk; exact hk
    | drawn row rooms => rw [hx] at hk; exact hk
    | delete room msgnum => rw [hx] at hk; exact hk
    | unlink room msgnum => rw [hx] at hk; exact hk
    | removing room msgnum e => rw [hx] at hk; exact hk
    | done => rw [hx] at hk; exact hk

/-- A timely action keeps what the client knows. -/
theorem knows_act (hst : Coherent E st)
    (h : Knows roomNum st) {a : Action} (htimely : Timely roomNum st a) :
    Knows roomNum (act roomNum st a) ∧ ∃ E', Coherent E' (act roomNum st a) := by
  have hreader : ∀ client : Client, Coherent E { st with client := client } :=
    fun _ => ⟨hst.ok, hst.pos, hst.newRow, hst.newTomb, hst.distinct, hst.label⟩
  have hcall : ∀ k x', st.sessions k = .done → x'.holds roomNum = none → x'.number = none →
      x'.Labelled E st.store → Knows roomNum (st.put k (st.store, x')) ∧
        ∃ E', Coherent E' (st.put k (st.store, x')) := by
    intro k x' hdone hholds hnum hlabel
    have hcarry : Carries roomNum st (st.put k (st.store, x')) :=
      carries_session hholds fun token euid _ hl => by rw [hdone] at hl; exact hl
    exact ⟨h.carry hcarry rfl, E, hst.session hnum hlabel⟩
  cases a with
  | insert k msg rooms =>
    rw [act]
    split
    · next hdone => exact hcall k _ hdone rfl rfl trivial
    · exact ⟨h, E, hst⟩
  | delete k room msgnum =>
    rw [act]
    split
    · next hdone => exact hcall k _ hdone rfl rfl trivial
    · exact ⟨h, E, hst⟩
  | next k w =>
    obtain ⟨hcarry, hcoherent⟩ := carries_advance roomNum w hst k
    exact ⟨h.carry hcarry rfl, hcoherent⟩
  | stop k =>
    refine ⟨h.carry (carries_session rfl fun token euid hne hl => ?_) rfl, E,
      hst.session rfl trivial⟩
    -- nothing is owed for the room by the session that stops
    simp only [Timely] at htimely
    cases hx : st.sessions k with
    | removed room msgnum e =>
      rw [hx] at hl htimely
      simp [Session.owes, hl.1, hl.2, hne] at htimely
    | stamped room msgnum e seq =>
      rw [hx] at hl htimely
      simp [Session.owes, hl.1, hl.2.1, hne] at htimely
    | insert msg rooms => rw [hx] at hl; exact hl
    | drawn row rooms => rw [hx] at hl; exact hl
    | delete room msgnum => rw [hx] at hl; exact hl
    | unlink room msgnum => rw [hx] at hl; exact hl
    | removing room msgnum e => rw [hx] at hl; exact hl
    | done => rw [hx] at hl; exact hl
  | readToken =>
    rw [act]
    cases hphase : st.client.phase with
    | idle =>
      refine ⟨?_, E, hreader _⟩
      unfold Knows at h ⊢
      rw [hphase] at h
      exact ⟨h.1, h.2, roomChangeToken_lt hst.ok roomNum, htimely hphase⟩
    | reading now => exact ⟨h, E, hst⟩
    | resolving now todo reply => exact ⟨h, E, hst⟩
  | readChanges =>
    rw [act]
    cases hphase : st.client.phase with
    | reading now =>
      refine ⟨?_, E, hreader _⟩
      unfold Knows at h ⊢
      rw [hphase] at h
      refine ⟨h.2.2, fun euid hne => ?_⟩
      cases h.2.1 euid hne with
      | inl hknown => exact .inr (.inl hknown)
      | inr howed => exact (howed.later hne h.2.2).imp_right .inr
    | idle => exact ⟨h, E, hst⟩
    | resolving now todo reply => exact ⟨h, E, hst⟩
  | lookUp =>
    rw [act]
    cases hphase : st.client.phase with
    | resolving now todo reply =>
      cases todo with
      | nil => exact ⟨h, E, hst⟩
      | cons first todo =>
        refine ⟨?_, E, hreader _⟩
        unfold Knows at h ⊢
        rw [hphase] at h
        refine ⟨h.1, fun euid hne => ?_⟩
        by_cases hfirst : euid = first
        · refine .inr (.inl ?_)
          simp only [System.at, applyReply_snoc, hfirst, Function.update_self]
        · cases h.2 euid hne with
          | inl htodo => exact .inl ((List.mem_cons.mp htodo).resolve_left hfirst)
          | inr hrest =>
            right
            simp only [System.at, applyReply_snoc, Function.update_of_ne hfirst]
            exact hrest
    | idle => exact ⟨h, E, hst⟩
    | reading now => exact ⟨h, E, hst⟩
  | answer =>
    rw [act]
    cases hphase : st.client.phase with
    | resolving now todo reply =>
      cases todo with
      | cons first todo => exact ⟨h, E, hst⟩
      | nil =>
        refine ⟨?_, E, hreader _⟩
        unfold Knows at h ⊢
        rw [hphase] at h
        exact ⟨h.1, fun euid hne => (h.2 euid hne).resolve_left List.not_mem_nil⟩
    | idle => exact ⟨h, E, hst⟩
    | reading now => exact ⟨h, E, hst⟩

/-- Timely actions keep what the client knows. -/
theorem knows_schedule (acts : List Action) :
    ∀ {st : System}, (∃ E, Coherent E st) → Knows roomNum st → AllTimely roomNum st acts →
      Knows roomNum (schedule roomNum st acts) := by
  induction acts with
  | nil => exact fun _ h _ => h
  | cons a acts ih =>
    intro st ⟨E, hst⟩ h htimely
    obtain ⟨h', hst'⟩ := knows_act hst h htimely.1
    exact ih hst' h' htimely.2

/-! ## Quiescence -/

theorem applyReply_found (todo : List Bytes) (find known : Bytes → Option Nat) (euid : Bytes) :
    applyReply (todo.map fun e => (e, find e)) known euid =
      if euid ∈ todo then find euid else known euid := by
  induction todo using List.reverseRecOn with
  | nil => simp [applyReply]
  | append_singleton todo last ih =>
    rw [List.map_append, List.map_singleton, applyReply_snoc, Function.update_apply, ih]
    by_cases hlast : euid = last
    · simp [hlast]
    · simp [hlast]

/-- The look-ups of a report that nothing interrupts. -/
theorem lookUps (roomNum : Nat) (st : System) (now : Nat) :
    ∀ (todo : List Bytes) (reply : List (Bytes × Option Nat)),
      schedule roomNum (st.at (.resolving now todo reply)) (List.replicate todo.length .lookUp) =
        st.at (.resolving now []
          (reply ++ todo.map fun e => (e, findByEuid st.store roomNum e))) := by
  intro todo
  induction todo with
  | nil => simp [schedule]
  | cons first todo ih =>
    intro reply
    have := ih (reply ++ [(first, findByEuid st.store roomNum first)])
    rw [List.append_assoc] at this
    exact this

/-- A whole report looks up every resource that changed since the token. -/
theorem report_known (hidle : st.client.phase = .idle) (euid : Bytes) :
    (report roomNum st).client.known euid =
      if euid ∈ namedEuids st.store roomNum st.client.token
      then findByEuid st.store roomNum euid else st.client.known euid := by
  have hasked : schedule roomNum st [.readToken, .readChanges] =
      st.at (.resolving (roomChangeToken st.store roomNum)
        (namedEuids st.store roomNum st.client.token) []) := by
    simp [schedule, act, hidle, System.at]
  rw [report, hasked]
  simp only [lookUps, List.nil_append]
  rw [← applyReply_found]
  rfl

/-- A client that knows the room has all of it after a report in a quiescent state. -/
theorem settles_of_knows (h : Knows roomNum st) : Settles roomNum st := by
  intro hquiescent hidle euid hne
  rw [report_known hidle]
  split
  · rfl
  · next hunnamed =>
    unfold Knows at h
    rw [hidle] at h
    cases h.2 euid hne with
    | inl hknown => exact hknown
    | inr howed =>
      cases howed with
      | inl hin => exact absurd (mem_namedEuids.mpr ⟨hin, hne⟩) hunnamed
      | inr hleaves =>
        obtain ⟨k, hk⟩ := hleaves
        rw [hquiescent k] at hk
        exact hk.elim

theorem coherent_start (hok : Ok E s) : Coherent E (System.start s) where
  ok := hok
  pos := fun _ _ h => by cases h
  newRow := fun _ _ h => by cases h
  newTomb := fun _ _ h => by cases h
  distinct := fun _ _ _ h => by cases h
  label := fun _ => trivial

/-- A client that knows nothing is owed everything. -/
theorem knows_start (hok : Ok E s) (roomNum : Nat) : Knows roomNum (System.start s) := by
  refine ⟨⟨hok.seqPos, fun _ _ h => by cases h⟩, fun euid hne => ?_⟩
  cases hfind : findByEuid s roomNum euid with
  | none => exact .inl hfind.symm
  | some m =>
    right
    left
    rw [findByEuid, if_neg hne] at hfind
    obtain ⟨hin, heuid⟩ := (mem_rowsByEuid hok).mp (List.max?_eq_some_iff.mp hfind).1
    obtain ⟨r, hr, hnum⟩ := hok.pointers _ hin
    have hpos : 0 < m := by
      have := (hok.rows r hr).1
      simp only at hnum
      omega
    exact (mem_named_euids hok).mpr ⟨m, .inl ⟨hin, hpos⟩, heuid⟩

/-- After any timely schedule of sessions and reports, a client has the whole room once
    the sessions are quiescent. -/
theorem settles_of_timely (rooms : List Room) (config : List (Bytes × Bytes))
    (users : List (Bytes × Int)) (credentials : List Bytes) (quotas : List Limit)
    (past : List (World × Op)) (roomNum : Nat) (acts : List Action)
    (htimely : AllTimely roomNum
      (System.start (run (fresh rooms config users credentials quotas) past)) acts) :
    Settles roomNum
      (schedule roomNum (System.start (run (fresh rooms config users credentials quotas) past))
        acts) := by
  obtain ⟨E, hok⟩ := ok_run rooms config users credentials quotas past
  exact settles_of_knows
    (knows_schedule acts ⟨E, coherent_start hok⟩ (knows_start hok roomNum) htimely)

/-- A message stored as RFC 822 under an euid. -/
def resource (euid : Bytes) : Message := { Message.blank with euid := euid, formatType := 4 }

def calm : World := ⟨0, [], [], fun _ => none, fun _ _ => []⟩

/-- A message is removed while a report runs; a second one is drawn before the token is
    read and committed after it. -/
theorem settles_of_timely_removal :
    let st := System.start (run (fresh [⟨7, 0, 0, 0, 0, 0⟩] [] [] [] [])
      [(calm, .insert (resource (bytes "a")) [7])])
    let acts : List Action := [.readToken, .delete 0 7 1, .next 0 calm, .next 0 calm, .next 0 calm,
      .readChanges, .lookUp, .answer, .insert 1 (resource (bytes "b")) [7], .next 0 calm,
      .next 1 calm, .readToken, .next 0 calm, .next 1 calm, .readChanges, .lookUp, .answer]
    Settles 7 (schedule 7 st acts) ∧ (schedule 7 st acts).Quiescent ∧
      findByEuid (schedule 7 st acts).store 7 (bytes "a") = none ∧
      findByEuid (schedule 7 st acts).store 7 (bytes "b") = some 3 := by
  refine ⟨settles_of_timely [⟨7, 0, 0, 0, 0, 0⟩] [] [] [] []
    [(calm, .insert (resource (bytes "a")) [7])] 7 _ ?_, ?_, by decide +kernel, by decide +kernel⟩
  · simp only [AllTimely, Timely, and_true, true_and]
    refine ⟨fun _ k n hk => ?_, fun _ k n hk => ?_⟩
    · cases hk
    · rcases k with _ | _ | k
      · obtain rfl := Option.some.inj (hk.symm.trans (show _ = some 2 by decide +kernel))
        decide +kernel
      · obtain rfl := Option.some.inj (hk.symm.trans (show _ = some 3 by decide +kernel))
        decide +kernel
      · cases hk
  · intro k
    rcases k with _ | _ | k
    · decide +kernel
    · decide +kernel
    · rfl

/-- Number 1 is committed after a token of 2 was read: no report ever names its message. -/
theorem insertion_missed :
    ¬∀ (rooms : List Room) (config : List (Bytes × Bytes)) (users : List (Bytes × Int))
      (credentials : List Bytes) (quotas : List Limit) (past : List (World × Op)) (roomNum : Nat)
      (acts : List Action),
      Settles roomNum
        (schedule roomNum (System.start (run (fresh rooms config users credentials quotas) past))
          acts) := by
  intro h
  have hmissed := h [⟨7, 0, 0, 0, 0, 0⟩] [] [] [] [] [] 7
    [.insert 0 (resource (bytes "a")) [7], .next 0 calm, .insert 1 (resource (bytes "b")) [7],
      .next 1 calm, .next 1 calm, .readToken, .readChanges, .lookUp, .answer, .next 0 calm]
    (by
      intro k
      rcases k with _ | _ | k
      · decide +kernel
      · decide +kernel
      · rfl)
    (by decide +kernel) (bytes "a") (by decide)
  revert hmissed
  decide +kernel

end QuackMail.Citadel
