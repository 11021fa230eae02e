import QuackMail.Store.Sync

/-! # The change token

`RoomChangeToken` is served as the ctag and the sync-token of a collection and wakes an
IDLE, so two equal tokens have to mean equal contents.  The token is the largest number
the journal of the room holds.  An announced step either leaves the members as they are
or puts a larger number into the journal; an old message that is linked does neither,
and pruning may take the largest number away.
-/

namespace QuackMail.Citadel

open ChangeJournal

/-! ## Pruning -/

/-- `PruneTombstones`. -/
def pruneTombstones (w : World) (s : Store) (olderThanSeconds : Int) : Store :=
  if olderThanSeconds ≤ 0 then s
  else
    let cutoff := w.now - olderThanSeconds
    { s with tombstones := s.tombstones.filter (fun t => ¬t.deletedAt < cutoff) }

inductive Change where
  | op (op : Op)
  | prune (olderThanSeconds : Int)

def changeStep (s : Store) (c : World × Change) : Store :=
  match c.2 with
  | .op op => step s (c.1, op)
  | .prune olderThanSeconds => pruneTombstones c.1 s olderThanSeconds

def changeRun (s : Store) (changes : List (World × Change)) : Store := changes.foldl changeStep s

/-! ## When a step is safe -/

/-- The number is larger than any the room holds a pointer or a tombstone with. -/
def Above (s : Store) (roomNum n : Nat) : Prop :=
  (∀ p ∈ s.roomMsgs, p.roomNum = roomNum → p.msgnum < n) ∧
    ∀ t ∈ s.tombstones, t.roomNum = roomNum → t.seq < n

/-- The tombstone is among those that are pruned. -/
def Pruned (w : World) (olderThanSeconds : Int) (t : Tombstone) : Prop :=
  0 < olderThanSeconds ∧ t.deletedAt < w.now - olderThanSeconds

/-- A message that is moved or copied into the room is there already or has a number above
    all of the room's; where tombstones of the room are pruned, a pointer or a tombstone
    with a number as large stays. -/
def ChangeSafe (roomNum : Nat) (s : Store) (c : World × Change) : Prop :=
  match c.2 with
  | .op (.move fromRoom toRoom msgnum _) =>
    toRoom = roomNum → messageInRoom s fromRoom msgnum = true → (getRoomByNum s toRoom).isSome →
      messageInRoom s roomNum msgnum = true ∨ Above s roomNum msgnum
  | .op _ => True
  | .prune olderThanSeconds =>
    ∀ t ∈ s.tombstones, t.roomNum = roomNum → Pruned c.1 olderThanSeconds t →
      (∃ p ∈ s.roomMsgs, p.roomNum = roomNum ∧ t.seq ≤ p.msgnum) ∨
        ∃ u ∈ s.tombstones, u.roomNum = roomNum ∧ t.seq ≤ u.seq ∧
          ¬Pruned c.1 olderThanSeconds u

/-- `C` holds of every step of the run and the state the step is taken in. -/
def EachChange (C : Store → World × Change → Prop) : Store → List (World × Change) → Prop
  | _, [] => True
  | s, c :: changes => C s c ∧ EachChange C (changeStep s c) changes

variable {E : Nat → Message} {s s' : Store} {roomNum : Nat}

/-! ## The token -/

/-- The token is the least bound of the numbers of the journal. -/
theorem roomChangeToken_le_iff {n : Nat} : roomChangeToken s roomNum ≤ n ↔
    (∀ p ∈ s.roomMsgs, p.roomNum = roomNum → p.msgnum ≤ n) ∧
      ∀ t ∈ s.tombstones, t.roomNum = roomNum → t.seq ≤ n := by
  have hmax : ∀ xs : List Nat, xs.max?.getD 0 ≤ n ↔ ∀ x ∈ xs, x ≤ n := by
    intro xs
    cases hx : xs.max? with
    | none =>
      rw [List.max?_eq_none_iff] at hx
      simp [hx]
    | some a =>
      obtain ⟨ha, hle⟩ := List.max?_eq_some_iff.mp hx
      exact ⟨fun h x hx => Nat.le_trans (hle x hx) h, fun h => h a ha⟩
  rw [roomChangeToken, Nat.max_le, hmax, hmax]
  simp only [List.mem_map, List.mem_filter, decide_eq_true_eq, forall_exists_index, and_imp]
  constructor
  · intro h
    exact ⟨fun p hp hroom => h.1 _ p hp hroom rfl, fun t ht hroom => h.2 _ t ht hroom rfl⟩
  · intro h
    exact ⟨fun _ p hp hroom heq => heq ▸ h.1 p hp hroom, fun _ t ht hroom heq => heq ▸ h.2 t ht hroom⟩

theorem pointer_le_token {m : Nat} (h : m ∈ (view s roomNum).members) :
    m ≤ roomChangeToken s roomNum :=
  (roomChangeToken_le_iff.mp (Nat.le_refl _)).1 _ h rfl

theorem removal_le_token {t m : Nat} (h : (t, m) ∈ (view s roomNum).removals) :
    t ≤ roomChangeToken s roomNum := by
  obtain ⟨tomb, hmem, hroom, rfl, -⟩ := h
  exact (roomChangeToken_le_iff.mp (Nat.le_refl _)).2 tomb hmem hroom

theorem above_iff {n : Nat} (hpos : 0 < n) : Above s roomNum n ↔ roomChangeToken s roomNum < n := by
  obtain ⟨k, rfl⟩ := Nat.exists_eq_succ_of_ne_zero hpos.ne'
  rw [Nat.succ_eq_add_one, Nat.lt_succ_iff, roomChangeToken_le_iff, Above]
  simp only [Nat.lt_succ_iff]

/-! ## Steps -/

/-- The token does not fall, and where it stays the members stay. -/
def Tells (roomNum : Nat) (s s' : Store) : Prop :=
  roomChangeToken s roomNum ≤ roomChangeToken s' roomNum ∧
    (roomChangeToken s roomNum = roomChangeToken s' roomNum →
      (view s roomNum).members = (view s' roomNum).members)

theorem Tells.refl (roomNum : Nat) (s : Store) : Tells roomNum s s :=
  ⟨Nat.le_refl _, fun _ => rfl⟩

theorem Tells.trans {t : Store} (h : Tells roomNum s s') (h' : Tells roomNum s' t) :
    Tells roomNum s t := by
  refine ⟨Nat.le_trans h.1 h'.1, fun heq => ?_⟩
  have hfirst : roomChangeToken s roomNum = roomChangeToken s' roomNum :=
    Nat.le_antisymm h.1 (heq ▸ h'.1)
  exact (h.2 hfirst).trans (h'.2 (hfirst ▸ heq))

/-- Steps announced after the token tell what they did by the token. -/
theorem tells_of_steps (hs : Relation.ReflTransGen (Step id (roomChangeToken s roomNum))
    (view s roomNum) (view s' roomNum)) : Tells roomNum s s' := by
  have hfollows := (Follows.refl (view s roomNum)).steps hs
  -- an item that is named has a number after the token, and the journal holds it now
  have hnamed : ∀ m, Named id (roomChangeToken s roomNum) (view s' roomNum) m →
      roomChangeToken s roomNum < roomChangeToken s' roomNum := by
    intro m hm
    cases hm with
    | inl hadded => exact Nat.lt_of_lt_of_le hadded.2 (pointer_le_token hadded.1)
    | inr hremoved =>
      obtain ⟨t, ht, hmem⟩ := hremoved
      exact Nat.lt_of_lt_of_le ht (removal_le_token hmem)
  by_cases hsame : (view s roomNum).members = (view s' roomNum).members
  · refine ⟨roomChangeToken_le_iff.mpr ⟨?_, ?_⟩, fun _ => hsame⟩
    · rintro p hp rfl
      have hmem : p.msgnum ∈ (view s p.roomNum).members := hp
      exact pointer_le_token (hsame ▸ hmem)
    · rintro t ht rfl
      have hmem : (t.seq, t.msgnum) ∈ (view s t.roomNum).removals := ⟨t, ht, rfl, rfl, rfl⟩
      exact removal_le_token (removals_steps hs hmem)
  · have hlt : roomChangeToken s roomNum < roomChangeToken s' roomNum := by
      by_contra hle
      refine hsame (Set.ext fun m => ?_)
      cases hfollows m with
      | inl hn => exact absurd (hnamed m hn) hle
      | inr hiff => exact hiff.symm
    exact ⟨Nat.le_of_lt hlt, fun heq => absurd heq (Nat.ne_of_lt hlt)⟩

theorem Ok.prune (hok : Ok E s) (w : World) (olderThanSeconds : Int) :
    Ok E (pruneTombstones w s olderThanSeconds) := by
  rw [pruneTombstones]
  split
  · exact hok
  · exact { hok with
      tombs := fun t ht => hok.tombs t (List.mem_of_mem_filter ht)
      tombEuid := fun t ht => hok.tombEuid t (List.mem_of_mem_filter ht) }

theorem pruneTombstones_roomMsgs (w : World) (s : Store) (olderThanSeconds : Int) :
    (pruneTombstones w s olderThanSeconds).roomMsgs = s.roomMsgs := by
  rw [pruneTombstones]
  split
  · rfl
  · rfl

theorem mem_pruneTombstones {w : World} {olderThanSeconds : Int} {t : Tombstone} :
    t ∈ (pruneTombstones w s olderThanSeconds).tombstones ↔
      t ∈ s.tombstones ∧ ¬Pruned w olderThanSeconds t := by
  rw [pruneTombstones, Pruned]
  split
  · next hage =>
    rw [and_iff_left]
    exact fun hpruned => absurd hpruned.1 (Int.not_lt.mpr hage)
  · next hage =>
    rw [List.mem_filter, decide_eq_true_eq, and_iff_right (Int.not_le.mp hage)]

theorem tells_prune {w : World} {olderThanSeconds : Int}
    (hsafe : ChangeSafe roomNum s (w, .prune olderThanSeconds)) :
    Tells roomNum s (pruneTombstones w s olderThanSeconds) := by
  have hmembers : (view s roomNum).members =
      (view (pruneTombstones w s olderThanSeconds) roomNum).members := by
    simp only [view, pruneTombstones_roomMsgs]
  refine ⟨roomChangeToken_le_iff.mpr ⟨?_, ?_⟩, fun _ => hmembers⟩
  · intro p hp hroom
    have hmem : p.msgnum ∈ (view s roomNum).members := by subst hroom; exact hp
    exact pointer_le_token (hmembers ▸ hmem)
  · have hstays : ∀ u ∈ s.tombstones, u.roomNum = roomNum → ¬Pruned w olderThanSeconds u →
        u.seq ≤ roomChangeToken (pruneTombstones w s olderThanSeconds) roomNum :=
      fun u hu huroom hkept => removal_le_token
        ⟨u, mem_pruneTombstones.mpr ⟨hu, hkept⟩, huroom, rfl, rfl⟩
    intro t ht hroom
    by_cases hpruned : Pruned w olderThanSeconds t
    · cases hsafe t ht hroom hpruned with
      | inl hpointer =>
        obtain ⟨p, hp, hproom, hle⟩ := hpointer
        have hmem : p.msgnum ∈ (view s roomNum).members := by subst hproom; exact hp
        exact Nat.le_trans hle (pointer_le_token (hmembers ▸ hmem))
      | inr htomb =>
        obtain ⟨u, hu, huroom, hle, hkept⟩ := htomb
        exact Nat.le_trans hle (hstays u hu huroom hkept)
    · exact hstays t ht hroom hpruned

/-- A safe operation is announced after the token. -/
theorem announced_of_safe (hok : Ok E s) {w : World} {op : Op}
    (hsafe : ChangeSafe roomNum s (w, .op op)) :
    StepAnnounced roomNum (roomChangeToken s roomNum) s op := by
  cases op with
  | move fromRoom toRoom msgnum isCopy =>
    intro hroom hin htarget
    cases hsafe hroom hin htarget with
    | inl hthere => exact .inl hthere
    | inr habove =>
      obtain ⟨r, hr, hnum⟩ := hok.pointers ⟨fromRoom, msgnum⟩ (by simpa [messageInRoom] using hin)
      have hpos : 0 < r.msg.msgnum := (hok.rows r hr).1
      rw [hnum] at hpos
      exact .inr (.inl ((above_iff hpos).mp habove))
  | insert msg rooms => trivial
  | delete room msgnum => trivial
  | upsert msg room => trivial
  | expire => trivial

/-- One safe step. -/
theorem tells_change (hok : Ok E s) {c : World × Change} (hsafe : ChangeSafe roomNum s c) :
    (∃ E', Ok E' (changeStep s c)) ∧ Tells roomNum s (changeStep s c) := by
  obtain ⟨w, change⟩ := c
  cases change with
  | op op =>
    obtain ⟨E', -, hok', -, hsteps⟩ := evolves_step (c := (w, op)) (announced_of_safe hok hsafe) E
      hok (roomChangeToken_lt hok roomNum)
    exact ⟨⟨E', hok'⟩, tells_of_steps hsteps⟩
  | prune olderThanSeconds => exact ⟨⟨E, hok.prune w olderThanSeconds⟩, tells_prune hsafe⟩

/-! ## Runs -/

/-- Whatever two states of a safe run are compared, the later one tells. -/
theorem tells_run (changes : List (World × Change)) : ∀ {E : Nat → Message} {s : Store}, Ok E s →
    EachChange (ChangeSafe roomNum) s changes → ∀ {i j : Nat}, i ≤ j →
      Tells roomNum (changeRun s (changes.take i)) (changeRun s (changes.take j)) := by
  induction changes with
  | nil =>
    intro E s _ _ i j _
    rw [List.take_nil, List.take_nil]
    exact .refl roomNum _
  | cons c changes ih =>
    intro E s hok hsafe i j hij
    obtain ⟨⟨E', hok'⟩, htells⟩ := tells_change hok hsafe.1
    cases j with
    | zero => rw [Nat.le_zero.mp hij]; exact .refl roomNum _
    | succ j =>
      cases i with
      | zero => exact htells.trans (ih hok' hsafe.2 (Nat.zero_le j))
      | succ i => exact ih hok' hsafe.2 (Nat.le_of_succ_le_succ hij)

/-- In a run of safe steps, equal tokens mean equal contents. -/
theorem equal_tokens_equal_contents (rooms : List Room) (config : List (Bytes × Bytes))
    (users : List (Bytes × Int)) (credentials : List Bytes) (quotas : List Limit)
    (changes : List (World × Change)) (roomNum : Nat)
    (hsafe : EachChange (ChangeSafe roomNum) (fresh rooms config users credentials quotas) changes)
    (i j : Nat) :
    let stateAt := fun k => changeRun (fresh rooms config users credentials quotas) (changes.take k)
    roomChangeToken (stateAt i) roomNum = roomChangeToken (stateAt j) roomNum →
      ∀ m, messageInRoom (stateAt i) roomNum m = messageInRoom (stateAt j) roomNum m := by
  intro stateAt heq m
  obtain ⟨E, hok⟩ := ok_run rooms config users credentials quotas []
  have hmembers : (view (stateAt i) roomNum).members = (view (stateAt j) roomNum).members := by
    cases Nat.le_total i j with
    | inl hij => exact (tells_run changes hok hsafe hij).2 heq
    | inr hji => exact ((tells_run changes hok hsafe hji).2 heq.symm).symm
  have hm : m ∈ (view (stateAt i) roomNum).members ↔ m ∈ (view (stateAt j) roomNum).members := by
    rw [hmembers]
  simpa [messageInRoom, view] using hm

theorem equal_tokens_equal_contents_delete :
    let w : World := ⟨0, [], [], fun _ => none, fun _ _ => []⟩
    let msg : Message := { Message.blank with formatType := 4 }
    let changes : List (World × Change) :=
      [(w, .op (.insert msg [100])), (w, .op (.delete 100 1)), (w, .prune 60)]
    let stateAt := fun k => changeRun (fresh [⟨100, 0, 0, 0, 0, 0⟩] [] [] [] []) (changes.take k)
    roomChangeToken (stateAt 2) 100 = roomChangeToken (stateAt 3) 100 →
      ∀ m, messageInRoom (stateAt 2) 100 m = messageInRoom (stateAt 3) 100 m := by
  intro w msg changes
  refine equal_tokens_equal_contents [⟨100, 0, 0, 0, 0, 0⟩] [] [] [] [] changes 100 ?_ 2 3
  refine ⟨trivial, trivial, ?_, trivial⟩
  -- the tombstone is young enough to stay
  intro t ht hroom hpruned
  exfalso
  have hnow : t.deletedAt = 0 := by
    have htombs : (changeStep (changeStep (fresh [⟨100, 0, 0, 0, 0, 0⟩] [] [] [] [])
      (w, .op (.insert msg [100]))) (w, .op (.delete 100 1))).tombstones = [⟨100, 2, [], 1, 0⟩] := by
      decide
    rw [htombs, List.mem_singleton] at ht
    rw [ht]
  have hold := hpruned.2
  rw [hnow] at hold
  exact absurd hold (by decide)

/-- A message of another room is copied into a room that holds a newer one. -/
theorem copy_of_old_message_unseen :
    ¬∀ (rooms : List Room) (config : List (Bytes × Bytes)) (users : List (Bytes × Int))
      (credentials : List Bytes) (quotas : List Limit) (changes : List (World × Change))
      (roomNum i j : Nat),
      let stateAt := fun k => changeRun (fresh rooms config users credentials quotas) (changes.take k)
      roomChangeToken (stateAt i) roomNum = roomChangeToken (stateAt j) roomNum →
        ∀ m, messageInRoom (stateAt i) roomNum m = messageInRoom (stateAt j) roomNum m := by
  intro h
  let w : World := ⟨0, [], [], fun _ => none, fun _ _ => []⟩
  let room : Nat → Room := fun n => ⟨n, 0, 0, 0, 0, 0⟩
  let msg : Message := { Message.blank with formatType := 4 }
  have hcopy := h [room 100, room 101] [] [] [] []
    [(w, .op (.insert msg [100])), (w, .op (.insert msg [101])), (w, .op (.move 100 101 1 true))]
    101 2 3 (by decide) 1
  exact absurd hcopy (by decide)

end QuackMail.Citadel
