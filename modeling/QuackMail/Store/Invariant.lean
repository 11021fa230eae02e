import QuackMail.Lib.Journal
import QuackMail.Store.Expiry

/-! # What every operation keeps

Numbers come from one sequence and are never given out twice, so a number stands for
one message for good: `Ok E s` says that every row and every tombstone of `s` agrees
with the messages `E`.  `Evolves` is what an operation may do: draw numbers, add rows
under new numbers, and change the journal of a room by announced events.
-/

namespace QuackMail.Citadel

open ChangeJournal

structure Ok (E : Nat → Message) (s : Store) : Prop where
  seqPos : 0 < s.seq
  rows : ∀ r ∈ s.messages, 0 < r.msg.msgnum ∧ r.msg.msgnum < s.seq
  rowsNodup : (s.messages.map (fun r => r.msg.msgnum)).Nodup
  rowLabel : ∀ r ∈ s.messages, r.msg = E r.msg.msgnum
  pointers : ∀ p ∈ s.roomMsgs, ∃ r ∈ s.messages, r.msg.msgnum = p.msgnum
  tombs : ∀ t ∈ s.tombstones, t.seq < s.seq ∧ t.msgnum < s.seq
  tombEuid : ∀ t ∈ s.tombstones, t.euid = (E t.msgnum).euid

/-- The journal of a room. -/
def view (s : Store) (roomNum : Nat) : Journal Nat Nat where
  members := {m | ⟨roomNum, m⟩ ∈ s.roomMsgs}
  removals := {p | ∃ t ∈ s.tombstones, t.roomNum = roomNum ∧ t.seq = p.1 ∧ t.msgnum = p.2}

/-- Numbers are drawn, rows are added under new numbers, and the journal of the room
    changes by announced events. -/
def Evolves (roomNum token : Nat) (s s' : Store) : Prop :=
  ∀ E, Ok E s → token < s.seq → ∃ E', (∀ n < s.seq, E' n = E n) ∧ Ok E' s' ∧ s.seq ≤ s'.seq ∧
    Relation.ReflTransGen (Step id token) (view s roomNum) (view s' roomNum)

theorem Evolves.refl (roomNum token : Nat) (s : Store) : Evolves roomNum token s s :=
  fun E hok _ => ⟨E, fun _ _ => rfl, hok, Nat.le_refl _, .refl⟩

variable {roomNum msgnum : Nat} {s : Store} {p : Pointer} {w : World} {E : Nat → Message}

theorem Evolves.trans {token : Nat} {t u : Store} (h₁ : Evolves roomNum token s t)
    (h₂ : Evolves roomNum token t u) : Evolves roomNum token s u := by
  intro E hok htoken
  obtain ⟨E₁, heq₁, hok₁, hseq₁, hsteps₁⟩ := h₁ E hok htoken
  obtain ⟨E₂, heq₂, hok₂, hseq₂, hsteps₂⟩ := h₂ E₁ hok₁ (by omega)
  refine ⟨E₂, ?_, hok₂, by omega, hsteps₁.trans hsteps₂⟩
  intro n hn
  rw [heq₂ n (by omega), heq₁ n hn]

/-! ## Links -/

@[simp] theorem mem_link :
    p ∈ (link s roomNum msgnum).roomMsgs ↔ p ∈ s.roomMsgs ∨ p = ⟨roomNum, msgnum⟩ := by
  unfold link bumpHighest messageInRoom
  by_cases h : (⟨roomNum, msgnum⟩ : Pointer) ∈ s.roomMsgs
  · simp only [h, decide_true, if_true]
    constructor
    · exact .inl
    · rintro (hp | rfl)
      · exact hp
      · exact h
  · simp [h]

@[simp] theorem link_messages (s : Store) (roomNum msgnum : Nat) :
    (link s roomNum msgnum).messages = s.messages := by
  unfold link bumpHighest
  split <;> rfl

@[simp] theorem link_tombstones (s : Store) (roomNum msgnum : Nat) :
    (link s roomNum msgnum).tombstones = s.tombstones := by
  unfold link bumpHighest
  split <;> rfl

@[simp] theorem link_seq (s : Store) (roomNum msgnum : Nat) :
    (link s roomNum msgnum).seq = s.seq := by
  unfold link bumpHighest
  split <;> rfl

@[simp] theorem mem_links (rooms : List Nat) :
    p ∈ (rooms.foldl (fun t room => link t room msgnum) s).roomMsgs ↔
      p ∈ s.roomMsgs ∨ (p.msgnum = msgnum ∧ p.roomNum ∈ rooms) := by
  induction rooms generalizing s with
  | nil => simp
  | cons room rooms ih =>
    obtain ⟨proom, pnum⟩ := p
    rw [List.foldl_cons, ih, mem_link, Pointer.mk.injEq, List.mem_cons]
    tauto

theorem links_frame {s : Store} (msgnum : Nat) (rooms : List Nat) :
    (rooms.foldl (fun t room => link t room msgnum) s).messages = s.messages ∧
      (rooms.foldl (fun t room => link t room msgnum) s).tombstones = s.tombstones ∧
      (rooms.foldl (fun t room => link t room msgnum) s).seq = s.seq := by
  induction rooms generalizing s with
  | nil => exact ⟨rfl, rfl, rfl⟩
  | cons room rooms ih =>
    obtain ⟨hmessages, htombs, hseq⟩ := @ih (link s room msgnum)
    exact ⟨by rw [List.foldl_cons, hmessages, link_messages],
      by rw [List.foldl_cons, htombs, link_tombstones], by rw [List.foldl_cons, hseq, link_seq]⟩

theorem Ok.link {E : Nat → Message} {s : Store} (h : Ok E s) {roomNum msgnum : Nat}
    (hrow : ∃ r ∈ s.messages, r.msg.msgnum = msgnum) : Ok E (link s roomNum msgnum) where
  seqPos := by simpa using h.seqPos
  rows := by simpa using h.rows
  rowsNodup := by simpa using h.rowsNodup
  rowLabel := by simpa using h.rowLabel
  pointers := by
    intro p hp
    rw [mem_link] at hp
    rw [link_messages]
    rcases hp with hp | rfl
    · exact h.pointers p hp
    · exact hrow
  tombs := by simpa using h.tombs
  tombEuid := by simpa using h.tombEuid

theorem view_link (s : Store) (room roomNum msgnum : Nat) : view (link s room msgnum) roomNum =
      if room = roomNum then (view s roomNum).apply (.enter msgnum) else view s roomNum := by
  unfold view
  by_cases h : room = roomNum
  · subst h
    rw [if_pos rfl]
    simp only [Journal.apply, link_tombstones, Journal.mk.injEq, and_true]
    ext m
    simp [or_comm]
  · rw [if_neg h]
    simp only [link_tombstones, Journal.mk.injEq, and_true]
    ext m
    simp [Ne.symm h]

/-- A message that enters a room has to be announced there. -/
theorem evolves_link {roomNum token room msgnum : Nat} {s : Store}
    (hrow : ∃ r ∈ s.messages, r.msg.msgnum = msgnum)
    (hann : room = roomNum → Announced id token (view s roomNum) (.enter msgnum)) :
    Evolves roomNum token s (link s room msgnum) := by
  intro E hok _
  refine ⟨E, fun _ _ => rfl, hok.link hrow, by simp, ?_⟩
  rw [view_link]
  split
  · next h => exact .single ⟨_, hann h, rfl⟩
  · exact .refl

/-! ## Unlinking -/

@[simp] theorem unlink_messages (w : World) (s : Store) (roomNum msgnum : Nat) :
    (unlink w s roomNum msgnum).messages = s.messages := rfl

@[simp] theorem unlink_seq (w : World) (s : Store) (roomNum msgnum : Nat) :
    (unlink w s roomNum msgnum).seq = s.seq + 1 := rfl

@[simp] theorem mem_unlink :
    p ∈ (unlink w s roomNum msgnum).roomMsgs ↔ p ∈ s.roomMsgs ∧ p ≠ ⟨roomNum, msgnum⟩ := by
  simp [unlink, putTombstone]

theorem findRow_of_mem (h : Ok E s) {r : Row}
    (hr : r ∈ s.messages) : findRow s r.msg.msgnum = some r := by
  have hnodup := h.rowsNodup
  unfold findRow
  generalize s.messages = rows at hr hnodup
  induction rows with
  | nil => cases hr
  | cons x xs ih =>
    simp only [List.map_cons, List.nodup_cons, List.mem_map, not_exists, not_and] at hnodup
    rcases List.mem_cons.mp hr with rfl | hr
    · simp
    · have hne : x.msg.msgnum ≠ r.msg.msgnum := fun heq => hnodup.1 r hr heq.symm
      simp only [List.find?_cons, hne, decide_false]
      exact ih hr hnodup.2

theorem findRow_msgnum {n : Nat} {r : Row} (h : findRow s n = some r) :
    r ∈ s.messages ∧ r.msg.msgnum = n := by
  exact ⟨List.mem_of_find?_eq_some h, by simpa using List.find?_some h⟩

/-- The tombstone of an unlinked message carries its euid. -/
theorem mem_tombstones_unlink (h : Ok E s)
    (hrow : ∃ r ∈ s.messages, r.msg.msgnum = msgnum) {t : Tombstone} :
    t ∈ (unlink w s roomNum msgnum).tombstones ↔
      t ∈ s.tombstones ∨ t = ⟨roomNum, s.seq, (E msgnum).euid, msgnum, w.now⟩ := by
  obtain ⟨r, hr, rfl⟩ := hrow
  have hkeep : s.tombstones.filter
      (fun u => ¬(u.roomNum = roomNum ∧ u.seq = s.seq)) = s.tombstones := by
    apply List.filter_eq_self.mpr
    intro u hu
    have := (h.tombs u hu).1
    simp only [decide_eq_true_eq]
    omega
  have heuid : r.msg.euid = (E r.msg.msgnum).euid := congrArg Message.euid (h.rowLabel r hr)
  simp only [unlink, putTombstone, findRow_of_mem h hr, Option.elim_some, hkeep,
    List.mem_append, List.mem_singleton, ← heuid]

theorem Ok.unlink {E : Nat → Message} {w : World} {s : Store} (h : Ok E s) {roomNum msgnum : Nat}
    (hrow : ∃ r ∈ s.messages, r.msg.msgnum = msgnum) : Ok E (unlink w s roomNum msgnum) where
  seqPos := Nat.succ_pos _
  rows := by
    intro r hr
    have := h.rows r hr
    rw [unlink_seq]
    omega
  rowsNodup := h.rowsNodup
  rowLabel := h.rowLabel
  pointers := by
    intro p hp
    exact h.pointers p (mem_unlink.mp hp).1
  tombs := by
    intro t ht
    rw [unlink_seq]
    rcases (mem_tombstones_unlink h hrow).mp ht with ht | rfl
    · have := h.tombs t ht
      omega
    · obtain ⟨r, hr, rfl⟩ := hrow
      have := h.rows r hr
      simp only
      omega
  tombEuid := by
    intro t ht
    rcases (mem_tombstones_unlink h hrow).mp ht with ht | rfl
    · exact h.tombEuid t ht
    · rfl

theorem view_unlink (h : Ok E s) {room : Nat} (hrow : ∃ r ∈ s.messages, r.msg.msgnum = msgnum) :
    view (unlink w s room msgnum) roomNum =
      if room = roomNum then (view s roomNum).apply (.leave s.seq msgnum)
      else view s roomNum := by
  unfold view
  by_cases hroom : room = roomNum
  · subst hroom
    rw [if_pos rfl]
    simp only [Journal.apply, Journal.mk.injEq]
    constructor
    · ext m
      simp
    · ext ⟨q, m⟩
      simp only [Set.mem_ofPred_eq, mem_tombstones_unlink h hrow, Set.mem_insert_iff,
        Prod.mk.injEq]
      constructor
      · rintro ⟨t, ht | rfl, hroom, hseq, hnum⟩
        · exact .inr ⟨t, ht, hroom, hseq, hnum⟩
        · exact .inl ⟨hseq.symm, hnum.symm⟩
      · rintro (⟨rfl, rfl⟩ | ⟨t, ht, hrest⟩)
        · exact ⟨_, .inr rfl, rfl, rfl, rfl⟩
        · exact ⟨t, .inl ht, hrest⟩
  · rw [if_neg hroom]
    simp only [Journal.mk.injEq]
    constructor
    · ext m
      simp [Ne.symm hroom]
    · ext ⟨q, m⟩
      simp only [Set.mem_ofPred_eq, mem_tombstones_unlink h hrow]
      constructor
      · rintro ⟨t, ht | rfl, hroom', hrest⟩
        · exact ⟨t, ht, hroom', hrest⟩
        · exact absurd hroom' hroom
      · rintro ⟨t, ht, hrest⟩
        exact ⟨t, .inl ht, hrest⟩

theorem evolves_unlink {token room : Nat} (hrow : ∃ r ∈ s.messages, r.msg.msgnum = msgnum) :
    Evolves roomNum token s (unlink w s room msgnum) := by
  intro E hok htoken
  refine ⟨E, fun _ _ => rfl, hok.unlink hrow, by simp, ?_⟩
  rw [view_unlink hok hrow]
  split
  · exact .single ⟨.leave s.seq msgnum, htoken, rfl⟩
  · exact .refl

/-! ## Inserting -/

/-- A drawn number may go unused. -/
theorem evolves_draw (roomNum token : Nat) (s : Store) :
    Evolves roomNum token s { s with seq := s.seq + 1 } := by
  intro E hok _
  refine ⟨E, fun _ _ => rfl, ?_, Nat.le_succ _, .refl⟩
  refine ⟨Nat.succ_pos _, ?_, hok.rowsNodup, hok.rowLabel, hok.pointers, ?_, hok.tombEuid⟩
  · intro r hr
    have := hok.rows r hr
    simp only
    omega
  · intro t ht
    have := hok.tombs t ht
    simp only
    omega

/-- A row under a new number. -/
theorem evolves_append {roomNum token : Nat} {s : Store} {row : Row}
    (hrow : row.msg.msgnum = s.seq) :
    Evolves roomNum token s { s with messages := s.messages ++ [row], seq := s.seq + 1 } := by
  intro E hok _
  refine ⟨Function.update E s.seq row.msg, ?_, ?_, Nat.le_succ _, .refl⟩
  · intro n hn
    exact Function.update_of_ne (by omega) _ _
  have hold : ∀ n, n < s.seq → Function.update E s.seq row.msg n = E n :=
    fun n hn => Function.update_of_ne (by omega) _ _
  refine ⟨Nat.succ_pos _, ?_, ?_, ?_, ?_, ?_, ?_⟩
  · intro r hr
    simp only
    rcases List.mem_append.mp hr with hr | hr
    · have := hok.rows r hr
      omega
    · rw [List.mem_singleton] at hr
      subst hr
      omega
  · simp only [List.map_append, List.map_cons, List.map_nil]
    refine List.Nodup.append hok.rowsNodup (List.nodup_singleton _) ?_
    intro n hn hn'
    rw [List.mem_singleton] at hn'
    obtain ⟨r, hr, rfl⟩ := List.mem_map.mp hn
    have := (hok.rows r hr).2
    omega
  · intro r hr
    rcases List.mem_append.mp hr with hr | hr
    · rw [hold _ (hok.rows r hr).2]
      exact hok.rowLabel r hr
    · rw [List.mem_singleton] at hr
      subst hr
      rw [hrow, Function.update_self]
  · intro p hp
    obtain ⟨r, hr, hnum⟩ := hok.pointers p hp
    exact ⟨r, List.mem_append_left _ hr, hnum⟩
  · intro t ht
    have := hok.tombs t ht
    simp only
    omega
  · intro t ht
    rw [hold _ (hok.tombs t ht).2]
    exact hok.tombEuid t ht

/-- A new message goes into any rooms. -/
theorem evolves_links {token : Nat} (hnew : token < msgnum) :
    ∀ (rooms : List Nat) {s : Store}, (∃ r ∈ s.messages, r.msg.msgnum = msgnum) →
      Evolves roomNum token s (rooms.foldl (fun t room => link t room msgnum) s) := by
  intro rooms
  induction rooms with
  | nil => intro s _; exact .refl _ _ _
  | cons room rooms ih =>
    intro s hrow
    have hlink := @evolves_link roomNum token room _ _ hrow
      (fun _ => .inr (.inl hnew))
    exact hlink.trans (ih (by simpa using hrow))

/-- An operation may assume the invariant and the token. -/
theorem Evolves.of_ok {token : Nat} {s' : Store}
    (h : ∀ E, Ok E s → token < s.seq → Evolves roomNum token s s') :
    Evolves roomNum token s s' :=
  fun E hok htoken => h E hok htoken E hok htoken

theorem evolves_insertMessage (roomNum token : Nat) (w : World) (s : Store) (msg : Message)
    (rooms : List Nat) : Evolves roomNum token s (insertMessage w s msg rooms).1 := by
  unfold insertMessage
  cases quotaRefusal s rooms with
  | some err => exact .refl _ _ _
  | none =>
    cases w.fault msg with
    | some err => exact evolves_draw _ _ _
    | none =>
      apply Evolves.of_ok
      intro E _ htoken
      refine (evolves_append rfl).trans (evolves_links htoken rooms ?_)
      exact ⟨storedRow w s msg, by simp, rfl⟩

theorem evolves_deleteMessage (roomNum token : Nat) (w : World) (s : Store) (room msgnum : Nat) :
    Evolves roomNum token s (deleteMessage w s room msgnum).1 := by
  unfold deleteMessage
  by_cases h : messageInRoom s room msgnum = true
  · rw [if_pos h]
    apply Evolves.of_ok
    intro E hok _
    exact evolves_unlink (hok.pointers _ (by simpa [messageInRoom] using h))
  · rw [if_neg h]
    exact .refl _ _ _

/-! ## The sweep -/

/-- A row goes only when no room points at it. -/
theorem evolves_dropRow (roomNum token : Nat) (s : Store) (msgnum : Nat) :
    Evolves roomNum token s (dropRow s msgnum) := by
  unfold dropRow
  by_cases h : s.roomMsgs.any (fun p => p.msgnum == msgnum) = true
  · rw [if_pos h]
    exact .refl _ _ _
  rw [if_neg h]
  intro E hok _
  refine ⟨E, fun _ _ => rfl, ?_, Nat.le_refl _, .refl⟩
  refine ⟨hok.seqPos, ?_, ?_, ?_, ?_, hok.tombs, hok.tombEuid⟩
  · intro r hr
    exact hok.rows r (List.mem_of_mem_filter hr)
  · exact hok.rowsNodup.sublist (List.filter_sublist.map _)
  · intro r hr
    exact hok.rowLabel r (List.mem_of_mem_filter hr)
  · intro p hp
    obtain ⟨r, hr, hnum⟩ := hok.pointers p hp
    refine ⟨r, List.mem_filter.mpr ⟨hr, ?_⟩, hnum⟩
    simp only [List.any_eq_true, beq_iff_eq, not_exists, not_and] at h
    simpa [hnum] using h p hp

theorem evolves_runExpiry (roomNum token : Nat) (w : World) (s : Store) :
    Evolves roomNum token s (runExpiry w s).1 :=
  runExpiry_rule (.refl _ _ _) (fun _ _ _ hu => hu.trans (evolves_deleteMessage _ _ _ _ _ _))
    fun _ _ hu => hu.trans (evolves_dropRow _ _ _ _)

/-! ## Moving -/

/-- A message that is moved or copied into the room is there already, is newer than the
    token, or left the room after it. -/
def MoveAnnounced (roomNum token : Nat) (s : Store) (fromRoom toRoom msgnum : Nat) : Prop :=
  toRoom = roomNum → messageInRoom s fromRoom msgnum = true → (getRoomByNum s toRoom).isSome →
    messageInRoom s roomNum msgnum = true ∨ token < msgnum ∨
      ∃ t ∈ s.tombstones, t.roomNum = roomNum ∧ token < t.seq ∧ t.msgnum = msgnum

theorem announced_enter_iff {token : Nat} : Announced id token (view s roomNum) (.enter msgnum) ↔
      messageInRoom s roomNum msgnum = true ∨ token < msgnum ∨
        ∃ t ∈ s.tombstones, t.roomNum = roomNum ∧ token < t.seq ∧ t.msgnum = msgnum := by
  unfold Announced view messageInRoom
  simp only [Set.mem_ofPred_eq, id, decide_eq_true_eq]
  constructor
  · rintro (h | h | ⟨q, hq, t, ht, hroom, rfl, hnum⟩)
    · exact .inl h
    · exact .inr (.inl h)
    · exact .inr (.inr ⟨t, ht, hroom, hq, hnum⟩)
  · rintro (h | h | ⟨t, ht, hroom, hq, hnum⟩)
    · exact .inl h
    · exact .inr (.inl h)
    · exact .inr (.inr ⟨t.seq, hq, t, ht, hroom, rfl, hnum⟩)

theorem evolves_moveMessage {token : Nat} (w : World) {fromRoom toRoom : Nat} (isCopy : Bool)
    (hann : MoveAnnounced roomNum token s fromRoom toRoom msgnum) :
    Evolves roomNum token s (moveMessage w s fromRoom toRoom msgnum isCopy).1 := by
  refine moveMessage_rule (fun _ => .refl _ _ _) fun hin hroom _ => ?_
  apply Evolves.of_ok
  intro E hok _
  have hrow := hok.pointers ⟨fromRoom, msgnum⟩ (by simpa [messageInRoom] using hin)
  have hlink := @evolves_link roomNum token toRoom _ _ hrow
    (fun h => announced_enter_iff.mpr (h ▸ hann h hin hroom))
  cases isCopy with
  | true => exact hlink
  | false => exact hlink.trans (evolves_unlink (by simpa using hrow))

end QuackMail.Citadel
