import QuackMail.History.Object

/-! # UIDs

A UID is the number of a message, and UIDNEXT is computed from what the room holds now:
one more than the largest number, or 1.  `Grows` is what clients that cache by UID rely
on, and `StepGrows` the steps that keep it.
-/

namespace QuackMail.Imap

open Citadel

/-- `RoomUids`. -/
def roomUids (s : Store) (roomNum : Nat) : List Nat :=
  ((s.messages.filter (fun r => ⟨roomNum, r.msg.msgnum⟩ ∈ s.roomMsgs)).map
    (fun r => r.msg.msgnum)).insertionSort (· ≤ ·)

/-- The `uidnext` of STATUS and SELECT. -/
def uidNext (s : Store) (roomNum : Nat) : Nat :=
  match (roomUids s roomNum).getLast? with
  | none => 1
  | some u => u + 1

/-! ## UIDNEXT and what a room holds -/

section Holds

variable {E : Nat → Message} {s : Store} {roomNum : Nat}

variable {m msgnum : Nat}

theorem mem_roomUids (hok : Ok E s) : m ∈ roomUids s roomNum ↔ m ∈ (view s roomNum).members := by
  rw [roomUids, List.mem_insertionSort]
  simp only [List.mem_map, List.mem_filter, decide_eq_true_eq, view, Set.mem_ofPred_eq]
  constructor
  · rintro ⟨r, ⟨-, hin⟩, rfl⟩
    exact hin
  · intro hin
    obtain ⟨r, hr, hnum⟩ := hok.pointers _ hin
    subst hnum
    exact ⟨r, ⟨hr, hin⟩, rfl⟩

theorem roomUids_sorted (hok : Ok E s) : (roomUids s roomNum).Pairwise (· < ·) := by
  have hnodup : (roomUids s roomNum).Nodup := by
    rw [roomUids, (List.perm_insertionSort _ _).nodup_iff]
    exact hok.rowsNodup.sublist (List.filter_sublist.map _)
  have hsorted : (roomUids s roomNum).Pairwise (· ≤ ·) := List.pairwise_insertionSort _ _
  exact (hsorted.and hnodup).imp fun h => lt_of_le_of_ne h.1 h.2

/-- Every message of the room is below UIDNEXT. -/
theorem lt_uidNext (hok : Ok E s) (h : m ∈ (view s roomNum).members) : m < uidNext s roomNum := by
  have hmem := (mem_roomUids hok).mpr h
  have hsorted := @roomUids_sorted _ _ roomNum hok
  rw [uidNext]
  rcases List.eq_nil_or_concat (roomUids s roomNum) with hnil | ⟨front, last, hlast⟩
  · rw [hnil] at hmem
    simp at hmem
  · rw [List.concat_eq_append] at hlast
    rw [hlast] at hmem hsorted ⊢
    rw [List.getLast?_concat]
    simp only
    rcases List.mem_append.mp hmem with hfront | hlast'
    · have := (List.pairwise_append.mp hsorted).2.2 m hfront last (by simp)
      omega
    · rw [List.mem_singleton] at hlast'
      omega

/-- UIDNEXT is 1 or follows a message of the room. -/
theorem uidNext_cases (hok : Ok E s) : (uidNext s roomNum = 1 ∧ (view s roomNum).members = ∅) ∨
      ∃ m ∈ (view s roomNum).members, uidNext s roomNum = m + 1 := by
  rw [uidNext]
  cases hlast : (roomUids s roomNum).getLast? with
  | none =>
    refine .inl ⟨rfl, Set.eq_empty_iff_forall_notMem.mpr fun m hm => ?_⟩
    have hmem := (mem_roomUids hok).mpr hm
    rw [List.getLast?_eq_none_iff.mp hlast] at hmem
    simp at hmem
  | some m => exact .inr ⟨m, (mem_roomUids hok).mp (List.mem_of_getLast? hlast), rfl⟩

theorem uidNext_pos (hok : Ok E s) : 0 < uidNext s roomNum := by
  rcases @uidNext_cases _ _ roomNum hok with ⟨h, -⟩ | ⟨m, -, h⟩ <;> omega

/-- The room holds a larger number than this one. -/
def Overtaken (s : Store) (roomNum msgnum : Nat) : Prop :=
  ∃ m, messageInRoom s roomNum m = true ∧ msgnum < m

/-- Every number the room holds is smaller than this one. -/
def Newest (s : Store) (roomNum msgnum : Nat) : Prop :=
  ∀ m, messageInRoom s roomNum m = true → m < msgnum

theorem mem_view_iff : m ∈ (view s roomNum).members ↔ messageInRoom s roomNum m = true := by
  simp [messageInRoom, view]

theorem overtaken_iff (hok : Ok E s) (h : messageInRoom s roomNum msgnum = true) :
    Overtaken s roomNum msgnum ↔ msgnum + 1 ≠ uidNext s roomNum := by
  have hlt := lt_uidNext hok (mem_view_iff.mpr h)
  constructor
  · rintro ⟨m, hm, hgt⟩ hnext
    have := lt_uidNext hok (mem_view_iff.mpr hm)
    omega
  · intro hne
    rcases @uidNext_cases _ _ roomNum hok with ⟨-, hnone⟩ | ⟨m, hm, hnext⟩
    · rw [← mem_view_iff, hnone] at h
      exact absurd h (Set.notMem_empty _)
    · exact ⟨m, mem_view_iff.mp hm, by omega⟩

theorem pos_of_row (hok : Ok E s) (hrow : ∃ r ∈ s.messages, r.msg.msgnum = msgnum) :
    0 < msgnum := by
  obtain ⟨r, hr, rfl⟩ := hrow
  exact (hok.rows r hr).1

theorem newest_iff (hok : Ok E s) (hpos : 0 < msgnum) :
    Newest s roomNum msgnum ↔ uidNext s roomNum ≤ msgnum := by
  constructor
  · intro h
    rcases @uidNext_cases _ _ roomNum hok with ⟨hone, -⟩ | ⟨m, hm, hnext⟩
    · omega
    · have := h m (mem_view_iff.mp hm)
      omega
  · intro hle m hm
    have := lt_uidNext hok (mem_view_iff.mpr hm)
    omega

/-- UIDNEXT of a room that holds a message does not fall below it. -/
theorem uidNext_mono {E' : Nat → Message} {s' : Store} (hok : Ok E s) (hok' : Ok E' s')
    (h : ∀ m ∈ (view s roomNum).members, uidNext s roomNum = m + 1 →
      ∃ m' ∈ (view s' roomNum).members, m ≤ m') : uidNext s roomNum ≤ uidNext s' roomNum := by
  rcases @uidNext_cases _ _ roomNum hok with ⟨hone, -⟩ | ⟨m, hm, hnext⟩
  · have := @uidNext_pos _ _ roomNum hok'
    omega
  · obtain ⟨m', hm', hle⟩ := h m hm hnext
    have := lt_uidNext hok' hm'
    omega

end Holds

/-! ## Growing -/

/-- UIDNEXT has not decreased, and what is new is at or above the old UIDNEXT. -/
def Grows (roomNum : Nat) (s s' : Store) : Prop :=
  uidNext s roomNum ≤ uidNext s' roomNum ∧
    ∀ m ∈ roomUids s' roomNum, m ∉ roomUids s roomNum → uidNext s roomNum ≤ m

theorem Grows.refl (roomNum : Nat) (s : Store) : Grows roomNum s s :=
  ⟨Nat.le_refl _, fun _ hm hn => absurd hm hn⟩

variable {roomNum : Nat} {s : Store}

theorem Grows.trans {t u : Store} (h₁ : Grows roomNum s t)
    (h₂ : Grows roomNum t u) : Grows roomNum s u := by
  refine ⟨h₁.1.trans h₂.1, fun m hm hn => ?_⟩
  by_cases ht : m ∈ roomUids t roomNum
  · exact h₁.2 m ht hn
  · exact h₁.1.trans (h₂.2 m hm ht)

/-- The numbers of the rooms there are. -/
def roomNums (s : Store) : List Nat := s.rooms.map Room.roomNum

/-- An operation that keeps the invariant and the rooms, and lets the room grow. -/
def Keeps (roomNum : Nat) (s s' : Store) : Prop :=
  ∀ E, Ok E s → (∃ E', Ok E' s') ∧ roomNums s' = roomNums s ∧ Grows roomNum s s'

theorem Keeps.refl (roomNum : Nat) (s : Store) : Keeps roomNum s s :=
  fun E hok => ⟨⟨E, hok⟩, rfl, .refl _ _⟩

theorem Keeps.trans {t u : Store} (h₁ : Keeps roomNum s t)
    (h₂ : Keeps roomNum t u) : Keeps roomNum s u := by
  intro E hok
  obtain ⟨⟨E₁, hok₁⟩, hrooms₁, hgrows₁⟩ := h₁ E hok
  obtain ⟨hok₂, hrooms₂, hgrows₂⟩ := h₂ E₁ hok₁
  exact ⟨hok₂, hrooms₂.trans hrooms₁, hgrows₁.trans hgrows₂⟩

theorem Keeps.of_ok {s' : Store} (h : ∀ E, Ok E s → Keeps roomNum s s') :
    Keeps roomNum s s' := fun E hok => h E hok E hok

section Operations

variable {E : Nat → Message} {s : Store} {roomNum : Nat}

/-- Nothing new and the largest message still there. -/
theorem grows_of_subset {E' : Nat → Message} {s' : Store} (hok : Ok E s) (hok' : Ok E' s')
    (hsub : (view s' roomNum).members ⊆ (view s roomNum).members)
    (hlast : ∀ m ∈ (view s roomNum).members, uidNext s roomNum = m + 1 →
      m ∈ (view s' roomNum).members) : Grows roomNum s s' := by
  refine ⟨uidNext_mono hok hok' fun m hm hnext => ⟨m, hlast m hm hnext, Nat.le_refl _⟩, ?_⟩
  intro m hm hn
  exact absurd ((mem_roomUids hok).mpr (hsub ((mem_roomUids hok').mp hm))) hn

theorem roomNums_link (s : Store) (room msgnum : Nat) :
    roomNums (link s room msgnum) = roomNums s := by
  have hnum : ∀ r : Room, (if r.roomNum = room then { r with highestMsg := max r.highestMsg msgnum }
      else r).roomNum = r.roomNum := by
    intro r
    split <;> rfl
  unfold roomNums link bumpHighest
  split <;> simp [hnum]

/-- A message that enters is there already, or at or above UIDNEXT. -/
theorem keeps_link {room msgnum : Nat} (hrow : ∃ r ∈ s.messages, r.msg.msgnum = msgnum)
    (h : room = roomNum → messageInRoom s roomNum msgnum = true ∨ uidNext s roomNum ≤ msgnum) :
    Keeps roomNum s (link s room msgnum) := by
  intro E hok
  have hok' := @Ok.link _ _ hok room _ hrow
  refine ⟨⟨E, hok'⟩, roomNums_link _ _ _, ?_⟩
  by_cases hroom : room = roomNum
  · subst hroom
    have hmembers : (view (link s room msgnum) room).members =
        insert msgnum (view s room).members := by
      rw [view_link, if_pos rfl]
      rfl
    refine ⟨uidNext_mono hok hok' fun m hm _ => ⟨m, ?_, Nat.le_refl _⟩, fun m hm hn => ?_⟩
    · rw [hmembers]
      exact Set.mem_insert_of_mem _ hm
    · rw [mem_roomUids hok', hmembers] at hm
      rcases hm with rfl | hm
      · rcases h rfl with hin | hle
        · exact absurd ((mem_roomUids hok).mpr (by simpa [messageInRoom, view] using hin)) hn
        · exact hle
      · exact absurd ((mem_roomUids hok).mpr hm) hn
  · have hview : view (link s room msgnum) roomNum = view s roomNum := by
      rw [view_link, if_neg hroom]
    exact grows_of_subset hok hok' (by rw [hview]) (fun m hm _ => by rw [hview]; exact hm)

/-- A message that leaves is not the largest of the room. -/
theorem keeps_unlink (w : World) {room msgnum : Nat}
    (hrow : ∃ r ∈ s.messages, r.msg.msgnum = msgnum)
    (h : room = roomNum → msgnum + 1 ≠ uidNext s roomNum) :
    Keeps roomNum s (unlink w s room msgnum) := by
  intro E hok
  have hok' := @Ok.unlink _ w _ hok room _ hrow
  refine ⟨⟨E, hok'⟩, rfl, ?_⟩
  by_cases hroom : room = roomNum
  · subst hroom
    have hmembers : (view (unlink w s room msgnum) room).members =
        (view s room).members \ {msgnum} := by
      rw [view_unlink hok hrow, if_pos rfl]
      rfl
    refine grows_of_subset hok hok' (by rw [hmembers]; exact Set.sdiff_subset) fun m hm hnext => ?_
    rw [hmembers]
    refine ⟨hm, ?_⟩
    rintro rfl
    exact h rfl hnext.symm
  · have hview : view (unlink w s room msgnum) roomNum = view s roomNum := by
      rw [view_unlink hok hrow, if_neg hroom]
    exact grows_of_subset hok hok' (by rw [hview]) (fun m hm _ => by rw [hview]; exact hm)

/-- An operation on other tables. -/
theorem keeps_of_roomMsgs {s' : Store} (h : s'.roomMsgs = s.roomMsgs) (hrooms : s'.rooms = s.rooms)
    (hok' : ∀ E, Ok E s → ∃ E', Ok E' s') : Keeps roomNum s s' := by
  intro E hok
  obtain ⟨E', hok''⟩ := hok' E hok
  have hmembers : (view s' roomNum).members = (view s roomNum).members := by
    simp only [view, h]
  refine ⟨⟨E', hok''⟩, by rw [roomNums, hrooms, roomNums], ?_⟩
  exact grows_of_subset hok hok'' (by rw [hmembers]) (fun m hm _ => by rw [hmembers]; exact hm)

end Operations

/-! ## The operations of the store -/

section Store

variable (roomNum : Nat) (w : World)

variable {msgnum : Nat} {s : Store}

theorem uidNext_link_other {room : Nat} (h : room ≠ roomNum) :
    uidNext (link s room msgnum) roomNum = uidNext s roomNum := by
  have hin : ∀ n, (⟨roomNum, n⟩ : Pointer) ∈ (link s room msgnum).roomMsgs ↔
      (⟨roomNum, n⟩ : Pointer) ∈ s.roomMsgs := by
    intro n
    simp [h.symm]
  simp only [uidNext, roomUids, link_messages, hin]

theorem keeps_links : ∀ (rooms : List Nat) {s : Store}, (∃ r ∈ s.messages, r.msg.msgnum = msgnum) →
      (∀ E, Ok E s → uidNext s roomNum ≤ msgnum ∨ messageInRoom s roomNum msgnum = true) →
      Keeps roomNum s (rooms.foldl (fun t room => link t room msgnum) s) := by
  intro rooms
  induction rooms with
  | nil => exact fun {s} _ _ => .refl _ _
  | cons room rooms ih =>
    intro s hrow hle
    apply Keeps.of_ok
    intro E hok
    have hlink := @keeps_link _ roomNum room _ hrow fun _ => (hle E hok).symm
    refine hlink.trans (ih (by simpa using hrow) fun E' _ => ?_)
    -- the number is still new, or it has just entered
    by_cases hroom : room = roomNum
    · right
      simp [messageInRoom, hroom]
    · rcases hle E hok with hle | hin
      · left
        rw [uidNext_link_other roomNum hroom]
        exact hle
      · right
        simpa [messageInRoom, Ne.symm hroom] using hin

theorem keeps_insertMessage (s : Store) (msg : Message) (rooms : List Nat) :
    Keeps roomNum s (insertMessage w s msg rooms).1 := by
  unfold insertMessage
  cases quotaRefusal s rooms with
  | some err => exact .refl _ _
  | none =>
    cases w.fault msg with
    | some err =>
      refine keeps_of_roomMsgs rfl rfl fun E hok => ?_
      obtain ⟨E', -, hok', -⟩ := evolves_draw 0 0 s E hok hok.seqPos
      exact ⟨E', hok'⟩
    | none =>
      apply Keeps.of_ok
      intro E hok
      have hstored : Keeps roomNum s
          { s with messages := s.messages ++ [storedRow w s msg], seq := s.seq + 1 } := by
        refine keeps_of_roomMsgs rfl rfl fun E hok => ?_
        obtain ⟨E', -, hok', -⟩ :=
          @evolves_append 0 0 _ (storedRow w s msg) rfl E hok hok.seqPos
        exact ⟨E', hok'⟩
      refine hstored.trans (keeps_links roomNum rooms ⟨storedRow w s msg, by simp, rfl⟩ fun E' hok' => ?_)
      left
      -- no pointer of the room names the new row yet
      have hmembers : (view { s with messages := s.messages ++ [storedRow w s msg],
                                     seq := s.seq + 1 } roomNum).members =
          (view s roomNum).members := rfl
      rcases @uidNext_cases _ _ roomNum hok' with ⟨hone, -⟩ | ⟨m, hm, hnext⟩
      · have := hok.seqPos
        omega
      · obtain ⟨r, hr, hnum⟩ := hok.pointers _ hm
        have := (hok.rows r hr).2
        simp only at hnum
        omega

/-- The deleted message is not the largest of the room. -/
def DeleteGrows (s : Store) (room msgnum : Nat) : Prop :=
  room = roomNum → messageInRoom s room msgnum = true → Overtaken s room msgnum

theorem keeps_deleteMessage {room : Nat}
    (h : DeleteGrows roomNum s room msgnum) : Keeps roomNum s (deleteMessage w s room msgnum).1 := by
  unfold deleteMessage
  by_cases hin : messageInRoom s room msgnum = true
  · rw [if_pos hin]
    apply Keeps.of_ok
    intro E hok
    refine keeps_unlink w (hok.pointers ⟨room, msgnum⟩ (by simpa [messageInRoom] using hin))
      fun hroom => ?_
    subst hroom
    exact (overtaken_iff hok hin).mp (h rfl hin)
  · rw [if_neg hin]
    exact .refl _ _

/-- A message that is moved in is there already or larger than what is there, and one that
    is moved out is not the largest. -/
def MoveGrows (s : Store) (fromRoom toRoom msgnum : Nat) (isCopy : Bool) : Prop :=
  messageInRoom s fromRoom msgnum = true → (getRoomByNum s toRoom).isSome → fromRoom ≠ toRoom →
    (toRoom = roomNum → messageInRoom s toRoom msgnum = true ∨ Newest s toRoom msgnum) ∧
      (fromRoom = roomNum → isCopy = false → Overtaken s fromRoom msgnum)

theorem keeps_moveMessage {fromRoom toRoom : Nat} {isCopy : Bool}
    (h : MoveGrows roomNum s fromRoom toRoom msgnum isCopy) :
    Keeps roomNum s (moveMessage w s fromRoom toRoom msgnum isCopy).1 := by
  refine moveMessage_rule (fun _ => .refl _ _) fun hin hroom hdifferent => ?_
  obtain ⟨hto, hfrom⟩ := h hin hroom hdifferent
  apply Keeps.of_ok
  intro E hok
  have hrow := hok.pointers ⟨fromRoom, msgnum⟩ (by simpa [messageInRoom] using hin)
  have hlink : Keeps roomNum s (link s toRoom msgnum) := by
    refine keeps_link hrow fun hroom => ?_
    subst hroom
    exact (hto rfl).imp_right (newest_iff hok (pos_of_row hok hrow)).mp
  cases isCopy with
  | true => exact hlink
  | false =>
    refine hlink.trans (keeps_unlink w (by simpa using hrow) fun hroom => ?_)
    subst hroom
    rw [uidNext_link_other fromRoom (Ne.symm hdifferent)]
    exact (overtaken_iff hok hin).mp (hfrom rfl rfl)

/-- Replacing an object: the new one has the largest number, whatever is unlinked. -/
theorem keeps_replaceByEuid (s : Store) (msg : Message) (room : Nat) (old : Option Nat) :
    Keeps roomNum s (Wiki.replaceByEuid w s msg room old).1 := by
  have hins := keeps_insertMessage roomNum w s msg [room]
  unfold Wiki.replaceByEuid
  cases hcall : insertMessage w s msg [room] with
  | mk s' r =>
    rw [hcall] at hins
    cases r with
    | error err => exact hins
    | ok created =>
      cases old with
      | none => exact hins
      | some n =>
        simp only
        split
        · exact hins
        · next hne =>
          apply Keeps.of_ok
          intro E hok
          obtain ⟨rfl, hseq, hmembers, -, E', -, -, hok'⟩ := Wiki.insertMessage_ok hok hcall
          refine hins.trans (keeps_deleteMessage roomNum w ?_)
          rintro rfl hin
          refine ⟨s.seq, mem_view_iff.mp (hmembers ▸ Set.mem_insert _ _), ?_⟩
          obtain ⟨r, hr, hnum⟩ := hok'.pointers ⟨room, n⟩ (by simpa [messageInRoom] using hin)
          have := (hok'.rows r hr).2
          simp only at hnum
          omega

theorem keeps_upsertByEuid (s : Store) (msg : Message) (room : Nat) :
    Keeps roomNum s (Wiki.upsertByEuid w s msg room).1 :=
  Wiki.upsertByEuid_rule (.refl _ _)
    fun _ _ _ _ hu => hu.trans (keeps_replaceByEuid _ _ _ _ _ _)

end Store

/-! ## The sweep -/

section Sweep

variable (roomNum : Nat) (w : World)

/-- The pointers of one room. -/
def pointersOf (s : Store) (roomNum : Nat) : List Pointer :=
  s.roomMsgs.filter (fun p => p.roomNum = roomNum)

/-- What no deletion touches. -/
structure SameRows (s s' : Store) : Prop where
  messages : s'.messages = s.messages
  config : s'.config = s.config
  rooms : s'.rooms = s.rooms

theorem SameRows.refl (s : Store) : SameRows s s := ⟨rfl, rfl, rfl⟩

variable {s : Store}

theorem SameRows.trans {t u : Store} (h₁ : SameRows s t) (h₂ : SameRows t u) : SameRows s u :=
  ⟨h₂.messages.trans h₁.messages, h₂.config.trans h₁.config, h₂.rooms.trans h₁.rooms⟩

theorem deleteMessage_frame (s : Store) (room msgnum : Nat) :
    SameRows s (deleteMessage w s room msgnum).1 ∧
      (deleteMessage w s room msgnum).1.roomMsgs = s.roomMsgs.filter (· ≠ ⟨room, msgnum⟩) := by
  unfold deleteMessage
  by_cases hin : messageInRoom s room msgnum = true
  · rw [if_pos hin]
    exact ⟨⟨rfl, rfl, rfl⟩, rfl⟩
  · rw [if_neg hin]
    refine ⟨.refl s, (List.filter_eq_self.mpr fun p hp => ?_).symm⟩
    rw [decide_eq_true_eq]
    rintro rfl
    exact hin (by simpa [messageInRoom] using hp)

theorem deleteAll_frame (room : Nat) : ∀ (nums : List Nat) (s : Store),
      SameRows s (deleteAll w room nums s).1 ∧
        (deleteAll w room nums s).1.roomMsgs =
          s.roomMsgs.filter (fun p => ¬(p.roomNum = room ∧ p.msgnum ∈ nums)) := by
  intro nums
  induction nums with
  | nil => exact fun s => ⟨.refl s, by simp [deleteAll]⟩
  | cons n nums ih =>
    intro s
    obtain ⟨hsame, hpointers⟩ := deleteMessage_frame w s room n
    have hstate : (deleteAll w room (n :: nums) s).1 =
        (deleteAll w room nums (deleteMessage w s room n).1).1 := by
      rw [deleteAll]
      cases deleteMessage w s room n with
      | mk s' r => cases r <;> rfl
    obtain ⟨hsame', hpointers'⟩ := ih (deleteMessage w s room n).1
    rw [hstate]
    refine ⟨hsame.trans hsame', ?_⟩
    rw [hpointers', hpointers, List.filter_filter]
    refine List.filter_congr fun p _ => ?_
    obtain ⟨r, m⟩ := p
    rw [← Bool.decide_and, decide_eq_decide]
    simp only [ne_eq, Pointer.mk.injEq, List.mem_cons]
    tauto

theorem effectiveExpirePolicy_congr {s' : Store} (hconfig : s'.config = s.config) (room : Room) :
    effectiveExpirePolicy s' room = effectiveExpirePolicy s room := by
  have hread : ∀ key, readPolicy s' key = readPolicy s key := by
    intro key
    rw [readPolicy, readPolicy, getConfig, getConfig, hconfig]
  simp only [effectiveExpirePolicy, hread]

/-- What a policy dooms depends on the configuration, the messages and the pointers of the
    room. -/
theorem doomed_congr {s s' : Store} {room : Room} (hsame : SameRows s s')
    (hpointers : pointersOf s' room.roomNum = pointersOf s room.roomNum) :
    doomed w s' room = doomed w s room := by
  have hpolicy : effectiveExpirePolicy s' room = effectiveExpirePolicy s room :=
    effectiveExpirePolicy_congr hsame.config room
  have hmessages : roomMessages s' room.roomNum = roomMessages s room.roomNum := by
    have h := hpointers
    simp only [pointersOf] at h
    rw [roomMessages, roomMessages, h]
  have hload : ∀ n, loadMessage s' n = loadMessage s n := by
    intro n
    rw [loadMessage, loadMessage, findRow, findRow, hsame.messages]
  unfold doomed
  rw [hpolicy, hmessages]
  simp [hload]

/-- A message of the room that the sweep unlinks. -/
def Swept (rooms : List Room) (s : Store) (m : Nat) : Prop :=
  ∃ r ∈ rooms, r.roomNum = roomNum ∧ r.qrFlags &&& qrPermanent = 0 ∧ m ∈ doomed w s r

theorem expireRooms_frame : ∀ (rooms : List Room) (s : Store), (rooms.map Room.roomNum).Nodup →
      SameRows s (expireRooms w rooms s).1 ∧
        ∀ m, (⟨roomNum, m⟩ : Pointer) ∈ (expireRooms w rooms s).1.roomMsgs ↔
          (⟨roomNum, m⟩ : Pointer) ∈ s.roomMsgs ∧ ¬Swept roomNum w rooms s m := by
  intro rooms
  induction rooms with
  | nil => exact fun s _ => ⟨.refl s, fun m => by simp [expireRooms, Swept]⟩
  | cons room rooms ih =>
    intro s hnodup
    rw [List.map_cons, List.nodup_cons] at hnodup
    rw [expireRooms]
    by_cases hperm : room.qrFlags &&& qrPermanent = 0
    swap
    · rw [if_pos hperm]
      obtain ⟨hsame, hpointers⟩ := ih s hnodup.2
      refine ⟨hsame, fun m => ?_⟩
      rw [hpointers]
      have hswept : Swept roomNum w (room :: rooms) s m ↔ Swept roomNum w rooms s m := by
        simp [Swept, hperm]
      rw [hswept]
    · rw [if_neg (by simpa using hperm)]
      obtain ⟨hsame, hpointers⟩ := deleteAll_frame w room.roomNum (doomed w s room) s
      obtain ⟨hsame', hpointers'⟩ := ih (deleteAll w room.roomNum (doomed w s room) s).1 hnodup.2
      refine ⟨hsame.trans hsame', fun m => ?_⟩
      rw [hpointers', hpointers, List.mem_filter, decide_eq_true_eq]
      -- the other rooms of that number: there is none, or this one is another room
      have hrest : Swept roomNum w rooms (deleteAll w room.roomNum (doomed w s room) s).1 m ↔
          Swept roomNum w rooms s m := by
        refine exists_congr fun r => and_congr_right fun hr => and_congr_right fun hnum => ?_
        have hother : r.roomNum ≠ room.roomNum := fun heq =>
          hnodup.1 (heq ▸ List.mem_map_of_mem hr)
        have hdoomed := @doomed_congr w _ _ r hsame (by
          rw [pointersOf, pointersOf, hpointers, List.filter_filter]
          refine List.filter_congr fun p _ => ?_
          rw [← Bool.decide_and, decide_eq_decide]
          exact ⟨fun h => h.1, fun hp => ⟨hp, fun h => hother (hp.symm.trans h.1)⟩⟩)
        rw [hdoomed]
      have hswept : Swept roomNum w (room :: rooms) s m ↔
          (roomNum = room.roomNum ∧ m ∈ doomed w s room) ∨ Swept roomNum w rooms s m := by
        simp only [Swept, List.mem_cons, exists_eq_or_imp, hperm, true_and, eq_comm (a := roomNum)]
      tauto

theorem dropRow_frame (s : Store) (nums : List Nat) :
    (nums.foldl dropRow s).roomMsgs = s.roomMsgs ∧ (nums.foldl dropRow s).rooms = s.rooms := by
  induction nums generalizing s with
  | nil => exact ⟨rfl, rfl⟩
  | cons n nums ih =>
    obtain ⟨hmsgs, hrooms⟩ := ih (dropRow s n)
    have hdrop : (dropRow s n).roomMsgs = s.roomMsgs ∧ (dropRow s n).rooms = s.rooms := by
      unfold dropRow
      split <;> exact ⟨rfl, rfl⟩
    exact ⟨hmsgs.trans hdrop.1, hrooms.trans hdrop.2⟩

/-- The sweep takes every room once. -/
theorem nodup_inOrder (hrooms : (roomNums s).Nodup) :
    ((s.rooms.insertionSort fun a b => a.roomNum ≤ b.roomNum).map Room.roomNum).Nodup := by
  rw [((List.perm_insertionSort _ _).map _).nodup_iff]
  exact hrooms

theorem runExpiry_members (hrooms : (roomNums s).Nodup) (m : Nat) :
    m ∈ (view (runExpiry w s).1 roomNum).members ↔
      m ∈ (view s roomNum).members ∧ ¬Swept roomNum w s.rooms s m := by
  obtain ⟨-, hpointers⟩ := expireRooms_frame roomNum w _ s (nodup_inOrder hrooms)
  simp only [view, Set.mem_ofPred_eq, runExpiry]
  rw [(dropRow_frame _ _).1, hpointers]
  simp [Swept]

end Sweep

/-! ## Steps and runs -/

/-- The steps that let a room grow: no message comes in below a larger one, and the largest
    stays. -/
def StepGrows (roomNum : Nat) (s : Store) (c : World × Op) : Prop :=
  match c.2 with
  | .insert _ _ => True
  | .upsert _ _ => True
  | .delete room msgnum => DeleteGrows roomNum s room msgnum
  | .move fromRoom toRoom msgnum isCopy => MoveGrows roomNum s fromRoom toRoom msgnum isCopy
  | .expire => ∀ m, messageInRoom s roomNum m = true → Swept roomNum c.1 s.rooms s m →
      Overtaken s roomNum m

section Steps

variable {E : Nat → Message} {s : Store} {roomNum : Nat}

variable (w : World)

theorem runExpiry_rooms (s : Store) (hrooms : (roomNums s).Nodup) :
    roomNums (runExpiry w s).1 = roomNums s := by
  rw [roomNums, runExpiry, (dropRow_frame _ _).2,
    (expireRooms_frame 0 w _ s (nodup_inOrder hrooms)).1.rooms, roomNums]

theorem keeps_step (hrooms : (roomNums s).Nodup) {c : World × Op} (h : StepGrows roomNum s c) :
    Keeps roomNum s (step s c) := by
  obtain ⟨w, op⟩ := c
  cases op with
  | insert msg rooms => exact keeps_insertMessage roomNum w s msg rooms
  | upsert msg room => exact keeps_upsertByEuid roomNum w s msg room
  | delete room msgnum => exact keeps_deleteMessage roomNum w h
  | move fromRoom toRoom msgnum isCopy => exact keeps_moveMessage roomNum w h
  | expire =>
    intro E hok
    obtain ⟨E', -, hok', -⟩ := evolves_runExpiry 0 0 w s E hok hok.seqPos
    refine ⟨⟨E', hok'⟩, runExpiry_rooms w s hrooms, grows_of_subset hok hok' ?_ ?_⟩
    · intro m hm
      exact ((runExpiry_members roomNum w hrooms m).mp hm).1
    · intro m hm hnext
      refine (runExpiry_members roomNum w hrooms m).mpr ⟨hm, fun hswept => ?_⟩
      have hin := mem_view_iff.mp hm
      exact (overtaken_iff hok hin).mp (h m hin hswept) hnext.symm

/-- The largest message has left. -/
theorem not_grows_of_lost {E' : Nat → Message} {s' : Store} {m : Nat} (hok : Ok E s)
    (hok' : Ok E' s') (hsub : (view s' roomNum).members ⊆ (view s roomNum).members)
    (hin : messageInRoom s roomNum m = true) (hlargest : ¬Overtaken s roomNum m)
    (hlost : m ∉ (view s' roomNum).members) : ¬Grows roomNum s s' := by
  rintro ⟨hle, -⟩
  have hnext : m + 1 = uidNext s roomNum := by
    by_contra hne
    exact hlargest ((overtaken_iff hok hin).mpr hne)
  have hpos : 0 < m := by
    obtain ⟨r, hr, hnum⟩ := hok.pointers ⟨roomNum, m⟩ (by simpa [messageInRoom] using hin)
    have := (hok.rows r hr).1
    simp only at hnum
    omega
  rcases @uidNext_cases _ _ roomNum hok' with ⟨hone, -⟩ | ⟨m', hm', hnext'⟩
  · omega
  · have hlt := lt_uidNext hok (hsub hm')
    have hne : m' ≠ m := fun h => hlost (h ▸ hm')
    omega

/-- A step of any kind keeps the numbers of the rooms. -/
theorem roomNums_step (hok : Ok E s) (hrooms : (roomNums s).Nodup) (c : World × Op) :
    roomNums (step s c) = roomNums s := by
  obtain ⟨w, op⟩ := c
  cases op with
  | insert msg rooms => exact (keeps_insertMessage 0 w s msg rooms E hok).2.1
  | upsert msg room => exact (keeps_upsertByEuid 0 w s msg room E hok).2.1
  | delete room msgnum =>
    simp only [step, deleteMessage]
    split <;> rfl
  | move fromRoom toRoom msgnum isCopy =>
    simp only [step, moveMessage]
    repeat' split
    all_goals first
      | rfl
      | exact roomNums_link _ _ _
  | expire => exact runExpiry_rooms w s hrooms

/-- Deleting the largest message of a room. -/
theorem not_grows_delete {msgnum : Nat} (hok : Ok E s)
    (hin : messageInRoom s roomNum msgnum = true) (hlargest : ¬Overtaken s roomNum msgnum) :
    ¬Grows roomNum s (deleteMessage w s roomNum msgnum).1 := by
  have hrow := hok.pointers ⟨roomNum, msgnum⟩ (by simpa [messageInRoom] using hin)
  rw [deleteMessage, if_pos hin]
  have hmembers : (view (unlink w s roomNum msgnum) roomNum).members =
      (view s roomNum).members \ {msgnum} := by
    rw [view_unlink hok hrow, if_pos rfl]
    rfl
  refine not_grows_of_lost hok (hok.unlink hrow) ?_ hin hlargest ?_
  · rw [hmembers]
    exact Set.sdiff_subset
  · rw [hmembers]
    exact fun h => h.2 rfl

/-- Moving a message in below a larger one, or the largest one out. -/
theorem not_grows_move {fromRoom toRoom msgnum : Nat} {isCopy : Bool} (hok : Ok E s)
    (h : ¬MoveGrows roomNum s fromRoom toRoom msgnum isCopy) :
    ¬Grows roomNum s (moveMessage w s fromRoom toRoom msgnum isCopy).1 := by
  simp only [MoveGrows, Classical.not_imp] at h
  obtain ⟨hin, htarget, hsame, hnot⟩ := h
  have hrow := hok.pointers ⟨fromRoom, msgnum⟩ (by simpa [messageInRoom] using hin)
  have hrow' : ∃ r ∈ (link s toRoom msgnum).messages, r.msg.msgnum = msgnum := by simpa using hrow
  obtain ⟨target, htarget⟩ := Option.isSome_iff_exists.mp htarget
  rw [moveMessage, if_pos hin, htarget]
  rw [if_neg hsame]
  rw [not_and_or] at hnot
  rcases hnot with henter | hleave
  · -- it enters `toRoom`, below a message that is there
    simp only [Classical.not_imp, not_or] at henter
    obtain ⟨rfl, hnew, hnewest⟩ := henter
    have hbelow : ¬uidNext s toRoom ≤ msgnum :=
      fun hle => hnewest ((newest_iff hok (pos_of_row hok hrow)).mpr hle)
    rintro ⟨-, hgrows⟩
    refine hbelow (hgrows msgnum ?_ ?_)
    · cases isCopy with
      | true => simp [mem_roomUids (hok.link hrow), view]
      | false =>
        rw [if_neg (by simp), mem_roomUids ((hok.link hrow).unlink hrow')]
        simp [view, Ne.symm hsame]
    · rw [mem_roomUids hok, mem_view_iff]
      exact hnew
  · -- it leaves `fromRoom`, where it was the largest
    simp only [Classical.not_imp] at hleave
    obtain ⟨rfl, rfl, hlargest⟩ := hleave
    rw [if_neg (by simp)]
    have hmembers : (view (unlink w (link s toRoom msgnum) fromRoom msgnum) fromRoom).members =
        (view s fromRoom).members \ {msgnum} := by
      rw [view_unlink (hok.link hrow) hrow', if_pos rfl, view_link, if_neg (Ne.symm hsame)]
      rfl
    refine not_grows_of_lost hok ((hok.link hrow).unlink hrow') ?_ hin hlargest ?_
    · rw [hmembers]
      exact Set.sdiff_subset
    · rw [hmembers]
      exact fun h => h.2 rfl

theorem grows_step_iff (hok : Ok E s) (hrooms : (roomNums s).Nodup) (c : World × Op) :
    Grows roomNum s (step s c) ↔ StepGrows roomNum s c := by
  refine ⟨fun hgrows => ?_, fun h => (keeps_step hrooms h E hok).2.2⟩
  by_contra hnot
  obtain ⟨E', -, hok', -⟩ := ok_step hok c
  obtain ⟨w, op⟩ := c
  cases op with
  | insert msg rooms => exact hnot trivial
  | upsert msg room => exact hnot trivial
  | delete room msgnum =>
    simp only [StepGrows, DeleteGrows, Classical.not_imp] at hnot
    obtain ⟨rfl, hin, hlargest⟩ := hnot
    exact not_grows_delete w hok hin hlargest hgrows
  | move fromRoom toRoom msgnum isCopy => exact not_grows_move w hok hnot hgrows
  | expire =>
    simp only [StepGrows, not_forall] at hnot
    obtain ⟨m, hin, hswept, hlargest⟩ := hnot
    refine not_grows_of_lost hok hok' (fun n hn => ?_) hin hlargest (fun hm => ?_) hgrows
    · exact ((runExpiry_members roomNum w hrooms n).mp hn).1
    · exact ((runExpiry_members roomNum w hrooms m).mp hm).2 hswept

end Steps

/-- `C` holds of every step of a run and the state the step is taken in. -/
def EachStep (C : Store → World × Op → Prop) : Store → List (World × Op) → Prop
  | _, [] => True
  | s, c :: ops => C s c ∧ EachStep C (step s c) ops

theorem eachStep_append {C : Store → World × Op → Prop} (a b : List (World × Op)) (s : Store) :
    EachStep C s (a ++ b) ↔ EachStep C s a ∧ EachStep C (run s a) b := by
  induction a generalizing s with
  | nil => simp [EachStep, run]
  | cons c a ih =>
    simp only [List.cons_append, EachStep, ih, run, List.foldl_cons, and_assoc]

section Runs

variable {roomNum : Nat}

variable (ops : List (World × Op))

theorem ok_rooms_run : ∀ {E : Nat → Message} {s : Store}, Ok E s → (roomNums s).Nodup →
      (∃ E', Ok E' (run s ops)) ∧ (roomNums (run s ops)).Nodup := by
  induction ops with
  | nil => exact fun {E _} hok hrooms => ⟨⟨E, hok⟩, hrooms⟩
  | cons c ops ih =>
    intro E s hok hrooms
    obtain ⟨E', -, hok', -⟩ := ok_step hok c
    exact ih hok' (by rw [roomNums_step hok hrooms]; exact hrooms)

theorem grows_run : ∀ {E : Nat → Message} {s : Store}, Ok E s → (roomNums s).Nodup →
      EachStep (StepGrows roomNum) s ops → Grows roomNum s (run s ops) := by
  induction ops with
  | nil => exact fun _ _ _ => .refl _ _
  | cons c ops ih =>
    intro E s hok hrooms h
    obtain ⟨⟨E', hok'⟩, hsame, hgrows⟩ := keeps_step hrooms h.1 E hok
    exact hgrows.trans (ih hok' (hsame ▸ hrooms) h.2)

theorem eachStep_iff : ∀ {E : Nat → Message} {s : Store}, Ok E s → (roomNums s).Nodup →
      ((∀ a b c, ops = a ++ b ++ c → Grows roomNum (run s a) (run s (a ++ b))) ↔
        EachStep (StepGrows roomNum) s ops) := by
  intro E s hok hrooms
  constructor
  · induction ops generalizing E s with
    | nil => exact fun _ => trivial
    | cons c ops ih =>
      intro h
      obtain ⟨E', -, hok', -⟩ := ok_step hok c
      refine ⟨(grows_step_iff hok hrooms c).mp (h [] [c] ops rfl), ih hok' ?_ ?_⟩
      · rw [roomNums_step hok hrooms]
        exact hrooms
      · rintro a b d rfl
        exact h (c :: a) b d rfl
  · rintro h a b c rfl
    obtain ⟨⟨E', hok'⟩, hrooms'⟩ := ok_rooms_run a hok hrooms
    rw [List.append_assoc, eachStep_append, eachStep_append] at h
    have hrun : run s (a ++ b) = run (run s a) b := List.foldl_append
    rw [hrun]
    exact grows_run b hok' hrooms' h.2.1

/-- Along a run UIDNEXT never falls and what is new is at or above it exactly when every
    step lets the room grow. -/
theorem uids_grow_iff (rooms : List Room) (config : List (Bytes × Bytes))
    (users : List (Bytes × Int)) (credentials : List Bytes) (quotas : List Limit)
    (past ops : List (World × Op)) (roomNum : Nat) (hrooms : (rooms.map Room.roomNum).Nodup) :
    let base := run (fresh rooms config users credentials quotas) past
    (∀ a b c, ops = a ++ b ++ c → Grows roomNum (run base a) (run base (a ++ b))) ↔
      EachStep (StepGrows roomNum) base ops := by
  intro base
  obtain ⟨E, hok⟩ := ok_run rooms config users credentials quotas []
  obtain ⟨⟨E', hok'⟩, hrooms'⟩ := ok_rooms_run past hok hrooms
  exact eachStep_iff ops hok' hrooms'

theorem uids_grow_iff_one_room : let w : World := ⟨0, [], [], fun _ => none, fun _ _ => []⟩
    let base := run (fresh [⟨100, 0, 0, 0, 0, 0⟩] [] [] [] []) [(w, .insert .blank [100])]
    (∀ a b c, [(w, .delete 100 1)] = a ++ b ++ c →
      Grows 100 (run base a) (run base (a ++ b))) ↔
      EachStep (StepGrows 100) base [(w, .delete 100 1)] :=
  uids_grow_iff [⟨100, 0, 0, 0, 0, 0⟩] [] [] [] [] _ _ 100 (by decide)

/-- A room that holds message 2 alone: when it is deleted UIDNEXT falls from 3 to 1, and
    when message 1 is moved in it is new below 3. -/
theorem uidNext_falls : let w : World := ⟨0, [], [], fun _ => none, fun _ _ => []⟩
    let room : Nat → Room := fun n => ⟨n, 0, 0, 0, 0, 0⟩
    let msg : Message := { Message.blank with euid := bytes "e", formatType := 4 }
    let base := run (fresh [room 100, room 101] [] [] [] [])
      [(w, .insert msg [101]), (w, .insert { msg with euid := bytes "f" } [100])]
    let deleted := run base [(w, .delete 100 2)]
    let moved := run base [(w, .move 101 100 1 false)]
    uidNext base 100 = 3 ∧ uidNext deleted 100 = 1 ∧ ¬Grows 100 base deleted ∧
      roomUids base 100 = [2] ∧ roomUids moved 100 = [1, 2] ∧ ¬Grows 100 base moved := by
  refine ⟨by decide, by decide, ?_, by decide, by decide, ?_⟩
  · rintro ⟨hle, -⟩
    exact absurd hle (by decide)
  · rintro ⟨-, hnew⟩
    exact absurd (hnew 1 (by decide) (by decide)) (by decide)

end Runs

end QuackMail.Imap
