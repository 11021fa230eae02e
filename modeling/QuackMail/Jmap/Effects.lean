import QuackMail.Jmap.Mailboxes
import QuackMail.Store.Token
import QuackMail.Imap.Uids

/-! # What a store call leaves on record

A message that leaves a room leaves a tombstone there.  `Does takes s s'` says so of a store
operation, with `takes` the pairs of a room and a message it takes out of it: nothing else
leaves a room, nothing else gets a tombstone, and the rooms and users stay as they are.
-/

namespace QuackMail.Jmap

open Citadel Imap

/-! ## Tombstones after a token -/

/-- A tombstone of the room names the message after the token. -/
def Gone (s : Store) (token roomNum msgnum : Nat) : Prop :=
  ∃ t ∈ s.tombstones, t.roomNum = roomNum ∧ token < t.seq ∧ t.msgnum = msgnum

/-- A tombstone has a number after its message's. -/
def TombstonesLate (s : Store) : Prop := ∀ t ∈ s.tombstones, t.msgnum < t.seq

/-- The rooms up to what filing changes, the users and the configuration are the same. -/
structure Framed (s s' : Store) : Prop where
  rooms : s'.rooms.map plain = s.rooms.map plain
  users : s'.users = s.users
  credentials : s'.credentials = s.credentials
  config : s'.config = s.config

theorem Framed.refl (s : Store) : Framed s s := ⟨rfl, rfl, rfl, rfl⟩

theorem Framed.trans {s u v : Store} (h : Framed s u) (h' : Framed u v) : Framed s v :=
  ⟨h'.rooms.trans h.rooms, h'.users.trans h.users, h'.credentials.trans h.credentials,
    h'.config.trans h.config⟩

structure Does (takes : Nat → Nat → Prop) (s s' : Store) : Prop where
  seq : s.seq ≤ s'.seq
  kept : ∀ t ∈ s.tombstones, t ∈ s'.tombstones
  taken : ∀ n m, takes n m → ∃ t ∈ s'.tombstones, t.roomNum = n ∧ s.seq ≤ t.seq ∧ t.msgnum = m
  told : ∀ t ∈ s'.tombstones, t ∈ s.tombstones ∨ s.seq ≤ t.seq ∧ takes t.roomNum t.msgnum
  old : ∀ n m, takes n m → m < s.seq
  left : ∀ n m, messageInRoom s n m = true → messageInRoom s' n m = true ∨ takes n m
  ok : ∀ E, Ok E s → ∃ E', (∀ n < s.seq, E' n = E n) ∧ Ok E' s'
  framed : Framed s s'

def nothing : Nat → Nat → Prop := fun _ _ => False

section Does

variable {takes takes' : Nat → Nat → Prop} {s u v : Store} {E : Nat → Message}

theorem Does.refl (s : Store) : Does nothing s s :=
  ⟨Nat.le_refl _, fun _ h => h, fun _ _ h => h.elim, fun _ h => .inl h, fun _ _ h => h.elim,
    fun _ _ h => .inl h, fun E hok => ⟨E, fun _ _ => rfl, hok⟩, .refl s⟩

theorem Does.congr (h : Does takes s u) (htakes : ∀ n m, takes n m ↔ takes' n m) :
    Does takes' s u := by
  have heq : takes = takes' := funext fun n => funext fun m => propext (htakes n m)
  exact heq ▸ h

/-- One after the other, where the second takes out only messages that were there before. -/
theorem Does.trans (h : Does takes s u) (h' : Does takes' u v)
    (hold : ∀ n m, takes' n m → m < s.seq) :
    Does (fun n m => takes n m ∨ takes' n m) s v where
  seq := Nat.le_trans h.seq h'.seq
  kept t ht := h'.kept t (h.kept t ht)
  taken n m htakes := by
    cases htakes with
    | inl hfirst =>
      obtain ⟨t, ht, hrest⟩ := h.taken n m hfirst
      exact ⟨t, h'.kept t ht, hrest⟩
    | inr hsecond =>
      obtain ⟨t, ht, hroom, hseq, hnum⟩ := h'.taken n m hsecond
      exact ⟨t, ht, hroom, Nat.le_trans h.seq hseq, hnum⟩
  told t ht := by
    cases h'.told t ht with
    | inl hu =>
      cases h.told t hu with
      | inl hs => exact .inl hs
      | inr hnew => exact .inr ⟨hnew.1, .inl hnew.2⟩
    | inr hnew => exact .inr ⟨Nat.le_trans h.seq hnew.1, .inr hnew.2⟩
  old n m htakes := htakes.elim (h.old n m) (hold n m)
  left n m hin := by
    cases h.left n m hin with
    | inl hu =>
      cases h'.left n m hu with
      | inl hv => exact .inl hv
      | inr htaken => exact .inr (.inr htaken)
    | inr htaken => exact .inr (.inl htaken)
  ok E hok := by
    obtain ⟨E', heq, hok'⟩ := h.ok E hok
    obtain ⟨E'', heq', hok''⟩ := h'.ok E' hok'
    refine ⟨E'', fun n hn => ?_, hok''⟩
    rw [heq' n (Nat.lt_of_lt_of_le hn h.seq), heq n hn]
  framed := h.framed.trans h'.framed

theorem Does.late (h : Does takes s u) (hlate : TombstonesLate s) : TombstonesLate u := by
  intro t ht
  cases h.told t ht with
  | inl hold => exact hlate t hold
  | inr hnew => exact Nat.lt_of_lt_of_le (h.old _ _ hnew.2) hnew.1

/-- What is on record after a token stays, and what is taken out comes to it. -/
theorem Does.gone_iff (h : Does takes s u) {token n m : Nat} (htoken : token < s.seq) :
    Gone u token n m ↔ Gone s token n m ∨ takes n m := by
  constructor
  · rintro ⟨t, ht, rfl, hgt, rfl⟩
    cases h.told t ht with
    | inl hold => exact .inl ⟨t, hold, rfl, hgt, rfl⟩
    | inr hnew => exact .inr hnew.2
  · intro hgone
    cases hgone with
    | inl hold =>
      obtain ⟨t, ht, hroom, hgt, hnum⟩ := hold
      exact ⟨t, h.kept t ht, hroom, hgt, hnum⟩
    | inr htaken =>
      obtain ⟨t, ht, hroom, hseq, hnum⟩ := h.taken n m htaken
      exact ⟨t, ht, hroom, Nat.lt_of_lt_of_le htoken hseq, hnum⟩

end Does

/-! ## Calls -/

section Calls

variable {s : Store} {E : Nat → Message} {roomNum msgnum : Nat}

theorem framed_link (s : Store) (roomNum msgnum : Nat) : Framed s (link s roomNum msgnum) where
  rooms := map_plain_link s roomNum msgnum
  users := by unfold link bumpHighest; split <;> rfl
  credentials := by unfold link bumpHighest; split <;> rfl
  config := by unfold link bumpHighest; split <;> rfl

theorem does_link (hrow : ∃ r ∈ s.messages, r.msg.msgnum = msgnum) :
    Does nothing s (link s roomNum msgnum) where
  seq := by rw [link_seq]
  kept t ht := by rwa [link_tombstones]
  taken _ _ h := h.elim
  told t ht := .inl (by rwa [link_tombstones] at ht)
  old _ _ h := h.elim
  left n m hin := by
    simp only [messageInRoom, decide_eq_true_eq] at hin ⊢
    exact .inl (mem_link.mpr (.inl hin))
  ok E hok := ⟨E, fun _ _ => rfl, hok.link hrow⟩
  framed := framed_link s roomNum msgnum

theorem does_links (rooms : List Nat) {s : Store} (hrow : ∃ r ∈ s.messages, r.msg.msgnum = msgnum) :
    Does nothing s (rooms.foldl (fun t room => link t room msgnum) s) := by
  induction rooms generalizing s with
  | nil => exact .refl s
  | cons room rooms ih =>
    have hfirst : Does nothing s (link s room msgnum) := does_link hrow
    have hrest : Does nothing (link s room msgnum)
        (rooms.foldl (fun t room => link t room msgnum) (link s room msgnum)) :=
      ih (by simpa using hrow)
    exact (hfirst.trans hrest fun _ _ h => h.elim).congr fun _ _ => or_self_iff

theorem pointer_lt (hok : Ok E s) (hin : messageInRoom s roomNum msgnum = true) :
    msgnum < s.seq := by
  obtain ⟨r, hr, hnum⟩ := hok.pointers ⟨roomNum, msgnum⟩ (by simpa [messageInRoom] using hin)
  have hlt := (hok.rows r hr).2
  rwa [hnum] at hlt

theorem does_unlink (hok : Ok E s) (w : World) (hin : messageInRoom s roomNum msgnum = true) :
    Does (fun n m => n = roomNum ∧ m = msgnum) s (unlink w s roomNum msgnum) := by
  have hrow := hok.pointers ⟨roomNum, msgnum⟩ (by simpa [messageInRoom] using hin)
  have htombs : ∀ t, t ∈ (unlink w s roomNum msgnum).tombstones ↔
      t ∈ s.tombstones ∨ t = ⟨roomNum, s.seq, (E msgnum).euid, msgnum, w.now⟩ :=
    fun t => mem_tombstones_unlink hok hrow
  refine ⟨Nat.le_succ _, fun t ht => (htombs t).mpr (.inl ht), ?_, ?_, ?_, ?_,
    fun E' hok' => ⟨E', fun _ _ => rfl, hok'.unlink hrow⟩, ⟨rfl, rfl, rfl, rfl⟩⟩
  · rintro n m ⟨rfl, rfl⟩
    exact ⟨_, (htombs _).mpr (.inr rfl), rfl, Nat.le_refl _, rfl⟩
  · intro t ht
    cases (htombs t).mp ht with
    | inl hold => exact .inl hold
    | inr hnew => exact .inr (by rw [hnew]; exact ⟨Nat.le_refl _, rfl, rfl⟩)
  · rintro n m ⟨rfl, rfl⟩
    exact pointer_lt hok hin
  · intro n m hmem
    simp only [messageInRoom, decide_eq_true_eq] at hmem ⊢
    by_cases hthis : n = roomNum ∧ m = msgnum
    · exact .inr hthis
    · exact .inl (mem_unlink.mpr ⟨hmem, fun heq => hthis (by simpa using heq)⟩)

theorem does_deleteMessage (hok : Ok E s) (w : World) (roomNum msgnum : Nat) :
    Does (fun n m => n = roomNum ∧ m = msgnum ∧ messageInRoom s roomNum msgnum = true) s
      (deleteMessage w s roomNum msgnum).1 := by
  unfold deleteMessage
  by_cases hin : messageInRoom s roomNum msgnum = true
  · rw [if_pos hin]
    exact (does_unlink hok w hin).congr fun n m => by simp [hin]
  · rw [if_neg hin]
    exact (Does.refl s).congr fun n m => by simp [hin, nothing]

theorem messageInRoom_deleteMessage (w : World) (s : Store) (roomNum msgnum n m : Nat) :
    messageInRoom (deleteMessage w s roomNum msgnum).1 n m = true ↔
      messageInRoom s n m = true ∧ ¬(n = roomNum ∧ m = msgnum) := by
  simp only [messageInRoom, decide_eq_true_eq]
  rw [(deleteMessage_frame w s roomNum msgnum).2, List.mem_filter, decide_eq_true_eq, ne_eq,
    Pointer.mk.injEq]

/-- An insertion takes nothing out of any room. -/
theorem does_insertMessage (hok : Ok E s) (w : World) (msg : Message) (rooms : List Nat) :
    Does nothing s (insertMessage w s msg rooms).1 := by
  have hframe : (insertMessage w s msg rooms).1.tombstones = s.tombstones ∧
      (∀ n m, messageInRoom s n m = true →
        messageInRoom (insertMessage w s msg rooms).1 n m = true) ∧
      Framed s (insertMessage w s msg rooms).1 := by
    unfold insertMessage
    cases quotaRefusal s rooms with
    | some err => exact ⟨rfl, fun _ _ h => h, .refl s⟩
    | none =>
      cases w.fault msg with
      | some err => exact ⟨rfl, fun _ _ h => h, rfl, rfl, rfl, rfl⟩
      | none =>
        have hrow : ∃ r ∈ s.messages ++ [storedRow w s msg], r.msg.msgnum = s.seq :=
          ⟨storedRow w s msg, by simp, rfl⟩
        have hlinks := does_links rooms
          (s := { s with messages := s.messages ++ [storedRow w s msg], seq := s.seq + 1 }) hrow
        refine ⟨(links_frame s.seq rooms).2.1, fun n m hin => ?_, ?_⟩
        · exact (hlinks.left n m hin).resolve_right id
        · exact ⟨hlinks.framed.rooms, hlinks.framed.users, hlinks.framed.credentials,
            hlinks.framed.config⟩
  obtain ⟨htombs, hleft, hframed⟩ := hframe
  obtain ⟨-, -, -, hseq, -⟩ := evolves_insertMessage 0 0 w s msg rooms E hok hok.seqPos
  refine ⟨hseq, fun t ht => htombs ▸ ht, fun _ _ h => h.elim, fun t ht => .inl (htombs ▸ ht),
    fun _ _ h => h.elim, fun n m hin => .inl (hleft n m hin), fun E' hok' => ?_, hframed⟩
  obtain ⟨E'', heq, hok'', -, -⟩ := evolves_insertMessage 0 0 w s msg rooms E' hok' hok'.seqPos
  exact ⟨E'', heq, hok''⟩

/-- Where the messages that were there are stays as it is. -/
theorem messageInRoom_insertMessage (w : World) (s : Store) (msg : Message) (rooms : List Nat)
    (n : Nat) {m : Nat} (hold : m < s.seq) :
    messageInRoom (insertMessage w s msg rooms).1 n m = true ↔ messageInRoom s n m = true := by
  simp only [messageInRoom, decide_eq_true_eq]
  unfold insertMessage
  cases quotaRefusal s rooms with
  | some err => exact Iff.rfl
  | none =>
    cases w.fault msg with
    | some err => exact Iff.rfl
    | none =>
      simp only [mem_links]
      exact or_iff_left fun h => absurd h.1 (Nat.ne_of_lt hold)

/-- The message is there, in another room than the one it goes to, and that one exists. -/
def Moves (s : Store) (fromRoom toRoom msgnum : Nat) : Prop :=
  messageInRoom s fromRoom msgnum = true ∧ (getRoomByNum s toRoom).isSome = true ∧
    fromRoom ≠ toRoom

instance (s : Store) (fromRoom toRoom msgnum : Nat) : Decidable (Moves s fromRoom toRoom msgnum) :=
  inferInstanceAs (Decidable (_ ∧ _))

theorem moveMessage_eq (w : World) (s : Store) (fromRoom toRoom msgnum : Nat) (isCopy : Bool) :
    (moveMessage w s fromRoom toRoom msgnum isCopy).1 =
      if Moves s fromRoom toRoom msgnum then
        if isCopy then link s toRoom msgnum
        else (deleteMessage w (link s toRoom msgnum) fromRoom msgnum).1
      else s := by
  refine moveMessage_rule (P := fun u => u = _) (fun hstays => ?_) fun hin hroom hdifferent => ?_
  · rw [if_neg (show ¬Moves s fromRoom toRoom msgnum from hstays)]
  have hmoves : Moves s fromRoom toRoom msgnum := ⟨hin, hroom, hdifferent⟩
  have hstill : messageInRoom (link s toRoom msgnum) fromRoom msgnum = true := by
    simp only [messageInRoom, decide_eq_true_eq] at hin ⊢
    exact mem_link.mpr (.inl hin)
  rw [if_pos hmoves, deleteMessage, if_pos hstill]

theorem does_moveMessage (hok : Ok E s) (w : World) (fromRoom toRoom msgnum : Nat) (isCopy : Bool) :
    Does (fun n m => n = fromRoom ∧ m = msgnum ∧ isCopy = false ∧ Moves s fromRoom toRoom msgnum) s
      (moveMessage w s fromRoom toRoom msgnum isCopy).1 := by
  rw [moveMessage_eq]
  by_cases hmoves : Moves s fromRoom toRoom msgnum
  swap
  · rw [if_neg hmoves]
    exact (Does.refl s).congr fun n m => by simp [hmoves, nothing]
  rw [if_pos hmoves]
  have hrow := hok.pointers ⟨fromRoom, msgnum⟩ (by simpa [messageInRoom] using hmoves.1)
  have hlink : Does nothing s (link s toRoom msgnum) := does_link hrow
  cases isCopy with
  | true => exact hlink.congr fun n m => by simp [nothing]
  | false =>
    have hlinked : Ok E (link s toRoom msgnum) := hok.link hrow
    have hdelete := does_deleteMessage hlinked w fromRoom msgnum
    have hstill := (hlink.left _ _ hmoves.1).resolve_right id
    refine (hlink.trans hdelete ?_).congr fun n m => by simp [nothing, hstill, hmoves]
    rintro n m ⟨-, rfl, -⟩
    exact pointer_lt hok hmoves.1

theorem messageInRoom_moveMessage (w : World) (s : Store) (fromRoom toRoom msgnum n m : Nat)
    (isCopy : Bool) :
    messageInRoom (moveMessage w s fromRoom toRoom msgnum isCopy).1 n m = true ↔
      (messageInRoom s n m = true ∨ n = toRoom ∧ m = msgnum ∧ Moves s fromRoom toRoom msgnum) ∧
        ¬(n = fromRoom ∧ m = msgnum ∧ isCopy = false ∧ Moves s fromRoom toRoom msgnum) := by
  rw [moveMessage_eq]
  by_cases hmoves : Moves s fromRoom toRoom msgnum
  swap
  · simp [hmoves]
  have hlink : messageInRoom (link s toRoom msgnum) n m = true ↔
      messageInRoom s n m = true ∨ n = toRoom ∧ m = msgnum := by
    simp [messageInRoom]
  cases isCopy with
  | true => simp [hlink, hmoves]
  | false => simp [messageInRoom_deleteMessage, hlink, hmoves]

end Calls

/-! ## Saves and sweeps -/

/-- The messages a save may take out of its room: the one it replaces, and the history that the
    hook replaces. -/
def Replaces (s : Store) (msg : Message) (room m : Nat) : Prop :=
  findByEuid s room msg.euid = some m ∨ findByEuid s room (Wiki.historyEuid msg.euid) = some m

section Composite

variable {s : Store} {E : Nat → Message}

theorem does_dropRow (hok : Ok E s) (m : Nat) : Does nothing s (dropRow s m) := by
  have hsame : (dropRow s m).roomMsgs = s.roomMsgs ∧ (dropRow s m).tombstones = s.tombstones ∧
      Framed s (dropRow s m) := by
    unfold dropRow
    split
    · exact ⟨rfl, rfl, .refl s⟩
    · exact ⟨rfl, rfl, rfl, rfl, rfl, rfl⟩
  obtain ⟨hpointers, htombs, hframed⟩ := hsame
  obtain ⟨-, -, -, hseq, -⟩ := evolves_dropRow 0 0 s m E hok hok.seqPos
  refine ⟨hseq, fun t ht => htombs ▸ ht, fun _ _ h => h.elim, fun t ht => .inl (htombs ▸ ht),
    fun _ _ h => h.elim, fun n k hin => .inl (by rw [messageInRoom, hpointers]; exact hin),
    fun E' hok' => ?_, hframed⟩
  obtain ⟨E'', heq, hok'', -, -⟩ := evolves_dropRow 0 0 s m E' hok' hok'.seqPos
  exact ⟨E'', heq, hok''⟩

/-- Nothing was taken out of the room but what a save of the message replaces. -/
def Saving (s : Store) (msg : Message) (room : Nat) (u : Store) : Prop :=
  ∃ takes, (∀ n m, takes n m → n = room ∧ messageInRoom s n m = true ∧ Replaces s msg room m) ∧
    Does takes s u ∧ ∀ n, ∀ m < s.seq, messageInRoom u n m = true ↔
      messageInRoom s n m = true ∧ ¬takes n m

/-- A save takes out of its room nothing but what it replaces. -/
theorem does_upsertByEuid (hok : Ok E s) (w : World) (msg : Message) (room : Nat) :
    Saving s msg room (Wiki.upsertByEuid w s msg room).1 := by
  refine Wiki.upsertByEuid_rule (P := Saving s msg room) ?_ fun v msg' euid heuid hv =>
    Wiki.replaceByEuid_rule (P := Saving s msg room) hv ?_ ?_
  · exact ⟨nothing, fun _ _ h => h.elim, .refl s, fun n m _ => (and_iff_left id).symm⟩
  · rintro u ⟨takes, honly, hdoes, hmem⟩
    obtain ⟨E', -, hok'⟩ := hdoes.ok E hok
    have hins := does_insertMessage hok' w msg' [room]
    refine ⟨takes, honly, (hdoes.trans hins fun _ _ h => h.elim).congr fun _ _ => or_iff_left id,
      fun n m hm => ?_⟩
    rw [messageInRoom_insertMessage w u msg' [room] n (Nat.lt_of_lt_of_le hm hdoes.seq), hmem n m hm]
  · rintro u m hm ⟨takes, honly, hdoes, hmem⟩
    obtain ⟨E', -, hok'⟩ := hdoes.ok E hok
    have hreplaces : Replaces s msg room m := by
      rcases heuid with rfl | rfl
      · exact .inl hm
      · exact .inr hm
    have hfound : ∀ euid, findByEuid s room euid = some m → m < s.seq := by
      intro euid hfind
      rw [findByEuid, Option.ite_none_left_eq_some] at hfind
      have hin := (mem_rowsByEuid hok).mp (List.max?_mem hfind.2)
      exact pointer_lt hok (decide_eq_true hin.1)
    have hlt : m < s.seq := hreplaces.elim (hfound _) (hfound _)
    refine ⟨_, ?_, hdoes.trans (does_deleteMessage hok' w room m) ?_, fun n k hk => ?_⟩
    · rintro n k (hfirst | ⟨rfl, rfl, hin⟩)
      · exact honly n k hfirst
      · exact ⟨rfl, ((hmem n k hlt).mp hin).1, hreplaces⟩
    · rintro n k ⟨rfl, rfl, -⟩
      exact hlt
    · rw [messageInRoom_deleteMessage, hmem n k hk]
      constructor
      · rintro ⟨⟨hin, hkept⟩, hother⟩
        exact ⟨hin, fun h => h.elim hkept fun h => hother ⟨h.1, h.2.1⟩⟩
      · rintro ⟨hin, hkept⟩
        refine ⟨⟨hin, fun h => hkept (.inl h)⟩, ?_⟩
        rintro ⟨rfl, rfl⟩
        exact hkept (.inr ⟨rfl, rfl, (hmem n k hk).mpr ⟨hin, fun h => hkept (.inl h)⟩⟩)

/-- The sweep takes out what is in no room any more, and nothing comes into a room. -/
theorem does_runExpiry (hok : Ok E s) (w : World) :
    Does (fun n m => messageInRoom s n m = true ∧ messageInRoom (runExpiry w s).1 n m = false) s
        (runExpiry w s).1 ∧
      ∀ n m, messageInRoom (runExpiry w s).1 n m = true → messageInRoom s n m = true := by
  refine runExpiry_rule (P := fun u =>
    Does (fun n m => messageInRoom s n m = true ∧ messageInRoom u n m = false) s u ∧
      ∀ n m, messageInRoom u n m = true → messageInRoom s n m = true) ?_ ?_ ?_
  · exact ⟨(Does.refl s).congr fun n m => by simp [nothing], fun _ _ h => h⟩
  · rintro u room msgnum ⟨hdoes, hshrinks⟩
    obtain ⟨E', -, hok'⟩ := hdoes.ok E hok
    have hmem := messageInRoom_deleteMessage w u room msgnum
    refine ⟨(hdoes.trans (does_deleteMessage hok' w room msgnum) ?_).congr ?_,
      fun n m hin => hshrinks n m ((hmem n m).mp hin).1⟩
    · rintro n m ⟨rfl, rfl, hin⟩
      exact pointer_lt hok (hshrinks n m hin)
    · intro n m
      rw [← Bool.not_eq_true, ← Bool.not_eq_true, hmem]
      constructor
      · rintro (⟨hwas, hout⟩ | ⟨rfl, rfl, hin⟩)
        · exact ⟨hwas, fun h => hout h.1⟩
        · exact ⟨hshrinks n m hin, fun h => h.2 ⟨rfl, rfl⟩⟩
      · rintro ⟨hwas, hout⟩
        by_cases hin : messageInRoom u n m = true
        · obtain ⟨rfl, rfl⟩ := Classical.not_not.mp fun h => hout ⟨hin, h⟩
          exact .inr ⟨rfl, rfl, hin⟩
        · exact .inl ⟨hwas, hin⟩
  · rintro u m ⟨hdoes, hshrinks⟩
    obtain ⟨E', -, hok'⟩ := hdoes.ok E hok
    have hpointers : ∀ n k, messageInRoom (dropRow u m) n k = messageInRoom u n k := by
      intro n k
      unfold dropRow
      split
      · rfl
      · rfl
    refine ⟨(hdoes.trans (does_dropRow hok' m) fun _ _ h => h.elim).congr fun n k => ?_,
      fun n k hin => hshrinks n k (hpointers n k ▸ hin)⟩
    rw [hpointers]
    exact or_iff_left id

end Composite

end QuackMail.Jmap
