import QuackMail.Store.Sync

/-! # The objects of a room

What `FindByEuid` and `LoadMessage` together say of an euid, and what storing one
object does to all of them.
-/

namespace QuackMail.Wiki

open Citadel

/-- The object an euid names in a room. -/
def object (s : Store) (roomNum : Nat) (euid : Bytes) : Option Message :=
  ((findByEuid s roomNum euid).filter (0 < ·)).bind (loadMessage s)

def defaultViewOf (s : Store) (roomNum : Nat) : Option Int :=
  (getRoomByNum s roomNum).map Room.defaultView

variable {euid : Bytes} {roomNum room : Nat} {s s' : Store} {E : Nat → Message} {msg : Message}
   {w : World}

theorem object_eq_some {m : Message} (h : object s roomNum euid = some m) :
    findByEuid s roomNum euid = some m.msgnum ∧ 0 < m.msgnum ∧
      loadMessage s m.msgnum = some m := by
  simp only [object, Option.bind_eq_some_iff, Option.filter_eq_some_iff, decide_eq_true_eq] at h
  obtain ⟨n, ⟨hfind, hpos⟩, hload⟩ := h
  obtain ⟨r, hrow, rfl⟩ := Option.map_eq_some_iff.mp hload
  obtain ⟨-, hnum⟩ := findRow_msgnum hrow
  rw [hnum]
  exact ⟨hfind, hpos, hload⟩

theorem loadMessage_member (hok : Ok E s) {n : Nat}
    (h : n ∈ (view s roomNum).members) : loadMessage s n = some (E n) := by
  obtain ⟨r, hr, hnum⟩ := hok.pointers _ h
  simp only at hnum
  rw [loadMessage, ← hnum, findRow_of_mem hok hr, Option.map_some, ← hok.rowLabel r hr]

/-- An object is a message of the room under the largest number. -/
theorem object_eq_some_iff (hok : Ok E s) (heuid : euid ≠ []) {m : Message} :
    object s roomNum euid = some m ↔
      ∃ n ∈ (view s roomNum).members, (E n).euid = euid ∧ E n = m ∧
        ∀ k ∈ (view s roomNum).members, (E k).euid = euid → k ≤ n := by
  have hmax : ∀ n, findByEuid s roomNum euid = some n ↔
      n ∈ (view s roomNum).members ∧ (E n).euid = euid ∧
        ∀ k ∈ (view s roomNum).members, (E k).euid = euid → k ≤ n := by
    intro n
    rw [findByEuid, if_neg heuid, List.max?_eq_some_iff]
    simp only [mem_rowsByEuid hok, and_assoc, and_imp]
  constructor
  · intro h
    obtain ⟨hfind, -, hload⟩ := object_eq_some h
    obtain ⟨hmem, he, hle⟩ := (hmax _).mp hfind
    rw [loadMessage_member hok hmem, Option.some.injEq] at hload
    exact ⟨m.msgnum, hmem, he, hload, hle⟩
  · rintro ⟨n, hmem, he, rfl, hle⟩
    have hpos : 0 < n := by
      obtain ⟨r, hr, hnum⟩ := hok.pointers _ hmem
      have := (hok.rows r hr).1
      simp only at hnum
      omega
    have hfind := (hmax n).mpr ⟨hmem, he, hle⟩
    rw [object, hfind, Option.filter_some, if_pos (by simpa using hpos), Option.bind_some,
      loadMessage_member hok hmem]

/-- A number that is found belongs to an object. -/
theorem object_of_find (hok : Ok E s) {n : Nat} (h : findByEuid s roomNum euid = some n) :
    ∃ m, object s roomNum euid = some m ∧ m.msgnum = n := by
  have hmem : n ∈ rowsByEuid s roomNum euid := by
    rw [findByEuid] at h
    split at h
    · simp at h
    · exact List.max?_mem h
  have hmember := ((mem_rowsByEuid hok).mp hmem).1
  have hload := loadMessage_member hok hmember
  obtain ⟨r, hr, hnum⟩ := hok.pointers _ hmember
  simp only at hnum
  have hpos := (hok.rows r hr).1
  have hlabel := congrArg Message.msgnum (hok.rowLabel r hr)
  refine ⟨E n, ?_, by rw [← hnum, ← hlabel]⟩
  rw [object, h, Option.filter_some, if_pos (by simp; omega), Option.bind_some, hload]

theorem find_none_of_object (hok : Ok E s)
    (h : object s roomNum euid = none) : findByEuid s roomNum euid = none := by
  cases hfind : findByEuid s roomNum euid with
  | none => rfl
  | some n =>
    obtain ⟨m, hm, -⟩ := object_of_find hok hfind
    rw [h] at hm
    simp at hm

/-- The history message of a page is the object under the name of its history. -/
theorem oldHistory_eq (s : Store) (roomNum : Nat) (page : Bytes) :
    oldHistory s roomNum page = ((object s roomNum (historyEuid page)).map Message.raw).getD [] := by
  rw [oldHistory, object]
  cases (findByEuid s roomNum (historyEuid page)).filter (0 < ·) <;> rfl

/-! ## Storing an object -/

theorem defaultViewOf_link (s : Store) (roomNum room msgnum : Nat) :
    defaultViewOf (link s room msgnum) roomNum = defaultViewOf s roomNum := by
  have hfind : ∀ rooms : List Room,
      ((rooms.map (fun r =>
        if r.roomNum = room then { r with highestMsg := max r.highestMsg msgnum } else r)).find?
          (fun r => decide (r.roomNum = roomNum))).map Room.defaultView =
        (rooms.find? (fun r => decide (r.roomNum = roomNum))).map Room.defaultView := by
    intro rooms
    induction rooms with
    | nil => rfl
    | cons r rooms ih =>
      rw [List.map_cons]
      by_cases hr : r.roomNum = room
      · rw [if_pos hr]
        by_cases hq : r.roomNum = roomNum
        · rw [List.find?_cons_of_pos (by simpa using hq), List.find?_cons_of_pos (by simpa using hq)]
          rfl
        · rw [List.find?_cons_of_neg (by simpa using hq), List.find?_cons_of_neg (by simpa using hq)]
          exact ih
      · rw [if_neg hr]
        by_cases hq : r.roomNum = roomNum
        · rw [List.find?_cons_of_pos (by simpa using hq), List.find?_cons_of_pos (by simpa using hq)]
        · rw [List.find?_cons_of_neg (by simpa using hq), List.find?_cons_of_neg (by simpa using hq)]
          exact ih
  unfold defaultViewOf getRoomByNum link bumpHighest
  split <;> exact hfind s.rooms

/-- A refused insert leaves every object as it is. -/
theorem insertMessage_error {rooms : List Nat}
    {err : Bytes} (h : insertMessage w s msg rooms = (s', .error err)) :
    (quotaRefusal s rooms ≠ none ∨ w.fault msg ≠ none) ∧ s.seq ≤ s'.seq ∧
      (∀ room euid, object s' room euid = object s room euid) ∧
      ∀ room, defaultViewOf s' room = defaultViewOf s room := by
  obtain ⟨hquota, rfl⟩ | ⟨hfault, rfl⟩ := insertMessage_refused h
  · exact ⟨.inl hquota, Nat.le_refl _, fun _ _ => rfl, fun _ => rfl⟩
  · exact ⟨.inr hfault, Nat.le_succ _, fun _ _ => rfl, fun _ => rfl⟩

theorem replaceByEuid_error
    {old : Option Nat} {err : Bytes} (h : replaceByEuid w s msg room old = (s', .error err)) :
    insertMessage w s msg [room] = (s', .error err) := by
  unfold replaceByEuid at h
  cases hins : insertMessage w s msg [room] with
  | mk t r =>
    cases r with
    | error e =>
      simp only [hins, Prod.mk.injEq, Except.error.injEq] at h
      rw [h.1, h.2]
    | ok created =>
      simp only [hins] at h
      split at h
      · simp at h
      · split at h <;> simp at h

/-- The message as it is stored. -/
def Message.under (m : Message) (msgnum : Nat) : Message := { m with msgnum := msgnum }

theorem member_lt (hok : Ok E s) {n : Nat} (h : n ∈ (view s roomNum).members) : n < s.seq := by
  obtain ⟨r, hr, hnum⟩ := hok.pointers _ h
  have hlt := (hok.rows r hr).2
  simp only at hnum
  omega

/-- A message that is accepted enters the room under the next number. -/
theorem insertMessage_ok
    {created : Nat} (hok : Ok E s) (h : insertMessage w s msg [room] = (s', .ok created)) :
    created = s.seq ∧ s'.seq = s.seq + 1 ∧
      (view s' room).members = insert s.seq (view s room).members ∧
      (∀ r, defaultViewOf s' r = defaultViewOf s r) ∧
      ∃ E', (∀ n < s.seq, E' n = E n) ∧ E' s.seq = Message.under msg s.seq ∧ Ok E' s' := by
  obtain ⟨E', heq, hok', -, -⟩ := evolves_insertMessage 0 0 w s msg [room] E hok hok.seqPos
  rw [h] at hok'
  obtain ⟨-, -, rfl, hs'⟩ := insertMessage_accepted h
  rw [List.foldl_cons, List.foldl_nil] at hs'
  have hview := view_link
    { s with messages := s.messages ++ [storedRow w s msg], seq := s.seq + 1 } room room s.seq
  rw [if_pos rfl, ← hs'] at hview
  refine ⟨rfl, by rw [hs', link_seq], congrArg ChangeJournal.Journal.members hview, ?_, E',
    heq, ?_, hok'⟩
  · intro r
    rw [hs', defaultViewOf_link]
    rfl
  · have hrow : storedRow w s msg ∈ s'.messages := by
      rw [hs', link_messages]
      simp
    exact (hok'.rowLabel _ hrow).symm

/-- Where the members of other names stay, so do the objects. -/
theorem object_congr {E' : Nat → Message} (hok : Ok E s) (hok' : Ok E' s') (heuid : euid ≠ [])
    (h : ∀ n, n ∈ (view s' room).members ∧ (E' n).euid = euid ↔
      n ∈ (view s room).members ∧ (E n).euid = euid)
    (heq : ∀ n ∈ (view s room).members, E' n = E n) :
    object s' room euid = object s room euid := by
  ext m
  rw [object_eq_some_iff hok heuid, object_eq_some_iff hok' heuid]
  constructor
  · rintro ⟨n, hmem, he, rfl, hle⟩
    obtain ⟨hmem', he'⟩ := (h n).mp ⟨hmem, he⟩
    refine ⟨n, hmem', he', (heq n hmem').symm, fun k hk hke => ?_⟩
    obtain ⟨hk', hke'⟩ := (h k).mpr ⟨hk, hke⟩
    exact hle k hk' hke'
  · rintro ⟨n, hmem, he, rfl, hle⟩
    obtain ⟨hmem', he'⟩ := (h n).mpr ⟨hmem, he⟩
    refine ⟨n, hmem', he', heq n hmem, fun k hk hke => ?_⟩
    obtain ⟨hk', hke'⟩ := (h k).mp ⟨hk, hke⟩
    exact hle k hk' hke'

/-- A new object under the next number and at most its predecessor gone: what the euids
    name afterwards. -/
theorem objects_replaced {E' : Nat → Message}
    (hok : Ok E s) (hok' : Ok E' s') (heuid : msg.euid ≠ []) (heq : ∀ n < s.seq, E' n = E n)
    (hnew : E' s.seq = Message.under msg s.seq) (hmem : s.seq ∈ (view s' room).members)
    (hsub : ∀ n ∈ (view s' room).members, n = s.seq ∨ n ∈ (view s room).members)
    (hkeep : ∀ n ∈ (view s room).members, (E n).euid ≠ msg.euid → n ∈ (view s' room).members) :
    object s' room msg.euid = some (Message.under msg s.seq) ∧
      ∀ euid, euid ≠ [] → euid ≠ msg.euid → object s' room euid = object s room euid := by
  refine ⟨?_, fun euid hne hother => ?_⟩
  · refine (object_eq_some_iff hok' heuid).mpr ⟨s.seq, hmem, by rw [hnew]; rfl, hnew, ?_⟩
    intro k hk _
    rcases hsub k hk with rfl | hk
    · exact Nat.le_refl _
    · exact (member_lt hok hk).le
  · refine object_congr hok hok' hne (fun n => ?_) fun n hn => heq n (member_lt hok hn)
    constructor
    · rintro ⟨hn, he⟩
      rcases hsub n hn with rfl | hn
      · rw [hnew] at he
        exact absurd he.symm hother
      · exact ⟨hn, by rw [← he, heq n (member_lt hok hn)]⟩
    · rintro ⟨hn, he⟩
      refine ⟨hkeep n hn (he ▸ hother), ?_⟩
      rw [heq n (member_lt hok hn), he]

/-- An object is stored under the next number, and the one it replaces is unlinked. -/
theorem replaceByEuid_ok {created : Nat} (hok : Ok E s) (heuid : msg.euid ≠ [])
    (h : replaceByEuid w s msg room (findByEuid s room msg.euid) = (s', .ok created)) :
    created = s.seq ∧ s.seq < s'.seq ∧ object s' room msg.euid = some (Message.under msg s.seq) ∧
      (∀ euid, euid ≠ [] → euid ≠ msg.euid → object s' room euid = object s room euid) ∧
      ∀ r, defaultViewOf s' r = defaultViewOf s r := by
  unfold replaceByEuid at h
  cases hins : insertMessage w s msg [room] with
  | mk t r =>
    cases r with
    | error e => simp [hins] at h
    | ok n =>
      obtain ⟨rfl, hseq, hmembers, hview, E', heq, hnew, hok'⟩ := insertMessage_ok hok hins
      simp only [hins] at h
      cases hfind : findByEuid s room msg.euid with
      | none =>
        simp only [hfind, Prod.mk.injEq, Except.ok.injEq] at h
        obtain ⟨rfl, rfl⟩ := h
        have hmem : ∀ k, k ∈ (view t room).members ↔ k = s.seq ∨ k ∈ (view s room).members := by
          intro k
          rw [hmembers, Set.mem_insert_iff]
        obtain ⟨hthis, hothers⟩ := objects_replaced hok hok' heuid heq hnew
          ((hmem _).mpr (.inl rfl)) (fun k hk => (hmem k).mp hk) fun k hk _ => (hmem k).mpr (.inr hk)
        exact ⟨rfl, by omega, hthis, hothers, hview⟩
      | some n =>
        obtain ⟨m, hobject, rfl⟩ := object_of_find hok hfind
        obtain ⟨k, hk, hke, hkm, -⟩ := (object_eq_some_iff hok heuid).mp hobject
        have hnum : m.msgnum = k := by
          obtain ⟨r, hr, hrk⟩ := hok.pointers _ hk
          have hlabel := congrArg Message.msgnum (hok.rowLabel r hr)
          simp only at hrk
          rw [← hkm, ← hrk, ← hlabel]
        have hlt := member_lt hok hk
        have hin : messageInRoom t room m.msgnum = true := by
          have hkt : k ∈ (view t room).members := by
            rw [hmembers]
            exact Set.mem_insert_of_mem _ hk
          rw [hnum]
          simpa [messageInRoom, view] using hkt
        have hrow : ∃ r ∈ t.messages, r.msg.msgnum = m.msgnum :=
          hok'.pointers ⟨room, m.msgnum⟩ (by simpa [messageInRoom] using hin)
        simp only [hfind] at h
        rw [if_neg (by omega), Prod.mk.injEq, Except.ok.injEq] at h
        obtain ⟨hs', rfl⟩ := h
        rw [deleteMessage, if_pos hin] at hs'
        have hok'' : Ok E' s' := hs' ▸ hok'.unlink hrow
        have hmembers' : (view s' room).members =
            (insert s.seq (view s room).members) \ {m.msgnum} := by
          rw [← hs', view_unlink hok' hrow, if_pos rfl, ← hmembers]
          rfl
        obtain ⟨hthis, hothers⟩ := objects_replaced hok hok'' heuid heq hnew
          (by rw [hmembers']; exact ⟨Set.mem_insert _ _, by simp; omega⟩)
          (fun j hj => by rw [hmembers'] at hj; exact hj.1)
          (fun j hj hje => by
            rw [hmembers']
            refine ⟨Set.mem_insert_of_mem _ hj, ?_⟩
            rintro rfl
            rw [hnum] at hje
            exact hje hke)
        refine ⟨rfl, ?_, hthis, hothers, fun r => ?_⟩
        · rw [← hs']
          simp only [unlink_seq]
          omega
        · rw [← hs', ← hview r]
          rfl

end QuackMail.Wiki
