import QuackMail.Lib.Watermark
import QuackMail.Listserv.Spool

/-! # Every post once

A pass of the spooler reads the room through two watermarks, one for the posts and one for
the digests.  Both are instances of `Watermark.Reader`: nothing is sent twice, and what
comes to the room above the watermark is sent.
-/

namespace QuackMail.Listserv

open Citadel Watermark

/-! ## What every step keeps -/

/-- The key of `citadel_room_msgs`, and that every pointer has its message. -/
structure Shelved (s : Store) : Prop where
  key : s.roomMsgs.Nodup
  rows : ∀ p ∈ s.roomMsgs, (findRow s p.msgnum).isSome = true

variable {n room : Nat} {s : Store}

theorem isSome_findRow : (findRow s n).isSome = true ↔ ∃ r ∈ s.messages, r.msg.msgnum = n := by
  simp [findRow]

theorem link_roomMsgs (s : Store) (room n : Nat) : (link s room n).roomMsgs =
      if (⟨room, n⟩ : Pointer) ∈ s.roomMsgs then s.roomMsgs else s.roomMsgs ++ [⟨room, n⟩] := by
  unfold link bumpHighest messageInRoom
  by_cases h : (⟨room, n⟩ : Pointer) ∈ s.roomMsgs
  · simp [h]
  · simp [h]

theorem Shelved.link (h : Shelved s) (room : Nat)
    (hrow : (findRow s n).isSome = true) : Shelved (link s room n) := by
  have hrows : ∀ k, (findRow (Citadel.link s room n) k).isSome = true ↔
      (findRow s k).isSome = true := by
    intro k
    rw [isSome_findRow, isSome_findRow, link_messages]
  constructor
  · rw [link_roomMsgs]
    split
    · exact h.key
    · next hout => exact List.nodup_append'.mpr ⟨h.key, by simp, by simpa using hout⟩
  · intro p hp
    rw [hrows]
    rcases mem_link.mp hp with hp | rfl
    · exact h.rows p hp
    · exact hrow

theorem Shelved.links (h : Shelved s) (hrow : (findRow s n).isSome = true)
    (rooms : List Nat) : Shelved (rooms.foldl (fun t room => Citadel.link t room n) s) := by
  induction rooms generalizing s with
  | nil => exact h
  | cons room rooms ih =>
    refine ih (h.link room hrow) ?_
    rw [isSome_findRow, link_messages, ← isSome_findRow]
    exact hrow

theorem Shelved.filter (h : Shelved s) (p : Pointer → Bool) (seq : Nat) (tombs : List Tombstone) :
    Shelved { s with roomMsgs := s.roomMsgs.filter p, seq := seq, tombstones := tombs } where
  key := h.key.filter p
  rows := fun q hq => h.rows q (List.mem_filter.mp hq).1

theorem Shelved.same {t : Store} (h : Shelved s) (hpointers : t.roomMsgs = s.roomMsgs)
    (hmessages : t.messages = s.messages) : Shelved t where
  key := by
    rw [hpointers]
    exact h.key
  rows := by
    intro p hp
    rw [hpointers] at hp
    rw [isSome_findRow, hmessages, ← isSome_findRow]
    exact h.rows p hp

theorem Shelved.commitRow (h : Shelved s) (row : Row) (rooms : List Nat) :
    Shelved (commitRow s row rooms) := by
  have hbase : Shelved { s with messages := s.messages ++ [row] } := by
    refine ⟨h.key, ?_⟩
    intro p hp
    obtain ⟨r, hr, hnum⟩ := isSome_findRow.mp (h.rows p hp)
    exact isSome_findRow.mpr ⟨r, List.mem_append_left _ hr, hnum⟩
  exact hbase.links (isSome_findRow.mpr ⟨row, by simp, rfl⟩) rooms

theorem Shelved.advance (h : Shelved s) (w : World) (session : Citadel.Session) :
    Shelved (advance w s session).1 := by
  cases session with
  | insert msg rooms =>
    simp only [Citadel.advance]
    cases quotaRefusal s rooms with
    | some _ => exact h
    | none => exact h.same rfl rfl
  | drawn row rooms => exact h.commitRow row rooms
  | delete room n => exact h
  | unlink room n => exact h
  | removing room n euid => exact h.filter _ s.seq s.tombstones
  | removed room n euid => exact h.same rfl rfl
  | stamped room n euid seq => exact h.same rfl rfl
  | done => exact h

theorem Shelved.unlink (h : Shelved s) (w : World) (room n : Nat) :
    Shelved (Citadel.unlink w s room n) := h.filter (· ≠ ⟨room, n⟩) (s.seq + 1) _

theorem Shelved.moveMessage (h : Shelved s) (w : World) (fromRoom toRoom n : Nat)
    (isCopy : Bool) : Shelved (moveMessage w s fromRoom toRoom n isCopy).1 := by
  refine moveMessage_rule (fun _ => h) fun hin _ _ => ?_
  have hrow := h.rows ⟨fromRoom, n⟩ (by simpa [messageInRoom] using hin)
  cases isCopy with
  | true => exact h.link toRoom hrow
  | false => exact (h.link toRoom hrow).unlink w fromRoom n

/-! ## The row of a list -/

def rowAt (h : Host) (room : Nat) : Option MailList :=
  h.tables.lists.find? fun l => l.roomNum = room

theorem getList_eq (h : Host) (room : Nat) : getList h.tables room = (rowAt h room).map fun l =>
      { l with displayName := displayNameOf h.tables.dir room } := rfl

theorem rowAt_roomNum {h : Host} {l : MailList} (hrow : rowAt h room = some l) :
    l.roomNum = room := by
  simpa using List.find?_some hrow

theorem find?_updateList (lists : List MailList) (room r : Nat) (f : MailList → MailList)
    (hf : ∀ l, (f l).roomNum = l.roomNum) :
    (lists.map fun l => if l.roomNum = r then f l else l).find? (fun l => l.roomNum = room) =
      (lists.find? fun l => l.roomNum = room).map fun l => if room = r then f l else l := by
  induction lists with
  | nil => rfl
  | cons l lists ih =>
    rw [List.map_cons, List.find?_cons, List.find?_cons]
    have hnum : (if l.roomNum = r then f l else l).roomNum = l.roomNum := by
      split
      · exact hf l
      · rfl
    rw [hnum]
    by_cases hl : l.roomNum = room
    · simp [hl]
    · simp [hl, ih]

theorem rowAt_updateList (h : Host) (room r : Nat) (f : MailList → MailList)
    (hf : ∀ l, (f l).roomNum = l.roomNum) (queue : List Queued) :
    rowAt { h with tables := updateList h.tables r f, queue := queue } room =
      (rowAt h room).map fun l => if room = r then f l else l :=
  find?_updateList h.tables.lists room r f hf

/-! ## What a pass does -/

section Pass

variable (c : Tick) (h : Host) (list : MailList) (out : SpoolResult)

@[simp] theorem fanOut_store : (fanOut c h list out).1.store = h.store := by
  simp only [fanOut]
  split <;> rfl

@[simp] theorem fanOut_desk : (fanOut c h list out).1.desk = h.desk := by
  simp only [fanOut]
  split <;> rfl

@[simp] theorem fanOut_queue : (fanOut c h list out).1.queue = h.queue ++ postRows c h list := by
  simp only [fanOut]
  split <;> rfl

@[simp] theorem sendDigest_store : (sendDigest c h list out).1.store = h.store := by
  simp only [sendDigest]
  split
  · split <;> rfl
  · rfl

@[simp] theorem sendDigest_desk : (sendDigest c h list out).1.desk = h.desk := by
  simp only [sendDigest]
  split
  · split <;> rfl
  · rfl

variable {l : MailList}

/-- The fan-out leaves the watermark at the highest number it met. -/
theorem fanOut_rowAt (room : Nat) (hrow : rowAt h list.roomNum = some l)
    (hsent : list.lastSent = l.lastSent) :
    rowAt (fanOut c h list out).1 room =
      if room = list.roomNum then some { l with lastSent := highSent h.store list }
      else rowAt h room := by
  simp only [fanOut]
  by_cases hroom : room = list.roomNum
  · subst hroom
    rw [if_pos rfl]
    split
    · rw [rowAt_updateList]
      · rw [hrow, Option.map_some, if_pos rfl]
      · exact fun _ => rfl
    · next hsame =>
      have hhigh : highSent h.store list = l.lastSent := by
        rw [← hsent]
        exact not_not.mp hsame
      rw [hhigh]
      exact hrow
  · split
    · rw [rowAt_updateList]
      · simp only [if_neg hroom, Option.map_id']
      · exact fun _ => rfl
    · rfl

/-- The digest half moves the digest watermark when it is due and something is pending. -/
theorem sendDigest_rowAt (room : Nat) (hrow : rowAt h list.roomNum = some l) :
    rowAt (sendDigest c h list out).1 room =
      if room = list.roomNum ∧ isDue c list ∧ pending h.store list ≠ [] then
        some { l with lastDigest := (picked h.store list).2, lastDigestAt := c.now }
      else rowAt h room := by
  have hupdate : ∀ queue, rowAt
      { h with
        tables := updateList h.tables list.roomNum fun l =>
          { l with lastDigest := (picked h.store list).2, lastDigestAt := c.now }
        queue := queue } room =
      if room = list.roomNum then
        some { l with lastDigest := (picked h.store list).2, lastDigestAt := c.now }
      else rowAt h room := by
    intro queue
    rw [rowAt_updateList]
    · by_cases hroom : room = list.roomNum
      · subst hroom
        rw [hrow, Option.map_some, if_pos rfl, if_pos rfl]
      · simp [if_neg hroom]
    · exact fun _ => rfl
  simp only [sendDigest]
  split
  · next hworks =>
    have hcond : (room = list.roomNum ∧ isDue c list = true ∧ pending h.store list ≠ []) ↔
        room = list.roomNum := and_iff_left hworks
    simp only [hcond]
    split
    · exact hupdate _
    · exact hupdate h.queue
  · next hidle => rw [if_neg fun hcond => hidle hcond.2]

theorem digestHalf_rowAt (room : Nat) (hrow : rowAt h list.roomNum = some l) :
    rowAt (if sendsDigests list then sendDigest c h list out else (h, out)).1 room =
      if room = list.roomNum then
        some (if sendsDigests list ∧ isDue c list ∧ pending h.store list ≠ [] then
          { l with lastDigest := (picked h.store list).2, lastDigestAt := c.now } else l)
      else rowAt h room := by
  by_cases hdigests : sendsDigests list = true
  · rw [if_pos hdigests, sendDigest_rowAt c h list out room hrow]
    by_cases hroom : room = list.roomNum
    · subst hroom
      simp only [hdigests, true_and, if_true]
      split
      · rfl
      · exact hrow
    · rw [if_neg fun hcond => hroom hcond.1, if_neg hroom]
  · simp only [hdigests, Bool.false_eq_true, false_and, if_false]
    split
    · next heq => rw [heq, hrow]
    · rfl

/-- What a pass makes of the row `l` of a list that it read as `list`. -/
def passed (s : Store) (l : MailList) : MailList :=
  let l' := if sendsPosts list then { l with lastSent := highSent s list } else l
  if sendsDigests list ∧ isDue c list ∧ pending s list ≠ [] then
    { l' with lastDigest := (picked s list).2, lastDigestAt := c.now }
  else l'

theorem halves_rowAt (room : Nat) (hrow : rowAt h list.roomNum = some l)
    (hsent : list.lastSent = l.lastSent) :
    let r := if sendsPosts list then fanOut c h list out else (h, out)
    rowAt (if sendsDigests list then sendDigest c r.1 list r.2 else r).1 room =
      if room = list.roomNum then some (passed c list h.store l) else rowAt h room := by
  simp only [passed]
  by_cases hposts : sendsPosts list = true
  · -- the fan-out comes first and leaves what the digest half reads
    have hrow' := (fanOut_rowAt c h list out list.roomNum hrow hsent).trans (if_pos rfl)
    have hhalf := digestHalf_rowAt c (fanOut c h list out).1 list (fanOut c h list out).2 room hrow'
    rw [fanOut_store, fanOut_rowAt c h list out room hrow hsent] at hhalf
    simp only [hposts, if_true]
    refine Eq.trans hhalf ?_
    split
    · rfl
    · rfl
  · simp only [hposts, Bool.false_eq_true, if_false]
    exact digestHalf_rowAt c h list out room hrow

/-- The row of a list after a pass over it. -/
def stamped (s : Store) (l : MailList) : MailList := if l.enabled then passed c l s l else l

variable (r : Nat)

theorem spoolRoom_rowAt (room : Nat) : rowAt (spoolRoom c h r out).1 room =
      if room = r then (rowAt h r).map (stamped c h.store) else rowAt h room := by
  simp only [spoolRoom, getList_eq]
  cases hrow : rowAt h r with
  | none =>
    simp only [Option.map_none]
    split
    · next heq => rw [heq, hrow]
    · rfl
  | some l =>
    have hnum := rowAt_roomNum hrow
    subst hnum
    simp only [Option.map_some, stamped]
    by_cases henabled : l.enabled = true
    · simp only [henabled, Bool.not_true, Bool.false_eq_true, if_false, if_true]
      exact halves_rowAt c h _ out room hrow rfl
    · simp only [henabled, Bool.not_false, if_true]
      split
      · next heq => rw [heq, hrow]; simp
      · rfl

@[simp] theorem spoolRoom_store : (spoolRoom c h r out).1.store = h.store := by
  simp only [spoolRoom]
  cases getList h.tables r with
  | none => rfl
  | some list =>
    simp only
    split
    · rfl
    · split <;> split <;> simp

@[simp] theorem spoolRoom_desk : (spoolRoom c h r out).1.desk = h.desk := by
  simp only [spoolRoom]
  cases getList h.tables r with
  | none => rfl
  | some list =>
    simp only
    split
    · rfl
    · split <;> split <;> simp

end Pass

/-! ## Copies -/

/-- A copy of the message `n` of the room for the address. -/
def isCopy (room n : Nat) (address : Bytes) (q : Queued) : Bool :=
  match q.copy with
  | .post list msg => list.roomNum = room ∧ msg.msgnum = n ∧ q.rcpt = address
  | .digest _ _ _ => false

def copies (h : Host) (room n : Nat) (address : Bytes) : Nat :=
  h.queue.countP (isCopy room n address)

/-- The addresses of the active subscribers of a kind. -/
def addresses (desk : Desk) (room : Nat) (kind : SubKind) : List Bytes :=
  (recipients desk room kind).map SubRow.address

variable (c : Tick)

theorem count_postRows (h : Host) (list : MailList) (n : Nat) (address : Bytes) :
    (postRows c h list).countP (isCopy list.roomNum n address) =
      ((fresh h.store list).map Message.msgnum).count n *
        (addresses h.desk list.roomNum .post).count address := by
  unfold postRows addresses
  generalize fresh h.store list = msgs
  induction msgs with
  | nil => simp
  | cons msg msgs ih =>
    rw [List.flatMap_cons, List.countP_append, ih, List.map_cons, List.count_cons, Nat.add_mul,
      Nat.add_comm]
    congr 1
    by_cases hn : msg.msgnum = n
    · simp only [hn, isCopy, List.countP_map, List.count, Function.comp_def, BEq.rfl, if_true,
        Nat.one_mul, true_and]
      exact List.countP_congr fun x _ => by simp
    · simp [hn, isCopy]

theorem count_postRows_other (h : Host) (list : MailList)
    (hroom : list.roomNum ≠ room) (n : Nat) (address : Bytes) :
    (postRows c h list).countP (isCopy room n address) = 0 := by
  rw [List.countP_eq_zero]
  intro q hq
  obtain ⟨msg, -, hq⟩ := List.mem_flatMap.mp hq
  obtain ⟨sub, -, rfl⟩ := List.mem_map.mp hq
  simp [isCopy, hroom]

theorem count_digestRows (h : Host) (list : MailList) (room n : Nat)
    (address : Bytes) : (digestRows c h list).countP (isCopy room n address) = 0 := by
  rw [List.countP_eq_zero]
  intro q hq
  obtain ⟨sub, -, rfl⟩ := List.mem_map.mp hq
  simp [isCopy]

theorem copies_sendDigest (h : Host) (list : MailList) (out : SpoolResult)
    (room n : Nat) (address : Bytes) :
    copies (sendDigest c h list out).1 room n address = copies h room n address := by
  simp only [sendDigest]
  split
  · split
    · simp [copies, count_digestRows]
    · rfl
  · rfl

theorem copies_halves (h : Host) (list : MailList) (out : SpoolResult)
    (room n : Nat) (address : Bytes) :
    let r := if sendsPosts list then fanOut c h list out else (h, out)
    copies (if sendsDigests list then sendDigest c r.1 list r.2 else r).1 room n address =
      copies h room n address +
        (if list.roomNum = room ∧ sendsPosts list = true then
          (fresh h.store list).map Message.msgnum
        else []).count n * (addresses h.desk room .post).count address := by
  have hhalf : ∀ r : Host × SpoolResult,
      copies (if sendsDigests list then sendDigest c r.1 list r.2 else r).1 room n address =
        copies r.1 room n address := by
    intro r
    split
    · exact copies_sendDigest c r.1 list r.2 room n address
    · rfl
  simp only [hhalf]
  by_cases hposts : sendsPosts list = true
  · simp only [hposts, if_true, copies, fanOut_queue, List.countP_append, and_true]
    by_cases hroom : list.roomNum = room
    · subst hroom
      rw [count_postRows, if_pos rfl]
    · rw [count_postRows_other c h list hroom, if_neg hroom, List.count_nil, Nat.zero_mul]
  · simp [hposts]

/-- The posts a step sends from the room, by number. -/
def posted (room : Nat) (h : Host) : Action → List Nat
  | .spool _ r =>
    match rowAt h r with
    | some l =>
      if l.enabled ∧ l.roomNum = room ∧ sendsPosts l then (fresh h.store l).map Message.msgnum
      else []
    | none => []
  | _ => []

theorem copies_spoolRoom (h : Host) (r : Nat) (out : SpoolResult) (room n : Nat) (address : Bytes) :
    copies (spoolRoom c h r out).1 room n address =
      copies h room n address +
        (posted room h (.spool c r)).count n * (addresses h.desk room .post).count address := by
  simp only [spoolRoom, getList_eq, posted]
  cases hrow : rowAt h r with
  | none => simp
  | some l =>
    simp only [Option.map_some]
    by_cases henabled : l.enabled = true
    · simp only [henabled, Bool.not_true, Bool.false_eq_true, if_false, true_and]
      exact copies_halves c h _ out room n address
    · simp [henabled]

/-! ## Which numbers a pass reads -/

theorem mem_roomMessagesAfter {mark : Nat} :
    n ∈ roomMessagesAfter s room mark ↔ (⟨room, n⟩ : Pointer) ∈ s.roomMsgs ∧ mark < n := by
  rw [roomMessagesAfter, List.mem_filter, mem_roomMessages, decide_eq_true_eq]
  rfl

theorem ascending_roomMessagesAfter (h : Shelved s) (room mark : Nat) :
    (roomMessagesAfter s room mark).Pairwise (· < ·) := by
  have hnodup : (roomMessages s room).Nodup := by
    unfold roomMessages
    rw [(List.perm_insertionSort _ _).nodup_iff]
    refine (h.key.filter _).map_on ?_
    intro p hp q hq heq
    have hproom := (List.mem_filter.mp hp).2
    have hqroom := (List.mem_filter.mp hq).2
    cases p
    cases q
    simp_all
  have hsorted : (roomMessages s room).Pairwise (· ≤ ·) := List.pairwise_insertionSort ..
  refine ((hsorted.and hnodup).imp ?_).filter _
  exact fun hab => Nat.lt_of_le_of_ne hab.1 hab.2

theorem findRow_of_after (h : Shelved s) {mark : Nat}
    (hn : n ∈ roomMessagesAfter s room mark) : (findRow s n).isSome = true :=
  h.rows _ (mem_roomMessagesAfter.mp hn).1

theorem msgnum_of_load {m : Message} (h : loadMessage s n = some m) : m.msgnum = n := by
  obtain ⟨r, hr, rfl⟩ := Option.map_eq_some_iff.mp h
  exact (findRow_msgnum hr).2

theorem map_msgnum_load (s : Store) (ns : List Nat) :
    (ns.filterMap (loadMessage s)).map Message.msgnum =
      ns.filter fun n => (findRow s n).isSome := by
  induction ns with
  | nil => rfl
  | cons n ns ih =>
    rw [List.filterMap_cons, List.filter_cons]
    cases hload : loadMessage s n with
    | none =>
      have : (findRow s n).isSome = false := by simpa [loadMessage] using hload
      simp [this, ih]
    | some m =>
      have : (findRow s n).isSome = true := by
        obtain ⟨r, hr, -⟩ := Option.map_eq_some_iff.mp hload
        rw [hr]
        rfl
      simp [this, ih, msgnum_of_load hload]

theorem le_foldl_max (a : Nat) (ns : List Nat) : a ≤ ns.foldl max a := by
  induction ns generalizing a with
  | nil => exact Nat.le_refl _
  | cons n ns ih => exact Nat.le_trans (Nat.le_max_left a n) (ih (max a n))

theorem foldl_max_of_mem {ns : List Nat} (hn : n ∈ ns) (a : Nat) : n ≤ ns.foldl max a := by
  induction ns generalizing a with
  | nil => cases hn
  | cons k ns ih =>
    rcases List.mem_cons.mp hn with rfl | hn
    · exact Nat.le_trans (Nat.le_max_right a n) (le_foldl_max _ ns)
    · exact ih hn (max a k)

theorem foldl_max_lt {a bound : Nat} {ns : List Nat} (ha : a < bound)
    (hns : ∀ n ∈ ns, n < bound) : ns.foldl max a < bound := by
  induction ns generalizing a with
  | nil => exact ha
  | cons k ns ih =>
    refine ih ?_ fun n hn => hns n (List.mem_cons_of_mem _ hn)
    exact Nat.max_lt.mpr ⟨ha, hns k List.mem_cons_self⟩

/-! ## What the digest loop picks -/

/-- The loop appends messages of the list in its order, up to the limit, and the watermark
    is the highest of them. -/
theorem pick_spec (s : Store) (k : Int) (ns : List Nat) (msgs : List Message) (high : Nat) :
    ∃ part : List Message,
      pick s k msgs high ns = (msgs ++ part, (part.map Message.msgnum).foldl max high) ∧
        (part.map Message.msgnum).Sublist ns ∧
        (part ≠ [] → ((msgs ++ part).length : Int) ≤ k) := by
  induction ns generalizing msgs high with
  | nil => exact ⟨[], by simp [pick], List.nil_sublist _, by simp⟩
  | cons n ns ih =>
    rw [pick]
    split
    · exact ⟨[], by simp, List.nil_sublist _, by simp⟩
    · next hroom =>
      cases hload : loadMessage s n with
      | none =>
        obtain ⟨part, heq, hsub, hlen⟩ := ih msgs high
        exact ⟨part, heq, hsub.cons _, hlen⟩
      | some m =>
        obtain ⟨part, heq, hsub, hlen⟩ := ih (msgs ++ [m]) (max high n)
        have hnum := msgnum_of_load hload
        refine ⟨m :: part, ?_, ?_, ?_⟩
        · simp only
          rw [heq, List.append_assoc, List.map_cons, List.foldl_cons, hnum]
          rfl
        · rw [List.map_cons, hnum]
          exact hsub.cons_cons _
        · intro _
          by_cases hpart : part = []
          · subst hpart
            simp only [List.length_append, List.length_cons, List.length_nil]
            omega
          · simpa using hlen hpart

/-- Where every message loads, what is left over is left for the limit. -/
theorem pick_rest (k : Int) (ns : List Nat)
    (hload : ∀ n ∈ ns, (findRow s n).isSome = true) (msgs : List Message) (high : Nat) :
    ∃ part rest, pick s k msgs high ns = (msgs ++ part, (part.map Message.msgnum).foldl max high) ∧
      ns = part.map Message.msgnum ++ rest ∧ (rest ≠ [] → k ≤ ((msgs ++ part).length : Int)) := by
  induction ns generalizing msgs high with
  | nil => exact ⟨[], [], by simp [pick], rfl, by simp⟩
  | cons n ns ih =>
    rw [pick]
    split
    · next hfull => exact ⟨[], n :: ns, by simp, rfl, fun _ => by simpa using hfull⟩
    · obtain ⟨r, hr⟩ := Option.isSome_iff_exists.mp (hload n List.mem_cons_self)
      have hmsg : loadMessage s n = some r.msg := by rw [loadMessage, hr]; rfl
      have hnum := msgnum_of_load hmsg
      obtain ⟨part, rest, heq, hns, hlen⟩ :=
        ih (fun k hk => hload k (List.mem_cons_of_mem _ hk)) (msgs ++ [r.msg]) (max high n)
      refine ⟨r.msg :: part, rest, ?_, ?_, ?_⟩
      · rw [hmsg]
        simp only
        rw [heq, List.append_assoc, List.map_cons, List.foldl_cons, hnum]
        rfl
      · rw [List.map_cons, hnum, List.cons_append, ← hns]
      · intro hrest
        simpa using hlen hrest

/-! ## The two readers -/

/-- The digest a step composes for the room, by number; empty where it composes none. -/
def digested (room : Nat) (h : Host) : Action → List Nat
  | .spool c r =>
    match rowAt h r with
    | some l =>
      if l.enabled ∧ l.roomNum = room ∧ sendsDigests l ∧ isDue c l ∧
          recipients h.desk room .digest ≠ [] then
        (picked h.store l).1.map Message.msgnum
      else []
    | none => []
  | _ => []

def shelf (room : Nat) (h : Host) : Set Nat := {n | (⟨room, n⟩ : Pointer) ∈ h.store.roomMsgs}

def lastSentAt (room : Nat) (h : Host) : Nat := (rowAt h room).elim 0 MailList.lastSent

def lastDigestAt (room : Nat) (h : Host) : Nat := (rowAt h room).elim 0 MailList.lastDigest

/-- A pass over the room. -/
def Passes (room : Nat) (a : Action) : Prop := ∃ c, a = .spool c room

/-- A list whose settings are those `SetList` leaves, and the keys of the other tables. -/
structure Listed (kind : MailList → Bool) (room : Nat) (h : Host) : Prop where
  shelved : Shelved h.store
  key : (h.desk.subs.map fun r => (r.roomNum, r.address)).Nodup
  row : ∃ l, rowAt h room = some l ∧ l.enabled = true ∧ 0 < l.digestMax ∧ kind l = true

section Steps

variable {compose : Held → Message} {room : Nat} {h : Host} {a : Action}

theorem start_frame (k : Nat) (job : Job) :
    (h.start k job).tables = h.tables ∧ (h.start k job).desk = h.desk := by
  unfold Host.start
  split
  · exact ⟨rfl, rfl⟩
  · exact ⟨rfl, rfl⟩

/-- Only a pass over the room touches its list. -/
theorem rowAt_act (ha : ¬Passes room a) : rowAt (act compose h a) room = rowAt h room := by
  have hstart : ∀ k job, rowAt (h.start k job) room = rowAt h room := by
    intro k job
    unfold rowAt
    rw [(start_frame k job).1]
  cases a with
  | insert k msg rooms => exact hstart _ _
  | approve k id =>
    simp only [act]
    cases findHeld h id with
    | none => rfl
    | some m => exact hstart _ _
  | delete k r n => exact hstart _ _
  | next k w => rfl
  | stop k => rfl
  | move w fromRoom toRoom n isCopy => rfl
  | hold m => rfl
  | subscriptions desk key => rfl
  | spool c r =>
    have hne : room ≠ r := by
      intro heq
      subst heq
      exact ha ⟨c, rfl⟩
    simp only [act]
    rw [spoolRoom_rowAt, if_neg hne]

variable (c : Tick) (s : Store) (l : MailList)

theorem stamped_frame :
    (stamped c s l).enabled = l.enabled ∧ (stamped c s l).digestMax = l.digestMax ∧
      (stamped c s l).mode = l.mode := by
  unfold stamped passed
  split
  · split <;> split <;> exact ⟨rfl, rfl, rfl⟩
  · exact ⟨rfl, rfl, rfl⟩

theorem rowAt_spool :
    rowAt (act compose h (.spool c room)) room = (rowAt h room).map (stamped c h.store) := by
  simp only [act]
  rw [spoolRoom_rowAt, if_pos rfl]

theorem Shelved.act (hs : Shelved h.store) (a : Action) : Shelved (act compose h a).store := by
  have hstart : ∀ k job, Shelved (h.start k job).store := by
    intro k job
    unfold Host.store
    rw [(start_frame k job).1]
    exact hs
  cases a with
  | insert k msg rooms => exact hstart _ _
  | approve k id =>
    simp only [Listserv.act]
    cases findHeld h id with
    | none => exact hs
    | some m => exact hstart _ _
  | delete k r n => exact hstart _ _
  | next k w => exact hs.advance w _
  | stop k => exact hs
  | move w fromRoom toRoom n isCopy => exact hs.moveMessage w fromRoom toRoom n isCopy
  | hold m => exact hs
  | subscriptions desk key => exact hs
  | spool c r =>
    simp only [Listserv.act, spoolRoom_store]
    exact hs

theorem key_act (hkey : (h.desk.subs.map fun r => (r.roomNum, r.address)).Nodup) (a : Action) :
    ((act compose h a).desk.subs.map fun r => (r.roomNum, r.address)).Nodup := by
  cases a with
  | insert k msg rooms =>
    simp only [act]
    rw [(start_frame k _).2]
    exact hkey
  | approve k id =>
    simp only [act]
    cases findHeld h id with
    | none => exact hkey
    | some m =>
      rw [(start_frame k _).2]
      exact hkey
  | delete k r n =>
    simp only [act]
    rw [(start_frame k _).2]
    exact hkey
  | next k w => exact hkey
  | stop k => exact hkey
  | move w fromRoom toRoom n isCopy => exact hkey
  | hold m => exact hkey
  | subscriptions desk key => exact key
  | spool c r =>
    simp only [act, spoolRoom_desk]
    exact hkey

theorem Listed.act {kind : MailList → Bool} (hmode : ∀ l l', l.mode = l'.mode → kind l = kind l')
    (hl : Listed kind room h) (a : Action) : Listed kind room (act compose h a) := by
  refine ⟨hl.shelved.act a, key_act hl.key a, ?_⟩
  obtain ⟨l, hrow, henabled, hmax, hkind⟩ := hl.row
  by_cases ha : Passes room a
  · obtain ⟨c, rfl⟩ := ha
    obtain ⟨h1, h2, h3⟩ := stamped_frame c h.store l
    refine ⟨stamped c h.store l, by rw [rowAt_spool, hrow]; rfl, by rw [h1, henabled],
      by rw [h2]; exact hmax, ?_⟩
    rw [hmode _ l h3]
    exact hkind
  · exact ⟨l, by rw [rowAt_act ha]; exact hrow, henabled, hmax, hkind⟩

theorem sendsPosts_congr (l' : MailList) (h : l.mode = l'.mode) : sendsPosts l = sendsPosts l' := by
  unfold sendsPosts
  rw [h]

theorem sendsDigests_congr (l' : MailList) (h : l.mode = l'.mode) :
    sendsDigests l = sendsDigests l' := by
  unfold sendsDigests
  rw [h]

theorem posted_other (ha : ¬Passes room a) : posted room h a = [] := by
  cases a with
  | spool c r =>
    simp only [posted]
    cases hrow : rowAt h r with
    | none => rfl
    | some l =>
      simp only
      split
      · next hcond =>
        refine absurd ⟨c, ?_⟩ ha
        rw [← hcond.2.1, rowAt_roomNum hrow]
      · rfl
  | _ => rfl

theorem digested_other (ha : ¬Passes room a) : digested room h a = [] := by
  cases a with
  | spool c r =>
    simp only [digested]
    cases hrow : rowAt h r with
    | none => rfl
    | some l =>
      simp only
      split
      · next hcond =>
        refine absurd ⟨c, ?_⟩ ha
        rw [← hcond.2.1, rowAt_roomNum hrow]
      · rfl
  | _ => rfl

theorem stamped_lastSent : (stamped c s l).lastSent =
      if l.enabled ∧ sendsPosts l then highSent s l else l.lastSent := by
  unfold stamped passed
  by_cases henabled : l.enabled = true
  · by_cases hposts : sendsPosts l = true
    · simp only [henabled, hposts, if_true, true_and]
      split <;> rfl
    · simp only [henabled, hposts, if_true, Bool.false_eq_true, and_false, if_false]
      split <;> rfl
  · simp [henabled]

theorem stamped_lastDigest : (stamped c s l).lastDigest =
      if l.enabled ∧ sendsDigests l ∧ isDue c l ∧ pending s l ≠ [] then (picked s l).2
      else l.lastDigest := by
  unfold stamped passed
  by_cases henabled : l.enabled = true
  · simp only [henabled, if_true, true_and]
    split
    · rfl
    · split <;> rfl
  · simp [henabled]

/-- The numbers a fan-out sends are those past the watermark that load. -/
theorem mem_fresh {s : Store} {l : MailList} {n : Nat} : n ∈ (fresh s l).map Message.msgnum ↔
      n ∈ roomMessagesAfter s l.roomNum l.lastSent ∧ (findRow s n).isSome = true := by
  unfold fresh
  rw [map_msgnum_load, List.mem_filter]

theorem mem_posted {n : Nat} {l : MailList} (hrow : rowAt h room = some l) :
    n ∈ posted room h (.spool c room) ↔
      l.enabled ∧ sendsPosts l ∧ n ∈ (fresh h.store l).map Message.msgnum := by
  simp only [posted, hrow, rowAt_roomNum hrow, true_and]
  split
  · next hcond => simp only [hcond, true_and]
  · next hcond =>
    constructor
    · intro hn
      cases hn
    · intro hn
      exact absurd ⟨hn.1, hn.2.1⟩ hcond

theorem mem_digested {n : Nat} {l : MailList} (hrow : rowAt h room = some l) :
    n ∈ digested room h (.spool c room) ↔
      (l.enabled ∧ sendsDigests l ∧ isDue c l ∧ recipients h.desk room .digest ≠ []) ∧
        n ∈ (picked h.store l).1.map Message.msgnum := by
  simp only [digested, hrow, rowAt_roomNum hrow, true_and]
  split
  · next hcond => simp only [hcond, true_and, ne_eq, not_false_iff]
  · next hcond =>
    constructor
    · intro hn
      cases hn
    · intro hn
      exact absurd hn.1 hcond

theorem picked_spec : (picked s l).2 = ((picked s l).1.map Message.msgnum).foldl max l.lastDigest ∧
      ((picked s l).1.map Message.msgnum).Sublist (pending s l) ∧
        ((picked s l).1 ≠ [] → ((picked s l).1.length : Int) ≤ l.digestMax) := by
  obtain ⟨part, heq, hsub, hlen⟩ := pick_spec s l.digestMax (pending s l) [] l.lastDigest
  rw [picked, heq]
  exact ⟨rfl, hsub, hlen⟩

end Steps

/-- The posts of a list, read through `last_sent`. -/
def postReader (compose : Held → Message) (room : Nat) : Reader Host Action where
  step := act compose
  shelf := shelf room
  mark := lastSentAt room
  pass := Passes room
  takes := posted room
  Inv := Listed sendsPosts room
  inv_step := fun h a => h.act sendsPosts_congr a
  takes_other := fun _ _ ha => posted_other ha
  mark_other := by
    intro h a ha
    unfold lastSentAt
    rw [rowAt_act ha]
  shelf_pass := by
    intro h a ha
    obtain ⟨c, rfl⟩ := ha
    simp only [shelf, act, spoolRoom_store]
  mark_le := by
    intro h a
    unfold lastSentAt
    by_cases ha : Passes room a
    · obtain ⟨c, rfl⟩ := ha
      rw [rowAt_spool]
      cases hrow : rowAt h room with
      | none => exact Nat.le_refl _
      | some l =>
        simp only [Option.map_some, Option.elim_some, stamped_lastSent]
        split
        · exact le_foldl_max _ _
        · exact Nat.le_refl _
    · rw [rowAt_act ha]
  takes_nodup := by
    intro h hl a
    by_cases ha : Passes room a
    · obtain ⟨c, rfl⟩ := ha
      obtain ⟨l, hrow, henabled, -, hposts⟩ := hl.row
      simp only [posted, hrow]
      split
      · unfold fresh
        rw [map_msgnum_load]
        exact ((ascending_roomMessagesAfter hl.shelved _ _).imp Nat.ne_of_lt).filter _
      · exact List.nodup_nil
    · rw [posted_other ha]
      exact List.nodup_nil
  taken := by
    intro h a n hn
    by_cases ha : Passes room a
    · obtain ⟨c, rfl⟩ := ha
      unfold lastSentAt
      rw [rowAt_spool]
      cases hrow : rowAt h room with
      | none => simp [posted, hrow] at hn
      | some l =>
        obtain ⟨henabled, hposts, hfresh⟩ := (mem_posted c hrow).mp hn
        have hafter := (mem_fresh.mp hfresh).1
        obtain ⟨hin, hgt⟩ := mem_roomMessagesAfter.mp hafter
        rw [rowAt_roomNum hrow] at hin
        simp only [Option.map_some, Option.elim_some, stamped_lastSent, henabled, hposts,
          and_self, if_true]
        exact ⟨hin, hgt, foldl_max_of_mem hafter _⟩
    · rw [posted_other ha] at hn
      cases hn

/-- The digests of a list, read through `last_digest`. -/
def digestReader (compose : Held → Message) (room : Nat) : Reader Host Action where
  step := act compose
  shelf := shelf room
  mark := lastDigestAt room
  pass := Passes room
  takes := digested room
  Inv := Listed sendsDigests room
  inv_step := fun h a => h.act sendsDigests_congr a
  takes_other := fun _ _ ha => digested_other ha
  mark_other := by
    intro h a ha
    unfold lastDigestAt
    rw [rowAt_act ha]
  shelf_pass := by
    intro h a ha
    obtain ⟨c, rfl⟩ := ha
    simp only [shelf, act, spoolRoom_store]
  mark_le := by
    intro h a
    unfold lastDigestAt
    by_cases ha : Passes room a
    · obtain ⟨c, rfl⟩ := ha
      rw [rowAt_spool]
      cases hrow : rowAt h room with
      | none => exact Nat.le_refl _
      | some l =>
        simp only [Option.map_some, Option.elim_some, stamped_lastDigest]
        split
        · rw [(picked_spec h.store l).1]
          exact le_foldl_max _ _
        · exact Nat.le_refl _
    · rw [rowAt_act ha]
  takes_nodup := by
    intro h hl a
    by_cases ha : Passes room a
    · obtain ⟨c, rfl⟩ := ha
      obtain ⟨l, hrow, -⟩ := hl.row
      simp only [digested, hrow]
      split
      · exact ((ascending_roomMessagesAfter hl.shelved _ _).imp Nat.ne_of_lt).sublist
          (picked_spec h.store l).2.1
      · exact List.nodup_nil
    · rw [digested_other ha]
      exact List.nodup_nil
  taken := by
    intro h a n hn
    by_cases ha : Passes room a
    · obtain ⟨c, rfl⟩ := ha
      unfold lastDigestAt
      rw [rowAt_spool]
      cases hrow : rowAt h room with
      | none => simp [digested, hrow] at hn
      | some l =>
        obtain ⟨⟨henabled, hdigests, hdue, -⟩, hpicked⟩ := (mem_digested c hrow).mp hn
        obtain ⟨hmark, hsub, -⟩ := picked_spec h.store l
        have hafter := hsub.subset hpicked
        have hpending : pending h.store l ≠ [] := List.ne_nil_of_mem hafter
        obtain ⟨hin, hgt⟩ := mem_roomMessagesAfter.mp hafter
        rw [rowAt_roomNum hrow] at hin
        simp only [Option.map_some, Option.elim_some, stamped_lastDigest, henabled, hdigests,
          hdue, ne_eq, hpending, not_false_iff, and_self, if_true, hmark]
        exact ⟨hin, hgt, foldl_max_of_mem hpicked _⟩
    · rw [digested_other ha] at hn
      cases hn

end QuackMail.Listserv
