import QuackMail.Listserv.Distribution

/-! # Exactly once

Over a whole run, what comes to the room of a list above its watermarks is queued once to
every post subscriber, and rides in one digest.  A message that comes with an older number,
because its transaction commits late or because it is moved in, is never found.
-/

namespace QuackMail.Listserv

open Citadel Watermark

/-! ## What a run should do -/

/-- Every message that a pass finds, after a step of the run put it in the room, is queued
    once to every address that is an active post subscriber at the first such pass. -/
def PostedOnce (compose : Held → Message) (room : Nat) (h : Host) (acts : List Action) : Prop :=
  ∀ before c after, acts = before ++ .spool c room :: after → ∀ n,
    (postReader compose room).Linked h before n → n ∈ shelf room (runAll compose h before) →
      ¬(postReader compose room).Met h before n →
        ∀ address ∈ addresses (runAll compose h before).desk room .post,
          copies (runAll compose h acts) room n address = copies h room n address + 1

/-- The digests of a run, in order. -/
def digestsIn (compose : Held → Message) (room : Nat) : Host → List Action → List (List Nat)
  | _, [] => []
  | h, a :: acts =>
    let rest := digestsIn compose room (act compose h a) acts
    if digested room h a = [] then rest else digested room h a :: rest

/-- The digest of the room is due at the step. -/
def dueAt (room : Nat) (h : Host) : Action → Bool
  | .spool c r =>
    match rowAt h room with
    | some l => r = room && isDue c l
    | none => false
  | _ => false

/-- The passes of a run at which the digest is due. -/
def duePasses (compose : Held → Message) (room : Nat) : Host → List Action → Nat :=
  (digestReader compose room).worked (dueAt room)

/-- Digests are in room order and within the limit, and every message that a pass finds,
    after a step of the run put it in the room, is in one of them once enough passes were
    due. -/
structure DigestedOnce (compose : Held → Message) (room : Nat) (h : Host)
    (acts : List Action) : Prop where
  ordered : ∀ d ∈ digestsIn compose room h acts, d.Pairwise (· < ·)
  bounded : ∀ d ∈ digestsIn compose room h acts, ∀ l, rowAt h room = some l →
    (d.length : Int) ≤ l.digestMax
  atMost : ∀ n, ((digestsIn compose room h acts).filter (n ∈ ·)).length ≤ 1
  once : ∀ before c after, acts = before ++ .spool c room :: after → ∀ n,
    (digestReader compose room).Linked h before n → n ∈ shelf room (runAll compose h before) →
      n ≤ lastDigestAt room (runAll compose h before) +
        duePasses compose room (runAll compose h before) (.spool c room :: after) →
        ((digestsIn compose room h acts).filter (n ∈ ·)).length = 1

/-- What a list promises, by its mode. -/
structure DistributedOnce (compose : Held → Message) (room : Nat) (h : Host)
    (acts : List Action) : Prop where
  posts : ∀ l, rowAt h room = some l → sendsPosts l → PostedOnce compose room h acts
  digests : ∀ l, rowAt h room = some l → sendsDigests l → DigestedOnce compose room h acts

/-- A digest that is due has a subscriber where something is pending. -/
def Subscribed (compose : Held → Message) (room : Nat) (h : Host) (acts : List Action) : Prop :=
  ∀ before c after, acts = before ++ .spool c room :: after → ∀ l,
    rowAt (runAll compose h before) room = some l → isDue c l →
      pending (runAll compose h before).store l ≠ [] →
        recipients (runAll compose h before).desk room .digest ≠ []

/-- Runs in which messages come above the watermarks, or come back after a pass found them;
    and, for the digests, wait for them in the room and have a reader. -/
structure Orderly (compose : Held → Message) (room : Nat) (h : Host)
    (acts : List Action) : Prop where
  posts : ∀ l, rowAt h room = some l → sendsPosts l → (postReader compose room).Ahead h acts
  digests : ∀ l, rowAt h room = some l → sendsDigests l →
    (digestReader compose room).Ahead h acts ∧ (digestReader compose room).Patient h acts ∧
      Subscribed compose room h acts

/-! ## Posts -/

section Posts

variable {compose : Held → Message} {room : Nat} {h : Host}

theorem copies_act (a : Action) (n : Nat) (address : Bytes) :
    copies (act compose h a) room n address =
      copies h room n address +
        (posted room h a).count n * (addresses h.desk room .post).count address := by
  have hstart : ∀ k job, (h.start k job).queue = h.queue := by
    intro k job
    unfold Host.start
    split <;> rfl
  have hquiet : ∀ g : Host, g.queue = h.queue → copies g room n address =
      copies h room n address +
        ([] : List Nat).count n * (addresses h.desk room .post).count address := by
    intro g hg
    rw [List.count_nil, Nat.zero_mul, Nat.add_zero, copies, hg]
    rfl
  cases a with
  | spool c r => exact copies_spoolRoom c h r _ room n address
  | insert k msg rooms => exact hquiet _ (hstart k _)
  | approve k id =>
    refine hquiet _ ?_
    simp only [act]
    cases findHeld h id with
    | none => rfl
    | some m => exact hstart k _
  | delete k r m => exact hquiet _ (hstart k _)
  | next k w => exact hquiet _ rfl
  | stop k => exact hquiet _ rfl
  | move w fromRoom toRoom m isCopy => exact hquiet _ rfl
  | hold m => exact hquiet _ rfl
  | subscriptions desk key => exact hquiet _ rfl

/-- A run that takes no copy of a message queues none. -/
theorem copies_run {acts : List Action} {n : Nat}
    (hn : n ∉ (postReader compose room).takenIn h acts) (address : Bytes) :
    copies (runAll compose h acts) room n address = copies h room n address := by
  induction acts generalizing h with
  | nil => rfl
  | cons a acts ih =>
    rw [Reader.takenIn, List.mem_append, not_or] at hn
    refine (ih hn.2).trans ?_
    refine (copies_act a n address).trans ?_
    have hzero : (posted room h a).count n = 0 := List.count_eq_zero_of_not_mem hn.1
    rw [hzero, Nat.zero_mul, Nat.add_zero]

theorem nodup_addresses (hkey : (h.desk.subs.map fun r => (r.roomNum, r.address)).Nodup)
    (kind : SubKind) : (addresses h.desk room kind).Nodup := by
  have hrows : (h.desk.subs.filter fun r => r.roomNum = room ∧ r.state = .active).Pairwise
      fun r r' => r.address ≠ r'.address := by
    have hpairs := (List.pairwise_map.mp hkey).filter
      fun r => decide (r.roomNum = room ∧ r.state = .active)
    refine hpairs.imp_of_mem ?_
    intro r r' hr hr' hne heq
    have hroom := (of_decide_eq_true (List.mem_filter.mp hr).2).1
    have hroom' := (of_decide_eq_true (List.mem_filter.mp hr').2).1
    exact hne (by rw [hroom, hroom', heq])
  have hnodup := List.pairwise_map.mpr hrows
  have hsorted := (((List.perm_insertionSort (fun a b : SubRow => a.address ≤ b.address)
    (h.desk.subs.filter fun r => r.roomNum = room ∧ r.state = .active)).map
      SubRow.address).nodup_iff).mpr hnodup
  exact hsorted.sublist (List.filter_sublist.map _)

theorem postedOnce {acts : List Action} (hl : Listed sendsPosts room h)
    (hahead : (postReader compose room).Ahead h acts) : PostedOnce compose room h acts := by
  intro before c after heq n hlinked hin hunmet address haddress
  subst heq
  have hthere : Listed sendsPosts room (runAll compose h before) :=
    (postReader compose room).inv_run hl before
  -- the first pass that finds it finds it above the watermark, and sends it
  have habove := (postReader compose room).mark_lt_of_unmet hahead.left hin hlinked hunmet
  have hposted : n ∈ posted room (runAll compose h before) (.spool c room) := by
    obtain ⟨l, hrow, henabled, -, hposts⟩ := hthere.row
    rw [mem_posted c hrow, mem_fresh]
    have hmark : lastSentAt room (runAll compose h before) = l.lastSent := by
      unfold lastSentAt
      rw [hrow]
      rfl
    have hafter : n ∈ roomMessagesAfter (runAll compose h before).store l.roomNum l.lastSent := by
      rw [mem_roomMessagesAfter, rowAt_roomNum hrow, ← hmark]
      exact ⟨hin, habove⟩
    exact ⟨henabled, hposts, hafter, findRow_of_after hthere.shelved hafter⟩
  -- no other pass of the run does
  have hnodup := (postReader compose room).takenIn_nodup hl (before ++ .spool c room :: after)
  rw [Reader.takenIn_append, Reader.takenIn, ← List.append_assoc] at hnodup
  obtain ⟨hfirst, -, hdisjoint⟩ := List.nodup_append'.mp hnodup
  obtain ⟨-, hpassnodup, hdisjoint'⟩ := List.nodup_append'.mp hfirst
  have hearlier : n ∉ (postReader compose room).takenIn h before :=
    fun hbefore => hdisjoint' hbefore hposted
  have hlater : n ∉ (postReader compose room).takenIn
      (act compose (runAll compose h before) (.spool c room)) after :=
    fun hafter => hdisjoint (List.mem_append_right _ hposted) hafter
  have hone : (posted room (runAll compose h before) (.spool c room)).count n = 1 :=
    hpassnodup.count.trans (if_pos hposted)
  have hsub : (addresses (runAll compose h before).desk room .post).count address = 1 := by
    rw [(nodup_addresses hthere.key .post).count, if_pos haddress]
  have hsplit : runAll compose h (before ++ .spool c room :: after) =
      runAll compose (act compose (runAll compose h before) (.spool c room)) after :=
    List.foldl_append ..
  rw [hsplit, copies_run hlater, copies_act, hone, hsub, copies_run hearlier]

end Posts

/-! ## Digests -/

section Digests

variable {compose : Held → Message} {room : Nat} {h : Host}

theorem flatten_digestsIn (acts : List Action) :
    (digestsIn compose room h acts).flatten = (digestReader compose room).takenIn h acts := by
  induction acts generalizing h with
  | nil => rfl
  | cons a acts ih =>
    rw [digestsIn, Reader.takenIn]
    split
    · next hnone =>
      refine (ih (h := act compose h a)).trans ?_
      change _ = digested room h a ++ _
      rw [hnone]
      rfl
    · exact congrArg (digested room h a ++ ·) ih

/-- The number of lists an entry is in, where no list repeats it. -/
theorem length_filter_mem (ds : List (List Nat)) (hds : ∀ d ∈ ds, d.Nodup) (n : Nat) :
    (ds.filter (n ∈ ·)).length = ds.flatten.count n := by
  induction ds with
  | nil => rfl
  | cons d ds ih =>
    have hrest := ih fun e he => hds e (List.mem_cons_of_mem _ he)
    rw [List.flatten_cons, List.count_append, (hds d List.mem_cons_self).count, ← hrest,
      List.filter_cons]
    by_cases hn : n ∈ d
    · simp [hn, Nat.add_comm]
    · simp [hn]

/-- A digest is in room order and within the limit. -/
theorem digested_spec (hl : Listed sendsDigests room h) (a : Action) :
    (digested room h a).Pairwise (· < ·) ∧
      ∀ l, rowAt h room = some l → digested room h a ≠ [] →
        ((digested room h a).length : Int) ≤ l.digestMax := by
  by_cases ha : Passes room a
  · obtain ⟨c, rfl⟩ := ha
    obtain ⟨l, hrow, -⟩ := hl.row
    obtain ⟨-, hsub, hlen⟩ := picked_spec h.store l
    simp only [digested, hrow]
    split
    · refine ⟨(ascending_roomMessagesAfter hl.shelved _ _).sublist hsub, ?_⟩
      intro l' hl' hne
      rw [Option.some.injEq] at hl'
      subst hl'
      rw [List.length_map]
      exact hlen fun hnil => hne (by rw [hnil]; rfl)
    · exact ⟨List.Pairwise.nil, fun _ _ hne => absurd rfl hne⟩
  · rw [digested_other ha]
    exact ⟨List.Pairwise.nil, fun _ _ hne => absurd rfl hne⟩

theorem digestMax_act (compose : Held → Message) (a : Action) {l : MailList}
    (hrow : rowAt h room = some l) :
    ∃ l', rowAt (act compose h a) room = some l' ∧ l'.digestMax = l.digestMax := by
  by_cases ha : Passes room a
  · obtain ⟨c, rfl⟩ := ha
    exact ⟨stamped c h.store l, by rw [rowAt_spool, hrow]; rfl, (stamped_frame c h.store l).2.1⟩
  · exact ⟨l, by rw [rowAt_act ha, hrow], rfl⟩

theorem digestsIn_spec (compose : Held → Message) (acts : List Action)
    (hl : Listed sendsDigests room h) :
    ∀ d ∈ digestsIn compose room h acts,
      d.Pairwise (· < ·) ∧ ∀ l, rowAt h room = some l → (d.length : Int) ≤ l.digestMax := by
  induction acts generalizing h with
  | nil =>
    intro d hd
    cases hd
  | cons a acts ih =>
    have hrest : ∀ d ∈ digestsIn compose room (act compose h a) acts,
        d.Pairwise (· < ·) ∧ ∀ l, rowAt h room = some l → (d.length : Int) ≤ l.digestMax := by
      intro d hd
      obtain ⟨hordered, hbounded⟩ := ih (hl.act sendsDigests_congr a) d hd
      refine ⟨hordered, fun l hrow => ?_⟩
      obtain ⟨l', hrow', hmax⟩ := digestMax_act compose a hrow
      rw [← hmax]
      exact hbounded l' hrow'
    intro d hd
    rw [digestsIn] at hd
    split at hd
    · exact hrest d hd
    · next hne =>
      rcases List.mem_cons.mp hd with rfl | hd
      · obtain ⟨hordered, hbounded⟩ := digested_spec hl a
        exact ⟨hordered, fun l hrow => hbounded l hrow hne⟩
      · exact hrest d hd

/-- A pass that is due and leaves a message leaves it above a higher watermark. -/
theorem fair_digests (acts : List Action) (hl : Listed sendsDigests room h)
    (hsub : Subscribed compose room h acts) :
    (digestReader compose room).Fair (dueAt room) h acts := by
  intro before a after heq ha n hin habove
  obtain ⟨c, rfl⟩ := ha
  have hthere : Listed sendsDigests room (runAll compose h before) :=
    (digestReader compose room).inv_run hl before
  have hreaders := hsub before c after heq
  change n ∈ shelf room (runAll compose h before) at hin
  change lastDigestAt room (runAll compose h before) < n at habove
  change n ∈ digested room (runAll compose h before) (.spool c room) ∨
    lastDigestAt room (act compose (runAll compose h before) (.spool c room)) < n ∧
      (dueAt room (runAll compose h before) (.spool c room) = true →
        lastDigestAt room (runAll compose h before) <
          lastDigestAt room (act compose (runAll compose h before) (.spool c room)))
  generalize runAll compose h before = g at *
  obtain ⟨l, hrow, henabled, hmax, hdigests⟩ := hthere.row
  have hmark : lastDigestAt room g = l.lastDigest := by
    unfold lastDigestAt
    rw [hrow]
    rfl
  have hmark' : lastDigestAt room (act compose g (.spool c room)) =
      (stamped c g.store l).lastDigest := by
    unfold lastDigestAt
    rw [rowAt_spool, hrow]
    rfl
  rw [hmark] at habove
  rw [hmark', hmark, stamped_lastDigest]
  by_cases hdue : isDue c l = true
  · have hpending : n ∈ pending g.store l := by
      rw [pending, mem_roomMessagesAfter, rowAt_roomNum hrow]
      exact ⟨hin, habove⟩
    have hne : pending g.store l ≠ [] := List.ne_nil_of_mem hpending
    rw [if_pos ⟨henabled, hdigests, hdue, hne⟩, mem_digested c hrow]
    have hreader := hreaders l hrow hdue hne
    have hascending : (pending g.store l).Pairwise (· < ·) :=
      ascending_roomMessagesAfter hthere.shelved _ _
    obtain ⟨part, rest, hpick, hsplit, hfull⟩ := pick_rest l.digestMax (pending g.store l)
      (fun k hk => findRow_of_after hthere.shelved hk) [] l.lastDigest
    rw [List.nil_append] at hpick hfull
    have hpicked : picked g.store l = (part, (part.map Message.msgnum).foldl max l.lastDigest) :=
      hpick
    rw [hpicked]
    rw [hsplit] at hpending hascending
    rcases List.mem_append.mp hpending with hn | hn
    · exact .inl ⟨⟨henabled, hdigests, hdue, hreader⟩, hn⟩
    · -- the limit was reached by messages with lower numbers
      right
      have hroom := hfull (List.ne_nil_of_mem hn)
      have hbelow : ∀ k ∈ part.map Message.msgnum, k < n :=
        fun k hk => (List.pairwise_append.mp hascending).2.2 k hk n hn
      refine ⟨foldl_max_lt habove hbelow, fun _ => ?_⟩
      cases part with
      | nil =>
        simp only [List.length_nil] at hroom
        omega
      | cons m part =>
        have hm : m.msgnum ∈ pending g.store l := by
          rw [hsplit]
          simp
        have := (mem_roomMessagesAfter.mp hm).2
        exact Nat.lt_of_lt_of_le this (foldl_max_of_mem (by simp) _)
  · right
    rw [if_neg fun hcond => hdue hcond.2.2.1]
    refine ⟨habove, fun hworks => absurd ?_ hdue⟩
    simpa [dueAt, hrow] using hworks

theorem digestedOnce {acts : List Action} (hl : Listed sendsDigests room h)
    (hahead : (digestReader compose room).Ahead h acts)
    (hpatient : (digestReader compose room).Patient h acts)
    (hsub : Subscribed compose room h acts) : DigestedOnce compose room h acts := by
  have hspec := digestsIn_spec compose acts hl
  have hcount : ∀ n, ((digestsIn compose room h acts).filter (n ∈ ·)).length =
      ((digestReader compose room).takenIn h acts).count n := by
    intro n
    rw [length_filter_mem _ (fun d hd => (hspec d hd).1.imp Nat.ne_of_lt) n, flatten_digestsIn]
  refine ⟨fun d hd => (hspec d hd).1, fun d hd => (hspec d hd).2, ?_, ?_⟩
  · intro n
    rw [hcount]
    exact List.nodup_iff_count_le_one.mp ((digestReader compose room).takenIn_nodup hl acts) n
  · intro before c after heq n hlinked hin henough
    rw [hcount]
    refine (digestReader compose room).count_takenIn hl ?_
    subst heq
    refine Reader.taken_of_worked (dueAt room) hahead hpatient
      (fair_digests _ hl hsub) ?_ ⟨c, rfl⟩ hlinked hin henough
    intro g a hworks
    cases a with
    | spool c r =>
      simp only [dueAt] at hworks
      cases hrow : rowAt g room with
      | none => simp [hrow] at hworks
      | some l =>
        simp only [hrow, Bool.and_eq_true, decide_eq_true_eq] at hworks
        exact ⟨c, by rw [hworks.1]⟩
    | insert k msg rooms => cases hworks
    | approve k id => cases hworks
    | delete k r m => cases hworks
    | next k w => cases hworks
    | stop k => cases hworks
    | move w fromRoom toRoom m isCopy => cases hworks
    | hold m => cases hworks
    | subscriptions desk key => cases hworks

end Digests

/-! ## Runs -/

/-- A list that was just made is in order. -/
theorem listed_setList {h : Host} {list : MailList} {t : Tables} (hshelved : Shelved h.store)
    (hkey : (h.desk.subs.map fun r => (r.roomNum, r.address)).Nodup)
    (hnew : rowAt h list.roomNum = none) (henabled : list.enabled = true)
    (hset : setList h.tables list true = (t, .ok ())) :
    Listed (fun _ => true) list.roomNum { h with tables := t } := by
  have hnone : ∀ l ∈ h.tables.lists, l.roomNum ≠ list.roomNum := by
    intro l hl heq
    have := List.find?_eq_none.mp hnew l hl
    simp [heq] at this
  have hany : (h.tables.lists.any fun l => l.roomNum = (settled h.tables list).roomNum) =
      false := by
    rw [List.any_eq_false]
    intro l hl
    have := hnone l hl
    simp [settled, this]
  unfold setList at hset
  cases hroom : getRoomByNum h.tables.dir.store list.roomNum with
  | none => simp [hroom] at hset
  | some room =>
    simp only [hroom] at hset
    split at hset
    · simp at hset
    · cases hrefusal : listRefusal h.tables (settled h.tables list) with
      | some err => simp [hrefusal] at hset
      | none =>
        simp only [hrefusal, hany, Bool.false_eq_true, if_false, if_true, Prod.mk.injEq,
          and_true] at hset
        subst hset
        refine ⟨hshelved, hkey, ⟨{ settled h.tables list with
          lastSent := room.highestMsg, lastDigest := room.highestMsg, lastDigestAt := 0 },
          ?_, henabled, ?_, rfl⟩⟩
        · unfold rowAt
          rw [List.find?_append]
          have hfind : (h.tables.lists.find? fun l => l.roomNum = list.roomNum) = none := hnew
          rw [hfind]
          simp [settled]
        · simp only [settled]
          split
          · decide
          · next hmax => exact Int.not_le.mp hmax

/-- In an orderly run every post is sent once and every digest carries what it should. -/
theorem distributed_once {compose : Held → Message} {room : Nat} {h : Host} {acts : List Action}
    (hl : Listed (fun _ => true) room h) (ho : Orderly compose room h acts) :
    DistributedOnce compose room h acts := by
  obtain ⟨row, hrow, henabled, hmax, -⟩ := hl.row
  have hmode : ∀ kind : MailList → Bool, ∀ l, rowAt h room = some l → kind l = true →
      Listed kind room h := by
    intro kind l hl' hkind
    rw [hrow, Option.some.injEq] at hl'
    subst hl'
    exact ⟨hl.shelved, hl.key, row, hrow, henabled, hmax, hkind⟩
  constructor
  · intro l hl' hposts
    exact postedOnce (hmode sendsPosts l hl' hposts) (ho.posts l hl' hposts)
  · intro l hl' hdigests
    obtain ⟨hahead, hpatient, hsub⟩ := ho.digests l hl' hdigests
    exact digestedOnce (hmode sendsDigests l hl' hdigests) hahead hpatient hsub

/-- A step of a run in which nothing leaves the room, what comes is above both watermarks,
    and a pass has a digest subscriber. -/
def calmStep (room : Nat) (h h' : Host) : Action → Bool
  | .spool _ r => r ≠ room || recipients h.desk room .digest ≠ []
  | _ =>
    (h.store.roomMsgs.all fun p => p ∈ h'.store.roomMsgs) &&
      h'.store.roomMsgs.all fun p => p.roomNum ≠ room || p ∈ h.store.roomMsgs ||
        (lastSentAt room h < p.msgnum && lastDigestAt room h < p.msgnum)

def calm (compose : Held → Message) (room : Nat) : Host → List Action → Bool
  | _, [] => true
  | h, a :: acts => calmStep room h (act compose h a) a && calm compose room (act compose h a) acts

theorem calm_split {compose : Held → Message} {room : Nat} {h : Host} {before : List Action}
    {a : Action} {after : List Action} (hcalm : calm compose room h (before ++ a :: after) = true) :
    calmStep room (runAll compose h before) (act compose (runAll compose h before) a) a = true := by
  induction before generalizing h with
  | nil =>
    rw [List.nil_append, calm, Bool.and_eq_true] at hcalm
    exact hcalm.1
  | cons b before ih =>
    rw [List.cons_append, calm, Bool.and_eq_true] at hcalm
    exact ih hcalm.2

/-- What a calm step does to the room. -/
theorem calmStep_spec {compose : Held → Message} {room : Nat} {h : Host} {a : Action}
    (hcalm : calmStep room h (act compose h a) a = true) (n : Nat) :
    (n ∈ shelf room h → n ∈ shelf room (act compose h a)) ∧
      (n ∈ shelf room (act compose h a) → n ∉ shelf room h →
        lastSentAt room h < n ∧ lastDigestAt room h < n) := by
  have hother : ((h.store.roomMsgs.all fun p => p ∈ (act compose h a).store.roomMsgs) &&
      (act compose h a).store.roomMsgs.all fun p => p.roomNum ≠ room || p ∈ h.store.roomMsgs ||
        (lastSentAt room h < p.msgnum && lastDigestAt room h < p.msgnum)) = true →
      (n ∈ shelf room h → n ∈ shelf room (act compose h a)) ∧
        (n ∈ shelf room (act compose h a) → n ∉ shelf room h →
          lastSentAt room h < n ∧ lastDigestAt room h < n) := by
    intro hall
    rw [Bool.and_eq_true, List.all_eq_true, List.all_eq_true] at hall
    constructor
    · intro hin
      have hstays : (⟨room, n⟩ : Pointer) ∈ (act compose h a).store.roomMsgs :=
        of_decide_eq_true (hall.1 _ hin)
      exact hstays
    · intro hin hout
      have := hall.2 _ hin
      have hnot : (⟨room, n⟩ : Pointer) ∉ h.store.roomMsgs := hout
      simpa [hnot] using this
  cases a with
  | spool c r =>
    have hsame : shelf room (act compose h (.spool c r)) = shelf room h := by
      simp only [shelf, act, spoolRoom_store]
    rw [hsame]
    exact ⟨id, fun hin hout => absurd hin hout⟩
  | insert k msg rooms => exact hother hcalm
  | approve k id => exact hother hcalm
  | delete k r m => exact hother hcalm
  | next k w => exact hother hcalm
  | stop k => exact hother hcalm
  | move w fromRoom toRoom m isCopy => exact hother hcalm
  | hold m => exact hother hcalm
  | subscriptions desk key => exact hother hcalm

theorem orderly_of_calm {compose : Held → Message} {room : Nat} {h : Host} {acts : List Action}
    (hcalm : calm compose room h acts = true) : Orderly compose room h acts := by
  constructor
  · intro l _ _ before a after heq n hout hin
    subst heq
    exact .inl ((calmStep_spec (calm_split hcalm) n).2 hin hout).1
  · intro l _ _
    refine ⟨?_, ?_, ?_⟩
    · intro before a after heq n hout hin
      subst heq
      exact .inl ((calmStep_spec (calm_split hcalm) n).2 hin hout).2
    · intro before a after heq n _ hin hout
      subst heq
      exact absurd ((calmStep_spec (calm_split hcalm) n).1 hin) hout
    · intro before c after heq l' _ _ _
      subst heq
      simpa [calmStep] using calm_split hcalm

/-! ## A message that is moved in -/

def hostWorld : World := ⟨0, [], [], fun _ => none, fun _ _ => []⟩

def plainRoom (roomNum : Nat) : Room := ⟨roomNum, 0, 0, 0, 0, 0⟩

/-- Two rooms; Ann reads the posts of room 5, and Bob its digests. -/
def emptyHost : Host where
  tables :=
    { dir :=
        { store :=
            { messages := [], roomMsgs := [], tombstones := [],
              rooms := [plainRoom 5, plainRoom 6], seq := 1, config := [], users := [],
              credentials := [], quotas := [] }
          labels := []
          userSeq := 1
          roomSeq := 7 }
      lists := [] }
  jobs := fun _ => ⟨.done, none⟩
  desk :=
    { subs := [⟨5, bytes "ann@x.org", .post, .active, [], 0, 0, 0⟩,
        ⟨5, bytes "bob@x.org", .digest, .active, [], 0, 0, 0⟩]
      outbound := []
      aide := [] }
  held := []
  queue := []

def rawPost (m : Held) : Message := { Message.blank with raw := m.raw }

/-- A session posts into a room. -/
def postInto (room : Nat) : List Action :=
  [.insert 0 .blank [room], .next 0 hostWorld, .next 0 hostWorld]

def newList : MailList :=
  { roomNum := 5, address := bytes "staff", displayName := [], enabled := true, mode := .both,
    postPolicy := .subscribers, replyToList := false, subjectTag := [], footer := [],
    digestIntervalSecs := 86400, digestMax := 50, lastSent := 0, lastDigest := 0,
    lastDigestAt := 0 }

/-- Message 1 is in room 6 and message 2 in room 5, which becomes a list. -/
def listHost : Host :=
  let filed := runAll rawPost emptyHost (postInto 6 ++ postInto 5)
  { filed with tables := (setList filed.tables newList true).1 }

def someTick : Tick := ⟨100, bytes "x.org"⟩

/-- Message 1 is moved into the list, and the spooler passes. -/
def movedIn : List Action := [.move hostWorld 6 5 1 false, .spool someTick 5]

/-- A new post, and the spooler passes. -/
def newPost : List Action := postInto 5 ++ [.spool someTick 5]

theorem listed_listHost : Listed (fun _ => true) 5 listHost := by
  let filed := runAll rawPost emptyHost (postInto 6 ++ postInto 5)
  have hpointers : filed.store.roomMsgs = [⟨6, 1⟩, ⟨5, 2⟩] := by decide +kernel
  have hshelved : Shelved filed.store := by
    refine ⟨by rw [hpointers]; decide, ?_⟩
    decide +kernel
  have hok : (setList filed.tables newList true).2 = .ok () := by decide +kernel
  have hset : setList filed.tables newList true =
      ((setList filed.tables newList true).1, .ok ()) := by
    rw [← hok]
  exact listed_setList hshelved (by decide +kernel) (by decide +kernel) rfl hset

/-- The pass after the move does not find the message. -/
theorem moved_in_post_lost :
    copies (runAll rawPost listHost movedIn) 5 1 (bytes "ann@x.org") = 0 ∧
      ¬∀ compose room h acts, Listed (fun _ => true) room h →
        DistributedOnce compose room h acts := by
  have hnone : copies (runAll rawPost listHost movedIn) 5 1 (bytes "ann@x.org") = 0 := by
    decide +kernel
  refine ⟨hnone, fun hall => ?_⟩
  obtain ⟨l, hrow, -⟩ := listed_listHost.row
  have hposts : sendsPosts l = true := by
    have hmode : ((rowAt listHost 5).all sendsPosts) = true := by decide +kernel
    rw [hrow] at hmode
    exact hmode
  have hlinked : (postReader rawPost 5).Linked listHost [.move hostWorld 6 5 1 false] 1 := by
    refine ⟨[], _, [], rfl, ?_, ?_⟩
    · change (⟨5, 1⟩ : Pointer) ∉ listHost.store.roomMsgs
      decide +kernel
    · change (⟨5, 1⟩ : Pointer) ∈
        (act rawPost listHost (.move hostWorld 6 5 1 false)).store.roomMsgs
      decide +kernel
  have hunmet : ¬(postReader rawPost 5).Met listHost [.move hostWorld 6 5 1 false] 1 := by
    intro ⟨before, a, after, heq, hpass, _⟩
    obtain ⟨c, hc⟩ := hpass
    cases before with
    | nil =>
      obtain ⟨hfirst, -⟩ := List.cons.inj heq
      rw [← hfirst] at hc
      cases hc
    | cons b before =>
      have := congrArg List.length heq
      simp at this
  have hin : 1 ∈ shelf 5 (runAll rawPost listHost [.move hostWorld 6 5 1 false]) := by
    change (⟨5, 1⟩ : Pointer) ∈
      (runAll rawPost listHost [.move hostWorld 6 5 1 false]).store.roomMsgs
    decide +kernel
  have hone := (hall rawPost 5 listHost movedIn listed_listHost).posts l hrow hposts
    [.move hostWorld 6 5 1 false] someTick [] rfl 1 hlinked hin hunmet (bytes "ann@x.org")
    (by decide +kernel)
  rw [hnone] at hone
  simp at hone

/-- A new post is sent once and rides in one digest. -/
theorem new_post_distributed :
    DistributedOnce rawPost 5 listHost newPost ∧
      copies (runAll rawPost listHost newPost) 5 3 (bytes "ann@x.org") = 1 ∧
        digestsIn rawPost 5 listHost newPost = [[3]] := by
  refine ⟨distributed_once listed_listHost (orderly_of_calm ?_), ?_, ?_⟩
  · decide +kernel
  · decide +kernel
  · decide +kernel

end QuackMail.Listserv
