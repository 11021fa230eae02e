import QuackMail.Jmap.EmailSet

/-! # What one step does to a message

A run of requests is a list of steps: store calls, flags set and unset, and the items of
`Email/set`.  `takesOf`, `holdsOf` and `rekeys` say of a step, from the tables before it, which
rooms it takes a message out of, which rooms hold it then, and whether its keywords change for
a user; `step_effect` says that this is what the step does.
-/

namespace QuackMail.Jmap

open Citadel Imap LastWrite

/-! ## Steps -/

/-- A call of the store or of the flags, from anywhere. -/
inductive StoreCall where
  | change (w : World) (change : Citadel.Change)
  | addFlag (msgnum : Nat) (username flag : Bytes)
  | removeFlag (msgnum : Nat) (username flag : Bytes)

inductive Step where
  | call (call : StoreCall)
  | item (c : Ctx) (o : Call) (item : Item)

def stepTables (t : Tables) : Step → Tables
  | .call (.change w change) => t.withStore (changeStep t.store (w, change))
  | .call (.addFlag msgnum username flag) =>
    t.withFlags (addFlag t.server msgnum username flag).flags
  | .call (.removeFlag msgnum username flag) =>
    t.withFlags (removeFlag t.server msgnum username flag).flags
  | .item c o item => itemTables c o t item

inductive Event where
  | call (call : StoreCall)
  | emailSet (account : Bytes) (c : Ctx) (o : Nat → Call) (args : Json)

def eventTables (t : Tables) : Event → Tables
  | .call call => stepTables t (.call call)
  | .emailSet account c o args => (emailSet account c o args t).1

def runEvents (t : Tables) (events : List Event) : Tables := events.foldl eventTables t

/-- The steps of an event: none of a request that is refused. -/
def stepsOfEvent (t : Tables) : Event → List Step
  | .call call => [.call call]
  | .emailSet account c o args =>
    if (setRefusal account c args t).isSome then []
    else (itemsOf args).zipIdx.map (fun item => .item c (o item.2) item.1)

theorem eventTables_eq (t : Tables) (event : Event) :
    eventTables t event = (stepsOfEvent t event).foldl stepTables t := by
  cases event with
  | call call => rfl
  | emailSet account c o args =>
    rw [eventTables, emailSet_tables, stepsOfEvent]
    split
    · rfl
    · rw [List.foldl_map]
      rfl

/-! ## What a step does, from the tables before it -/

/-- Some of the filing steps takes the message out of the room while it is there. -/
def takenOut (fails : Nat → Bool) (n : Nat) : List ((Nat × Bool) × Nat) → Bool → Bool
  | [], _ => false
  | step :: rest, held =>
    if step.1.1 = n ∧ fails step.2 = false then
      held && !step.1.2 || takenOut fails n rest step.1.2
    else takenOut fails n rest held

/-- The rooms a destruction takes the message out of. -/
def destroys (c : Ctx) (o : Call) (t : Tables) (msgnum n : Nat) : Prop :=
  messageInRoom t.store n msgnum = true ∧
    ∃ room ∈ (jmapMailboxes c t).zipIdx, room.1.roomNum = n ∧
      canPost t.realm c.username room.1 = true ∧ o.fails room.2 = false

def takesOf (t : Tables) (n m : Nat) : Step → Prop
  | .call (.change _ (.op (.delete roomNum msgnum))) =>
    n = roomNum ∧ m = msgnum ∧ messageInRoom t.store roomNum msgnum = true
  | .call (.change _ (.op (.move fromRoom toRoom msgnum isCopy))) =>
    n = fromRoom ∧ m = msgnum ∧ isCopy = false ∧ Moves t.store fromRoom toRoom msgnum
  | .call (.change _ (.op (.upsert msg roomNum))) =>
    n = roomNum ∧ messageInRoom t.store n m = true ∧ Replaces t.store msg roomNum m
  | .call (.change w (.op .expire)) =>
    messageInRoom t.store n m = true ∧ Swept n w t.store.rooms t.store m
  | .item c o (.update id patch) =>
    idNum id = some m ∧ (loadEmailFor c t m).isSome = true ∧
      takenOut o.fails n (carriedOut c t m patch) (messageInRoom t.store n m) = true
  | .item c o (.destroy id) =>
    idNum id = some m ∧ (loadEmailFor c t m).isSome = true ∧ destroys c o t m n
  | _ => False

/-- The room holds the message after the step. -/
def holdsOf (t : Tables) (n m : Nat) : Step → Prop
  | .call (.change w (.op (.move fromRoom toRoom msgnum isCopy))) =>
    (messageInRoom t.store n m = true ∨
        n = toRoom ∧ m = msgnum ∧ Moves t.store fromRoom toRoom msgnum) ∧
      ¬takesOf t n m (.call (.change w (.op (.move fromRoom toRoom msgnum isCopy))))
  | .item c o (.update id patch) =>
    if idNum id = some m ∧ (loadEmailFor c t m).isSome = true then
      (last (files o.fails n) (carriedOut c t m patch)).getD (messageInRoom t.store n m) = true
    else messageInRoom t.store n m = true
  | step => messageInRoom t.store n m = true ∧ ¬takesOf t n m step

/-- The keywords the message has for the user change. -/
def rekeys (username : Bytes) (t : Tables) (m : Nat) : Step → Prop
  | .call (.addFlag msgnum user flag) =>
    m = msgnum ∧ user = username ∧ jmapKeywordFor flag ∉ keywordsFor t.server username m
  | .call (.removeFlag msgnum user flag) =>
    m = msgnum ∧ user = username ∧ stores t.server username m flag = true ∧
      ∀ other, jmapKeywordFor other = jmapKeywordFor flag →
        stores t.server username m other = true → other = flag
  | .item c _ (.update id patch) =>
    idNum id = some m ∧ (loadEmailFor c t m).isSome = true ∧ c.username = username ∧
      ¬NothingNew t.server username m (instrs patch)
  | _ => False

/-! ## Effects -/

/-- The step does what `takesOf`, `holdsOf` and `rekeys` tell, or leaves a message where it
    is, as only steps do that leave its keywords or never take it anywhere. -/
structure Effect (username : Bytes) (t : Tables) (step : Step) (takes : Nat → Nat → Prop) :
    Prop where
  does : Does takes t.store (stepTables t step).store
  undisturbed : Undisturbed t (stepTables t step)
  rooms : ∀ m < t.store.seq,
    (∀ n, (takes n m ↔ takesOf t n m step) ∧
      (messageInRoom (stepTables t step).store n m = true ↔ holdsOf t n m step)) ∨
      (¬rekeys username t m step ∨ ∀ n, ¬takesOf t n m step) ∧ ∀ n, ¬takes n m ∧
        (messageInRoom (stepTables t step).store n m = true ↔ messageInRoom t.store n m = true)
  keywords : ∀ m < t.store.seq, ¬rekeys username t m step →
    ∀ k, k ∈ keywordsFor (stepTables t step).server username m ↔
      k ∈ keywordsFor t.server username m

section StoreCalls

variable {username : Bytes} {t : Tables} {E : Nat → Message} {step : Step}
  {takes : Nat → Nat → Prop} {s : Store}

/-- A step that does nothing. -/
theorem Effect.idle (hstep : stepTables t step = t) (hkeys : ∀ m, ¬rekeys username t m step) :
    Effect username t step nothing where
  does := by rw [hstep]; exact .refl t.store
  undisturbed := by rw [hstep]; exact .refl t
  rooms m _ := .inr ⟨.inl (hkeys m), fun n => ⟨id, by rw [hstep]⟩⟩
  keywords m _ _ k := by rw [hstep]

/-- A step that leaves the flags alone. -/
theorem Effect.ofStore (hstep : stepTables t step = t.withStore s) (hdoes : Does takes t.store s)
    (hrooms : ∀ m < t.store.seq,
      (∀ n, (takes n m ↔ takesOf t n m step) ∧ (messageInRoom s n m = true ↔ holdsOf t n m step)) ∨
        (¬rekeys username t m step ∨ ∀ n, ¬takesOf t n m step) ∧
          ∀ n, ¬takes n m ∧ (messageInRoom s n m = true ↔ messageInRoom t.store n m = true)) :
    Effect username t step takes where
  does := by rw [hstep]; exact hdoes
  undisturbed := by rw [hstep]; exact .withStore hdoes.framed
  rooms := by rw [hstep]; exact hrooms
  keywords m _ _ k := by
    have hsame : keywordsFor (t.withStore s).server username m = keywordsFor t.server username m :=
      keywordsFor_congr rfl username m
    rw [hstep, hsame]

/-- A step that changes flags only. -/
theorem Effect.ofFlags {flags : List FlagRow} (hstep : stepTables t step = t.withFlags flags)
    (htakes : ∀ n m, ¬takesOf t n m step)
    (hkeywords : ∀ m < t.store.seq, ¬rekeys username t m step →
      ∀ k, k ∈ keywordsFor (t.withFlags flags).server username m ↔
        k ∈ keywordsFor t.server username m) : Effect username t step nothing where
  does := by rw [hstep]; exact .refl t.store
  undisturbed := by rw [hstep]; exact .withFlags t flags
  rooms m _ := .inr ⟨.inr fun n => htakes n m, fun n => ⟨id, by rw [hstep]; exact Iff.rfl⟩⟩
  keywords := by rw [hstep]; exact hkeywords

theorem effect_op (hok : Ok E t.store) (hkeyed : (roomNums t.store).Nodup) (w : World) (op : Op) :
    ∃ takes, Effect username t (.call (.change w (.op op))) takes := by
  cases op with
  | insert msg rooms =>
    refine ⟨nothing, .ofStore rfl (does_insertMessage hok w msg rooms) fun m hm => ?_⟩
    exact .inr ⟨.inl id, fun n => ⟨id, messageInRoom_insertMessage w t.store msg rooms n hm⟩⟩
  | delete roomNum msgnum =>
    refine ⟨_, .ofStore rfl (does_deleteMessage hok w roomNum msgnum) fun m _ => ?_⟩
    refine .inl fun n => ⟨Iff.rfl, ?_⟩
    refine (messageInRoom_deleteMessage w t.store roomNum msgnum n m).trans ?_
    refine and_congr_right fun hin => not_congr ?_
    constructor
    · rintro ⟨rfl, rfl⟩
      exact ⟨rfl, rfl, hin⟩
    · exact fun h => ⟨h.1, h.2.1⟩
  | move fromRoom toRoom msgnum isCopy =>
    refine ⟨_, .ofStore rfl (does_moveMessage hok w fromRoom toRoom msgnum isCopy) fun m _ => ?_⟩
    exact .inl fun n => ⟨Iff.rfl,
      messageInRoom_moveMessage w t.store fromRoom toRoom msgnum n m isCopy⟩
  | upsert msg roomNum =>
    obtain ⟨takes, honly, hdoes, hmem⟩ := does_upsertByEuid hok w msg roomNum
    refine ⟨takes, .ofStore rfl hdoes fun m hm => ?_⟩
    by_cases htaken : takes roomNum m
    · refine .inl fun n => ?_
      have htakes : takes n m ↔ takesOf t n m (.call (.change w (.op (.upsert msg roomNum)))) := by
        constructor
        · exact honly n m
        · rintro ⟨rfl, -, -⟩
          exact htaken
      exact ⟨htakes, (hmem n m hm).trans (and_congr_right fun _ => not_congr htakes)⟩
    · have hnone : ∀ n, ¬takes n m := by
        intro n h
        obtain ⟨rfl, -, -⟩ := honly n m h
        exact htaken h
      exact .inr ⟨.inl id, fun n => ⟨hnone n, (hmem n m hm).trans (and_iff_left (hnone n))⟩⟩
  | expire =>
    obtain ⟨hdoes, -⟩ := does_runExpiry hok w
    have hmem : ∀ n m, messageInRoom (runExpiry w t.store).1 n m = true ↔
        messageInRoom t.store n m = true ∧ ¬Swept n w t.store.rooms t.store m := by
      intro n m
      have hmembers := runExpiry_members n w hkeyed m
      simpa [messageInRoom, view] using hmembers
    refine ⟨_, .ofStore rfl hdoes fun m _ => .inl fun n => ⟨?_, ?_⟩⟩
    · rw [← Bool.not_eq_true, hmem]
      exact and_congr_right fun hin => by simp [hin]
    · exact (hmem n m).trans (and_congr_right fun hin => by simp [takesOf, hin])

theorem mem_keywordsFor_flags {v : Server} {m : Nat} {k : Bytes} :
    k ∈ keywordsFor v username m ↔ ∃ flag, jmapKeywordFor flag = k ∧ ⟨m, username, flag⟩ ∈ v.flags := by
  rw [mem_keywordsFor]
  simp only [stores, decide_eq_true_eq, mem_loadFlags]

theorem effect_addFlag (msgnum : Nat) (user flag : Bytes) :
    Effect username t (.call (.addFlag msgnum user flag)) nothing := by
  refine .ofFlags rfl (fun _ _ => id) fun m _ hkept k => ?_
  rw [mem_keywordsFor_flags, mem_keywordsFor_flags]
  have hflags : ∀ row, row ∈ (t.withFlags (addFlag t.server msgnum user flag).flags).server.flags ↔
      row ∈ t.server.flags ∨ row = ⟨msgnum, user, flag⟩ := fun row => mem_addFlag
  simp only [hflags, FlagRow.mk.injEq]
  constructor
  · rintro ⟨other, rfl, hold | ⟨rfl, rfl, rfl⟩⟩
    · exact ⟨other, rfl, hold⟩
    · -- the keyword was there in this spelling or another
      simp only [rekeys, true_and, not_not, mem_keywordsFor_flags] at hkept
      exact hkept
  · rintro ⟨other, rfl, hold⟩
    exact ⟨other, rfl, .inl hold⟩

theorem effect_removeFlag (msgnum : Nat) (user flag : Bytes) :
    Effect username t (.call (.removeFlag msgnum user flag)) nothing := by
  refine .ofFlags rfl (fun _ _ => id) fun m _ hkept k => ?_
  rw [mem_keywordsFor_flags, mem_keywordsFor_flags]
  have hflags : ∀ row,
      row ∈ (t.withFlags (removeFlag t.server msgnum user flag).flags).server.flags ↔
        row ∈ t.server.flags ∧ row ≠ ⟨msgnum, user, flag⟩ := by
    intro row
    have hmem : row ∈ t.server.flags.filter (· ≠ ⟨msgnum, user, flag⟩) ↔
        row ∈ t.server.flags ∧ row ≠ ⟨msgnum, user, flag⟩ := by
      rw [List.mem_filter, decide_eq_true_eq]
    exact hmem
  simp only [hflags, ne_eq, FlagRow.mk.injEq]
  constructor
  · rintro ⟨other, rfl, hold, -⟩
    exact ⟨other, rfl, hold⟩
  · rintro ⟨other, rfl, hold⟩
    by_cases hthis : m = msgnum ∧ username = user ∧ other = flag
    swap
    · exact ⟨other, rfl, hold, hthis⟩
    obtain ⟨rfl, rfl, rfl⟩ := hthis
    -- another spelling of the keyword stays
    simp only [rekeys, true_and, stores, decide_eq_true_eq, mem_loadFlags, not_and, not_forall] at hkept
    obtain ⟨spelling, hsame, hstored, hne⟩ := hkept hold
    exact ⟨spelling, hsame, hstored, fun h => hne h.2.2⟩

end StoreCalls

/-! ## Items -/

section Items

variable {username : Bytes} {c : Ctx} {o : Call} {t : Tables} {E : Nat → Message}

variable {msgnum : Nat} {v : Server}

/-- The keywords of another message, or for another user, stay. -/
theorem mem_flags_setKeyword {name : Bytes} {on : Bool} {row : FlagRow}
    (hother : row.msgnum ≠ msgnum ∨ row.username ≠ username) :
    row ∈ (setKeyword v username msgnum name on).flags ↔ row ∈ v.flags := by
  have hne : row ≠ ⟨msgnum, username, storedFlag name⟩ := by
    rintro rfl
    exact hother.elim (fun h => h rfl) fun h => h rfl
  unfold setKeyword
  split
  · rw [mem_addFlag]
    exact or_iff_left hne
  · rw [removeFlag, List.mem_filter, decide_eq_true_eq]
    exact and_iff_left hne

theorem mem_flags_setKeywords {names : List Bytes} {on : Bool}
    {row : FlagRow} (hother : row.msgnum ≠ msgnum ∨ row.username ≠ username) :
    row ∈ (names.foldl (fun v k => setKeyword v username msgnum k on) v).flags ↔ row ∈ v.flags := by
  induction names generalizing v with
  | nil => exact Iff.rfl
  | cons name names ih => rw [List.foldl_cons, ih, mem_flags_setKeyword hother]

theorem mem_flags_runAll {ops : List Instr} {row : FlagRow}
    (hother : row.msgnum ≠ msgnum ∨ row.username ≠ username) :
    row ∈ (runAll username msgnum v ops).flags ↔ row ∈ v.flags := by
  unfold runAll
  induction ops generalizing v with
  | nil => exact Iff.rfl
  | cons op ops ih =>
    rw [List.foldl_cons, ih]
    cases op with
    | clear => exact mem_flags_setKeywords hother
    | set name on => exact mem_flags_setKeyword hother

theorem mem_keywordsFor_congr {v' : Server} {m : Nat}
    (h : ∀ flag, (⟨m, username, flag⟩ : FlagRow) ∈ v'.flags ↔ ⟨m, username, flag⟩ ∈ v.flags)
    (k : Bytes) : k ∈ keywordsFor v' username m ↔ k ∈ keywordsFor v username m := by
  rw [mem_keywordsFor_flags, mem_keywordsFor_flags]
  exact exists_congr fun flag => and_congr_right fun _ => h flag

/-- A creation stores a message under a new number, and sets its keywords. -/
theorem effect_create (hok : Ok E t.store) (key : Bytes) (spec : Json) :
    Effect username t (.item c o (.create key spec)) nothing := by
  have hcases : (createEmail c o spec t).1 = t ∨
      ∃ msg rooms, (createEmail c o spec t).1.store = (insertMessage o.world t.store msg rooms).1 ∧
        Undisturbed (t.withStore (insertMessage o.world t.store msg rooms).1)
          (createEmail c o spec t).1 ∧
        ∀ row : FlagRow, row.msgnum < t.store.seq →
          (row ∈ (createEmail c o spec t).1.flags ↔ row ∈ t.flags) := by
    unfold createEmail
    cases firstMailbox c t (member spec.members (bytes "mailboxIds")).members with
    | none => exact .inl rfl
    | some room =>
      simp only
      split
      · exact .inl rfl
      cases o.raw with
      | none => exact .inl rfl
      | some raw =>
        simp only
        split
        · exact .inl rfl
        refine .inr ⟨createdMessage c t o.world spec room raw, [room.roomNum], ?_⟩
        cases hins : insertMessage o.world t.store (createdMessage c t o.world spec room raw)
            [room.roomNum] with
        | mk s r =>
          cases r with
          | error err => exact ⟨rfl, .refl _, fun _ _ => Iff.rfl⟩
          | ok msgnum =>
            refine ⟨rfl, .withFlags _ _, fun row hrow => ?_⟩
            have hnew : msgnum = t.store.seq := (insertMessage_accepted hins).2.2.1
            exact mem_flags_setKeywords (.inl (hnew ▸ Nat.ne_of_lt hrow))
  cases hcases with
  | inl hsame =>
    have hstep : stepTables t (.item c o (.create key spec)) = t := hsame
    exact .idle hstep fun _ => id
  | inr hstored =>
    obtain ⟨msg, rooms, hstore, hundisturbed, hflags⟩ := hstored
    have hdoes := does_insertMessage hok o.world msg rooms
    refine ⟨?_, ?_, fun m hm => .inr ⟨.inl id, fun n => ⟨id, ?_⟩⟩, fun m hm _ k => ?_⟩
    · have hdoes' := hdoes
      rw [← hstore] at hdoes'
      exact hdoes'
    · exact (Undisturbed.withStore hdoes.framed).trans hundisturbed
    · have hmem := messageInRoom_insertMessage o.world t.store msg rooms n hm
      rw [← hstore] at hmem
      exact hmem
    · exact mem_keywordsFor_congr (fun flag => hflags ⟨m, username, flag⟩ hm) k

/-- Filing steps take the message out of the rooms that `takenOut` tells. -/
theorem does_filed (w : World) (fails : Nat → Bool) (msgnum : Nat)
    (steps : List ((Nat × Bool) × Nat)) {t : Tables} {E : Nat → Message} (hok : Ok E t.store)
    (hrow : ∃ r ∈ t.store.messages, r.msg.msgnum = msgnum) :
    Does (fun n m => m = msgnum ∧
        takenOut fails n steps (messageInRoom t.store n msgnum) = true) t.store
      (steps.foldl (filed w fails msgnum) t).store := by
  induction steps generalizing t E with
  | nil => exact (Does.refl t.store).congr fun n m => by simp [takenOut, nothing]
  | cons step steps ih =>
    obtain ⟨⟨room, b⟩, i⟩ := step
    have hlt : msgnum < t.store.seq := by
      obtain ⟨r, hr, rfl⟩ := hrow
      exact (hok.rows r hr).2
    -- what the first step does
    have hfirst : Does (fun n m => m = msgnum ∧ n = room ∧ fails i = false ∧ b = false ∧
          messageInRoom t.store n msgnum = true) t.store
        (filed w fails msgnum t ((room, b), i)).store ∧
        ∃ r ∈ (filed w fails msgnum t ((room, b), i)).store.messages, r.msg.msgnum = msgnum := by
      unfold filed
      split
      · next hidle =>
        refine ⟨(Does.refl t.store).congr fun n m => iff_of_false id ?_, hrow⟩
        rintro ⟨-, rfl, hsuccess, rfl, hin⟩
        cases hidle with
        | inl hheld => rw [hin] at hheld; cases hheld
        | inr hfails => rw [hsuccess] at hfails; cases hfails
      · next hacts =>
        rw [not_or] at hacts
        cases b with
        | true =>
          refine ⟨(does_link hrow).congr fun n m => iff_of_false id ?_, ?_⟩
          · rintro ⟨-, -, -, hb, -⟩
            cases hb
          · have hmessages := link_messages t.store room msgnum
            rw [← hmessages] at hrow
            exact hrow
        | false =>
          have hin : messageInRoom t.store room msgnum = true := by simpa using hacts.1
          refine ⟨(does_unlink hok w hin).congr fun n m => ?_, hrow⟩
          constructor
          · rintro ⟨rfl, rfl⟩
            exact ⟨rfl, rfl, by simpa using hacts.2, rfl, hin⟩
          · rintro ⟨rfl, rfl, -⟩
            exact ⟨rfl, rfl⟩
    obtain ⟨hdoes, hrow'⟩ := hfirst
    obtain ⟨E', -, hok'⟩ := hdoes.ok E hok
    have hrest := ih hok' hrow'
    refine (hdoes.trans hrest fun n m h => h.1 ▸ hlt).congr fun n m => ?_
    rw [takenOut, messageInRoom_filed, files]
    by_cases hthis : room = n ∧ fails i = false
    · obtain ⟨rfl, hsuccess⟩ := hthis
      rw [if_pos ⟨rfl, hsuccess⟩, if_pos ⟨rfl, hsuccess⟩, Option.getD_some]
      simp only [hsuccess, true_and, Bool.or_eq_true, Bool.and_eq_true, Bool.not_eq_true']
      tauto
    · rw [if_neg hthis, if_neg hthis, Option.getD_none]
      refine or_iff_right ?_
      rintro ⟨-, rfl, hsuccess, -⟩
      exact hthis ⟨rfl, hsuccess⟩

/-- Filing steps leave the other messages where they are. -/
theorem messageInRoom_filed_other {w : World} {fails : Nat → Bool}
    (steps : List ((Nat × Bool) × Nat)) {t : Tables} {n m : Nat} (hother : m ≠ msgnum) :
    messageInRoom (steps.foldl (filed w fails msgnum) t).store n m = true ↔
      messageInRoom t.store n m = true := by
  induction steps generalizing t with
  | nil => exact Iff.rfl
  | cons step steps ih =>
    rw [List.foldl_cons, ih]
    unfold filed
    split
    · exact Iff.rfl
    split
    · simp only [messageInRoom, decide_eq_true_eq]
      refine mem_link.trans (or_iff_left ?_)
      simp [hother]
    · simp only [messageInRoom, decide_eq_true_eq]
      refine mem_unlink.trans (and_iff_left ?_)
      simp [hother]

theorem effect_update (hok : Ok E t.store) (hbig : BigintRooms t) (id : Bytes) (patch : Json) :
    ∃ takes, Effect username t (.item c o (.update id patch)) takes := by
  by_cases hfound : ∃ m, idNum id = some m ∧ (loadEmailFor c t m).isSome = true
  swap
  · -- the id names no message of the user
    have hstep : stepTables t (.item c o (.update id patch)) = t := by
      rw [stepTables, itemTables, updateEmail]
      cases hid : idNum id with
      | none => rfl
      | some m =>
        simp only
        rw [if_pos (by simpa using fun h => hfound ⟨m, hid, h⟩)]
    exact ⟨nothing, .idle hstep fun m h => hfound ⟨m, h.1, h.2.1⟩⟩
  obtain ⟨msgnum, hid, hload⟩ := hfound
  have hstep : stepTables t (.item c o (.update id patch)) =
      (carriedOut c t msgnum patch).foldl (filed o.world o.fails msgnum)
        (t.withFlags (runAll c.username msgnum t.server (instrs patch)).flags) := by
    rw [← (applyEmailPatch_tables c o.world o.fails msgnum patch hbig).1, stepTables, itemTables,
      updateEmail, hid]
    simp only
    rw [if_neg (by simp [hload])]
    split
    · next heq => rw [heq]
    · next heq => rw [heq]
  obtain ⟨n, -, hin⟩ := (loadEmailFor_isSome_iff hok).mp hload
  have hrow := hok.pointers ⟨n, msgnum⟩ (of_decide_eq_true hin)
  have hdoes := does_filed o.world o.fails msgnum (carriedOut c t msgnum patch)
    (t := t.withFlags (runAll c.username msgnum t.server (instrs patch)).flags) hok hrow
  refine ⟨fun n m => m = msgnum ∧ takenOut o.fails n (carriedOut c t msgnum patch)
    (messageInRoom t.store n msgnum) = true, ?_, ?_, fun m hm => ?_, fun m hm hkept => ?_⟩
  · rw [hstep]
    exact hdoes
  · rw [hstep]
    have haccess : SameAccess t ((carriedOut c t msgnum patch).foldl (filed o.world o.fails msgnum)
        (t.withFlags (runAll c.username msgnum t.server (instrs patch)).flags)) :=
      (SameAccess.flags t _).trans (sameAccess_foldl _ _)
    exact ⟨hdoes.framed, haccess.labels, haccess.userSeq, haccess.sqlLower, haccess.acl, haccess.levels,
      haccess.unlocked, haccess.zapped⟩
  · rw [hstep]
    by_cases hthis : m = msgnum
    · subst hthis
      refine .inl fun n => ⟨?_, ?_⟩
      · simp only [takesOf, hid, hload, true_and]
      · rw [messageInRoom_foldl]
        simp only [holdsOf, hid, hload, and_self, if_true]
        rfl
    · have hother : ¬rekeys username t m (.item c o (.update id patch)) := by
        rintro ⟨hid', -⟩
        exact hthis (Option.some.inj (hid'.symm.trans hid))
      exact .inr ⟨.inl hother, fun n => ⟨fun h => hthis h.1, messageInRoom_filed_other _ hthis⟩⟩
  · rw [hstep]
    have hflags : ((carriedOut c t msgnum patch).foldl (filed o.world o.fails msgnum)
        (t.withFlags (runAll c.username msgnum t.server (instrs patch)).flags)).server.flags =
          (runAll c.username msgnum t.server (instrs patch)).flags := flags_foldl _ _
    have hwrites := keywordsFor_congr (v := runAll c.username msgnum t.server (instrs patch)) hflags
      username m
    rw [hwrites]
    by_cases hthis : m = msgnum ∧ username = c.username
    · obtain ⟨rfl, rfl⟩ := hthis
      simp only [rekeys, hid, hload, true_and, not_not] at hkept
      exact unchanged_iff.mpr hkept
    · refine mem_keywordsFor_congr fun flag => mem_flags_runAll ?_
      rw [not_and_or] at hthis
      exact hthis

/-- The loop of a destruction deletes the message from the rooms that `destroys` tells. -/
theorem unlinkAll_spec (c : Ctx) (o : Call) (msgnum : Nat) (rooms : List (Room × Nat)) {t : Tables}
    (any : Bool) {E : Nat → Message} (hok : Ok E t.store) :
    let t' := (unlinkAll c o msgnum rooms t any).1
    let takes := fun n m => m = msgnum ∧ messageInRoom t.store n msgnum = true ∧
      ∃ room ∈ rooms, room.1.roomNum = n ∧ canPost t.realm c.username room.1 = true ∧
        o.fails room.2 = false
    Does takes t.store t'.store ∧ SameAccess t t' ∧ t'.flags = t.flags ∧
      ∀ n m, messageInRoom t'.store n m = true ↔ messageInRoom t.store n m = true ∧ ¬takes n m := by
  induction rooms generalizing t any E with
  | nil =>
    refine ⟨(Does.refl t.store).congr fun n m => by simp [nothing], .refl t, rfl, fun n m => ?_⟩
    simp [unlinkAll]
  | cons room rest ih =>
    obtain ⟨room, i⟩ := room
    by_cases hacts : messageInRoom t.store room.roomNum msgnum = true ∧
        canPost t.realm c.username room = true ∧ o.fails i = false
    swap
    · -- nothing is deleted from this room
      have hskip : unlinkAll c o msgnum ((room, i) :: rest) t any =
          unlinkAll c o msgnum rest t any := by
        rw [unlinkAll]
        split
        · rfl
        split
        · rfl
        split
        · rfl
        · next hin hpost hsuccess =>
          exact absurd ⟨by simpa using hin, by simpa using hpost, by simpa using hsuccess⟩ hacts
      have htakes : ∀ n m, (m = msgnum ∧ messageInRoom t.store n msgnum = true ∧
            ∃ r ∈ rest, r.1.roomNum = n ∧ canPost t.realm c.username r.1 = true ∧
              o.fails r.2 = false) ↔
          m = msgnum ∧ messageInRoom t.store n msgnum = true ∧
            ∃ r ∈ (room, i) :: rest, r.1.roomNum = n ∧ canPost t.realm c.username r.1 = true ∧
              o.fails r.2 = false := by
        intro n m
        refine and_congr_right fun _ => and_congr_right fun hin => ?_
        rw [List.exists_mem_cons_iff]
        refine (or_iff_right ?_).symm
        rintro ⟨rfl, hpost, hsuccess⟩
        exact hacts ⟨hin, hpost, hsuccess⟩
      obtain ⟨hdoes, hrest⟩ := ih any hok
      rw [hskip]
      refine ⟨hdoes.congr htakes, ?_⟩
      simp only [htakes] at hrest
      exact hrest
    obtain ⟨hin, hpost, hsuccess⟩ := hacts
    have hdelete : (deleteMessage o.world t.store room.roomNum msgnum).1 =
        unlink o.world t.store room.roomNum msgnum := by rw [deleteMessage, if_pos hin]
    have hfirst : unlinkAll c o msgnum ((room, i) :: rest) t any =
        unlinkAll c o msgnum rest
          (t.withStore (unlink o.world t.store room.roomNum msgnum)) true := by
      rw [unlinkAll, if_neg (by simp [hin]), if_neg (by simp [hpost]), if_neg (by simp [hsuccess]),
        ← hdelete]
    have haccess : SameAccess t (t.withStore (unlink o.world t.store room.roomNum msgnum)) :=
      .unlink o.world t _ _
    have hdoes := does_unlink hok o.world hin
    obtain ⟨E', -, hok'⟩ := hdoes.ok E hok
    obtain ⟨hrest, haccess', hflags, hmem⟩ := ih true
      (t := t.withStore (unlink o.world t.store room.roomNum msgnum)) hok'
    have hgone : ∀ n m, messageInRoom
        (t.withStore (unlink o.world t.store room.roomNum msgnum)).store n m = true ↔
          messageInRoom t.store n m = true ∧ ¬(n = room.roomNum ∧ m = msgnum) := by
      intro n m
      have hdeleted := messageInRoom_deleteMessage o.world t.store room.roomNum msgnum n m
      rw [hdelete] at hdeleted
      exact hdeleted
    have hposts : ∀ r : Room, canPost
        (t.withStore (unlink o.world t.store room.roomNum msgnum)).realm c.username r =
          canPost t.realm c.username r := fun r => canPost_congr haccess rfl c.username
    have htakes : ∀ n m, ((n = room.roomNum ∧ m = msgnum) ∨ m = msgnum ∧
          messageInRoom (t.withStore (unlink o.world t.store room.roomNum msgnum)).store n
            msgnum = true ∧
          ∃ r ∈ rest, r.1.roomNum = n ∧ canPost
            (t.withStore (unlink o.world t.store room.roomNum msgnum)).realm c.username r.1 = true ∧
              o.fails r.2 = false) ↔
        m = msgnum ∧ messageInRoom t.store n msgnum = true ∧
          ∃ r ∈ (room, i) :: rest, r.1.roomNum = n ∧ canPost t.realm c.username r.1 = true ∧
            o.fails r.2 = false := by
      intro n m
      simp only [hgone, hposts, List.exists_mem_cons_iff]
      constructor
      · rintro (⟨rfl, rfl⟩ | ⟨rfl, ⟨hheld, -⟩, hother⟩)
        · exact ⟨rfl, hin, .inl ⟨rfl, hpost, hsuccess⟩⟩
        · exact ⟨rfl, hheld, .inr hother⟩
      · rintro ⟨rfl, hheld, ⟨rfl, -, -⟩ | hother⟩
        · exact .inl ⟨rfl, rfl⟩
        · by_cases hthis : n = room.roomNum
          · exact .inl ⟨hthis, rfl⟩
          · exact .inr ⟨rfl, ⟨hheld, fun h => hthis h.1⟩, hother⟩
    rw [hfirst]
    refine ⟨(hdoes.trans hrest ?_).congr htakes, haccess.trans haccess', hflags, fun n m => ?_⟩
    · rintro n m ⟨rfl, -, -⟩
      exact pointer_lt hok hin
    · rw [hmem, hgone, and_assoc, ← not_or]
      exact and_congr_right fun _ => not_congr (htakes n m)

theorem effect_destroy (hok : Ok E t.store) (id : Bytes) :
    ∃ takes, Effect username t (.item c o (.destroy id)) takes := by
  by_cases hfound : ∃ m, idNum id = some m ∧ (loadEmailFor c t m).isSome = true
  swap
  · have hstep : stepTables t (.item c o (.destroy id)) = t := by
      rw [stepTables, itemTables, destroyEmail]
      cases hid : idNum id with
      | none => rfl
      | some m =>
        simp only
        rw [if_pos (by simpa using fun h => hfound ⟨m, hid, h⟩)]
    exact ⟨nothing, .idle hstep fun _ => False.elim⟩
  obtain ⟨msgnum, hid, hload⟩ := hfound
  have hstep : stepTables t (.item c o (.destroy id)) =
      (unlinkAll c o msgnum (jmapMailboxes c t).zipIdx t false).1 := by
    rw [stepTables, itemTables, destroyEmail, hid]
    simp only
    rw [if_neg (by simp [hload])]
    obtain ⟨t', any⟩ := unlinkAll c o msgnum (jmapMailboxes c t).zipIdx t false
    cases any with
    | true => rfl
    | false => rfl
  obtain ⟨hdoes, haccess, hflags, hmem⟩ := unlinkAll_spec c o msgnum
    (jmapMailboxes c t).zipIdx false hok
  have htakes : ∀ n m, (m = msgnum ∧ messageInRoom t.store n msgnum = true ∧
        ∃ room ∈ (jmapMailboxes c t).zipIdx, room.1.roomNum = n ∧
          canPost t.realm c.username room.1 = true ∧ o.fails room.2 = false) ↔
      takesOf t n m (.item c o (.destroy id)) := by
    intro n m
    simp only [takesOf, destroys, hid, Option.some.injEq]
    constructor
    · rintro ⟨rfl, hrest⟩
      exact ⟨rfl, hload, hrest⟩
    · rintro ⟨rfl, -, hrest⟩
      exact ⟨rfl, hrest⟩
  refine ⟨_, ?_, ?_, fun m hm => .inl fun n => ⟨htakes n m, ?_⟩, fun m hm hkept k => ?_⟩
  · rw [hstep]
    exact hdoes
  · rw [hstep]
    exact ⟨hdoes.framed, haccess.labels, haccess.userSeq, haccess.sqlLower, haccess.acl, haccess.levels,
      haccess.unlocked, haccess.zapped⟩
  · rw [hstep]
    exact (hmem n m).trans (and_congr_right fun _ => not_congr (htakes n m))
  · rw [hstep, keywordsFor_congr (v := t.server) hflags]

end Items

/-- Every step that prunes nothing. -/
theorem step_effect (username : Bytes) {t : Tables} {E : Nat → Message} (hok : Ok E t.store)
    (hkeyed : (roomNums t.store).Nodup) (hbig : BigintRooms t) {step : Step}
    (hprune : ∀ w age, step ≠ .call (.change w (.prune age))) :
    ∃ takes, Effect username t step takes := by
  cases step with
  | call call =>
    cases call with
    | change w change =>
      cases change with
      | op op => exact effect_op hok hkeyed w op
      | prune age => exact absurd rfl (hprune w age)
    | addFlag msgnum user flag => exact ⟨nothing, effect_addFlag msgnum user flag⟩
    | removeFlag msgnum user flag => exact ⟨nothing, effect_removeFlag msgnum user flag⟩
  | item c o item =>
    cases item with
    | create key spec => exact ⟨nothing, effect_create hok key spec⟩
    | update id patch => exact effect_update hok hbig id patch
    | destroy id => exact effect_destroy hok id

end QuackMail.Jmap
