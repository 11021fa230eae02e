import QuackMail.Store.Invariant
import QuackMail.Store.Rooms

/-! # Local delivery

`LocalDeliver` of `delivery.cpp`.  A turn is what the loop does for one recipient: it asks
for rooms, enqueues redirects and puts the rest off.  Then the message is inserted once,
into every room that was found, and what was put off is done if it was stored.
-/

namespace QuackMail.Delivery

open Citadel

/-! ## Sieve results -/

/-- `sieve::Action`, with what a delivery reads of it. -/
inductive Action where
  | keep (flags : List Bytes)
  | fileinto (folder : Bytes) (flags : List Bytes)
  | redirect (address : Bytes)
  | reject (reason : Bytes)
  | discard
  | vacation (reason : Bytes)
  deriving DecidableEq

structure Result where
  actions : List Action
  error : Bytes

def Action.isReject : Action → Bool
  | .reject _ => true
  | _ => false

/-- KEEP, FILEINTO and REDIRECT. -/
def Action.delivers : Action → Bool
  | .keep _ => true
  | .fileinto _ _ => true
  | .redirect _ => true
  | _ => false

def Result.isDiscard (r : Result) : Bool := decide (r.actions = [.discard])

/-- `RejectReason`: `""` where the script did not reject. -/
def Result.rejectReason (r : Result) : Bytes :=
  match r.actions.find? Action.isReject with
  | some (.reject reason) =>
    if reason = [] then bytes "message refused by the recipient's filter" else reason
  | _ => []

structure Envelope where
  mailFrom : Bytes
  rcptTo : Bytes
  separator : Bytes

/-- `mime::ParsedMessage`. -/
structure Parsed where
  sender : Bytes
  subject : Bytes
  messageId : Bytes
  headers : List (Bytes × Bytes)

/-- What a delivery takes from outside its own file: the MIME functions, the parser and the
    runner of Sieve scripts, and the statements that fail.  `roomFails i j c` is the call
    `c` for a room that action `j` of recipient `i` makes. -/
structure Outside where
  world : World
  parse : Bytes → Parsed
  /-- the actions of the script and whether it cancels the implicit keep -/
  interpret : Bytes → Parsed → Bytes → Envelope → Except Bytes (List Action × Bool)
  /-- the display name, or else the address, of the first address of a list -/
  firstAddress : Bytes → Bytes
  decodeEncodedWords : Bytes → Bytes
  parseDate : Bytes → Option Int
  /-- the calendar part of a message and its method -/
  calendarPart : Bytes → Bytes × Bytes
  roomFails : Nat → Nat → Nat → Bool
  enqueueFails : Nat → Nat → Bool

/-- `Trim` of `sieve.cpp`. -/
def trim (s : Bytes) : Bytes :=
  trimBy (fun c => c == ch ' ' || c == ch '\t' || c == ch '\r' || c == ch '\n') s

/-- `sieve::Evaluate`. -/
def evaluate (o : Outside) (script : Bytes) (msg : Parsed) (raw : Bytes) (env : Envelope) : Result :=
  if trim script = [] then ⟨[.keep []], []⟩
  else
    match o.interpret script msg raw env with
    | .error err => ⟨[.keep []], err⟩
    | .ok (actions, cancelImplicitKeep) =>
      match actions.find? Action.isReject with
      | some only => ⟨[only], []⟩
      | none =>
        if !cancelImplicitKeep then ⟨actions ++ [.keep []], []⟩
        else if actions = [] then ⟨[.discard], []⟩
        else ⟨actions, []⟩

/-! ## The state of a delivery -/

/-- A row of `quackmail_outbound`. -/
structure Outbound where
  fromAddr : Bytes
  rcpt : Bytes
  raw : Bytes
  deriving DecidableEq

/-- A call of `SendVacation`. -/
structure Reply where
  user : Bytes
  rcpt : Bytes
  sender : Bytes
  reason : Bytes

/-- The tables a delivery works on, and the replies and scheduling it starts. -/
structure Site where
  dir : Directory
  /-- the active scripts, by user -/
  scripts : List (Bytes × Bytes)
  outbound : List Outbound
  flags : List (Nat × Bytes × Bytes)
  replies : List Reply
  /-- the calls of `itip::Receive`: user, calendar and method -/
  scheduled : List (Bytes × Bytes × Bytes)

structure Options where
  folderOverride : Bytes
  extraRooms : List Int
  subaddress : List (Bytes × Bytes)
  subaddressSep : Bytes
  subaddressCreate : Bool

structure Outcome where
  ok : Bool
  err : Bytes
  /-- `none` for -1 -/
  msgnum : Option Nat
  rejected : List (Bytes × Bytes)
  discarded : List Bytes
  overQuota : List Bytes

def localPart (addr : Bytes) : Bytes := addr.takeWhile (· ≠ ch '@')

/-- The first header of that name, in any case. -/
def headerValue (parsed : Parsed) (name : Bytes) : Bytes :=
  match parsed.headers.find? (fun h => upper h.1 = upper name) with
  | some h => h.2
  | none => []

/-- `quota::WouldExceed`; without a limit nothing is summed up, and nobody is numbered. -/
def wouldExceed (d : Directory) (username : Bytes) (extraBytes : Int) : Directory × Bool :=
  if limitBytes d.store username > 0 then
    let d' := (getOrAssignUserNum d username).1
    (d', Citadel.wouldExceed d'.store username extraBytes)
  else (d, false)

def loadActiveScript (site : Site) (username : Bytes) : Bytes :=
  match site.scripts.find? (fun s => s.1 = username) with
  | some s => s.2
  | none => []

/-- The last detail given for the recipient. -/
def detailOf (opts : Options) (rcpt : Bytes) : Bytes :=
  opts.subaddress.foldl (fun detail e => if e.1 = rcpt then e.2 else detail) []

/-- A call for a room, -1 where a statement of it fails. -/
def callRoom (fails : Bool) (d : Directory) (call : Directory → Directory × Int) :
    Directory × Int :=
  if fails then (d, -1) else call d

/-- `detail_room`. -/
def detailRoom (fails : Bool) (opts : Options) (user detail : Bytes) (d : Directory) :
    Directory × Int :=
  if detail = [] then (d, -1)
  else
    callRoom fails d fun d =>
      if opts.subaddressCreate then getOrCreateUserRoom d user detail
      else findUserRoom d user detail

/-- A keep honours the subaddress and falls back to the inbox. -/
def keepRoom (o : Outside) (opts : Options) (i j : Nat) (user detail : Bytes) (d : Directory) :
    Directory × Int :=
  let sub := detailRoom (o.roomFails i j 0) opts user detail d
  if sub.2 ≥ 0 then sub
  else callRoom (o.roomFails i j 1) sub.1 fun d => getOrCreateMailRoom d user

/-- What an action of a recipient came to. -/
inductive Step where
  | room (roomNum : Int) (flags : List Bytes)
  | redirect (address : Bytes) (queued : Bool)
  | vacation (reason : Bytes)
  | nothing
  deriving DecidableEq

def enqueueOutbound (fails : Bool) (site : Site) (row : Outbound) : Site :=
  if fails then site else { site with outbound := site.outbound ++ [row] }

/-- Action `j` of recipient `i`. -/
def perform (o : Outside) (opts : Options) (mailFrom body : Bytes) (i j : Nat)
    (user detail : Bytes) (site : Site) : Action → Site × Step
  | .keep flags =>
    let r := keepRoom o opts i j user detail site.dir
    ({ site with dir := r.1 }, .room r.2 flags)
  | .fileinto folder flags =>
    let r := callRoom (o.roomFails i j 1) site.dir fun d =>
      getOrCreateUserRoom d user (if folder = [] then bytes "Mail" else folder)
    ({ site with dir := r.1 }, .room r.2 flags)
  | .redirect address =>
    if address = [] then (site, .nothing)
    else
      (enqueueOutbound (o.enqueueFails i j) site ⟨mailFrom, address, body⟩,
        .redirect address !o.enqueueFails i j)
  | .vacation reason => (site, .vacation reason)
  | .discard => (site, .nothing)
  | .reject _ => (site, .nothing)

def performAll (o : Outside) (opts : Options) (mailFrom body : Bytes) (i : Nat)
    (user detail : Bytes) : Nat → Site → List Action → Site × List Step
  | _, site, [] => (site, [])
  | j, site, a :: actions =>
    let first := perform o opts mailFrom body i j user detail site a
    let rest := performAll o opts mailFrom body i user detail (j + 1) first.1 actions
    (rest.1, first.2 :: rest.2)

inductive Verdict where
  | overQuota
  | rejected (reason : Bytes)
  | discarded
  | kept (steps : List Step)
  deriving DecidableEq

structure Turn where
  rcpt : Bytes
  verdict : Verdict

/-- The result of the recipient's filter, `none` where it is not run. -/
def filterResult (o : Outside) (opts : Options) (mailFrom body : Bytes) (site : Site)
    (rcpt : Bytes) : Option Result :=
  let script := loadActiveScript site (localPart rcpt)
  if opts.folderOverride ≠ [] ∨ script = [] then none
  else some (evaluate o script (o.parse body) body ⟨mailFrom, rcpt, opts.subaddressSep⟩)

/-- The body of the loop, for recipient `i`. -/
def turn (o : Outside) (opts : Options) (mailFrom body : Bytes) (i : Nat) (site : Site)
    (rcpt : Bytes) : Site × Turn :=
  let user := localPart rcpt
  let quota := wouldExceed site.dir user body.length
  let site := { site with dir := quota.1 }
  if quota.2 then (site, ⟨rcpt, .overQuota⟩)
  else if opts.folderOverride ≠ [] then
    let r := callRoom (o.roomFails i 0 1) site.dir fun d =>
      getOrCreateUserRoom d user opts.folderOverride
    ({ site with dir := r.1 }, ⟨rcpt, .kept [.room r.2 []]⟩)
  else
    match filterResult o opts mailFrom body site rcpt with
    | none =>
      let r := keepRoom o opts i 0 user (detailOf opts rcpt) site.dir
      ({ site with dir := r.1 }, ⟨rcpt, .kept [.room r.2 []]⟩)
    | some result =>
      if result.rejectReason ≠ [] then (site, ⟨rcpt, .rejected result.rejectReason⟩)
      else if result.isDiscard then (site, ⟨rcpt, .discarded⟩)
      else
        let r := performAll o opts mailFrom body i user (detailOf opts rcpt) 0 site result.actions
        (r.1, ⟨rcpt, .kept r.2⟩)

def turns (o : Outside) (opts : Options) (mailFrom body : Bytes) :
    Nat → Site → List Bytes → Site × List Turn
  | _, site, [] => (site, [])
  | i, site, rcpt :: rcpts =>
    let first := turn o opts mailFrom body i site rcpt
    let rest := turns o opts mailFrom body (i + 1) first.1 rcpts
    (rest.1, first.2 :: rest.2)

/-! ## What the loop leaves for later -/

def Turn.steps (t : Turn) : List Step :=
  match t.verdict with
  | .kept steps => steps
  | _ => []

/-- What the calls for rooms answered, -1 included. -/
def Turn.rooms (t : Turn) : List Int :=
  t.steps.filterMap fun
    | .room roomNum _ => some roomNum
    | _ => none

def Turn.flags (t : Turn) : List Bytes :=
  t.steps.flatMap fun
    | .room _ flags => flags
    | _ => []

def Turn.kept (t : Turn) : Bool :=
  match t.verdict with
  | .kept _ => true
  | _ => false

/-- `add_room` of every room in turn: negative ones are dropped, and each counts once. -/
def roomsOf (opts : Options) (ts : List Turn) : List Nat :=
  (((opts.extraRooms ++ ts.flatMap Turn.rooms).filter (0 ≤ ·)).map Int.toNat).eraseDups

def outcomeOf (ts : List Turn) : Outcome where
  ok := true
  err := []
  msgnum := none
  rejected := ts.filterMap fun t =>
    match t.verdict with
    | .rejected reason => some (t.rcpt, reason)
    | _ => none
  discarded := (ts.filter fun t => t.verdict = .discarded).map Turn.rcpt
  overQuota := (ts.filter fun t => t.verdict = .overQuota).map Turn.rcpt

/-- The message that is stored. -/
def compose (o : Outside) (mailFrom body : Bytes) (rcpts : List Bytes) : Message :=
  let parsed := o.parse body
  let author := if parsed.sender = [] then [] else o.firstAddress parsed.sender
  { Message.blank with
    author := if author = [] then mailFrom else author
    recipient := rcpts.intersperse (bytes ", ") |>.flatten
    subject := o.decodeEncodedWords parsed.subject
    euid := parsed.messageId
    references := headerValue parsed (bytes "References")
    formatType := 4
    raw := body
    msgtime := (o.parseDate (headerValue parsed (bytes "Date"))).getD o.world.now }

def sendVacations (mailFrom : Bytes) (ts : List Turn) (site : Site) : Site :=
  { site with replies := site.replies ++ ts.flatMap fun t => t.steps.filterMap fun
      | .vacation reason => some ⟨localPart t.rcpt, t.rcpt, mailFrom, reason⟩
      | _ => none }

def addFlags (msgnum : Nat) (ts : List Turn) (site : Site) : Site :=
  { site with flags := site.flags ++
      ts.flatMap fun t => t.flags.map fun flag => (msgnum, localPart t.rcpt, flag) }

/-- The calendar effect for everybody the message is kept for. -/
def receive (o : Outside) (body : Bytes) (ts : List Turn) (site : Site) : Site :=
  let part := o.calendarPart body
  if part.1 ≠ [] ∧ part.2 ≠ [] then
    { site with scheduled := site.scheduled ++
        (ts.filter Turn.kept).map fun t => (localPart t.rcpt, part.1, part.2) }
  else site

def Site.withStore (site : Site) (store : Store) : Site :=
  { site with dir := { site.dir with store := store } }

/-- `LocalDeliver`; its answer is the `ok` of the outcome. -/
def localDeliver (o : Outside) (site : Site) (mailFrom : Bytes) (rcpts : List Bytes)
    (body : Bytes) (opts : Options) : Site × Outcome :=
  let r := turns o opts mailFrom body 0 site rcpts
  let out := outcomeOf r.2
  let rooms := roomsOf opts r.2
  if rooms = [] then (sendVacations mailFrom r.2 r.1, out)
  else
    match insertMessage o.world r.1.dir.store (compose o mailFrom body rcpts) rooms with
    | (store, .error err) => (r.1.withStore store, { out with ok := false, err := err })
    | (store, .ok msgnum) =>
      (receive o body r.2 (sendVacations mailFrom r.2 (addFlags msgnum r.2 (r.1.withStore store))),
        { out with msgnum := some msgnum })

/-! ## What the loop does to the site -/

/-- Rooms are found or created, rows are enqueued, and nothing else happens: `rooms` are
    the rooms that were asked for, by user. -/
structure Did (site : Site) (rows : List Outbound) (rooms : List (Bytes × Int)) (site' : Site) :
    Prop where
  outbound : site'.outbound = site.outbound ++ rows
  scripts : site'.scripts = site.scripts
  flags : site'.flags = site.flags
  replies : site'.replies = site.replies
  scheduled : site'.scheduled = site.scheduled
  dir : Sound site.dir → Sound site'.dir ∧ Extends site.dir site'.dir ∧
    (∀ e ∈ rooms, 0 ≤ e.2 → Owns site'.dir e.1 e.2.toNat) ∧
    ∀ n, Added site.dir site'.dir n → ∃ e ∈ rooms, 0 ≤ e.2 ∧ Owns site'.dir e.1 n

theorem Did.refl (site : Site) : Did site [] [] site :=
  ⟨(List.append_nil _).symm, rfl, rfl, rfl, rfl, fun h =>
    ⟨h, .refl _, fun e he => (by cases he), fun n hn => absurd hn (not_added rfl rfl n)⟩⟩

theorem Did.trans {site site' site'' : Site} {rows rows' : List Outbound}
    {rooms rooms' : List (Bytes × Int)} (h : Did site rows rooms site')
    (h' : Did site' rows' rooms' site'') : Did site (rows ++ rows') (rooms ++ rooms') site'' where
  outbound := by rw [h'.outbound, h.outbound, List.append_assoc]
  scripts := h'.scripts.trans h.scripts
  flags := h'.flags.trans h.flags
  replies := h'.replies.trans h.replies
  scheduled := h'.scheduled.trans h.scheduled
  dir := by
    intro hsound
    obtain ⟨hsound', hext, howns, hnew⟩ := h.dir hsound
    obtain ⟨hsound'', hext', howns', hnew'⟩ := h'.dir hsound'
    refine ⟨hsound'', hext.trans hext', fun e he hpos => ?_, fun n hn => ?_⟩
    · cases List.mem_append.mp he with
      | inl he => exact (howns e he hpos).mono hext'
      | inr he => exact howns' e he hpos
    · cases hn.split with
      | inl hn =>
        obtain ⟨e, he, hpos, hown⟩ := hnew n hn
        exact ⟨e, List.mem_append_left _ he, hpos, hown.mono hext'⟩
      | inr hn =>
        obtain ⟨e, he, hpos, hown⟩ := hnew' n hn
        exact ⟨e, List.mem_append_right _ he, hpos, hown⟩

/-- A call for a room of a user. -/
theorem Did.room {site : Site} {user : Bytes} {r : Directory × Int}
    (h : Sound site.dir → RoomCall site.dir user r) :
    Did site [] [(user, r.2)] { site with dir := r.1 } where
  outbound := (List.append_nil _).symm
  scripts := rfl
  flags := rfl
  replies := rfl
  scheduled := rfl
  dir := by
    intro hsound
    refine ⟨(h hsound).sound, (h hsound).ext, fun e he hpos => ?_, fun n hn =>
      ⟨_, List.mem_singleton_self _, (h hsound).added n hn⟩⟩
    rw [List.mem_singleton.mp he] at hpos ⊢
    exact (h hsound).owns hpos

theorem callRoom_spec {d : Directory} {user : Bytes} {call : Directory → Directory × Int}
    (h : Sound d) (hcall : RoomCall d user (call d)) (fails : Bool) :
    RoomCall d user (callRoom fails d call) := by
  cases fails with
  | true =>
    exact ⟨h, .refl d, fun hneg => (by cases hneg), fun n hn => absurd hn (not_added rfl rfl n)⟩
  | false => exact hcall

theorem detailRoom_spec {d : Directory} (h : Sound d) (fails : Bool) (opts : Options)
    (user detail : Bytes) : RoomCall d user (detailRoom fails opts user detail d) := by
  rw [detailRoom]
  split
  · exact ⟨h, .refl d, fun hneg => (by cases hneg), fun n hn => absurd hn (not_added rfl rfl n)⟩
  · next hdetail =>
    refine callRoom_spec h ?_ fails
    split
    · exact getOrCreateUserRoom_spec h user detail
    · exact findUserRoom_spec h user detail

theorem keepRoom_spec {d : Directory} (h : Sound d) (o : Outside) (opts : Options) (i j : Nat)
    (user detail : Bytes) : RoomCall d user (keepRoom o opts i j user detail d) := by
  have hsub := detailRoom_spec h (o.roomFails i j 0) opts user detail
  rw [keepRoom]
  split
  · exact hsub
  · next hneg =>
    have hmail := @callRoom_spec _ user (fun d => getOrCreateMailRoom d user) hsub.sound
      (getOrCreateUserRoom_spec hsub.sound user _) (o.roomFails i j 1)
    refine ⟨hmail.sound, hsub.ext.trans hmail.ext, hmail.owns, fun n hn => ?_⟩
    exact hmail.added n (hn.split.resolve_left fun hn => hneg (hsub.added n hn).1)

/-- The rooms the steps asked for. -/
def roomsIn (user : Bytes) (steps : List Step) : List (Bytes × Int) :=
  steps.filterMap fun
    | .room roomNum _ => some (user, roomNum)
    | _ => none

/-- The rows the steps enqueued. -/
def queuedIn (mailFrom body : Bytes) (steps : List Step) : List Outbound :=
  steps.filterMap fun
    | .redirect address true => some ⟨mailFrom, address, body⟩
    | _ => none

variable (o : Outside) (opts : Options) (mailFrom body : Bytes)

theorem perform_did (site : Site) (i j : Nat) (user detail : Bytes) (a : Action) :
    Did site (queuedIn mailFrom body [(perform o opts mailFrom body i j user detail site a).2])
      (roomsIn user [(perform o opts mailFrom body i j user detail site a).2])
      (perform o opts mailFrom body i j user detail site a).1 := by
  cases a with
  | keep flags => exact .room fun h => keepRoom_spec h o opts i j user detail
  | fileinto folder flags =>
    exact .room fun h => callRoom_spec h (getOrCreateUserRoom_spec h _ _) _
  | redirect address =>
    rw [perform]
    split
    · exact .refl site
    · cases hfails : o.enqueueFails i j with
      | true => exact .refl site
      | false =>
        exact ⟨rfl, rfl, rfl, rfl, rfl, fun h =>
          ⟨h, .refl _, fun e he => (by cases he), fun n hn => absurd hn (not_added rfl rfl n)⟩⟩
  | reject reason => exact .refl site
  | discard => exact .refl site
  | vacation reason => exact .refl site

theorem performAll_did (i : Nat) (user detail : Bytes) (actions : List Action) :
    ∀ (j : Nat) (site : Site),
      Did site
        (queuedIn mailFrom body (performAll o opts mailFrom body i user detail j site actions).2)
        (roomsIn user (performAll o opts mailFrom body i user detail j site actions).2)
        (performAll o opts mailFrom body i user detail j site actions).1 := by
  induction actions with
  | nil => exact fun _ site => .refl site
  | cons a actions ih =>
    intro j site
    have hfirst := perform_did o opts mailFrom body site i j user detail a
    have hboth := hfirst.trans (ih (j + 1) _)
    rw [queuedIn, queuedIn, ← List.filterMap_append, roomsIn, roomsIn,
      ← List.filterMap_append] at hboth
    exact hboth

/-- The quota of a recipient may assign its number. -/
theorem wouldExceed_did (site : Site) (user : Bytes) (size : Int) :
    Did site [] [] { site with dir := (wouldExceed site.dir user size).1 } := by
  have hdir : (wouldExceed site.dir user size).1 = (getOrAssignUserNum site.dir user).1 ∨
      (wouldExceed site.dir user size).1 = site.dir := by
    by_cases hlim : limitBytes site.dir.store user > 0
    · exact .inl (by simp only [wouldExceed, if_pos hlim])
    · exact .inr (by simp only [wouldExceed, if_neg hlim])
  cases hdir with
  | inl hdir =>
    rw [hdir]
    refine ⟨(List.append_nil _).symm, rfl, rfl, rfl, rfl, fun h => ?_⟩
    obtain ⟨hsound, hext, -, hlabels, hrooms, -⟩ := getOrAssignUserNum_spec h user
    exact ⟨hsound, hext, fun e he => (by cases he),
      fun n hn => absurd hn (not_added hlabels hrooms n)⟩
  | inr hdir =>
    rw [hdir]
    exact .refl site

theorem turn_did (site : Site) (i : Nat) (rcpt : Bytes) :
    Did site (queuedIn mailFrom body (turn o opts mailFrom body i site rcpt).2.steps)
        (roomsIn (localPart rcpt) (turn o opts mailFrom body i site rcpt).2.steps)
        (turn o opts mailFrom body i site rcpt).1 ∧
      (turn o opts mailFrom body i site rcpt).2.rcpt = rcpt := by
  have hquota := wouldExceed_did site (localPart rcpt) body.length
  rw [turn]
  split
  · exact ⟨hquota, rfl⟩
  · split
    · exact ⟨hquota.trans (.room fun h => callRoom_spec h (getOrCreateUserRoom_spec h _ _) _), rfl⟩
    · split
      · exact ⟨hquota.trans (.room fun h => keepRoom_spec h o opts i 0 _ _), rfl⟩
      · split
        · exact ⟨hquota, rfl⟩
        · split
          · exact ⟨hquota, rfl⟩
          · exact ⟨hquota.trans (performAll_did o opts mailFrom body i _ _ _ 0 _), rfl⟩

theorem turns_did (rcpts : List Bytes) :
    ∀ (i : Nat) (site : Site),
      Did site
          ((turns o opts mailFrom body i site rcpts).2.flatMap fun t =>
            queuedIn mailFrom body t.steps)
          ((turns o opts mailFrom body i site rcpts).2.flatMap fun t =>
            roomsIn (localPart t.rcpt) t.steps)
          (turns o opts mailFrom body i site rcpts).1 ∧
        (turns o opts mailFrom body i site rcpts).2.map Turn.rcpt = rcpts := by
  induction rcpts with
  | nil => exact fun _ site => ⟨.refl site, rfl⟩
  | cons rcpt rcpts ih =>
    intro i site
    obtain ⟨hfirst, hrcpt⟩ := turn_did o opts mailFrom body site i rcpt
    obtain ⟨hrest, hrcpts⟩ := ih (i + 1) (turn o opts mailFrom body i site rcpt).1
    rw [turns, List.flatMap_cons, List.flatMap_cons, List.map_cons, hrcpt, hrcpts]
    exact ⟨hfirst.trans hrest, rfl⟩

/-! ## The insert -/

/-- A message that is stored is in the rooms it was put into, under a new number. -/
theorem insertMessage_stored {w : World} {s s' : Store} {msg : Message} {rooms : List Nat}
    {msgnum : Nat} (h : insertMessage w s msg rooms = (s', .ok msgnum))
    (hbelow : ∀ p ∈ s.roomMsgs, p.msgnum < s.seq) (room : Nat) :
    messageInRoom s' room msgnum = true ↔ room ∈ rooms := by
  obtain ⟨-, -, rfl, rfl⟩ := insertMessage_accepted h
  rw [messageInRoom, decide_eq_true_eq, mem_links]
  constructor
  · rintro (hold | ⟨-, hin⟩)
    · exact absurd (hbelow _ hold) (lt_irrefl _)
    · exact hin
  · exact fun hin => .inr ⟨rfl, hin⟩

/-- An insert changes no owner. -/
theorem owns_insertMessage {w : World} {d : Directory} {s' : Store} {msg : Message}
    {rooms : List Nat} {answer : Except Bytes Nat}
    (h : insertMessage w d.store msg rooms = (s', answer)) (user : Bytes) (room : Nat) :
    Owns { d with store := s' } user room ↔ Owns d user room := by
  have hlinks : ∀ (rooms : List Nat) (s : Store) (n : Nat),
      (rooms.foldl (fun t room => link t room n) s).users = s.users ∧
      (rooms.foldl (fun t room => link t room n) s).credentials = s.credentials ∧
      ∀ num owner, (∃ r ∈ (rooms.foldl (fun t room => link t room n) s).rooms,
        r.roomNum = num ∧ r.mailboxOwner = owner) ↔
          ∃ r ∈ s.rooms, r.roomNum = num ∧ r.mailboxOwner = owner := by
    intro rooms
    induction rooms with
    | nil => exact fun s n => ⟨rfl, rfl, fun _ _ => Iff.rfl⟩
    | cons room rooms ih =>
      intro s n
      obtain ⟨husers, hcred, hrooms⟩ := ih (link s room n) n
      refine ⟨husers.trans ?_, hcred.trans ?_, fun num owner => (hrooms num owner).trans ?_⟩
      · unfold link bumpHighest
        split <;> rfl
      · unfold link bumpHighest
        split <;> rfl
      · -- the highest number of a room is all that a link changes of it
        have hmap : (link s room n).rooms = s.rooms.map (fun r =>
            if r.roomNum = room then { r with highestMsg := max r.highestMsg n } else r) := by
          unfold link bumpHighest
          split <;> rfl
        rw [hmap]
        constructor
        · rintro ⟨r', hr', hnum, howner⟩
          obtain ⟨r, hr, rfl⟩ := List.mem_map.mp hr'
          refine ⟨r, hr, ?_, ?_⟩
          · rw [← hnum]
            split <;> rfl
          · rw [← howner]
            split <;> rfl
        · rintro ⟨r, hr, rfl, rfl⟩
          refine ⟨_, List.mem_map_of_mem hr, ?_, ?_⟩
          · split <;> rfl
          · split <;> rfl
  have howns : ∀ s : Store, Owns { d with store := s } user room ↔
      0 < userNum s user ∧ ∃ r ∈ s.rooms, r.roomNum = room ∧ r.mailboxOwner = userNum s user := by
    intro s
    constructor
    · rintro ⟨r, hr, hnum, hpos, howner⟩
      exact ⟨howner ▸ hpos, r, hr, hnum, howner⟩
    · rintro ⟨hpos, r, hr, hnum, howner⟩
      exact ⟨r, hr, hnum, howner ▸ hpos, howner⟩
  rw [howns s', howns d.store]
  cases answer with
  | error err =>
    obtain ⟨-, rfl⟩ | ⟨-, rfl⟩ := insertMessage_refused h
    · exact Iff.rfl
    · exact Iff.rfl
  | ok n =>
    obtain ⟨-, -, -, rfl⟩ := insertMessage_accepted h
    obtain ⟨husers, hcred, hrooms⟩ := hlinks rooms
      { d.store with messages := d.store.messages ++ [storedRow w d.store msg],
                     seq := d.store.seq + 1 } d.store.seq
    have huser : ∀ s : Store, s.users = d.store.users → s.credentials = d.store.credentials →
        userNum s user = userNum d.store user := by
      intro s hu hc
      rw [userNum, userNum, hu, hc]
    rw [huser _ husers hcred, hrooms]

end QuackMail.Delivery
