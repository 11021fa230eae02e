import QuackMail.Listserv.Lists

/-! # Subscribing by mail

`Subscribe`, `Unsubscribe`, `Confirm` and `HandleCommand` of `listserv.cpp`.  One row of
`citadel_list_subs` carries the state of an address at a list and the token of the request
that is open for it.  Queries succeed; `Call.saves` says whether a write does.
-/

namespace QuackMail.Listserv

/-! ## The tables -/

inductive SubKind where
  | post
  | digest
  deriving DecidableEq

inductive SubState where
  | pending
  | active
  | unsubPending
  deriving DecidableEq

/-- A row of `citadel_list_subs`. -/
structure SubRow where
  roomNum : Nat
  address : Bytes
  kind : SubKind
  state : SubState
  token : Bytes
  tokenExpires : Int
  createdAt : Int
  confirmedAt : Int

/-- What the list robot writes: an answer, or a confirmation request with its token. -/
inductive Letter where
  | reply (subject text : Bytes)
  | confirmation (list : MailList) (token : Bytes) (subscribing : Bool)

/-- A row of `quackmail_outbound` with a null sender. -/
structure Mail where
  rcpt : Bytes
  letter : Letter

structure Desk where
  subs : List SubRow
  outbound : List Mail
  /-- what was posted for the aides: subject and text -/
  aide : List (Bytes × Bytes)

/-- What one command takes from outside its tables. -/
structure Call where
  now : Int
  fqdn : Bytes
  /-- `RandomBase64Url(24)`, empty where there is no randomness -/
  random : Bytes
  saves : Bool

/-- Seven days. -/
def kTokenTtlSecs : Int := 604800

/-! ## Addresses -/

/-- `NormAddr`: what is between the first `<` and the last `>`, trimmed and folded. -/
def normAddr (addr : Bytes) : Bytes :=
  let a :=
    match findChar (ch '<') addr, rfindChar (ch '>') addr with
    | some lt, some gt => if lt < gt then (addr.drop (lt + 1)).take (gt - lt - 1) else addr
    | _, _ => addr
  lower (trimBy isSpace a)

/-! ## Subscribers -/

def SubRow.isAt (r : SubRow) (roomNum : Nat) (address : Bytes) : Bool :=
  decide (r.roomNum = roomNum ∧ r.address = address)

def findSub (s : Desk) (roomNum : Nat) (address : Bytes) : Option SubRow :=
  s.subs.find? fun r => r.isAt roomNum address

/-- `Subscribers` in a state. -/
def subscribers (s : Desk) (roomNum : Nat) (state : SubState) : List SubRow :=
  (s.subs.filter fun r => r.roomNum = roomNum ∧ r.state = state).insertionSort
    fun a b => a.address ≤ b.address

/-- `IsSubscriber`. -/
def isSubscriber (s : Desk) (roomNum : Nat) (address : Bytes) : Bool :=
  s.subs.any fun r => r.isAt roomNum (normAddr address) && r.state = .active

/-- An `UPDATE` of the row of an address at a list. -/
def updateSub (s : Desk) (roomNum : Nat) (address : Bytes) (f : SubRow → SubRow) : Desk :=
  { s with subs := s.subs.map fun r => if r.isAt roomNum address then f r else r }

def deleteSub (s : Desk) (roomNum : Nat) (address : Bytes) : Desk :=
  { s with subs := s.subs.filter fun r => !r.isAt roomNum address }

/-- `Subscribe`: the token of the request, empty where it needs no confirmation. -/
def subscribe (c : Call) (s : Desk) (list : MailList) (address : Bytes) (kind : SubKind)
    (confirmed : Bool) : Desk × Except Bytes Bytes :=
  let addr := normAddr address
  if addr = [] ∨ ch '@' ∉ addr then
    (s, .error (bytes "'" ++ address ++ bytes "' is not an e-mail address"))
  else
    let existing := findSub s list.roomNum addr
    let token := if confirmed then [] else c.random
    let expires := if confirmed then 0 else c.now + kTokenTtlSecs
    let state := if confirmed then .active else .pending
    let confirmedAt := if confirmed then c.now else 0
    if existing.map SubRow.state = some .active ∧ confirmed then
      (s, .error (bytes "already subscribed"))
    else if !confirmed ∧ c.random = [] then
      (s, .error (bytes "could not generate a confirmation token"))
    else
      match existing with
      | some _ =>
        if c.saves then
          (updateSub s list.roomNum addr fun r =>
            { r with kind := kind, state := state, token := token, tokenExpires := expires,
                     confirmedAt := confirmedAt }, .ok token)
        else (s, .error (bytes "could not update the subscription"))
      | none =>
        if c.saves then
          ({ s with subs := s.subs ++
              [⟨list.roomNum, addr, kind, state, token, expires, c.now, confirmedAt⟩] }, .ok token)
        else (s, .error (bytes "could not record the subscription"))

/-- `Unsubscribe`: the token of the request, empty where the row is removed at once. -/
def unsubscribe (c : Call) (s : Desk) (list : MailList) (address : Bytes) (confirmed : Bool) :
    Desk × Except Bytes Bytes :=
  let addr := normAddr address
  match findSub s list.roomNum addr with
  | none => (s, .error (bytes "not subscribed"))
  | some _ =>
    if confirmed then
      if c.saves then (deleteSub s list.roomNum addr, .ok [])
      else (s, .error (bytes "could not remove the subscription"))
    else if c.random = [] then (s, .error (bytes "could not generate a confirmation token"))
    else if c.saves then
      (updateSub s list.roomNum addr fun r =>
        { r with state := .unsubPending, token := c.random,
                 tokenExpires := c.now + kTokenTtlSecs }, .ok c.random)
    else (s, .error (bytes "could not record the request"))

/-- The row a token opens: the first live one with that token. -/
def rowOfToken (c : Call) (s : Desk) (token : Bytes) : Option SubRow :=
  s.subs.find? fun r => r.token ≠ [] ∧ c.now ≤ r.tokenExpires ∧ r.token = token

def listName (t : Tables) (roomNum : Nat) : Bytes :=
  match getList t roomNum with
  | some l => l.address
  | none => bytes "room " ++ num roomNum

/-- `Confirm`: what was done, in words. -/
def confirm (t : Tables) (c : Call) (s : Desk) (token : Bytes) : Desk × Except Bytes Bytes :=
  if token = [] then (s, .error (bytes "no token given"))
  else
    match rowOfToken c s token with
    | none => (s, .error (bytes "that confirmation link is not valid, or has expired"))
    | some r =>
      if r.state = .unsubPending then
        (if c.saves then deleteSub s r.roomNum r.address else s,
          .ok (r.address ++ bytes " unsubscribed from " ++ listName t r.roomNum))
      else
        (if c.saves then
          updateSub s r.roomNum r.address fun r =>
            { r with state := .active, token := [], tokenExpires := 0, confirmedAt := c.now }
        else s,
          .ok (r.address ++ bytes " subscribed to " ++ listName t r.roomNum))

/-! ## `HandleCommand` -/

def send (s : Desk) (rcpt : Bytes) (letter : Letter) : Desk :=
  { s with outbound := s.outbound ++ [⟨rcpt, letter⟩] }

def helpText (c : Call) (list : MailList) : Bytes :=
  let a := list.address
  bytes "This is the " ++ a ++ bytes " mailing list at " ++ c.fqdn ++
    bytes ".\r\n\r\nTo post:         " ++ a ++ bytes "@" ++ c.fqdn ++
    bytes "\r\nTo subscribe:    " ++ a ++ bytes "-subscribe@" ++ c.fqdn ++
    bytes "\r\nTo unsubscribe:  " ++ a ++ bytes "-unsubscribe@" ++ c.fqdn ++
    bytes "\r\nFor this help:   " ++ a ++ bytes "-request@" ++ c.fqdn ++
    bytes "\r\n\r\nSend an empty message to the subscribe or unsubscribe address and you\r\n" ++
    bytes "will receive a confirmation request. Nothing changes until you reply to\r\n" ++
    bytes "it, so nobody else can subscribe or unsubscribe you.\r\n"

/-- `HandleCommand`. -/
def handleCommand (t : Tables) (c : Call) (s : Desk) (list : MailList) (cmd : Command)
    (mailFrom : Bytes) : Desk × Except Bytes Unit :=
  let «from» := normAddr mailFrom
  match cmd.kind with
  | .bounce =>
    ({ s with aide := s.aide ++ [(bytes "List bounce: " ++ list.address,
        bytes "A delivery failure came back to the " ++ list.address ++ bytes " list.")] }, .ok ())
  | .help =>
    if «from» = [] then (s, .ok ())
    else
      (send s «from» (.reply (bytes "About the " ++ list.address ++ bytes " mailing list")
        (helpText c list)), .ok ())
  | .subscribe =>
    if «from» = [] then (s, .ok ())
    else if isSubscriber s list.roomNum «from» then
      (send s «from» (.reply (bytes "Already subscribed to " ++ list.address)
        («from» ++ bytes " is already subscribed to " ++ list.address ++ bytes ".\r\n")), .ok ())
    else
      match subscribe c s list «from» .post false with
      | (s, .error err) => (s, .error err)
      | (s, .ok token) => (send s «from» (.confirmation list token true), .ok ())
  | .unsubscribe =>
    if «from» = [] then (s, .ok ())
    else
      match unsubscribe c s list «from» false with
      | (s, .error _) =>
        (send s «from» (.reply (bytes "Not subscribed to " ++ list.address)
          («from» ++ bytes " is not subscribed to " ++ list.address ++ bytes ".\r\n")), .ok ())
      | (s, .ok token) => (send s «from» (.confirmation list token false), .ok ())
  | .confirm =>
    match confirm t c s cmd.token with
    | (s, .error err) =>
      if «from» = [] then (s, .ok ())
      else
        (send s «from» (.reply (bytes "Could not confirm your request") (err ++ bytes "\r\n")),
          .ok ())
    | (s, .ok what) =>
      if «from» = [] then (s, .ok ())
      else
        (send s «from» (.reply (bytes "Confirmed: " ++ list.address) (what ++ bytes ".\r\n")),
          .ok ())
  | .post => (s, .ok ())

end QuackMail.Listserv
