import Mathlib.Data.List.Sort
import QuackMail.Codec.Base64
import QuackMail.ManageSieve.Arguments

/-! # ManageSieve sessions

`HandleManageSieve`: a loop that reads a line, splits off the verb and lets the branch of the
verb read its arguments.  A branch reads as many arguments as it has, and stops at the first
that cannot be read; AUTHENTICATE also reads the answers to its challenges.
-/

namespace QuackMail.ManageSieve

open Net

/-! ## Turns -/

/-- A line that the server takes up, a command or the answer to a challenge: what is to be
    read from it on, the line, the part of it that holds arguments, how many of these the
    server is going to read at most, and what is to be read behind the line. -/
structure Turn where
  start : Bytes
  line : Bytes
  args : Bytes
  reads : Nat
  behind : Bytes
  deriving DecidableEq

/-! ## The server -/

/-- What a session takes from elsewhere: whether STARTTLS is offered, the handshake,
    `sieve::Capabilities`, the error of `sieve::Check` and `auth::Verify`. -/
structure Server where
  startTlsEnabled : Bool
  handshake : Bool
  capabilities : Bytes
  checkError : Bytes → Option Bytes
  verify : Bytes → Bytes → Bool

structure Session where
  tlsActive : Bool
  authed : Bool
  user : Bytes
  scripts : Table

inductive Next where
  | again
  | closed
  /-- the handshake is done, and the stream is another one from now on -/
  | encrypted

/-- What becomes of a command. -/
structure Outcome where
  session : Session
  stream : ClientStream
  replies : List Bytes
  answers : List Turn := []
  next : Next := .again

/-- `Quote`. -/
def quote (s : Bytes) : Bytes :=
  ch '"' :: s.flatMap (fun c => if c = ch '"' ∨ c = ch '\\' then [ch '\\', c] else [c]) ++ [ch '"']

/-- `Literal`. -/
def literal (s : Bytes) : Bytes := bytes "\x7b" ++ num s.length ++ bytes "\x7d\r\n" ++ s

def no (err : Bytes) : Bytes := bytes "NO \"" ++ err ++ bytes "\""

/-- `WriteCapabilities`. -/
def writeCapabilities (v : Server) (s : Session) : List Bytes :=
  [bytes "\"IMPLEMENTATION\" \"QuackCit ManageSieve\"", bytes "\"VERSION\" \"1.0\"",
    bytes "\"SIEVE\" " ++ quote v.capabilities] ++
  (if !s.tlsActive && v.startTlsEnabled then [bytes "\"STARTTLS\""] else []) ++
  (if s.authed then []
    else [if s.tlsActive then bytes "\"SASL\" \"PLAIN LOGIN\"" else bytes "\"SASL\" \"\""]) ++
  [bytes "\"OWNER\" \"\""]

/-! ## AUTHENTICATE -/

/-- Where an exchange stands: the stream, what was written and the lines that were read. -/
structure Exchange where
  stream : ClientStream
  replies : List Bytes
  answers : List Turn

/-- The challenge: a literal, and a line with one argument in return. -/
def challenge (x : Exchange) (prompt : Bytes) : Exchange × Option Bytes :=
  let replies := x.replies ++ [literal prompt]
  match readLine maxLine x.stream with
  | (s, none) => (⟨s, replies, x.answers⟩, none)
  | (s, some reply) =>
    let answers := x.answers ++ [⟨rest x.stream, reply, reply, 1, rest s⟩]
    match readArg s reply with
    | (s', _, .error _) => (⟨s', replies, answers⟩, none)
    | (s', arg, .ok _) => (⟨s', replies, answers⟩, some arg)

inductive AuthResult where
  | ok (user : Bytes)
  | fail
  | unsupported

/-- The credentials of `PLAIN`. -/
def plainResult (v : Server) (b64 : Bytes) : AuthResult :=
  match Base64.decode b64 with
  | none => .fail
  | some decoded =>
    match findChar 0 decoded with
    | none => .fail
    | some p1 =>
      match findCharFrom 0 decoded (p1 + 1) with
      | none => .fail
      | some p2 =>
        let username := (decoded.drop (p1 + 1)).take (p2 - p1 - 1)
        if v.verify username (decoded.drop (p2 + 1)) then .ok username else .fail

/-- `sasl::ServerAuth`. -/
def serverAuth (v : Server) (mechanism initial : Bytes) (x : Exchange) : Exchange × AuthResult :=
  if mechanism = bytes "PLAIN" then
    if initial = [] then
      match challenge x [] with
      | (x', none) => (x', .fail)
      | (x', some b64) => (x', plainResult v b64)
    else (x, plainResult v initial)
  else if mechanism = bytes "LOGIN" then
    match challenge x (Base64.encode (bytes "Username:")) with
    | (x', none) => (x', .fail)
    | (x', some b64) =>
      match Base64.decode b64 with
      | none => (x', .fail)
      | some username =>
        match challenge x' (Base64.encode (bytes "Password:")) with
        | (x'', none) => (x'', .fail)
        | (x'', some b64) =>
          match Base64.decode b64 with
          | none => (x'', .fail)
          | some password =>
            (x'', if v.verify username password then .ok username else .fail)
  else (x, .unsupported)

/-- The branch of AUTHENTICATE, once the mechanism is read. -/
def authenticate (v : Server) (s : Session) (stream : ClientStream) (mech args : Bytes) :
    Outcome :=
  -- the initial response is optional, and an error in it is ignored
  let initial := if args = [] then (stream, []) else
    ((readArg stream args).1, (readArg stream args).2.1)
  match serverAuth v (upper mech) initial.2 ⟨initial.1, [], []⟩ with
  | (x, .ok user) =>
    ⟨{ s with authed := true, user := user }, x.stream, x.replies ++ [bytes "OK \"Logged in\""],
      x.answers, .again⟩
  | (x, .unsupported) =>
    ⟨s, x.stream, x.replies ++ [no (bytes "Unsupported authentication mechanism")], x.answers,
      .again⟩
  | (x, .fail) =>
    ⟨{ s with user := [] }, x.stream, x.replies ++ [no (bytes "Authentication failed")],
      x.answers, .again⟩

/-! ## Arguments of a branch -/

/-- A branch with one argument. -/
def withArg (s : Session) (stream : ClientStream) (args : Bytes)
    (f : ClientStream → Bytes → Bytes → Outcome) : Outcome :=
  match readArg stream args with
  | (stream', _, .error err) => ⟨s, stream', [no err], [], .again⟩
  | (stream', value, .ok args') => f stream' value args'

/-- A branch with two arguments. -/
def withTwoArgs (s : Session) (stream : ClientStream) (args : Bytes)
    (f : Bytes → Bytes → Session × List Bytes) : Outcome :=
  withArg s stream args fun stream first args =>
    withArg s stream args fun stream second _ =>
      let (s', replies) := f first second
      ⟨s', stream, replies, [], .again⟩

def withOneArg (s : Session) (stream : ClientStream) (args : Bytes)
    (f : Bytes → Session × List Bytes) : Outcome :=
  withArg s stream args fun stream value _ =>
    let (s', replies) := f value
    ⟨s', stream, replies, [], .again⟩

/-! ## Commands -/

/-- The order of `ORDER BY name`. -/
def nameLe : Bytes → Bytes → Bool
  | [], _ => true
  | _ :: _, [] => false
  | c :: s, d :: t => c < d || c == d && nameLe s t

def listScripts (s : Session) : List Bytes :=
  (((scriptsOf s.user s.scripts).insertionSort fun r r' => nameLe r.name r'.name).map fun r =>
    quote r.name ++ if r.active then bytes " ACTIVE" else []) ++
    [bytes "OK \"Listscripts completed\""]

def haveSpace (s : Session) (_name sizeText : Bytes) : Session × List Bytes :=
  (s, [if tooLarge sizeText then bytes "NO (QUOTA/MAXSIZE) \"Script too large\""
    else bytes "OK \"Have space\""])

def checkScript (v : Server) (s : Session) (script : Bytes) : Session × List Bytes :=
  match v.checkError script with
  | some err => (s, [bytes "NO " ++ literal err])
  | none => (s, [bytes "OK \"Script is valid\""])

def putScript (v : Server) (s : Session) (name script : Bytes) : Session × List Bytes :=
  if name = [] then (s, [no (bytes "Script name must not be empty")])
  else
    match v.checkError script with
    | some err => (s, [bytes "NO " ++ literal err])
    | none =>
      if maxScriptBytes < script.length then
        (s, [bytes "NO (QUOTA/MAXSIZE) \"Script too large\""])
      else
        ({ s with
          scripts := insertScript s.user name script
            (deleteScript s.user name s.scripts) },
          [bytes "OK \"Putscript completed\""])

def getScript (s : Session) (name : Bytes) : Session × List Bytes :=
  match (scriptsOf s.user s.scripts).find? fun r => decide (r.name = name) with
  | none => (s, [bytes "NO (NONEXISTENT) \"No such script\""])
  | some r => (s, [literal r.script, bytes "OK \"Getscript completed\""])

def setActive (s : Session) (name : Bytes) : Session × List Bytes :=
  if name ≠ [] ∧ scriptExists s.scripts s.user name = false then
    (s, [bytes "NO (NONEXISTENT) \"No such script\""])
  else
    let off := deactivateAll s.user s.scripts
    ({ s with scripts := if name = [] then off else activate s.user name off },
      [bytes "OK \"Setactive completed\""])

def removeScript (s : Session) (name : Bytes) : Session × List Bytes :=
  if scriptExists s.scripts s.user name = false then
    (s, [bytes "NO (NONEXISTENT) \"No such script\""])
  else if isActive s.scripts s.user name = true then
    (s, [bytes "NO (ACTIVE) \"Cannot delete the active script\""])
  else
    ({ s with scripts := deleteScript s.user name s.scripts },
      [bytes "OK \"Deletescript completed\""])

def rename (s : Session) (source target : Bytes) : Session × List Bytes :=
  if scriptExists s.scripts s.user source = false then
    (s, [bytes "NO (NONEXISTENT) \"No such script\""])
  else if scriptExists s.scripts s.user target = true then
    (s, [bytes "NO (ALREADYEXISTS) \"A script by that name already exists\""])
  else
    ({ s with scripts := renameScript s.user source target s.scripts },
      [bytes "OK \"Renamescript completed\""])

inductive Keyword where
  | logout
  | noop
  | capability
  | startTls
  | authenticate
  | unauthenticate
  | listScripts
  | haveSpace
  | putScript
  | checkScript
  | getScript
  | setActive
  | deleteScript
  | renameScript
  | unknown

def keywords : List (Bytes × Keyword) :=
  [(bytes "LOGOUT", .logout), (bytes "NOOP", .noop), (bytes "CAPABILITY", .capability),
    (bytes "STARTTLS", .startTls), (bytes "AUTHENTICATE", .authenticate),
    (bytes "UNAUTHENTICATE", .unauthenticate), (bytes "LISTSCRIPTS", .listScripts),
    (bytes "HAVESPACE", .haveSpace), (bytes "PUTSCRIPT", .putScript),
    (bytes "CHECKSCRIPT", .checkScript), (bytes "GETSCRIPT", .getScript),
    (bytes "SETACTIVE", .setActive), (bytes "DELETESCRIPT", .deleteScript),
    (bytes "RENAMESCRIPT", .renameScript)]

/-- What the first word of a line says, in any case. -/
def keyword (word : Bytes) : Keyword :=
  ((keywords.find? fun entry => decide (entry.1 = upper word)).map Prod.snd).getD .unknown

/-- A line up to the first space and behind it. -/
def splitVerb (line : Bytes) : Bytes × Bytes :=
  match findChar (ch ' ') line with
  | none => (line, [])
  | some sp => (line.take sp, line.drop (sp + 1))

/-- The commands that need a user who is logged in. -/
def handleUser (v : Server) (s : Session) (stream : ClientStream) (verb : Keyword)
    (args : Bytes) : Outcome :=
  match verb with
  | .listScripts => ⟨s, stream, listScripts s, [], .again⟩
  | .haveSpace => withTwoArgs s stream args (haveSpace s)
  | .putScript => withTwoArgs s stream args (putScript v s)
  | .checkScript => withOneArg s stream args (checkScript v s)
  | .getScript => withOneArg s stream args (getScript s)
  | .setActive => withOneArg s stream args (setActive s)
  | .deleteScript => withOneArg s stream args (removeScript s)
  | .renameScript => withTwoArgs s stream args (rename s)
  | _ => ⟨s, stream, [no (bytes "Unknown command")], [], .again⟩

/-- One command of `HandleManageSieve`. -/
def handle (v : Server) (s : Session) (stream : ClientStream) (verb : Keyword) (args : Bytes) :
    Outcome :=
  match verb with
  | .logout => ⟨s, stream, [bytes "OK \"Bye\""], [], .closed⟩
  | .noop => ⟨s, stream, [bytes "OK \"NOOP completed\""], [], .again⟩
  | .capability =>
    ⟨s, stream, writeCapabilities v s ++ [bytes "OK \"Capability completed\""], [], .again⟩
  | .startTls =>
    if s.tlsActive then ⟨s, stream, [no (bytes "TLS already active")], [], .again⟩
    else if !v.startTlsEnabled then
      ⟨s, stream, [no (bytes "STARTTLS not available")], [], .again⟩
    else if v.handshake then
      let s' := { s with tlsActive := true, authed := false, user := [] }
      ⟨s', stream, [bytes "OK \"Begin TLS negotiation now\""] ++ writeCapabilities v s' ++
        [bytes "OK \"TLS negotiation successful\""], [], .encrypted⟩
    else ⟨s, stream, [bytes "OK \"Begin TLS negotiation now\""], [], .closed⟩
  | .authenticate =>
    if s.authed then ⟨s, stream, [no (bytes "Already authenticated")], [], .again⟩
    else if !s.tlsActive then
      ⟨s, stream, [no (bytes "Encryption required before authentication")], [], .again⟩
    else withArg s stream args (authenticate v s)
  | .unauthenticate =>
    if s.authed then
      ⟨{ s with authed := false, user := [] }, stream, [bytes "OK \"Unauthenticated\""], [],
        .again⟩
    else ⟨s, stream, [no (bytes "Not authenticated")], [], .again⟩
  | _ =>
    if s.authed then handleUser v s stream verb args
    else ⟨s, stream, [no (bytes "Authenticate first")], [], .again⟩

/-- How many arguments the branch of a verb reads at most. -/
def arity (s : Session) : Keyword → Nat
  | .authenticate => if s.authed then 0 else if !s.tlsActive then 0 else 2
  | .haveSpace | .putScript | .renameScript => if s.authed then 2 else 0
  | .checkScript | .getScript | .setActive | .deleteScript => if s.authed then 1 else 0
  | _ => 0

/-- The lines that the loop of `HandleManageSieve` takes up, in so many rounds at most. -/
def turns (v : Server) : Nat → Session → ClientStream → List Turn
  | 0, _, _ => []
  | rounds + 1, s, stream =>
    match readLine maxLine stream with
    | (_, none) => []
    | (stream', some line) =>
      let verb := keyword (splitVerb line).1
      let args := (splitVerb line).2
      let out := handle v s stream' verb args
      ⟨rest stream, line, args, arity s verb, rest stream'⟩ ::
        (out.answers ++
          match out.next with
          | .again => turns v rounds out.session out.stream
          | _ => [])

end QuackMail.ManageSieve
