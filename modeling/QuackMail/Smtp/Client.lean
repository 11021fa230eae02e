import QuackMail.Codec.Base64
import QuackMail.Net.DotWriters

/-! # The SMTP client

`smtp::Deliver`: one message for one recipient over one connection.  What the peer sends is an
input, and so is how many writes succeed; the commands written and the replies read are recorded
beside the wire, since the results are about them.
-/

namespace QuackMail.Smtp

open Net

/-- `SendStatus`. -/
inductive SendStatus
  | sent
  | transient
  | permanent
  deriving DecidableEq

/-- `ClientOpts`. -/
structure ClientOpts where
  useStarttls : Bool := true
  authUser : Bytes := []
  authPass : Bytes := []
  heloName : Bytes := bytes "quackmail"

/-- The points of the dialogue: the greeting, the commands, and the parts of the message. -/
inductive Stage
  | greeting
  | ehlo
  | starttls
  | ehloTls
  | auth
  | mail
  | rcpt
  | data
  | body
  | dot
  | quit
  deriving DecidableEq

/-- The connection: what is still to be read, how many writes succeed from now on, what was
    written, for which stages, and the replies that were read. -/
structure Conn where
  stream : ClientStream
  writes : Nat
  wire : Bytes
  sent : List Stage
  replies : List (Stage × Int)

/-- The other end: what it sends or why there is no connection, what it sends after a TLS
    handshake if that succeeds, and how many writes succeed. -/
structure Peer where
  connection : Except Bytes (List Bytes)
  tls : Option (List Bytes)
  writes : Nat

/-- `SendResult`, with the connection as it was left. -/
structure SendResult where
  status : SendStatus
  info : Bytes
  conn : Conn

/-- `Write`, with the line end where `WriteLine` adds it. -/
def write (stage : Stage) (data : Bytes) (c : Conn) : Conn × Bool :=
  if data = [] then ({ c with sent := c.sent ++ [stage] }, true)
  else if c.writes = 0 then (c, false)
  else
    ({ c with writes := c.writes - 1, wire := c.wire ++ data, sent := c.sent ++ [stage] }, true)

/-- The loop of `ReadReply`; every line read takes a byte at least. -/
def readReplyLoop : Nat → Bytes → ClientStream → ClientStream × Bytes × Int
  | 0, text, s => (s, text, -1)
  | fuel + 1, text, s =>
    match readLine 8192 s with
    | (s', none) => (s', text, -1)
    | (s', some line) =>
      let text := (if text = [] then text else text ++ [ch '\n']) ++ line
      if line.length < 3 then (s', text, -1)
      else if line.getD 3 0 = ch '-' then readReplyLoop fuel text s'
      else (s', text, strtoll (line.take 3))

/-- `ReadReply`: the text and the code, `-1` when there is none. -/
def readReply (stage : Stage) (c : Conn) : Conn × Bytes × Int :=
  match readReplyLoop ((rest c.stream).length + 1) [] c.stream with
  | (s', text, code) =>
    ({ c with stream := s', replies := c.replies ++ [(stage, code)] }, text, code)

/-- `Classify`. -/
def classify (code : Int) : SendStatus :=
  if 200 ≤ code ∧ code < 400 then .sent
  else if 400 ≤ code ∧ code < 500 then .transient
  else .permanent

/-- The reply lets the dialogue go on. -/
def goesOn (code : Int) : Bool := decide (0 ≤ code) && classify code == .sent

/-- The status of a reply that does not. -/
def refusal (code : Int) : SendStatus := if code < 0 then .transient else classify code

/-- `cmd`: a command and its reply; the old reply stays where the command is not written. -/
def cmd (stage : Stage) (command : Bytes) (reply : Bytes) (c : Conn) : Conn × Bytes × Int :=
  match write stage (command ++ crlf) c with
  | (c, false) => ({ c with replies := c.replies ++ [(stage, -1)] }, reply, -1)
  | (c, true) => readReply stage c

section Deliver

variable (peer : Peer) (mailFrom rcpt raw : Bytes) (opts : ClientOpts)

/-- The line of a command. -/
def command : Stage → Bytes
  | .ehlo => bytes "EHLO " ++ opts.heloName
  | .starttls => bytes "STARTTLS"
  | .ehloTls => bytes "EHLO " ++ opts.heloName
  | .auth => bytes "AUTH PLAIN " ++
      Base64.encode ([0] ++ opts.authUser ++ [0] ++ opts.authPass)
  | .mail => bytes "MAIL FROM:<" ++ mailFrom ++ bytes ">"
  | .rcpt => bytes "RCPT TO:<" ++ rcpt ++ bytes ">"
  | .data => bytes "DATA"
  | .quit => bytes "QUIT"
  | _ => []

/-- A command that has to be accepted for the dialogue to go on. -/
def required (stage : Stage) (label : Bytes) (next : Conn → Bytes → SendResult) (c : Conn)
    (reply : Bytes) : SendResult :=
  match cmd stage (command mailFrom rcpt opts stage) reply c with
  | (c, reply, code) =>
    if goesOn code then next c reply else ⟨refusal code, label ++ reply, c⟩

/-- The message, its reply and `QUIT`. -/
def sendMessage (c : Conn) : SendResult :=
  match write .body (dotStuff raw) c with
  | (c, false) => ⟨.transient, bytes "write body failed", c⟩
  | (c, true) =>
    match write .dot (dot ++ crlf) c with
    | (c, false) => ⟨.transient, bytes "write body failed", c⟩
    | (c, true) =>
      match readReply .dot c with
      | (c, reply, code) =>
        if code < 0 then ⟨.transient, bytes "no reply after data", c⟩
        else ⟨classify code, reply,
          (write .quit (command mailFrom rcpt opts .quit ++ crlf) c).1⟩

/-- `DATA`, which only 354 accepts. -/
def sendData (c : Conn) (reply : Bytes) : SendResult :=
  match cmd .data (command mailFrom rcpt opts .data) reply c with
  | (c, reply, code) =>
    if code = 354 then sendMessage mailFrom rcpt raw opts c
    else ⟨refusal code, bytes "DATA: " ++ reply, c⟩

def sendRcpt : Conn → Bytes → SendResult :=
  required mailFrom rcpt opts .rcpt (bytes "RCPT: ") (sendData mailFrom rcpt raw opts)

def sendMail : Conn → Bytes → SendResult :=
  required mailFrom rcpt opts .mail (bytes "MAIL: ") (sendRcpt mailFrom rcpt raw opts)

/-- `AUTH PLAIN`, if there is a user. -/
def sendAuth (c : Conn) (reply : Bytes) : SendResult :=
  if opts.authUser = [] then sendMail mailFrom rcpt raw opts c reply
  else
    required mailFrom rcpt opts .auth (bytes "AUTH: ") (sendMail mailFrom rcpt raw opts) c reply

/-- What the peer sends from now on comes over TLS. -/
def Conn.overTls (c : Conn) (chunks : List Bytes) : Conn :=
  { c with stream := { c.stream with pending := chunks } }

/-- `STARTTLS` and the second `EHLO`; where it does not work out, the dialogue goes on in clear. -/
def sendStarttls (c : Conn) (reply : Bytes) : SendResult :=
  match cmd .starttls (command mailFrom rcpt opts .starttls) reply c with
  | (c, reply, code) =>
    if goesOn code then
      match peer.tls with
      | none => sendAuth mailFrom rcpt raw opts c reply
      | some chunks =>
        match cmd .ehloTls (command mailFrom rcpt opts .ehloTls) reply (c.overTls chunks) with
        | (c, reply, code) =>
          if goesOn code then sendAuth mailFrom rcpt raw opts c reply
          else ⟨.transient, bytes "EHLO(TLS): " ++ reply, c⟩
    else sendAuth mailFrom rcpt raw opts c reply

/-- What follows the reply to `EHLO`. -/
def afterEhlo (c : Conn) (reply : Bytes) : SendResult :=
  if opts.useStarttls && (find (bytes "STARTTLS") reply).isSome then
    sendStarttls peer mailFrom rcpt raw opts c reply
  else sendAuth mailFrom rcpt raw opts c reply

/-- `Deliver`. -/
def deliver : SendResult :=
  match peer.connection with
  | .error err => ⟨.transient, err, ⟨connect [], 0, [], [], []⟩⟩
  | .ok chunks =>
    match readReply .greeting ⟨connect chunks, peer.writes, [], [], []⟩ with
    | (c, reply, code) =>
      if goesOn code then
        required mailFrom rcpt opts .ehlo (bytes "EHLO: ") (afterEhlo peer mailFrom rcpt raw opts)
          c reply
      else ⟨refusal code, bytes "greeting: " ++ reply, c⟩

end Deliver

end QuackMail.Smtp
