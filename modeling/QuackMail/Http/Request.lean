import QuackMail.Net.Stream

/-! # Reading requests

`ReadRequest` of `http.cpp`, with the line reader and the checks it uses.  A request is read
off a client stream; `late` says at which header line the wall clock has passed the deadline.
-/

namespace QuackMail.Http

open Net

/-! ## Text -/

def iEquals (a b : Bytes) : Bool := decide (lower a = lower b)

/-- `Trim`: spaces and tabs. -/
def trim (s : Bytes) : Bytes := trimBy (fun c => c == ch ' ' || c == ch '\t') s

def hexVal (c : Byte) : Option Nat :=
  if isDigit c then some (c.toNat - 48)
  else if ch 'a' ≤ c && c ≤ ch 'f' then some (c.toNat - 87)
  else if ch 'A' ≤ c && c ≤ ch 'F' then some (c.toNat - 55)
  else none

def kExtra : Bytes := bytes "!#$%&'*+-.^_`|~"

/-- A byte `IsToken` accepts: `strchr` also finds the NUL that ends `kExtra`. -/
def isTokenByte (c : Byte) : Bool := isAlnum c || decide (c ∈ kExtra) || c == 0

/-- `IsToken`. -/
def isToken (s : Bytes) : Bool := s ≠ [] && s.all isTokenByte

def percentDecode (plusAsSpace : Bool) : Bytes → Bytes
  | [] => []
  | c :: s =>
    if plusAsSpace && c == ch '+' then ch ' ' :: percentDecode plusAsSpace s
    else if c = ch '%' then
      match s with
      | hi :: lo :: t =>
        match hexVal hi, hexVal lo with
        | some h, some l => UInt8.ofNat (h * 16 + l) :: percentDecode plusAsSpace t
        | _, _ => c :: percentDecode plusAsSpace (hi :: lo :: t)
      | t => c :: percentDecode plusAsSpace t
    else c :: percentDecode plusAsSpace s

/-- `NormalizePath`. -/
def normalizePath (decoded : Bytes) : Option Bytes :=
  if decoded.head? ≠ some (ch '/') then none
  else if decoded.any fun c => c < 0x20 || c == 0x7f then none
  else
    let segs := splitOn (ch '/') (decoded.drop 1)
    if segs.any fun s => s == bytes "." || s == bytes ".." then none
    else
      let kept := segs.filter (· ≠ [])
      if kept = [] then some (bytes "/")
      else
        some (kept.flatMap (ch '/' :: ·) ++
          if 1 < decoded.length ∧ decoded.getLast? = some (ch '/') then bytes "/" else [])

/-! ## Requests -/

abbrev Headers := List (Bytes × Bytes)

structure Request where
  method : Bytes
  target : Bytes
  path : Bytes
  query : Bytes
  version : Bytes
  headers : Headers
  body : Bytes
  deriving DecidableEq

structure Limits where
  maxRequestLine : Nat
  maxHeaderBytes : Nat
  maxHeaders : Nat
  maxBody : Nat

/-- `ReadResult`, other than `Ok`. -/
inductive ReadResult where
  | eof
  | badRequest
  | uriTooLong
  | headersTooLarge
  | bodyTooLarge
  | lengthRequired
  | timeout
  | notImplemented

/-- `Request::Header`: the values of every field of that name, joined. -/
def header (headers : Headers) (name : Bytes) : Bytes :=
  headers.foldl (fun out h =>
    if iEquals h.1 name then (if out = [] then out else out ++ bytes ", ") ++ h.2 else out) []

def hasHeader (headers : Headers) (name : Bytes) : Bool := headers.any fun h => iEquals h.1 name

/-! ## Lines -/

inductive LineStatus where
  | ok
  | eof
  | tooLong

/-- The loop of `ReadLimitedLine`. -/
def readLimitedLineLoop (maxLen : Nat) :
    Nat → Bytes → ClientStream → ClientStream × LineStatus × Bytes
  | 0, line, s => (s, .eof, line)
  | fuel + 1, line, s =>
    match readByte s with
    | (s, none) => (s, .eof, line)
    | (s, some c) =>
      if c = ch '\n' then (s, .ok, stripCr line)
      else if maxLen ≤ line.length then (s, .tooLong, line)
      else readLimitedLineLoop maxLen fuel (line ++ [c]) s

/-- `ReadLimitedLine`; every round takes one byte. -/
def readLimitedLine (maxLen : Nat) (s : ClientStream) : ClientStream × LineStatus × Bytes :=
  readLimitedLineLoop maxLen ((rest s).length + 1) [] s

/-- Leading empty lines are passed over, up to four of them. -/
def skipEmpty (limits : Limits) :
    Nat → Bytes → ClientStream → ClientStream × Except ReadResult Bytes
  | 0, line, s => (s, .ok line)
  | n + 1, line, s =>
    if line = [] then
      match readLimitedLine limits.maxRequestLine s with
      | (s, .ok, line) => skipEmpty limits n line s
      | (s, .tooLong, _) => (s, .error .uriTooLong)
      | (s, .eof, _) => (s, .error .eof)
    else (s, .ok line)

/-! ## The request line -/

/-- Of an absolute target only the path is kept. -/
def originForm (target : Bytes) : Bytes :=
  match [bytes "http://", bytes "https://"].find? fun scheme =>
      decide (scheme.length < target.length) && iEquals (target.take scheme.length) scheme with
  | some scheme =>
    match findCharFrom (ch '/') target scheme.length with
    | some slash => target.drop slash
    | none => bytes "/"
  | none => target

/-- The path and the query of a target. -/
def splitTarget (target : Bytes) : Option (Bytes × Bytes) :=
  let target := originForm target
  if target.head? ≠ some (ch '/') then none
  else
    let r :=
      match findChar (ch '?') target with
      | some q => (target.take q, target.drop (q + 1))
      | none => (target, [])
    (normalizePath (percentDecode false r.1)).map fun path => (path, r.2)

/-- The request line, without headers and body. -/
def requestLine (line : Bytes) : Except ReadResult Request :=
  match findChar (ch ' ') line with
  | none => .error .badRequest
  | some sp1 =>
    match findCharFrom (ch ' ') line (sp1 + 1) with
    | none => .error .badRequest
    | some sp2 =>
      let method := upper (line.take sp1)
      let target := (line.drop (sp1 + 1)).take (sp2 - sp1 - 1)
      let version := line.drop (sp2 + 1)
      if !isToken method ∨ target = [] then .error .badRequest
      else if ¬bytes "HTTP/1." <+: version then .error .badRequest
      else
        match splitTarget target with
        | none => .error .badRequest
        | some (path, query) => .ok ⟨method, target, path, query, version, [], []⟩

/-! ## Header fields -/

/-- One header line. -/
def headerField (h : Bytes) : Option (Bytes × Bytes) :=
  if h.head? = some (ch ' ') ∨ h.head? = some (ch '\t') then none
  else
    match findChar (ch ':') h with
    | none => none
    | some colon =>
      if isToken (h.take colon) then some (h.take colon, trim (h.drop (colon + 1))) else none

/-- The header loop, of which every round but the last adds a field. -/
def readHeaders (limits : Limits) (late : Nat → Bool) :
    Nat → Nat → Headers → ClientStream → ClientStream × Except ReadResult Headers
  | 0, _, _, s => (s, .error .headersTooLarge)
  | fuel + 1, headerBytes, headers, s =>
    if late headers.length then (s, .error .timeout)
    else
      match readLimitedLine limits.maxHeaderBytes s with
      | (s, .tooLong, _) => (s, .error .headersTooLarge)
      | (s, .eof, _) => (s, .error .badRequest)
      | (s, .ok, h) =>
        if h = [] then (s, .ok headers)
        else if limits.maxHeaderBytes < headerBytes + (h.length + 2) ∨
            limits.maxHeaders ≤ headers.length then (s, .error .headersTooLarge)
        else
          match headerField h with
          | none => (s, .error .badRequest)
          | some field =>
            readHeaders limits late fuel (headerBytes + (h.length + 2)) (headers ++ [field]) s

/-! ## The body -/

/-- The digits of a `Content-Length`. -/
def lengthDigits : Nat → Bytes → Except ReadResult Nat
  | n, [] => .ok n
  | n, c :: v =>
    if !isDigit c then .error .badRequest
    else if 1 <<< 40 < n then .error .bodyTooLarge
    else lengthDigits (n * 10 + (c.toNat - 48)) v

/-- The loop over the `Content-Length` fields; what is found so far comes first. -/
def contentLength : Option Nat → Headers → Except ReadResult (Option Nat)
  | found, [] => .ok found
  | found, h :: headers =>
    if iEquals h.1 (bytes "Content-Length") then
      let v := trim h.2
      if v = [] then .error .badRequest
      else
        match lengthDigits 0 v with
        | .error err => .error err
        | .ok n =>
          if found.any (· ≠ n) then .error .badRequest else contentLength (some n) headers
    else contentLength found headers

/-- What the header fields say of the body; chunked bodies are refused. -/
def bodyLength (headers : Headers) : Except ReadResult Nat :=
  if hasHeader headers (bytes "Transfer-Encoding") then
    if hasHeader headers (bytes "Content-Length") then .error .badRequest
    else .error .lengthRequired
  else
    match contentLength none headers with
    | .error err => .error err
    | .ok length => .ok (length.getD 0)

/-- The interim response to `Expect: 100-continue`. -/
def interim (headers : Headers) : Bytes :=
  if iEquals (trim (header headers (bytes "Expect"))) (bytes "100-continue") then
    bytes "HTTP/1.1 100 Continue\r\n\r\n"
  else []

/-! ## `ReadRequest` -/

/-- The start of a request: its first line that is not empty. -/
def readStart (limits : Limits) (firstRequest : Bool) (s : ClientStream) :
    ClientStream × Except ReadResult Bytes :=
  match readLimitedLine limits.maxRequestLine s with
  | (s, .tooLong, _) => (s, .error .uriTooLong)
  | (s, .eof, line) =>
    (s, .error (if !firstRequest then .eof else if line = [] then .eof else .badRequest))
  | (s, .ok, line) => skipEmpty limits 4 line s

/-- `ReadRequest`: the stream that is left, what was written to the peer, and the answer. -/
def readRequest (limits : Limits) (late : Nat → Bool) (firstRequest : Bool) (s : ClientStream) :
    ClientStream × Bytes × Except ReadResult Request :=
  match readStart limits firstRequest s with
  | (s, .error err) => (s, [], .error err)
  | (s, .ok line) =>
    match requestLine line with
    | .error err => (s, [], .error err)
    | .ok req =>
      match readHeaders limits late (limits.maxHeaders + 1) 0 [] s with
      | (s, .error err) => (s, [], .error err)
      | (s, .ok headers) =>
        match bodyLength headers with
        | .error err => (s, [], .error err)
        | .ok 0 => (s, [], .ok { req with headers := headers })
        | .ok (n + 1) =>
          if limits.maxBody < n + 1 then (s, [], .error .bodyTooLarge)
          else
            match readN (n + 1) s with
            | (s, true, body) =>
              (s, interim headers, .ok { req with headers := headers, body := body })
            | (s, false, _) => (s, interim headers, .error .timeout)

/-- Up to `n` requests of a connection, and the stream after the last of them; a refusal
    ends the connection. -/
def readRequests (limits : Limits) (late : Nat → Nat → Bool) :
    Nat → Nat → ClientStream → List Request × ClientStream
  | 0, _, s => ([], s)
  | n + 1, served, s =>
    match readRequest limits (late served) (served == 0) s with
    | (s', _, .ok req) =>
      let more := readRequests limits late n (served + 1) s'
      (req :: more.1, more.2)
    | (_, _, .error _) => ([], s)

end QuackMail.Http
