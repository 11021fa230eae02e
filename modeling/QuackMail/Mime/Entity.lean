import QuackMail.Codec.Base64
import QuackMail.Mime.QuotedPrintable

/-! # MIME entities

The parser of `mime_entity.cpp` and the transfer decodings of `mime_codec.cpp` it
applies to a leaf.
-/

namespace QuackMail.Mime

def trim (s : Bytes) : Bytes := trimBy isSpace s

/-! ## Transfer encodings -/

/-- `DecodeContentTransferEncoding`; of broken base64 what was decoded is kept. -/
def decodeContentTransferEncoding (encoding body : Bytes) : Bytes :=
  let enc := trimBy (fun c => c == ch ' ' || c == ch '\t') (lower encoding)
  if enc = bytes "base64" then Base64.decoded body
  else if enc = bytes "quoted-printable" then decodeQuotedPrintable body
  else body

/-! ## Structured header fields -/

structure ContentType where
  type : Bytes
  subtype : Bytes
  params : List (Bytes × Bytes)
  deriving DecidableEq

def ContentType.param (ct : ContentType) (name : Bytes) : Bytes :=
  match ct.params.find? (fun p => p.1 == lower name) with
  | none => []
  | some p => p.2

/-- `StripComments`: the depth of the comment, and whether a quoted string is open. -/
def stripComments : Nat → Bool → Bytes → Bytes
  | _, _, [] => []
  | _, true, [c] => [c]
  | depth, true, c :: d :: s =>
    if c = ch '\\' then c :: d :: stripComments depth true s
    else c :: stripComments depth (c != ch '"') (d :: s)
  | 0, false, c :: s =>
    if c = ch '"' then c :: stripComments 0 true s
    else if c = ch '(' then stripComments 1 false s
    else c :: stripComments 0 false s
  | _ + 1, false, [_] => []
  | depth + 1, false, c :: d :: s =>
    if c = ch '\\' then stripComments (depth + 1) false s
    else if c = ch '(' then stripComments (depth + 2) false (d :: s)
    else if c = ch ')' then stripComments depth false (d :: s)
    else stripComments (depth + 1) false (d :: s)

/-- `SplitSemicolons`: `;` inside a quoted string does not split. -/
def splitSemicolons : Bool → Bytes → Bytes → List Bytes
  | _, cur, [] => [cur]
  | true, cur, [c] => [cur ++ [c]]
  | true, cur, c :: d :: s =>
    if c = ch '\\' then splitSemicolons true (cur ++ [c, d]) s
    else splitSemicolons (c != ch '"') (cur ++ [c]) (d :: s)
  | false, cur, c :: s =>
    if c = ch '"' then splitSemicolons true (cur ++ [c]) s
    else if c = ch ';' then cur :: splitSemicolons false [] s
    else splitSemicolons false (cur ++ [c]) s

/-- The inside of a quoted string without its escapes. -/
def unescape : Bytes → Bytes
  | [] => []
  | [c] => [c]
  | c :: d :: s => if c = ch '\\' then d :: unescape s else c :: unescape (d :: s)

def unquote (s : Bytes) : Bytes :=
  let t := trim s
  if t.length ≥ 2 ∧ t.head? = some (ch '"') ∧ t.getLast? = some (ch '"') then
    unescape (t.drop 1).dropLast
  else t

/-- One parameter; without a `=` or without a name it is skipped. -/
def parseParam (field : Bytes) : Option (Bytes × Bytes) :=
  let f := trim field
  match findChar (ch '=') f with
  | none => none
  | some eq =>
    let name := lower (trim (f.take eq))
    if name = [] then none else some (name, unquote (f.drop (eq + 1)))

/-- `ParseContentType`. -/
def parseContentType (value : Bytes) : ContentType :=
  match splitSemicolons false [] (stripComments 0 false value) with
  | [] => ⟨[], [], []⟩
  | first :: fields =>
    let token := trim first
    let params := fields.filterMap parseParam
    match findChar (ch '/') token with
    | some slash =>
      ⟨lower (trim (token.take slash)), lower (trim (token.drop (slash + 1))), params⟩
    | none => ⟨lower token, [], params⟩

/-! ## Headers and body -/

/-- `SplitHeadersBody`. -/
def splitHeadersBody (raw : Bytes) : Bytes × Bytes :=
  match find (bytes "\r\n\r\n") raw with
  | some p => (raw.take p, raw.drop (p + 4))
  | none =>
    match find (bytes "\n\n") raw with
    | some q => (raw.take q, raw.drop (q + 2))
    | none => (raw, [])

def isBlank (c : Byte) : Bool := c == ch ' ' || c == ch '\t'

/-- The unfolded lines of a header block; the flag says that the white space in front of
    a continuation is being skipped. -/
def headerLines : Bool → Bytes → Bytes → List Bytes
  | _, cur, [] => if cur = [] then [] else [cur]
  | skip, cur, c :: s =>
    if skip && isBlank c then headerLines true cur s
    else if c = ch '\r' then headerLines false cur s
    else if c = ch '\n' then
      if s.head?.any isBlank then headerLines true (cur ++ [ch ' ']) s
      else cur :: headerLines false [] s
    else headerLines false (cur ++ [c]) s

def parseHeader (line : Bytes) : Option (Bytes × Bytes) :=
  match findChar (ch ':') line with
  | none => none
  | some colon =>
    let name := trim (line.take colon)
    if name = [] then none else some (name, trim (line.drop (colon + 1)))

/-- `ParseHeaderBlock`. -/
def parseHeaderBlock (block : Bytes) : List (Bytes × Bytes) :=
  (headerLines false [] block).filterMap parseHeader

/-- `HeaderValue`. -/
def headerValue (headers : List (Bytes × Bytes)) (name : Bytes) : Bytes :=
  match headers.find? (fun h => lower h.1 == lower name) with
  | none => []
  | some h => h.2

/-! ## Multipart bodies -/

/-- A delimiter line: where it starts, and where the part after it does. -/
structure Delimiter where
  pos : Nat
  content : Nat

/-- The delimiter found at `p`, and whether it is the closing one. -/
def delimiterAt (dash body : Bytes) (p : Nat) : Delimiter × Bool :=
  let after := p + dash.length
  let close := (body.drop after).take 2 = bytes "--"
  let stop := findCharFrom (ch '\n') body (if close then after + 2 else after)
  (⟨p, stop.elim body.length (· + 1)⟩, close)

def atLineStart (body : Bytes) (p : Nat) : Bool := p == 0 || body[p - 1]? == some (ch '\n')

/-- The loop of `SplitMultipart` over the delimiters; every round moves on, so as many
    rounds as the body has bytes and one more are enough. -/
def delimiters (dash body : Bytes) : Nat → Nat → List Delimiter
  | 0, _ => []
  | fuel + 1, search =>
    match findFrom dash body search with
    | none => []
    | some p =>
      if atLineStart body p then
        let d := delimiterAt dash body p
        d.1 :: if d.2 then [] else delimiters dash body fuel d.1.content
      else delimiters dash body fuel (p + dash.length)

/-- The line ending in front of a delimiter belongs to it. -/
def trimEnding (part : Bytes) : Bytes :=
  if part.getLast? = some (ch '\n') then
    let part := part.dropLast
    if part.getLast? = some (ch '\r') then part.dropLast else part
  else part

/-- The parts between one delimiter and the next. -/
def partsBetween (body : Bytes) : List Delimiter → List Bytes
  | d :: e :: rest =>
    trimEnding ((body.drop d.content).take (e.pos - d.content)) :: partsBetween body (e :: rest)
  | _ => []

/-- `SplitMultipart`. -/
def splitMultipart (body boundary : Bytes) : List Bytes :=
  partsBetween body (delimiters (bytes "--" ++ boundary) body (body.length + 1) 0)

/-! ## Entities -/

structure MimeEntity where
  headers : List (Bytes × Bytes)
  contentType : ContentType
  charset : Bytes
  encoding : Bytes
  disposition : Bytes
  filename : Bytes
  contentId : Bytes
  bodyRaw : Bytes
  bodyDecoded : Bytes
  children : List MimeEntity

/-- The content type and the charset, with the defaults of RFC 2045. -/
def contentTypeOf (headers : List (Bytes × Bytes)) : ContentType × Bytes :=
  let raw := headerValue headers (bytes "Content-Type")
  if raw = [] then (⟨bytes "text", bytes "plain", []⟩, bytes "us-ascii")
  else
    let ct := parseContentType raw
    let ct := if ct.type = [] then { ct with type := bytes "text", subtype := bytes "plain" } else ct
    let charset := lower (ct.param (bytes "charset"))
    (ct, if charset = [] ∧ ct.type = bytes "text" then bytes "us-ascii" else charset)

def encodingOf (headers : List (Bytes × Bytes)) : Bytes :=
  let cte := trim (headerValue headers (bytes "Content-Transfer-Encoding"))
  if cte = [] then bytes "7bit" else lower cte

/-- The disposition and the file name; the `name` of the type stands in for a missing one. -/
def dispositionOf (headers : List (Bytes × Bytes)) (ct : ContentType) : Bytes × Bytes :=
  let raw := headerValue headers (bytes "Content-Disposition")
  let cd := if raw = [] then ⟨[], [], []⟩ else parseContentType raw
  let filename := cd.param (bytes "filename")
  (cd.type, if filename = [] then ct.param (bytes "name") else filename)

def contentIdOf (headers : List (Bytes × Bytes)) : Bytes :=
  let cid := trim (headerValue headers (bytes "Content-ID"))
  if cid.length ≥ 2 ∧ cid.head? = some (ch '<') ∧ cid.getLast? = some (ch '>') then
    (cid.drop 1).dropLast
  else cid

/-- An entity without its children, and the texts they are parsed from. -/
def parseNode (raw : Bytes) : MimeEntity × List Bytes :=
  let split := splitHeadersBody raw
  let headers := parseHeaderBlock split.1
  let ct := contentTypeOf headers
  let encoding := encodingOf headers
  let disposition := dispositionOf headers ct.1
  let multipart := ct.1.type = bytes "multipart"
  let decoded := if multipart then [] else decodeContentTransferEncoding encoding split.2
  let boundary := ct.1.param (bytes "boundary")
  (⟨headers, ct.1, ct.2, encoding, disposition.1, disposition.2, contentIdOf headers, split.2,
      decoded, []⟩,
    if multipart then (if boundary = [] then [] else splitMultipart split.2 boundary)
    else if ct.1.type = bytes "message" ∧ ct.1.subtype = bytes "rfc822" then [decoded]
    else [])

/-- `ParseEntity`; an entity is longer than its children, so as many levels as it has
    bytes and one more are enough. -/
def parseEntityFuel : Nat → Bytes → MimeEntity
  | 0, raw => (parseNode raw).1
  | fuel + 1, raw =>
    { (parseNode raw).1 with children := (parseNode raw).2.map (parseEntityFuel fuel) }

def parseEntity (raw : Bytes) : MimeEntity := parseEntityFuel (raw.length + 1) raw

end QuackMail.Mime
