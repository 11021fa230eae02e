import QuackMail.Codec.Base64
import QuackMail.Dkim.Message

/-! # Signing and verifying

`Sign` and `Verify` of `dkim.cpp`.  OpenSSL is a parameter: digests, keys and the
signature scheme.
-/

namespace QuackMail.Dkim

/-- The digests the signatures use. -/
inductive Md where
  | sha1
  | sha256
  deriving DecidableEq

/-- What OpenSSL is used for.  A signature or a verification without a digest is pure
    Ed25519. -/
structure Crypto where
  Priv : Type
  Pub : Type
  digest : Md → Bytes → Bytes
  /-- `PEM_read_bio_PrivateKey`. -/
  readPrivate : Bytes → Option Priv
  isEd25519 : Priv → Bool
  /-- `EVP_DigestSign`, or the text of the error. -/
  sign : Option Md → Priv → Bytes → Except Bytes Bytes
  /-- `EVP_PKEY_new_raw_public_key` for Ed25519. -/
  rawPublic : Bytes → Option Pub
  /-- `d2i_PUBKEY`. -/
  readPublic : Bytes → Option Pub
  /-- `EVP_DigestVerify`: key, data, signature. -/
  verify : Option Md → Pub → Bytes → Bytes → Bool

/-! ## Tag lists -/

/-- `StripWsp`. -/
def stripWsp (s : Bytes) : Bytes := s.filter (fun c => !isTrimmed c)

/-- One chunk between two `;`: without a `=` it is skipped. -/
def parseTag (chunk : Bytes) : Option (Bytes × Bytes) :=
  match findChar (ch '=') chunk with
  | none => none
  | some eq => some (lower (trim (chunk.take eq)), trim (unfold (chunk.drop (eq + 1))))

/-- `ParseTagList`. -/
def parseTagList (s : Bytes) : List (Bytes × Bytes) := (splitOn (ch ';') s).filterMap parseTag

/-- `TagValue`: the first tag of the name. -/
def tagValue (tags : List (Bytes × Bytes)) (name : Bytes) : Bytes :=
  match tags.find? (fun t => t.1 == name) with
  | none => []
  | some t => t.2

/-! ## Header selection -/

/-- A header name as the two sides compare it. -/
def key (name : Bytes) : Bytes := lower (trim name)

/-- The names of an `h=` list; empty ones are skipped. -/
def listNames (list : Bytes) : List Bytes :=
  ((splitOn (ch ':') list).map key).filter (· ≠ [])

/-- The last header of the name that is not used yet, and the marks after it is. -/
def lastUnused (name : Bytes) :
    List (RawHeader × Bool) → Option (RawHeader × List (RawHeader × Bool))
  | [] => none
  | (h, used) :: rest =>
    match lastUnused name rest with
    | some (g, rest') => some (g, (h, used) :: rest')
    | none => if used = false ∧ key h.name = name then some (h, (h, true) :: rest) else none

/-- The canonical headers for a list of names, each taking the next one from the end. -/
def selectHeaders (relaxed : Bool) : List Bytes → List (RawHeader × Bool) → Bytes
  | [], _ => []
  | name :: names, marked =>
    match lastUnused name marked with
    | none => selectHeaders relaxed names marked
    | some (h, marked') =>
      canonicalizeHeader h.name h.value relaxed ++ selectHeaders relaxed names marked'

/-- The signature header closes the block, without its CRLF. -/
def canonicalSignature (name value : Bytes) (relaxed : Bool) : Bytes :=
  let canon := canonicalizeHeader name value relaxed
  if canon.length ≥ 2 then canon.take (canon.length - 2) else canon

/-! ## Signing -/

/-- The header list when the caller names none. -/
def defaultHeaders : Bytes :=
  bytes "from:to:cc:subject:date:message-id:mime-version:content-type:content-transfer-encoding"

/-- The names of the list that are present, in the caller's order. -/
def wanted (list : Bytes) (headers : List RawHeader) : List Bytes :=
  (listNames (if list = [] then defaultHeaders else list)).filter
    (fun name => headers.any (fun h => key h.name == name))

/-- The signature header up to an empty `b=`. -/
def sigValue (now : Int) (algo domain selector hTag bh : Bytes) : Bytes :=
  bytes " v=1; a=" ++ algo ++ bytes "; c=relaxed/relaxed;\r\n\td=" ++ domain ++ bytes "; s=" ++
    selector ++ bytes ";\r\n\tt=" ++ numInt now ++ bytes ";\r\n\th=" ++ hTag ++
    bytes ";\r\n\tbh=" ++ bh ++ bytes ";\r\n\tb="

/-- Fold the signature into lines of 64 characters. -/
def foldFrom : Nat → Bytes → Bytes
  | _, [] => []
  | 0, c :: s => crlf ++ ch '\t' :: c :: foldFrom 63 s
  | n + 1, c :: s => c :: foldFrom n s

def fold (b64 : Bytes) : Bytes := foldFrom 64 b64

/-- What a successful `Sign` signs and writes. -/
structure Signed (C : Crypto) where
  priv : C.Priv
  algorithm : Bytes
  names : List Bytes
  bodyHash : Bytes
  value : Bytes
  block : Bytes
  signature : Bytes

/-- The digest that goes to the signature scheme; Ed25519 signs the hash of the block. -/
def schemeDigest (ed25519 : Bool) (md : Md) : Option Md := if ed25519 then none else some md

def schemeInput (C : Crypto) (ed25519 : Bool) (block : Bytes) : Bytes :=
  if ed25519 then C.digest .sha256 block else block

def algorithmOf (ed25519 : Bool) : Bytes :=
  if ed25519 then bytes "ed25519-sha256" else bytes "rsa-sha256"

/-- The signature header and the block for a key and a message. -/
def signParts (C : Crypto) (now : Int) (headers : List RawHeader) (body domain selector : Bytes)
    (priv : C.Priv) (names : List Bytes) : Bytes × Bytes × Bytes :=
  let bodyHash := C.digest .sha256 (canonicalizeBody body true)
  let value := sigValue now (algorithmOf (C.isEd25519 priv)) domain selector
    (joinWith (ch ':') names) (Base64.encode bodyHash)
  (bodyHash, value, selectHeaders true names (headers.map (·, false)) ++
    canonicalSignature (bytes "DKIM-Signature") value true)

/-- `Sign` up to the signature. -/
def signed (C : Crypto) (now : Int) (raw domain selector pem list : Bytes) :
    Except Bytes (Signed C) :=
  if domain = [] ∨ selector = [] ∨ pem = [] then
    .error (bytes "domain, selector and private key are all required")
  else
    match C.readPrivate pem with
    | none => .error (bytes "private key is not a readable PEM")
    | some priv =>
      let message := splitMessage raw
      let names := wanted list message.1
      if names = [] then .error (bytes "none of the headers to sign are present")
      else
        let parts := signParts C now message.1 message.2 domain selector priv names
        let ed25519 := C.isEd25519 priv
        match C.sign (schemeDigest ed25519 .sha256) priv (schemeInput C ed25519 parts.2.2) with
        | .error e => .error (bytes "signing failed: " ++ e)
        | .ok signature =>
          .ok ⟨priv, algorithmOf ed25519, names, parts.1, parts.2.1, parts.2.2, signature⟩

/-- The signed message. -/
def Signed.message {C : Crypto} (p : Signed C) (raw : Bytes) : Bytes :=
  bytes "DKIM-Signature" ++ ch ':' :: (p.value ++ fold (Base64.encode p.signature)) ++ crlf ++ raw

/-- `Sign`. -/
def sign (C : Crypto) (now : Int) (raw domain selector pem list : Bytes) : Except Bytes Bytes :=
  (signed C now raw domain selector pem list).map (·.message raw)

/-! ## Verifying -/

inductive Result where
  | none
  | pass
  | fail
  | neutral
  | tempError
  | permError

structure VerifyResult where
  result : Result
  domain : Bytes
  selector : Bytes
  algorithm : Bytes
  info : Bytes

/-- Where a key record comes from: the local lookup, and the TXT records of a name with
    a flag for a temporary failure. -/
structure KeySource where
  lookup : Bytes → Bytes → Option Bytes
  txt : Bytes → Bool × List Bytes

/-- `FetchKeyRecord`: the record, or whether the failure is temporary. -/
def fetchKeyRecord (K : KeySource) (selector domain : Bytes) : Except Bool Bytes :=
  let fromDns :=
    let answer := K.txt (selector ++ bytes "._domainkey." ++ domain)
    if answer.1 then .error true
    else
      match answer.2.find? (fun t => (find (bytes "p=") t).isSome) with
      | none => .error false
      | some record => .ok record
  match K.lookup selector domain with
  | none => fromDns
  | some record => if record = [] then fromDns else .ok record

/-- `PublicKeyFromTag`. -/
def publicKeyFromTag (C : Crypto) (p keyType : Bytes) : Except Bytes C.Pub :=
  match Base64.decode (stripWsp p) with
  | none => .error (bytes "key record p= is not valid base64")
  | some der =>
    if der = [] then .error (bytes "key record p= is not valid base64")
    else if keyType = bytes "ed25519" then
      if der.length ≠ 32 then .error (bytes "ed25519 public key must be 32 bytes")
      else (C.rawPublic der).elim (.error (bytes "ed25519 public key rejected")) .ok
    else
      (C.readPublic der).elim (.error (bytes "public key is not a valid SubjectPublicKeyInfo")) .ok

/-- The tags `Verify` reads of a signature header. -/
structure SigTags where
  domain : Bytes
  selector : Bytes
  algorithm : Bytes
  b : Bytes
  bh : Bytes
  names : Bytes
  canon : Bytes
  length : Bytes
  expires : Bytes

def sigTags (value : Bytes) : SigTags :=
  let tags := parseTagList value
  { domain := tagValue tags (bytes "d")
    selector := tagValue tags (bytes "s")
    algorithm := lower (tagValue tags (bytes "a"))
    b := stripWsp (tagValue tags (bytes "b"))
    bh := stripWsp (tagValue tags (bytes "bh"))
    names := tagValue tags (bytes "h")
    canon := lower (tagValue tags (bytes "c"))
    length := tagValue tags (bytes "l")
    expires := tagValue tags (bytes "x") }

namespace SigTags

def complete (t : SigTags) : Bool :=
  t.domain ≠ [] && t.selector ≠ [] && t.b ≠ [] && t.bh ≠ [] && t.names ≠ []

/-- The algorithm, RSA with SHA-256 when the tag is missing. -/
def algo (t : SigTags) : Bytes := if t.algorithm = [] then bytes "rsa-sha256" else t.algorithm

def supported (t : SigTags) : Bool :=
  t.algo = bytes "rsa-sha256" || t.algo = bytes "rsa-sha1" || t.algo = bytes "ed25519-sha256"

def ed25519 (t : SigTags) : Bool := t.algo = bytes "ed25519-sha256"

def expired (t : SigTags) (now : Int) : Bool :=
  t.expires ≠ [] && strtoll t.expires > 0 && now > strtoll t.expires

/-- The `c=` tag is "header/body"; a missing half is simple. -/
def relaxedHeader (t : SigTags) : Bool :=
  match findChar (ch '/') t.canon with
  | none => trim t.canon = bytes "relaxed"
  | some slash => trim (t.canon.take slash) = bytes "relaxed"

def relaxedBody (t : SigTags) : Bool :=
  match findChar (ch '/') t.canon with
  | none => false
  | some slash => trim (t.canon.drop (slash + 1)) = bytes "relaxed"

/-- `HashForAlgorithm`. -/
def md (t : SigTags) : Md := if t.algo = bytes "rsa-sha1" then .sha1 else .sha256

/-- The digest of the body, of a prefix of it under `l=`. -/
def bodyDigest (C : Crypto) (t : SigTags) (body : Bytes) : Bytes :=
  let canon := canonicalizeBody body t.relaxedBody
  C.digest t.md
    (if t.length = [] then canon else canon.take (strtoll t.length % 0x10000000000000000).toNat)

end SigTags

/-- The text before a position, read backwards: nothing but white space up to a `;`. -/
def atTagStart (before : Bytes) : Bool :=
  match before.dropWhile isTrimmed with
  | [] => true
  | c :: _ => c == ch ';'

/-- Where the `b=` tag starts; `before` is what was passed, backwards. -/
def bTag : Bytes → Bytes → Option Nat
  | before, c :: d :: s =>
    if c = ch 'b' ∧ d = ch '=' ∧ atTagStart before then some before.length
    else bTag (c :: before) (d :: s)
  | _, _ => none

/-- A signature header's value with its `b=` emptied. -/
def emptyB (value : Bytes) : Bytes :=
  match bTag [] (lower value) with
  | none => value
  | some pos =>
    value.take (pos + 2) ++
      match findCharFrom (ch ';') value pos with
      | none => []
      | some stop => value.drop stop

/-- The block `Verify` rebuilds for the signature header at place `i`. -/
def signedBlock (headers : List RawHeader) (i : Nat) (sig : RawHeader) (t : SigTags) : Bytes :=
  selectHeaders t.relaxedHeader (listNames t.names)
    (headers.zipIdx.map (fun h => (h.1, decide (h.2 = i)))) ++
    canonicalSignature sig.name (emptyB sig.value) t.relaxedHeader

/-- The key of a key record; its type defaults to that of the algorithm. -/
def keyOfRecord (C : Crypto) (ed25519 : Bool) (record : Bytes) : Except Bytes C.Pub :=
  let tags := parseTagList record
  let p := stripWsp (tagValue tags (bytes "p"))
  let k := lower (tagValue tags (bytes "k"))
  let keyType := if k = [] then (if ed25519 then bytes "ed25519" else bytes "rsa") else k
  if p = [] then .error (bytes "key record has been revoked (empty p=)")
  else publicKeyFromTag C p keyType

/-- The key a signature is checked with. -/
def publicKey (C : Crypto) (K : KeySource) (t : SigTags) : Except (Result × Bytes) C.Pub :=
  match fetchKeyRecord K t.selector t.domain with
  | .error true => .error (.tempError, bytes "key lookup failed temporarily")
  | .error false =>
    .error (.permError, bytes "no key for " ++ t.selector ++ bytes "._domainkey." ++ t.domain)
  | .ok record => (keyOfRecord C t.ed25519 record).mapError (Result.permError, ·)

/-- The verdict on a signature whose tags can be used. -/
def verdict (C : Crypto) (K : KeySource) (headers : List RawHeader) (body : Bytes) (i : Nat)
    (sig : RawHeader) (t : SigTags) : Result × Bytes :=
  match Base64.decode t.bh with
  | none => (.permError, bytes "bh= is not valid base64")
  | some wantBh =>
    if t.bodyDigest C body ≠ wantBh then (.fail, bytes "body hash mismatch")
    else
      match publicKey C K t with
      | .error e => e
      | .ok pub =>
        match Base64.decode t.b with
        | none => (.permError, bytes "b= is not valid base64")
        | some signature =>
          if C.verify (schemeDigest t.ed25519 t.md) pub
              (schemeInput C t.ed25519 (signedBlock headers i sig t)) signature then
            (.pass, bytes "signature verified")
          else (.fail, bytes "signature does not verify")

/-- `Verify` for the signature header at place `i`. -/
def verifyAt (C : Crypto) (K : KeySource) (now : Int) (headers : List RawHeader) (body : Bytes)
    (i : Nat) (sig : RawHeader) : VerifyResult :=
  let t := sigTags sig.value
  if t.complete = false then
    ⟨.permError, t.domain, t.selector, t.algorithm, bytes "signature is missing a required tag"⟩
  else if t.supported = false then
    ⟨.neutral, t.domain, t.selector, t.algo, bytes "unsupported algorithm " ++ t.algo⟩
  else if t.expired now then
    ⟨.fail, t.domain, t.selector, t.algo, bytes "signature expired"⟩
  else
    let r := verdict C K headers body i sig t
    ⟨r.1, t.domain, t.selector, t.algo, r.2⟩

def isSignature (h : RawHeader) : Bool := key h.name == bytes "dkim-signature"

/-- `Verify`: one result for every signature header, in the order they appear. -/
def verify (C : Crypto) (K : KeySource) (now : Int) (raw : Bytes) : List VerifyResult :=
  let message := splitMessage raw
  (message.1.zipIdx.filter (fun h => isSignature h.1)).map
    (fun h => verifyAt C K now message.1 message.2 h.2 h.1)

end QuackMail.Dkim
