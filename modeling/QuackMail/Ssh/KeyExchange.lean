import QuackMail.Ssh.Packet

/-! # Key exchange

`Transport::Handshake`, `KeyExchange` and `Read`, cut wherever the next packet is read.  What
OpenSSL computes is a parameter of `Env`.
-/

namespace QuackMail.Ssh

/-! ## Wire format -/

/-- `Reader::Take`. -/
def take (n : Nat) (s : Bytes) : Option (Bytes × Bytes) :=
  if s.length < n then none else some (s.take n, s.drop n)

/-- `Reader::String`. -/
def readString (s : Bytes) : Option (Bytes × Bytes) := do
  let (n, s) ← take 4 s
  take (be32 n) s

/-- `Reader::NameList`. -/
def readNameList (s : Bytes) : Option (List Bytes × Bytes) := do
  let (names, s) ← readString s
  return (if names = [] then [] else splitOn (ch ',') names, s)

/-- `Writer::String`. -/
def writeString (s : Bytes) : Bytes := u32Bytes s.length ++ s

/-- `Writer::NameList`. -/
def writeNameList (names : List Bytes) : Bytes := writeString (joinWith (ch ',') names)

/-- `Writer::Mpint`. -/
def writeMpint (s : Bytes) : Bytes :=
  let magnitude := s.dropWhile (· = 0)
  writeString (if magnitude.head?.any (128 ≤ ·) then 0 :: magnitude else magnitude)

def DISCONNECT : Byte := 1
def IGNORE : Byte := 2
def UNIMPLEMENTED : Byte := 3
def DEBUG : Byte := 4
def EXT_INFO : Byte := 7
def KEXINIT : Byte := 20
def NEWKEYS : Byte := 21
def KEX_ECDH_INIT : Byte := 30
def KEX_ECDH_REPLY : Byte := 31

def PROTOCOL_ERROR : Nat := 2
def KEY_EXCHANGE_FAILED : Nat := 3
def MAC_ERROR : Nat := 5

/-- The first byte of a payload. -/
def msgType (payload : Bytes) : Byte := payload.headD 0

/-! ## Algorithms -/

def kKex : List Bytes := [bytes "curve25519-sha256", bytes "curve25519-sha256@libssh.org"]
def kHostKey : List Bytes := [bytes "ssh-ed25519"]
def kCiphers : List Bytes :=
  [bytes "chacha20-poly1305@openssh.com", bytes "aes256-gcm@openssh.com",
    bytes "aes128-gcm@openssh.com", bytes "aes256-ctr", bytes "aes128-ctr"]
def kMacs : List Bytes :=
  [bytes "hmac-sha2-256-etm@openssh.com", bytes "hmac-sha2-512-etm@openssh.com",
    bytes "hmac-sha2-256", bytes "hmac-sha2-512"]
def kComp : List Bytes := [bytes "none"]

def isAead (cipher : Bytes) : Bool :=
  cipher = bytes "chacha20-poly1305@openssh.com" || (find (bytes "-gcm@") cipher).isSome

/-- `Choose`: empty when there is none. -/
def choose (client server : List Bytes) : Bytes := (client.find? (· ∈ server)).getD []

def keyLen (cipher : Bytes) : Nat :=
  if cipher = bytes "chacha20-poly1305@openssh.com" then 64
  else if (find (bytes "256") cipher).isSome then 32 else 16

def ivLen (cipher : Bytes) : Nat :=
  if cipher = bytes "chacha20-poly1305@openssh.com" then 0 else if isAead cipher then 12 else 16

/-- The size of `MacMd`. -/
def macLen (mac : Bytes) : Nat := if (find (bytes "512") mac).isSome then 64 else 32

/-- What `KeyExchange` reads of a KEXINIT. -/
structure KexInit where
  kex : List Bytes
  hostKey : List Bytes
  encCs : List Bytes
  encSc : List Bytes
  macCs : List Bytes
  macSc : List Bytes
  compCs : List Bytes
  compSc : List Bytes
  follows : Bool

def parseKexInit (payload : Bytes) : Option KexInit := do
  let (_, s) ← take 17 payload
  let (kex, s) ← readNameList s
  let (hostKey, s) ← readNameList s
  let (encCs, s) ← readNameList s
  let (encSc, s) ← readNameList s
  let (macCs, s) ← readNameList s
  let (macSc, s) ← readNameList s
  let (compCs, s) ← readNameList s
  let (compSc, s) ← readNameList s
  let (_, s) ← readNameList s
  let (_, s) ← readNameList s
  let (follows, s) ← take 1 s
  let _ ← take 4 s
  return ⟨kex, hostKey, encCs, encSc, macCs, macSc, compCs, compSc, follows ≠ [0]⟩

/-- The algorithms of one exchange. -/
structure Algorithms where
  kex : Bytes
  hostKey : Bytes
  encCs : Bytes
  encSc : Bytes
  macCs : Bytes
  macSc : Bytes

def negotiate (k : KexInit) : Option Algorithms :=
  let encCs := choose k.encCs kCiphers
  let encSc := choose k.encSc kCiphers
  let a : Algorithms :=
    ⟨choose k.kex kKex, choose k.hostKey kHostKey, encCs, encSc,
      if isAead encCs then [] else choose k.macCs kMacs,
      if isAead encSc then [] else choose k.macSc kMacs⟩
  if a.kex = [] ∨ a.hostKey = [] ∨ a.encCs = [] ∨ a.encSc = [] ∨ choose k.compCs kComp = [] ∨
      choose k.compSc kComp = [] ∨ (isAead a.encCs = false ∧ a.macCs = []) ∨
      (isAead a.encSc = false ∧ a.macSc = []) then none
  else some a

/-- A packet that was sent on a wrong guess follows. -/
def wrongGuess (k : KexInit) (a : Algorithms) : Bool :=
  k.follows && (k.kex.head? ≠ some a.kex || k.hostKey.head? ≠ some a.hostKey)

def strictMarker : Bytes := bytes "kex-strict-c-v00@openssh.com"

/-! ## The transport -/

inductive Phase (σ : Type)
  /-- the client's identification is awaited -/
  | banner
  /-- its first KEXINIT -/
  | kexInit (mine : Bytes)
  | ecdhInit (mine theirs : Bytes) (a : Algorithms) (discardGuess : Bool)
  | newKeys (cipher : σ)
  /-- `Read` is called -/
  | reading

/-- The three numbers at the end are history: the exchanges begun, and those the keys of either
    direction are from. -/
structure Transport (σ : Type) where
  clientVersion : Bytes
  sessionId : Bytes
  strictKex : Bool
  firstKexDone : Bool
  clientExtInfo : Bool
  dead : Bool
  receiver : Receiver σ
  sender : Sender σ
  phase : Phase σ
  exchanges : Nat
  inKeys : Nat
  outKeys : Nat

structure Env (σ : Type) where
  cipher : PacketCipher σ
  noneCipher : σ
  /-- `MakeCipher`, of the cipher, the MAC, the key, the IV and the key of the MAC -/
  makeCipher : Bytes → Bytes → Bytes → Bytes → Bytes → σ
  sha256 : Bytes → Bytes
  x25519Public : Bytes → Bytes
  x25519 : Bytes → Bytes → Option Bytes
  hostKeyBlob : Bytes
  signWithHostKey : Bytes → Option Bytes
  signatureAlgorithms : List Bytes

/-- What a step draws, and whether what it sends goes out. -/
structure World where
  random : Nat → Nat → Byte
  secret : Bytes
  sendOk : Bytes → Bool

/-- A packet, its sequence number, and the exchange its keys are from. -/
structure Packet where
  keys : Nat
  seq : Nat
  payload : Bytes

/-- What a step does outside: `KeyExchange` sends some packets, and the application the others. -/
inductive Event
  | read (p : Packet)
  | sent (p : Packet) (ofExchange : Bool)
  | delivered (payload : Bytes)

section

variable {σ : Type}

def Transport.fail (t : Transport σ) : Transport σ := { t with dead := true }

/-- The steps go on unless the transport is dead. -/
def andThen (r : Transport σ × List Event) (f : Transport σ → Transport σ × List Event) :
    Transport σ × List Event :=
  if r.1.dead then r else ((f r.1).1, r.2 ++ (f r.1).2)

variable (e : Env σ) (w : World)

/-- `WritePacket`. -/
def write (t : Transport σ) (payload : Bytes) (ofExchange : Bool) : Transport σ × List Event :=
  if t.dead then (t, [])
  else
    let r := writePacket e.cipher t.sender (w.random t.sender.seq) payload
    ({ t with sender := r.1, dead := !w.sendOk r.2 },
      [.sent ⟨t.outKeys, t.sender.seq, payload⟩ ofExchange])

/-- `Disconnect`, and `Fail`. -/
def refuse (t : Transport σ) (reason : Nat) (text : Bytes) : Transport σ × List Event :=
  let r := write e w t
    (DISCONNECT :: u32Bytes reason ++ writeString text ++ writeString []) false
  (r.1.fail, r.2)

def buildKexInit (t : Transport σ) : Bytes :=
  let kex := if t.firstKexDone then kKex else kKex ++ [bytes "kex-strict-s-v00@openssh.com"]
  KEXINIT :: (List.range 16).map (w.random 4294967296) ++
    ([kex, kHostKey, kCiphers, kCiphers, kMacs, kMacs, kComp, kComp, [], []].flatMap
      writeNameList ++ [0] ++ u32Bytes 0)

/-- What the first KEXINIT tells of the client. -/
def noteClient (k : KexInit) (t : Transport σ) : Transport σ :=
  if t.firstKexDone then t
  else
    { t with
      strictKex := t.strictKex || strictMarker ∈ k.kex
      clientExtInfo := t.clientExtInfo || bytes "ext-info-c" ∈ k.kex }

/-- The first exchange hash is the id of the session. -/
def noteSession (h : Bytes) (t : Transport σ) : Transport σ :=
  if t.sessionId = [] then { t with sessionId := h } else t

/-- `KeyExchange` behind their KEXINIT, up to their KEX_ECDH_INIT. -/
def onKexInit (mine theirs : Bytes) (t : Transport σ) : Transport σ × List Event :=
  match parseKexInit theirs with
  | none => (t.fail, [])
  | some k =>
    let t := noteClient k t
    if t.firstKexDone = false ∧ t.strictKex = true ∧ t.receiver.seq ≠ 1 then
      refuse e w t PROTOCOL_ERROR (bytes "strict kex: KEXINIT was not the first packet")
    else
      match negotiate k with
      | none => refuse e w t KEY_EXCHANGE_FAILED (bytes "no matching algorithm")
      | some a =>
        ({ t with phase := .ecdhInit mine theirs a (wrongGuess k a), exchanges := t.exchanges + 1 },
          [])

/-- `DeriveKey`. -/
def deriveKey (kMpint h : Bytes) (letter : Char) (sid : Bytes) (need : Nat) : Bytes :=
  let rec extend : Nat → Bytes → Bytes
    | 0, out => out
    | fuel + 1, out =>
      if out.length < need then extend fuel (out ++ e.sha256 (kMpint ++ h ++ out)) else out
  (extend need (e.sha256 (kMpint ++ h ++ [ch letter] ++ sid))).take need

/-- The cipher of one direction: the letters are of its IV, its key and the key of its MAC. -/
def cipherOf (kMpint h sid : Bytes) (cipher mac : Bytes) (letters : Char × Char × Char) : σ :=
  e.makeCipher cipher mac (deriveKey e kMpint h letters.2.1 sid (keyLen cipher))
    (deriveKey e kMpint h letters.1 sid (ivLen cipher))
    (if mac = [] then [] else deriveKey e kMpint h letters.2.2 sid (macLen mac))

/-- Our NEWKEYS, and the keys behind it. -/
def sendNewKeys (cipher : σ) (theirs : σ) (t : Transport σ) : Transport σ × List Event :=
  andThen (write e w t [NEWKEYS] true) fun t =>
    ({ t with
        sender := ⟨cipher, if t.strictKex then 0 else t.sender.seq⟩
        outKeys := t.exchanges, phase := .newKeys theirs }, [])

/-- `KeyExchange` behind their KEX_ECDH_INIT, up to their NEWKEYS. -/
def onEcdhInit (mine theirs : Bytes) (a : Algorithms) (init : Bytes) (t : Transport σ) :
    Transport σ × List Event :=
  match readString (init.drop 1) with
  | none => refuse e w t KEY_EXCHANGE_FAILED (bytes "expected KEX_ECDH_INIT")
  | some (qC, _) =>
    if msgType init ≠ KEX_ECDH_INIT ∨ qC.length ≠ 32 then
      refuse e w t KEY_EXCHANGE_FAILED (bytes "expected KEX_ECDH_INIT")
    else
      match (e.x25519 w.secret qC).filter (· ≠ List.replicate 32 0) with
      | none => refuse e w t KEY_EXCHANGE_FAILED (bytes "key agreement failed")
      | some shared =>
        let qS := e.x25519Public w.secret
        let k := writeMpint shared
        let h := e.sha256 ([t.clientVersion, bytes "SSH-2.0-QuackCit_1.0", theirs, mine,
          e.hostKeyBlob, qC, qS].flatMap writeString ++ k)
        let t := noteSession h t
        match e.signWithHostKey h with
        | none => (t.fail, [])
        | some sig =>
          andThen (write e w t (KEX_ECDH_REPLY :: writeString e.hostKeyBlob ++ writeString qS ++
            writeString sig) true) (sendNewKeys e w
              (cipherOf e k h t.sessionId a.encSc a.macSc ('B', 'D', 'F'))
              (cipherOf e k h t.sessionId a.encCs a.macCs ('A', 'C', 'E')))

/-- The packet that has to be their NEWKEYS; behind the first, `Handshake` tells the client of the
    signature algorithms. -/
def onNewKeys (cipher : σ) (payload : Bytes) (t : Transport σ) : Transport σ × List Event :=
  if msgType payload ≠ NEWKEYS then refuse e w t PROTOCOL_ERROR (bytes "expected NEWKEYS")
  else
    let t' : Transport σ :=
      { t with
        receiver := ⟨t.receiver.inbox, cipher, if t.strictKex then 0 else t.receiver.seq⟩
        inKeys := t.exchanges, firstKexDone := true, phase := .reading }
    if t.firstKexDone = false ∧ t.clientExtInfo = true then
      write e w t' (EXT_INFO :: u32Bytes 1 ++ writeString (bytes "server-sig-algs") ++
        writeNameList e.signatureAlgorithms) false
    else (t', [])

/-- A packet that `Read` reads. -/
def onReading (payload : Bytes) (t : Transport σ) : Transport σ × List Event :=
  if msgType payload ∈ [IGNORE, DEBUG, UNIMPLEMENTED] then (t, [])
  else if msgType payload = DISCONNECT then (t.fail, [])
  else if msgType payload = KEXINIT then
    let mine := buildKexInit w t
    andThen (write e w t mine true) (onKexInit e w mine payload)
  else (t, [.delivered payload])

/-- What is done with a packet. -/
def onPacket (t : Transport σ) (payload : Bytes) : Transport σ × List Event :=
  match t.phase with
  | .banner => (t, [])
  | .kexInit mine =>
    if msgType payload = KEXINIT then onKexInit e w mine payload t
    else if t.firstKexDone = false ∨ t.strictKex = true then
      refuse e w t PROTOCOL_ERROR (bytes "unexpected message during key exchange")
    else (t, [])
  | .ecdhInit mine theirs a discardGuess =>
    if discardGuess then ({ t with phase := .ecdhInit mine theirs a false }, [])
    else onEcdhInit e w mine theirs a payload t
  | .newKeys cipher => onNewKeys e w cipher payload t
  | .reading => onReading e w payload t

/-! ## Identification -/

/-- A line of `Handshake`, of at most 255 characters. -/
def identLine : Nat → Inbox → Inbox × Option Bytes
  | 0, i => (i, none)
  | fuel + 1, i =>
    match readExact 1 i with
    | (i, some [c]) =>
      if c = ch '\n' then (i, some [])
      else ((identLine fuel i).1, (identLine fuel i).2.map (c :: ·))
    | (i, _) => (i, none)

/-- The version of the client: the first of so many lines that begins with `SSH-`. -/
def identify : Nat → Inbox → Inbox × Option Bytes
  | 0, i => (i, none)
  | lines + 1, i =>
    match identLine 256 i with
    | (i, none) => (i, none)
    | (i, some text) =>
      let line := if text.getLast? = some (ch '\r') then text.dropLast else text
      if bytes "SSH-" <+: line then
        (i, if bytes "SSH-2.0-" <+: line ∨ bytes "SSH-1.99-" <+: line then some line else none)
      else identify lines i

/-- `Handshake` up to our first KEXINIT. -/
def onBanner (t : Transport σ) : Transport σ × List Event :=
  match identify 50 t.receiver.inbox with
  | (i, none) => ({ t with receiver := { t.receiver with inbox := i } }.fail, [])
  | (i, some version) =>
    let t := { t with clientVersion := version, receiver := { t.receiver with inbox := i } }
    let mine := buildKexInit w t
    andThen (write e w t mine true) fun t => ({ t with phase := .kexInit mine }, [])

/-! ## Runs -/

inductive Action
  /-- the server reads on -/
  | read (w : World)
  /-- the application writes, which it does between its reads only -/
  | write (w : World) (payload : Bytes)

def step (t : Transport σ) (a : Action) : Transport σ × List Event :=
  if t.dead then (t, [])
  else
    match a with
    | .write w payload =>
      match t.phase with
      | .reading => write e w t payload false
      | _ => (t, [])
    | .read w =>
      match t.phase with
      | .banner => onBanner e w t
      | _ =>
        match readPacket e.cipher t.receiver with
        | (r, .packet payload) =>
          let next := onPacket e w { t with receiver := r } payload
          (next.1, .read ⟨t.inKeys, t.receiver.seq, payload⟩ :: next.2)
        | (r, .corrupted) =>
          refuse e w { t with receiver := r } MAC_ERROR (bytes "corrupted packet")
        | (r, .failed) => ({ t with receiver := r }.fail, [])

def run : Transport σ → List Action → Transport σ × List Event
  | t, [] => (t, [])
  | t, a :: acts => ((run (step e t a).1 acts).1, (step e t a).2 ++ (run (step e t a).1 acts).2)

/-- A connection, and what its client sends. -/
def connect (pending : List Bytes) : Transport σ :=
  ⟨[], [], false, false, false, false, ⟨⟨[], pending⟩, e.noneCipher, 0⟩, ⟨e.noneCipher, 0⟩, .banner,
    0, 0, 0⟩

end

end QuackMail.Ssh
