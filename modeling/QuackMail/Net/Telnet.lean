import QuackMail.Bytes

/-! # Terminal sessions

What a `Session` of `telnet.cpp` writes, and the data that it reads between negotiations; the SSH
side writes the same framing into it.  `Write` does not double 255 as `WriteRaw` does, and the peer
takes it for the start of a command.
-/

namespace QuackMail.Telnet

def IAC : Byte := 255
def DONT : Byte := 254
def DO : Byte := 253
def WONT : Byte := 252
def WILL : Byte := 251
def SB : Byte := 250
def SE : Byte := 240

def OPT_ECHO : Byte := 1
def OPT_SGA : Byte := 3
def OPT_TTYPE : Byte := 24
def OPT_NAWS : Byte := 31

def TTYPE_IS : Byte := 0
def TTYPE_SEND : Byte := 1

/-- Do an option and no data follow it? -/
def isVerb (v : Byte) : Bool := v == WILL || v == WONT || v == DO || v == DONT

/-- `Session`, with what its stream still holds and what was written to it. -/
structure Session where
  ssh : Bool := false
  echo : Bool := false
  termType : Bytes := []
  dumbTerminal : Bool := false
  width : Nat := 80
  height : Nat := 24
  haveNaws : Bool := false
  pushback : Option Byte := none
  input : Bytes := []
  sent : Bytes := []

/-! ## Writing -/

def put (s : Session) (out : Bytes) : Session := { s with sent := s.sent ++ out }

def send3 (s : Session) (verb option : Byte) : Session := put s [IAC, verb, option]

/-- The loop of `WriteRaw`, and `TelnetEscape`. -/
def escape (b : Bytes) : Bytes := b.flatMap fun c => if c = IAC then [c, c] else [c]

/-- The loop of `Write`. -/
def crlf (text : Bytes) : Bytes :=
  text.flatMap fun c => if c = ch '\n' then [ch '\r', ch '\n'] else [c]

def writeRaw (s : Session) (b : Bytes) : Session := if s.ssh then put s b else put s (escape b)

def write (s : Session) (text : Bytes) : Session := put s (crlf text)

/-! ## Reading -/

def setSize (s : Session) (width height : Nat) : Session :=
  { s with width := min (max width 20) 1000, height := min (max height 5) 500 }

/-- The terminals that get no colour. -/
def isDumb (term : Bytes) : Bool := lower term ∈ [[], bytes "dumb", bytes "unknown"]

/-- The loop of `ReadSubnegotiation`: is it over, and the option, the payload and what is left. -/
def subLoop (option : Option Byte) (payload : Bytes) :
    Bytes → (Bool × Option Byte × Bytes) × Bytes
  | [] => ((true, option, payload), [])
  | p :: rest =>
    if p = IAC then
      match rest with
      | [] => ((false, option, payload), [])
      | q :: rest =>
        if q = SE then ((true, option, payload), rest)
        else if q = IAC then subLoop option (payload ++ [IAC]) rest
        else subLoop option payload rest
    else
      match option with
      | none => subLoop (some p) payload rest
      | some o => subLoop (some o) ((payload ++ [p]).take 64) rest

/-- What `ReadSubnegotiation` makes of it. -/
def subnegotiated (s : Session) (option : Byte) (payload : Bytes) : Session :=
  let s :=
    if option = OPT_TTYPE ∧ payload.head? = some TTYPE_IS then
      { s with termType := payload.drop 1
               dumbTerminal := isDumb (payload.drop 1) || lower (payload.drop 1) = bytes "net" }
    else s
  match option == OPT_NAWS, payload with
  | true, a :: b :: c :: d :: _ =>
    let w := a.toNat * 256 + b.toNat
    let h := c.toNat * 256 + d.toNat
    if w > 0 ∧ h > 0 then { setSize s w h with haveNaws := true } else s
  | _, _ => s

/-- The answer to an option. -/
def negotiated (s : Session) (verb opt : Byte) : Session :=
  if verb = DO then
    if opt = OPT_ECHO then { s with echo := true }
    else if opt = OPT_SGA then s else send3 s WONT opt
  else if verb = DONT then
    send3 (if opt = OPT_ECHO then { s with echo := false } else s) WONT opt
  else if verb = WILL then
    if opt = OPT_TTYPE then put s [IAC, SB, OPT_TTYPE, TTYPE_SEND, IAC, SE]
    else if opt = OPT_SGA ∨ opt = OPT_NAWS then s else send3 s DONT opt
  else s

theorem subLoop_length (option : Option Byte) (payload l : Bytes) :
    (subLoop option payload l).2.length ≤ l.length := by
  fun_induction subLoop option payload l <;> simp_all <;> omega

/-- `ReadSubnegotiation`, and what is left. -/
def readSubnegotiation (s : Session) (l : Bytes) : Session × Bytes :=
  let sub := subLoop none [] l
  (if sub.1.1 then subnegotiated s (sub.1.2.1.getD 0) sub.1.2.2 else s, sub.2)

/-- `NextPayloadByte`, from what `NextByte` gives. -/
def payloadFrom (s : Session) : Bytes → Option Byte × Session
  | [] => (none, { s with input := [] })
  | u :: rest =>
    if u = IAC then
      match rest with
      | [] => (none, { s with input := [] })
      | verb :: rest =>
        if verb = IAC then (some IAC, { s with input := rest })
        else if verb = SB then
          payloadFrom (readSubnegotiation s rest).1 (readSubnegotiation s rest).2
        else if isVerb verb then
          match rest with
          | [] => (none, { s with input := [] })
          | opt :: rest => payloadFrom (negotiated s verb opt) rest
        else payloadFrom s rest
    else (some u, { s with input := rest })
termination_by l => l.length
decreasing_by
  · have hlen := subLoop_length none [] rest
    simp only [List.length_cons, readSubnegotiation]
    omega
  all_goals
    simp only [List.length_cons]
    omega

/-- `NextPayloadByte`. -/
def nextPayloadByte (s : Session) : Option Byte × Session :=
  payloadFrom { s with pushback := none } (s.pushback.toList ++ s.input)

/-- `ReadRawByte`, where a byte comes in time or not. -/
def readRawByte (ready : Bool) (s : Session) : Option Byte × Session :=
  match s.pushback with
  | some u => (some u, { s with pushback := none })
  | none => if ready then nextPayloadByte s else (none, s)

/-- What calls one after the other return. -/
def readRawBytes : List Bool → Session → Bytes
  | [], _ => []
  | ready :: calls, s =>
    (readRawByte ready s).1.toList ++ readRawBytes calls (readRawByte ready s).2

/-! ## The SSH side -/

/-- What a client sends on its channel. -/
inductive Channel
  | data (b : Bytes)
  | windowChange (cols rows : UInt32)

/-- `Naws`. -/
def naws (cols rows : UInt32) : Bytes :=
  let cols := min cols 0xFFFE
  let rows := min rows 0xFFFE
  [IAC, SB, OPT_NAWS] ++
    escape [(cols >>> 8).toUInt8, cols.toUInt8, (rows >>> 8).toUInt8, rows.toUInt8] ++ [IAC, SE]

/-- What goes into the session. -/
def Channel.framed : Channel → Bytes
  | .data b => escape b
  | .windowChange cols rows => naws cols rows

def Channel.octets : Channel → Bytes
  | .data b => b
  | .windowChange _ _ => []

/-! ## The protocol

RFC 854. -/

inductive Phase
  | data
  | command
  | option
  | sub
  | subCommand

/-- The data of a stream: `IAC IAC` is 255, and commands are removed. -/
def decodeFrom : Phase → Bytes → Bytes
  | _, [] => []
  | .data, c :: s => if c = IAC then decodeFrom .command s else c :: decodeFrom .data s
  | .command, v :: s =>
    if v = IAC then IAC :: decodeFrom .data s
    else if v = SB then decodeFrom .sub s
    else if isVerb v then decodeFrom .option s
    else decodeFrom .data s
  | .option, _ :: s => decodeFrom .data s
  | .sub, p :: s => if p = IAC then decodeFrom .subCommand s else decodeFrom .sub s
  | .subCommand, q :: s => if q = SE then decodeFrom .data s else decodeFrom .sub s

def decode (s : Bytes) : Bytes := decodeFrom .data s

/-- What a peer puts on the wire. -/
inductive Item
  | data (c : Byte)
  | command (v : Byte) (plain : v ≠ IAC ∧ v ≠ SB ∧ isVerb v = false)
  | option (verb opt : Byte) (known : isVerb verb = true)
  | sub (octets : Bytes)

def Item.wire : Item → Bytes
  | .data c => escape [c]
  | .command v _ => [IAC, v]
  | .option verb opt _ => [IAC, verb, opt]
  | .sub octets => [IAC, SB] ++ escape octets ++ [IAC, SE]

def Item.octets : Item → Bytes
  | .data c => [c]
  | _ => []

/-- Terminal sessions are transparent for `b`. -/
structure Transparent (b : Bytes) : Prop where
  raw : ∀ s : Session, s.ssh = false → ∃ out, (writeRaw s b).sent = s.sent ++ out ∧ decode out = b
  text : ∀ s : Session, s.ssh = false → ∃ out, (write s b).sent = s.sent ++ out ∧
    decode out = crlf b
  read : ∀ (items : List Item) (s : Session) (calls : List Bool), items.flatMap Item.octets = b →
    s.input = items.flatMap Item.wire → s.pushback = none →
    readRawBytes calls s = b.take (calls.count true)
  sshRaw : ∀ s : Session, s.ssh = true → (writeRaw s b).sent = s.sent ++ b
  sshRead : ∀ (sent : List Channel) (s : Session) (calls : List Bool),
    sent.flatMap Channel.octets = b → s.input = sent.flatMap Channel.framed → s.pushback = none →
    readRawBytes calls s = b.take (calls.count true)

/-! ## What is read -/

theorem decodeFrom_subLoop (option : Option Byte) (payload l : Bytes) :
    decodeFrom .data (subLoop option payload l).2 = decodeFrom .sub l := by
  fun_induction subLoop option payload l <;> simp_all [decodeFrom]

@[simp] theorem subnegotiated_pushback (s : Session) (option : Byte) (payload : Bytes) :
    (subnegotiated s option payload).pushback = s.pushback := by
  unfold subnegotiated setSize
  dsimp only
  repeat' split
  all_goals rfl

@[simp] theorem readSubnegotiation_pushback (s : Session) (l : Bytes) :
    (readSubnegotiation s l).1.pushback = s.pushback := by
  unfold readSubnegotiation
  dsimp only
  split <;> simp

@[simp] theorem decodeFrom_readSubnegotiation (s : Session) (l : Bytes) :
    decodeFrom .data (readSubnegotiation s l).2 = decodeFrom .sub l :=
  decodeFrom_subLoop none [] l

@[simp] theorem negotiated_pushback (s : Session) (verb opt : Byte) :
    (negotiated s verb opt).pushback = s.pushback := by
  unfold negotiated send3 put
  repeat' split
  all_goals rfl

/-- A call takes one byte of data. -/
theorem payloadFrom_decode (s : Session) (l : Bytes) :
    decodeFrom .data l =
      (payloadFrom s l).1.toList ++ decodeFrom .data (payloadFrom s l).2.input ∧
    ((payloadFrom s l).1 = none → (payloadFrom s l).2.input = []) ∧
    (payloadFrom s l).2.pushback = s.pushback := by
  fun_induction payloadFrom s l <;> simp_all [decodeFrom]

theorem readRawBytes_decode (calls : List Bool) {s : Session} (hpush : s.pushback = none) :
    readRawBytes calls s = (decode s.input).take (calls.count true) := by
  induction calls generalizing s with
  | nil => simp [readRawBytes]
  | cons ready calls ih =>
    cases ready with
    | false =>
      simp only [readRawBytes, readRawByte, hpush]
      simpa using ih hpush
    | true =>
      have hcall := payloadFrom_decode { s with pushback := none } s.input
      simp only [readRawBytes, readRawByte, hpush, nextPayloadByte, if_true, Option.toList_none,
        List.nil_append] at hcall ⊢
      rw [ih hcall.2.2, List.count_cons_self, decode, decode, hcall.1]
      cases hbyte : (payloadFrom { s with pushback := none } s.input).1 with
      | none => simp [hcall.2.1 hbyte, decodeFrom]
      | some c => simp

/-! ## What is written -/

theorem decode_escape (b s : Bytes) : decode (escape b ++ s) = b ++ decode s := by
  induction b with
  | nil => rfl
  | cons c b ih =>
    by_cases hc : c = IAC
    · simpa [escape, hc, decode, decodeFrom] using ih
    · simpa [escape, hc, decode, decodeFrom] using ih

theorem decodeFrom_sub_escape (octets s : Bytes) :
    decodeFrom .sub (escape octets ++ ([IAC, SE] ++ s)) = decode s := by
  have hse : IAC ≠ SE := by decide
  induction octets with
  | nil => simp [escape, decode, decodeFrom]
  | cons c octets ih =>
    by_cases hc : c = IAC
    · simpa [escape, hc, decodeFrom, hse] using ih
    · simpa [escape, hc, decodeFrom] using ih

theorem decode_wire (item : Item) (s : Bytes) :
    decode (item.wire ++ s) = item.octets ++ decode s := by
  cases item with
  | data c => exact decode_escape [c] s
  | command v plain => simp [Item.wire, Item.octets, decode, decodeFrom, plain]
  | option verb opt known =>
    have hverb : verb ≠ IAC ∧ verb ≠ SB := by
      constructor <;> rintro rfl <;> exact absurd known (by decide)
    simp [Item.wire, Item.octets, decode, decodeFrom, hverb, known]
  | sub octets =>
    have hsb : SB ≠ IAC := by decide
    have hsub := decodeFrom_sub_escape octets s
    simpa [Item.wire, Item.octets, decode, decodeFrom, hsb] using hsub

theorem decode_wires (items : List Item) :
    decode (items.flatMap Item.wire) = items.flatMap Item.octets := by
  induction items with
  | nil => rfl
  | cons item items ih => rw [List.flatMap_cons, List.flatMap_cons, decode_wire, ih]

/-- A window change is a subnegotiation. -/
theorem decode_framed (sent : List Channel) :
    decode (sent.flatMap Channel.framed) = sent.flatMap Channel.octets := by
  induction sent with
  | nil => rfl
  | cons c sent ih =>
    rw [List.flatMap_cons, List.flatMap_cons]
    cases c with
    | data b => rw [Channel.framed, Channel.octets, decode_escape, ih]
    | windowChange cols rows =>
      rw [Channel.octets, List.nil_append, ← ih]
      exact decode_wire (.sub (OPT_NAWS :: [(min cols 0xFFFE >>> 8).toUInt8,
        (min cols 0xFFFE).toUInt8, (min rows 0xFFFE >>> 8).toUInt8, (min rows 0xFFFE).toUInt8])) _

/-- A command takes room on the wire. -/
theorem length_decodeFrom (phase : Phase) (x : Bytes) :
    (decodeFrom phase x).length ≤ x.length ∧
      (phase = .data → IAC ∈ x → (decodeFrom phase x).length < x.length) := by
  fun_induction decodeFrom phase x <;> grind

theorem decode_plain {x : Bytes} (h : IAC ∉ x) : decode x = x := by
  induction x with
  | nil => rfl
  | cons c x ih =>
    rw [List.mem_cons, not_or] at h
    rw [decode, decodeFrom, if_neg (Ne.symm h.1)]
    exact congrArg (c :: ·) (ih h.2)

theorem mem_crlf {b : Bytes} : IAC ∈ crlf b ↔ IAC ∈ b := by
  have hcr : IAC ≠ ch '\r' ∧ IAC ≠ ch '\n' := by decide
  induction b with
  | nil => rfl
  | cons c b ih =>
    have hstep : IAC ∈ crlf (c :: b) ↔ IAC = c ∨ IAC ∈ crlf b := by
      rw [crlf, List.flatMap_cons, List.mem_append]
      split <;> simp_all [crlf]
    exact hstep.trans ((or_congr_right ih).trans List.mem_cons.symm)

theorem decode_crlf_iff (b : Bytes) : decode (crlf b) = crlf b ↔ IAC ∉ b := by
  constructor
  · intro h hin
    have hlt := (length_decodeFrom .data (crlf b)).2 rfl (mem_crlf.mpr hin)
    rw [decode] at h
    rw [h] at hlt
    exact Nat.lt_irrefl _ hlt
  · exact fun h => decode_plain (mt mem_crlf.mp h)

/-- Everything but `Write` is transparent for every octet. -/
theorem transparent_iff (b : Bytes) : Transparent b ↔ IAC ∉ b := by
  rw [← decode_crlf_iff]
  constructor
  · intro h
    obtain ⟨out, hout, hdecode⟩ := h.text {} rfl
    rw [write, put, List.append_cancel_left_eq] at hout
    rw [hout, hdecode, ← hout]
  · intro h
    constructor
    · intro s hs
      refine ⟨escape b, by rw [writeRaw, hs]; rfl, ?_⟩
      have hback := decode_escape b []
      rwa [List.append_nil, show decode [] = [] from rfl, List.append_nil] at hback
    · exact fun s _ => ⟨crlf b, rfl, h⟩
    · intro items s calls hdata hinput hpush
      rw [readRawBytes_decode calls hpush, hinput, decode_wires, hdata]
    · intro s hs
      rw [writeRaw, hs]
      rfl
    · intro sent s calls hdata hinput hpush
      rw [readRawBytes_decode calls hpush, hinput, decode_framed, hdata]

/-- `IAC`, `WILL`, and the peer takes the line end for an option. -/
theorem not_transparent_will : ¬∀ b, Transparent b := by
  intro h
  obtain ⟨out, hout, hdecode⟩ := (h [IAC, WILL, ch '\n']).text {} rfl
  subst hout
  exact absurd hdecode (by decide)

end QuackMail.Telnet
