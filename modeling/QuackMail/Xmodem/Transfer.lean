import QuackMail.Bytes

/-! # Xmodem transfers

`Send` and `Receive` of `xmodem.cpp`, connected by the two directions of a line that keeps the order
and loses nothing.  A read that waits takes what the other side wrote or times out, and the payload
of a block may be damaged on the way.  Acknowledgements carry no number.
-/

namespace QuackMail.Xmodem

def SOH : Byte := 0x01
def STX : Byte := 0x02
def EOT : Byte := 0x04
def ACK : Byte := 0x06
def NAK : Byte := 0x15
def CAN : Byte := 0x18
def SUB : Byte := 0x1A

def kMaxRetries : Nat := 10

/-! ## Frames -/

def crcShift (crc : UInt16) : UInt16 :=
  if crc &&& 0x8000 ≠ 0 then (crc <<< 1) ^^^ 0x1021 else crc <<< 1

/-- `Crc16`. -/
def crc16 (data : Bytes) : UInt16 :=
  data.foldl (fun (crc : UInt16) (b : Byte) => crcShift^[8] (crc ^^^ (b.toUInt16 <<< 8))) 0

/-- The size of the block that is sent next of what is left. -/
def want (todo : Bytes) : Nat := if todo.length ≥ 1024 then 1024 else 128

/-- The payload of the next block, padded. -/
def payload (todo : Bytes) : Bytes :=
  todo.take (want todo) ++ List.replicate (want todo - todo.length) SUB

/-- The frame of the next block, with the payload that arrives. -/
def frame (todo : Bytes) (block : Byte) (body : Bytes) : Bytes :=
  let crc := (crc16 (payload todo)).toNat
  [if want todo = 1024 then STX else SOH, block, 255 - block] ++ body ++
    [UInt8.ofNat (crc / 256), UInt8.ofNat (crc % 256)]

/-! ## The two sides -/

inductive Sender
  /-- waits for the receiver to ask, after so many reads -/
  | start (tries : Nat)
  | send (todo : Bytes) (block : Byte) (retry : Nat)
  | reply (todo : Bytes) (block : Byte) (retry : Nat)
  | eot (retry : Nat)
  | eotReply (retry : Nat)
  | done (ok : Bool)
  deriving DecidableEq

inductive Receiver
  | ask (waited : Nat)
  | asked (waited : Nat)
  /-- the loop, with the byte read last -/
  | got (b : Byte)
  /-- the read at the end of the loop -/
  | next
  | done (ok : Bool)
  deriving DecidableEq

/-- A byte on the line.  That it is the first of what was written at once, and which block it was
    written for, is history. -/
structure Octet where
  byte : Byte
  first : Bool
  block : Option Nat

def mark (block : Option Nat) : Bytes → List Octet
  | [] => []
  | b :: rest => ⟨b, true, block⟩ :: rest.map (⟨·, false, block⟩)

/-- Both sides and the line.  How many blocks are `acked` and `accepted`, which block the receiver
    is `reading`, and which one a reply answers, is history. -/
structure State where
  sender : Sender
  receiver : Receiver
  wire : List Octet
  replies : List (Byte × Option Nat)
  expect : Byte
  out : Bytes
  acked : Nat
  accepted : Nat
  reading : Option Nat

def initial : State := ⟨.start 0, .ask 0, [], [], 1, [], 0, 0, none⟩

/-- The limits `Receive` is called with. -/
structure Limits where
  maxBytes : Nat
  startTimeout : Nat

inductive Action
  /-- the sender writes; `damage` is the payload that arrives instead -/
  | transmit (damage : Option Bytes)
  | senderRead
  | senderTimeout
  | ask
  | receiverRead
  | receiverTimeout
  /-- the body of the receiver's loop; a drain takes so many bytes -/
  | loop (drained : Nat)

def State.answer (s : State) (b : Byte) : State :=
  { s with replies := s.replies ++ [(b, s.reading)] }

/-! ## The sender -/

def nextBlock (todo : Bytes) (block : Byte) : Sender :=
  if todo = [] then .eot 0 else .send todo block 0

/-- The next try of a block; after the last the transfer is cancelled. -/
def resend (s : State) (todo : Bytes) (block : Byte) (retry : Nat) : State :=
  if retry + 1 < kMaxRetries then { s with sender := .send todo block (retry + 1) }
  else { s with sender := .done false, wire := s.wire ++ mark none [CAN] ++ mark none [CAN] }

def retryEot (s : State) (retry : Nat) : State :=
  { s with sender := if retry + 1 < kMaxRetries then .eot (retry + 1) else .done false }

def retryStart (s : State) (tries : Nat) : State :=
  { s with sender := if tries + 1 < 6 then .start (tries + 1) else .done false }

def transmit (s : State) (damage : Option Bytes) : Option State :=
  match s.sender with
  | .send todo block retry =>
    let body := damage.getD (payload todo)
    if body.length = want todo ∧ (damage.isSome → crc16 body ≠ crc16 (payload todo)) then
      some { s with
        sender := .reply todo block retry
        wire := s.wire ++ mark (some s.acked) (frame todo block body) }
    else none
  | .eot retry => some { s with sender := .eotReply retry, wire := s.wire ++ mark none [EOT] }
  | _ => none

/-- The sender takes a reply. -/
def senderTakes (data : Bytes) (s : State) (c : Byte) : Option State :=
  match s.sender with
  | .start tries =>
    if c = ch 'C' then some { s with sender := nextBlock data 1 }
    else if c = CAN then some { s with sender := .done false }
    else some (retryStart s tries)
  | .reply todo block retry =>
    if c = ACK then
      some { s with
        sender := nextBlock (todo.drop (want todo)) (block + 1), acked := s.acked + 1 }
    else if c = CAN then some { s with sender := .done false }
    else some (resend s todo block retry)
  | .eotReply retry =>
    if c = ACK then some { s with sender := .done true } else some (retryEot s retry)
  | _ => none

def senderTimeout (s : State) : Option State :=
  match s.sender with
  | .start tries => some (retryStart s tries)
  | .reply todo block retry => some (resend s todo block retry)
  | .eotReply retry => some (retryEot s retry)
  | _ => none

/-! ## The receiver -/

/-- The pad goes, and whatever looks like it. -/
def strip (out : Bytes) : Bytes := out.rdropWhile (· = SUB)

def receiverTakes (s : State) (b : Byte) : Option State :=
  match s.receiver with
  | .asked waited =>
    if b = SOH ∨ b = STX ∨ b = EOT ∨ b = CAN then some { s with receiver := .got b }
    else some { s with receiver := .ask (waited + 3000) }
  | .next => some { s with receiver := .got b }
  | _ => none

def receiverTimeout (s : State) : Option State :=
  match s.receiver with
  | .asked waited => some { s with receiver := .ask (waited + 3000) }
  | .next => some { s with receiver := .done false }
  | .got b => if b = SOH ∨ b = STX then some { s with receiver := .done false } else none
  | _ => none

/-- `DrainInput`, which stops at 4096 bytes, and a refusal. -/
def drainAndNak (s : State) (drained : Nat) : Option State :=
  if drained ≤ 4096 then
    some (State.answer { s with wire := s.wire.drop drained, receiver := .next } NAK)
  else none

/-- The rest of a block behind its header: the number, its complement, the payload, the CRC. -/
def takeBlock (l : Limits) (s : State) (num inv hi lo : Byte) (body : Bytes) (drained : Nat) :
    Option State :=
  let numOk := 255 - num = inv
  let crcOk := (crc16 body).toNat = hi.toNat * 256 + lo.toNat
  if numOk ∧ num = s.expect - 1 then some (State.answer { s with receiver := .next } ACK)
  else if numOk ∧ crcOk ∧ num = s.expect then
    if s.out.length + body.length > l.maxBytes then
      some ((State.answer { s with receiver := .done false } CAN).answer CAN)
    else
      let s' := { s with out := s.out ++ body, expect := s.expect + 1, accepted := s.accepted + 1 }
      some (State.answer { s' with receiver := .next } ACK)
  else drainAndNak s drained

/-- The bytes of a block, if all of them are there, and what follows it. -/
def splitBlock (b : Byte) (wire : List Octet) :
    Option (Byte × Byte × Bytes × Byte × Byte × List Octet) :=
  let size := if b = STX then 1024 else 128
  match wire with
  | num :: inv :: rest =>
    match rest.drop size with
    | hi :: lo :: rest' =>
      some (num.byte, inv.byte, (rest.take size).map Octet.byte, hi.byte, lo.byte, rest')
    | _ => none
  | _ => none

/-- The body of the loop of `Receive`. -/
def loop (l : Limits) (s : State) (b : Byte) (drained : Nat) : Option State :=
  if b = EOT then some (State.answer { s with receiver := .done true, out := strip s.out } ACK)
  else if b = CAN then some { s with receiver := .done false }
  else if b ≠ SOH ∧ b ≠ STX then drainAndNak s drained
  else
    match splitBlock b s.wire with
    | some (num, inv, body, hi, lo, rest) =>
      takeBlock l { s with wire := rest } num inv hi lo body drained
    | none => none

/-! ## Runs -/

def step (l : Limits) (data : Bytes) (s : State) : Action → Option State
  | .transmit damage => transmit s damage
  | .senderRead =>
    match s.replies with
    | [] => none
    | (c, _) :: rest => senderTakes data { s with replies := rest } c
  | .senderTimeout => senderTimeout s
  | .ask =>
    match s.receiver with
    | .ask waited =>
      if waited < l.startTimeout then
        some (State.answer { s with receiver := .asked waited } (ch 'C'))
      else some { s with receiver := .done false }
    | _ => none
  | .receiverRead =>
    match s.wire with
    | [] => none
    | o :: rest => receiverTakes { s with wire := rest, reading := o.block } o.byte
  | .receiverTimeout => receiverTimeout s
  | .loop drained =>
    match s.receiver with
    | .got b => loop l s b drained
    | _ => none

/-- A run. -/
def run (l : Limits) (data : Bytes) : State → List Action → Option State
  | s, [] => some s
  | s, a :: acts => (step l data s a).bind fun s' => run l data s' acts

/-- The acknowledgement that the sender takes for a block answers a frame of that block, and a
    drain does not stop within what was written at once. -/
def fits (s : State) : Action → Bool
  | .senderRead =>
    match s.sender, s.replies with
    | .reply _ _ _, (c, answered) :: _ => decide (c = ACK → answered = some s.acked)
    | _, _ => true
  | .loop drained =>
    match s.receiver with
    | .got b =>
      let rest := if b = SOH ∨ b = STX then s.wire.drop (if b = STX then 1028 else 132) else s.wire
      (rest.drop drained).head?.all Octet.first
    | _ => true
  | _ => true

/-- A run in which every step fits. -/
def fitRun (l : Limits) (data : Bytes) : State → List Action → Option State
  | s, [] => some s
  | s, a :: acts =>
    if fits s a then (step l data s a).bind fun s' => fitRun l data s' acts else none

/-! ## Blocks -/

/-- What is left of the data behind `k` blocks. -/
def after (data : Bytes) : Nat → Bytes
  | 0 => data
  | k + 1 => (after data k).drop (want (after data k))

/-- The payloads of `k` blocks. -/
def gathered (data : Bytes) : Nat → Bytes
  | 0 => []
  | k + 1 => gathered data k ++ payload (after data k)

theorem strip_append_pad (xs : Bytes) (n : Nat) :
    strip (xs ++ List.replicate n SUB) = strip xs := by
  induction n with
  | zero => simp
  | succ n ih =>
    rw [List.replicate_succ', ← List.append_assoc, strip,
      List.rdropWhile_concat_pos _ _ _ (by simp)]
    exact ih

/-- The blocks, with what is left, are the data but for the pad. -/
theorem strip_gathered (data : Bytes) (k : Nat) :
    strip (gathered data k ++ after data k) = strip data := by
  induction k with
  | zero => rfl
  | succ k ih =>
    rw [gathered, after, payload]
    by_cases hlong : want (after data k) ≤ (after data k).length
    · rw [Nat.sub_eq_zero_of_le hlong, List.replicate_zero, List.append_nil, List.append_assoc,
        List.take_append_drop]
      exact ih
    · rw [List.take_of_length_le (by omega), List.drop_of_length_le (by omega), List.append_nil,
        ← List.append_assoc, strip_append_pad]
      exact ih

end QuackMail.Xmodem
