import QuackMail.Bytes

/-! # Binary packets

`PacketCipher` and one direction each of `Transport::ReadPacket` and `Transport::WritePacket`.  A
wait that times out ends what is received.
-/

namespace QuackMail.Ssh

def kMaxPacket : Nat := 256 * 1024

/-- `U32Bytes`. -/
def u32Bytes (v : Nat) : Bytes :=
  [UInt8.ofNat (v / 16777216), UInt8.ofNat (v / 65536), UInt8.ofNat (v / 256), UInt8.ofNat v]

/-- `Be32`. -/
def be32 : Bytes → Nat
  | a :: b :: c :: d :: _ => ((a.toNat * 256 + b.toNat) * 256 + c.toNat) * 256 + d.toNat
  | _ => 0

/-- The next sequence number. -/
def seqNext (seq : Nat) : Nat := (seq + 1) % 4294967296

/-- The methods of a class of ciphers whose objects keep a `σ`. -/
structure PacketCipher (σ : Type) where
  firstRead : σ → Nat
  length : σ → Nat → Bytes → σ × Option Nat
  restRead : σ → Nat → Nat
  openPacket : σ → Nat → Bytes → Bytes → σ × Option Bytes
  sealPacket : σ → Nat → Bytes → σ × Bytes
  blockSize : σ → Nat
  lengthIsAad : σ → Bool

/-- `NoneCipher`. -/
def noneCipher : PacketCipher Unit where
  firstRead _ := 4
  length _ _ first := ((), some (be32 first))
  restRead _ len := len
  openPacket _ _ _ rest := ((), some rest)
  sealPacket _ _ plain := ((), u32Bytes plain.length ++ plain)
  blockSize _ := 8
  lengthIsAad _ := false

/-! ## Reading -/

/-- What is left of `rbuf_`, and what `recv` gives from now on. -/
structure Inbox where
  buffered : Bytes
  pending : List Bytes
  deriving DecidableEq

/-- The loop of `ReadExact`. -/
def readExactLoop (n : Nat) (buffered : Bytes) : List Bytes → Inbox × Option Bytes
  | [] =>
    if buffered.length < n then (⟨buffered, []⟩, none)
    else (⟨buffered.drop n, []⟩, some (buffered.take n))
  | chunk :: pending =>
    if buffered.length < n then readExactLoop n (buffered ++ chunk) pending
    else (⟨buffered.drop n, chunk :: pending⟩, some (buffered.take n))

/-- `ReadExact`. -/
def readExact (n : Nat) (i : Inbox) : Inbox × Option Bytes := readExactLoop n i.buffered i.pending

structure Receiver (σ : Type) where
  inbox : Inbox
  cipher : σ
  seq : Nat

inductive Reading
  | packet (payload : Bytes)
  | corrupted
  | failed
  deriving DecidableEq

/-- The payload between the padding length and the padding. -/
def unpad : Bytes → Reading
  | [] => .failed
  | padlen :: body =>
    if padlen < 4 ∨ body.length ≤ padlen.toNat then .failed
    else .packet (body.take (body.length - padlen.toNat))

/-- `ReadPacket`. -/
def readPacket {σ : Type} (c : PacketCipher σ) (r : Receiver σ) : Receiver σ × Reading :=
  match readExact (c.firstRead r.cipher) r.inbox with
  | (inbox, none) => ({ r with inbox := inbox }, .failed)
  | (inbox, some first) =>
    match c.length r.cipher r.seq first with
    | (cipher, none) => (⟨inbox, cipher, r.seq⟩, .failed)
    | (cipher, some len) =>
      if len > kMaxPacket ∨ len < 5 then (⟨inbox, cipher, r.seq⟩, .failed)
      else
        match readExact (c.restRead cipher len) inbox with
        | (inbox, none) => (⟨inbox, cipher, r.seq⟩, .failed)
        | (inbox, some rest) =>
          match c.openPacket cipher r.seq first rest with
          | (cipher, none) => (⟨inbox, cipher, r.seq⟩, .corrupted)
          | (cipher, some plain) => (⟨inbox, cipher, seqNext r.seq⟩, unpad plain)

/-! ## Writing -/

structure Sender (σ : Type) where
  cipher : σ
  seq : Nat

/-- The octets of padding behind a payload. -/
def padLength (bs aad payload : Nat) : Nat :=
  let padlen := bs - (5 + payload - aad) % bs
  if padlen < 4 then padlen + bs else padlen

/-- `WritePacket`: the bytes for `WriteAll`. -/
def writePacket {σ : Type} (c : PacketCipher σ) (s : Sender σ) (random : Nat → Byte)
    (payload : Bytes) : Sender σ × Bytes :=
  let padlen := padLength (c.blockSize s.cipher) (if c.lengthIsAad s.cipher then 4 else 0)
    payload.length
  let r := c.sealPacket s.cipher s.seq
    (UInt8.ofNat padlen :: payload ++ (List.range padlen).map random)
  (⟨r.1, seqNext s.seq⟩, r.2)

end QuackMail.Ssh
