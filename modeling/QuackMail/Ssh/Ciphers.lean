import QuackMail.Lib.Keystream
import QuackMail.Ssh.Packet

/-! # The ciphers

`NoneCipher`, `AesGcm`, `ChaChaPoly` and `AesCtrHmac`.  What OpenSSL computes is in `Primitives`:
GCM is counter mode with a tag over the ciphertext, and all of them add a keystream.
-/

namespace QuackMail.Ssh

/-- What OpenSSL computes: keystreams by their position, and tags. -/
structure Primitives where
  /-- of the key, the sequence number and the block counter -/
  chacha20 : Bytes → Nat → Nat → Nat → Byte
  poly1305 : Bytes → Bytes → Bytes
  /-- of the key and the IV -/
  gcm : Bytes → Bytes → Nat → Byte
  /-- of the key, the IV, the additional data and the ciphertext -/
  gcmTag : Bytes → Bytes → Bytes → Bytes → Bytes
  ctr : Bytes → Bytes → Nat → Byte
  /-- of the digest's size, the key and the message -/
  hmac : Nat → Bytes → Bytes → Bytes
  length_poly1305 : ∀ key data, (poly1305 key data).length = 16
  length_gcmTag : ∀ key iv aad ct, (gcmTag key iv aad ct).length = 16
  length_hmac : ∀ size key data, (hmac size key data).length = size

/-- The objects of the four classes; `pos` is where the counter of `ctx_` is. -/
inductive Cipher
  | noneCipher
  | aesGcm (key iv : Bytes)
  | chaChaPoly (main header : Bytes)
  | aesCtrHmac (key iv macKey : Bytes) (macLen : Nat) (etm : Bool) (pos : Nat) (firstPlain : Bytes)

def xorWith (ks : Nat → Byte) (s : Bytes) : Bytes := Keystream.apply (· ^^^ ·) ks s

/-- The loop of `Bump`, on the counter from its last byte. -/
def increment : Bytes → Bytes
  | [] => []
  | c :: counter => if c + 1 ≠ 0 then (c + 1) :: counter else 0 :: increment counter

/-- `Bump`. -/
def bump (iv : Bytes) : Bytes := iv.take 4 ++ (increment (iv.drop 4).reverse).reverse

variable (p : Primitives)

/-- `ChaChaPoly::Tag`. -/
def chachaTag (main : Bytes) (seq : Nat) (data : Bytes) : Bytes :=
  p.poly1305 (xorWith (p.chacha20 main seq 0) (List.replicate 32 0)) data

/-- `AesCtrHmac::Crypt`, at a position. -/
def crypt (key iv : Bytes) (pos : Nat) (s : Bytes) : Bytes :=
  xorWith (fun i => p.ctr key iv (i + pos)) s

/-- `AesCtrHmac::Mac`. -/
def mac (macLen : Nat) (macKey : Bytes) (seq : Nat) (data : Bytes) : Bytes :=
  p.hmac macLen macKey (u32Bytes seq ++ data)

def Cipher.firstRead : Cipher → Nat
  | .aesCtrHmac _ _ _ _ etm _ _ => if etm then 4 else 16
  | _ => 4

def Cipher.length (c : Cipher) (seq : Nat) (first : Bytes) : Cipher × Option Nat :=
  match c with
  | .noneCipher => (c, some (be32 first))
  | .aesGcm _ _ =>
    let len := be32 first
    (c, if len % 16 = 0 ∧ 16 ≤ len then some len else none)
  | .chaChaPoly _ header =>
    let len := be32 (xorWith (p.chacha20 header seq 0) first)
    (c, if len % 8 = 0 ∧ 8 ≤ len then some len else none)
  | .aesCtrHmac key iv macKey macLen etm pos _ =>
    if etm then
      let len := be32 first
      (c, if len % 16 = 0 ∧ 16 ≤ len then some len else none)
    else
      let firstPlain := crypt p key iv pos first
      let len := be32 firstPlain
      (.aesCtrHmac key iv macKey macLen etm (pos + first.length) firstPlain,
        if (len + 4) % 4294967296 % 16 = 0 ∧ 16 ≤ (len + 4) % 4294967296 then some len else none)

def Cipher.restRead (c : Cipher) (len : Nat) : Nat :=
  match c with
  | .noneCipher => len
  | .aesGcm _ _ => len + 16
  | .chaChaPoly _ _ => len + 16
  | .aesCtrHmac _ _ _ macLen etm _ _ => (if etm then len else len + 4 - 16) + macLen

def Cipher.openPacket (c : Cipher) (seq : Nat) (first rest : Bytes) : Cipher × Option Bytes :=
  match c with
  | .noneCipher => (c, some rest)
  | .aesGcm key iv =>
    let ct := rest.take (rest.length - 16)
    (.aesGcm key (bump iv),
      if p.gcmTag key iv first ct = rest.drop (rest.length - 16) then
        some (xorWith (p.gcm key iv) ct) else none)
  | .chaChaPoly main _ =>
    let ct := rest.take (rest.length - 16)
    (c,
      if chachaTag p main seq (first ++ ct) = rest.drop (rest.length - 16) then
        some (xorWith (p.chacha20 main seq 1) ct) else none)
  | .aesCtrHmac key iv macKey macLen etm pos firstPlain =>
    let body := rest.take (rest.length - macLen)
    if etm then
      if mac p macLen macKey seq (first ++ body) = rest.drop (rest.length - macLen) then
        (.aesCtrHmac key iv macKey macLen etm (pos + body.length) firstPlain,
          some (crypt p key iv pos body))
      else (c, none)
    else
      let full := firstPlain ++ crypt p key iv pos body
      (.aesCtrHmac key iv macKey macLen etm (pos + body.length) firstPlain,
        if mac p macLen macKey seq full = rest.drop (rest.length - macLen) then some (full.drop 4)
        else none)

def Cipher.sealPacket (c : Cipher) (seq : Nat) (plain : Bytes) : Cipher × Bytes :=
  let len := u32Bytes plain.length
  match c with
  | .noneCipher => (c, len ++ plain)
  | .aesGcm key iv =>
    let ct := xorWith (p.gcm key iv) plain
    (.aesGcm key (bump iv), len ++ ct ++ p.gcmTag key iv len ct)
  | .chaChaPoly main header =>
    let len := xorWith (p.chacha20 header seq 0) len
    let ct := xorWith (p.chacha20 main seq 1) plain
    (c, len ++ ct ++ chachaTag p main seq (len ++ ct))
  | .aesCtrHmac key iv macKey macLen etm pos firstPlain =>
    if etm then
      let ct := crypt p key iv pos plain
      (.aesCtrHmac key iv macKey macLen etm (pos + plain.length) firstPlain,
        len ++ ct ++ mac p macLen macKey seq (len ++ ct))
    else
      let full := len ++ plain
      (.aesCtrHmac key iv macKey macLen etm (pos + full.length) firstPlain,
        crypt p key iv pos full ++ mac p macLen macKey seq full)

def Cipher.blockSize : Cipher → Nat
  | .noneCipher => 8
  | .aesGcm _ _ => 16
  | .chaChaPoly _ _ => 8
  | .aesCtrHmac _ _ _ _ _ _ _ => 16

def Cipher.lengthIsAad : Cipher → Bool
  | .noneCipher => false
  | .aesGcm _ _ => true
  | .chaChaPoly _ _ => true
  | .aesCtrHmac _ _ _ _ etm _ _ => etm

/-- The four classes. -/
def ciphers : PacketCipher Cipher where
  firstRead := Cipher.firstRead
  length := Cipher.length p
  restRead := Cipher.restRead
  openPacket := Cipher.openPacket p
  sealPacket := Cipher.sealPacket p
  blockSize := Cipher.blockSize
  lengthIsAad := Cipher.lengthIsAad

/-! ## One form for all -/

/-- The keystream over the length and what is behind it. -/
def Cipher.stream (c : Cipher) (seq : Nat) : Nat → Byte :=
  match c with
  | .noneCipher => fun _ => 0
  | .aesGcm key iv => Keystream.join 4 (fun _ => 0) (p.gcm key iv)
  | .chaChaPoly main header =>
    Keystream.join 4 (p.chacha20 header seq 0) (p.chacha20 main seq 1)
  | .aesCtrHmac key iv _ _ etm pos _ =>
    if etm then Keystream.join 4 (fun _ => 0) fun i => p.ctr key iv (i + pos)
    else fun i => p.ctr key iv (i + pos)

/-- The tag over the ciphertext, or over the length and what is behind it. -/
def Cipher.tag (c : Cipher) (seq : Nat) (ct full : Bytes) : Bytes :=
  match c with
  | .noneCipher => []
  | .aesGcm key iv => p.gcmTag key iv (ct.take 4) (ct.drop 4)
  | .chaChaPoly main _ => chachaTag p main seq ct
  | .aesCtrHmac _ _ macKey macLen etm _ _ => mac p macLen macKey seq (if etm then ct else full)

def Cipher.tagLen : Cipher → Nat
  | .noneCipher => 0
  | .aesGcm _ _ => 16
  | .chaChaPoly _ _ => 16
  | .aesCtrHmac _ _ _ macLen _ _ _ => macLen

/-- Is this a length `Length` takes? -/
def Cipher.aligned (c : Cipher) (len : Nat) : Bool :=
  match c with
  | .noneCipher => true
  | .aesGcm _ _ => len % 16 = 0 && 16 ≤ len
  | .chaChaPoly _ _ => len % 8 = 0 && 8 ≤ len
  | .aesCtrHmac _ _ _ _ etm _ _ =>
    if etm then len % 16 = 0 && 16 ≤ len
    else (len + 4) % 4294967296 % 16 = 0 && 16 ≤ (len + 4) % 4294967296

/-- Behind a packet with so many octets behind its length. -/
def Cipher.advance (c : Cipher) (len : Nat) : Cipher :=
  match c with
  | .aesGcm key iv => .aesGcm key (bump iv)
  | .aesCtrHmac key iv macKey macLen etm pos firstPlain =>
    .aesCtrHmac key iv macKey macLen etm (pos + if etm then len else len + 4) firstPlain
  | c => c

/-- Without what `Length` leaves for `Open`. -/
def Cipher.forget (c : Cipher) : Cipher :=
  match c with
  | .aesCtrHmac key iv macKey macLen etm pos _ => .aesCtrHmac key iv macKey macLen etm pos []
  | c => c

/-- The length and what is behind it. -/
def withLength (plain : Bytes) : Bytes := u32Bytes plain.length ++ plain

section

variable {p}

@[simp] theorem length_u32Bytes (v : Nat) : (u32Bytes v).length = 4 := rfl

theorem be32_u32Bytes {v : Nat} (h : v < 4294967296) (s : Bytes) : be32 (u32Bytes v ++ s) = v := by
  simp only [u32Bytes, List.cons_append, be32, UInt8.toNat_ofNat']
  omega

theorem u32Bytes_be32 {a b c d : Byte} : u32Bytes (be32 [a, b, c, d]) = [a, b, c, d] := by
  have ha := a.toNat_lt
  have hb := b.toNat_lt
  have hc := c.toNat_lt
  have hd := d.toNat_lt
  simp only [u32Bytes, be32, List.cons.injEq, and_true, ← UInt8.toNat_inj, UInt8.toNat_ofNat']
  omega

@[simp] theorem length_xorWith (ks : Nat → Byte) (s : Bytes) : (xorWith ks s).length = s.length :=
  Keystream.length_apply s

@[simp] theorem xorWith_zero (s : Bytes) : xorWith (fun _ => 0) s = s :=
  Keystream.apply_neutral (fun _ => by simp) s

theorem xorWith_xorWith (ks : Nat → Byte) (s : Bytes) : xorWith ks (xorWith ks s) = s := by
  apply Keystream.apply_apply
  intro a b
  rw [UInt8.xor_assoc, UInt8.xor_self, UInt8.xor_zero]

theorem xorWith_append (ks : Nat → Byte) (s s' : Bytes) :
    xorWith ks (s ++ s') = xorWith ks s ++ xorWith (fun i => ks (i + s.length)) s' :=
  Keystream.apply_append s s'

theorem xorWith_join {ks ks' : Nat → Byte} {s : Bytes} (h : s.length = 4) (s' : Bytes) :
    xorWith (Keystream.join 4 ks ks') (s ++ s') = xorWith ks s ++ xorWith ks' s' :=
  Keystream.apply_join_append h s'

theorem sealPacket_eq (c : Cipher) (seq : Nat) (plain : Bytes) :
    c.sealPacket p seq plain =
      (c.advance plain.length, xorWith (c.stream p seq) (withLength plain) ++
        c.tag p seq (xorWith (c.stream p seq) (withLength plain)) (withLength plain)) := by
  have hlen := length_u32Bytes plain.length
  cases c with
  | noneCipher => simp [Cipher.sealPacket, Cipher.stream, Cipher.tag, Cipher.advance, withLength]
  | aesGcm key iv =>
    simp [Cipher.sealPacket, Cipher.stream, Cipher.tag, Cipher.advance, withLength,
      xorWith_join hlen, List.take_left' hlen, List.drop_left' hlen]
  | chaChaPoly main header =>
    simp [Cipher.sealPacket, Cipher.stream, Cipher.tag, Cipher.advance, withLength,
      xorWith_join hlen]
  | aesCtrHmac key iv macKey macLen etm pos firstPlain =>
    cases etm with
    | true =>
      simp [Cipher.sealPacket, Cipher.stream, Cipher.tag, Cipher.advance, withLength,
        xorWith_join hlen, crypt]
    | false =>
      simp [Cipher.sealPacket, Cipher.stream, Cipher.tag, Cipher.advance, withLength, crypt,
        Nat.add_comm]

theorem length_tag (c : Cipher) (seq : Nat) (ct full : Bytes) :
    (c.tag p seq ct full).length = c.tagLen := by
  cases c <;> simp [Cipher.tag, Cipher.tagLen, chachaTag, mac, p.length_gcmTag, p.length_poly1305,
    p.length_hmac]

theorem xorWith_join_left {ks ks' : Nat → Byte} {s : Bytes} (h : s.length = 4) :
    xorWith (Keystream.join 4 ks ks') s = xorWith ks s :=
  Keystream.apply_join (Nat.le_of_eq h)

/-- The length in the first octets. -/
theorem length_eq {c : Cipher} {seq : Nat} {first : Bytes} (h : first.length = c.firstRead) :
    (c.length p seq first).2 =
      if c.aligned (be32 (xorWith (c.stream p seq) first)) then
        some (be32 (xorWith (c.stream p seq) first)) else none := by
  cases c with
  | noneCipher => simp [Cipher.length, Cipher.stream, Cipher.aligned]
  | aesGcm key iv =>
    simp [Cipher.length, Cipher.stream, Cipher.aligned, xorWith_join_left (h : first.length = 4)]
  | chaChaPoly main header =>
    simp [Cipher.length, Cipher.stream, Cipher.aligned, xorWith_join_left (h : first.length = 4)]
  | aesCtrHmac key iv macKey macLen etm pos firstPlain =>
    cases etm with
    | false => simp [Cipher.length, Cipher.stream, Cipher.aligned, crypt]
    | true =>
      simp [Cipher.length, Cipher.stream, Cipher.aligned, xorWith_join_left (h : first.length = 4)]

theorem restRead_eq (c : Cipher) (seq len : Nat) (first : Bytes) :
    (c.length p seq first).1.restRead len = len + 4 - c.firstRead + c.tagLen := by
  cases c with
  | aesCtrHmac key iv macKey macLen etm pos firstPlain =>
    cases etm <;> simp [Cipher.length, Cipher.restRead, Cipher.firstRead, Cipher.tagLen]
  | _ => simp [Cipher.length, Cipher.restRead, Cipher.firstRead, Cipher.tagLen]

/-- What `Open` makes of the octets up to the tag. -/
theorem openPacket_eq {c : Cipher} {seq : Nat} {first : Bytes} (h : first.length = c.firstRead)
    (body tag : Bytes) (htag : tag.length = c.tagLen) :
    ((c.length p seq first).1.openPacket p seq first (body ++ tag)).2 =
      if c.tag p seq (first ++ body) (xorWith (c.stream p seq) (first ++ body)) = tag then
        some ((xorWith (c.stream p seq) (first ++ body)).drop 4) else none := by
  have hbody : (body ++ tag).take ((body ++ tag).length - tag.length) = body := by simp
  have hrest : (body ++ tag).drop ((body ++ tag).length - tag.length) = tag := by simp
  rw [htag] at hbody hrest
  cases c with
  | noneCipher =>
    have hfirst : first.length = 4 := h
    obtain rfl : tag = [] := List.length_eq_zero_iff.mp htag
    simp [Cipher.length, Cipher.openPacket, Cipher.stream, Cipher.tag, hfirst]
  | aesGcm key iv =>
    have hfirst : first.length = 4 := h
    simp only [Cipher.tagLen] at hbody hrest
    simp only [Cipher.length, Cipher.openPacket, Cipher.stream, Cipher.tag, hbody, hrest,
      xorWith_join hfirst, xorWith_zero, List.take_left' hfirst, List.drop_left' hfirst]
  | chaChaPoly main header =>
    have hfirst : first.length = 4 := h
    have hheader : (xorWith (p.chacha20 header seq 0) first).length = 4 := by simp [hfirst]
    simp only [Cipher.tagLen] at hbody hrest
    simp only [Cipher.length, Cipher.openPacket, Cipher.stream, Cipher.tag, hbody, hrest,
      xorWith_join hfirst, List.drop_left' hheader]
  | aesCtrHmac key iv macKey macLen etm pos firstPlain =>
    simp only [Cipher.tagLen] at hbody hrest
    cases etm with
    | true =>
      have hfirst : first.length = 4 := h
      simp only [Cipher.length, Cipher.openPacket, Cipher.stream, Cipher.tag, hbody, hrest,
        xorWith_join hfirst, xorWith_zero, List.drop_left' hfirst, if_true]
      split <;> rfl
    | false =>
      simp only [Cipher.length, Cipher.openPacket, Cipher.stream, Cipher.tag, hbody, hrest, crypt,
        Bool.false_eq_true, if_false, xorWith_append, Nat.add_assoc, Nat.add_comm pos]

/-- Where the cipher is behind a packet that was opened. -/
theorem forget_openPacket {c : Cipher} {seq : Nat} {first : Bytes} (h : first.length = c.firstRead)
    (body tag : Bytes) (htag : tag.length = c.tagLen)
    (hopen : ((c.length p seq first).1.openPacket p seq first (body ++ tag)).2.isSome = true) :
    ((c.length p seq first).1.openPacket p seq first (body ++ tag)).1.forget =
      (c.advance ((first ++ body).length - 4)).forget := by
  have hbody : (body ++ tag).take ((body ++ tag).length - tag.length) = body := by simp
  rw [htag] at hbody
  cases c with
  | noneCipher => rfl
  | aesGcm key iv => rfl
  | chaChaPoly main header => rfl
  | aesCtrHmac key iv macKey macLen etm pos firstPlain =>
    simp only [Cipher.tagLen] at hbody
    cases etm with
    | true =>
      have hfirst : first.length = 4 := h
      simp only [Cipher.length, Cipher.openPacket, if_true, hbody] at hopen ⊢
      split at hopen
      · rename_i hmac
        rw [if_pos hmac]
        simp [Cipher.advance, hfirst]
      · cases hopen
    | false =>
      have hfirst : first.length = 16 := h
      simp only [Cipher.length, Cipher.openPacket, Bool.false_eq_true, if_false, hbody,
        Cipher.forget, Cipher.advance]
      rw [List.length_append, hfirst, Nat.sub_add_cancel (by omega), Nat.add_assoc]

end

end QuackMail.Ssh
