import Mathlib.Data.Nat.ModEq
import QuackMail.Ssh.Ciphers

/-! # Packets arrive as they were sent

What `ReadPacket` accepts is, octet for octet, what `Seal` makes of what it decrypts to; so in both
directions everything is said about the sealed octets.  Within the keys of one exchange no two of
2^32 packets have the same number, and a tag that is not forged is that of the packet awaited.
-/

namespace QuackMail.Ssh

/-! ## Runs -/

/-- The packets under the keys of one exchange, each with its padding. -/
structure Epoch where
  cipher : Cipher
  strict : Bool
  packets : List (Bytes × (Nat → Byte))

def sendEpoch (p : Primitives) : Sender Cipher → List (Bytes × (Nat → Byte)) →
    Sender Cipher × List Bytes
  | s, [] => (s, [])
  | s, x :: xs =>
    let r := writePacket (ciphers p) s x.2 x.1
    ((sendEpoch p r.1 xs).1, r.2 :: (sendEpoch p r.1 xs).2)

/-- The octets of each packet. -/
def sendEpochs (p : Primitives) : Nat → List Epoch → List Bytes
  | _, [] => []
  | seq, e :: es =>
    let r := sendEpoch p ⟨e.cipher, if e.strict then 0 else seq⟩ e.packets
    r.2 ++ sendEpochs p r.1.seq es

/-- So many packets are read, and none behind one that is refused. -/
def receiveEpoch (p : Primitives) : Receiver Cipher → Nat → Option (Receiver Cipher) × List Bytes
  | r, 0 => (some r, [])
  | r, n + 1 =>
    match readPacket (ciphers p) r with
    | (r', .packet payload) => ((receiveEpoch p r' n).1, payload :: (receiveEpoch p r' n).2)
    | _ => (none, [])

/-- What is delivered. -/
def receiveEpochs (p : Primitives) : Inbox → Nat → List Epoch → List Bytes
  | _, _, [] => []
  | i, seq, e :: es =>
    let r := receiveEpoch p ⟨i, e.cipher, if e.strict then 0 else seq⟩ e.packets.length
    r.2 ++ match r.1 with
      | none => []
      | some r => receiveEpochs p r.inbox r.seq es

def payloads (es : List Epoch) : List Bytes := es.flatMap fun e => e.packets.map Prod.fst

/-- The padding of a payload. -/
def Cipher.padding (c : Cipher) (payload : Bytes) : Nat :=
  padLength c.blockSize (if c.lengthIsAad then 4 else 0) payload.length

/-- The payloads are not empty, and their packets are within `kMaxPacket`. -/
def Epoch.Fits (e : Epoch) : Prop :=
  ∀ x ∈ e.packets, x.1 ≠ [] ∧ 1 + x.1.length + e.cipher.padding x.1 ≤ kMaxPacket

/-- `MakeCipher` is given as many octets for the IV as `IvLen` says. -/
def Cipher.made : Cipher → Prop
  | .aesGcm _ iv => iv.length = 12
  | _ => True

/-- All that is left to be read. -/
def Inbox.unread (i : Inbox) : Bytes := i.buffered ++ i.pending.flatten

/-! ## Tags -/

/-- The number that makes a tag one of this packet: GCM's counter, or the sequence number. -/
def counter : Bytes → Nat
  | [] => 0
  | c :: s => c.toNat + 256 * counter s

def Cipher.number (c : Cipher) (seq : Nat) : Nat :=
  match c with
  | .aesGcm _ iv => counter (iv.drop 4).reverse
  | _ => seq

def Cipher.modulus : Cipher → Nat
  | .aesGcm _ _ => 18446744073709551616
  | _ => 4294967296

variable (p : Primitives)

/-- What a tag says: the number of a packet and the octets it covers. -/
def Cipher.statement (c : Cipher) (seq : Nat) (plain : Bytes) : Nat × Bytes :=
  (c.number seq,
    match c with
    | .aesCtrHmac _ _ _ _ false _ _ => withLength plain
    | _ => xorWith (c.stream p seq) (withLength plain))

def plainOf (c : Cipher) (x : Bytes × (Nat → Byte)) : Bytes :=
  UInt8.ofNat (c.padding x.1) :: x.1 ++ (List.range (c.padding x.1)).map x.2

/-- What the sender's tags say. -/
def statements : Sender Cipher → List (Bytes × (Nat → Byte)) → List (Nat × Bytes)
  | _, [] => []
  | s, x :: xs =>
    s.cipher.statement p s.seq (plainOf s.cipher x) ::
      statements (writePacket (ciphers p) s x.2 x.1).1 xs

/-- No tag is forged: what the tag of an accepted packet says, one of these says. -/
def Unforged (said : List (Nat × Bytes)) : Receiver Cipher → Nat → Prop
  | _, 0 => True
  | r, n + 1 => ∀ r' payload plain, readPacket (ciphers p) r = (r', .packet payload) →
    r.inbox.unread = (r.cipher.sealPacket p r.seq plain).2 ++ r'.inbox.unread →
      r.cipher.statement p r.seq plain ∈ said ∧ Unforged said r' n

/-- In no epoch a tag is forged. -/
def UnforgedRun : Inbox → Nat → List Epoch → Prop
  | _, _, [] => True
  | i, seq, e :: es =>
    Unforged p (statements p ⟨e.cipher, if e.strict then 0 else seq⟩ e.packets)
        ⟨i, e.cipher, if e.strict then 0 else seq⟩ e.packets.length ∧
      ∀ r, (receiveEpoch p ⟨i, e.cipher, if e.strict then 0 else seq⟩ e.packets.length).1 = some r →
        UnforgedRun r.inbox r.seq es

section

variable {p}

/-! ## Reading -/

theorem readExactLoop_eq (n : Nat) (pending : List Bytes) (buffered : Bytes) :
    (n ≤ (buffered ++ pending.flatten).length →
      (readExactLoop n buffered pending).2 = some ((buffered ++ pending.flatten).take n) ∧
        (readExactLoop n buffered pending).1.unread = (buffered ++ pending.flatten).drop n) ∧
      ((buffered ++ pending.flatten).length < n → (readExactLoop n buffered pending).2 = none) := by
  induction pending generalizing buffered with
  | nil =>
    simp only [List.flatten_nil, List.append_nil, readExactLoop]
    split
    · exact ⟨fun h => absurd h (by omega), fun _ => rfl⟩
    · exact ⟨fun _ => ⟨rfl, by simp [Inbox.unread]⟩, fun h => absurd h (by omega)⟩
  | cons chunk pending ih =>
    rw [readExactLoop]
    split
    · simpa using ih (buffered ++ chunk)
    · have hle : n ≤ buffered.length := by omega
      refine ⟨fun _ => ⟨?_, ?_⟩, fun hlt => ?_⟩
      · rw [List.take_append_of_le_length hle]
      · simp [Inbox.unread, List.drop_append_of_le_length hle]
      · rw [List.length_append] at hlt
        omega

variable {i : Inbox} {a b : Bytes} {c : Cipher} {r : Receiver Cipher} {x : Bytes × (Nat → Byte)}
  {s : Sender Cipher} {xs : List (Bytes × (Nat → Byte))} {seq : Nat}

theorem readExact_some {n : Nat} {i' : Inbox} {out : Bytes}
    (h : readExact n i = (i', some out)) : out.length = n ∧ i.unread = out ++ i'.unread := by
  have heq := readExactLoop_eq n i.pending i.buffered
  rw [readExact] at h
  rw [h] at heq
  by_cases hle : n ≤ (i.buffered ++ i.pending.flatten).length
  · obtain ⟨hout, hrest⟩ := heq.1 hle
    obtain rfl := Option.some.inj hout
    refine ⟨by rw [List.length_take]; omega, ?_⟩
    rw [hrest]
    exact (List.take_append_drop _ _).symm
  · cases heq.2 (by omega)

theorem readExact_append {n : Nat} (h : i.unread = a ++ b)
    (ha : a.length = n) : ∃ i', readExact n i = (i', some a) ∧ i'.unread = b := by
  have heq := (readExactLoop_eq n i.pending i.buffered).1
  rw [show i.buffered ++ i.pending.flatten = a ++ b from h] at heq
  obtain ⟨hout, hrest⟩ := heq (by simp [← ha])
  refine ⟨(readExact n i).1, Prod.ext rfl ?_, ?_⟩
  · rw [readExact, hout, List.take_left' ha]
  · rw [readExact, hrest, List.drop_left' ha]

theorem withLength_drop (plain : Bytes) : (withLength plain).drop 4 = plain := rfl

theorem length_withLength (plain : Bytes) : (withLength plain).length = plain.length + 4 := by
  simp [withLength, Nat.add_comm]

/-- Octets are a length and what is behind it. -/
theorem withLength_of_be32 {full : Bytes} (h : 4 ≤ full.length)
    (hlen : full.length = be32 full + 4) : withLength (full.drop 4) = full := by
  match full, h with
  | a :: b :: c :: d :: s, _ =>
    have hbe : be32 (a :: b :: c :: d :: s) = be32 [a, b, c, d] := rfl
    have hs : s.length = be32 [a, b, c, d] := by
      rw [← hbe]
      simpa using hlen
    simp only [withLength, List.drop_succ_cons, List.drop_zero, hs, u32Bytes_be32]
    rfl

theorem firstRead_le {len : Nat} (h : c.aligned len = true) :
    4 ≤ c.firstRead ∧ c.firstRead ≤ len + 4 := by
  cases c with
  | aesCtrHmac key iv macKey macLen etm pos firstPlain =>
    cases etm <;> simp [Cipher.aligned, Cipher.firstRead] at h ⊢
    omega
  | _ => simp [Cipher.firstRead]

theorem be32_append {s : Bytes} (h : 4 ≤ s.length) (s' : Bytes) : be32 (s ++ s') = be32 s := by
  match s, h with
  | a :: b :: c :: d :: s, _ => rfl

/-- What is accepted is what `Seal` makes of what it decrypts to. -/
theorem readPacket_sound {r' : Receiver Cipher} {payload : Bytes}
    (h : readPacket (ciphers p) r = (r', .packet payload)) :
    ∃ plain, unpad plain = .packet payload ∧
      r.inbox.unread = (r.cipher.sealPacket p r.seq plain).2 ++ r'.inbox.unread ∧
      r'.cipher.forget = (r.cipher.advance plain.length).forget ∧ r'.seq = seqNext r.seq := by
  obtain ⟨i, c, seq⟩ := r
  simp only [readPacket, ciphers] at h
  split at h
  · cases h
  rename_i i₁ first hfirst
  split at h
  · cases h
  rename_i c₁ len hlength
  split at h
  · cases h
  split at h
  · cases h
  rename_i i₂ rest hrest
  split at h
  · cases h
  rename_i c₂ plain hopen
  obtain ⟨hr, hunpad⟩ := Prod.mk.inj h
  obtain ⟨hfirstLen, hunread⟩ := readExact_some hfirst
  obtain ⟨hrestLen, hunread₁⟩ := readExact_some hrest
  have hlen := @length_eq p _ seq _ hfirstLen
  rw [hlength] at hlen
  split at hlen
  case isFalse => cases hlen
  rename_i haligned
  obtain rfl := Option.some.inj hlen
  obtain ⟨hfour, hle⟩ := firstRead_le haligned
  have hc₁ : c₁ = (c.length p seq first).1 := by rw [hlength]
  rw [hc₁, restRead_eq] at hrestLen
  -- the tag is the end of what was read
  obtain ⟨body, tag, rfl, htag⟩ : ∃ body tag, rest = body ++ tag ∧ tag.length = c.tagLen := by
    refine ⟨rest.take (rest.length - c.tagLen), rest.drop (rest.length - c.tagLen),
      (List.take_append_drop _ _).symm, ?_⟩
    rw [List.length_drop]
    omega
  have heq := @openPacket_eq p _ seq _ hfirstLen body tag htag
  have hforget := @forget_openPacket p _ seq _ hfirstLen body tag htag
  rw [← hc₁, hopen] at heq hforget
  split at heq
  case isFalse => cases heq
  rename_i hverified
  obtain rfl := Option.some.inj heq
  have hlist : (first ++ body).length = be32 (xorWith (c.stream p seq) first) + 4 := by
    rw [List.length_append] at hrestLen ⊢
    omega
  have hfull : withLength ((xorWith (c.stream p seq) (first ++ body)).drop 4) =
      xorWith (c.stream p seq) (first ++ body) := by
    apply withLength_of_be32
    · rw [length_xorWith]
      omega
    · rw [length_xorWith, xorWith_append, be32_append (by rw [length_xorWith]; omega), hlist]
  refine ⟨_, hunpad, ?_, ?_, ?_⟩
  · rw [← hr, sealPacket_eq, hfull, xorWith_xorWith, hverified, hunread, hunread₁]
    simp
  · rw [← hr]
    exact (hforget rfl).trans (by simp)
  · rw [← hr]

/-- What `Seal` makes of a plaintext is opened. -/
theorem readPacket_complete {plain tail : Bytes} (hmin : 5 ≤ plain.length)
    (hmax : plain.length ≤ kMaxPacket) (haligned : r.cipher.aligned plain.length = true)
    (h : r.inbox.unread = (r.cipher.sealPacket p r.seq plain).2 ++ tail) :
    ∃ r', readPacket (ciphers p) r = (r', unpad plain) ∧ r'.inbox.unread = tail ∧
      r'.cipher.forget = (r.cipher.advance plain.length).forget ∧ r'.seq = seqNext r.seq := by
  obtain ⟨i, c, seq⟩ := r
  dsimp only at haligned h ⊢
  rw [sealPacket_eq] at h
  obtain ⟨hfour, hle⟩ := firstRead_le haligned
  generalize htag : c.tag p seq (xorWith (c.stream p seq) (withLength plain)) (withLength plain) =
    tag at h
  have htagLen : tag.length = c.tagLen := by rw [← htag, length_tag]
  -- the first octets, and the rest up to the tag
  obtain ⟨first, body, hct, hfirst⟩ : ∃ first body,
      xorWith (c.stream p seq) (withLength plain) = first ++ body ∧ first.length = c.firstRead := by
    refine ⟨_, _, (List.take_append_drop c.firstRead _).symm, ?_⟩
    rw [List.length_take, length_xorWith, length_withLength]
    omega
  have hlist : first.length + body.length = plain.length + 4 := by
    rw [← List.length_append, ← hct, length_xorWith, length_withLength]
  have hfull : xorWith (c.stream p seq) (first ++ body) = withLength plain := by
    rw [← hct, xorWith_xorWith]
  have hbe : be32 (xorWith (c.stream p seq) first) = plain.length := by
    have hsplit := congrArg be32 hfull
    rw [xorWith_append, be32_append (by rw [length_xorWith]; omega)] at hsplit
    rw [hsplit, withLength, be32_u32Bytes]
    exact Nat.lt_of_le_of_lt hmax (by decide)
  rw [hct] at h htag
  have hunread : i.unread = first ++ (body ++ (tag ++ tail)) := by simpa using h
  obtain ⟨i₁, hread₁, hunread₁⟩ := readExact_append hunread hfirst
  have hrestLen : (body ++ tag).length = (c.length p seq first).1.restRead plain.length := by
    rw [restRead_eq, List.length_append]
    omega
  obtain ⟨i₂, hread₂, hunread₂⟩ :=
    readExact_append (hunread₁.trans (List.append_assoc body tag tail).symm) hrestLen
  have hlength := @length_eq p _ seq _ hfirst
  rw [hbe, if_pos haligned] at hlength
  have hopen := @openPacket_eq p _ seq _ hfirst body tag htagLen
  rw [hfull, if_pos htag, withLength_drop] at hopen
  have hforget := @forget_openPacket p _ seq _ hfirst body tag htagLen
    (by rw [hopen]; rfl)
  generalize hc₁ : c.length p seq first = c₁ at hlength hopen hforget hread₂
  obtain ⟨c₁, len⟩ := c₁
  obtain rfl : len = some plain.length := hlength
  generalize hc₂ : c₁.openPacket p seq first (body ++ tag) = c₂ at hopen hforget
  obtain ⟨c₂, out⟩ := c₂
  obtain rfl : out = some plain := hopen
  refine ⟨⟨i₂, c₂, seqNext seq⟩, ?_, hunread₂, ?_, rfl⟩
  · have hbad : ¬(plain.length > kMaxPacket ∨ plain.length < 5) := by omega
    simp only [readPacket, ciphers, hread₁, hc₁, if_neg hbad, hread₂, hc₂]
  · rw [hforget, List.length_append, hlist, Nat.add_sub_cancel]

/-! ## Padding -/

theorem padding_spec (c : Cipher) (payload : Bytes) :
    4 ≤ c.padding payload ∧ c.padding payload ≤ 255 ∧
      (1 + payload.length + c.padding payload ≤ kMaxPacket →
        c.aligned (1 + payload.length + c.padding payload) = true) := by
  have hmax : kMaxPacket = 262144 := rfl
  cases c with
  | noneCipher =>
    simp only [Cipher.padding, padLength, Cipher.blockSize, Cipher.lengthIsAad,
      Bool.false_eq_true, if_false, Nat.sub_zero]
    refine ⟨?_, ?_, fun _ => rfl⟩ <;> split <;> omega
  | aesGcm _ _ =>
    simp only [Cipher.padding, padLength, Cipher.blockSize, Cipher.lengthIsAad, Cipher.aligned,
      if_true, Bool.and_eq_true, decide_eq_true_eq, hmax]
    split <;> omega
  | chaChaPoly _ _ =>
    simp only [Cipher.padding, padLength, Cipher.blockSize, Cipher.lengthIsAad, Cipher.aligned,
      if_true, Bool.and_eq_true, decide_eq_true_eq, hmax]
    split <;> omega
  | aesCtrHmac key iv macKey macLen etm pos firstPlain =>
    cases etm <;>
      simp only [Cipher.padding, padLength, Cipher.blockSize, Cipher.lengthIsAad, Cipher.aligned,
        Bool.false_eq_true, if_true, if_false, Bool.and_eq_true, decide_eq_true_eq, hmax,
      Nat.sub_zero] <;>
      split <;> omega

theorem length_plainOf (c : Cipher) (x : Bytes × (Nat → Byte)) :
    (plainOf c x).length = 1 + x.1.length + c.padding x.1 := by
  simp [plainOf]
  omega

theorem unpad_plainOf (c : Cipher) (hne : x.1 ≠ []) : unpad (plainOf c x) = .packet x.1 := by
  obtain ⟨hmin, hmax, -⟩ := padding_spec c x.1
  have hpos := List.length_pos_of_ne_nil hne
  have hnat : (UInt8.ofNat (c.padding x.1)).toNat = c.padding x.1 :=
    UInt8.toNat_ofNat_of_lt' (Nat.lt_of_le_of_lt hmax (by decide))
  have hbad : ¬(UInt8.ofNat (c.padding x.1) < 4 ∨
      (x.1 ++ (List.range (c.padding x.1)).map x.2).length ≤
        (UInt8.ofNat (c.padding x.1)).toNat) := by
    rw [UInt8.lt_iff_toNat_lt, hnat, List.length_append, List.length_map, List.length_range]
    have hfour : (4 : UInt8).toNat = 4 := rfl
    omega
  rw [plainOf, List.cons_append, unpad, if_neg hbad, hnat]
  simp

theorem writePacket_eq (s : Sender Cipher) (x : Bytes × (Nat → Byte)) :
    writePacket (ciphers p) s x.2 x.1 =
      (⟨s.cipher.advance (plainOf s.cipher x).length, seqNext s.seq⟩,
        (s.cipher.sealPacket p s.seq (plainOf s.cipher x)).2) := by
  have hseal : (s.cipher.sealPacket p s.seq (plainOf s.cipher x)).1 =
      s.cipher.advance (plainOf s.cipher x).length := by rw [sealPacket_eq]
  rw [← hseal]
  rfl

/-! ## In step -/

theorem padding_advance (c : Cipher) (len : Nat) : (c.advance len).padding = c.padding := by
  cases c <;> rfl

theorem forget_advance (c : Cipher) (len : Nat) :
    (c.forget.advance len).forget = (c.advance len).forget := by
  cases c <;> rfl

theorem sealPacket_forget (c : Cipher) (seq : Nat) (plain : Bytes) :
    (c.forget.sealPacket p seq plain).2 = (c.sealPacket p seq plain).2 := by
  rw [sealPacket_eq, sealPacket_eq]
  cases c <;> rfl

theorem statement_forget (c : Cipher) (seq : Nat) (plain : Bytes) :
    c.forget.statement p seq plain = c.statement p seq plain := by
  cases c with
  | aesCtrHmac key iv macKey macLen etm pos firstPlain => cases etm <;> rfl
  | _ => rfl

theorem aligned_forget (c : Cipher) : c.forget.aligned = c.aligned := by
  cases c <;> rfl

/-- Both ends have the same keys, counters and sequence number. -/
structure Synced (s : Sender Cipher) (r : Receiver Cipher) : Prop where
  cipher : r.cipher.forget = s.cipher.forget
  seq : r.seq = s.seq

theorem Synced.seal (h : Synced s r) (plain : Bytes) :
    (r.cipher.sealPacket p r.seq plain).2 = (s.cipher.sealPacket p s.seq plain).2 := by
  rw [← sealPacket_forget, h.cipher, h.seq, sealPacket_forget]

theorem Synced.advance {r' : Receiver Cipher} (h : Synced s r) {len : Nat}
    (hcipher : r'.cipher.forget = (r.cipher.advance len).forget) (hseq : r'.seq = seqNext r.seq) :
    Synced ⟨s.cipher.advance len, seqNext s.seq⟩ r' :=
  ⟨by rw [hcipher, ← forget_advance, h.cipher, forget_advance], by rw [hseq, h.seq]⟩

/-- What can be sent from here on. -/
def Sender.Fits (s : Sender Cipher) (xs : List (Bytes × (Nat → Byte))) : Prop :=
  ∀ x ∈ xs, x.1 ≠ [] ∧ 1 + x.1.length + s.cipher.padding x.1 ≤ kMaxPacket

theorem Sender.Fits.tail (h : s.Fits (x :: xs)) :
    (writePacket (ciphers p) s x.2 x.1).1.Fits xs := by
  intro y hy
  rw [writePacket_eq, padding_advance]
  exact h y (List.mem_cons_of_mem x hy)

/-! ## Undisturbed -/

/-- A packet that arrives whole is read. -/
theorem readPacket_sent (hsync : Synced s r) (hfits : s.Fits (x :: xs))
    {tail : Bytes} (h : r.inbox.unread = (writePacket (ciphers p) s x.2 x.1).2 ++ tail) :
    ∃ r', readPacket (ciphers p) r = (r', .packet x.1) ∧ r'.inbox.unread = tail ∧
      Synced (writePacket (ciphers p) s x.2 x.1).1 r' := by
  obtain ⟨hne, hmax⟩ := hfits x List.mem_cons_self
  obtain ⟨hpad, -, haligned⟩ := padding_spec s.cipher x.1
  rw [writePacket_eq, ← hsync.seal] at h
  rw [← length_plainOf] at hmax haligned
  have halignedR : r.cipher.aligned (plainOf s.cipher x).length = true := by
    rw [← aligned_forget, hsync.cipher, aligned_forget]
    exact haligned hmax
  obtain ⟨r', hread, hrest, hcipher, hseq⟩ :=
    readPacket_complete (by rw [length_plainOf]; omega) hmax halignedR h
  rw [unpad_plainOf _ hne] at hread
  rw [writePacket_eq]
  exact ⟨r', hread, hrest, hsync.advance hcipher hseq⟩

theorem receiveEpoch_sent {s : Sender Cipher} {r : Receiver Cipher} (hsync : Synced s r)
    {xs : List (Bytes × (Nat → Byte))} (hfits : s.Fits xs) {tail : Bytes}
    (h : r.inbox.unread = (sendEpoch p s xs).2.flatten ++ tail) :
    ∃ r', receiveEpoch p r xs.length = (some r', xs.map Prod.fst) ∧ r'.inbox.unread = tail ∧
      Synced (sendEpoch p s xs).1 r' := by
  induction xs generalizing s r with
  | nil => exact ⟨r, rfl, h, hsync⟩
  | cons x xs ih =>
    rw [sendEpoch, List.flatten_cons, List.append_assoc] at h
    obtain ⟨r', hread, hrest, hsync'⟩ := readPacket_sent hsync hfits h
    obtain ⟨r'', hepoch, hrest', hsync''⟩ := ih hsync' hfits.tail hrest
    exact ⟨r'', by simp [receiveEpoch, hread, hepoch], hrest', hsync''⟩

theorem receiveEpochs_sent {es : List Epoch} (hfits : ∀ e ∈ es, e.Fits)
    (h : i.unread = (sendEpochs p seq es).flatten) : receiveEpochs p i seq es = payloads es := by
  induction es generalizing i seq with
  | nil => rfl
  | cons e es ih =>
    rw [sendEpochs, List.flatten_append] at h
    obtain ⟨r', hepoch, hrest, hsync⟩ := @receiveEpoch_sent p
      ⟨e.cipher, if e.strict then 0 else seq⟩ ⟨i, e.cipher, if e.strict then 0 else seq⟩ ⟨rfl, rfl⟩
      e.packets (hfits e List.mem_cons_self) _ h
    rw [receiveEpochs, hepoch]
    simp only [payloads, List.flatMap_cons, hsync.seq]
    exact congrArg _ (ih (fun e' he' => hfits e' (List.mem_cons_of_mem e he')) hrest)

/-! ## Altered -/

theorem withLength_injective (h : withLength a = withLength b) : a = b := by
  rw [← withLength_drop a, h, withLength_drop]

theorem xorWith_injective {ks : Nat → Byte} (h : xorWith ks a = xorWith ks b) : a = b := by
  rw [← xorWith_xorWith ks a, h, xorWith_xorWith]

/-- A tag says all of a packet. -/
theorem statement_injective (h : c.statement p seq a = c.statement p seq b) : a = b := by
  cases c with
  | aesCtrHmac key iv macKey macLen etm pos firstPlain =>
    cases etm with
    | true => exact withLength_injective (xorWith_injective (Prod.mk.inj h).2)
    | false => exact withLength_injective (Prod.mk.inj h).2
  | _ => exact withLength_injective (xorWith_injective (Prod.mk.inj h).2)

theorem counter_lt (s : Bytes) : counter s < 256 ^ s.length := by
  induction s with
  | nil => simp [counter]
  | cons c s ih =>
    have hc := c.toNat_lt
    rw [counter, List.length_cons, Nat.pow_succ]
    omega

theorem length_increment (s : Bytes) : (increment s).length = s.length := by
  induction s with
  | nil => rfl
  | cons c s ih =>
    rw [increment]
    split <;> simp [ih]

theorem counter_increment (s : Bytes) :
    counter (increment s) = (counter s + 1) % 256 ^ s.length := by
  induction s with
  | nil => rfl
  | cons c s ih =>
    have hlt := counter_lt s
    have hc := c.toNat_lt
    have hnat : (c + 1).toNat = (c.toNat + 1) % 256 := by simp
    rw [increment, List.length_cons, Nat.pow_succ]
    split
    · rename_i hne
      have hne' : (c + 1).toNat ≠ 0 := fun h0 => hne (UInt8.toNat_inj.mp h0)
      rw [counter, counter, Nat.mod_eq_of_lt (by omega), hnat]
      omega
    · rename_i heq
      rw [not_not] at heq
      rw [heq] at hnat
      have h255 : c.toNat = 255 := by
        have h0 : (0 : UInt8).toNat = 0 := rfl
        omega
      have hsplit : counter (c :: s) + 1 = 256 * (counter s + 1) := by
        rw [counter, h255]
        omega
      rw [hsplit, counter, ih, Nat.mul_comm _ 256, Nat.mul_mod_mul_left]
      simp

theorem made_advance (h : c.made) (len : Nat) : (c.advance len).made := by
  cases c with
  | aesGcm key iv =>
    have hiv : iv.length = 12 := h
    simp [Cipher.advance, Cipher.made, bump, length_increment, hiv]
  | _ => trivial

theorem modulus_advance (c : Cipher) (len : Nat) : (c.advance len).modulus = c.modulus := by
  cases c <;> rfl

theorem le_modulus (c : Cipher) : 4294967296 ≤ c.modulus := by
  cases c <;> simp [Cipher.modulus]

theorem seqNext_lt (seq : Nat) : seqNext seq < 4294967296 := Nat.mod_lt _ (by decide)

theorem number_lt (h : c.made) (hseq : seq < 4294967296) : c.number seq < c.modulus := by
  cases c with
  | aesGcm key iv =>
    have hiv : iv.length = 12 := h
    have hlt := counter_lt (iv.drop 4).reverse
    rw [List.length_reverse, List.length_drop, hiv] at hlt
    exact hlt
  | _ => exact hseq

theorem number_advance (h : c.made) (seq len : Nat) :
    (c.advance len).number (seqNext seq) = (c.number seq + 1) % c.modulus := by
  cases c with
  | aesGcm key iv =>
    have hiv : iv.length = 12 := h
    have htake : (iv.take 4).length = 4 := by simp [hiv]
    have hcount := counter_increment (iv.drop 4).reverse
    rw [List.length_reverse, List.length_drop, hiv] at hcount
    simp only [Cipher.advance, Cipher.number, bump, List.drop_left' htake, List.reverse_reverse]
    exact hcount
  | _ => rfl

/-- The tags of an epoch have their numbers in turn. -/
theorem statements_number (hmade : s.cipher.made) (hseq : s.seq < 4294967296)
    {j : Nat} {st : Nat × Bytes}
    (h : (statements p s xs)[j]? = some st) :
    st.1 = (s.cipher.number s.seq + j) % s.cipher.modulus := by
  induction xs generalizing s j with
  | nil => simp [statements] at h
  | cons x xs ih =>
    cases j with
    | zero =>
      rw [← Option.some.inj h, Nat.add_zero, Nat.mod_eq_of_lt (number_lt hmade hseq)]
      rfl
    | succ j =>
      rw [statements, List.getElem?_cons_succ, writePacket_eq] at h
      have hst := @ih ⟨s.cipher.advance (plainOf s.cipher x).length, seqNext s.seq⟩
        (made_advance hmade _) (seqNext_lt _) j h
      rw [number_advance hmade, modulus_advance, Nat.mod_add_mod] at hst
      rw [hst, Nat.add_assoc, Nat.add_comm 1 j]

theorem length_statements (s : Sender Cipher) (xs : List (Bytes × (Nat → Byte))) :
    (statements p s xs).length = xs.length := by
  induction xs generalizing s with
  | nil => rfl
  | cons x xs ih => rw [statements, List.length_cons, List.length_cons, ih]

theorem length_sendEpoch (s : Sender Cipher) (xs : List (Bytes × (Nat → Byte))) :
    (sendEpoch p s xs).2.length = xs.length := by
  induction xs generalizing s with
  | nil => rfl
  | cons x xs ih => rw [sendEpoch, List.length_cons, List.length_cons, ih]

/-- Of two numbers under one key, less than the modulus apart from the first, equal ones are of one
    packet. -/
theorem eq_of_number {base m a b : Nat} (ha : a < m) (hb : b < m)
    (h : (base + a) % m = (base + b) % m) : a = b := by
  have hmod : Nat.ModEq m (base + a) (base + b) := h
  exact (Nat.ModEq.add_left_cancel' base hmod).eq_of_lt_of_lt ha hb

/-- What an epoch delivers has arrived as it was sent. -/
theorem receiveEpoch_unforged {said front : List (Nat × Bytes)} {base : Nat} {s : Sender Cipher}
    {r : Receiver Cipher} (hsync : Synced s r) {xs : List (Bytes × (Nat → Byte))}
    (hfits : s.Fits xs) (hsaid : said = front ++ statements p s xs)
    (hnumber : ∀ j st, said[j]? = some st → st.1 = (base + j) % s.cipher.modulus)
    (hshort : said.length ≤ 4294967296) (hunforged : Unforged p said r xs.length) :
    ∃ j tail, (receiveEpoch p r xs.length).2 = (xs.map Prod.fst).take j ∧
      r.inbox.unread = ((sendEpoch p s xs).2.take j).flatten ++ tail ∧ j ≤ xs.length ∧
      ∀ r', (receiveEpoch p r xs.length).1 = some r' →
        j = xs.length ∧ r'.inbox.unread = tail ∧ Synced (sendEpoch p s xs).1 r' := by
  induction xs generalizing s r front with
  | nil => exact ⟨0, r.inbox.unread, rfl, rfl, Nat.le_refl 0, fun r' h => by
      obtain rfl := Option.some.inj h
      exact ⟨rfl, rfl, hsync⟩⟩
  | cons x xs ih =>
    rw [List.length_cons, receiveEpoch]
    split
    case h_2 => exact ⟨0, r.inbox.unread, rfl, rfl, Nat.zero_le _, fun r' h => by cases h⟩
    rename_i r' payload hread
    obtain ⟨plain, hunpad, hunread, hcipher, hseq⟩ := readPacket_sound hread
    obtain ⟨hmem, hrest⟩ := hunforged r' payload plain hread hunread
    -- the tag says the number of the packet that is awaited, so it is its tag
    have hplain : plain = plainOf s.cipher x := by
      have hst : r.cipher.statement p r.seq plain = s.cipher.statement p s.seq plain := by
        rw [← statement_forget, hsync.cipher, statement_forget, hsync.seq]
      rw [hst] at hmem
      obtain ⟨j, hj⟩ := List.mem_iff_getElem?.mp hmem
      have hhere : said[front.length]? =
          some (s.cipher.statement p s.seq (plainOf s.cipher x)) := by
        rw [hsaid, statements]
        simp
      have hsame : (s.cipher.statement p s.seq plain).1 =
          (s.cipher.statement p s.seq (plainOf s.cipher x)).1 := rfl
      have hnum := (hnumber _ _ hj).symm.trans (hsame.trans (hnumber _ _ hhere))
      have hle := le_modulus s.cipher
      have hjlt := (List.getElem?_eq_some_iff.mp hj).1
      have hflt := (List.getElem?_eq_some_iff.mp hhere).1
      obtain rfl := eq_of_number (by omega) (by omega) hnum
      exact statement_injective (Option.some.inj (hj.symm.trans hhere))
    have hpayload : payload = x.1 := by
      rw [hplain, unpad_plainOf _ (hfits x List.mem_cons_self).1] at hunpad
      exact (Reading.packet.inj hunpad).symm
    rw [hplain] at hunread hcipher
    have hsync' : Synced (writePacket (ciphers p) s x.2 x.1).1 r' := by
      rw [writePacket_eq]
      exact hsync.advance hcipher hseq
    have hmodulus : (writePacket (ciphers p) s x.2 x.1).1.cipher.modulus = s.cipher.modulus := by
      rw [writePacket_eq, modulus_advance]
    have hsaid' : said = (front ++ [s.cipher.statement p s.seq (plainOf s.cipher x)]) ++
        statements p (writePacket (ciphers p) s x.2 x.1).1 xs := by
      rw [hsaid, statements]
      simp
    obtain ⟨j, tail, hgot, hprefix, hj, hdone⟩ :=
      ih hsync' hfits.tail hsaid' (by rw [hmodulus]; exact hnumber) hrest
    refine ⟨j + 1, tail, ?_, ?_, Nat.succ_le_succ hj, fun r'' h => ?_⟩
    · simp [hgot, hpayload]
    · rw [sendEpoch, List.take_succ_cons, List.flatten_cons, List.append_assoc, ← hprefix, hunread,
        hsync.seal, writePacket_eq]
    · obtain ⟨hall, htail, hend⟩ := hdone r'' h
      exact ⟨by rw [hall], htail, hend⟩

theorem sendEpoch_seq_lt (hseq : s.seq < 4294967296)
    (xs : List (Bytes × (Nat → Byte))) : (sendEpoch p s xs).1.seq < 4294967296 := by
  induction xs generalizing s with
  | nil => exact hseq
  | cons x xs ih => exact ih (seqNext_lt _)

theorem receiveEpochs_unforged {es : List Epoch} (hmade : ∀ e ∈ es, e.cipher.made)
    (hfits : ∀ e ∈ es, e.Fits) (hshort : ∀ e ∈ es, e.packets.length ≤ 4294967296)
    (hseq : seq < 4294967296) (h : UnforgedRun p i seq es) :
    ∃ j, receiveEpochs p i seq es = (payloads es).take j ∧
      ((sendEpochs p seq es).take j).flatten <+: i.unread := by
  induction es generalizing i seq with
  | nil => exact ⟨0, rfl, List.nil_prefix⟩
  | cons e es ih =>
    obtain ⟨hunforged, hrest⟩ := h
    have hfirst : (if e.strict then 0 else seq) < 4294967296 := by split <;> omega
    obtain ⟨j, tail, hgot, hprefix, hj, hdone⟩ := @receiveEpoch_unforged p _ []
      (e.cipher.number (if e.strict then 0 else seq)) ⟨e.cipher, if e.strict then 0 else seq⟩
      ⟨i, e.cipher, if e.strict then 0 else seq⟩ ⟨rfl, rfl⟩ e.packets
      (hfits e List.mem_cons_self) rfl
      (fun j st hst => statements_number (hmade e List.mem_cons_self) hfirst hst)
      (by rw [List.nil_append, length_statements]; exact hshort e List.mem_cons_self) hunforged
    rw [receiveEpochs, sendEpochs, payloads, List.flatMap_cons]
    cases hend : (receiveEpoch p ⟨i, e.cipher, if e.strict then 0 else seq⟩ e.packets.length).1 with
    | none =>
      refine ⟨j, ?_, tail, ?_⟩
      · rw [List.take_append_of_le_length (by rw [List.length_map]; exact hj)]
        simp [hgot]
      · rw [List.take_append_of_le_length (by rw [length_sendEpoch]; exact hj)]
        exact hprefix.symm
    | some r' =>
      obtain ⟨rfl, htail, hsync⟩ := hdone r' hend
      have hlt : r'.seq < 4294967296 := by
        rw [hsync.seq]
        exact sendEpoch_seq_lt hfirst _
      have hmem : ∀ e' ∈ es, e' ∈ e :: es := fun _ he' => List.mem_cons_of_mem e he'
      obtain ⟨j', hgot', tail', hprefix'⟩ := ih (fun e' he' => hmade e' (hmem e' he'))
        (fun e' he' => hfits e' (hmem e' he')) (fun e' he' => hshort e' (hmem e' he')) hlt
        (hrest r' hend)
      refine ⟨e.packets.length + j', ?_, tail', ?_⟩
      · rw [List.take_append, List.take_of_length_le (by simp), List.length_map,
          Nat.add_sub_cancel_left]
        simp only [hgot, hgot']
        rw [List.take_of_length_le (by simp)]
        rfl
      · rw [List.take_append, length_sendEpoch, Nat.add_sub_cancel_left,
          List.take_of_length_le (by rw [length_sendEpoch]; omega), List.flatten_append,
          List.append_assoc, ← hsync.seq, hprefix', htail]
        rw [List.take_of_length_le (by rw [length_sendEpoch])] at hprefix
        exact hprefix.symm

/-- Every packet is padded and aligned, and what arrives as it was sent is delivered; and if no tag
    is forged and at most 2^32 packets are sent under one key, nothing is delivered but payloads in
    their order whose packets have arrived octet for octet. -/
theorem packets_intact (p : Primitives) (seq : Nat) (hseq : seq < 4294967296) (es : List Epoch)
    (hmade : ∀ e ∈ es, e.cipher.made) (hfits : ∀ e ∈ es, e.Fits) :
    (∀ e ∈ es, ∀ x ∈ e.packets, 4 ≤ e.cipher.padding x.1 ∧ e.cipher.padding x.1 ≤ 255 ∧
        e.cipher.aligned (1 + x.1.length + e.cipher.padding x.1) = true) ∧
      (∀ i : Inbox, i.unread = (sendEpochs p seq es).flatten →
        receiveEpochs p i seq es = payloads es) ∧
      ((∀ e ∈ es, e.packets.length ≤ 4294967296) → ∀ i : Inbox, UnforgedRun p i seq es →
        ∃ j, receiveEpochs p i seq es = (payloads es).take j ∧
          ((sendEpochs p seq es).take j).flatten <+: i.unread) := by
  refine ⟨fun e he x hx => ?_, fun i h => receiveEpochs_sent hfits h,
    fun hshort i h => receiveEpochs_unforged hmade hfits hshort hseq h⟩
  obtain ⟨hmin, hmax, haligned⟩ := padding_spec e.cipher x.1
  exact ⟨hmin, hmax, haligned (hfits e he x hx).2⟩

/-! ## Two streams -/

theorem sealPacket_injective (h : (c.sealPacket p seq a).2 = (c.sealPacket p seq b).2) : a = b := by
  rw [sealPacket_eq, sealPacket_eq] at h
  have hlen : (c.tag p seq (xorWith (c.stream p seq) (withLength a)) (withLength a)).length =
      (c.tag p seq (xorWith (c.stream p seq) (withLength b)) (withLength b)).length := by
    rw [length_tag, length_tag]
  exact withLength_injective (xorWith_injective (List.append_inj_left' h hlen))

/-- What was sent is not forged. -/
theorem unforged_sent {said : List (Nat × Bytes)} (hsync : Synced s r) (hfits : s.Fits xs)
    (h : r.inbox.unread = (sendEpoch p s xs).2.flatten)
    (hsaid : ∀ st ∈ statements p s xs, st ∈ said) : Unforged p said r xs.length := by
  induction xs generalizing s r with
  | nil => trivial
  | cons x xs ih =>
    intro r' payload plain hread hunread
    rw [sendEpoch, List.flatten_cons] at h
    obtain ⟨r'', hread', hrest, hsync'⟩ := readPacket_sent hsync hfits h
    obtain ⟨rfl, -⟩ := Prod.mk.inj (hread.symm.trans hread')
    rw [h, hrest, writePacket_eq, ← hsync.seal] at hunread
    obtain rfl := sealPacket_injective (List.append_cancel_right hunread)
    refine ⟨hsaid _ ?_, ih hsync' hfits.tail hrest fun st hst => ?_⟩
    · rw [statements, ← statement_forget r.cipher, hsync.cipher, statement_forget, hsync.seq]
      exact List.mem_cons_self
    · exact hsaid st (List.mem_cons_of_mem _ hst)

theorem unforgedRun_refused {e : Epoch}
    (h : (readPacket (ciphers p) ⟨i, e.cipher, if e.strict then 0 else seq⟩).2 = .corrupted) :
    UnforgedRun p i seq [e] := by
  refine ⟨?_, fun _ _ => trivial⟩
  cases e.packets.length with
  | zero => trivial
  | succ n =>
    intro r' payload plain hread
    rw [hread] at h
    cases h

theorem receiveEpochs_singleton (i : Inbox) (seq : Nat) (e : Epoch) : receiveEpochs p i seq [e] =
      (receiveEpoch p ⟨i, e.cipher, if e.strict then 0 else seq⟩ e.packets.length).2 := by
  rw [receiveEpochs]
  cases (receiveEpoch p ⟨i, e.cipher, if e.strict then 0 else seq⟩ e.packets.length).1 with
  | none => exact List.append_nil _
  | some r => exact List.append_nil _

theorem statements_append (s : Sender Cipher) (xs ys : List (Bytes × (Nat → Byte))) :
    statements p s (xs ++ ys) = statements p s xs ++ statements p (sendEpoch p s xs).1 ys := by
  induction xs generalizing s with
  | nil => rfl
  | cons x xs ih => rw [List.cons_append, statements, ih, statements, sendEpoch, List.cons_append]

theorem sendEpoch_chaChaPoly (main header : Bytes) (hseq : seq < 4294967296)
    (xs : List (Bytes × (Nat → Byte))) :
    (sendEpoch p ⟨.chaChaPoly main header, seq⟩ xs).1 =
      ⟨.chaChaPoly main header, (seq + xs.length) % 4294967296⟩ := by
  induction xs generalizing seq with
  | nil => simp [sendEpoch, Nat.mod_eq_of_lt hseq]
  | cons x xs ih =>
    have hnext := ih (seqNext_lt seq)
    rw [seqNext, Nat.mod_add_mod] at hnext
    rw [List.length_cons, Nat.add_comm xs.length, ← Nat.add_assoc]
    exact hnext

end

/-- Keystreams and tags that are easily computed. -/
def sums : Primitives where
  chacha20 key seq block pos := (key.getD 0 0) + UInt8.ofNat (seq + block + pos)
  poly1305 key data := List.replicate 16 (data.foldl (· + ·) (key.getD 0 0))
  gcm key iv pos := (key.getD 0 0) + (iv.getD 11 0) + UInt8.ofNat pos
  gcmTag key iv aad ct :=
    List.replicate 16 ((aad ++ ct).foldl (· + ·) (key.getD 0 0 + iv.getD 11 0))
  ctr key iv pos := (key.getD 0 0) + (iv.getD 15 0) + UInt8.ofNat pos
  hmac size key data := List.replicate size (data.foldl (· + ·) (key.getD 0 0))
  length_poly1305 _ _ := by simp
  length_gcmTag _ _ _ _ := by simp
  length_hmac _ _ _ := by simp

/-- A payload of one octet, padded with zeros. -/
def octet (c : Byte) : Bytes × (Nat → Byte) := ([c], fun _ => 0)

def oneOctet : List Epoch := [⟨.chaChaPoly [1] [2], true, [octet 1]⟩]

theorem fits_octets {packets : List (Bytes × (Nat → Byte))} (h : ∀ x ∈ packets, ∃ c, x = octet c) :
    Epoch.Fits ⟨.chaChaPoly [1] [2], true, packets⟩ := by
  intro x hx
  obtain ⟨c, rfl⟩ := h x hx
  have hfits : 1 + 1 + padLength 8 4 1 ≤ kMaxPacket := by decide
  exact ⟨List.cons_ne_nil c [], hfits⟩

/-- The last octet is altered. -/
def altered : Bytes := (sendEpochs sums 0 oneOctet).flatten.dropLast ++ [77]

/-- One packet as it was sent, and altered. -/
theorem packets_intact_octet :
    receiveEpochs sums ⟨[], sendEpochs sums 0 oneOctet⟩ 0 oneOctet = [[1]] ∧
      ∃ j, receiveEpochs sums ⟨altered, []⟩ 0 oneOctet = (payloads oneOctet).take j ∧
        ((sendEpochs sums 0 oneOctet).take j).flatten <+: Inbox.unread ⟨altered, []⟩ := by
  have hmade : ∀ e ∈ oneOctet, e.cipher.made := by
    intro e he
    rw [List.mem_singleton.mp he]
    trivial
  have hfits : ∀ e ∈ oneOctet, e.Fits := by
    intro e he
    rw [List.mem_singleton.mp he]
    exact fits_octets fun x hx => ⟨1, List.mem_singleton.mp hx⟩
  have hrefused : UnforgedRun sums ⟨altered, []⟩ 0 oneOctet :=
    unforgedRun_refused (by decide +kernel)
  exact ⟨(packets_intact sums 0 (by decide) oneOctet hmade hfits).2.1 _ rfl,
    (packets_intact sums 0 (by decide) oneOctet hmade hfits).2.2 (by decide) _ hrefused⟩

/-- Behind 2^32 packets the first is good once more. -/
theorem not_intact_wrapped :
    ¬∀ (p : Primitives) (seq : Nat) (_ : seq < 4294967296) (es : List Epoch)
      (_ : ∀ e ∈ es, e.cipher.made) (_ : ∀ e ∈ es, e.Fits) (i : Inbox), UnforgedRun p i seq es →
        ∃ j, receiveEpochs p i seq es = (payloads es).take j ∧
          ((sendEpochs p seq es).take j).flatten <+: i.unread := by
  intro h
  have hwrapped : ∀ n, n % 4294967296 = 0 → 0 < n → False := by
    intro n hn hpos
    let s : Sender Cipher := ⟨.chaChaPoly [1] [2], 0⟩
    let r : Receiver Cipher :=
      ⟨⟨(sendEpoch sums s (List.replicate n (octet 1) ++ [octet 1])).2.flatten, []⟩,
        .chaChaPoly [1] [2], 0⟩
    let e : Epoch := ⟨.chaChaPoly [1] [2], true, List.replicate n (octet 1) ++ [octet 2]⟩
    have hsync : Synced s r := ⟨rfl, rfl⟩
    have hones : ∀ x ∈ List.replicate n (octet 1) ++ [octet 1], ∃ c, x = octet c := by
      intro x hx
      rcases List.mem_append.mp hx with hx | hx
      · exact ⟨1, List.eq_of_mem_replicate hx⟩
      · exact ⟨1, List.mem_singleton.mp hx⟩
    have hfits : e.Fits := by
      apply fits_octets
      intro x hx
      rcases List.mem_append.mp hx with hx | hx
      · exact ⟨1, List.eq_of_mem_replicate hx⟩
      · exact ⟨2, List.mem_singleton.mp hx⟩
    have hunread : r.inbox.unread =
        (sendEpoch sums s (List.replicate n (octet 1) ++ [octet 1])).2.flatten := by
      simp [r, Inbox.unread]
    have hlength : e.packets.length = (List.replicate n (octet 1) ++ [octet 1]).length := by
      simp [e]
    -- the sender is where it began, so the last tag is the first
    have hback : (sendEpoch sums s (List.replicate n (octet 1))).1 = s := by
      rw [sendEpoch_chaChaPoly _ _ (by decide), List.length_replicate, Nat.zero_add, hn]
    have hsaid : ∀ st ∈ statements sums s (List.replicate n (octet 1) ++ [octet 1]),
        st ∈ statements sums s e.packets := by
      intro st hst
      rw [statements_append] at hst ⊢
      refine List.mem_append_left _ ?_
      rcases List.mem_append.mp hst with hst | hst
      · exact hst
      · obtain ⟨m, rfl⟩ : ∃ m, n = m + 1 := ⟨n - 1, by omega⟩
        rw [hback] at hst
        rw [List.mem_singleton.mp hst, List.replicate_succ, statements]
        exact List.mem_cons_self
    have hunforged : UnforgedRun sums r.inbox 0 [e] := by
      refine ⟨?_, fun _ _ => trivial⟩
      rw [hlength]
      exact unforged_sent hsync (fits_octets hones) hunread hsaid
    obtain ⟨r', hgot, -⟩ := @receiveEpoch_sent sums _ _ hsync _ (fits_octets hones) [] (by
      rw [List.append_nil]
      exact hunread)
    obtain ⟨j, hj, -⟩ := h sums 0 (by decide) [e]
      (fun e' he' => by rw [List.mem_singleton.mp he']; trivial)
      (fun e' he' => by rw [List.mem_singleton.mp he']; exact hfits) r.inbox hunforged
    have hall : receiveEpochs sums r.inbox 0 [e] = List.replicate n [1] ++ [[1]] := by
      rw [receiveEpochs_singleton]
      show (receiveEpoch sums r e.packets.length).2 = _
      rw [hlength, hgot, List.map_append, List.map_replicate]
      rfl
    have hsent : payloads [e] = List.replicate n [1] ++ [[2]] := by
      show (List.replicate n (octet 1) ++ [octet 2]).map Prod.fst ++ [] = _
      simp [octet]
    rw [hall, hsent] at hj
    have hlast := congrArg (fun l => l[n]?) hj
    have hlen := congrArg List.length hj
    simp only [List.length_append, List.length_replicate, List.length_singleton,
      List.length_take] at hlen
    rw [List.take_of_length_le (by simp; omega)] at hlast
    simp at hlast
  exact hwrapped 4294967296 rfl (by decide)

end QuackMail.Ssh
