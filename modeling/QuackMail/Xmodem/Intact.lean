import QuackMail.Xmodem.Transfer

/-! # Transfers arrive intact

What is on the line are frames of the block the sender is at or of the one before, in order, and
the receiver is at the sender's block or one ahead; a frame is acknowledged only once its block has
been accepted.  An acknowledgement that is taken for another block and a drain that ends within a
frame break this; in a run without either, what `Receive` returns is what was sent
(`transfer_intact`).
-/

set_option maxRecDepth 20000

namespace QuackMail.Xmodem

/-! ## What is on the line -/

/-- What the sender writes at once. -/
inductive Sent
  | frame (index : Nat) (body : Bytes)
  | eot
  | cancel

variable {data : Bytes} {l : Limits} {s s' : State}

def encode (data : Bytes) : Sent → Bytes
  | .frame j body => frame (after data j) (UInt8.ofNat (j + 1)) body
  | .eot => [EOT]
  | .cancel => [CAN]

/-- The block it was written for. -/
def Sent.block : Sent → Option Nat
  | .frame j _ => some j
  | .eot => none
  | .cancel => none

def line (data : Bytes) (us : List Sent) : List Octet :=
  us.flatMap fun u => mark u.block (encode data u)

/-- The line with the byte that the receiver has taken for a header. -/
def pending (s : State) : List Octet :=
  match s.receiver with
  | .got b => ⟨b, true, s.reading⟩ :: s.wire
  | _ => s.wire

/-- Something that is under way while the sender is at block `k` and the receiver at `r`. -/
def OnWire (data : Bytes) (k r : Nat) : Sent → Prop
  | .frame j body =>
    after data j ≠ [] ∧ body.length = want (after data j) ∧
      (body = payload (after data j) ∨ crc16 body ≠ crc16 (payload (after data j))) ∧
      (j = k ∨ (j + 1 = k ∧ r = k))
  | .eot => after data k = []
  | .cancel => True

def InOrder (u v : Sent) : Prop :=
  match u, v with
  | .frame i _, .frame j _ => i ≤ j
  | _, _ => True

structure Line (data : Bytes) (k r : Nat) (wire : List Octet) (us : List Sent) : Prop where
  eq : wire = line data us
  onWire : ∀ u ∈ us, OnWire data k r u
  ordered : us.Pairwise InOrder

def SenderAt (data : Bytes) (k : Nat) : Sender → Prop
  | .start _ => k = 0
  | .send todo block _ => todo = after data k ∧ todo ≠ [] ∧ block = UInt8.ofNat (k + 1)
  | .reply todo block _ => todo = after data k ∧ todo ≠ [] ∧ block = UInt8.ofNat (k + 1)
  | .eot _ => after data k = []
  | .eotReply _ => after data k = []
  | .done ok => ok = true → after data k = []

def Receiver.isDone : Receiver → Bool
  | .done _ => true
  | _ => false

/-- What every fitting run keeps. -/
structure Sound (data : Bytes) (s : State) : Prop where
  sender : SenderAt data s.acked s.sender
  near : s.accepted = s.acked ∨ (s.accepted = s.acked + 1 ∧ after data s.acked ≠ [])
  expect : s.expect = UInt8.ofNat (s.accepted + 1)
  out : s.receiver.isDone = false → s.out = gathered data s.accepted
  finished : s.receiver = .done true → s.out = strip data ∧ after data s.accepted = []
  line : s.receiver.isDone = false → ∃ us, Line data s.acked s.accepted (pending s) us
  replies : ∀ reply ∈ s.replies, reply.1 = ACK → ∀ j ∈ reply.2, j < s.accepted

/-! ## Marks -/

theorem encode_ne_nil (u : Sent) : encode data u ≠ [] := by
  cases u with
  | frame j body => simp [encode, frame]
  | eot => simp [encode]
  | cancel => simp [encode]

/-- The line begins with the header of what is first on it. -/
theorem line_cons (u : Sent) (us : List Sent) : ∃ b rest, encode data u = b :: rest ∧
      line data (u :: us) =
        ⟨b, true, u.block⟩ :: (rest.map (⟨·, false, u.block⟩) ++ line data us) := by
  obtain ⟨b, rest, heq⟩ := List.exists_cons_of_ne_nil (@encode_ne_nil data u)
  exact ⟨b, rest, heq, by simp [line, heq, mark]⟩

/-- What is left behind a drain that stops at a mark is the end of the list. -/
theorem line_drop (us : List Sent) (n : Nat)
    (hmark : ∀ o ∈ ((line data us).drop n).head?, o.first = true) :
    ∃ vs, vs <:+ us ∧ (line data us).drop n = line data vs := by
  induction us generalizing n with
  | nil => exact ⟨[], List.suffix_refl _, by simp [line]⟩
  | cons u us ih =>
    obtain ⟨b, rest, -, heq⟩ := @line_cons data u us
    rw [heq] at hmark ⊢
    cases n with
    | zero => exact ⟨u :: us, List.suffix_refl _, by rw [heq, List.drop_zero]⟩
    | succ n =>
      rw [List.drop_succ_cons] at hmark ⊢
      by_cases hinside : n < rest.length
      · -- the drain stops within `u`
        have hmapped : n < (rest.map fun c => (⟨c, false, u.block⟩ : Octet)).length := by
          simpa using hinside
        rw [List.drop_append_of_le_length (Nat.le_of_lt hmapped),
          List.drop_eq_getElem_cons hmapped] at hmark
        simp at hmark
      · have hbehind : (rest.map fun c => (⟨c, false, u.block⟩ : Octet)).length ≤ n := by
          simpa using hinside
        rw [List.drop_append, List.drop_of_length_le hbehind, List.nil_append] at hmark ⊢
        obtain ⟨vs, hsuffix, hvs⟩ := ih _ hmark
        exact ⟨vs, hsuffix.trans (List.suffix_cons u us), hvs⟩

variable {us : List Sent}

variable {k r retry drained : Nat} {block : Byte}

theorem Line.suffix {wire : List Octet} {vs : List Sent}
    (h : Line data k r wire us) (hsuffix : vs <:+ us) : Line data k r (Xmodem.line data vs) vs where
  eq := rfl
  onWire := fun u hu => h.onWire u (hsuffix.subset hu)
  ordered := h.ordered.sublist hsuffix.sublist

variable {u : Sent}

/-- What is written last comes after everything else. -/
theorem Line.append {wire : List Octet} (h : Line data k r wire us) (hu : OnWire data k r u)
    (hlast : ∀ v ∈ us, InOrder v u) :
    Line data k r (wire ++ mark u.block (encode data u)) (us ++ [u]) where
  eq := by simp [h.eq, Xmodem.line]
  onWire := by
    intro v hv
    rcases List.mem_append.mp hv with hv | hv
    · exact h.onWire v hv
    · rwa [List.mem_singleton.mp hv]
  ordered := by
    rw [List.pairwise_append]
    refine ⟨h.ordered, List.pairwise_singleton _ _, fun v hv w hw => ?_⟩
    rw [List.mem_singleton.mp hw]
    exact hlast v hv

/-- Frames on the line are not ahead of the sender. -/
theorem inOrder_frame {v : Sent} {body : Bytes} (hv : OnWire data k r v) :
    InOrder v (.frame k body) := by
  cases v with
  | frame j c =>
    obtain ⟨-, -, -, hj⟩ := hv
    show j ≤ k
    omega
  | eot => trivial
  | cancel => trivial

theorem inOrder_other {v : Sent} (hu : ∀ j body, u ≠ .frame j body) : InOrder v u := by
  cases u with
  | frame j body => exact (hu j body rfl).elim
  | eot => cases v <;> trivial
  | cancel => cases v <;> trivial

theorem pending_append (wire : List Octet) :
    pending { s with wire := s.wire ++ wire } = pending s ++ wire := by
  unfold pending
  cases s.receiver <;> rfl

/-- Only the sender's place changes. -/
theorem Sound.withSender (h : Sound data s) {x : Sender} (hx : SenderAt data s.acked x) :
    Sound data { s with sender := x } :=
  ⟨hx, h.near, h.expect, h.out, h.finished, h.line, h.replies⟩

/-- The sender writes something. -/
theorem Sound.write (h : Sound data s) (hu : OnWire data s.acked s.accepted u)
    (hlast : ∀ v, OnWire data s.acked s.accepted v → InOrder v u) :
    Sound data { s with wire := s.wire ++ mark u.block (encode data u) } where
  sender := h.sender
  near := h.near
  expect := h.expect
  out := h.out
  finished := h.finished
  line := by
    intro hdone
    obtain ⟨us, hus⟩ := h.line hdone
    rw [pending_append]
    exact ⟨_, hus.append hu fun v hv => hlast v (hus.onWire v hv)⟩
  replies := h.replies

theorem Sound.cancel (h : Sound data s) : Sound data { s with wire := s.wire ++ mark none [CAN] } :=
  h.write (u := .cancel) trivial fun v _ => inOrder_other (by simp)

/-! ## The sender -/

theorem Sound.transmit (h : Sound data s) {damage : Option Bytes}
    (hstep : Xmodem.transmit s damage = some s') : Sound data s' := by
  have hsender := h.sender
  unfold Xmodem.transmit at hstep
  split at hstep
  · rename_i todo block retry hat
    rw [hat] at hsender
    obtain ⟨rfl, hne, rfl⟩ := hsender
    dsimp only at hstep
    split at hstep
    · rename_i hbody
      obtain rfl := Option.some.inj hstep
      -- a frame of the block the sender is at
      have hframe : OnWire data s.acked s.accepted
          (.frame s.acked (damage.getD (payload (after data s.acked)))) := by
        refine ⟨hne, hbody.1, ?_, .inl rfl⟩
        cases damage with
        | none => exact .inl rfl
        | some body => exact .inr (hbody.2 rfl)
      exact (h.write hframe fun v => inOrder_frame).withSender ⟨rfl, hne, rfl⟩
    · cases hstep
  · rename_i retry hat
    rw [hat] at hsender
    obtain rfl := Option.some.inj hstep
    exact (h.write (u := .eot) hsender fun v _ => inOrder_other (by simp)).withSender hsender
  · cases hstep

theorem Sound.retryStart (h : Sound data s) {tries : Nat} (hzero : s.acked = 0) :
    Sound data (Xmodem.retryStart s tries) := by
  apply h.withSender
  split
  · exact hzero
  · exact fun hfalse => nomatch hfalse

theorem Sound.resend (h : Sound data s) {todo : Bytes}
    (hat : todo = after data s.acked ∧ todo ≠ [] ∧ block = UInt8.ofNat (s.acked + 1)) :
    Sound data (Xmodem.resend s todo block retry) := by
  unfold Xmodem.resend
  split
  · exact h.withSender hat
  · exact (h.cancel.cancel).withSender (fun hfalse => nomatch hfalse)

theorem Sound.retryEot (h : Sound data s) (hend : after data s.acked = []) :
    Sound data (Xmodem.retryEot s retry) := by
  apply h.withSender
  split
  · exact hend
  · exact fun hfalse => nomatch hfalse

theorem senderAt_nextBlock (k : Nat) (hblock : block = UInt8.ofNat (k + 1)) :
    SenderAt data k (nextBlock (after data k) block) := by
  unfold nextBlock
  split
  · assumption
  · exact ⟨rfl, by assumption, hblock⟩

/-- Behind an acknowledgement that was written for it, the sender goes to the next block, where
    the receiver is. -/
theorem Sound.acknowledged (h : Sound data s) {todo : Bytes}
    (hat : s.sender = .reply todo block retry) (hahead : s.acked < s.accepted) :
    Sound data { s with
      sender := nextBlock (todo.drop (want todo)) (block + 1), acked := s.acked + 1 } := by
  have hsender := h.sender
  rw [hat] at hsender
  obtain ⟨rfl, hne, rfl⟩ := hsender
  have hcount : s.accepted = s.acked + 1 := by
    rcases h.near with heq | ⟨heq, -⟩
    · omega
    · exact heq
  refine ⟨senderAt_nextBlock (s.acked + 1) ?_, .inl hcount, h.expect, h.out, h.finished, ?_,
    h.replies⟩
  · rw [UInt8.ofNat_add (s.acked + 1) 1]
    rfl
  · intro hdone
    obtain ⟨us, heq, hon, hordered⟩ := h.line hdone
    refine ⟨us, heq, fun u hu => ?_, hordered⟩
    have hu := hon u hu
    cases u with
    | frame j body =>
      obtain ⟨hj, hlength, hbody, hindex⟩ := hu
      refine ⟨hj, hlength, hbody, .inr ⟨?_, hcount⟩⟩
      show j + 1 = s.acked + 1
      omega
    | eot => exact (hne hu).elim
    | cancel => trivial

theorem Sound.senderTakes (h : Sound data s) {c : Byte}
    (hfits : ∀ todo block retry, s.sender = .reply todo block retry → c = ACK →
      s.acked < s.accepted)
    (hstep : Xmodem.senderTakes data s c = some s') : Sound data s' := by
  have hsender := h.sender
  unfold Xmodem.senderTakes at hstep
  split at hstep
  · rename_i tries hat
    rw [hat] at hsender
    split at hstep
    · obtain rfl := Option.some.inj hstep
      apply h.withSender
      have hzero : s.acked = 0 := hsender
      rw [hzero]
      exact senderAt_nextBlock 0 rfl
    split at hstep
    · obtain rfl := Option.some.inj hstep
      exact h.withSender (fun hfalse => nomatch hfalse)
    · obtain rfl := Option.some.inj hstep
      exact h.retryStart hsender
  · rename_i todo block retry hat
    rw [hat] at hsender
    split at hstep
    · rename_i hack
      obtain rfl := Option.some.inj hstep
      exact h.acknowledged hat (hfits todo block retry hat hack)
    split at hstep
    · obtain rfl := Option.some.inj hstep
      exact h.withSender (fun hfalse => nomatch hfalse)
    · obtain rfl := Option.some.inj hstep
      exact h.resend hsender
  · rename_i retry hat
    rw [hat] at hsender
    split at hstep
    · obtain rfl := Option.some.inj hstep
      exact h.withSender (fun _ => hsender)
    · obtain rfl := Option.some.inj hstep
      exact h.retryEot hsender
  · cases hstep

theorem Sound.senderTimeout (h : Sound data s) (hstep : Xmodem.senderTimeout s = some s') :
    Sound data s' := by
  have hsender := h.sender
  unfold Xmodem.senderTimeout at hstep
  split at hstep
  · rename_i tries hat
    obtain rfl := Option.some.inj hstep
    rw [hat] at hsender
    exact h.retryStart hsender
  · rename_i todo block retry hat
    obtain rfl := Option.some.inj hstep
    rw [hat] at hsender
    exact h.resend hsender
  · rename_i retry hat
    obtain rfl := Option.some.inj hstep
    rw [hat] at hsender
    exact h.retryEot hsender
  · cases hstep

/-! ## The receiver -/

/-- The receiver is done. -/
theorem Sound.stop (h : Sound data s) : Sound data { s with receiver := .done false } where
  sender := h.sender
  near := h.near
  expect := h.expect
  out := fun hdone => nomatch hdone
  finished := fun hdone => nomatch hdone
  line := fun hdone => nomatch hdone
  replies := h.replies

/-- A reply is written.  An acknowledgement of a frame wants its block accepted. -/
theorem Sound.answer (h : Sound data s) {b : Byte}
    (hb : b = ACK → ∀ j ∈ s.reading, j < s.accepted) : Sound data (s.answer b) where
  sender := h.sender
  near := h.near
  expect := h.expect
  out := h.out
  finished := h.finished
  line := h.line
  replies := by
    intro reply hreply
    rcases List.mem_append.mp hreply with hreply | hreply
    · exact h.replies reply hreply
    · rw [List.mem_singleton.mp hreply]
      exact hb

theorem Sound.refuse (h : Sound data s) {b : Byte} (hb : b ≠ ACK) : Sound data (s.answer b) :=
  h.answer fun hack => (hb hack).elim

/-- The receiver moves on, and the line has come to `wire`. -/
theorem Sound.withReceiver (h : Sound data s) (hrunning : s.receiver.isDone = false)
    {x : Receiver} {wire : List Octet} {block : Option Nat} (hx : x.isDone = false)
    (hline : ∃ us, Line data s.acked s.accepted
      (pending { s with receiver := x, wire := wire, reading := block }) us) :
    Sound data { s with receiver := x, wire := wire, reading := block } where
  sender := h.sender
  near := h.near
  expect := h.expect
  out := fun _ => h.out hrunning
  finished := by
    intro hdone
    have hx' : x = .done true := hdone
    rw [hx'] at hx
    cases hx
  line := fun _ => hline
  replies := h.replies

/-- Everything on the line begins with what the receiver takes for a header. -/
theorem header_of_line {o : Octet} {rest : List Octet} (heq : o :: rest = line data us) :
    o.first = true ∧ (o.byte = SOH ∨ o.byte = STX ∨ o.byte = EOT ∨ o.byte = CAN) := by
  cases us with
  | nil => simp [line] at heq
  | cons u us =>
    obtain ⟨b, tail, hencode, hline⟩ := @line_cons data u us
    rw [hline, List.cons.injEq] at heq
    obtain ⟨rfl, -⟩ := heq
    refine ⟨rfl, ?_⟩
    cases u with
    | frame j body =>
      simp only [encode, frame, List.cons_append, List.cons.injEq] at hencode
      rw [← hencode.1]
      split
      · exact .inr (.inl rfl)
      · exact .inl rfl
    | eot =>
      simp only [encode, List.cons.injEq] at hencode
      exact .inr (.inr (.inl hencode.1.symm))
    | cancel =>
      simp only [encode, List.cons.injEq] at hencode
      exact .inr (.inr (.inr hencode.1.symm))

theorem Sound.receiverTakes (h : Sound data s) {o : Octet} {rest : List Octet}
    (hwire : s.wire = o :: rest)
    (hstep : Xmodem.receiverTakes { s with wire := rest, reading := o.block } o.byte = some s') :
    Sound data s' := by
  -- taking a header leaves what is pending as it is
  have htake : s.receiver.isDone = false → pending s = s.wire →
      (o.byte = SOH ∨ o.byte = STX ∨ o.byte = EOT ∨ o.byte = CAN) ∧
        Sound data { s with receiver := .got o.byte, wire := rest, reading := o.block } := by
    intro hrunning hpending
    obtain ⟨us, hus⟩ := h.line hrunning
    have heq := hus.eq
    rw [hpending, hwire] at heq
    obtain ⟨hfirst, hheader⟩ := header_of_line heq
    refine ⟨hheader, h.withReceiver hrunning rfl ⟨us, ?_, hus.onWire, hus.ordered⟩⟩
    rw [← heq, pending, ← hfirst]
  unfold Xmodem.receiverTakes at hstep
  split at hstep
  · rename_i waited hat
    obtain ⟨hheader, hsound⟩ := htake (by rw [hat]; rfl) (by rw [pending, hat])
    rw [if_pos hheader] at hstep
    exact Option.some.inj hstep ▸ hsound
  · rename_i hat
    obtain ⟨-, hsound⟩ := htake (by rw [hat]; rfl) (by rw [pending, hat])
    exact Option.some.inj hstep ▸ hsound
  · cases hstep

theorem Sound.receiverTimeout (h : Sound data s) (hstep : Xmodem.receiverTimeout s = some s') :
    Sound data s' := by
  unfold Xmodem.receiverTimeout at hstep
  split at hstep
  · rename_i waited hat
    obtain rfl := Option.some.inj hstep
    have hrunning : s.receiver.isDone = false := by rw [hat]; rfl
    apply @Sound.withReceiver _ _ h hrunning _ s.wire s.reading rfl
    obtain ⟨us, hus⟩ := h.line hrunning
    rw [pending, hat] at hus
    exact ⟨us, hus⟩
  · exact Option.some.inj hstep ▸ h.stop
  · split at hstep
    · exact Option.some.inj hstep ▸ h.stop
    · cases hstep
  · cases hstep

/-! ## The body of the loop -/

theorem crc_bytes (crc crc' : UInt16) : crc'.toNat =
        (UInt8.ofNat (crc.toNat / 256)).toNat * 256 + (UInt8.ofNat (crc.toNat % 256)).toNat ↔
      crc' = crc := by
  have hlt := crc.toNat_lt
  rw [UInt8.toNat_ofNat', UInt8.toNat_ofNat', ← UInt16.toNat_inj]
  omega

theorem ofNat_succ_sub (r : Nat) : UInt8.ofNat (r + 1) - 1 = UInt8.ofNat r := by
  rw [UInt8.ofNat_add]
  exact UInt8.add_sub_cancel _ _

theorem line_frame (j : Nat) (body : Bytes) (us : List Sent) : line data (.frame j body :: us) =
      ⟨if want (after data j) = 1024 then STX else SOH, true, some j⟩ ::
        ⟨UInt8.ofNat (j + 1), false, some j⟩ :: ⟨255 - UInt8.ofNat (j + 1), false, some j⟩ ::
        (body.map (⟨·, false, some j⟩) ++
          (⟨UInt8.ofNat ((crc16 (payload (after data j))).toNat / 256), false, some j⟩ ::
            ⟨UInt8.ofNat ((crc16 (payload (after data j))).toNat % 256), false, some j⟩ ::
              line data us)) := by
  show mark (some j) (frame (after data j) (UInt8.ofNat (j + 1)) body) ++ line data us = _
  simp [frame, mark]

/-- A frame on the line is read as it was written. -/
theorem read_frame {j : Nat} {body : Bytes} {b : Byte} {read : Option Nat} {wire : List Octet}
    (hlength : body.length = want (after data j))
    (heq : ⟨b, true, read⟩ :: wire = line data (.frame j body :: us)) :
    read = some j ∧ (b = SOH ∨ b = STX) ∧ wire.drop (if b = STX then 1028 else 132) = line data us ∧
      splitBlock b wire = some (UInt8.ofNat (j + 1), 255 - UInt8.ofNat (j + 1), body,
        UInt8.ofNat ((crc16 (payload (after data j))).toNat / 256),
        UInt8.ofNat ((crc16 (payload (after data j))).toNat % 256), line data us) := by
  rw [line_frame, List.cons.injEq, Octet.mk.injEq] at heq
  obtain ⟨⟨hheader, -, hread⟩, hwire⟩ := heq
  have hsize : (if b = STX then 1024 else 128) = body.length ∧
      (if b = STX then 1028 else 132) = body.length + 4 := by
    rw [hlength, hheader]
    unfold want
    split
    · simp
    · exact ⟨by decide, by decide⟩
  refine ⟨hread, ?_, ?_, ?_⟩
  · rw [hheader]
    split
    · exact .inr rfl
    · exact .inl rfl
  · rw [hsize.2, hwire]
    simp [List.drop_append]
  · have hmap : (body.map (⟨·, false, some j⟩ : Byte → Octet)).length = body.length :=
      List.length_map _
    unfold splitBlock
    rw [hwire]
    dsimp only
    rw [hsize.1, ← hmap, List.drop_left, List.take_left]
    simp [Function.comp_def]

theorem Sound.drain (h : Sound data s) (hrunning : s.receiver.isDone = false)
    (hus : Line data s.acked s.accepted s.wire us)
    (hmark : ∀ o ∈ (s.wire.drop drained).head?, o.first = true)
    (hstep : drainAndNak s drained = some s') : Sound data s' := by
  unfold drainAndNak at hstep
  split at hstep
  · rw [hus.eq] at hmark
    obtain ⟨vs, hsuffix, hvs⟩ := line_drop us drained hmark
    obtain rfl := Option.some.inj hstep
    refine Sound.refuse (h.withReceiver hrunning rfl ⟨vs, ?_⟩) (by decide)
    rw [hus.eq, hvs]
    exact hus.suffix hsuffix
  · cases hstep

/-- The receiver accepts the block it waits for. -/
theorem Sound.accept (h : Sound data s) (hrunning : s.receiver.isDone = false)
    (hus : Line data s.acked s.accepted s.wire us) (hcount : s.accepted = s.acked)
    (hne : after data s.acked ≠ [])
    (hlater : ∀ u ∈ us, InOrder (.frame s.acked []) u) :
    Sound data { s with
      out := s.out ++ payload (after data s.acked), expect := s.expect + 1
      accepted := s.accepted + 1, receiver := .next } where
  sender := h.sender
  near := .inr ⟨congrArg (· + 1) hcount, hne⟩
  expect := by
    rw [h.expect, UInt8.ofNat_add (s.accepted + 1) 1]
    rfl
  out := by
    intro _
    rw [h.out hrunning, gathered, hcount]
  finished := fun hdone => nomatch hdone
  line := by
    intro _
    refine ⟨us, hus.eq, fun u hu => ?_, hus.ordered⟩
    have hon := hus.onWire u hu
    have hle := hlater u hu
    cases u with
    | frame i body =>
      obtain ⟨hi, hlength, hbody, hindex⟩ := hon
      have hge : s.acked ≤ i := hle
      exact ⟨hi, hlength, hbody, .inl (by rcases hindex with hindex | ⟨hindex, -⟩ <;> omega)⟩
    | eot => exact hon
    | cancel => trivial
  replies := fun reply hreply hack j hj =>
    Nat.lt_succ_of_lt (h.replies reply hreply hack j hj)

/-- A block whose number is that of the block accepted last has been accepted: the one after it,
    which is all that could be mistaken for it, has another number. -/
theorem accepted_of_number {a k j : Nat}
    (hnear : a = k ∨ (a = k + 1 ∧ after data k ≠ [])) (hindex : j = k ∨ (j + 1 = k ∧ a = k))
    (hnumber : UInt8.ofNat (j + 1) = UInt8.ofNat a) : j < a := by
  rcases hindex with rfl | ⟨hj, hk⟩
  · rcases hnear with rfl | ⟨hahead, -⟩
    · rw [← UInt8.toNat_inj, UInt8.toNat_ofNat', UInt8.toNat_ofNat'] at hnumber
      omega
    · omega
  · omega

/-- A frame: the block of the sender is new to the receiver or was accepted already, and the one
    before is acknowledged again. -/
theorem Sound.takeBlock (h : Sound data s) (hrunning : s.receiver.isDone = false)
    {j : Nat} {body : Bytes} (hread : s.reading = some j)
    (hus : Line data s.acked s.accepted s.wire us)
    (hframe : OnWire data s.acked s.accepted (.frame j body))
    (hlater : ∀ u ∈ us, InOrder (.frame j body) u)
    (hmark : ∀ o ∈ (s.wire.drop drained).head?, o.first = true)
    (hstep : Xmodem.takeBlock l s (UInt8.ofNat (j + 1)) (255 - UInt8.ofNat (j + 1))
      (UInt8.ofNat ((crc16 (payload (after data j))).toNat / 256))
      (UInt8.ofNat ((crc16 (payload (after data j))).toNat % 256)) body drained = some s') :
    Sound data s' := by
  obtain ⟨hne, hlength, hbody, hindex⟩ := hframe
  have hagain : Sound data { s with receiver := .next } :=
    @Sound.withReceiver _ _ h hrunning _ s.wire s.reading rfl ⟨us, hus⟩
  unfold Xmodem.takeBlock at hstep
  have hprevious : s.expect - 1 = UInt8.ofNat s.accepted := by rw [h.expect, ofNat_succ_sub]
  simp only [true_and, crc_bytes, hprevious] at hstep
  split at hstep
  · rename_i hold
    refine Option.some.inj hstep ▸ hagain.answer fun _ i hi => ?_
    obtain rfl := Option.some.inj (hread.symm.trans hi)
    exact accepted_of_number h.near hindex hold
  · rename_i hnew
    -- only the block both sides are at is left
    have hcase : j = s.acked ∧ s.accepted = s.acked := by
      rcases hindex with rfl | ⟨hj, hr⟩
      · refine ⟨rfl, ?_⟩
        rcases h.near with hr | ⟨hr, -⟩
        · exact hr
        · exact (hnew (by rw [hr])).elim
      · exact (hnew (by rw [hj, hr])).elim
    obtain ⟨rfl, hcount⟩ := hcase
    split at hstep
    · rename_i hok
      have hintact : body = payload (after data s.acked) := by
        rcases hbody with hbody | hbody
        · exact hbody
        · exact (hbody hok.1).elim
      subst hintact
      split at hstep
      · exact Option.some.inj hstep ▸ (h.stop.refuse (by decide)).refuse (by decide)
      · have haccept := h.accept hrunning hus hcount hne fun u hu => by
          have hle := hlater u hu
          cases u <;> exact hle
        refine Option.some.inj hstep ▸ haccept.answer fun _ i hi => ?_
        obtain rfl := Option.some.inj (hread.symm.trans hi)
        exact hcount ▸ Nat.lt_succ_self _
    · exact h.drain hrunning hus hmark hstep

theorem Sound.loop (h : Sound data s) {b : Byte} (hat : s.receiver = .got b)
    (hfits : fits s (.loop drained) = true) (hstep : Xmodem.loop l s b drained = some s') :
    Sound data s' := by
  have hrunning : s.receiver.isDone = false := by rw [hat]; rfl
  obtain ⟨us, hus⟩ := h.line hrunning
  simp only [fits, hat, Option.all_eq_true] at hfits
  rw [pending, hat] at hus
  have heq := hus.eq
  obtain ⟨u, us, rfl⟩ : ∃ u vs, us = u :: vs := by
    cases us with
    | nil => simp [Xmodem.line] at heq
    | cons u vs => exact ⟨u, vs, rfl⟩
  have hon := hus.onWire u List.mem_cons_self
  have hordered := List.pairwise_cons.mp hus.ordered
  have hrest : ∀ v ∈ us, OnWire data s.acked s.accepted v :=
    fun v hv => hus.onWire v (List.mem_cons_of_mem u hv)
  cases u with
  | frame j body =>
    obtain ⟨hread, hheader, hdrop, hsplit⟩ := read_frame hon.2.1 heq
    have hnot : b ≠ EOT ∧ b ≠ CAN ∧ ¬(b ≠ SOH ∧ b ≠ STX) := by
      rcases hheader with rfl | rfl <;> decide
    rw [if_pos hheader, hdrop] at hfits
    rw [Xmodem.loop, if_neg hnot.1, if_neg hnot.2.1, if_neg hnot.2.2, hsplit] at hstep
    have hline : Line data s.acked s.accepted (Xmodem.line data us) us := ⟨rfl, hrest, hordered.2⟩
    have hafter : Sound data { s with wire := Xmodem.line data us, receiver := .next } :=
      h.withReceiver hrunning rfl ⟨us, hline⟩
    exact hafter.takeBlock rfl hread hline hon hordered.1 hfits hstep
  | eot =>
    simp only [Xmodem.line, List.flatMap_cons, encode, mark, List.map_nil, List.cons_append,
      List.nil_append, List.cons.injEq, Octet.mk.injEq, true_and, Sent.block] at heq
    obtain ⟨⟨rfl, hread⟩, -⟩ := heq
    obtain rfl := Option.some.inj hstep
    -- every block has been acknowledged, so the receiver is not ahead
    have hend : after data s.acked = [] := hon
    have hcount : s.accepted = s.acked := by
      rcases h.near with hr | ⟨-, hne⟩
      · exact hr
      · exact (hne hend).elim
    have hstrip := strip_gathered data s.acked
    rw [hend, List.append_nil, ← hcount, ← h.out hrunning] at hstrip
    have hfinished : Sound data { s with receiver := .done true, out := strip s.out } :=
      ⟨h.sender, h.near, h.expect, by simp [Receiver.isDone], fun _ => ⟨hstrip, hcount ▸ hend⟩,
        by simp [Receiver.isDone], h.replies⟩
    exact hfinished.answer fun _ j hj => by simp [hread] at hj
  | cancel =>
    simp only [Xmodem.line, List.flatMap_cons, encode, mark, List.map_nil, List.cons_append,
      List.nil_append, List.cons.injEq, Octet.mk.injEq] at heq
    obtain ⟨⟨rfl, -⟩, -⟩ := heq
    exact Option.some.inj hstep ▸ h.stop

/-! ## Runs -/

theorem sound_initial : Sound data initial where
  sender := rfl
  near := .inl rfl
  expect := rfl
  out := fun _ => rfl
  finished := fun hdone => nomatch hdone
  line := fun _ => ⟨[], rfl, by simp, List.Pairwise.nil⟩
  replies := by simp [initial]

theorem Sound.step {a : Action} (h : Sound data s) (hfits : fits s a = true)
    (hstep : Xmodem.step l data s a = some s') : Sound data s' := by
  cases a with
  | transmit damage => exact h.transmit hstep
  | senderRead =>
    simp only [Xmodem.step] at hstep
    split at hstep
    · cases hstep
    · rename_i c answered rest hreplies
      have hanswered := h.replies (c, answered) (by rw [hreplies]; simp)
      have hrest : Sound data { s with replies := rest } :=
        ⟨h.sender, h.near, h.expect, h.out, h.finished, h.line,
          fun reply hreply => h.replies reply (by rw [hreplies]; simp [hreply])⟩
      refine hrest.senderTakes (fun todo block retry hat hack => ?_) hstep
      have hat' : s.sender = .reply todo block retry := hat
      simp only [fits, hat', hreplies, decide_eq_true_eq] at hfits
      exact hanswered hack _ (hfits hack)
  | senderTimeout => exact h.senderTimeout hstep
  | ask =>
    simp only [Xmodem.step] at hstep
    split at hstep
    · rename_i waited hat
      have hrunning : s.receiver.isDone = false := by rw [hat]; rfl
      split at hstep
      · obtain rfl := Option.some.inj hstep
        refine Sound.refuse ?_ (by decide)
        apply @Sound.withReceiver _ _ h hrunning _ s.wire s.reading rfl
        obtain ⟨us, hus⟩ := h.line hrunning
        rw [pending, hat] at hus
        exact ⟨us, hus⟩
      · exact Option.some.inj hstep ▸ h.stop
    · cases hstep
  | receiverRead =>
    simp only [Xmodem.step] at hstep
    split at hstep
    · cases hstep
    · rename_i o rest hwire
      exact h.receiverTakes hwire hstep
  | receiverTimeout => exact h.receiverTimeout hstep
  | loop drained =>
    simp only [Xmodem.step] at hstep
    split at hstep
    · rename_i b hat
      exact h.loop hat hfits hstep
    · cases hstep

theorem sound_fitRun (acts : List Action) (h : Sound data s)
    (hrun : fitRun l data s acts = some s') : Sound data s' := by
  induction acts generalizing s with
  | nil => exact Option.some.inj hrun ▸ h
  | cons a acts ih =>
    rw [fitRun] at hrun
    split at hrun
    · rename_i hfits
      obtain ⟨s₁, hstep, hrest⟩ := Option.bind_eq_some_iff.mp hrun
      exact ih (h.step hfits hstep) hrest
    · cases hrun

/-- What `Receive` leaves if it returns true is the data but for the pad, and the receiver has
    accepted every block if `Send` returns true. -/
def Intact (data : Bytes) (s : State) : Prop :=
  (s.receiver = .done true → s.out = strip data) ∧
    (s.sender = .done true → after data s.accepted = [])

/-- In a run in which every acknowledgement is taken for its own block and no drain stops within a
    frame, what arrives is what was sent. -/
theorem transfer_intact (l : Limits) (data : Bytes) (acts : List Action) (s : State)
    (hrun : fitRun l data initial acts = some s) : Intact data s := by
  have hsound := sound_fitRun acts sound_initial hrun
  refine ⟨fun hdone => (hsound.finished hdone).1, fun hdone => ?_⟩
  have hsender := hsound.sender
  rw [hdone] at hsender
  have hend : after data s.acked = [] := hsender rfl
  rcases hsound.near with heq | ⟨-, hne⟩
  · rwa [heq]
  · exact (hne hend).elim

/-- A block that is damaged once. -/
def damagedOnce : List Action :=
  [.ask, .senderRead, .transmit (some (List.replicate 128 0)), .receiverRead, .loop 0, .senderRead,
    .transmit none, .receiverRead, .loop 0, .senderRead, .transmit none, .receiverRead, .loop 0,
    .senderRead]

theorem transfer_intact_damagedOnce : ∃ s, fitRun ⟨4096, 60000⟩ [65] initial damagedOnce = some s ∧
      s.receiver = .done true ∧ s.sender = .done true ∧ Intact [65] s := by
  have hends : (fitRun ⟨4096, 60000⟩ [65] initial damagedOnce).map
      (fun s => (s.receiver, s.sender)) = some (.done true, .done true) := by decide +kernel
  obtain ⟨s, hrun, hs⟩ := Option.map_eq_some_iff.mp hends
  obtain ⟨hreceiver, hsender⟩ := Prod.mk.inj hs
  exact ⟨s, hrun, hreceiver, hsender, transfer_intact _ _ _ _ hrun⟩

/-- The receiver asks twice, so the sender takes the second request for a refusal of the first
    block, and from then on the acknowledgements are one block late: the second block is damaged,
    and the acknowledgement of the first, sent again, stands for it. -/
def askedTwice : List Action :=
  [.ask, .receiverTimeout, .ask, .senderRead, .transmit none, .senderRead, .transmit none,
    .receiverRead, .loop 0, .receiverRead, .loop 0, .senderRead,
    .transmit (some (List.replicate 128 0)), .senderRead, .transmit none, .receiverRead, .loop 0,
    .receiverRead, .loop 0]

/-- The last block is lost, and `Receive` returns true. -/
theorem not_intact_askedTwice : ¬∀ (l : Limits) (data : Bytes) (acts : List Action) (s : State),
      run l data initial acts = some s → Intact data s := by
  intro h
  have hends : (run ⟨4096, 60000⟩ (List.replicate 129 65) initial askedTwice).map
      (fun s => (s.receiver, s.out.length)) = some (.done true, 128) := by decide +kernel
  obtain ⟨s, hrun, hs⟩ := Option.map_eq_some_iff.mp hends
  obtain ⟨hreceiver, hlength⟩ := Prod.mk.inj hs
  have hout := (h _ _ _ _ hrun).1 hreceiver
  have hstrip : (strip (List.replicate 129 65)).length = 129 := by decide +kernel
  rw [hout, hstrip] at hlength
  exact absurd hlength (by decide)

end QuackMail.Xmodem
