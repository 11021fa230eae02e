import QuackMail.Ssh.KeyExchange

/-! # Strict key exchange

`Strand` is the discipline of what a server reads: the packets of an exchange in their order, and
the sequence numbers that begin again behind each NEWKEYS.  The transport keeps to it as long as
what it throws away as a wrong guess is a message of a key exchange.
-/

namespace QuackMail.Ssh

/-! ## The discipline -/

inductive Awaited
  | kexInit
  | ecdhInit (guess : Bool)
  | newKeys
  | anything

/-- What is awaited, with the keys and the sequence number it has to have. -/
structure Strand where
  awaited : Awaited
  keys : Nat
  seq : Nat

/-- Behind this KEXINIT a wrong guess follows. -/
def guessedWrong (theirs : Bytes) : Bool :=
  match parseKexInit theirs with
  | none => false
  | some k => (negotiate k).any (wrongGuess k)

/-- The messages of the key exchange methods. -/
def isExchange (payload : Bytes) : Bool := 30 ≤ msgType payload && msgType payload ≤ 49

def Strand.accept (s : Strand) (p : Packet) : Option Strand :=
  if p.keys ≠ s.keys ∨ p.seq ≠ s.seq then none
  else
    match s.awaited with
    | .kexInit =>
      if msgType p.payload = KEXINIT then
        some ⟨.ecdhInit (guessedWrong p.payload), s.keys, seqNext s.seq⟩
      else none
    | .ecdhInit true =>
      if isExchange p.payload then some ⟨.ecdhInit false, s.keys, seqNext s.seq⟩ else none
    | .ecdhInit false =>
      if msgType p.payload = KEX_ECDH_INIT then some ⟨.newKeys, s.keys, seqNext s.seq⟩ else none
    | .newKeys => if msgType p.payload = NEWKEYS then some ⟨.anything, s.keys + 1, 0⟩ else none
    | .anything =>
      some ⟨if msgType p.payload = KEXINIT then .ecdhInit (guessedWrong p.payload) else .anything,
        s.keys, seqNext s.seq⟩

def acceptAll (ps : List Packet) : Option Strand := ps.foldlM Strand.accept ⟨.kexInit, 0, 0⟩

/-- The keys and the sequence number of what is sent next. -/
def sendNext (s : Nat × Nat) (p : Packet × Bool) : Option (Nat × Nat) :=
  if p.1.keys ≠ s.1 ∨ p.1.seq ≠ s.2 then none
  else some (if p.2 = true ∧ p.1.payload = [NEWKEYS] then (s.1 + 1, 0) else (s.1, seqNext s.2))

def reads (evs : List Event) : List Packet :=
  evs.filterMap fun ev => match ev with | .read p => some p | _ => none

def sends (evs : List Event) : List (Packet × Bool) :=
  evs.filterMap fun ev => match ev with | .sent p b => some (p, b) | _ => none

/-- All that was read is as the discipline has it, or the last packet is not, and the connection is
    over.  What was sent has the numbers it should. -/
structure Disciplined {σ : Type} (t : Transport σ) (evs : List Event) : Prop where
  incoming : (acceptAll (reads evs)).isSome = true ∨
    t.dead = true ∧ ∃ front last, reads evs = front ++ [last] ∧ (acceptAll front).isSome = true
  outgoing : ((sends evs).foldlM sendNext (0, 0)).isSome = true

/-! ## What a run has to give -/

/-- Every state before a step of the run is so. -/
def Along {σ : Type} (e : Env σ) (P : Transport σ → Prop) : Transport σ → List Action → Prop
  | _, [] => True
  | t, a :: acts => P t ∧ Along e P (step e t a).1 acts

def marked (theirs : Bytes) : Bool :=
  match parseKexInit theirs with
  | none => false
  | some k => strictMarker ∈ k.kex

/-- The first KEXINIT of the client has the marker. -/
def StrictClient {σ : Type} (e : Env σ) (t : Transport σ) : Prop :=
  ∀ mine r payload, t.phase = .kexInit mine →
    readPacket e.cipher t.receiver = (r, .packet payload) →
      msgType payload = KEXINIT → marked payload = true

/-- What is thrown away as a wrong guess is a message of a key exchange. -/
def GuessIsExchange {σ : Type} (e : Env σ) (t : Transport σ) : Prop :=
  ∀ mine theirs a r payload, t.phase = .ecdhInit mine theirs a true →
    readPacket e.cipher t.receiver = (r, .packet payload) → isExchange payload = true

/-- The transport reads its first NEWKEYS. -/
def Opens {σ : Type} (e : Env σ) (t : Transport σ) (w : World) : Prop :=
  t.firstKexDone = false ∧ (step e t (.read w)).1.firstKexDone = true ∧
    (step e t (.read w)).1.dead = false

/-- The same client, and the same keys and session; and the same is left to be read. -/
structure SameAgreement {σ : Type} (t t' : Transport σ) : Prop where
  clientVersion : t.clientVersion = t'.clientVersion
  sessionId : t.sessionId = t'.sessionId
  clientExtInfo : t.clientExtInfo = t'.clientExtInfo
  inbox : t.receiver.inbox = t'.receiver.inbox
  inCipher : t.receiver.cipher = t'.receiver.cipher
  outCipher : t.sender.cipher = t'.sender.cipher

section

variable {σ : Type} {e : Env σ} {w : World} {t : Transport σ}

/-! ## What is sent -/

theorem reads_append (a b : List Event) : reads (a ++ b) = reads a ++ reads b := by
  simp [reads]

theorem sends_append (a b : List Event) : sends (a ++ b) = sends a ++ sends b := by
  simp [sends]

/-- Nothing is read, and what is sent has the numbers it should. -/
structure Quiet (t : Transport σ) (r : Transport σ × List Event) : Prop where
  reads : reads r.2 = []
  sends : ∃ s, (sends r.2).foldlM sendNext (t.outKeys, t.sender.seq) = some s ∧
    (r.1.dead = false → s = (r.1.outKeys, r.1.sender.seq))

theorem Quiet.nothing {t' : Transport σ} (hkeys : t'.outKeys = t.outKeys)
    (hsender : t'.sender.seq = t.sender.seq) : Quiet t (t', []) :=
  ⟨rfl, _, rfl, fun _ => by rw [hkeys, hsender]⟩

variable {r : Transport σ × List Event} {payload : Bytes} {cipher : σ} {evs : List Event}

theorem Quiet.of_eq {t' : Transport σ} (h : Quiet t' r)
    (hkeys : t'.outKeys = t.outKeys) (hsender : t'.sender = t.sender) : Quiet t r := by
  obtain ⟨hreads, s, hsends, halive⟩ := h
  rw [hkeys, hsender] at hsends
  exact ⟨hreads, s, hsends, halive⟩

theorem Quiet.andThen {f : Transport σ → Transport σ × List Event}
    (h : Quiet t r) (hf : r.1.dead = false → Quiet r.1 (f r.1)) : Quiet t (Ssh.andThen r f) := by
  unfold Ssh.andThen
  split
  · exact h
  · rename_i halive
    rw [Bool.not_eq_true] at halive
    obtain ⟨s, hs, heq⟩ := h.sends
    obtain ⟨hreads, s', hs', heq'⟩ := hf halive
    refine ⟨by simp [reads_append, h.reads, hreads], s', ?_, heq'⟩
    rw [sends_append, List.foldlM_append, hs, heq halive]
    exact hs'

theorem quiet_write {b : Bool} (h : b = true → payload ≠ [NEWKEYS]) :
    Quiet t (write e w t payload b) := by
  unfold write
  split
  · exact Quiet.nothing rfl rfl
  · refine ⟨rfl, (t.outKeys, seqNext t.sender.seq), ?_, fun _ => rfl⟩
    have hnot : ¬(b = true ∧ payload = [NEWKEYS]) := fun hb => h hb.1 hb.2
    simp [sends, sendNext, hnot]

theorem quiet_refuse (reason : Nat) (text : Bytes) : Quiet t (refuse e w t reason text) := by
  have hwrite : Quiet t (write e w t
      (DISCONNECT :: u32Bytes reason ++ writeString text ++ writeString []) false) :=
    quiet_write (fun h => nomatch h)
  obtain ⟨s, hs, -⟩ := hwrite.sends
  exact ⟨hwrite.reads, s, hs, fun h => nomatch h⟩

/-- A packet that went out changed nothing but the sender. -/
theorem alive_write {b : Bool} (h : (write e w t payload b).1.dead = false) :
    ∃ c, (write e w t payload b).1 = { t with sender := ⟨c, seqNext t.sender.seq⟩ } := by
  cases ht : t.dead with
  | true => simp [write, ht] at h
  | false =>
    simp only [write, ht] at h ⊢
    refine ⟨(writePacket e.cipher t.sender (w.random t.sender.seq) payload).1.cipher, ?_⟩
    simp only [Bool.false_eq_true, if_false] at h ⊢
    rw [h, ← ht]
    rfl

theorem alive_andThen {f : Transport σ → Transport σ × List Event}
    (h : (andThen r f).1.dead = false) :
    r.1.dead = false ∧ (andThen r f).1 = (f r.1).1 := by
  unfold andThen at h ⊢
  split
  · rename_i hdead
    rw [if_pos hdead, hdead] at h
    cases h
  · rename_i hdead
    exact ⟨by simpa using hdead, rfl⟩

/-! ## The packets of an exchange -/

@[simp] theorem noteClient_same (k : KexInit) (t : Transport σ) :
    (noteClient k t).outKeys = t.outKeys ∧ (noteClient k t).sender = t.sender ∧
      (noteClient k t).inKeys = t.inKeys ∧ (noteClient k t).receiver = t.receiver ∧
      (noteClient k t).firstKexDone = t.firstKexDone ∧
      (noteClient k t).exchanges = t.exchanges := by
  unfold noteClient
  split <;> simp

@[simp] theorem noteSession_same (h : Bytes) (t : Transport σ) :
    (noteSession h t).outKeys = t.outKeys ∧ (noteSession h t).sender = t.sender ∧
      (noteSession h t).inKeys = t.inKeys ∧ (noteSession h t).receiver = t.receiver ∧
      (noteSession h t).firstKexDone = t.firstKexDone ∧
      (noteSession h t).exchanges = t.exchanges ∧ (noteSession h t).strictKex = t.strictKex := by
  unfold noteSession
  split <;> simp

theorem quiet_onKexInit (mine theirs : Bytes) : Quiet t (onKexInit e w mine theirs t) := by
  unfold onKexInit
  split
  · exact Quiet.nothing rfl rfl
  · rename_i k _
    obtain ⟨hkeys, hsender, -⟩ := noteClient_same k t
    dsimp only
    split
    · exact (quiet_refuse _ _).of_eq hkeys hsender
    split
    · exact (quiet_refuse _ _).of_eq hkeys hsender
    · exact Quiet.nothing hkeys (congrArg Sender.seq hsender)

/-- What a KEXINIT leads to. -/
structure AfterKexInit (t t' : Transport σ) (theirs : Bytes) : Prop where
  phase : ∃ mine a, t'.phase = .ecdhInit mine theirs a (guessedWrong theirs)
  exchanges : t'.exchanges = t.exchanges + 1
  same : t'.inKeys = t.inKeys ∧ t'.outKeys = t.outKeys ∧ t'.receiver = t.receiver ∧
    t'.firstKexDone = t.firstKexDone
  strict : t.strictKex = true ∨ t.firstKexDone = false ∧ marked theirs = true → t'.strictKex = true

theorem alive_onKexInit {mine theirs : Bytes} (h : (onKexInit e w mine theirs t).1.dead = false) :
    AfterKexInit t (onKexInit e w mine theirs t).1 theirs := by
  unfold onKexInit at h ⊢
  cases hparse : parseKexInit theirs with
  | none =>
    rw [hparse] at h
    cases h
  | some k =>
    rw [hparse] at h
    dsimp only at h ⊢
    by_cases hfirst : (noteClient k t).firstKexDone = false ∧ (noteClient k t).strictKex = true ∧
        (noteClient k t).receiver.seq ≠ 1
    · rw [if_pos hfirst] at h
      cases h
    rw [if_neg hfirst] at h ⊢
    cases hneg : negotiate k with
    | none =>
      rw [hneg] at h
      cases h
    | some a =>
      have hguess : guessedWrong theirs = wrongGuess k a := by simp [guessedWrong, hparse, hneg]
      obtain ⟨hout, -, hin, hreceiver, hdone, hcount⟩ := noteClient_same k t
      refine ⟨⟨mine, a, by rw [hguess]⟩, congrArg (· + 1) hcount, ⟨hin, hout, hreceiver, hdone⟩, ?_⟩
      show _ → (noteClient k t).strictKex = true
      unfold noteClient
      rintro (hs | ⟨hnew, hm⟩)
      · split <;> simp [hs]
      · have hmem : strictMarker ∈ k.kex := by simpa [marked, hparse] using hm
        simp [hnew, hmem]

theorem quiet_sendNewKeys {theirs : σ} (hstrict : t.strictKex = true)
    (hkeys : t.exchanges = t.outKeys + 1) : Quiet t (sendNewKeys e w cipher theirs t) := by
  have hsent : (sends [.sent ⟨t.outKeys, t.sender.seq, [NEWKEYS]⟩ true]).foldlM sendNext
      (t.outKeys, t.sender.seq) = some (t.outKeys + 1, 0) := by simp [sends, sendNext]
  unfold sendNewKeys andThen
  cases ht : t.dead with
  | true =>
    simp only [write, ht, if_true]
    exact Quiet.nothing rfl rfl
  | false =>
    cases hok : w.sendOk (writePacket e.cipher t.sender (w.random t.sender.seq) [NEWKEYS]).2 with
    | false =>
      simp only [write, ht, hok, Bool.false_eq_true, if_false, Bool.not_false, if_true]
      exact ⟨rfl, _, hsent, fun h => nomatch h⟩
    | true =>
      simp only [write, ht, hok, Bool.false_eq_true, if_false, Bool.not_true]
      exact ⟨rfl, _, hsent, fun _ => by simp only [hkeys, hstrict, if_true]⟩

theorem quiet_onEcdhInit {mine theirs init : Bytes} {a : Algorithms} (hstrict : t.strictKex = true)
    (hkeys : t.exchanges = t.outKeys + 1) : Quiet t (onEcdhInit e w mine theirs a init t) := by
  unfold onEcdhInit
  split
  · exact quiet_refuse _ _
  split
  · exact quiet_refuse _ _
  split
  · exact quiet_refuse _ _
  dsimp only
  generalize e.sha256 _ = h
  obtain ⟨hout, hsender, -, -, -, hcount, hmode⟩ := noteSession_same h t
  split
  · exact Quiet.nothing hout (congrArg Sender.seq hsender)
  · refine Quiet.of_eq ((quiet_write fun _ heq => ?_).andThen fun halive => ?_) hout hsender
    · exact absurd (List.cons.inj heq).1 (by decide)
    · obtain ⟨c, heq⟩ := alive_write halive
      rw [heq]
      exact quiet_sendNewKeys (hmode.trans hstrict) ((hcount.trans hkeys).trans (hout ▸ rfl))

/-- What a KEX_ECDH_INIT leads to. -/
structure AfterEcdhInit (t t' : Transport σ) : Prop where
  phase : ∃ c, t'.phase = .newKeys c
  seq : t.strictKex = true → t'.sender.seq = 0
  outKeys : t'.outKeys = t.exchanges
  same : t'.inKeys = t.inKeys ∧ t'.receiver = t.receiver ∧ t'.firstKexDone = t.firstKexDone ∧
    t'.exchanges = t.exchanges ∧ t'.strictKex = t.strictKex

theorem alive_sendNewKeys {theirs : σ} (h : (sendNewKeys e w cipher theirs t).1.dead = false) :
    AfterEcdhInit t (sendNewKeys e w cipher theirs t).1 := by
  unfold sendNewKeys at h ⊢
  obtain ⟨hwrite, heq⟩ := alive_andThen h
  obtain ⟨c, hc⟩ := alive_write hwrite
  rw [heq, hc]
  exact ⟨⟨theirs, rfl⟩, fun hs => if_pos hs, rfl, rfl, rfl, rfl, rfl, rfl⟩

theorem alive_onEcdhInit {mine theirs init : Bytes} {a : Algorithms}
    (h : (onEcdhInit e w mine theirs a init t).1.dead = false) :
    msgType init = KEX_ECDH_INIT ∧ AfterEcdhInit t (onEcdhInit e w mine theirs a init t).1 := by
  unfold onEcdhInit at h ⊢
  cases hstring : readString (init.drop 1) with
  | none =>
    rw [hstring] at h
    cases h
  | some r =>
    rw [hstring] at h
    dsimp only at h ⊢
    by_cases hinit : msgType init ≠ KEX_ECDH_INIT ∨ r.1.length ≠ 32
    · rw [if_pos hinit] at h
      cases h
    rw [if_neg hinit] at h ⊢
    rw [not_or, not_not] at hinit
    refine ⟨hinit.1, ?_⟩
    cases hshared : (e.x25519 w.secret r.1).filter (· ≠ List.replicate 32 0) with
    | none =>
      rw [hshared] at h
      cases h
    | some shared =>
      rw [hshared] at h
      dsimp only at h ⊢
      generalize e.sha256 _ = hash at h ⊢
      cases hsig : e.signWithHostKey hash with
      | none =>
        rw [hsig] at h
        cases h
      | some sig =>
        rw [hsig] at h
        obtain ⟨hwrite, heq⟩ := alive_andThen h
        rw [heq] at h ⊢
        obtain ⟨c, hc⟩ := alive_write hwrite
        rw [hc] at h ⊢
        obtain ⟨hphase, hseq, hout, hin, hreceiver, hdone, hcount, hmode⟩ := alive_sendNewKeys h
        obtain ⟨-, -, hin', hreceiver', hdone', hcount', hmode'⟩ := noteSession_same hash t
        exact ⟨hphase, fun hs => hseq (hmode'.trans hs), hout.trans hcount', hin.trans hin',
          hreceiver.trans hreceiver', hdone.trans hdone', hcount.trans hcount', hmode.trans hmode'⟩

theorem quiet_onNewKeys : Quiet t (onNewKeys e w cipher payload t) := by
  unfold onNewKeys
  split
  · exact quiet_refuse _ _
  dsimp only
  split
  · refine Quiet.of_eq (quiet_write ?_) rfl rfl
    intro hfalse
    cases hfalse
  · exact Quiet.nothing rfl rfl

/-- The transport behind their NEWKEYS. -/
def opened (t : Transport σ) (cipher : σ) : Transport σ :=
  { t with
    strictKex := true, firstKexDone := true
    receiver := ⟨t.receiver.inbox, cipher, 0⟩
    inKeys := t.exchanges, phase := .reading }

theorem alive_onNewKeys (hstrict : t.strictKex = true)
    (h : (onNewKeys e w cipher payload t).1.dead = false) :
    msgType payload = NEWKEYS ∧
      ∃ c, (onNewKeys e w cipher payload t).1 =
        { opened t cipher with
          sender :=
            if t.firstKexDone = false ∧ t.clientExtInfo = true then ⟨c, seqNext t.sender.seq⟩
            else t.sender } := by
  unfold onNewKeys at h ⊢
  by_cases htype : msgType payload ≠ NEWKEYS
  · rw [if_pos htype] at h
    cases h
  rw [if_neg htype] at h ⊢
  refine ⟨not_not.mp htype, ?_⟩
  simp only [hstrict, if_true] at h ⊢
  split
  · rename_i hext
    rw [if_pos hext] at h
    obtain ⟨c, hc⟩ := alive_write h
    exact ⟨c, hc⟩
  · exact ⟨cipher, rfl⟩

theorem quiet_onReading : Quiet t (onReading e w payload t) := by
  unfold onReading
  split
  · exact Quiet.nothing rfl rfl
  split
  · exact Quiet.nothing rfl rfl
  split
  · refine (quiet_write fun _ heq => ?_).andThen fun _ => quiet_onKexInit _ _
    exact absurd (List.cons.inj heq).1 (by decide)
  · exact ⟨rfl, _, rfl, fun _ => rfl⟩

/-- A packet that is read outside an exchange is a KEXINIT or changes nothing. -/
theorem alive_onReading (h : (onReading e w payload t).1.dead = false) : msgType payload = KEXINIT ∧
        (∃ c, AfterKexInit { t with sender := c } (onReading e w payload t).1 payload) ∨
      msgType payload ≠ KEXINIT ∧ (onReading e w payload t).1 = t := by
  unfold onReading at h ⊢
  split at h
  · rename_i hmem
    rw [if_pos hmem]
    refine .inr ⟨?_, rfl⟩
    rintro heq
    rw [heq] at hmem
    exact absurd hmem (by decide)
  rename_i hmem
  rw [if_neg hmem]
  split at h
  · cases h
  rename_i hdisc
  rw [if_neg hdisc]
  split at h
  · rename_i htype
    rw [if_pos htype]
    obtain ⟨hwrite, heq⟩ := alive_andThen h
    rw [heq] at h ⊢
    obtain ⟨c, hc⟩ := alive_write hwrite
    rw [hc] at h ⊢
    exact .inl ⟨htype, _, alive_onKexInit h⟩
  · rename_i htype
    rw [if_neg htype]
    exact .inr ⟨htype, rfl⟩

/-! ## Runs -/

def Phase.awaited : Phase σ → Awaited
  | .banner => .kexInit
  | .kexInit _ => .kexInit
  | .ecdhInit _ _ _ discardGuess => .ecdhInit discardGuess
  | .newKeys _ => .newKeys
  | .reading => .anything

/-- What is known of a live transport by itself. -/
structure Settled (t : Transport σ) : Prop where
  strict : t.phase.awaited ≠ .kexInit → t.strictKex = true
  first : t.firstKexDone = false → t.inKeys = 0 ∧ t.phase.awaited ≠ .anything
  begun : t.exchanges =
    t.inKeys + match t.phase.awaited with | .ecdhInit _ => 1 | .newKeys => 1 | _ => 0
  outKeys : t.outKeys = t.inKeys + match t.phase.awaited with | .newKeys => 1 | _ => 0
  seq : t.phase.awaited = .newKeys → t.sender.seq = 0
  done : t.phase.awaited = .anything → t.firstKexDone = true
  notYet : t.phase.awaited = .kexInit → t.firstKexDone = false

/-- What is known of a transport and of what it did. -/
structure Inv (t : Transport σ) (evs : List Event) : Prop where
  sent : ∃ s, (sends evs).foldlM sendNext (0, 0) = some s ∧
    (t.dead = false → s = (t.outKeys, t.sender.seq))
  read : t.dead = false → acceptAll (reads evs) = some ⟨t.phase.awaited, t.inKeys, t.receiver.seq⟩
  ended : t.dead = true → (acceptAll (reads evs)).isSome = true ∨
    ∃ front last, reads evs = front ++ [last] ∧ (acceptAll front).isSome = true
  settled : t.dead = false → Settled t

theorem Inv.disciplined (h : Inv t evs) : Disciplined t evs where
  incoming := by
    cases ht : t.dead with
    | false => exact .inl (by rw [h.read ht]; rfl)
    | true => exact (h.ended ht).imp_right fun hended => ⟨rfl, hended⟩
  outgoing := by
    obtain ⟨s, hs, -⟩ := h.sent
    rw [hs]
    rfl

theorem acceptAll_concat (ps : List Packet) (p : Packet) :
    acceptAll (ps ++ [p]) = (acceptAll ps).bind (Strand.accept · p) := by
  simp [acceptAll]

theorem Quiet.sent (hsent : ∃ s, (Ssh.sends evs).foldlM sendNext (0, 0) = some s ∧
      (t.dead = false → s = (t.outKeys, t.sender.seq)))
    (ht : t.dead = false) (h : Quiet t r) :
    ∃ s, (Ssh.sends (evs ++ r.2)).foldlM sendNext (0, 0) = some s ∧
      (r.1.dead = false → s = (r.1.outKeys, r.1.sender.seq)) := by
  obtain ⟨s, hs, heq⟩ := hsent
  obtain ⟨-, s', hs', heq'⟩ := h
  refine ⟨s', ?_, heq'⟩
  rw [sends_append, List.foldlM_append, hs, heq ht]
  exact hs'

/-- A step that reads no packet and stays where it is. -/
theorem Inv.stay (h : Inv t evs) (ht : t.dead = false) (hquiet : Quiet t r)
    (hsame : r.1.dead = false → Settled r.1 ∧ r.1.phase.awaited = t.phase.awaited ∧
      r.1.inKeys = t.inKeys ∧ r.1.receiver.seq = t.receiver.seq) : Inv r.1 (evs ++ r.2) where
  sent := hquiet.sent h.sent ht
  read := by
    intro halive
    obtain ⟨-, hphase, hkeys, hseq⟩ := hsame halive
    rw [reads_append, hquiet.reads, List.append_nil, h.read ht, hphase, hkeys, hseq]
  ended := by
    intro _
    rw [reads_append, hquiet.reads, List.append_nil, h.read ht]
    exact .inl rfl
  settled := fun halive => (hsame halive).1

/-- A step that reads a packet. -/
theorem Inv.packet (h : Inv t evs) (ht : t.dead = false) (hquiet : Quiet t r)
    (hnext : r.1.dead = false → Settled r.1 ∧
      Strand.accept ⟨t.phase.awaited, t.inKeys, t.receiver.seq⟩
          ⟨t.inKeys, t.receiver.seq, payload⟩ =
        some ⟨r.1.phase.awaited, r.1.inKeys, r.1.receiver.seq⟩) :
    Inv r.1 (evs ++ .read ⟨t.inKeys, t.receiver.seq, payload⟩ :: r.2) := by
  have hreads : reads (evs ++ .read ⟨t.inKeys, t.receiver.seq, payload⟩ :: r.2) =
      reads evs ++ [⟨t.inKeys, t.receiver.seq, payload⟩] := by
    have hhead : reads (.read ⟨t.inKeys, t.receiver.seq, payload⟩ :: r.2) =
        ⟨t.inKeys, t.receiver.seq, payload⟩ :: reads r.2 := rfl
    rw [reads_append, hhead, hquiet.reads]
  refine ⟨?_, ?_, ?_, fun halive => (hnext halive).1⟩
  · have hsends : sends (evs ++ .read ⟨t.inKeys, t.receiver.seq, payload⟩ :: r.2) =
        sends (evs ++ r.2) := by simp [sends]
    rw [hsends]
    exact hquiet.sent h.sent ht
  · intro halive
    rw [hreads, acceptAll_concat, h.read ht]
    exact (hnext halive).2
  · intro _
    exact .inr ⟨_, _, hreads, by rw [h.read ht]; rfl⟩

/-- What a packet leads to is settled, and what the discipline has it lead to. -/
theorem settled_onPacket {seq : Nat} (h : Settled t) (hnext : t.receiver.seq = seqNext seq)
    (hclient : ∀ mine, t.phase = .kexInit mine → msgType payload = KEXINIT →
      marked payload = true)
    (hguess : ∀ mine theirs a, t.phase = .ecdhInit mine theirs a true → isExchange payload = true)
    (hbanner : t.phase ≠ .banner) (halive : (onPacket e w t payload).1.dead = false) :
    Settled (onPacket e w t payload).1 ∧
      Strand.accept ⟨t.phase.awaited, t.inKeys, seq⟩ ⟨t.inKeys, seq, payload⟩ =
        some ⟨(onPacket e w t payload).1.phase.awaited, (onPacket e w t payload).1.inKeys,
          (onPacket e w t payload).1.receiver.seq⟩ := by
  unfold onPacket at halive ⊢
  cases hphase : t.phase with
  | banner => exact (hbanner hphase).elim
  | kexInit mine =>
    rw [hphase] at halive
    dsimp only at halive ⊢
    have hnew : t.firstKexDone = false := h.notYet (by rw [hphase]; rfl)
    by_cases htype : msgType payload = KEXINIT
    · rw [if_pos htype] at halive ⊢
      obtain ⟨⟨mine', a, hp⟩, hcount, ⟨hin, hout, hreceiver, hdone⟩, hstrict⟩ :=
        alive_onKexInit halive
      have hs := hstrict (.inr ⟨hnew, hclient mine hphase htype⟩)
      have hbegun := h.begun
      have houtKeys := h.outKeys
      refine ⟨⟨fun _ => hs, fun _ => ?_, ?_, ?_, ?_, ?_, ?_⟩, ?_⟩
      all_goals simp_all [Phase.awaited, Strand.accept, Settled.first]
    · rw [if_neg htype, if_pos (.inl hnew)] at halive
      cases halive
  | ecdhInit mine theirs a discard =>
    rw [hphase] at halive
    have hs := h.strict (by rw [hphase]; simp [Phase.awaited])
    have hbegun := h.begun
    have houtKeys := h.outKeys
    have hfirst := h.first
    cases discard with
    | true =>
      refine ⟨⟨fun _ => hs, fun hf => ?_, ?_, ?_, ?_, ?_, ?_⟩, ?_⟩
      all_goals simp_all [Phase.awaited, Strand.accept]
    | false =>
      obtain ⟨htype, ⟨c, hp⟩, hseq, hout, hin, hreceiver, hdone, hcount, hmode⟩ :=
        alive_onEcdhInit halive
      refine ⟨⟨fun _ => hmode.trans hs, fun hf => ?_, ?_, ?_, ?_, ?_, ?_⟩, ?_⟩
      all_goals simp_all [Phase.awaited, Strand.accept]
  | newKeys cipher =>
    rw [hphase] at halive
    have hs := h.strict (by rw [hphase]; simp [Phase.awaited])
    have hbegun := h.begun
    have houtKeys := h.outKeys
    obtain ⟨htype, c, heq⟩ := alive_onNewKeys hs halive
    rw [heq]
    refine ⟨⟨fun _ => rfl, fun hf => (nomatch hf), ?_, ?_, ?_, ?_, ?_⟩, ?_⟩
    all_goals simp_all [Phase.awaited, Strand.accept, opened]
  | reading =>
    rw [hphase] at halive
    have hs := h.strict (by rw [hphase]; simp [Phase.awaited])
    have hdone := h.done (by rw [hphase]; rfl)
    have hbegun := h.begun
    have houtKeys := h.outKeys
    rcases alive_onReading halive with ⟨htype, c, hafter⟩ | ⟨htype, heq⟩
    · obtain ⟨⟨mine', a, hp⟩, hcount, ⟨hin, hout, hreceiver, hdone'⟩, hstrict⟩ := hafter
      have hs' := hstrict (.inl hs)
      refine ⟨⟨fun _ => hs', fun hf => ?_, ?_, ?_, ?_, ?_, ?_⟩, ?_⟩
      all_goals simp_all [Phase.awaited, Strand.accept]
    · rw [heq]
      refine ⟨h, ?_⟩
      simp [hphase, Phase.awaited, Strand.accept, htype, hnext]

theorem quiet_onPacket (h : Settled t) : Quiet t (onPacket e w t payload) := by
  unfold onPacket
  cases hphase : t.phase with
  | banner => exact Quiet.nothing rfl rfl
  | kexInit mine =>
    dsimp only
    split
    · exact quiet_onKexInit _ _
    split
    · exact quiet_refuse _ _
    · exact Quiet.nothing rfl rfl
  | ecdhInit mine theirs a discard =>
    dsimp only
    have hbegun := h.begun
    have houtKeys := h.outKeys
    simp only [hphase, Phase.awaited] at hbegun houtKeys
    split
    · exact Quiet.nothing rfl rfl
    · apply quiet_onEcdhInit
      · exact h.strict (by rw [hphase]; simp [Phase.awaited])
      · rw [hbegun, houtKeys]
  | newKeys cipher => exact quiet_onNewKeys
  | reading => exact quiet_onReading

theorem quiet_onBanner : Quiet t (onBanner e w t) := by
  unfold onBanner
  split
  · exact Quiet.nothing rfl rfl
  · refine Quiet.of_eq ((quiet_write fun _ heq => ?_).andThen fun _ => ?_) rfl rfl
    · exact absurd (List.cons.inj heq).1 (by decide)
    · exact Quiet.nothing rfl rfl

theorem settled_onBanner (h : Settled t) (hphase : t.phase = .banner)
    (halive : (onBanner e w t).1.dead = false) :
    Settled (onBanner e w t).1 ∧ (onBanner e w t).1.phase.awaited = t.phase.awaited ∧
      (onBanner e w t).1.inKeys = t.inKeys ∧ (onBanner e w t).1.receiver.seq = t.receiver.seq := by
  unfold onBanner at halive ⊢
  cases hident : identify 50 t.receiver.inbox with
  | mk i answer =>
    rw [hident] at halive
    cases answer with
    | none => cases halive
    | some version =>
      obtain ⟨hwrite, heq⟩ := alive_andThen halive
      obtain ⟨c, hc⟩ := alive_write hwrite
      rw [heq, hc]
      have hbegun := h.begun
      have houtKeys := h.outKeys
      have hnew := h.notYet (by rw [hphase]; rfl)
      have hfirst := h.first hnew
      refine ⟨⟨fun hne => absurd rfl hne, fun _ => ⟨hfirst.1, by simp [Phase.awaited]⟩, ?_, ?_, ?_,
        ?_, fun _ => hnew⟩, by rw [hphase]; rfl, rfl, rfl⟩
      all_goals simp_all [Phase.awaited]

theorem readPacket_seq {c : PacketCipher σ} {r r' : Receiver σ}
    (h : readPacket c r = (r', .packet payload)) : r'.seq = seqNext r.seq := by
  unfold readPacket at h
  repeat' split at h
  all_goals simp only [Prod.mk.injEq, reduceCtorEq, and_false] at h
  obtain ⟨rfl, -⟩ := h
  rfl

theorem Inv.step {a : Action} (h : Inv t evs) (hclient : StrictClient e t)
    (hguess : GuessIsExchange e t) : Inv (Ssh.step e t a).1 (evs ++ (Ssh.step e t a).2) := by
  unfold Ssh.step
  split
  · rw [List.append_nil]
    exact h
  rename_i hdead
  have ht : t.dead = false := by simpa using hdead
  have hsettled := h.settled ht
  cases a with
  | write w payload =>
    dsimp only
    split
    · rename_i hphase
      refine h.stay ht (quiet_write fun hfalse => by cases hfalse) fun halive => ?_
      obtain ⟨c, hc⟩ := alive_write halive
      rw [hc]
      refine ⟨⟨hsettled.strict, hsettled.first, hsettled.begun, hsettled.outKeys, ?_, hsettled.done,
        hsettled.notYet⟩, rfl, rfl, rfl⟩
      intro hawaited
      rw [hphase] at hawaited
      cases hawaited
    · rw [List.append_nil]
      exact h
  | read w =>
    dsimp only
    split
    · rename_i hphase
      exact h.stay ht quiet_onBanner (settled_onBanner hsettled hphase)
    · rename_i hbanner
      split
      · rename_i r payload hread
        have hmoved : Settled { t with receiver := r } :=
          ⟨hsettled.strict, hsettled.first, hsettled.begun, hsettled.outKeys, hsettled.seq,
            hsettled.done, hsettled.notYet⟩
        refine h.packet ht ((quiet_onPacket hmoved).of_eq rfl rfl) fun halive => ?_
        exact settled_onPacket hmoved (readPacket_seq hread)
          (fun mine hp => hclient mine r payload hp hread)
          (fun mine theirs a hp => hguess mine theirs a r payload hp hread) hbanner halive
      · exact h.stay ht ((quiet_refuse _ _).of_eq rfl rfl) fun hfalse => by cases hfalse
      · exact h.stay ht (Quiet.nothing rfl rfl) fun hfalse => by cases hfalse

theorem Inv.run {acts : List Action} (h : Inv t evs)
    (hclient : Along e (StrictClient e) t acts) (hguess : Along e (GuessIsExchange e) t acts) :
    Inv (Ssh.run e t acts).1 (evs ++ (Ssh.run e t acts).2) := by
  induction acts generalizing t evs with
  | nil =>
    rw [Ssh.run, List.append_nil]
    exact h
  | cons a acts ih =>
    rw [Ssh.run, ← List.append_assoc]
    exact ih (h.step hclient.1 hguess.1) hclient.2 hguess.2

theorem inv_connect (e : Env σ) (pending : List Bytes) : Inv (connect e pending) [] where
  sent := ⟨(0, 0), rfl, fun _ => rfl⟩
  read := fun _ => rfl
  ended := fun h => nomatch h
  settled := fun _ =>
    { strict := fun h => absurd rfl h
      first := fun _ => ⟨rfl, by simp [connect, Phase.awaited]⟩
      begun := rfl
      outKeys := rfl
      seq := fun h => by cases h
      done := fun h => by cases h
      notYet := fun _ => rfl }

/-! ## Behind the first exchange -/

/-- The transport behind the first NEWKEYS: nothing of what came before is in it but the agreement
    and what is left to be read. -/
def fresh (t : Transport σ) : Transport σ :=
  ⟨t.clientVersion, t.sessionId, true, true, t.clientExtInfo, false,
    ⟨t.receiver.inbox, t.receiver.cipher, 0⟩,
    ⟨t.sender.cipher, if t.clientExtInfo then 1 else 0⟩, .reading, 1, 1, 1⟩

/-- A live transport that has read on has read a packet. -/
theorem alive_step (hbanner : t.phase ≠ .banner) (halive : (step e t (.read w)).1.dead = false) :
    ∃ r payload, (step e t (.read w)).1 = (onPacket e w { t with receiver := r } payload).1 := by
  unfold step at halive ⊢
  split at halive
  · rename_i hdead
    exact absurd (hdead.symm.trans halive) (by decide)
  rename_i hdead
  rw [if_neg hdead]
  dsimp only at halive ⊢
  split at halive
  · rename_i hphase
    exact (hbanner hphase).elim
  · cases hread : readPacket e.cipher t.receiver with
    | mk r reading =>
      rw [hread] at halive
      cases reading with
      | packet payload => exact ⟨r, payload, rfl⟩
      | corrupted => cases halive
      | failed => cases halive

/-- The first exchange ends with a NEWKEYS. -/
theorem newKeys_of_done (h : Settled t) (hnew : t.firstKexDone = false)
    (halive : (onPacket e w t payload).1.dead = false)
    (hdone : (onPacket e w t payload).1.firstKexDone = true) : ∃ c, t.phase = .newKeys c := by
  unfold onPacket at halive hdone
  cases hphase : t.phase with
  | banner =>
    rw [hphase] at hdone
    exact absurd (hnew.symm.trans hdone) (by decide)
  | kexInit mine =>
    rw [hphase] at halive hdone
    dsimp only at halive hdone
    by_cases htype : msgType payload = KEXINIT
    · rw [if_pos htype] at halive hdone
      rw [(alive_onKexInit halive).same.2.2.2] at hdone
      exact absurd (hnew.symm.trans hdone) (by decide)
    · rw [if_neg htype, if_pos (.inl hnew)] at halive
      cases halive
  | ecdhInit mine theirs a discard =>
    rw [hphase] at halive hdone
    cases discard with
    | true => exact absurd (hnew.symm.trans hdone) (by decide)
    | false =>
      simp only [Bool.false_eq_true, if_false] at halive hdone
      rw [(alive_onEcdhInit halive).2.same.2.2.1] at hdone
      exact absurd (hnew.symm.trans hdone) (by decide)
  | newKeys cipher => exact ⟨cipher, rfl⟩
  | reading => exact absurd (by rw [hphase]; rfl) (h.first hnew).2

theorem opens_eq (h : Settled t) (hopens : Opens e t w) :
    (step e t (.read w)).1 = fresh (step e t (.read w)).1 := by
  obtain ⟨hnew, hdone, halive⟩ := hopens
  have hbanner : t.phase ≠ .banner := by
    intro hphase
    have hstep : (step e t (.read w)).1 = (onBanner e w t).1 := by
      have ht : ¬t.dead = true := fun ht => by simp [step, ht] at halive
      simp only [step, if_neg ht, hphase]
    rw [hstep] at halive hdone
    obtain ⟨hsettled, hawaited, -⟩ := settled_onBanner h hphase halive
    have hnot := hsettled.notYet (hawaited.trans (by rw [hphase]; rfl))
    exact absurd (hnot.symm.trans hdone) (by decide)
  obtain ⟨r, payload, hstep⟩ := alive_step hbanner halive
  rw [hstep] at halive hdone ⊢
  have hmoved : Settled { t with receiver := r } :=
    ⟨h.strict, h.first, h.begun, h.outKeys, h.seq, h.done, h.notYet⟩
  obtain ⟨c, hphase⟩ := newKeys_of_done hmoved hnew halive hdone
  have hphase' : t.phase = .newKeys c := hphase
  have hs : t.strictKex = true := h.strict (by rw [hphase']; simp [Phase.awaited])
  have hbegun := h.begun
  have houtKeys := h.outKeys
  have hseq := h.seq (by rw [hphase']; rfl)
  have hpacket : onPacket e w { t with receiver := r } payload =
      onNewKeys e w c payload { t with receiver := r } := by simp only [onPacket, hphase']
  rw [hpacket] at halive ⊢
  obtain ⟨-, c', heq⟩ := @alive_onNewKeys _ _ _ { t with receiver := r } _ _ hs halive
  have ht : t.dead = false := by
    rw [heq] at halive
    exact halive
  simp only [hphase', Phase.awaited, (h.first hnew).1, Nat.zero_add] at hbegun houtKeys
  rw [heq]
  -- the sequence number of the sender counts what was sent behind our NEWKEYS
  cases hext : t.clientExtInfo with
  | true => simp [fresh, opened, hnew, ht, hbegun, houtKeys, hseq, seqNext]
  | false =>
    have hsender : t.sender = ⟨t.sender.cipher, 0⟩ := by rw [← hseq]
    simp only [fresh, opened, hnew, ht, hbegun, houtKeys, Bool.false_eq_true, and_false,
      if_false]
    rw [← hsender]

/-- As long as what is thrown away as a wrong guess is a message of a key exchange, a session of a
    strict client keeps to the discipline; and whatever two sessions read before their first
    NEWKEYS, behind it they do the same if they have agreed on the same. -/
theorem strict_run (e : Env σ) (pending : List Bytes) (acts : List Action)
    (hclient : Along e (StrictClient e) (connect e pending) acts)
    (hguess : Along e (GuessIsExchange e) (connect e pending) acts) :
    Disciplined (run e (connect e pending) acts).1 (run e (connect e pending) acts).2 ∧
      ∀ (pending' : List Bytes) (acts' : List Action) (w w' : World),
        Along e (StrictClient e) (connect e pending') acts' →
        Along e (GuessIsExchange e) (connect e pending') acts' →
        Opens e (run e (connect e pending) acts).1 w →
        Opens e (run e (connect e pending') acts').1 w' →
        SameAgreement (step e (run e (connect e pending) acts).1 (.read w)).1
          (step e (run e (connect e pending') acts').1 (.read w')).1 →
        ∀ later, run e (step e (run e (connect e pending) acts).1 (.read w)).1 later =
          run e (step e (run e (connect e pending') acts').1 (.read w')).1 later := by
  have hinv := (inv_connect e pending).run hclient hguess
  refine ⟨hinv.disciplined, ?_⟩
  intro pending' acts' w w' hclient' hguess' hopens hopens' hsame later
  have hinv' := (inv_connect e pending').run hclient' hguess'
  have hlive : ∀ {t : Transport σ} {w : World}, Opens e t w → t.dead = false := by
    rintro t w ⟨-, -, halive⟩
    cases ht : t.dead with
    | false => rfl
    | true => simp [step, ht] at halive
  have heq := opens_eq (hinv.settled (hlive hopens)) hopens
  have heq' := opens_eq (hinv'.settled (hlive hopens')) hopens'
  obtain ⟨hversion, hsession, hext, hinbox, hin, hout⟩ := hsame
  rw [heq, heq', fresh, fresh, hversion, hsession, hext, hinbox, hin, hout]

/-! ## Two clients -/

/-- The conditions on a step as far as the next packet decides them. -/
def checks (e : Env σ) (t : Transport σ) : Bool × Bool :=
  match t.phase, (readPacket e.cipher t.receiver).2 with
  | .kexInit _, .packet payload => (msgType payload ≠ KEXINIT || marked payload, true)
  | .ecdhInit _ _ _ true, .packet payload => (true, isExchange payload)
  | _, _ => (true, true)

def alongChecks (e : Env σ) (f : Bool × Bool → Bool) : Transport σ → List Action → Bool
  | _, [] => true
  | t, a :: acts => f (checks e t) && alongChecks e f (step e t a).1 acts

theorem along_of_checks {f : Bool × Bool → Bool} {P : Transport σ → Prop}
    (hP : ∀ t, f (checks e t) = true → P t) {acts : List Action}
    (h : alongChecks e f t acts = true) : Along e P t acts := by
  induction acts generalizing t with
  | nil => trivial
  | cons a acts ih =>
    rw [alongChecks, Bool.and_eq_true] at h
    exact ⟨hP t h.1, ih h.2⟩

theorem strictClient_of_checks (t : Transport σ) (h : (checks e t).1 = true) :
    StrictClient e t := by
  intro mine r payload hphase hread htype
  simpa [checks, hphase, hread, htype] using h

theorem guessIsExchange_of_checks (t : Transport σ) (h : (checks e t).2 = true) :
    GuessIsExchange e t := by
  intro mine theirs a r payload hphase hread
  simpa [checks, hphase, hread] using h

end

/-- Nothing is agreed on in what follows. -/
def plain : Env Unit where
  cipher := noneCipher
  noneCipher := ()
  makeCipher _ _ _ _ _ := ()
  sha256 := id
  x25519Public := id
  x25519 _ _ := none
  hostKeyBlob := []
  signWithHostKey _ := none
  signatureAlgorithms := []

def zeros : World := ⟨fun _ _ => 0, [], fun _ => true⟩

/-- A strict client that has guessed another key exchange method than it will be. -/
def guessing : Bytes :=
  KEXINIT :: List.replicate 16 0 ++
    ([[bytes "sntrup761", bytes "curve25519-sha256", strictMarker], kHostKey, kCiphers, kCiphers,
      kMacs, kMacs, kComp, kComp, [], []].flatMap writeNameList ++ [1] ++ u32Bytes 0)

/-- What such a client sends, with this packet behind its KEXINIT. -/
def guesses (packet : Bytes) : List Bytes :=
  [bytes "SSH-2.0-x\r\n" ++ (writePacket noneCipher ⟨(), 0⟩ (fun _ => 0) guessing).2 ++
    (writePacket noneCipher ⟨(), 1⟩ (fun _ => 0) packet).2]

/-- The client goes on with the exchange that is agreed on. -/
def agreed : Env Unit := { plain with x25519 := fun _ _ => some [1], signWithHostKey := fun _ => some [] }

def guessesAndAgrees (packet : Bytes) : List Bytes :=
  guesses packet ++
    [(writePacket noneCipher ⟨(), 2⟩ (fun _ => 0)
        (KEX_ECDH_INIT :: (u32Bytes 32 ++ List.replicate 32 9))).2 ++
      (writePacket noneCipher ⟨(), 3⟩ (fun _ => 0) [NEWKEYS]).2]

/-- A session before it reads the NEWKEYS, and behind it. -/
def untilKeys (packet : Bytes) : Transport Unit × List Event :=
  run agreed (connect agreed (guessesAndAgrees packet)) (.replicate 4 (.read zeros))

def keyed (packet : Bytes) : Transport Unit := (step agreed (untilKeys packet).1 (.read zeros)).1

/-- Two sessions that throw away different guesses do the same behind their NEWKEYS. -/
theorem strict_run_guess :
    Disciplined (untilKeys [KEX_ECDH_INIT]).1 (untilKeys [KEX_ECDH_INIT]).2 ∧
      ∀ later, run agreed (keyed [KEX_ECDH_INIT]) later =
        run agreed (keyed [KEX_ECDH_INIT, 0]) later := by
  have hchecks : ∀ packet ∈ [[KEX_ECDH_INIT], [KEX_ECDH_INIT, 0]],
      (alongChecks agreed Prod.fst (connect agreed (guessesAndAgrees packet))
          (.replicate 4 (.read zeros)) = true ∧
        alongChecks agreed Prod.snd (connect agreed (guessesAndAgrees packet))
          (.replicate 4 (.read zeros)) = true) ∧
      Opens agreed (untilKeys packet).1 zeros := by
    unfold Opens
    decide +kernel
  have hsame : (keyed [KEX_ECDH_INIT]).clientVersion = (keyed [KEX_ECDH_INIT, 0]).clientVersion ∧
      (keyed [KEX_ECDH_INIT]).sessionId = (keyed [KEX_ECDH_INIT, 0]).sessionId ∧
      (keyed [KEX_ECDH_INIT]).clientExtInfo = (keyed [KEX_ECDH_INIT, 0]).clientExtInfo ∧
      (keyed [KEX_ECDH_INIT]).receiver.inbox = (keyed [KEX_ECDH_INIT, 0]).receiver.inbox := by
    decide +kernel
  have hfirst := hchecks [KEX_ECDH_INIT] List.mem_cons_self
  have hsecond := hchecks [KEX_ECDH_INIT, 0] (List.mem_cons_of_mem _ List.mem_cons_self)
  unfold keyed untilKeys at hfirst hsecond hsame ⊢
  obtain ⟨hrun, hopens⟩ := hfirst
  obtain ⟨hrun', hopens'⟩ := hsecond
  obtain ⟨hversion, hsession, hext, hinbox⟩ := hsame
  obtain ⟨hdisciplined, htwo⟩ := strict_run agreed (guessesAndAgrees [KEX_ECDH_INIT])
    (.replicate 4 (.read zeros)) (along_of_checks strictClient_of_checks hrun.1)
    (along_of_checks guessIsExchange_of_checks hrun.2)
  exact ⟨hdisciplined, htwo _ _ zeros zeros (along_of_checks strictClient_of_checks hrun'.1)
    (along_of_checks guessIsExchange_of_checks hrun'.2) hopens hopens'
    ⟨hversion, hsession, hext, hinbox, Subsingleton.elim _ _, Subsingleton.elim _ _⟩⟩

/-- An IGNORE in the place of the guess is thrown away like one, and the exchange goes on. -/
theorem not_disciplined_ignore : ¬∀ (e : Env Unit) (pending : List Bytes) (acts : List Action)
      (_ : Along e (StrictClient e) (connect e pending) acts),
        Disciplined (run e (connect e pending) acts).1 (run e (connect e pending) acts).2 := by
  intro h
  obtain ⟨hclient, hdead, hnot⟩ : alongChecks plain Prod.fst (connect plain (guesses [IGNORE]))
        (.replicate 3 (.read zeros)) = true ∧
      (run plain (connect plain (guesses [IGNORE])) (.replicate 3 (.read zeros))).1.dead = false ∧
      (acceptAll (reads (run plain (connect plain (guesses [IGNORE]))
        (.replicate 3 (.read zeros))).2)).isSome = false := by decide +kernel
  have hrun := h plain (guesses [IGNORE]) (.replicate 3 (.read zeros))
    (along_of_checks strictClient_of_checks hclient)
  rcases hrun.incoming with hsome | ⟨hended, -⟩
  · exact absurd (hnot.symm.trans hsome) (by decide)
  · exact absurd (hdead.symm.trans hended) (by decide)

end QuackMail.Ssh
