import QuackMail.Listserv.Subscriptions

/-! # Consent to a subscription

Who receives the posts of a list changes by confirmations alone, as long as nobody asks for
an active subscriber to be removed: `Unsubscribe` takes the row out of the active ones
before anything is confirmed.  The invariant is that the token of a row is the one that was
last mailed to its address.
-/

namespace QuackMail.Listserv

/-! ## What is promised -/

/-- The address is one that `SpoolRoom` mails. -/
def receives (s : Desk) (roomNum : Nat) (address : Bytes) : Prop :=
  ∃ r ∈ subscribers s roomNum .active, r.address = address

/-- The token of a letter, if it is a confirmation request of the list in this room to this
    address. -/
def tokenOf (roomNum : Nat) (address : Bytes) (m : Mail) : Option Bytes :=
  match m.letter with
  | .confirmation list token _ =>
    if list.roomNum = roomNum ∧ m.rcpt = address then some token else none
  | .reply _ _ => none

/-- The token that was last mailed to an address for a list. -/
def lastMailed (s : Desk) (roomNum : Nat) (address : Bytes) : Option Bytes :=
  s.outbound.reverse.findSome? (tokenOf roomNum address)

/-- A command mail, with what it meets. -/
structure Event where
  lists : Tables
  call : Call
  list : MailList
  cmd : Command
  mailFrom : Bytes

def handle (s : Desk) (e : Event) : Desk :=
  (handleCommand e.lists e.call s e.list e.cmd e.mailFrom).1

def handleAll (s : Desk) (es : List Event) : Desk := es.foldl handle s

/-- Where the command changes who receives, it is a confirmation with the unexpired token
    that was last mailed to the address. -/
def Consented (s : Desk) (e : Event) : Prop :=
  ∀ roomNum address, (receives (handle s e) roomNum address ↔ receives s roomNum address) ∨
    (e.cmd.kind = .confirm ∧ lastMailed s roomNum address = some e.cmd.token ∧
      ∃ r ∈ s.subs, r.roomNum = roomNum ∧ r.address = address ∧ r.token = e.cmd.token ∧
        e.call.now ≤ r.tokenExpires)

/-- Every command of a run is consented to. -/
def OwnerOnly (s : Desk) (es : List Event) : Prop :=
  ∀ before e after, es = before ++ e :: after → Consented (handleAll s before) e

/-- The request is not one to remove an active subscriber, and the claimed sender of a
    request is written as one address. -/
def Polite (s : Desk) (e : Event) : Prop :=
  (e.cmd.kind = .subscribe ∨ e.cmd.kind = .unsubscribe →
    normAddr (normAddr e.mailFrom) = normAddr e.mailFrom) ∧
  (e.cmd.kind = .unsubscribe → ¬receives s e.list.roomNum (normAddr e.mailFrom))

def RunPolite (s : Desk) (es : List Event) : Prop :=
  ∀ before e after, es = before ++ e :: after → Polite (handleAll s before) e

/-- One row for an address at a list, and its token was the last one mailed there. -/
structure Mailed (s : Desk) : Prop where
  unique : (s.subs.map fun r => (r.roomNum, r.address)).Nodup
  mailed : ∀ r ∈ s.subs, r.token ≠ [] → lastMailed s r.roomNum r.address = some r.token

/-! ## Rows -/

variable {address token : Bytes} {r : SubRow} {roomNum : Nat} {s t : Desk} {f : SubRow → SubRow}
   {c : Call} {list : MailList}

theorem isAt_iff : r.isAt roomNum address = true ↔ r.roomNum = roomNum ∧ r.address = address := by
  simp [SubRow.isAt]

theorem receives_iff : receives s roomNum address ↔
      ∃ r ∈ s.subs, r.isAt roomNum address = true ∧ r.state = .active := by
  constructor
  · intro h
    obtain ⟨r, hr, haddress⟩ := h
    have hmem := (List.mem_insertionSort _).mp hr
    obtain ⟨hin, hstate⟩ := List.mem_filter.mp hmem
    have hstate : r.roomNum = roomNum ∧ r.state = .active := by simpa using hstate
    exact ⟨r, hin, isAt_iff.mpr ⟨hstate.1, haddress⟩, hstate.2⟩
  · intro h
    obtain ⟨r, hin, hat, hstate⟩ := h
    obtain ⟨hroom, haddress⟩ := isAt_iff.mp hat
    refine ⟨r, (List.mem_insertionSort _).mpr (List.mem_filter.mpr ⟨hin, ?_⟩), haddress⟩
    simp [hroom, hstate]

theorem isSubscriber_iff :
    isSubscriber s roomNum address = true ↔ receives s roomNum (normAddr address) := by
  rw [receives_iff]
  simp [isSubscriber]

/-- Whoever receives does so by the row of its address alone. -/
theorem receives_congr (h : ∀ r : SubRow, r.isAt roomNum address = true → r.state = .active →
      (r ∈ s.subs ↔ r ∈ t.subs)) :
    receives s roomNum address ↔ receives t roomNum address := by
  rw [receives_iff, receives_iff]
  constructor
  · intro hs
    obtain ⟨r, hr, hat, hstate⟩ := hs
    exact ⟨r, (h r hat hstate).mp hr, hat, hstate⟩
  · intro ht
    obtain ⟨r, hr, hat, hstate⟩ := ht
    exact ⟨r, (h r hat hstate).mpr hr, hat, hstate⟩

theorem mem_updateSub (hr : r ∈ (updateSub s roomNum address f).subs) :
    (r ∈ s.subs ∧ r.isAt roomNum address = false) ∨
      ∃ q ∈ s.subs, q.isAt roomNum address = true ∧ r = f q := by
  obtain ⟨q, hq, hqr⟩ := List.mem_map.mp hr
  by_cases hat : q.isAt roomNum address = true
  · rw [if_pos hat] at hqr
    exact .inr ⟨q, hq, hat, hqr.symm⟩
  · rw [if_neg hat] at hqr
    rw [← hqr]
    exact .inl ⟨hq, by simpa using hat⟩

theorem mem_updateSub_other (hr : r ∈ s.subs) (hat : r.isAt roomNum address = false) :
    r ∈ (updateSub s roomNum address f).subs :=
  List.mem_map.mpr ⟨r, hr, by simp [hat]⟩

theorem mem_deleteSub :
    r ∈ (deleteSub s roomNum address).subs ↔ r ∈ s.subs ∧ r.isAt roomNum address = false := by
  simp [deleteSub]

/-- A row that is not at an address is at another. -/
theorem isAt_other {room room' : Nat} {address' : Bytes}
    (h : r.isAt room address = true) (hne : ¬(room = room' ∧ address = address')) :
    r.isAt room' address' = false := by
  rw [← Bool.not_eq_true, isAt_iff]
  obtain ⟨hroom, haddress⟩ := isAt_iff.mp h
  rw [hroom, haddress]
  exact hne

/-! ## Letters -/

theorem lastMailed_send (s : Desk) (rcpt : Bytes) (letter : Letter) (roomNum : Nat)
    (address : Bytes) :
    lastMailed (send s rcpt letter) roomNum address =
      (tokenOf roomNum address ⟨rcpt, letter⟩).or (lastMailed s roomNum address) := by
  simp only [lastMailed, send, List.reverse_append, List.reverse_singleton, List.singleton_append,
    List.findSome?_cons]
  cases tokenOf roomNum address ⟨rcpt, letter⟩ with
  | none => rfl
  | some token => rfl

theorem lastMailed_reply (s : Desk) (rcpt subject text : Bytes) (roomNum : Nat) (address : Bytes) :
    lastMailed (send s rcpt (.reply subject text)) roomNum address =
      lastMailed s roomNum address :=
  lastMailed_send s rcpt _ roomNum address

theorem lastMailed_confirmation (s : Desk) (rcpt : Bytes) (list : MailList) (token : Bytes)
    (subscribing : Bool) (roomNum : Nat) (address : Bytes) :
    lastMailed (send s rcpt (.confirmation list token subscribing)) roomNum address =
      if list.roomNum = roomNum ∧ rcpt = address then some token
      else lastMailed s roomNum address := by
  rw [lastMailed_send]
  simp only [tokenOf]
  split_ifs
  · rfl
  · rfl

/-! ## Requests -/

/-- What a request does to the tables: nobody who receives is touched, and the token of the
    row it opens is mailed. -/
structure Requested (s t : Desk) (list : MailList) (address token : Bytes) : Prop where
  unique : (t.subs.map fun r => (r.roomNum, r.address)).Nodup
  outbound : t.outbound = s.outbound
  others : ∀ r : SubRow, r.isAt list.roomNum address = false → (r ∈ t.subs ↔ r ∈ s.subs)
  opened : ∀ r ∈ t.subs, r.isAt list.roomNum address = true → r.state ≠ .active ∧ r.token = token

theorem unique_updateSub (h : Mailed s)
    (hf : ∀ r, (f r).roomNum = r.roomNum ∧ (f r).address = r.address) :
    ((updateSub s roomNum address f).subs.map fun r => (r.roomNum, r.address)).Nodup := by
  have hsame : ((updateSub s roomNum address f).subs.map fun r => (r.roomNum, r.address)) =
      s.subs.map fun r => (r.roomNum, r.address) := by
    rw [updateSub, List.map_map]
    refine List.map_congr_left fun r _ => ?_
    simp only [Function.comp]
    split_ifs
    · rw [(hf r).1, (hf r).2]
    · rfl
  rw [hsame]
  exact h.unique

theorem requested_update (h : Mailed s) (list : MailList) (address token : Bytes)
    (hf : ∀ r, (f r).roomNum = r.roomNum ∧ (f r).address = r.address)
    (hstate : ∀ r, (f r).state ≠ .active) (htoken : ∀ r, (f r).token = token) :
    Requested s (updateSub s list.roomNum address f) list address token := by
  have hat : ∀ r, (f r).isAt list.roomNum address = r.isAt list.roomNum address := by
    intro r
    simp [SubRow.isAt, (hf r).1, (hf r).2]
  refine ⟨unique_updateSub h hf, rfl, ?_, ?_⟩
  · intro r hother
    constructor
    · intro hr
      cases mem_updateSub hr with
      | inl hr => exact hr.1
      | inr hr =>
        obtain ⟨q, -, hq, rfl⟩ := hr
        rw [hat, hq] at hother
        simp at hother
    · intro hr
      exact mem_updateSub_other hr hother
  · intro r hr hown
    cases mem_updateSub hr with
    | inl hr =>
      rw [hr.2] at hown
      simp at hown
    | inr hr =>
      obtain ⟨q, -, -, rfl⟩ := hr
      exact ⟨hstate q, htoken q⟩

theorem requested_insert (h : Mailed s) (list : MailList) (row : SubRow)
    (hroom : row.roomNum = list.roomNum) (hstate : row.state ≠ .active)
    (hnone : findSub s list.roomNum row.address = none) :
    Requested s { s with subs := s.subs ++ [row] } list row.address row.token := by
  have hfree : ∀ r ∈ s.subs, r.isAt list.roomNum row.address = false := by
    intro r hr
    simpa using List.find?_eq_none.mp hnone r hr
  have hrow : row.isAt list.roomNum row.address = true := isAt_iff.mpr ⟨hroom, rfl⟩
  refine ⟨?_, rfl, ?_, ?_⟩
  · rw [List.map_append, List.nodup_append]
    refine ⟨h.unique, by simp, ?_⟩
    intro k hk k' hk' heq
    obtain ⟨r, hr, rfl⟩ := List.mem_map.mp hk
    rw [List.map_singleton, List.mem_singleton] at hk'
    rw [hk', Prod.mk.injEq] at heq
    have := hfree r hr
    rw [← Bool.not_eq_true, isAt_iff, ← hroom] at this
    exact this heq
  · intro r hother
    simp only [List.mem_append, List.mem_singleton]
    constructor
    · intro hr
      cases hr with
      | inl hr => exact hr
      | inr hr =>
        rw [hr, hrow] at hother
        simp at hother
    · exact Or.inl
  · intro r hr hown
    cases List.mem_append.mp hr with
    | inl hr =>
      rw [hfree r hr] at hown
      simp at hown
    | inr hr =>
      rw [List.mem_singleton.mp hr]
      exact ⟨hstate, rfl⟩

/-- An unconfirmed `Subscribe` fails without a change, or opens a request. -/
theorem subscribe_requested (h : Mailed s) {kind : SubKind} {result : Except Bytes Bytes}
    (hcall : subscribe c s list address kind false = (t, result)) :
    (t = s ∧ ∃ err, result = .error err) ∨
      ∃ token, result = .ok token ∧ Requested s t list (normAddr address) token := by
  unfold subscribe at hcall
  simp only [Bool.false_eq_true, if_false, and_false, Bool.not_false, true_and] at hcall
  split at hcall
  · simp only [Prod.mk.injEq] at hcall
    exact .inl ⟨hcall.1.symm, _, hcall.2.symm⟩
  · split at hcall
    · simp only [Prod.mk.injEq] at hcall
      exact .inl ⟨hcall.1.symm, _, hcall.2.symm⟩
    · split at hcall
      · split at hcall
        · simp only [Prod.mk.injEq] at hcall
          rw [← hcall.1]
          exact .inr ⟨_, hcall.2.symm,
            requested_update h list _ _ (fun _ => ⟨rfl, rfl⟩) (by simp) (fun _ => rfl)⟩
        · simp only [Prod.mk.injEq] at hcall
          exact .inl ⟨hcall.1.symm, _, hcall.2.symm⟩
      · next hnone =>
        split at hcall
        · simp only [Prod.mk.injEq] at hcall
          rw [← hcall.1]
          exact .inr ⟨_, hcall.2.symm, requested_insert h list _ rfl (by simp) hnone⟩
        · simp only [Prod.mk.injEq] at hcall
          exact .inl ⟨hcall.1.symm, _, hcall.2.symm⟩

/-- An unconfirmed `Unsubscribe` fails without a change, or opens a request. -/
theorem unsubscribe_requested (h : Mailed s) {result : Except Bytes Bytes}
    (hcall : unsubscribe c s list address false = (t, result)) :
    (t = s ∧ ∃ err, result = .error err) ∨
      ∃ token, result = .ok token ∧ Requested s t list (normAddr address) token := by
  unfold unsubscribe at hcall
  simp only [Bool.false_eq_true, if_false] at hcall
  split at hcall
  · simp only [Prod.mk.injEq] at hcall
    exact .inl ⟨hcall.1.symm, _, hcall.2.symm⟩
  · split at hcall
    · simp only [Prod.mk.injEq] at hcall
      exact .inl ⟨hcall.1.symm, _, hcall.2.symm⟩
    · split at hcall
      · simp only [Prod.mk.injEq] at hcall
        rw [← hcall.1]
        exact .inr ⟨_, hcall.2.symm,
          requested_update h list _ _ (fun _ => ⟨rfl, rfl⟩) (by simp) (fun _ => rfl)⟩
      · simp only [Prod.mk.injEq] at hcall
        exact .inl ⟨hcall.1.symm, _, hcall.2.symm⟩

/-- A request that is mailed to the address of its row keeps the invariant. -/
theorem Requested.mailed (h : Mailed s)
    (hreq : Requested s t list address token) (subscribing : Bool) :
    Mailed (send t address (.confirmation list token subscribing)) := by
  refine ⟨hreq.unique, fun r hr htoken => ?_⟩
  rw [lastMailed_confirmation]
  by_cases hat : r.isAt list.roomNum address = true
  · obtain ⟨hroom, haddress⟩ := isAt_iff.mp hat
    rw [if_pos ⟨hroom.symm, haddress.symm⟩, (hreq.opened r hr hat).2]
  · have hother : r.isAt list.roomNum address = false := by simpa using hat
    rw [if_neg (fun heq => hat (isAt_iff.mpr ⟨heq.1.symm, heq.2.symm⟩))]
    have hold := h.mailed r ((hreq.others r hother).mp hr) htoken
    rw [lastMailed, hreq.outbound]
    exact hold

/-- A request for an address that does not receive leaves everybody's receiving as it was. -/
theorem Requested.receives_iff
    (hreq : Requested s t list address token) (hidle : ¬receives s list.roomNum address)
    (roomNum : Nat) (a : Bytes) : receives t roomNum a ↔ receives s roomNum a := by
  refine receives_congr fun r hat hstate => ?_
  by_cases hown : r.isAt list.roomNum address = true
  · constructor
    · intro hr
      exact absurd hstate (hreq.opened r hr hown).1
    · intro hr
      exact absurd (Listserv.receives_iff.mpr ⟨r, hr, hown, hstate⟩) hidle
  · exact hreq.others r (by simpa using hown)

/-! ## Confirmations -/

/-- What a confirmation does: nothing, or it settles the row whose live token it carries. -/
structure Settles (s t : Desk) (c : Call) (token : Bytes) (r : SubRow) : Prop where
  mem : r ∈ s.subs
  carried : r.token = token
  opened : r.token ≠ []
  live : c.now ≤ r.tokenExpires
  unique : (t.subs.map fun q => (q.roomNum, q.address)).Nodup
  outbound : t.outbound = s.outbound
  others : ∀ q : SubRow, q.isAt r.roomNum r.address = false → (q ∈ t.subs ↔ q ∈ s.subs)
  closed : ∀ q ∈ t.subs, q.isAt r.roomNum r.address = true → q.token = []

theorem settles_delete (h : Mailed s) (hr : r ∈ s.subs)
    (hopened : r.token ≠ []) (hlive : c.now ≤ r.tokenExpires) :
    Settles s (deleteSub s r.roomNum r.address) c r.token r := by
  refine ⟨hr, rfl, hopened, hlive, h.unique.sublist (List.filter_sublist.map _), rfl, ?_, ?_⟩
  · intro q hother
    rw [mem_deleteSub]
    exact ⟨And.left, fun hq => ⟨hq, hother⟩⟩
  · intro q hq hat
    rw [(mem_deleteSub.mp hq).2] at hat
    simp at hat

theorem settles_activate (h : Mailed s) (hr : r ∈ s.subs)
    (hopened : r.token ≠ []) (hlive : c.now ≤ r.tokenExpires)
    (hf : ∀ r, (f r).roomNum = r.roomNum ∧ (f r).address = r.address)
    (htoken : ∀ r, (f r).token = []) :
    Settles s (updateSub s r.roomNum r.address f) c r.token r := by
  refine ⟨hr, rfl, hopened, hlive, unique_updateSub h hf, rfl, ?_, ?_⟩
  · intro q hother
    constructor
    · intro hq
      cases mem_updateSub hq with
      | inl hq => exact hq.1
      | inr hq =>
        obtain ⟨p, -, hp, rfl⟩ := hq
        rw [SubRow.isAt, (hf p).1, (hf p).2] at hother
        rw [SubRow.isAt, hother] at hp
        simp at hp
    · intro hq
      exact mem_updateSub_other hq hother
  · intro q hq hat
    cases mem_updateSub hq with
    | inl hq =>
      rw [hq.2] at hat
      simp at hat
    | inr hq =>
      obtain ⟨p, -, -, rfl⟩ := hq
      exact htoken p

theorem confirm_settles {lists : Tables} (h : Mailed s)
    {result : Except Bytes Bytes} (hcall : confirm lists c s token = (t, result)) :
    t = s ∨ ∃ r, Settles s t c token r := by
  unfold confirm at hcall
  split at hcall
  · simp only [Prod.mk.injEq] at hcall
    exact .inl hcall.1.symm
  · split at hcall
    · simp only [Prod.mk.injEq] at hcall
      exact .inl hcall.1.symm
    · next r hrow =>
      have hr := List.mem_of_find?_eq_some hrow
      have hmatch : r.token ≠ [] ∧ c.now ≤ r.tokenExpires ∧ r.token = token := by
        simpa using List.find?_some hrow
      obtain ⟨hopened, hlive, rfl⟩ := hmatch
      split at hcall
      · simp only [Prod.mk.injEq] at hcall
        rw [← hcall.1]
        split
        · exact .inr ⟨r, settles_delete h hr hopened hlive⟩
        · exact .inl rfl
      · simp only [Prod.mk.injEq] at hcall
        rw [← hcall.1]
        split
        · exact .inr ⟨r, settles_activate h hr hopened hlive (fun _ => ⟨rfl, rfl⟩) (fun _ => rfl)⟩
        · exact .inl rfl

theorem Settles.mailed (h : Mailed s) (hset : Settles s t c token r) : Mailed t := by
  refine ⟨hset.unique, fun q hq htoken => ?_⟩
  by_cases hat : q.isAt r.roomNum r.address = true
  · exact absurd (hset.closed q hq hat) htoken
  · have hother : q.isAt r.roomNum r.address = false := by simpa using hat
    have hold := h.mailed q ((hset.others q hother).mp hq) htoken
    rw [lastMailed, hset.outbound]
    exact hold

/-- Away from the row it settles, a confirmation changes nothing. -/
theorem Settles.receives_iff (hset : Settles s t c token r)
    (hne : ¬(r.roomNum = roomNum ∧ r.address = address)) :
    receives t roomNum address ↔ receives s roomNum address := by
  refine receives_congr fun q hat _ => hset.others q (isAt_other hat fun heq => hne ?_)
  exact ⟨heq.1.symm, heq.2.symm⟩

/-! ## One command -/

/-- What a command can do to the desk. -/
inductive Outcome (s : Desk) (e : Event) : Desk → Prop where
  /-- an answer, a note for the aides, or nothing -/
  | quiet {t : Desk} (hsubs : t.subs = s.subs)
      (hmail : ∀ roomNum address, lastMailed t roomNum address = lastMailed s roomNum address) :
      Outcome s e t
  | subscribe {t : Desk} {token : Bytes} (hkind : e.cmd.kind = .subscribe)
      (hidle : ¬receives s e.list.roomNum (normAddr (normAddr e.mailFrom)))
      (hreq : Requested s t e.list (normAddr (normAddr e.mailFrom)) token) :
      Outcome s e (send t (normAddr e.mailFrom) (.confirmation e.list token true))
  | unsubscribe {t : Desk} {token : Bytes} (hkind : e.cmd.kind = .unsubscribe)
      (hreq : Requested s t e.list (normAddr (normAddr e.mailFrom)) token) :
      Outcome s e (send t (normAddr e.mailFrom) (.confirmation e.list token false))
  | settle {t u : Desk} {r : SubRow} (hkind : e.cmd.kind = .confirm)
      (hset : Settles s t e.call e.cmd.token r) (hsubs : u.subs = t.subs)
      (hmail : ∀ roomNum address, lastMailed u roomNum address = lastMailed t roomNum address) :
      Outcome s e u

theorem outcome_same (s : Desk) (e : Event) : Outcome s e s := .quiet rfl fun _ _ => rfl

theorem outcome_reply (s : Desk) (e : Event) (rcpt subject text : Bytes) :
    Outcome s e (send s rcpt (.reply subject text)) :=
  .quiet rfl fun _ _ => lastMailed_reply s rcpt subject text _ _

theorem handle_outcome (h : Mailed s) (e : Event) : Outcome s e (handle s e) := by
  unfold handle handleCommand
  cases hkind : e.cmd.kind with
  | post => exact outcome_same s e
  | bounce => exact .quiet rfl fun _ _ => rfl
  | help =>
    simp only
    split
    · exact outcome_same s e
    · exact outcome_reply s e _ _ _
  | subscribe =>
    simp only
    split
    · exact outcome_same s e
    · split
      · exact outcome_reply s e _ _ _
      · next hidle =>
        rw [isSubscriber_iff] at hidle
        cases hcall : subscribe e.call s e.list (normAddr e.mailFrom) .post false with
        | mk t result =>
          cases subscribe_requested h hcall with
          | inl hfail =>
            obtain ⟨rfl, err, rfl⟩ := hfail
            exact outcome_same t e
          | inr hreq =>
            obtain ⟨token, rfl, hreq⟩ := hreq
            exact .subscribe hkind hidle hreq
  | unsubscribe =>
    simp only
    split
    · exact outcome_same s e
    · cases hcall : unsubscribe e.call s e.list (normAddr e.mailFrom) false with
      | mk t result =>
        cases unsubscribe_requested h hcall with
        | inl hfail =>
          obtain ⟨rfl, err, rfl⟩ := hfail
          exact outcome_reply t e _ _ _
        | inr hreq =>
          obtain ⟨token, rfl, hreq⟩ := hreq
          exact .unsubscribe hkind hreq
  | confirm =>
    cases hcall : confirm e.lists e.call s e.cmd.token with
    | mk t result =>
      have hend : ∀ rcpt subject text, Outcome s e t ∧
          Outcome s e (send t rcpt (.reply subject text)) := by
        intro rcpt subject text
        cases confirm_settles h hcall with
        | inl hsame => rw [hsame]; exact ⟨outcome_same s e, outcome_reply s e _ _ _⟩
        | inr hset =>
          obtain ⟨r, hset⟩ := hset
          exact ⟨.settle hkind hset rfl fun _ _ => rfl,
            .settle hkind hset rfl fun _ _ => lastMailed_reply t _ _ _ _ _⟩
      cases result with
      | error err =>
        simp only
        split
        · exact (hend [] [] []).1
        · exact (hend _ _ _).2
      | ok what =>
        simp only
        split
        · exact (hend [] [] []).1
        · exact (hend _ _ _).2

theorem receives_of_subs (h : t.subs = s.subs) (roomNum : Nat) (address : Bytes) :
    receives t roomNum address ↔ receives s roomNum address :=
  receives_congr fun r _ _ => by rw [h]

/-- A polite command keeps the invariant and is consented to. -/
theorem handle_polite (h : Mailed s) {e : Event} (hpolite : Polite s e) :
    Mailed (handle s e) ∧ Consented s e := by
  have hout := handle_outcome h e
  generalize ht : handle s e = t at hout
  rw [Consented, ht]
  cases hout with
  | quiet hsubs hmail =>
    refine ⟨⟨by rw [hsubs]; exact h.unique, fun r hr htoken => ?_⟩,
      fun roomNum address => .inl (receives_of_subs hsubs roomNum address)⟩
    rw [hsubs] at hr
    rw [hmail]
    exact h.mailed r hr htoken
  | subscribe hkind hidle hreq =>
    rw [hpolite.1 (.inl hkind)] at hidle hreq
    exact ⟨hreq.mailed h true, fun roomNum address => .inl (hreq.receives_iff hidle _ _)⟩
  | unsubscribe hkind hreq =>
    have hidle := hpolite.2 hkind
    rw [hpolite.1 (.inr hkind)] at hreq
    exact ⟨hreq.mailed h false, fun roomNum address => .inl (hreq.receives_iff hidle _ _)⟩
  | @settle t' u r hkind hset hsubs hmail =>
    have hkept := hset.mailed h
    refine ⟨⟨by rw [hsubs]; exact hkept.unique, fun q hq htoken => ?_⟩, fun roomNum address => ?_⟩
    · rw [hsubs] at hq
      rw [hmail]
      exact hkept.mailed q hq htoken
    · by_cases hown : r.roomNum = roomNum ∧ r.address = address
      · right
        obtain ⟨rfl, rfl⟩ := hown
        refine ⟨hkind, ?_, r, hset.mem, rfl, rfl, hset.carried, hset.live⟩
        rw [← hset.carried]
        exact h.mailed r hset.mem hset.opened
      · left
        exact (receives_of_subs hsubs roomNum address).trans (hset.receives_iff hown)

/-! ## Runs -/

theorem mailed_handleAll (h : Mailed s) {es : List Event} (hpolite : RunPolite s es) :
    Mailed (handleAll s es) := by
  induction es generalizing s with
  | nil => exact h
  | cons e es ih =>
    refine ih (handle_polite h (hpolite [] e es rfl)).1 ?_
    intro before e' after heq
    exact hpolite (e :: before) e' after (by rw [heq]; rfl)

/-- In every run without a request to remove an active subscriber, who receives changes only
    by confirmations with the token last mailed to the address. -/
theorem receiving_needs_consent {s : Desk} (h : Mailed s) {es : List Event}
    (hpolite : RunPolite s es) : OwnerOnly s es := by
  intro before e after heq
  have hbefore : RunPolite s before := by
    intro before' e' after' heq'
    exact hpolite before' e' (after' ++ e :: after) (by rw [heq, heq']; simp)
  exact (handle_polite (mailed_handleAll h hbefore) (hpolite before e after heq)).2

theorem mailed_empty : Mailed ⟨[], [], []⟩ := ⟨by simp, by simp⟩

/-! ## A forged request -/

def someList : MailList :=
  { roomNum := 5, address := bytes "staff", displayName := [], enabled := true, mode := .post,
    postPolicy := .subscribers, replyToList := false, subjectTag := [], footer := [],
    digestIntervalSecs := 86400, digestMax := 50, lastSent := 0, lastDigest := 0,
    lastDigestAt := 0 }

def noLists : Tables :=
  { dir :=
      { store :=
          { messages := [], roomMsgs := [], tombstones := [], rooms := [], seq := 1, config := [],
            users := [], credentials := [], quotas := [] }
        labels := []
        userSeq := 1
        roomSeq := 1 }
    lists := [] }

def eventOf (now : Int) (cmd : Command) (mailFrom random : Bytes) : Event :=
  { lists := noLists
    call := ⟨now, bytes "example.org", random, true⟩
    list := someList
    cmd := cmd
    mailFrom := mailFrom }

/-- Ann asks to join and confirms. -/
def annJoins : List Event :=
  [eventOf 1 ⟨.subscribe, 5, []⟩ (bytes "Ann@x.org") (bytes "t0"),
    eventOf 2 ⟨.confirm, 5, bytes "t0"⟩ (bytes "Ann@x.org") []]

/-- Somebody asks for Ann to be removed. -/
def forgedRequest : Event :=
  eventOf 3 ⟨.unsubscribe, 5, []⟩ (bytes "ann@x.org") (bytes "t1")

theorem receives_iff_any : receives s roomNum address ↔
      (s.subs.any fun r => r.isAt roomNum address && r.state = .active) = true := by
  rw [receives_iff]
  simp

/-- The request alone takes Ann, an active subscriber, off the list. -/
theorem forged_request_silences : receives (handleAll ⟨[], [], []⟩ annJoins) 5 (bytes "ann@x.org") ∧
      ¬receives (handleAll ⟨[], [], []⟩ (annJoins ++ [forgedRequest])) 5 (bytes "ann@x.org") ∧
      ¬∀ s es, Mailed s → OwnerOnly s es := by
  have hbefore : receives (handleAll ⟨[], [], []⟩ annJoins) 5 (bytes "ann@x.org") := by
    rw [receives_iff_any]
    decide +kernel
  have hafter : ¬receives (handle (handleAll ⟨[], [], []⟩ annJoins) forgedRequest) 5
      (bytes "ann@x.org") := by
    rw [receives_iff_any]
    decide +kernel
  refine ⟨hbefore, hafter, fun hall => ?_⟩
  have hconsent := hall ⟨[], [], []⟩ (annJoins ++ [forgedRequest]) mailed_empty annJoins
    forgedRequest [] rfl 5 (bytes "ann@x.org")
  cases hconsent with
  | inl hsame => exact hafter (hsame.mpr hbefore)
  | inr hconfirm => exact absurd hconfirm.1 (by decide)

/-- Ann's own requests are consented to, and she receives after them. -/
theorem ann_consents : OwnerOnly ⟨[], [], []⟩ annJoins ∧
      receives (handleAll ⟨[], [], []⟩ annJoins) 5 (bytes "ann@x.org") := by
  constructor
  · refine receiving_needs_consent mailed_empty ?_
    intro before e after hsplit
    cases before with
    | nil =>
      obtain ⟨hfirst, -⟩ := List.cons.inj hsplit
      subst hfirst
      exact ⟨fun _ => by decide +kernel, fun hkind => absurd hkind (by decide)⟩
    | cons first before =>
      obtain ⟨hfirst, hrest⟩ := List.cons.inj hsplit
      cases before with
      | nil =>
        obtain ⟨hsecond, -⟩ := List.cons.inj hrest
        subst hsecond
        exact ⟨fun hkind => absurd hkind (by decide), fun hkind => absurd hkind (by decide)⟩
      | cons second before =>
        have := congrArg List.length hrest
        simp at this
  · rw [receives_iff_any]
    decide +kernel

end QuackMail.Listserv
