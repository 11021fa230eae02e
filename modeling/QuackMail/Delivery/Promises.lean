import QuackMail.Delivery.Replies

/-! # The promises of the replies

A reply of 2xx promises that the mail was not dropped for quota, a reply of 4xx or 5xx that a
retry duplicates nothing.  The listeners keep these promises for what the delivery decides: a
recipient is full when all its destinations are, and what was forwarded, held, executed or
redirected before the verdict is not taken back.
-/

namespace QuackMail.Delivery

open Citadel Listserv

section Promises

variable (o : Outside) (fails : Nat → Nat → Bool) (knobs : Knobs) (mailFrom stored body : Bytes)
  (rcpts : List Recipient) (site : Site)

/-! ## The MX listener -/

/-- A reply of 2xx drops nothing for quota, and one of 4xx or 5xx has done nothing. -/
def MxTruthful : Prop :=
  let d := dispatch o fails knobs mailFrom stored body rcpts site
  let answer := mxAnswer d.outcome rcpts
  (answer.accepts = true → ∀ r ∈ rcpts, ∀ dest ∈ r.destinations, dest ∉ d.outcome.overQuota) ∧
    (answer.refuses = true → NothingStored site d.site ∧ d.site.outbound = site.outbound ∧
      d.held = [] ∧ d.commands = [])

/-- What the reply of the MX listener does promise. -/
structure MxPromise : Prop where
  accepted : (mxAnswer (dispatch o fails knobs mailFrom stored body rcpts site).outcome
      rcpts).accepts = true →
    (dispatch o fails knobs mailFrom stored body rcpts site).outcome.ok = true ∧
      (dispatch o fails knobs mailFrom stored body rcpts site).outcome.rejected = [] ∧
      (rcpts ≠ [] → ∃ r ∈ rcpts, r.destinations = [] ∨ ∃ dest ∈ r.destinations,
        dest ∉ (dispatch o fails knobs mailFrom stored body rcpts site).outcome.overQuota)
  deferred : (mxAnswer (dispatch o fails knobs mailFrom stored body rcpts site).outcome
      rcpts).code / 100 = 4 →
    NothingStored site (dispatch o fails knobs mailFrom stored body rcpts site).site
  bounced : (mxAnswer (dispatch o fails knobs mailFrom stored body rcpts site).outcome
      rcpts).code / 100 = 5 →
    (∀ dest ∈ targetsOf rcpts, DestRefused o knobs mailFrom stored rcpts site dest) →
    (∀ r ∈ rcpts, r.rooms = []) →
    NothingStored site (dispatch o fails knobs mailFrom stored body rcpts site).site
  settled : (mxAnswer (dispatch o fails knobs mailFrom stored body rcpts site).outcome
      rcpts).refuses = true →
    (∀ r ∈ rcpts, r.Ordinary) →
    (dispatch o fails knobs mailFrom stored body rcpts site).held = [] ∧
      (dispatch o fails knobs mailFrom stored body rcpts site).commands = []
  unsent : (mxAnswer (dispatch o fails knobs mailFrom stored body rcpts site).outcome
      rcpts).refuses = true →
    (∀ r ∈ rcpts, r.Ordinary) →
    ((mxAnswer (dispatch o fails knobs mailFrom stored body rcpts site).outcome rcpts).code = 452 ∨
      ∀ address k dest, ¬Redirects o knobs mailFrom stored rcpts site address k dest) →
    (dispatch o fails knobs mailFrom stored body rcpts site).site.outbound = site.outbound

/-! ## The LMTP listener -/

/-- A copy of the message that is in a room of a destination's user belongs to another
    recipient. -/
def OthersCopy (r : Recipient) : Prop :=
  ∀ dest ∈ r.destinations, ∀ msgnum room,
    (dispatch o fails knobs mailFrom stored body rcpts site).outcome.msgnum = some msgnum →
    messageInRoom (dispatch o fails knobs mailFrom stored body rcpts site).site.dir.store room
      msgnum = true →
    Owns (dispatch o fails knobs mailFrom stored body rcpts site).site.dir (localPart dest) room →
    (∃ other ∈ targetsOf rcpts, other ∉ r.destinations ∧ localPart other = localPart dest) ∨
      ∃ r' ∈ rcpts, ∃ n ∈ r'.rooms, 0 ≤ n ∧ Owns site.dir (localPart dest) n.toNat

/-- The rows that were enqueued are those of other recipients than recipient `i`. -/
def OthersRows (i : Nat) (r : Recipient) : Prop :=
  ∃ rows, (dispatch o fails knobs mailFrom stored body rcpts site).site.outbound =
      site.outbound ++ rows ∧
    ∀ row ∈ rows,
      (∃ (j : Nat) (r' : Recipient), j ≠ i ∧ rcpts[j]? = some r' ∧
        row ∈ forwardRows fails mailFrom stored j r') ∨
      ∃ (k : Nat) (dest : Bytes), dest ∉ r.destinations ∧
        Redirects o knobs mailFrom stored rcpts site row.rcpt k dest

/-- The same of every recipient and its own reply. -/
def LmtpTruthful : Prop :=
  let d := dispatch o fails knobs mailFrom stored body rcpts site
  ∀ (i : Nat) (r : Recipient), rcpts[i]? = some r →
    ((lmtpAnswer d.outcome r).accepts = true →
      ∀ dest ∈ r.destinations, dest ∉ d.outcome.overQuota) ∧
    ((lmtpAnswer d.outcome r).refuses = true →
      OthersCopy o fails knobs mailFrom stored body rcpts site r ∧
        OthersRows o fails knobs mailFrom stored body rcpts site i r ∧
        r.holds mailFrom stored = [] ∧ r.executes mailFrom body = [])

/-- What the reply of the LMTP listener to recipient `i` does promise. -/
structure LmtpPromise (i : Nat) (r : Recipient) : Prop where
  named : ∃ answer,
    (lmtpAnswers (dispatch o fails knobs mailFrom stored body rcpts site).outcome rcpts)[i]? =
        some answer ∧
      answer = lmtpAnswer (dispatch o fails knobs mailFrom stored body rcpts site).outcome r ∧
      bytes "<" ++ r.envelope ++ bytes "> " <+: answer.text.drop 6
  accepted : (lmtpAnswer (dispatch o fails knobs mailFrom stored body rcpts site).outcome
      r).accepts = true →
    (dispatch o fails knobs mailFrom stored body rcpts site).outcome.ok = true ∧
      (r.destinations = [] ∨ ∃ dest ∈ r.destinations,
        dest ∉ (dispatch o fails knobs mailFrom stored body rcpts site).outcome.overQuota)
  failed : (lmtpAnswer (dispatch o fails knobs mailFrom stored body rcpts site).outcome
      r).code = 451 →
    NothingStored site (dispatch o fails knobs mailFrom stored body rcpts site).site
  refused : (lmtpAnswer (dispatch o fails knobs mailFrom stored body rcpts site).outcome
      r).refuses = true →
    OthersCopy o fails knobs mailFrom stored body rcpts site r ∧
      ((lmtpAnswer (dispatch o fails knobs mailFrom stored body rcpts site).outcome
        r).code ≠ 451 → r.rooms = [])
  settled : r.Ordinary → r.holds mailFrom stored = [] ∧ r.executes mailFrom body = []
  unsent : (lmtpAnswer (dispatch o fails knobs mailFrom stored body rcpts site).outcome
      r).refuses = true →
    r.Ordinary →
    ((lmtpAnswer (dispatch o fails knobs mailFrom stored body rcpts site).outcome r).code ≠ 451 ∨
      ∀ address k, ∀ dest ∈ r.destinations,
        ¬Redirects o knobs mailFrom stored rcpts site address k dest) →
    OthersRows o fails knobs mailFrom stored body rcpts site i r

end Promises

/-! ## The submission listener -/

section Submission

variable (o : Outside) (fails : Nat → Bool) (fqdn mailFrom full : Bytes) (rcpts : List Bytes)
  (site : Site)

/-- The options of `submission::Send`. -/
def sendOptions : Options := ⟨[], [], [], bytes "+", false⟩

/-- A refusal has done nothing. -/
def SubmissionTruthful : Prop :=
  let sent := sendMessage o fails fqdn mailFrom full rcpts site
  (submissionAnswer sent.2).refuses = true →
    NothingStored site sent.1 ∧ sent.1.outbound = site.outbound

/-- What a refusal of the submission listener does promise. -/
structure SubmissionPromise : Prop where
  failed : (submissionAnswer (sendMessage o fails fqdn mailFrom full rcpts site).2).refuses = true →
    NothingStored site (sendMessage o fails fqdn mailFrom full rcpts site).1
  unqueued : (submissionAnswer (sendMessage o fails fqdn mailFrom full rcpts site).2).refuses =
      true →
    (∀ rcpt ∈ rcpts, isLocalUser site.dir fqdn rcpt = true) →
    (∀ (address : Bytes) (k : Nat) (dest : Bytes), rcpts[k]? = some dest →
      ¬Enqueues o mailFrom full sendOptions address k site dest) →
    (sendMessage o fails fqdn mailFrom full rcpts site).1.outbound = site.outbound

end Submission

/-! ## Proofs -/

section Proofs

variable {o : Outside} {fails : Nat → Nat → Bool} {knobs : Knobs} {mailFrom stored body : Bytes}
  {rcpts : List Recipient} {site : Site}

variable {r : Recipient}

/-- Every destination of a recipient that is full, or that every filter rejects, is refused. -/
theorem refused_of_overQuotaFor (hsound : Sound site.dir)
    (h : overQuotaFor (dispatch o fails knobs mailFrom stored body rcpts site).outcome r = true) :
    r.destinations ≠ [] ∧
      ∀ dest ∈ r.destinations, DestRefused o knobs mailFrom stored rcpts site dest := by
  obtain ⟨hne, hall⟩ := overQuotaFor_iff.mp h
  exact ⟨hne, fun dest hdest => dispatch_listed hsound (.inl (hall dest hdest))⟩

theorem refused_of_rejectReason (hsound : Sound site.dir)
    (h : rejectReason (dispatch o fails knobs mailFrom stored body rcpts site).outcome r ≠ []) :
    r.destinations ≠ [] ∧
      ∀ dest ∈ r.destinations, DestRefused o knobs mailFrom stored rcpts site dest := by
  obtain ⟨hne, hall⟩ := rejectReason_ne h
  exact ⟨hne, fun dest hdest => dispatch_listed hsound (.inr (hall dest hdest))⟩

/-- Where all recipients are full, every destination is refused and there is no room. -/
theorem refused_of_allFull (hsound : Sound site.dir) (haccepted : ∀ r ∈ rcpts, Accepted r)
    (h : ∀ r ∈ rcpts,
      overQuotaFor (dispatch o fails knobs mailFrom stored body rcpts site).outcome r = true) :
    (∀ dest ∈ targetsOf rcpts, DestRefused o knobs mailFrom stored rcpts site dest) ∧
      ∀ r ∈ rcpts, r.rooms = [] := by
  constructor
  · intro dest hdest
    obtain ⟨r, hr, hdest⟩ := List.mem_flatMap.mp hdest
    exact (refused_of_overQuotaFor hsound (h r hr)).2 dest hdest
  · intro r hr
    exact (haccepted r hr).rooms (refused_of_overQuotaFor hsound (h r hr)).1

theorem not_full {out : Outcome} (h : ¬overQuotaFor out r = true) :
    r.destinations = [] ∨ ∃ dest ∈ r.destinations, dest ∉ out.overQuota := by
  rw [overQuotaFor_iff] at h
  by_contra hnot
  rw [not_or] at hnot
  refine h ⟨hnot.1, fun dest hdest => ?_⟩
  by_contra hin
  exact hnot.2 ⟨dest, hdest, hin⟩

theorem mxPromise (hsound : Sound site.dir) (haccepted : ∀ r ∈ rcpts, Accepted r) :
    MxPromise o fails knobs mailFrom stored body rcpts site := by
  have hcases := mxAnswer_cases
    (dispatch o fails knobs mailFrom stored body rcpts site).outcome rcpts
  constructor
  · intro haccepts
    rw [Answer.accepts, decide_eq_true_eq] at haccepts
    rcases hcases with ⟨hcode, -⟩ | ⟨hcode, -⟩ | ⟨hcode, -⟩ | ⟨-, hok, hrejected, hnot⟩
    · omega
    · omega
    · omega
    · refine ⟨hok, hrejected, fun hne => ?_⟩
      by_contra hnone
      refine hnot ⟨hne, fun r hr => ?_⟩
      by_contra hroom
      exact hnone ⟨r, hr, not_full hroom⟩
  · intro hcode4
    rcases hcases with ⟨-, hfailed⟩ | ⟨-, -, -, hfull⟩ | ⟨hcode, -⟩ | ⟨hcode, -⟩
    · exact dispatch_failed hsound hfailed
    · obtain ⟨hrefused, hrooms⟩ := refused_of_allFull hsound haccepted hfull
      exact dispatch_refused hsound hrefused hrooms
    · omega
    · omega
  · exact fun _ hrefused hrooms => dispatch_refused hsound hrefused hrooms
  · exact fun _ hordinary => held_of_ordinary hordinary
  · intro _ hordinary hcode
    refine outbound_of_ordinary hsound hordinary fun address k dest hredirects => ?_
    cases hcode with
    | inr hnone => exact hnone address k dest hredirects
    | inl hcode452 =>
      -- with 452 every destination is full, so no filter was run
      rcases hcases with ⟨hcode, -⟩ | ⟨-, -, -, hfull⟩ | ⟨hcode, -⟩ | ⟨hcode, -⟩
      · omega
      · exact ((refused_of_allFull hsound haccepted hfull).1 dest
          (List.mem_iff_getElem?.mpr ⟨k, hredirects.1⟩)).not_redirects address k hredirects
      · omega
      · omega

/-- A recipient that is not answered with 451 is refused in all its destinations. -/
theorem lmtp_refused (hsound : Sound site.dir)
    (hrefuses : (lmtpAnswer (dispatch o fails knobs mailFrom stored body rcpts site).outcome
      r).refuses = true)
    (hcode : (lmtpAnswer (dispatch o fails knobs mailFrom stored body rcpts site).outcome
      r).code ≠ 451) :
    r.destinations ≠ [] ∧
      ∀ dest ∈ r.destinations, DestRefused o knobs mailFrom stored rcpts site dest := by
  rw [Answer.refuses, Bool.or_eq_true, decide_eq_true_eq, decide_eq_true_eq] at hrefuses
  rcases lmtpAnswer_cases (dispatch o fails knobs mailFrom stored body rcpts site).outcome r with
    ⟨hcode', -⟩ | ⟨-, -, hfull⟩ | ⟨-, -, hreason⟩ | ⟨hcode', -⟩
  · exact absurd hcode' hcode
  · exact refused_of_overQuotaFor hsound hfull
  · exact refused_of_rejectReason hsound hreason
  · omega

theorem lmtp_failed
    (hcode : (lmtpAnswer (dispatch o fails knobs mailFrom stored body rcpts site).outcome
      r).code = 451) :
    (dispatch o fails knobs mailFrom stored body rcpts site).outcome.ok = false := by
  rcases lmtpAnswer_cases (dispatch o fails knobs mailFrom stored body rcpts site).outcome r with
    ⟨-, hfailed⟩ | ⟨hcode', -⟩ | ⟨hcode', -⟩ | ⟨hcode', -⟩
  · exact hfailed
  · omega
  · omega
  · omega

theorem lmtpPromise (hsound : Sound site.dir) (haccepted : ∀ r ∈ rcpts, Accepted r) {i : Nat}
    (hi : rcpts[i]? = some r) :
    LmtpPromise o fails knobs mailFrom stored body rcpts site i r := by
  have hr : r ∈ rcpts := List.mem_iff_getElem?.mpr ⟨i, hi⟩
  constructor
  · exact ⟨_, by rw [lmtpAnswers, List.getElem?_map, hi]; rfl, rfl, lmtpAnswer_names _ r⟩
  · intro haccepts
    rw [Answer.accepts, decide_eq_true_eq] at haccepts
    rcases lmtpAnswer_cases (dispatch o fails knobs mailFrom stored body rcpts site).outcome r with
      ⟨hcode, -⟩ | ⟨hcode, -⟩ | ⟨hcode, -⟩ | ⟨-, hok, hroom⟩
    · omega
    · omega
    · omega
    · exact ⟨hok, not_full (by rw [hroom]; decide)⟩
  · exact fun hcode => dispatch_failed hsound (lmtp_failed hcode)
  · intro hrefuses
    constructor
    · intro dest hdest msgnum room hnum hin howns
      by_cases hcode : (lmtpAnswer (dispatch o fails knobs mailFrom stored body rcpts site).outcome
          r).code = 451
      · have hfailed := lmtp_failed hcode
        rw [dispatch_ok_of_msgnum hnum] at hfailed
        cases hfailed
      · exact dispatch_owner hsound (lmtp_refused hsound hrefuses hcode).2 hnum hin howns
    · exact fun hcode => (haccepted r hr).rooms (lmtp_refused hsound hrefuses hcode).1
  · exact fun hordinary => hordinary.nothing mailFrom stored body
  · intro hrefuses hordinary hcode
    have hnone : ∀ address k, ∀ dest ∈ r.destinations,
        ¬Redirects o knobs mailFrom stored rcpts site address k dest := by
      cases hcode with
      | inl hcode => exact fun address k dest hdest =>
          ((lmtp_refused hsound hrefuses hcode).2 dest hdest).not_redirects address k
      | inr hnone => exact hnone
    obtain ⟨rows, hrows, hall⟩ :=
      @dispatch_rows o fails knobs mailFrom stored body rcpts site hsound
    refine ⟨rows, hrows, fun row hrow => ?_⟩
    cases hall row hrow with
    | inl hforward =>
      obtain ⟨j, r', hj, hrow⟩ := hforward
      refine .inl ⟨j, r', ?_, hj, hrow⟩
      rintro rfl
      rw [hi] at hj
      rw [← Option.some.inj hj, hordinary.forwardRows] at hrow
      cases hrow
    | inr hredirect =>
      obtain ⟨k, dest, hredirect⟩ := hredirect
      exact .inr ⟨k, dest, fun hdest => hnone row.rcpt k dest hdest hredirect, hredirect⟩

end Proofs

theorem submissionPromise {o : Outside} {fails : Nat → Bool} {fqdn mailFrom full : Bytes}
    {rcpts : List Bytes} {site : Site} (hsound : Sound site.dir) :
    SubmissionPromise o fails fqdn mailFrom full rcpts site := by
  have hfailed : (submissionAnswer (sendMessage o fails fqdn mailFrom full rcpts site).2).refuses =
      true → (sendMessage o fails fqdn mailFrom full rcpts site).2.ok = false := by
    intro hrefuses
    by_contra hok
    rw [submissionAnswer, if_pos (by simpa using hok)] at hrefuses
    cases hrefuses
  constructor
  · intro hrefuses
    have hnot := hfailed hrefuses
    rw [sendMessage] at hnot ⊢
    split at hnot
    · cases hnot
    · next hsome =>
      rw [if_neg hsome]
      exact nothingStored_of_failed o _ mailFrom _ full _ hsound hnot
  · intro hrefuses hlocal hredirects
    have hqueued : (rcpts.zipIdx.filterMap fun r =>
        if isLocalUser site.dir fqdn r.1 || fails r.2 then none
        else some (⟨mailFrom, r.1, full⟩ : Outbound)) = [] := by
      rw [List.filterMap_eq_nil_iff]
      rintro ⟨rcpt, k⟩ hin
      rw [hlocal rcpt (List.mem_iff_getElem?.mpr ⟨k, List.mem_zipIdx_iff_getElem?.mp hin⟩)]
      rfl
    have hall : rcpts.filter (isLocalUser site.dir fqdn) = rcpts :=
      List.filter_eq_self.mpr hlocal
    rw [sendMessage]
    rw [hqueued, hall, List.append_nil]
    split
    · rfl
    · obtain ⟨-, -, -, houtbound⟩ := localDeliver_frame o site mailFrom rcpts full sendOptions
      have hrows : ∀ row, row ∉ (turns o sendOptions mailFrom full 0 site rcpts).2.flatMap fun t =>
          queuedIn mailFrom full t.steps := by
        intro row hrow
        obtain ⟨k, dest, hk, henqueues⟩ :=
          redirect_of_row o site mailFrom rcpts full sendOptions hsound hrow
        exact hredirects row.rcpt k dest hk henqueues
      rw [List.eq_nil_iff_forall_not_mem.mpr hrows, List.append_nil] at houtbound
      exact houtbound

/-- What every reply of the three listeners promises. -/
theorem replies_promise (o : Outside) (fails : Nat → Nat → Bool) (knobs : Knobs)
    (mailFrom stored body : Bytes) (rcpts : List Recipient) (site : Site)
    (hsound : Sound site.dir) (haccepted : ∀ r ∈ rcpts, Accepted r) :
    MxPromise o fails knobs mailFrom stored body rcpts site ∧
      ((lmtpAnswers (dispatch o fails knobs mailFrom stored body rcpts site).outcome rcpts).length =
          rcpts.length ∧
        ∀ (i : Nat) (r : Recipient), rcpts[i]? = some r →
          LmtpPromise o fails knobs mailFrom stored body rcpts site i r) ∧
      ∀ (sendFails : Nat → Bool) (fqdn full : Bytes) (addresses : List Bytes),
        SubmissionPromise o sendFails fqdn mailFrom full addresses site :=
  ⟨mxPromise hsound haccepted, ⟨List.length_map _, fun _ _ hi => lmtpPromise hsound haccepted hi⟩,
    fun _ _ _ _ => submissionPromise hsound⟩

/-! ## Transactions -/

/-- Routing at a site without lists and rooms. -/
def frontDesk (aliases : List Policy.Alias) (site : Site) : Routing where
  aliases := aliases
  lists := ⟨site.dir, []⟩
  desk := ⟨[], [], []⟩
  fqdn := bytes "x"
  listserv := true
  roomMail := false
  subaddressSep := []
  isLocalDomain := fun _ => true
  resolveMailRoom := fun _ => -1

/-- A recipient with a mailbox of its own. -/
def mailbox (address : Bytes) : Recipient := ⟨address, [address], [], [], [], none, false⟩

/-- No listener's folder and no subaddresses. -/
def noKnobs : Knobs := ⟨[], [], false⟩

/-- A message for two mailboxes keeps every promise. -/
theorem replies_promise_office : MxPromise plain (fun _ _ => false) noKnobs (bytes "s@z") hello []
        [mailbox (bytes "alice@x"), mailbox (bytes "bob@x")] office ∧
      ((lmtpAnswers (dispatch plain (fun _ _ => false) noKnobs (bytes "s@z") hello []
          [mailbox (bytes "alice@x"), mailbox (bytes "bob@x")] office).outcome
            [mailbox (bytes "alice@x"), mailbox (bytes "bob@x")]).length = 2 ∧
        ∀ (i : Nat) (r : Recipient),
          [mailbox (bytes "alice@x"), mailbox (bytes "bob@x")][i]? = some r →
          LmtpPromise plain (fun _ _ => false) noKnobs (bytes "s@z") hello []
            [mailbox (bytes "alice@x"), mailbox (bytes "bob@x")] office i r) ∧
      ∀ (sendFails : Nat → Bool) (fqdn full : Bytes) (addresses : List Bytes),
        SubmissionPromise plain sendFails fqdn (bytes "s@z") full addresses office := by
  have haccepted : ∀ r ∈ [mailbox (bytes "alice@x"), mailbox (bytes "bob@x")], Accepted r := by
    intro r hr
    cases List.mem_pair.mp hr with
    | inl h => exact ⟨frontDesk [] office, bytes "s@z", bytes "alice@x", by rw [h]; decide +kernel⟩
    | inr h => exact ⟨frontDesk [] office, bytes "s@z", bytes "bob@x", by rw [h]; decide +kernel⟩
  exact replies_promise plain (fun _ _ => false) noKnobs (bytes "s@z") hello [] _ office
    office_sound haccepted

/-- The office, with a quota for alice that any message exceeds. -/
def fullOffice : Site :=
  { office with dir := { office.dir with
      store := { office.dir.store with quotas := [⟨bytes "alice", 1, true⟩] } } }

/-- The office, with a script for alice. -/
def filteredOffice : Site := { office with scripts := [(bytes "alice", bytes "stop;")] }

/-- The office, with a room for a list. -/
def newsOffice : Site :=
  { office with dir := { office.dir with
      store := { office.dir.store with rooms := [⟨7, 0, 0, 0, 0, 0⟩] }
      labels := [⟨7, bytes "News", bytes "News", []⟩] } }

def newsList : MailList :=
  ⟨7, bytes "news", bytes "News", true, .post, .anyone, false, [], [], 0, 0, 0, 0, 0⟩

/-- The insert fails. -/
def noDisk : Outside :=
  { plain with world := { plain.world with fault := fun _ => some (bytes "disk") } }

/-- An alias for alice and for an address elsewhere. -/
def team : Recipient := ⟨bytes "team@x", [bytes "alice@x"], [bytes "out@y"], [], [], none, false⟩

/-- An alias for alice and bob. -/
def pair : Recipient :=
  ⟨bytes "pair@x", [bytes "alice@x", bytes "bob@x"], [], [], [], none, false⟩

def subscriber : Recipient :=
  ⟨bytes "news-subscribe@x", [], [], [], [], some (newsList, ⟨.subscribe, 7, []⟩), false⟩

def officeAliases : List Policy.Alias :=
  [⟨bytes "team@x", bytes "alice@x", true⟩, ⟨bytes "team@x", bytes "out@y", true⟩,
    ⟨bytes "pair@x", bytes "alice@x", true⟩, ⟨bytes "pair@x", bytes "bob@x", true⟩]

theorem accepted_office :
    ∀ r ∈ [mailbox (bytes "alice@x"), mailbox (bytes "bob@x"), team, pair], Accepted r := by
  have hroute : ∀ r ∈ [mailbox (bytes "alice@x"), mailbox (bytes "bob@x"), team, pair],
      route (frontDesk officeAliases office) (bytes "s@z") r.envelope = .ok r := by
    decide +kernel
  exact fun r hr => ⟨frontDesk officeAliases office, bytes "s@z", r.envelope, hroute r hr⟩

/-- One recipient that is full beside one that is not, behind 250; a forward, a list command
    and a redirect behind 451; a copy for bob behind 550; a full destination beside one that
    is not, behind 250; and a remote recipient that is enqueued behind 451. -/
theorem replies_untruthful :
    ¬(∀ (o : Outside) (fails : Nat → Nat → Bool) (knobs : Knobs) (mailFrom stored body : Bytes)
        (rcpts : List Recipient) (site : Site), (∀ r ∈ rcpts, Accepted r) →
        MxTruthful o fails knobs mailFrom stored body rcpts site ∧
          LmtpTruthful o fails knobs mailFrom stored body rcpts site ∧
          ∀ (sendFails : Nat → Bool) (fqdn full : Bytes) (addresses : List Bytes),
            SubmissionTruthful o sendFails fqdn mailFrom full addresses site) ∧
      ¬MxTruthful plain (fun _ _ => false) noKnobs (bytes "s@z") hello []
        [mailbox (bytes "alice@x"), mailbox (bytes "bob@x")] fullOffice ∧
      ¬MxTruthful noDisk (fun _ _ => false) noKnobs (bytes "s@z") hello [] [team] office ∧
      ¬MxTruthful noDisk (fun _ _ => false) noKnobs (bytes "s@z") hello []
        [subscriber, mailbox (bytes "alice@x")] newsOffice ∧
      ¬MxTruthful
        { noDisk with interpret := fun _ _ _ _ => .ok ([.redirect (bytes "out@y")], false) }
        (fun _ _ => false) noKnobs (bytes "s@z") hello [] [mailbox (bytes "alice@x")]
        filteredOffice ∧
      ¬MxTruthful { plain with interpret := fun _ _ _ _ => .ok ([.reject (bytes "no")], true) }
        (fun _ _ => false) noKnobs (bytes "s@z") hello []
        [mailbox (bytes "alice@x"), mailbox (bytes "bob@x")] filteredOffice ∧
      ¬LmtpTruthful plain (fun _ _ => false) noKnobs (bytes "s@z") hello [] [pair] fullOffice ∧
      ¬LmtpTruthful noDisk (fun _ _ => false) noKnobs (bytes "s@z") hello []
        [subscriber, team] newsOffice ∧
      ¬SubmissionTruthful noDisk (fun _ => false) (bytes "x") (bytes "s@z") hello
        [bytes "alice@x", bytes "out@y"] office := by
  have hquota : ¬MxTruthful plain (fun _ _ => false) noKnobs (bytes "s@z") hello []
      [mailbox (bytes "alice@x"), mailbox (bytes "bob@x")] fullOffice := by
    intro h
    exact h.1 (by decide +kernel) (mailbox (bytes "alice@x")) List.mem_cons_self (bytes "alice@x")
      List.mem_cons_self (by decide +kernel)
  refine ⟨fun h => hquota ?_, hquota, ?_, ?_, ?_, ?_, ?_, ?_, ?_⟩
  · refine (h plain (fun _ _ => false) noKnobs (bytes "s@z") hello [] _ fullOffice fun r hr =>
      accepted_office r ?_).1
    cases List.mem_pair.mp hr with
    | inl h => exact h ▸ List.mem_cons_self
    | inr h => exact h ▸ List.mem_cons_of_mem _ List.mem_cons_self
  · intro h
    exact absurd (h.2 (by decide +kernel)).2.1 (by decide +kernel)
  · intro h
    exact absurd (h.2 (by decide +kernel)).2.2.2 (by decide +kernel)
  · intro h
    exact absurd (h.2 (by decide +kernel)).2.1 (by decide +kernel)
  · intro h
    exact absurd (h.2 (by decide +kernel)).1.2 (by decide +kernel)
  · intro h
    exact (h 0 pair rfl).1 (by decide +kernel) (bytes "alice@x") List.mem_cons_self
      (by decide +kernel)
  · intro h
    have hexecutes := ((h 0 subscriber rfl).2 (by decide +kernel)).2.2.2
    exact absurd hexecutes (by decide +kernel)
  · intro h
    exact absurd (h (by decide +kernel)).2 (by decide +kernel)

end QuackMail.Delivery
