import QuackMail.Delivery.Inbound
import QuackMail.Delivery.Outcome

/-! # What a reply tells the sender

The three listeners fold the verdicts of one delivery into their replies.  A reply that
defers or refuses speaks of the delivery: forwards, posts that are held and list commands
were done before it, and a redirect of a filter is enqueued in the middle of it.
-/

namespace QuackMail.Delivery

open Citadel Listserv

/-! ## Recipients that `RCPT` accepts -/

/-- `RCPT` has answered 250 for the recipient. -/
def Accepted (r : Recipient) : Prop := ∃ rt mailFrom rcpt, route rt mailFrom rcpt = .ok r

/-- The delivery alone serves the recipient. -/
def Recipient.Ordinary (r : Recipient) : Prop :=
  r.forwards = [] ∧ ∀ l cmd, r.list = some (l, cmd) → cmd.kind = .post ∧ r.listHold = false

theorem routeList_destinations (rt : Routing) (mailFrom : Bytes) (r : Recipient) :
    (routeList rt mailFrom r).destinations = r.destinations := by
  rw [routeList]
  split
  · split
    · rfl
    · split
      · split <;> rfl
      · rfl
  · rfl

theorem routeRoom_destinations (rt : Routing) (r : Recipient) :
    (routeRoom rt r).destinations = r.destinations := by
  rw [routeRoom]
  split
  · dsimp only
    split
    · split <;> rfl
    · split <;> rfl
  · rfl

theorem routeDetail_rooms (rt : Routing) (r : Recipient) : (routeDetail rt r).rooms = r.rooms := by
  rw [routeDetail]
  dsimp only
  split
  · rfl
  · split <;> split <;> rfl

variable {r : Recipient}

/-- A recipient that resolves to a room has no local users. -/
theorem Accepted.rooms (h : Accepted r) (hdest : r.destinations ≠ []) : r.rooms = [] := by
  obtain ⟨rt, mailFrom, rcpt, hroute⟩ := h
  have hr : resolve rt mailFrom rcpt = r := by
    rw [route] at hroute
    dsimp only at hroute
    split at hroute
    · cases hroute
    · split at hroute
      · cases hroute
      · split at hroute
        · cases hroute
        · exact Except.ok.inj hroute
  rw [← hr, resolve] at hdest ⊢
  dsimp only at hdest ⊢
  by_cases hrooms :
      (routeRoom rt (routeList rt mailFrom ⟨rcpt, [], [], [], [], none, false⟩)).rooms = []
  · rw [if_pos hrooms]
    split
    · exact hrooms
    · rw [routeDetail_rooms]
      exact hrooms
  · rw [if_neg hrooms, routeRoom_destinations, routeList_destinations] at hdest
    exact absurd rfl hdest

theorem Recipient.Ordinary.nothing (h : r.Ordinary) (mailFrom stored body : Bytes) :
    r.holds mailFrom stored = [] ∧ r.executes mailFrom body = [] := by
  rw [Recipient.holds, Recipient.executes]
  cases hlist : r.list with
  | none => exact ⟨rfl, rfl⟩
  | some entry =>
    obtain ⟨l, cmd⟩ := entry
    obtain ⟨hpost, hhold⟩ := h.2 l cmd hlist
    exact ⟨if_neg (by simp [hhold]), if_pos hpost⟩

theorem Recipient.Ordinary.forwardRows (h : r.Ordinary)
    (fails : Nat → Nat → Bool) (mailFrom stored : Bytes) (i : Nat) :
    forwardRows fails mailFrom stored i r = [] := by
  rw [Delivery.forwardRows, h.1]
  rfl

/-! ## One delivery -/

/-- No copy of the message is in the store that was not there. -/
def NothingStored (site site' : Site) : Prop :=
  site'.dir.store.messages = site.dir.store.messages ∧
    site'.dir.store.roomMsgs = site.dir.store.roomMsgs

section Delivery

variable (o : Outside) (site : Site) (mailFrom : Bytes) (rcpts : List Bytes) (body : Bytes)
  (opts : Options)

/-- Every turn of a recipient comes to the same. -/
theorem kept_iff (hsound : Sound site.dir) (rcpts : List Bytes) :
    ∀ (i : Nat) (site' : Site), Sound site'.dir → Extends site.dir site'.dir →
      site'.scripts = site.scripts → ∀ t ∈ (turns o opts mailFrom body i site' rcpts).2,
        (t.kept = false ↔ Refused o site mailFrom body opts t.rcpt) := by
  induction rcpts with
  | nil =>
    intro i site' _ _ _ t ht
    cases ht
  | cons rcpt rcpts ih =>
    intro i site' hsound' hext hscripts t ht
    obtain ⟨hdid, hrcpt⟩ := turn_did o opts mailFrom body site' i rcpt
    obtain ⟨hsound'', hext', -⟩ := hdid.dir hsound'
    cases List.mem_cons.mp ht with
    | inl heq =>
      rw [heq, hrcpt, turn_kept,
        refused_later mailFrom body hsound hsound' hext hscripts]
    | inr hin => exact ih (i + 1) _ hsound'' (hext.trans hext') (hdid.scripts.trans hscripts) t hin

theorem steps_of_not_kept {t : Turn} (h : t.kept = false) : t.steps = [] := by
  cases hverdict : t.verdict with
  | kept steps =>
    rw [Turn.kept, hverdict] at h
    cases h
  | overQuota => rw [Turn.steps, hverdict]
  | rejected reason => rw [Turn.steps, hverdict]
  | discarded => rw [Turn.steps, hverdict]

/-- A recipient that the outcome lists is refused. -/
theorem refused_of_listed (hsound : Sound site.dir) {rcpt : Bytes}
    (h : rcpt ∈ (localDeliver o site mailFrom rcpts body opts).2.overQuota ∨
      rcpt ∈ (localDeliver o site mailFrom rcpts body opts).2.rejected.map Prod.fst) :
    Refused o site mailFrom body opts rcpt := by
  obtain ⟨hquota, hrejected, -, -⟩ := localDeliver_frame o site mailFrom rcpts body opts
  rw [hquota, hrejected] at h
  obtain ⟨t, ht, rfl, hkept⟩ := listed_iff.mp (h.imp id .inl)
  exact (kept_iff o site mailFrom body opts hsound rcpts 0 site hsound (.refl _) rfl t ht).mp hkept

/-- A delivery that fails stores nothing. -/
theorem nothingStored_of_failed (hsound : Sound site.dir)
    (hfailed : (localDeliver o site mailFrom rcpts body opts).2.ok = false) :
    NothingStored site (localDeliver o site mailFrom rcpts body opts).1 := by
  obtain ⟨hdid, -⟩ := turns_did o opts mailFrom body rcpts 0 site
  obtain ⟨-, hext, -⟩ := hdid.dir hsound
  rw [localDeliver] at hfailed ⊢
  by_cases hrooms : roomsOf opts (turns o opts mailFrom body 0 site rcpts).2 = []
  · simp only [if_pos hrooms] at hfailed
    cases hfailed
  · simp only [if_neg hrooms] at hfailed ⊢
    cases hinsert : insertMessage o.world (turns o opts mailFrom body 0 site rcpts).1.dir.store
        (compose o mailFrom body rcpts)
        (roomsOf opts (turns o opts mailFrom body 0 site rcpts).2) with
    | mk store answer =>
      rw [hinsert] at hfailed
      cases answer with
      | ok msgnum => cases hfailed
      | error err =>
        obtain ⟨-, rfl⟩ | ⟨-, rfl⟩ := insertMessage_refused hinsert
        · exact ⟨hext.messages, hext.roomMsgs⟩
        · exact ⟨hext.messages, hext.roomMsgs⟩

/-- A delivery that refuses everybody, and is given no room, stores nothing. -/
theorem nothingStored_of_refused (hsound : Sound site.dir)
    (hrefused : ∀ rcpt ∈ rcpts, Refused o site mailFrom body opts rcpt)
    (hrooms : opts.extraRooms = []) :
    NothingStored site (localDeliver o site mailFrom rcpts body opts).1 := by
  obtain ⟨hdid, hrcpts⟩ := turns_did o opts mailFrom body rcpts 0 site
  obtain ⟨-, hext, -⟩ := hdid.dir hsound
  have hnone : roomsOf opts (turns o opts mailFrom body 0 site rcpts).2 = [] := by
    apply List.eq_nil_iff_forall_not_mem.mpr
    intro room hroom
    obtain ⟨n, -, -, hextra | ⟨t, ht, hn⟩⟩ := (mem_roomsOf opts).mp hroom
    · rw [hrooms] at hextra
      cases hextra
    · have hin : t.rcpt ∈ rcpts := hrcpts ▸ List.mem_map_of_mem ht
      have hkept := (kept_iff o site mailFrom body opts hsound rcpts 0 site hsound (.refl _) rfl t
        ht).mpr (hrefused t.rcpt hin)
      obtain ⟨flags, hstep⟩ := mem_rooms.mp hn
      rw [steps_of_not_kept hkept] at hstep
      cases hstep
  rw [localDeliver]
  simp only [if_pos hnone]
  exact ⟨hext.messages, hext.roomMsgs⟩

/-- A recipient that a redirect is enqueued for is not refused. -/
theorem Enqueues.not_refused {address rcpt : Bytes} {i : Nat}
    (h : Enqueues o mailFrom body opts address i site rcpt) :
    ¬Refused o site mailFrom body opts rcpt := by
  obtain ⟨result, ⟨hunder, hresult, hreject, hdiscard⟩, -⟩ := h
  rintro (hover | ⟨result', hresult', hrefused⟩)
  · rw [hunder] at hover
    cases hover
  · rw [hresult] at hresult'
    obtain rfl := Option.some.inj hresult'
    cases hrefused with
    | inl hne => exact hne hreject
    | inr hdisc =>
      rw [hdiscard] at hdisc
      cases hdisc

/-- The rows of a delivery are redirects of its recipients. -/
theorem redirect_of_row (hsound : Sound site.dir) {row : Outbound}
    (h : row ∈ (turns o opts mailFrom body 0 site rcpts).2.flatMap fun t =>
      queuedIn mailFrom body t.steps) :
    ∃ (k : Nat) (rcpt : Bytes), rcpts[k]? = some rcpt ∧
      Enqueues o mailFrom body opts row.rcpt k site rcpt := by
  obtain ⟨t, ht, hrow⟩ := List.mem_flatMap.mp h
  have hstep : .redirect row.rcpt true ∈ t.steps := by
    obtain ⟨step, hstep, heq⟩ := List.mem_filterMap.mp hrow
    cases step with
    | redirect address queued =>
      cases queued with
      | true => exact Option.some.inj heq ▸ hstep
      | false => cases heq
    | room roomNum flags => cases heq
    | vacation reason => cases heq
    | nothing => cases heq
  have hturn := (redirect_mem_turns o mailFrom body opts rcpts 0 site).mp ⟨t, ht, hstep⟩
  obtain ⟨k, rcpt, hk, henqueues⟩ := (someTurn_iff o site mailFrom body opts
    (fun site' hsound' hext hscripts i other =>
      enqueues_later o mailFrom body opts hsound hsound' hext hscripts row.rcpt i other) rcpts 0
    site hsound (.refl _) rfl).mp hturn
  exact ⟨k, rcpt, hk, by rwa [Nat.zero_add] at henqueues⟩

/-- Only a delivery that succeeds has a message. -/
theorem ok_of_msgnum {msgnum : Nat}
    (hnum : (localDeliver o site mailFrom rcpts body opts).2.msgnum = some msgnum) :
    (localDeliver o site mailFrom rcpts body opts).2.ok = true := by
  rw [localDeliver] at hnum ⊢
  by_cases hrooms : roomsOf opts (turns o opts mailFrom body 0 site rcpts).2 = []
  · simp only [if_pos hrooms] at hnum
    cases hnum
  · simp only [if_neg hrooms] at hnum ⊢
    split at hnum
    · cases hnum
    · rfl

/-- Where every recipient of the users of `dests` is refused, a copy in a room of one of
    them is another recipient's. -/
theorem owner_of_stored (hsound : Sound site.dir) {dests : List Bytes}
    (hrefused : ∀ dest ∈ dests, Refused o site mailFrom body opts dest) {user : Bytes}
    {msgnum room : Nat}
    (hnum : (localDeliver o site mailFrom rcpts body opts).2.msgnum = some msgnum)
    (hin : messageInRoom (localDeliver o site mailFrom rcpts body opts).1.dir.store room msgnum =
      true)
    (howns : Owns (localDeliver o site mailFrom rcpts body opts).1.dir user room) :
    (∃ other ∈ rcpts, other ∉ dests ∧ localPart other = user) ∨
      ∃ n ∈ opts.extraRooms, 0 ≤ n ∧ Owns site.dir user n.toNat := by
  have hok := ok_of_msgnum o site mailFrom rcpts body opts hnum
  have hfound := (stored_iff o site mailFrom rcpts body opts hsound hok user).mp
    ⟨msgnum, room, hnum, hin, howns⟩
  cases (rooms_iff o site mailFrom rcpts body opts hsound user).mp hfound with
  | inl hanswered =>
    obtain ⟨i, other, hi, huser, hnot, -⟩ := hanswered
    exact .inl ⟨other, List.mem_iff_getElem?.mpr ⟨i, hi⟩, fun hmem => hnot (hrefused other hmem),
      huser⟩
  | inr hextra => exact .inr hextra

end Delivery

/-! ## One transaction -/

section Transaction

variable (o : Outside) (fails : Nat → Nat → Bool) (knobs : Knobs) (mailFrom stored body : Bytes)
  (rcpts : List Recipient) (site : Site)

/-- The destination is over quota, or its filter rejects or discards. -/
def DestRefused (dest : Bytes) : Prop :=
  Refused o site mailFrom stored (optionsOf knobs rcpts) dest

/-- The filter of destination `k` redirects to the address, and the queue takes the row. -/
def Redirects (address : Bytes) (k : Nat) (dest : Bytes) : Prop :=
  (targetsOf rcpts)[k]? = some dest ∧
    Enqueues o mailFrom stored (optionsOf knobs rcpts) address k site dest

theorem dispatch_cases : ((dispatch o fails knobs mailFrom stored body rcpts site).site =
          enqueueForwards fails mailFrom stored rcpts site ∧
        (dispatch o fails knobs mailFrom stored body rcpts site).outcome = Outcome.new) ∨
      ((dispatch o fails knobs mailFrom stored body rcpts site).site =
          (localDeliver o (enqueueForwards fails mailFrom stored rcpts site) mailFrom
            (targetsOf rcpts) stored (optionsOf knobs rcpts)).1 ∧
        (dispatch o fails knobs mailFrom stored body rcpts site).outcome =
          (localDeliver o (enqueueForwards fails mailFrom stored rcpts site) mailFrom
            (targetsOf rcpts) stored (optionsOf knobs rcpts)).2) := by
  rw [dispatch]
  split
  · exact .inl ⟨rfl, rfl⟩
  · exact .inr ⟨rfl, rfl⟩

variable {o fails knobs mailFrom stored body rcpts site}

/-- A transaction whose delivery fails stores nothing. -/
theorem dispatch_failed (hsound : Sound site.dir)
    (hfailed : (dispatch o fails knobs mailFrom stored body rcpts site).outcome.ok = false) :
    NothingStored site (dispatch o fails knobs mailFrom stored body rcpts site).site := by
  cases dispatch_cases o fails knobs mailFrom stored body rcpts site with
  | inl h =>
    rw [h.1]
    exact ⟨rfl, rfl⟩
  | inr h =>
    rw [h.2] at hfailed
    rw [h.1]
    exact nothingStored_of_failed o _ mailFrom _ stored _ hsound hfailed

/-- A transaction that refuses every destination, and resolves to no room, stores nothing. -/
theorem dispatch_refused (hsound : Sound site.dir)
    (hrefused : ∀ dest ∈ targetsOf rcpts, DestRefused o knobs mailFrom stored rcpts site dest)
    (hrooms : ∀ r ∈ rcpts, r.rooms = []) :
    NothingStored site (dispatch o fails knobs mailFrom stored body rcpts site).site := by
  cases dispatch_cases o fails knobs mailFrom stored body rcpts site with
  | inl h =>
    rw [h.1]
    exact ⟨rfl, rfl⟩
  | inr h =>
    rw [h.1]
    exact nothingStored_of_refused o (enqueueForwards fails mailFrom stored rcpts site) mailFrom
      _ stored _ hsound hrefused (List.flatMap_eq_nil_iff.mpr hrooms)

/-- A destination that the outcome lists is refused. -/
theorem dispatch_listed (hsound : Sound site.dir) {dest : Bytes}
    (h : dest ∈ (dispatch o fails knobs mailFrom stored body rcpts site).outcome.overQuota ∨
      dest ∈ (dispatch o fails knobs mailFrom stored body rcpts site).outcome.rejected.map
        Prod.fst) :
    DestRefused o knobs mailFrom stored rcpts site dest := by
  cases dispatch_cases o fails knobs mailFrom stored body rcpts site with
  | inl hnew =>
    rw [hnew.2] at h
    cases h with
    | inl h => cases h
    | inr h => cases h
  | inr hdelivered =>
    rw [hdelivered.2] at h
    exact refused_of_listed o (enqueueForwards fails mailFrom stored rcpts site) mailFrom _ stored
      _ hsound h

theorem dispatch_ok_of_msgnum {msgnum : Nat}
    (hnum : (dispatch o fails knobs mailFrom stored body rcpts site).outcome.msgnum = some msgnum) :
    (dispatch o fails knobs mailFrom stored body rcpts site).outcome.ok = true := by
  cases dispatch_cases o fails knobs mailFrom stored body rcpts site with
  | inl h =>
    rw [h.2] at hnum
    cases hnum
  | inr h =>
    rw [h.2] at hnum ⊢
    exact ok_of_msgnum o _ mailFrom _ stored _ hnum

/-- What a transaction enqueues: the forwards of its recipients, and redirects. -/
theorem dispatch_rows (hsound : Sound site.dir) :
    ∃ rows, (dispatch o fails knobs mailFrom stored body rcpts site).site.outbound =
        site.outbound ++ rows ∧
      ∀ row ∈ rows,
        (∃ (j : Nat) (r : Recipient), rcpts[j]? = some r ∧
          row ∈ forwardRows fails mailFrom stored j r) ∨
        ∃ (k : Nat) (dest : Bytes),
          Redirects o knobs mailFrom stored rcpts site row.rcpt k dest := by
  have hforwards : ∀ row ∈ rcpts.zipIdx.flatMap fun r => forwardRows fails mailFrom stored r.2 r.1,
      ∃ (j : Nat) (r : Recipient), rcpts[j]? = some r ∧
        row ∈ forwardRows fails mailFrom stored j r := by
    intro row hrow
    obtain ⟨⟨r, j⟩, hin, hrow⟩ := List.mem_flatMap.mp hrow
    exact ⟨j, r, List.mem_zipIdx_iff_getElem?.mp hin, hrow⟩
  cases dispatch_cases o fails knobs mailFrom stored body rcpts site with
  | inl h =>
    rw [h.1]
    exact ⟨_, rfl, fun row hrow => .inl (hforwards row hrow)⟩
  | inr h =>
    obtain ⟨-, -, -, houtbound⟩ := localDeliver_frame o
      (enqueueForwards fails mailFrom stored rcpts site) mailFrom (targetsOf rcpts) stored
      (optionsOf knobs rcpts)
    rw [h.1, houtbound]
    refine ⟨_, List.append_assoc _ _ _, fun row hrow => ?_⟩
    cases List.mem_append.mp hrow with
    | inl hrow => exact .inl (hforwards row hrow)
    | inr hrow =>
      obtain ⟨k, dest, hk, henqueues⟩ := redirect_of_row o
        (enqueueForwards fails mailFrom stored rcpts site) mailFrom _ stored _ hsound hrow
      exact .inr ⟨k, dest, hk, henqueues⟩

/-- A copy in a room of a user whose destinations among `dests` are all refused. -/
theorem dispatch_owner (hsound : Sound site.dir) {dests : List Bytes}
    (hrefused : ∀ dest ∈ dests, DestRefused o knobs mailFrom stored rcpts site dest)
    {user : Bytes} {msgnum room : Nat}
    (hnum : (dispatch o fails knobs mailFrom stored body rcpts site).outcome.msgnum = some msgnum)
    (hin : messageInRoom (dispatch o fails knobs mailFrom stored body rcpts site).site.dir.store
      room msgnum = true)
    (howns : Owns (dispatch o fails knobs mailFrom stored body rcpts site).site.dir user room) :
    (∃ other ∈ targetsOf rcpts, other ∉ dests ∧ localPart other = user) ∨
      ∃ r ∈ rcpts, ∃ n ∈ r.rooms, 0 ≤ n ∧ Owns site.dir user n.toNat := by
  cases dispatch_cases o fails knobs mailFrom stored body rcpts site with
  | inl h =>
    rw [h.2] at hnum
    cases hnum
  | inr h =>
    rw [h.2] at hnum
    rw [h.1] at hin howns
    cases owner_of_stored o (enqueueForwards fails mailFrom stored rcpts site) mailFrom _ stored _
      hsound hrefused hnum hin howns with
    | inl hother => exact .inl hother
    | inr hextra =>
      obtain ⟨n, hn, hpos, howned⟩ := hextra
      obtain ⟨r, hr, hn⟩ := List.mem_flatMap.mp hn
      exact .inr ⟨r, hr, n, hn, hpos, howned⟩

theorem held_of_ordinary (h : ∀ r ∈ rcpts, r.Ordinary) :
    (dispatch o fails knobs mailFrom stored body rcpts site).held = [] ∧
      (dispatch o fails knobs mailFrom stored body rcpts site).commands = [] :=
  ⟨List.flatMap_eq_nil_iff.mpr fun r hr => ((h r hr).nothing mailFrom stored body).1,
    List.flatMap_eq_nil_iff.mpr fun r hr => ((h r hr).nothing mailFrom stored body).2⟩

/-- Recipients without forwards and redirects leave the queue as it was. -/
theorem outbound_of_ordinary (hsound : Sound site.dir) (h : ∀ r ∈ rcpts, r.Ordinary)
    (hredirects : ∀ address k dest, ¬Redirects o knobs mailFrom stored rcpts site address k dest) :
    (dispatch o fails knobs mailFrom stored body rcpts site).site.outbound = site.outbound := by
  obtain ⟨rows, hrows, hall⟩ := @dispatch_rows o fails knobs mailFrom stored body rcpts site hsound
  have hnone : rows = [] := by
    apply List.eq_nil_iff_forall_not_mem.mpr
    intro row hrow
    cases hall row hrow with
    | inl hforward =>
      obtain ⟨j, r, hj, hrow⟩ := hforward
      rw [(h r (List.mem_iff_getElem?.mpr ⟨j, hj⟩)).forwardRows] at hrow
      cases hrow
    | inr hredirect =>
      obtain ⟨k, dest, hredirect⟩ := hredirect
      exact hredirects row.rcpt k dest hredirect
  rw [hrows, hnone, List.append_nil]

theorem DestRefused.not_redirects {dest : Bytes}
    (h : DestRefused o knobs mailFrom stored rcpts site dest) (address : Bytes) (k : Nat) :
    ¬Redirects o knobs mailFrom stored rcpts site address k dest :=
  fun hredirects => hredirects.2.not_refused o site mailFrom stored (optionsOf knobs rcpts) h

end Transaction

/-! ## The folds -/

theorem overQuotaFor_iff {out : Outcome} : overQuotaFor out r = true ↔
      r.destinations ≠ [] ∧ ∀ dest ∈ r.destinations, dest ∈ out.overQuota := by
  rw [overQuotaFor, Bool.and_eq_true, List.all_eq_true, Bool.not_eq_true', ← Bool.not_eq_true,
    List.isEmpty_iff]
  simp

theorem rejectLoop_ne {rejected : List (Bytes × Bytes)} (dests : List Bytes) :
    ∀ reason, rejectLoop rejected dests reason ≠ [] →
      ∀ dest ∈ dests, dest ∈ rejected.map Prod.fst := by
  induction dests with
  | nil =>
    intro reason _ dest hdest
    cases hdest
  | cons first dests ih =>
    intro reason hne dest hdest
    rw [rejectLoop] at hne
    cases hfind : rejected.find? fun rej => decide (rej.1 = first) with
    | none =>
      rw [hfind] at hne
      exact absurd rfl hne
    | some rej =>
      rw [hfind] at hne
      cases List.mem_cons.mp hdest with
      | inl heq =>
        have hsame : rej.1 = first := by simpa using List.find?_some hfind
        rw [heq, ← hsame]
        exact List.mem_map_of_mem (List.mem_of_find?_eq_some hfind)
      | inr hin => exact ih rej.2 hne dest hin

/-- A recipient that is refused has destinations, and every filter of them rejects. -/
theorem rejectReason_ne {out : Outcome} (h : rejectReason out r ≠ []) :
    r.destinations ≠ [] ∧ ∀ dest ∈ r.destinations, dest ∈ out.rejected.map Prod.fst := by
  rw [rejectReason] at h
  split at h
  · exact absurd rfl h
  · next hne => exact ⟨hne, rejectLoop_ne r.destinations [] h⟩

theorem mxAnswer_cases (out : Outcome) (rcpts : List Recipient) :
    ((mxAnswer out rcpts).code = 451 ∧ out.ok = false) ∨
      ((mxAnswer out rcpts).code = 452 ∧ out.ok = true ∧ rcpts ≠ [] ∧
        ∀ r ∈ rcpts, overQuotaFor out r = true) ∨
      ((mxAnswer out rcpts).code = 550 ∧ out.ok = true ∧ out.rejected ≠ []) ∨
      ((mxAnswer out rcpts).code = 250 ∧ out.ok = true ∧ out.rejected = [] ∧
        ¬(rcpts ≠ [] ∧ ∀ r ∈ rcpts, overQuotaFor out r = true)) := by
  have hfull : (!rcpts.isEmpty && rcpts.all (overQuotaFor out)) = true ↔
      rcpts ≠ [] ∧ ∀ r ∈ rcpts, overQuotaFor out r = true := by
    rw [Bool.and_eq_true, List.all_eq_true, Bool.not_eq_true', ← Bool.not_eq_true,
      List.isEmpty_iff]
  rw [mxAnswer]
  split
  · next hok => exact .inl ⟨rfl, hok⟩
  · next hok =>
    rw [Bool.not_eq_false] at hok
    split
    · next hall =>
      exact .inr (.inl ⟨rfl, hok, hfull.mp hall⟩)
    · next hall =>
      split
      · next rej rest heq =>
        exact .inr (.inr (.inl ⟨rfl, hok, by rw [heq]; exact List.cons_ne_nil _ _⟩))
      · next heq => exact .inr (.inr (.inr ⟨rfl, hok, heq, fun h => hall (hfull.mpr h)⟩))

theorem lmtpAnswer_cases (out : Outcome) (r : Recipient) :
    ((lmtpAnswer out r).code = 451 ∧ out.ok = false) ∨
      ((lmtpAnswer out r).code = 452 ∧ out.ok = true ∧ overQuotaFor out r = true) ∨
      ((lmtpAnswer out r).code = 550 ∧ out.ok = true ∧ rejectReason out r ≠ []) ∨
      ((lmtpAnswer out r).code = 250 ∧ out.ok = true ∧ overQuotaFor out r = false) := by
  rw [lmtpAnswer]
  cases hok : out.ok with
  | false => exact .inl ⟨rfl, rfl⟩
  | true =>
    simp only [if_true, Bool.true_and, Bool.true_eq_false, if_false]
    by_cases hreason : rejectReason out r = []
    · cases hfull : overQuotaFor out r with
      | true => exact .inr (.inl ⟨by simp [hreason], trivial, rfl⟩)
      | false =>
        refine .inr (.inr (.inr ⟨?_, trivial, rfl⟩))
        simp only [hreason, decide_true, Bool.and_false, Bool.false_eq_true, if_false, ne_eq,
          not_true_eq_false]
        split
        · rfl
        · split
          · rfl
          · split <;> rfl
    · exact .inr (.inr (.inl ⟨by simp [hreason], trivial, hreason⟩))

/-- A reply of the LMTP listener names the recipient it is for. -/
theorem lmtpAnswer_names (out : Outcome) (r : Recipient) :
    bytes "<" ++ r.envelope ++ bytes "> " <+: (lmtpAnswer out r).text.drop 6 := by
  have hnamed : ∀ status rest : Bytes, status.length = 6 →
      bytes "<" ++ r.envelope ++ bytes "> " <+:
        (status ++ (bytes "<" ++ r.envelope ++ bytes "> ") ++ rest).drop 6 := by
    intro status rest hlen
    rw [List.append_assoc status, List.drop_left' hlen]
    exact List.prefix_append _ _
  rw [lmtpAnswer]
  by_cases hok : out.ok = false
  · rw [if_pos hok]
    exact hnamed (bytes "4.3.0 ") _ rfl
  · rw [if_neg hok]
    generalize (if out.ok = true then rejectReason out r else []) = refused
    split
    · exact hnamed (bytes "4.2.2 ") _ rfl
    · split
      · exact hnamed (bytes "5.7.1 ") _ rfl
      · split
        · exact hnamed (bytes "2.0.0 ") _ rfl
        · split
          · exact hnamed (bytes "2.0.0 ") _ rfl
          · split
            · exact hnamed (bytes "2.0.0 ") _ rfl
            · exact hnamed (bytes "2.0.0 ") _ rfl

end QuackMail.Delivery
