import QuackMail.Delivery.Answers

/-! # What becomes of a message

A delivery that reports success has not always kept the message for everybody: a call for
a room that answers -1 is dropped without a word.  A delivery that reports a failure has
enqueued the redirects already.
-/

namespace QuackMail.Delivery

open Citadel

variable (o : Outside) (site : Site) (mailFrom : Bytes) (rcpts : List Bytes) (body : Bytes)
  (opts : Options)

/-! ## Redirects -/

/-- `P` holds of some recipient, its position and the site its turn finds. -/
def SomeTurn (P : Nat → Site → Bytes → Prop) : Nat → Site → List Bytes → Prop
  | _, _, [] => False
  | i, site, rcpt :: rcpts =>
    P i site rcpt ∨ SomeTurn P (i + 1) (turn o opts mailFrom body i site rcpt).1 rcpts

/-- The filter of the recipient is run and neither rejects nor discards. -/
def Filtered (site : Site) (rcpt : Bytes) (result : Result) : Prop :=
  (wouldExceed site.dir (localPart rcpt) body.length).2 = false ∧
    filterResult o opts mailFrom body site rcpt = some result ∧
    result.rejectReason = [] ∧ result.isDiscard = false

/-- The filter of recipient `i` redirects to the address, and the queue takes the row. -/
def Enqueues (address : Bytes) (i : Nat) (site : Site) (rcpt : Bytes) : Prop :=
  ∃ result, Filtered o mailFrom body opts site rcpt result ∧
    ∃ j : Nat, result.actions[j]? = some (.redirect address) ∧ address ≠ [] ∧
      o.enqueueFails i j = false

variable {address rcpt : Bytes}

theorem redirect_mem_performAll {i : Nat} {user detail : Bytes} (actions : List Action) :
    ∀ (j : Nat) (site : Site),
      .redirect address true ∈ (performAll o opts mailFrom body i user detail j site actions).2 ↔
        ∃ k : Nat, actions[k]? = some (.redirect address) ∧ address ≠ [] ∧
          o.enqueueFails i (j + k) = false := by
  induction actions with
  | nil =>
    intro j site
    simp [performAll]
  | cons a actions ih =>
    intro j site
    rw [performAll, List.mem_cons, ih]
    have hfirst : .redirect address true = (perform o opts mailFrom body i j user detail site a).2 ↔
        a = .redirect address ∧ address ≠ [] ∧ o.enqueueFails i j = false := by
      cases a with
      | redirect dest =>
        rw [perform]
        split
        · next hempty =>
          refine iff_of_false (fun h => by cases h) ?_
          rintro ⟨heq, hne, -⟩
          exact hne ((Action.redirect.inj heq) ▸ hempty)
        · next hne =>
          cases hfails : o.enqueueFails i j with
          | true => simp
          | false =>
            simp only [Step.redirect.injEq, Action.redirect.injEq, Bool.not_false, and_true]
            exact ⟨fun h => ⟨h.symm, h ▸ hne⟩, fun h => h.1.symm⟩
      | keep flags => exact iff_of_false (fun h => by cases h) (fun h => by cases h.1)
      | fileinto folder flags => exact iff_of_false (fun h => by cases h) (fun h => by cases h.1)
      | reject reason => exact iff_of_false (fun h => by cases h) (fun h => by cases h.1)
      | discard => exact iff_of_false (fun h => by cases h) (fun h => by cases h.1)
      | vacation reason => exact iff_of_false (fun h => by cases h) (fun h => by cases h.1)
    rw [hfirst]
    constructor
    · rintro (⟨rfl, hne, hqueue⟩ | ⟨k, hk, hne, hqueue⟩)
      · exact ⟨0, rfl, hne, hqueue⟩
      · exact ⟨k + 1, hk, hne, by rw [← hqueue]; congr 1; omega⟩
    · rintro ⟨k, hk, hne, hqueue⟩
      cases k with
      | zero => exact .inl ⟨Option.some.inj hk, hne, hqueue⟩
      | succ k => exact .inr ⟨k, hk, hne, by rw [← hqueue]; congr 1; omega⟩

theorem redirect_mem_turn {i : Nat} :
    .redirect address true ∈ (turn o opts mailFrom body i site rcpt).2.steps ↔
      Enqueues o mailFrom body opts address i site rcpt := by
  have hfilter : ∀ d, filterResult o opts mailFrom body { site with dir := d } rcpt =
      filterResult o opts mailFrom body site rcpt := fun _ => rfl
  unfold Enqueues Filtered
  rw [turn]
  simp only [hfilter]
  split
  · next hover =>
    refine iff_of_false (fun h => by cases h) ?_
    rintro ⟨result, ⟨hquota, -⟩, -⟩
    rw [hover] at hquota
    cases hquota
  · next hunder =>
    split
    · next hoverride =>
      refine iff_of_false (fun h => by simp [Turn.steps] at h) ?_
      rintro ⟨result, ⟨-, hresult, -⟩, -⟩
      rw [filterResult, if_pos (.inl hoverride)] at hresult
      cases hresult
    · cases hresult : filterResult o opts mailFrom body site rcpt with
      | none =>
        refine iff_of_false (fun h => by simp [Turn.steps] at h) ?_
        rintro ⟨result, ⟨-, hsome, -⟩, -⟩
        cases hsome
      | some result =>
        simp only
        split
        · next hreject =>
          refine iff_of_false (fun h => by cases h) ?_
          rintro ⟨result', ⟨-, hsome, hnone, -⟩, -⟩
          exact hreject (Option.some.inj hsome ▸ hnone)
        · next hreject =>
          split
          · next hdiscard =>
            refine iff_of_false (fun h => by cases h) ?_
            rintro ⟨result', ⟨-, hsome, -, hnone⟩, -⟩
            rw [← Option.some.inj hsome, hdiscard] at hnone
            cases hnone
          · next hdiscard =>
            rw [Turn.steps]
            simp only [redirect_mem_performAll, Nat.zero_add]
            constructor
            · exact fun h => ⟨result, ⟨by simpa using hunder, rfl, by simpa using hreject,
                by simpa using hdiscard⟩, h⟩
            · rintro ⟨result', ⟨-, hsome, -⟩, h⟩
              rwa [← Option.some.inj hsome] at h

/-- A redirect of some turn was enqueued. -/
theorem redirect_mem_turns (rcpts : List Bytes) : ∀ (i : Nat) (site : Site),
      (∃ t ∈ (turns o opts mailFrom body i site rcpts).2, .redirect address true ∈ t.steps) ↔
        SomeTurn o mailFrom body opts (Enqueues o mailFrom body opts address) i site rcpts := by
  induction rcpts with
  | nil =>
    intro i site
    simp [turns, SomeTurn]
  | cons rcpt rcpts ih =>
    intro i site
    rw [turns, SomeTurn, ← ih, ← redirect_mem_turn]
    simp

/-- Where the tables of every turn say the same, the turn's site does not matter. -/
theorem someTurn_iff {P : Nat → Site → Bytes → Prop}
    (hP : ∀ site', Sound site'.dir → Extends site.dir site'.dir → site'.scripts = site.scripts →
      ∀ i rcpt, P i site' rcpt ↔ P i site rcpt) (rcpts : List Bytes) :
    ∀ (i : Nat) (site' : Site), Sound site'.dir → Extends site.dir site'.dir →
      site'.scripts = site.scripts →
      (SomeTurn o mailFrom body opts P i site' rcpts ↔
        ∃ (k : Nat) (rcpt : Bytes), rcpts[k]? = some rcpt ∧ P (i + k) site rcpt) := by
  induction rcpts with
  | nil =>
    intro i site' _ _ _
    simp [SomeTurn]
  | cons rcpt rcpts ih =>
    intro i site' hsound hext hscripts
    obtain ⟨hdid, -⟩ := turn_did o opts mailFrom body site' i rcpt
    obtain ⟨hsound', hext', -⟩ := hdid.dir hsound
    rw [SomeTurn, hP site' hsound hext hscripts,
      ih (i + 1) _ hsound' (hext.trans hext') (hdid.scripts.trans hscripts)]
    constructor
    · rintro (hfirst | ⟨k, next, hk, hnext⟩)
      · exact ⟨0, rcpt, rfl, hfirst⟩
      · exact ⟨k + 1, next, hk, by rwa [show i + (k + 1) = i + 1 + k by omega]⟩
    · rintro ⟨k, next, hk, hnext⟩
      cases k with
      | zero =>
        obtain rfl := Option.some.inj hk
        exact .inl hnext
      | succ k => exact .inr ⟨k, next, hk, by rwa [show i + 1 + k = i + (k + 1) by omega]⟩

theorem enqueues_later {site site' : Site} (hsound : Sound site.dir) (hsound' : Sound site'.dir)
    (hext : Extends site.dir site'.dir) (hscripts : site'.scripts = site.scripts)
    (address : Bytes) (i : Nat) (rcpt : Bytes) :
    Enqueues o mailFrom body opts address i site' rcpt ↔
      Enqueues o mailFrom body opts address i site rcpt := by
  simp only [Enqueues, Filtered, wouldExceed_later hsound hsound' hext,
    filterResult_later mailFrom body hscripts]

/-! ## No recipient's mail disappears -/

/-- What a delivery that left `final` and `out` did with the message for a recipient: it
    was refused or discarded, redirected, not to be delivered, or put into a room of the
    recipient's user. -/
def Accounted (final : Site) (out : Outcome) (rcpt : Bytes) : Prop :=
  rcpt ∈ out.overQuota ∨ rcpt ∈ out.rejected.map Prod.fst ∨ rcpt ∈ out.discarded ∨
    (∃ result, filterResult o opts mailFrom body site rcpt = some result ∧
      ((∃ address, address ≠ [] ∧ .redirect address ∈ result.actions ∧
          ⟨mailFrom, address, body⟩ ∈ final.outbound.drop site.outbound.length) ∨
        ∀ a ∈ result.actions, a.delivers = false)) ∨
    ∃ msgnum room, out.msgnum = some msgnum ∧
      messageInRoom final.dir.store room msgnum = true ∧ Owns final.dir (localPart rcpt) room

/-- The recipient is refused, its filter redirects to an address that a redirect is enqueued
    to or delivers nothing, a call for a room for it or for another recipient of the same user
    answers a room, or the delivery is given a room of the user. -/
def Provided (rcpt : Bytes) : Prop :=
  Refused o site mailFrom body opts rcpt ∨
    (∃ result, filterResult o opts mailFrom body site rcpt = some result ∧
      ((∃ address, address ≠ [] ∧ .redirect address ∈ result.actions ∧
          ∃ (i : Nat) (other : Bytes), rcpts[i]? = some other ∧
            Enqueues o mailFrom body opts address i site other) ∨
        ∀ a ∈ result.actions, a.delivers = false)) ∨
    (∃ (i : Nat) (other : Bytes), rcpts[i]? = some other ∧ localPart other = localPart rcpt ∧
      Answered o site mailFrom body opts i other) ∨
    ∃ n ∈ opts.extraRooms, 0 ≤ n ∧ Owns site.dir (localPart rcpt) n.toNat

theorem mem_roomsIn {user : Bytes} {steps : List Step} {e : Bytes × Int} :
    e ∈ roomsIn user steps ↔ e.1 = user ∧ ∃ flags, .room e.2 flags ∈ steps := by
  simp only [roomsIn, List.mem_filterMap]
  constructor
  · rintro ⟨step, hstep, heq⟩
    cases step with
    | room roomNum flags =>
      obtain ⟨rfl, rfl⟩ := Prod.mk.inj (Option.some.inj heq)
      exact ⟨rfl, flags, hstep⟩
    | redirect address queued => cases heq
    | vacation reason => cases heq
    | nothing => cases heq
  · rintro ⟨rfl, flags, hstep⟩
    exact ⟨_, hstep, rfl⟩

theorem mem_rooms {t : Turn} {n : Int} : n ∈ t.rooms ↔ ∃ flags, .room n flags ∈ t.steps := by
  simp only [Turn.rooms, List.mem_filterMap]
  constructor
  · rintro ⟨step, hstep, heq⟩
    cases step with
    | room roomNum flags =>
      obtain rfl := Option.some.inj heq
      exact ⟨flags, hstep⟩
    | redirect address queued => cases heq
    | vacation reason => cases heq
    | nothing => cases heq
  · rintro ⟨flags, hstep⟩
    exact ⟨_, hstep, rfl⟩

theorem mem_queuedIn {steps : List Step} :
    ⟨mailFrom, address, body⟩ ∈ queuedIn mailFrom body steps ↔
      .redirect address true ∈ steps := by
  simp only [queuedIn, List.mem_filterMap]
  constructor
  · rintro ⟨step, hstep, heq⟩
    cases step with
    | redirect dest queued =>
      cases queued with
      | true =>
        simp only [Option.some.injEq, Outbound.mk.injEq, true_and, and_true] at heq
        exact heq ▸ hstep
      | false => cases heq
    | room roomNum flags => cases heq
    | vacation reason => cases heq
    | nothing => cases heq
  · exact fun hstep => ⟨_, hstep, rfl⟩

theorem mem_roomsOf {ts : List Turn} {room : Nat} : room ∈ roomsOf opts ts ↔
      ∃ n : Int, 0 ≤ n ∧ n.toNat = room ∧ (n ∈ opts.extraRooms ∨ ∃ t ∈ ts, n ∈ t.rooms) := by
  rw [roomsOf, List.mem_eraseDups, List.mem_map]
  simp only [List.mem_filter, List.mem_append, List.mem_flatMap, decide_eq_true_eq]
  constructor
  · rintro ⟨n, ⟨hin, hpos⟩, heq⟩
    exact ⟨n, hpos, heq, hin⟩
  · rintro ⟨n, hpos, heq, hin⟩
    exact ⟨n, ⟨hin, hpos⟩, heq⟩

/-- The recipients that the outcome lists are those that nothing is kept for. -/
theorem listed_iff {ts : List Turn} :
    (rcpt ∈ (outcomeOf ts).overQuota ∨ rcpt ∈ (outcomeOf ts).rejected.map Prod.fst ∨
      rcpt ∈ (outcomeOf ts).discarded) ↔ ∃ t ∈ ts, t.rcpt = rcpt ∧ t.kept = false := by
  simp only [outcomeOf, List.mem_map, List.mem_filter, List.mem_filterMap, decide_eq_true_eq]
  constructor
  · rintro (⟨t, ⟨ht, hv⟩, rfl⟩ | ⟨e, ⟨t, ht, hv⟩, rfl⟩ | ⟨t, ⟨ht, hv⟩, rfl⟩)
    · exact ⟨t, ht, rfl, by rw [Turn.kept, hv]⟩
    · cases hverdict : t.verdict with
      | rejected reason =>
        rw [hverdict] at hv
        exact ⟨t, ht, congrArg Prod.fst (Option.some.inj hv), by rw [Turn.kept, hverdict]⟩
      | overQuota => rw [hverdict] at hv; cases hv
      | discarded => rw [hverdict] at hv; cases hv
      | kept steps => rw [hverdict] at hv; cases hv
    · exact ⟨t, ht, rfl, by rw [Turn.kept, hv]⟩
  · rintro ⟨t, ht, rfl, hkept⟩
    cases hverdict : t.verdict with
    | overQuota => exact .inl ⟨t, ⟨ht, hverdict⟩, rfl⟩
    | rejected reason => exact .inr (.inl ⟨(t.rcpt, reason), ⟨t, ht, by rw [hverdict]⟩, rfl⟩)
    | discarded => exact .inr (.inr ⟨t, ⟨ht, hverdict⟩, rfl⟩)
    | kept steps =>
      rw [Turn.kept, hverdict] at hkept
      cases hkept

/-- What a delivery that reports success has stored, and where. -/
theorem stored_iff (hsound : Sound site.dir)
    (hok : (localDeliver o site mailFrom rcpts body opts).2.ok = true) (user : Bytes) :
    (∃ msgnum room, (localDeliver o site mailFrom rcpts body opts).2.msgnum = some msgnum ∧
      messageInRoom (localDeliver o site mailFrom rcpts body opts).1.dir.store room msgnum = true ∧
      Owns (localDeliver o site mailFrom rcpts body opts).1.dir user room) ↔
    ∃ room ∈ roomsOf opts (turns o opts mailFrom body 0 site rcpts).2,
      Owns (turns o opts mailFrom body 0 site rcpts).1.dir user room := by
  obtain ⟨hdid, -⟩ := turns_did o opts mailFrom body rcpts 0 site
  obtain ⟨hsound', -, -⟩ := hdid.dir hsound
  rw [localDeliver] at hok ⊢
  by_cases hrooms : roomsOf opts (turns o opts mailFrom body 0 site rcpts).2 = []
  · rw [hrooms]
    constructor
    · rintro ⟨msgnum, room, hnum, -⟩
      cases hnum
    · rintro ⟨room, hin, -⟩
      cases hin
  · simp only [if_neg hrooms] at hok ⊢
    cases hinsert : insertMessage o.world (turns o opts mailFrom body 0 site rcpts).1.dir.store
        (compose o mailFrom body rcpts)
        (roomsOf opts (turns o opts mailFrom body 0 site rcpts).2) with
    | mk store answer =>
      rw [hinsert] at hok
      cases answer with
      | error err => cases hok
      | ok msgnum =>
        have hdir : (receive o body (turns o opts mailFrom body 0 site rcpts).2
            (sendVacations mailFrom (turns o opts mailFrom body 0 site rcpts).2
              (addFlags msgnum (turns o opts mailFrom body 0 site rcpts).2
                ((turns o opts mailFrom body 0 site rcpts).1.withStore store)))).dir =
            { (turns o opts mailFrom body 0 site rcpts).1.dir with store := store } := by
          rw [receive]
          split <;> rfl
        simp only [hdir, Option.some.injEq]
        constructor
        · rintro ⟨_, room, rfl, hin, howns⟩
          exact ⟨room, (insertMessage_stored hinsert (fun p hp => (hsound'.pointers p hp).1) room).mp hin,
            (owns_insertMessage hinsert user room).mp howns⟩
        · rintro ⟨room, hin, howns⟩
          exact ⟨msgnum, room, rfl, (insertMessage_stored hinsert (fun p hp => (hsound'.pointers p hp).1) room).mpr hin,
            (owns_insertMessage hinsert user room).mpr howns⟩

/-- The lists of the outcome and the rows a delivery leaves are those of its turns. -/
theorem localDeliver_frame : (localDeliver o site mailFrom rcpts body opts).2.overQuota =
        (outcomeOf (turns o opts mailFrom body 0 site rcpts).2).overQuota ∧
      (localDeliver o site mailFrom rcpts body opts).2.rejected =
        (outcomeOf (turns o opts mailFrom body 0 site rcpts).2).rejected ∧
      (localDeliver o site mailFrom rcpts body opts).2.discarded =
        (outcomeOf (turns o opts mailFrom body 0 site rcpts).2).discarded ∧
      (localDeliver o site mailFrom rcpts body opts).1.outbound =
        site.outbound ++ (turns o opts mailFrom body 0 site rcpts).2.flatMap fun t =>
          queuedIn mailFrom body t.steps := by
  obtain ⟨hdid, -⟩ := turns_did o opts mailFrom body rcpts 0 site
  rw [← hdid.outbound, localDeliver]
  split
  · exact ⟨rfl, rfl, rfl, rfl⟩
  · split
    · exact ⟨rfl, rfl, rfl, rfl⟩
    · refine ⟨rfl, rfl, rfl, ?_⟩
      rw [receive]
      split <;> rfl

/-- Some turn keeps nothing for the recipient. -/
theorem not_kept_iff (hsound : Sound site.dir) (hrcpt : rcpt ∈ rcpts) :
    (∃ t ∈ (turns o opts mailFrom body 0 site rcpts).2, t.rcpt = rcpt ∧ t.kept = false) ↔
      Refused o site mailFrom body opts rcpt := by
  let P : Nat → Site → Bytes → Prop := fun _ site other =>
    other = rcpt ∧ Refused o site mailFrom body opts other
  have hturns : ∀ (rcpts : List Bytes) (i : Nat) (site : Site),
      (∃ t ∈ (turns o opts mailFrom body i site rcpts).2, t.rcpt = rcpt ∧ t.kept = false) ↔
        SomeTurn o mailFrom body opts P i site rcpts := by
    intro rcpts
    induction rcpts with
    | nil =>
      intro i site
      simp [turns, SomeTurn]
    | cons other rcpts ih =>
      intro i site
      obtain ⟨-, hother⟩ := turn_did o opts mailFrom body site i other
      have hturn : P i site other ↔
          other = rcpt ∧ (turn o opts mailFrom body i site other).2.kept = false :=
        and_congr_right fun _ => (turn_kept mailFrom body site i other).symm
      rw [turns, SomeTurn, ← ih, hturn]
      simp [hother]
  have hP : ∀ site', Sound site'.dir → Extends site.dir site'.dir →
      site'.scripts = site.scripts → ∀ i other, P i site' other ↔ P i site other :=
    fun site' hsound' hext hscripts _ other => and_congr_right fun _ =>
      refused_later mailFrom body hsound hsound' hext hscripts other
  rw [hturns, someTurn_iff o site mailFrom body opts hP rcpts 0 site hsound (.refl _) rfl]
  constructor
  · rintro ⟨k, other, -, rfl, hrefused⟩
    exact hrefused
  · intro hrefused
    obtain ⟨k, hk⟩ := List.mem_iff_getElem?.mp hrcpt
    exact ⟨k, rcpt, hk, rfl, hrefused⟩

/-- A room of the user is found, was made, or is among those the delivery is given. -/
theorem rooms_iff (hsound : Sound site.dir) (user : Bytes) :
    (∃ room ∈ roomsOf opts (turns o opts mailFrom body 0 site rcpts).2,
      Owns (turns o opts mailFrom body 0 site rcpts).1.dir user room) ↔
    (∃ (i : Nat) (other : Bytes), rcpts[i]? = some other ∧ localPart other = user ∧
      Answered o site mailFrom body opts i other) ∨
    ∃ n ∈ opts.extraRooms, 0 ≤ n ∧ Owns site.dir user n.toNat := by
  obtain ⟨hdid, -⟩ := turns_did o opts mailFrom body rcpts 0 site
  obtain ⟨hsound', hext, howns, hadded⟩ := hdid.dir hsound
  have hanswers := @turns_answers o mailFrom body opts site user rcpts 0 site (.refl hsound user)
  simp only [Nat.zero_add] at hanswers
  rw [← hanswers]
  -- a room that was asked for belongs to the user it was asked for
  have hasked : ∀ t ∈ (turns o opts mailFrom body 0 site rcpts).2, ∀ n flags,
      .room n flags ∈ t.steps → 0 ≤ n →
        Owns (turns o opts mailFrom body 0 site rcpts).1.dir (localPart t.rcpt) n.toNat :=
    fun t ht n flags hstep hpos => howns (localPart t.rcpt, n)
      (List.mem_flatMap.mpr ⟨t, ht, mem_roomsIn.mpr ⟨rfl, flags, hstep⟩⟩) hpos
  constructor
  · rintro ⟨room, hroom, howned⟩
    obtain ⟨n, hpos, rfl, hin⟩ := (mem_roomsOf opts).mp hroom
    cases hin with
    | inr hturn =>
      obtain ⟨t, ht, hn⟩ := hturn
      obtain ⟨flags, hstep⟩ := mem_rooms.mp hn
      exact .inl ⟨t, ht, (hasked t ht n flags hstep hpos).user_eq hsound' howned, n, flags, hstep,
        hpos⟩
    | inl hextra =>
      obtain ⟨r, hr, hnum, hown, howner⟩ := howned
      by_cases hold : r ∈ site.dir.store.rooms
      · have hbelow := hsound.owners r hold
        have hsame := hext.newUsers user
        exact .inr ⟨n, hextra, hpos, r, hold, hnum, hown, by omega⟩
      · -- the number is that of a room that was made meanwhile
        obtain ⟨e, he, hepos, heown⟩ := hadded n.toNat (.inr ⟨r, hr, hold, hnum⟩)
        obtain ⟨t, ht, hein⟩ := List.mem_flatMap.mp he
        obtain ⟨huser, flags, hstep⟩ := mem_roomsIn.mp hein
        exact .inl ⟨t, ht, huser ▸ heown.user_eq hsound' ⟨r, hr, hnum, hown, howner⟩, e.2, flags,
          hstep, hepos⟩
  · rintro (⟨t, ht, rfl, n, flags, hstep, hpos⟩ | ⟨n, hextra, hpos, howned⟩)
    · exact ⟨n.toNat, (mem_roomsOf opts).mpr ⟨n, hpos, rfl, .inr ⟨t, ht, mem_rooms.mpr
        ⟨flags, hstep⟩⟩⟩, hasked t ht n flags hstep hpos⟩
    · exact ⟨n.toNat, (mem_roomsOf opts).mpr ⟨n, hpos, rfl, .inl hextra⟩, howned.mono hext⟩

theorem accounted_iff_provided (hsound : Sound site.dir)
    (hok : (localDeliver o site mailFrom rcpts body opts).2.ok = true)
    (hrcpt : rcpt ∈ rcpts) :
    Accounted o site mailFrom body opts (localDeliver o site mailFrom rcpts body opts).1
        (localDeliver o site mailFrom rcpts body opts).2 rcpt ↔
      Provided o site mailFrom rcpts body opts rcpt := by
  obtain ⟨hquota, hrejected, hdiscarded, houtbound⟩ :=
    localDeliver_frame o site mailFrom rcpts body opts
  have henqueued : ∀ address,
      SomeTurn o mailFrom body opts (Enqueues o mailFrom body opts address) 0 site rcpts ↔
        ∃ (i : Nat) (other : Bytes), rcpts[i]? = some other ∧
          Enqueues o mailFrom body opts address i site other := by
    intro address
    rw [someTurn_iff o site mailFrom body opts (fun site' hsound' hext hscripts i other =>
      enqueues_later o mailFrom body opts hsound hsound' hext hscripts address i other) rcpts 0
      site hsound (.refl _) rfl]
    simp
  rw [Accounted, stored_iff o site mailFrom rcpts body opts hsound hok, hquota, hrejected,
    hdiscarded, houtbound, List.drop_left, ← or_assoc, ← or_assoc, or_assoc (a := _ ∈ _),
    listed_iff, not_kept_iff o site mailFrom rcpts body opts hsound hrcpt,
    rooms_iff o site mailFrom rcpts body opts hsound, Provided]
  simp only [List.mem_flatMap, mem_queuedIn, redirect_mem_turns, henqueued]

/-- Where a delivery reports success, every recipient's mail is accounted for exactly when
    every recipient is provided for. -/
theorem accounted_iff (hsound : Sound site.dir)
    (hok : (localDeliver o site mailFrom rcpts body opts).2.ok = true) :
    (∀ rcpt ∈ rcpts, Accounted o site mailFrom body opts
        (localDeliver o site mailFrom rcpts body opts).1
        (localDeliver o site mailFrom rcpts body opts).2 rcpt) ↔
      ∀ rcpt ∈ rcpts, Provided o site mailFrom rcpts body opts rcpt :=
  forall₂_congr fun _ hrcpt => accounted_iff_provided o site mailFrom rcpts body opts hsound hok hrcpt

/-- A parser, a runner and tables that do what they do for a message with a subject only. -/
def plain : Outside where
  world := ⟨1000, [], [], fun _ => none, fun _ _ => []⟩
  parse := fun _ => ⟨[], bytes "hi", [], [(bytes "Subject", bytes "hi")]⟩
  interpret := fun _ _ _ _ => .ok ([], false)
  firstAddress := id
  decodeEncodedWords := id
  parseDate := fun _ => none
  calendarPart := fun _ => ([], [])
  roomFails := fun _ _ _ => false
  enqueueFails := fun _ _ => false

/-- A site with accounts for alice and bob and nothing else. -/
def office : Site where
  dir := ⟨⟨[], [], [], [], 1, [], [], [bytes "alice", bytes "bob"], []⟩, [], 1, 100, .ofAscii⟩
  scripts := []
  outbound := []
  flags := []
  replies := []
  scheduled := []

theorem office_sound : Sound office.dir where
  userSeqPos := by decide
  users := fun u hu => by cases hu
  usersUnique := fun u hu => by cases hu
  rooms := fun r hr => by cases hr
  roomsUnique := fun r hr => by cases hr
  owners := fun r hr => by cases hr
  pointers := fun p hp => by cases hp
  keyed := fun l hl => by cases hl

def noOptions : Options := ⟨[], [], [], [], false⟩

def hello : Bytes := bytes "Subject: hi\r\n\r\nhello\r\n"

theorem accounted_iff_office :
    (localDeliver plain office (bytes "s@z") [bytes "alice@x", bytes "bob@x"] hello
      noOptions).2.ok = true ∧
    ∀ rcpt ∈ [bytes "alice@x", bytes "bob@x"],
      Accounted plain office (bytes "s@z") hello noOptions
        (localDeliver plain office (bytes "s@z") [bytes "alice@x", bytes "bob@x"] hello noOptions).1
        (localDeliver plain office (bytes "s@z") [bytes "alice@x", bytes "bob@x"] hello noOptions).2
        rcpt := by
  have hok : (localDeliver plain office (bytes "s@z") [bytes "alice@x", bytes "bob@x"] hello
    noOptions).2.ok = true := by decide +kernel
  refine ⟨hok, ?_⟩
  refine (accounted_iff plain office (bytes "s@z") _ hello noOptions office_sound hok).mpr
    fun rcpt hrcpt => ?_
  obtain ⟨i, hi⟩ := List.mem_iff_getElem?.mp hrcpt
  have hfilter : filterResult plain noOptions (bytes "s@z") hello office rcpt = none := rfl
  have hrefused : ¬Refused plain office (bytes "s@z") hello noOptions rcpt := by
    have hunder : (wouldExceed office.dir (localPart rcpt) hello.length).2 = false := rfl
    rintro (hover | ⟨result, hresult, -⟩)
    · cases hover.symm.trans hunder
    · cases hfilter.symm.trans hresult
  refine .inr (.inr (.inl ⟨i, rcpt, hi, rfl, hrefused, ?_⟩))
  refine .inr ⟨rfl, ?_⟩
  cases List.mem_pair.mp hrcpt with
  | inl h => rw [h]; decide
  | inr h => rw [h]; decide

/-- No room is made for the second recipient, and the delivery reports success. -/
theorem unaccounted_recipient : ¬∀ (o : Outside) (site : Site) (mailFrom : Bytes)
    (rcpts : List Bytes) (body : Bytes) (opts : Options), Sound site.dir →
      (localDeliver o site mailFrom rcpts body opts).2.ok = true →
      ∀ rcpt ∈ rcpts, Accounted o site mailFrom body opts
        (localDeliver o site mailFrom rcpts body opts).1
        (localDeliver o site mailFrom rcpts body opts).2 rcpt := by
  intro h
  have hok : (localDeliver { plain with roomFails := fun i _ _ => i == 1 } office (bytes "s@z")
      [bytes "alice@x", bytes "bob@x"] hello noOptions).2.ok = true := by decide +kernel
  have hbob := h _ office _ _ _ _ office_sound hok (bytes "bob@x")
    (List.mem_cons_of_mem _ List.mem_cons_self)
  rw [accounted_iff_provided _ _ _ _ _ _ office_sound hok
    (List.mem_cons_of_mem _ List.mem_cons_self)] at hbob
  rcases hbob with (hover | ⟨result, hresult, -⟩) | ⟨result, hresult, -⟩ |
    ⟨i, other, hi, huser, -, hanswered⟩ | ⟨n, hn, -⟩
  · exact absurd (hover.symm.trans rfl) (by decide)
  · cases hresult
  · cases hresult
  · match i, hi with
    | 0, hi =>
      obtain rfl := Option.some.inj hi
      exact absurd huser (by decide)
    | 1, hi =>
      rcases hanswered with ⟨-, hfails, -⟩ | ⟨hfails, -⟩
      · cases hfails
      · cases hfails
  · cases hn

/-! ## A failed delivery has no outward effect -/

/-- Nothing was enqueued, and no reply and no scheduling was started. -/
def NoOutwardEffect (final : Site) : Prop :=
  final.outbound = site.outbound ∧ final.replies = site.replies ∧
    final.scheduled = site.scheduled

/-- Replies and scheduling wait for the insert. -/
theorem later_of_failed (hfailed : (localDeliver o site mailFrom rcpts body opts).2.ok = false) :
    (localDeliver o site mailFrom rcpts body opts).1.replies = site.replies ∧
      (localDeliver o site mailFrom rcpts body opts).1.scheduled = site.scheduled := by
  obtain ⟨hdid, -⟩ := turns_did o opts mailFrom body rcpts 0 site
  rw [localDeliver] at hfailed ⊢
  by_cases hrooms : roomsOf opts (turns o opts mailFrom body 0 site rcpts).2 = []
  · simp only [if_pos hrooms] at hfailed
    cases hfailed
  · simp only [if_neg hrooms] at hfailed ⊢
    cases hinsert : insertMessage o.world (turns o opts mailFrom body 0 site rcpts).1.dir.store
        (compose o mailFrom body rcpts)
        (roomsOf opts (turns o opts mailFrom body 0 site rcpts).2) with
    | mk store answer =>
      rw [hinsert] at hfailed
      cases answer with
      | error err => exact ⟨hdid.replies, hdid.scheduled⟩
      | ok msgnum => cases hfailed

/-- A delivery that fails has had no outward effect exactly when no filter of a recipient
    that is neither over quota, rejected nor discarded redirected the message. -/
theorem no_outward_effect_iff
    (hfailed : (localDeliver o site mailFrom rcpts body opts).2.ok = false) :
    NoOutwardEffect site (localDeliver o site mailFrom rcpts body opts).1 ↔
      ¬∃ address, SomeTurn o mailFrom body opts (Enqueues o mailFrom body opts address) 0 site
        rcpts := by
  obtain ⟨-, -, -, houtbound⟩ := localDeliver_frame o site mailFrom rcpts body opts
  rw [NoOutwardEffect, houtbound, List.append_right_eq_self, List.flatMap_eq_nil_iff]
  constructor
  · rintro ⟨hnone, -⟩ ⟨address, henqueued⟩
    obtain ⟨t, ht, hstep⟩ := (redirect_mem_turns o mailFrom body opts rcpts 0 site).mpr henqueued
    have hrow := (mem_queuedIn mailFrom body).mpr hstep
    rw [hnone t ht] at hrow
    cases hrow
  · intro h
    refine ⟨fun t ht => ?_, later_of_failed o site mailFrom rcpts body opts hfailed⟩
    rw [queuedIn, List.filterMap_eq_nil_iff]
    intro step hstep
    cases step with
    | redirect address queued =>
      cases queued with
      | true =>
        exact absurd ⟨address, (redirect_mem_turns o mailFrom body opts rcpts 0 site).mp
          ⟨t, ht, hstep⟩⟩ h
      | false => rfl
    | room roomNum flags => rfl
    | vacation reason => rfl
    | nothing => rfl

/-- The insert fails, and the message was for an inbox only. -/
theorem no_outward_effect_iff_inbox : NoOutwardEffect office
    (localDeliver { plain with world := { plain.world with fault := fun _ => some (bytes "disk") } }
      office (bytes "s@z") [bytes "alice@x"] hello noOptions).1 := by
  refine (no_outward_effect_iff _ office (bytes "s@z") [bytes "alice@x"] hello noOptions
    (by decide +kernel)).mpr ?_
  rintro ⟨address, ⟨result, ⟨-, hresult, -⟩, -⟩ | hnone⟩
  · cases hresult
  · exact hnone

/-- A script that redirects a copy and keeps the message: the insert fails, the row stays. -/
theorem redirect_of_failed : ¬∀ (o : Outside) (site : Site) (mailFrom : Bytes)
    (rcpts : List Bytes) (body : Bytes) (opts : Options),
      (localDeliver o site mailFrom rcpts body opts).2.ok = false →
      NoOutwardEffect site (localDeliver o site mailFrom rcpts body opts).1 := by
  intro h
  have hrow := (h
    { plain with
      world := { plain.world with fault := fun _ => some (bytes "disk") }
      interpret := fun _ _ _ _ => .ok ([.redirect (bytes "x@y")], false) }
    { office with
      scripts := [(bytes "alice", bytes "require [\"copy\"];\r\nredirect :copy \"x@y\";\r\n")] }
    (bytes "s@z") [bytes "alice@x"] hello noOptions (by decide +kernel)).1
  exact absurd hrow (by decide +kernel)

end QuackMail.Delivery
