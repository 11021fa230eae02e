import QuackMail.Delivery.LocalDeliver

/-! # The rooms a delivery finds

Which recipients get a room is decided by the tables as they were: what a delivery does for
other users makes no difference, and the first room it finds for a user is not one it made.
-/

namespace QuackMail.Delivery

open Citadel

variable (o : Outside) (site : Site) (mailFrom : Bytes) (rcpts : List Bytes) (body : Bytes)
  (opts : Options)

/-! ## The conditions -/

/-- No statement fails, and the user has an account. -/
def RoomAnswers (d : Directory) (i j : Nat) (user : Bytes) : Prop :=
  o.roomFails i j 1 = false ∧ user ∈ d.store.credentials

/-- The room of the subaddress is there, or may be made. -/
def DetailAnswers (d : Directory) (i j : Nat) (user detail : Bytes) : Prop :=
  detail ≠ [] ∧ o.roomFails i j 0 = false ∧
    if opts.subaddressCreate then user ∈ d.store.credentials else HasRoom d user detail

def KeepAnswers (d : Directory) (i j : Nat) (user detail : Bytes) : Prop :=
  DetailAnswers o opts d i j user detail ∨ RoomAnswers o d i j user

def ActionAnswers (d : Directory) (i j : Nat) (user detail : Bytes) : Action → Prop
  | .keep _ => KeepAnswers o opts d i j user detail
  | .fileinto _ _ => RoomAnswers o d i j user
  | _ => False

/-- Recipient `i` is refused: it is over quota, or its filter rejects or discards. -/
def Refused (rcpt : Bytes) : Prop :=
  (wouldExceed site.dir (localPart rcpt) body.length).2 = true ∨
    ∃ result, filterResult o opts mailFrom body site rcpt = some result ∧
      (result.rejectReason ≠ [] ∨ result.isDiscard = true)

/-- Recipient `i` is not refused, and one of its calls for rooms answers a room. -/
def Answered (i : Nat) (rcpt : Bytes) : Prop :=
  ¬Refused o site mailFrom body opts rcpt ∧
    if opts.folderOverride ≠ [] then RoomAnswers o site.dir i 0 (localPart rcpt)
    else
      match filterResult o opts mailFrom body site rcpt with
      | none => KeepAnswers o opts site.dir i 0 (localPart rcpt) (detailOf opts rcpt)
      | some result => ∃ j a, result.actions[j]? = some a ∧
          ActionAnswers o opts site.dir i j (localPart rcpt) (detailOf opts rcpt) a

/-! ## Calls -/

theorem callRoom_nonneg {fails : Bool} {d : Directory} {call : Directory → Directory × Int} :
    0 ≤ (callRoom fails d call).2 ↔ fails = false ∧ 0 ≤ (call d).2 := by
  cases fails with
  | true => exact iff_of_false (fun h => by cases h) (fun h => by cases h.1)
  | false => exact (and_iff_right rfl).symm

variable {o opts}

theorem detailRoom_nonneg {d : Directory} (h : Sound d) {i j : Nat} {user detail : Bytes} :
    0 ≤ (detailRoom (o.roomFails i j 0) opts user detail d).2 ↔
      DetailAnswers o opts d i j user detail := by
  rw [detailRoom, DetailAnswers]
  split
  · next hempty => exact iff_of_false (fun h => by cases h) (fun h => h.1 hempty)
  · next hdetail =>
    rw [callRoom_nonneg]
    refine (and_congr_right fun _ => ?_).trans (and_iff_right hdetail).symm
    split
    · exact getOrCreateUserRoom_nonneg_iff h hdetail
    · exact findUserRoom_nonneg_iff h user detail

theorem keepRoom_nonneg {d : Directory} (h : Sound d) {i j : Nat} {user detail : Bytes} :
    0 ≤ (keepRoom o opts i j user detail d).2 ↔ KeepAnswers o opts d i j user detail := by
  have hsub := detailRoom_spec h (o.roomFails i j 0) opts user detail
  rw [keepRoom, KeepAnswers, ← detailRoom_nonneg h]
  split
  · next hpos => exact iff_of_true hpos (.inl hpos)
  · next hneg =>
    rw [or_iff_right hneg, callRoom_nonneg, RoomAnswers, ← hsub.ext.credentials]
    exact and_congr_right fun _ => getOrCreateUserRoom_nonneg_iff hsub.sound (by decide)

/-! ## Later in the delivery -/

/-- Nothing was named or made for the user since. -/
structure Later (site site' : Site) (user : Bytes) : Prop where
  scripts : site'.scripts = site.scripts
  sound : Sound site.dir
  sound' : Sound site'.dir
  ext : Extends site.dir site'.dir
  added : ∀ n, Added site.dir site'.dir n → ∃ other, other ≠ user ∧ Owns site'.dir other n

theorem Later.refl {site : Site} (h : Sound site.dir) (user : Bytes) : Later site site user :=
  ⟨rfl, h, h, .refl _, fun n hn => absurd hn (not_added rfl rfl n)⟩

theorem Later.step {site site' site'' : Site} {user : Bytes} {rows : List Outbound}
    {rooms : List (Bytes × Int)} (h : Later site site' user) (hdid : Did site' rows rooms site'')
    (hnone : ∀ e ∈ rooms, 0 ≤ e.2 → e.1 ≠ user) : Later site site'' user := by
  obtain ⟨hsound, hext, -, hadded⟩ := hdid.dir h.sound'
  refine ⟨hdid.scripts.trans h.scripts, h.sound, hsound, h.ext.trans hext, fun n hn => ?_⟩
  cases hn.split with
  | inl hn =>
    obtain ⟨other, hne, howns⟩ := h.added n hn
    exact ⟨other, hne, howns.mono hext⟩
  | inr hn =>
    obtain ⟨e, he, hpos, howns⟩ := hadded n hn
    exact ⟨e.1, hnone e he hpos, howns⟩

theorem Later.hasRoom {site site' : Site} {user : Bytes} (h : Later site site' user)
    (name : Bytes) : HasRoom site'.dir user name ↔ HasRoom site.dir user name :=
  ⟨fun hroom => hroom.of_extends h.sound h.sound' h.ext h.added, fun hroom => hroom.mono h.ext⟩

theorem Later.keepAnswers {site site' : Site} {user : Bytes} (h : Later site site' user)
    (i j : Nat) (detail : Bytes) :
    KeepAnswers o opts site'.dir i j user detail ↔ KeepAnswers o opts site.dir i j user detail := by
  rw [KeepAnswers, KeepAnswers, DetailAnswers, DetailAnswers, RoomAnswers, RoomAnswers,
    h.hasRoom, h.ext.credentials]

/-- The tables say the same of the quota and the filter of every recipient. -/
theorem wouldExceed_later {site site' : Site} (hsound : Sound site.dir)
    (hsound' : Sound site'.dir) (hext : Extends site.dir site'.dir) (user : Bytes) (size : Int) :
    (wouldExceed site'.dir user size).2 = (wouldExceed site.dir user size).2 := by
  have hlimit : ∀ {d d' : Directory}, Extends d d' → limitBytes d'.store user =
      limitBytes d.store user := fun hext => by
    rw [limitBytes, limitBytes, limitFor, limitFor, hext.quotas]
  obtain ⟨-, hassign, -⟩ := getOrAssignUserNum_spec hsound user
  obtain ⟨-, hassign', -⟩ := getOrAssignUserNum_spec hsound' user
  have husage : computeUsage (getOrAssignUserNum site'.dir user).1.store user =
      computeUsage (getOrAssignUserNum site.dir user).1.store user := by
    rw [computeUsage_extends hsound (hext.trans hassign'), computeUsage_extends hsound hassign]
  rw [wouldExceed, wouldExceed, hlimit hext]
  simp only [Citadel.wouldExceed, husage, hlimit hassign, hlimit (hext.trans hassign')]
  rw [apply_ite Prod.snd, apply_ite Prod.snd]

theorem filterResult_later {site site' : Site} (hscripts : site'.scripts = site.scripts)
    (rcpt : Bytes) :
    filterResult o opts mailFrom body site' rcpt = filterResult o opts mailFrom body site rcpt := by
  rw [filterResult, filterResult, loadActiveScript, loadActiveScript, hscripts]

/-! ## Turns -/

theorem performAll_answers {site : Site} {user : Bytes} (i : Nat) (detail : Bytes)
    (actions : List Action) : ∀ (j : Nat) (site' : Site), Later site site' user →
      ((∃ n flags, .room n flags ∈
          (performAll o opts mailFrom body i user detail j site' actions).2 ∧ 0 ≤ n) ↔
        ∃ (k : Nat) (a : Action), actions[k]? = some a ∧
          ActionAnswers o opts site.dir i (j + k) user detail a) := by
  induction actions with
  | nil =>
    intro j site' _
    simp [performAll]
  | cons a actions ih =>
    intro j site' hlater
    have hfirst : (∃ n flags, .room n flags =
          (perform o opts mailFrom body i j user detail site' a).2 ∧ 0 ≤ n) ↔
        ActionAnswers o opts site.dir i j user detail a := by
      cases a with
      | keep flags =>
        rw [ActionAnswers, ← hlater.keepAnswers, ← keepRoom_nonneg hlater.sound']
        constructor
        · rintro ⟨n, flags', heq, hpos⟩
          exact (Step.room.inj heq).1 ▸ hpos
        · exact fun hpos => ⟨_, _, rfl, hpos⟩
      | fileinto folder flags =>
        have hname : (if folder = [] then bytes "Mail" else folder) ≠ [] := by
          split
          · decide
          · next hfolder => exact hfolder
        have hcall : 0 ≤ (callRoom (o.roomFails i j 1) site'.dir fun d =>
              getOrCreateUserRoom d user (if folder = [] then bytes "Mail" else folder)).2 ↔
            RoomAnswers o site.dir i j user := by
          rw [callRoom_nonneg, getOrCreateUserRoom_nonneg_iff hlater.sound' hname, RoomAnswers,
            hlater.ext.credentials]
        rw [ActionAnswers, ← hcall]
        constructor
        · rintro ⟨n, flags', heq, hpos⟩
          exact (Step.room.inj heq).1 ▸ hpos
        · exact fun hpos => ⟨_, _, rfl, hpos⟩
      | redirect address =>
        refine iff_of_false ?_ id
        rintro ⟨n, flags, heq, -⟩
        rw [perform] at heq
        split at heq <;> cases heq
      | reject reason => exact iff_of_false (by rintro ⟨_, _, h, _⟩; cases h) id
      | discard => exact iff_of_false (by rintro ⟨_, _, h, _⟩; cases h) id
      | vacation reason => exact iff_of_false (by rintro ⟨_, _, h, _⟩; cases h) id
    by_cases hanswers : ActionAnswers o opts site.dir i j user detail a
    · obtain ⟨n, flags, heq, hpos⟩ := hfirst.mpr hanswers
      refine iff_of_true ⟨n, flags, ?_, hpos⟩ ⟨0, a, rfl, hanswers⟩
      rw [performAll, heq]
      exact List.mem_cons_self
    · -- no room so far, so the actions that follow still find what was there at the start
      have hlater' := hlater.step (perform_did o opts mailFrom body site' i j user detail a) <| by
        intro e he hpos
        obtain ⟨step, hstep, heq⟩ := List.mem_filterMap.mp he
        rw [List.mem_singleton] at hstep
        cases step with
        | room n flags =>
          obtain rfl := Option.some.inj heq
          exact absurd (hfirst.mp ⟨n, flags, hstep, hpos⟩) hanswers
        | redirect address queued => cases heq
        | vacation reason => cases heq
        | nothing => cases heq
      rw [performAll]
      simp only [List.mem_cons]
      constructor
      · rintro ⟨n, flags, heq | hin, hpos⟩
        · exact absurd (hfirst.mp ⟨n, flags, heq, hpos⟩) hanswers
        · obtain ⟨k, b, hk, hb⟩ := (ih (j + 1) _ hlater').mp ⟨n, flags, hin, hpos⟩
          exact ⟨k + 1, b, hk, by rwa [show j + (k + 1) = j + 1 + k by omega]⟩
      · rintro ⟨k, b, hk, hb⟩
        cases k with
        | zero =>
          obtain rfl := Option.some.inj hk
          exact absurd hb hanswers
        | succ k =>
          obtain ⟨n, flags, hin, hpos⟩ := (ih (j + 1) _ hlater').mpr
            ⟨k, b, hk, by rwa [show j + 1 + k = j + (k + 1) by omega]⟩
          exact ⟨n, flags, .inr hin, hpos⟩

theorem refused_later {site site' : Site} (hsound : Sound site.dir) (hsound' : Sound site'.dir)
    (hext : Extends site.dir site'.dir) (hscripts : site'.scripts = site.scripts) (rcpt : Bytes) :
    Refused o site' mailFrom body opts rcpt ↔ Refused o site mailFrom body opts rcpt := by
  rw [Refused, Refused, wouldExceed_later hsound hsound' hext,
    filterResult_later mailFrom body hscripts]

/-- A recipient's mail is kept exactly when it is not refused. -/
theorem turn_kept (site : Site) (i : Nat) (rcpt : Bytes) :
    (turn o opts mailFrom body i site rcpt).2.kept = false ↔
      Refused o site mailFrom body opts rcpt := by
  have hfilter : filterResult o opts mailFrom body
      { site with dir := (wouldExceed site.dir (localPart rcpt) body.length).1 } rcpt =
      filterResult o opts mailFrom body site rcpt := rfl
  rw [turn, Refused]
  simp only [hfilter]
  split
  · next hover => exact iff_of_true rfl (.inl hover)
  · next hunder =>
    rw [or_iff_right hunder]
    split
    · next hoverride =>
      refine iff_of_false (fun h => by cases h) ?_
      rintro ⟨result, hresult, -⟩
      rw [filterResult, if_pos (.inl hoverride)] at hresult
      cases hresult
    · cases hresult : filterResult o opts mailFrom body site rcpt with
      | none => exact iff_of_false (fun h => by cases h) (by rintro ⟨_, h, _⟩; cases h)
      | some result =>
        simp only [Option.some.injEq, exists_eq_left']
        split
        · next hreject => exact iff_of_true rfl (.inl hreject)
        · next hreject =>
          rw [or_iff_right hreject]
          split
          · next hdiscard => exact iff_of_true rfl hdiscard
          · next hdiscard => exact iff_of_false (fun h => by cases h) hdiscard

/-- A turn before which nothing was found for the user. -/
theorem turn_answers {site site' : Site} {rcpt : Bytes} (i : Nat)
    (hlater : Later site site' (localPart rcpt)) :
    (∃ n flags, .room n flags ∈ (turn o opts mailFrom body i site' rcpt).2.steps ∧ 0 ≤ n) ↔
      Answered o site mailFrom body opts i rcpt := by
  have hquota := wouldExceed_did site' (localPart rcpt) body.length
  have hlater' := hlater.step hquota fun e he => by cases he
  have hfilter : filterResult o opts mailFrom body
      { site' with dir := (wouldExceed site'.dir (localPart rcpt) body.length).1 } rcpt =
      filterResult o opts mailFrom body site rcpt :=
    filterResult_later mailFrom body hlater'.scripts rcpt
  by_cases hrefused : Refused o site mailFrom body opts rcpt
  · -- a recipient that is refused has no steps
    have hkept := (turn_kept mailFrom body site' i rcpt).mpr
      ((refused_later mailFrom body hlater.sound hlater.sound' hlater.ext hlater.scripts rcpt).mpr
        hrefused)
    refine iff_of_false ?_ fun h => h.1 hrefused
    rintro ⟨n, flags, hin, -⟩
    rw [Turn.kept] at hkept
    rw [Turn.steps] at hin
    split at hkept
    · cases hkept
    · next hverdict =>
      split at hin
      · next steps hsteps => exact hverdict steps hsteps
      · cases hin
  · have hunder : ¬(wouldExceed site'.dir (localPart rcpt) body.length).2 = true := by
      rw [wouldExceed_later hlater.sound hlater.sound' hlater.ext]
      exact fun h => hrefused (.inl h)
    rw [Answered, and_iff_right hrefused, turn]
    simp only [if_neg hunder, hfilter]
    have hone : ∀ m : Int, (∃ n flags, Step.room n flags ∈ [Step.room m []] ∧ 0 ≤ n) ↔ 0 ≤ m := by
      intro m
      constructor
      · rintro ⟨n, flags, hin, hpos⟩
        exact (Step.room.inj (List.mem_singleton.mp hin)).1 ▸ hpos
      · exact fun hpos => ⟨m, [], List.mem_singleton_self _, hpos⟩
    split
    · next hoverride =>
      rw [Turn.steps, hone, callRoom_nonneg,
        getOrCreateUserRoom_nonneg_iff hlater'.sound' hoverride, RoomAnswers,
        hlater'.ext.credentials]
    · cases hresult : filterResult o opts mailFrom body site rcpt with
      | none =>
        rw [Turn.steps, hone, keepRoom_nonneg hlater'.sound', hlater'.keepAnswers]
      | some result =>
        have hreject : ¬result.rejectReason ≠ [] := fun h =>
          hrefused (.inr ⟨result, hresult, .inl h⟩)
        have hdiscard : ¬result.isDiscard = true := fun h =>
          hrefused (.inr ⟨result, hresult, .inr h⟩)
        simp only [if_neg hreject, if_neg hdiscard]
        rw [Turn.steps, performAll_answers mailFrom body i _ result.actions 0 _ hlater']
        simp

/-- Some room is found for a user exactly when one of its recipients is answered. -/
theorem turns_answers {site : Site} {user : Bytes} (rcpts : List Bytes) :
    ∀ (i : Nat) (site' : Site), Later site site' user →
      ((∃ t ∈ (turns o opts mailFrom body i site' rcpts).2, localPart t.rcpt = user ∧
          ∃ n flags, .room n flags ∈ t.steps ∧ 0 ≤ n) ↔
        ∃ (k : Nat) (rcpt : Bytes), rcpts[k]? = some rcpt ∧ localPart rcpt = user ∧
          Answered o site mailFrom body opts (i + k) rcpt) := by
  induction rcpts with
  | nil =>
    intro i site' _
    simp [turns]
  | cons rcpt rcpts ih =>
    intro i site' hlater
    obtain ⟨hdid, hrcpt⟩ := turn_did o opts mailFrom body site' i rcpt
    by_cases hfirst : localPart rcpt = user ∧ Answered o site mailFrom body opts i rcpt
    · obtain ⟨rfl, hanswered⟩ := hfirst
      refine iff_of_true ⟨_, ?_, congrArg localPart hrcpt,
        (turn_answers mailFrom body i hlater).mpr hanswered⟩ ⟨0, rcpt, rfl, rfl, hanswered⟩
      exact List.mem_cons_self
    · -- the recipient is another user's, or nothing was found for it
      have hnone : ∀ e ∈ roomsIn (localPart rcpt) (turn o opts mailFrom body i site' rcpt).2.steps,
          0 ≤ e.2 → e.1 ≠ user := by
        intro e he hpos huser
        obtain ⟨step, hstep, heq⟩ := List.mem_filterMap.mp he
        cases step with
        | room n flags =>
          obtain rfl := Option.some.inj heq
          subst huser
          exact hfirst ⟨rfl, (turn_answers mailFrom body i hlater).mp ⟨n, flags, hstep, hpos⟩⟩
        | redirect address queued => cases heq
        | vacation reason => cases heq
        | nothing => cases heq
      have hrest := ih (i + 1) _ (hlater.step hdid hnone)
      rw [turns]
      simp only [List.mem_cons, exists_eq_or_imp, hrest]
      constructor
      · rintro (⟨huser, hfound⟩ | ⟨k, next, hk, huser, hanswered⟩)
        · obtain rfl : localPart rcpt = user := hrcpt ▸ huser
          exact absurd ⟨rfl, (turn_answers mailFrom body i hlater).mp hfound⟩ hfirst
        · exact ⟨k + 1, next, hk, huser, by rwa [show i + (k + 1) = i + 1 + k by omega]⟩
      · rintro ⟨k, next, hk, huser, hanswered⟩
        cases k with
        | zero =>
          obtain rfl := Option.some.inj hk
          exact absurd ⟨huser, hanswered⟩ hfirst
        | succ k =>
          exact .inr ⟨k, next, hk, huser, by rwa [show i + 1 + k = i + (k + 1) by omega]⟩

end QuackMail.Delivery
