import QuackMail.Dav.Conditional

/-! # Requests that nothing disturbs

Where every change of a resource finds linked what its headers were tested against, the
changes are a history of one cell, whose versions are message numbers that are never drawn
twice.  What conditional requests promise is then what such histories have.
-/

namespace QuackMail.Dav

open Citadel Wiki Versions VersionHistory

/-! ## The current version -/

section Current

variable {E : Nat → Message} {w : World} {s s' : Store} {room : Nat} {euid : Bytes}

theorem findByEuid_eq_some (hne : euid ≠ []) {n : Nat} : findByEuid s room euid = some n ↔
      n ∈ rowsByEuid s room euid ∧ ∀ m ∈ rowsByEuid s room euid, m ≤ n := by
  rw [findByEuid, if_neg hne, List.max?_eq_some_iff]

theorem findByEuid_congr (hne : euid ≠ [])
    (h : ∀ m, m ∈ rowsByEuid s' room euid ↔ m ∈ rowsByEuid s room euid) :
    findByEuid s' room euid = findByEuid s room euid := by
  refine Option.ext fun n => ?_
  simp only [findByEuid_eq_some hne, h]

theorem findByEuid_of_rows (hne : euid ≠ []) {current : Option Nat}
    (h : rowsByEuid s room euid = current.toList) : findByEuid s room euid = current := by
  rw [findByEuid, if_neg hne, h]
  cases current <;> rfl

/-- A version that is committed is the current one. -/
theorem findByEuid_insert (hok : Ok E s) (hne : euid ≠ []) {msg : Message}
    (about : msg.euid = euid) {created : Nat}
    (h : insertMessage w s msg [room] = (s', .ok created)) :
    findByEuid s' room euid = some created := by
  refine (findByEuid_eq_some hne).mpr ⟨?_, fun m hm => ?_⟩
  · exact (mem_rowsByEuid_insert hok h).mpr (.inl ⟨rfl, about⟩)
  · rcases (mem_rowsByEuid_insert hok h).mp hm with ⟨rfl, -⟩ | ⟨-, hlt⟩
    · exact Nat.le_refl _
    · exact hlt.le

/-- The removal of another version does not change the current one. -/
theorem findByEuid_delete (hne : euid ≠ []) {n : Nat} (hother : findByEuid s room euid ≠ some n) :
    findByEuid (deleteMessage w s room n).1 room euid = findByEuid s room euid := by
  cases hnow : findByEuid s room euid with
  | none =>
    rw [findByEuid, if_neg hne, List.max?_eq_none_iff] at hnow ⊢
    refine List.eq_nil_iff_forall_not_mem.mpr fun m hm => ?_
    have hold := (mem_rowsByEuid_delete.mp hm).1
    rw [hnow] at hold
    cases hold
  | some m =>
    obtain ⟨hin, hmax⟩ := (findByEuid_eq_some hne).mp hnow
    refine (findByEuid_eq_some hne).mpr ⟨?_, fun m' hm' => ?_⟩
    · refine mem_rowsByEuid_delete.mpr ⟨hin, ?_⟩
      rintro rfl
      exact hother hnow
    · exact hmax m' (mem_rowsByEuid_delete.mp hm').1

theorem seq_delete (n : Nat) : s.seq ≤ (deleteMessage w s room n).1.seq := by
  rw [deleteMessage]
  split
  · exact Nat.le_succ _
  · exact Nat.le_refl _

theorem seq_insert_error {msg : Message} {err : Bytes}
    (h : insertMessage w s msg [room] = (s', .error err)) : s.seq ≤ s'.seq := by
  obtain ⟨-, rfl⟩ | ⟨-, rfl⟩ := insertMessage_refused h
  · exact Nat.le_refl _
  · exact Nat.le_succ _

end Current

/-! ## The invariant -/

/-- What a request knows at each stage. -/
def Sound {euid : Bytes} (accepted : List (Change Nat Nat)) (k : Nat) (r : Request euid) : Prop :=
  match r.stage with
  | .begun => True
  | .saving tested call =>
    r.verb.meets tested = true ∧ (∃ msg about im inm, r.verb = .put msg about im inm) ∧
      match call with
      | .save _ _ => True
      | .found _ _ _ => True
      | .stored _ old =>
        (∃ c ∈ accepted, c.who = k) ∧ ∀ n, old = some n → ∃ c ∈ accepted, c.before = some n
      | _ => False
  | .deleting tested => r.verb.meets (some tested) = true ∧ ∃ im, r.verb = .delete im
  | .removing tested _ => r.verb.meets (some tested) = true ∧ ∃ im, r.verb = .delete im
  | .answered status =>
    (Stage.answered status : Stage euid).succeeded = true → ∃ c ∈ accepted, c.who = k

/-- A change is one that its request may make. -/
def Fits {euid : Bytes} (v : Verb euid) (c : Change Nat Nat) : Prop :=
  v.meets c.before = true ∧
    match v with
    | .put _ _ _ _ => c.after.isSome = true
    | .delete _ => c.after = none ∧ c.before.isSome = true

/-- The changes are a history of the resource, and what is linked beside the current version
    has been replaced. -/
structure Kept (first : Option Nat) (room : Nat) {euid : Bytes} (y : Site euid) : Prop where
  ok : ∃ E, Ok E y.store
  history : History first y.accepted (findByEuid y.store room euid)
  drawn : ∀ n ∈ versions first y.accepted, n < y.store.seq
  rows : ∀ m ∈ rowsByEuid y.store room euid,
    findByEuid y.store room euid = some m ∨ ∃ c ∈ y.accepted, c.before = some m
  fits : ∀ c ∈ y.accepted, Fits (y.requests c.who).verb c
  sound : ∀ k, Sound y.accepted k (y.requests k)

section Steps

variable {kind : Kind} {readable : Message → Bool} {first : Option Nat} {room : Nat}
  {euid : Bytes} {y : Site euid}

variable {k : Nat} {s' : Store} {stage : Stage euid} {w : World} {tested : Option Nat}

theorem Sound.mono {r : Request euid} {accepted accepted' : List (Change Nat Nat)}
    (h : Sound accepted k r) (hsub : ∀ c ∈ accepted, c ∈ accepted') : Sound accepted' k r := by
  have hex : ∀ P : Change Nat Nat → Prop, (∃ c ∈ accepted, P c) → ∃ c ∈ accepted', P c :=
    fun P ⟨c, hc, hP⟩ => ⟨c, hsub c hc, hP⟩
  unfold Sound at h ⊢
  cases hstage : r.stage with
  | begun => trivial
  | saving tested call =>
    rw [hstage] at h
    obtain ⟨hmeets, hput, hcall⟩ := h
    refine ⟨hmeets, hput, ?_⟩
    cases call with
    | stored created old => exact ⟨hex _ hcall.1, fun n hn => hex _ (hcall.2 n hn)⟩
    | save msg about => trivial
    | found msg about old => trivial
    | erase => exact hcall
    | erasing n => exact hcall
    | done => exact hcall
  | deleting tested =>
    rw [hstage] at h
    exact h
  | removing tested n =>
    rw [hstage] at h
    exact h
  | answered status =>
    rw [hstage] at h
    exact fun hok => hex _ (h hok)

/-- The verb of a request stays what it is. -/
theorem verb_update (k : Nat) (stage : Stage euid) (j : Nat) :
    (Function.update y.requests k ⟨(y.requests k).verb, stage⟩ j).verb = (y.requests j).verb := by
  by_cases hjk : j = k
  · rw [hjk, Function.update_self]
  · rw [Function.update_of_ne hjk]

/-- A step that makes no change. -/
theorem Kept.quiet (h : Kept first room y) (hok : ∃ E, Ok E s') (hseq : y.store.seq ≤ s'.seq)
    (hnow : findByEuid s' room euid = findByEuid y.store room euid)
    (hrows : ∀ m ∈ rowsByEuid s' room euid, m ∈ rowsByEuid y.store room euid)
    (hsound : Sound y.accepted k ⟨(y.requests k).verb, stage⟩) :
    Kept first room
      ⟨s', Function.update y.requests k ⟨(y.requests k).verb, stage⟩, y.accepted⟩ where
  ok := hok
  history := by
    rw [hnow]
    exact h.history
  drawn := fun n hn => (h.drawn n hn).trans_le hseq
  rows := by
    rw [hnow]
    exact fun m hm => h.rows m (hrows m hm)
  fits := by
    intro c hc
    rw [verb_update]
    exact h.fits c hc
  sound := by
    intro j
    dsimp only
    by_cases hjk : j = k
    · rw [hjk, Function.update_self]
      exact hsound
    · rw [Function.update_of_ne hjk]
      exact h.sound j

/-- A step that makes a change. -/
theorem Kept.change (h : Kept first room y) (hok : ∃ E, Ok E s') (hseq : y.store.seq ≤ s'.seq)
    (hnew : ∀ n, findByEuid s' room euid = some n → y.store.seq ≤ n ∧ n < s'.seq)
    (hrows : ∀ m ∈ rowsByEuid s' room euid,
      findByEuid s' room euid = some m ∨ findByEuid y.store room euid = some m)
    (hfits : Fits (y.requests k).verb
      ⟨k, findByEuid y.store room euid, findByEuid s' room euid⟩)
    (hsound : Sound (y.accepted ++
      [⟨k, findByEuid y.store room euid, findByEuid s' room euid⟩]) k
      ⟨(y.requests k).verb, stage⟩) :
    Kept first room ⟨s', Function.update y.requests k ⟨(y.requests k).verb, stage⟩,
      y.accepted ++ [⟨k, findByEuid y.store room euid, findByEuid s' room euid⟩]⟩ where
  ok := hok
  history := by
    refine History.step
      (⟨k, findByEuid y.store room euid, findByEuid s' room euid⟩ : Change Nat Nat) h.history ?_
    intro n hn hin
    exact absurd (h.drawn n hin) (Nat.not_lt.mpr (hnew n hn).1)
  drawn := by
    intro n hn
    rcases mem_versions.mp hn with hfirst | ⟨c, hc, hafter⟩
    · exact (h.drawn n (mem_versions.mpr (.inl hfirst))).trans_le hseq
    · rcases List.mem_append.mp hc with hold | hlast
      · exact (h.drawn n (mem_versions.mpr (.inr ⟨c, hold, hafter⟩))).trans_le hseq
      · obtain rfl := List.mem_singleton.mp hlast
        exact (hnew n hafter).2
  rows := by
    intro m hm
    refine (hrows m hm).imp_right fun hbefore => ?_
    exact ⟨_, List.mem_append_right _ (List.mem_singleton_self _), hbefore⟩
  fits := by
    intro c hc
    rw [verb_update]
    rcases List.mem_append.mp hc with hold | hlast
    · exact h.fits c hold
    · obtain rfl := List.mem_singleton.mp hlast
      exact hfits
  sound := by
    intro j
    dsimp only
    by_cases hjk : j = k
    · rw [hjk, Function.update_self]
      exact hsound
    · rw [Function.update_of_ne hjk]
      exact (h.sound j).mono fun c hc => List.mem_append_left _ hc

/-! ## One step -/

theorem step_quiet (h : (y.requests k).advance w kind readable room y.store = (s', stage, false)) :
    y.step kind readable room (w, k) =
      ⟨s', Function.update y.requests k ⟨(y.requests k).verb, stage⟩, y.accepted⟩ := by
  rw [Site.step, h]
  rfl

theorem step_change (h : (y.requests k).advance w kind readable room y.store = (s', stage, true)) :
    y.step kind readable room (w, k) =
      ⟨s', Function.update y.requests k ⟨(y.requests k).verb, stage⟩,
        y.accepted ++ [⟨k, findByEuid y.store room euid, findByEuid s' room euid⟩]⟩ := by
  rw [Site.step, h]
  rfl

/-- A step that leaves the store alone. -/
theorem Kept.still (h : Kept first room y) (stage : Stage euid)
    (hadv : (y.requests k).advance w kind readable room y.store = (y.store, stage, false))
    (hsound : Sound y.accepted k ⟨(y.requests k).verb, stage⟩) :
    Kept first room (y.step kind readable room (w, k)) := by
  rw [step_quiet hadv]
  exact h.quiet h.ok (Nat.le_refl _) rfl (fun _ hm => hm) hsound

variable {v : Verb euid} {msg : Message}

theorem sound_refused {status : Nat}
    (hstatus : (Stage.answered status : Stage euid).succeeded = false) :
    Sound y.accepted k ⟨v, .answered status⟩ := by
  intro hok
  rw [hstatus] at hok
  cases hok

theorem fits_put {about : msg.euid = euid} {im inm : Bytes}
    (hverb : v = .put msg about im inm) {c : Change Nat Nat} (hmeets : v.meets c.before = true)
    (hafter : c.after.isSome = true) : Fits v c := by
  subst hverb
  exact ⟨hmeets, hafter⟩

theorem fits_delete {im : Bytes} (hverb : v = .delete im) {c : Change Nat Nat}
    (hmeets : v.meets c.before = true) (hafter : c.after = none)
    (hbefore : c.before.isSome = true) : Fits v c := by
  subst hverb
  exact ⟨hmeets, hafter, hbefore⟩

/-- The tests of a request. -/
theorem kept_begun (h : Kept first room y) (hstage : (y.requests k).stage = .begun) :
    Kept first room (y.step kind readable room (w, k)) := by
  cases hverb : (y.requests k).verb with
  | put msg about im inm =>
    by_cases hmeets : (y.requests k).verb.meets (existing kind readable y.store room euid) = true
    · refine h.still (.saving (existing kind readable y.store room euid) (.save msg about)) ?_
        ⟨hmeets, ⟨msg, about, im, inm, hverb⟩, trivial⟩
      rw [Request.advance, hstage]
      simp only [hverb] at hmeets ⊢
      rw [if_pos hmeets]
    · refine h.still (.answered 412) ?_ (sound_refused rfl)
      rw [Request.advance, hstage]
      simp only [hverb] at hmeets ⊢
      rw [if_neg hmeets]
  | delete im =>
    cases hload : load readable y.store room (loadedEuid kind euid) with
    | none =>
      refine h.still (.answered 404) ?_ (sound_refused rfl)
      rw [Request.advance, hstage]
      simp only [hverb, hload]
    | some n =>
      by_cases hmeets : (y.requests k).verb.meets (some n) = true
      · refine h.still (if kind = .file then .deleting n else .removing n n) ?_ ?_
        · rw [Request.advance, hstage]
          simp only [hverb, hload] at hmeets ⊢
          rw [if_pos hmeets]
        · split
          · exact ⟨hmeets, im, hverb⟩
          · exact ⟨hmeets, im, hverb⟩
      · refine h.still (.answered 412) ?_ (sound_refused rfl)
        rw [Request.advance, hstage]
        simp only [hverb, hload] at hmeets ⊢
        rw [if_neg hmeets]

theorem advance_saving {s : Store} {r : Request euid}
    {call : Call euid} (hstage : r.stage = .saving tested call)
    (h : call.advance w room s = (s', .done)) :
    r.advance w kind readable room s =
      (s', .answered (saveStatus kind tested call), false) := by
  rw [Request.advance, hstage]
  simp only [h]

/-- The look-up of a save. -/
theorem kept_save (h : Kept first room y) {about : msg.euid = euid}
    (hstage : (y.requests k).stage = .saving tested (.save msg about)) :
    Kept first room (y.step kind readable room (w, k)) := by
  have hsound := h.sound k
  rw [Sound, hstage] at hsound
  obtain ⟨hmeets, hput, -⟩ := hsound
  by_cases hempty : msg.euid = []
  · have hcall : (Call.save msg about).advance w room y.store = (y.store, .done) := by
      rw [Call.advance, if_pos hempty]
    refine h.still _ (advance_saving hstage hcall) (sound_refused ?_)
    cases kind <;> rfl
  · refine h.still (.saving tested (.found msg about (findByEuid y.store room msg.euid))) ?_
      ⟨hmeets, hput, trivial⟩
    rw [Request.advance, hstage]
    simp only [Call.advance, if_neg hempty]

/-- The commit of a save. -/
theorem kept_found (h : Kept first room y) (hne : euid ≠ [])
    {old : Option Nat} {about : msg.euid = euid}
    (hstage : (y.requests k).stage = .saving tested (.found msg about old))
    (hundisturbed : Undisturbed room y (w, k)) :
    Kept first room (y.step kind readable room (w, k)) := by
  have hsound := h.sound k
  rw [Sound, hstage] at hsound
  obtain ⟨hmeets, ⟨msg', about', im, inm, hverb⟩, -⟩ := hsound
  rw [Undisturbed, hstage] at hundisturbed
  obtain ⟨E, hok⟩ := h.ok
  cases hins : insertMessage w y.store msg [room] with
  | mk s' r =>
    cases r with
    | error err =>
      have hcall : (Call.found msg about old).advance w room y.store = (s', .done) := by
        simp only [Call.advance, hins]
      have hsame := @rowsByEuid_insert_error w y.store s' room euid msg [room] err hins
      rw [step_quiet (advance_saving hstage hcall)]
      refine h.quiet ?_ (seq_insert_error hins) ?_ ?_ (sound_refused ?_)
      · obtain ⟨E', hok'⟩ := ok_advance (w := w) hok (.found msg about old)
        rw [hcall] at hok'
        exact ⟨E', hok'⟩
      · exact findByEuid_congr hne fun m => by rw [hsame]
      · intro m hm
        rwa [hsame] at hm
      · cases kind <;> rfl
    | ok created =>
      have hadv : (y.requests k).advance w kind readable room y.store =
          (s', .saving tested (.stored created old), true) := by
        rw [Request.advance, hstage]
        simp only [Call.advance, hins]
      obtain ⟨hquota, hfault, -⟩ := insertMessage_accepted hins
      obtain ⟨hrows, rfl⟩ := hundisturbed hquota hfault
      have hnow := findByEuid_of_rows hne hrows
      have hafter := findByEuid_insert hok hne about hins
      obtain ⟨hcreated, hseq, -, -, E', -, -, hok'⟩ := insertMessage_ok hok hins
      rw [step_change hadv]
      refine h.change ⟨E', hok'⟩ (by omega) ?_ ?_ ?_ ?_
      · intro n hn
        rw [hafter] at hn
        obtain rfl := Option.some.inj hn
        omega
      · intro m hm
        rcases (mem_rowsByEuid_insert hok hins).mp hm with ⟨rfl, -⟩ | ⟨hold, -⟩
        · exact .inl hafter
        · right
          rw [hrows] at hold
          rw [hnow]
          exact Option.mem_toList.mp hold
      · refine fits_put hverb ?_ ?_
        · rw [hnow]
          exact hmeets
        · rw [hafter]
          rfl
      · refine ⟨hmeets, ⟨msg', about', im, inm, hverb⟩, ?_, ?_⟩
        · exact ⟨_, List.mem_append_right _ (List.mem_singleton_self _), rfl⟩
        · intro n hn
          refine ⟨_, List.mem_append_right _ (List.mem_singleton_self _), ?_⟩
          rw [← hn]
          exact hnow

/-- The unlinking of the version that a save has replaced. -/
theorem kept_stored (h : Kept first room y) (hne : euid ≠ []) {created : Nat} {old : Option Nat}
    (hstage : (y.requests k).stage = .saving tested (.stored created old)) :
    Kept first room (y.step kind readable room (w, k)) := by
  have hsound := h.sound k
  rw [Sound, hstage] at hsound
  obtain ⟨-, -, hdone, hreplaced⟩ := hsound
  obtain ⟨E, hok⟩ := h.ok
  cases hold : old with
  | none =>
    have hcall : (Call.stored created old : Call euid).advance w room y.store =
        (y.store, .done) := by
      simp only [Call.advance, hold]
    exact h.still _ (advance_saving hstage hcall) fun _ => hdone
  | some n =>
    by_cases hself : n = created
    · have hcall : (Call.stored created old : Call euid).advance w room y.store =
          (y.store, .done) := by
        simp only [Call.advance, hold, if_pos hself]
      exact h.still _ (advance_saving hstage hcall) fun _ => hdone
    · have hcall : (Call.stored created old : Call euid).advance w room y.store =
          ((deleteMessage w y.store room n).1, .done) := by
        simp only [Call.advance, hold, if_neg hself]
      rw [step_quiet (advance_saving hstage hcall)]
      obtain ⟨c, hc, hbefore⟩ := hreplaced n hold
      have hother : findByEuid y.store room euid ≠ some n := fun hnow =>
        h.history.not_replaced hnow c hc hbefore
      refine h.quiet ?_ (seq_delete n) (findByEuid_delete hne hother) ?_ fun _ => hdone
      · exact ok_advance (w := w) hok (.erasing n : Call euid)
      · exact fun m hm => (mem_rowsByEuid_delete.mp hm).1

/-- The look-up of `RemoveFile`. -/
theorem kept_deleting (h : Kept first room y) {tested : Nat}
    (hstage : (y.requests k).stage = .deleting tested) :
    Kept first room (y.step kind readable room (w, k)) := by
  have hsound := h.sound k
  rw [Sound, hstage] at hsound
  cases hfind : findByEuid y.store room euid with
  | none =>
    refine h.still (.answered 409) ?_ (sound_refused rfl)
    rw [Request.advance, hstage]
    simp only [hfind]
  | some n =>
    refine h.still (.removing tested n) ?_ hsound
    rw [Request.advance, hstage]
    simp only [hfind]

/-- `DeleteMessage`. -/
theorem kept_removing (h : Kept first room y) (hne : euid ≠ []) {tested n : Nat}
    (hstage : (y.requests k).stage = .removing tested n)
    (hundisturbed : Undisturbed room y (w, k)) :
    Kept first room (y.step kind readable room (w, k)) := by
  have hsound := h.sound k
  rw [Sound, hstage] at hsound
  obtain ⟨hmeets, im, hverb⟩ := hsound
  rw [Undisturbed, hstage] at hundisturbed
  obtain ⟨E, hok⟩ := h.ok
  by_cases hin : messageInRoom y.store room n = true
  · obtain ⟨hrows, rfl⟩ := hundisturbed hin
    have hadv : (y.requests k).advance w kind readable room y.store =
        ((deleteMessage w y.store room n).1, .answered 204, true) := by
      have hdeleted : deleteMessage w y.store room n =
          ((deleteMessage w y.store room n).1, .ok ()) := by
        rw [deleteMessage, if_pos hin]
      rw [Request.advance, hstage]
      dsimp only
      rw [hdeleted]
    have hnow : findByEuid y.store room euid = some n := findByEuid_of_rows hne hrows
    have hgone : rowsByEuid (deleteMessage w y.store room n).1 room euid = [] := by
      refine List.eq_nil_iff_forall_not_mem.mpr fun m hm => ?_
      obtain ⟨hold, hother⟩ := mem_rowsByEuid_delete.mp hm
      rw [hrows] at hold
      exact hother (List.mem_singleton.mp hold)
    have hafter : findByEuid (deleteMessage w y.store room n).1 room euid = none :=
      findByEuid_of_rows hne hgone
    rw [step_change hadv]
    refine h.change ?_ (seq_delete n) ?_ ?_ ?_ ?_
    · exact ok_advance (w := w) hok (.erasing n : Call euid)
    · intro m hm
      rw [hafter] at hm
      cases hm
    · intro m hm
      rw [hgone] at hm
      cases hm
    · refine fits_delete hverb ?_ hafter ?_
      · rw [hnow]
        exact hmeets
      · rw [hnow]
        rfl
    · exact fun _ => ⟨_, List.mem_append_right _ (List.mem_singleton_self _), rfl⟩
  · refine h.still (.answered 409) ?_ (sound_refused rfl)
    have hrefused : deleteMessage w y.store room n =
        (y.store, .error (bytes "message not found in this room")) := by
      rw [deleteMessage, if_neg hin]
    rw [Request.advance, hstage]
    simp only [hrefused]

theorem kept_step (h : Kept first room y) (hne : euid ≠ []) {a : World × Nat}
    (hundisturbed : Undisturbed room y a) : Kept first room (y.step kind readable room a) := by
  obtain ⟨w, k⟩ := a
  cases hstage : (y.requests k).stage with
  | begun => exact kept_begun h hstage
  | saving tested call =>
    have hsound := h.sound k
    rw [Sound, hstage] at hsound
    cases call with
    | save msg about => exact kept_save h hstage
    | found msg about old => exact kept_found h hne hstage hundisturbed
    | stored created old => exact kept_stored h hne hstage
    | erase => exact hsound.2.2.elim
    | erasing n => exact hsound.2.2.elim
    | done => exact hsound.2.2.elim
  | deleting tested => exact kept_deleting h hstage
  | removing tested n => exact kept_removing h hne hstage hundisturbed
  | answered status =>
    have hsound := h.sound k
    rw [Sound, hstage] at hsound
    refine h.still (.answered status) ?_ hsound
    rw [Request.advance, hstage]

end Steps

/-! ## Runs -/

section Runs

variable {kind : Kind} {readable : Message → Bool} {first : Option Nat} {room : Nat}
  {euid : Bytes}

theorem kept_run (hne : euid ≠ []) (acts : List (World × Nat)) :
    ∀ {y : Site euid}, Kept first room y → AllUndisturbed kind readable room y acts →
      Kept first room (y.run kind readable room acts) := by
  induction acts with
  | nil => exact fun h _ => h
  | cons a acts ih => exact fun h hall => ih (kept_step h hne hall.1) hall.2

theorem kept_opening {E : Nat → Message} {s : Store} (hok : Ok E s) (hne : euid ≠ [])
    (hone : ∀ m ∈ rowsByEuid s room euid, findByEuid s room euid = some m)
    (verbs : Nat → Verb euid) :
    Kept (findByEuid s room euid) room (Site.opening s verbs) where
  ok := ⟨E, hok⟩
  history := History.start
  drawn := by
    intro n hn
    rcases mem_versions.mp hn with hnow | ⟨c, hc, -⟩
    · exact member_lt hok ((mem_rowsByEuid hok).mp ((findByEuid_eq_some hne).mp hnow).1).1
    · cases hc
  rows := fun m hm => .inl (hone m hm)
  fits := by
    intro c hc
    cases hc
  sound := fun _ => trivial

/-! ## What the headers say -/

variable {v : Verb euid}

theorem match_of_meets {current : Option Nat} (h : v.meets current = true)
    (hmatch : v.ifMatch ≠ []) :
    ∃ n, current = some n ∧ etagListMatches v.ifMatch (etagFor n) = true := by
  simp only [Verb.meets, Bool.and_eq_true, Bool.or_eq_true, List.isEmpty_iff] at h
  rcases h.2 with hempty | hany
  · exact absurd hempty hmatch
  · exact (Option.any_eq_true _ _).mp hany

/-- A request that names version `n` meets it and no other. -/
theorem version_of_meets {current : Option Nat} (h : v.meets current = true)
    {n : Nat} (hmatch : v.ifMatch = etagFor n) : current = some n := by
  have hne : v.ifMatch ≠ [] := by
    rw [hmatch]
    exact List.cons_ne_nil _ _
  obtain ⟨m, hm, hlist⟩ := match_of_meets h hne
  rw [hmatch, etagListMatches_etagFor] at hlist
  rw [hm, hlist]

/-- A request that names no version creates one where there was none. -/
theorem creates_of_fits {c : Change Nat Nat} (h : Fits v c)
    (hnone : v.ifNoneMatch ≠ []) : c.before = none ∧ c.after ≠ none := by
  obtain ⟨hmeets, hverb⟩ := h
  constructor
  · simp only [Verb.meets, Bool.and_eq_true, Bool.or_eq_true, List.isEmpty_iff] at hmeets
    rcases hmeets.1 with hempty | habsent
    · exact absurd hempty hnone
    · exact Option.isNone_iff_eq_none.mp habsent
  · cases v with
    | put msg about im inm => exact Option.isSome_iff_ne_none.mp hverb
    | delete im => exact absurd rfl hnone

theorem accepted_of_succeeded {accepted : List (Change Nat Nat)} {k : Nat} {r : Request euid}
    (h : Sound accepted k r) (hok : r.stage.succeeded = true) : ∃ c ∈ accepted, c.who = k := by
  rw [Sound] at h
  cases hstage : r.stage with
  | answered status =>
    rw [hstage] at h hok
    exact h hok
  | begun =>
    rw [hstage] at hok
    cases hok
  | saving tested call =>
    rw [hstage] at hok
    cases hok
  | deleting tested =>
    rw [hstage] at hok
    cases hok
  | removing tested n =>
    rw [hstage] at hok
    cases hok

/-- What the invariant says of the answers. -/
theorem conditional_of_kept {y : Site euid} (h : Kept first room y) : Conditional y where
  named := fun c hc => (h.fits c hc).1
  accepted := fun k hok => accepted_of_succeeded (h.sound k) hok
  matchOnce := by
    rintro n j k hjk hj hk ⟨hokj, hokk⟩
    obtain ⟨c, hc, rfl⟩ := accepted_of_succeeded (h.sound j) hokj
    obtain ⟨d, hd, rfl⟩ := accepted_of_succeeded (h.sound k) hokk
    have hsame := h.history.replaced_once hc hd (version_of_meets (h.fits c hc).1 hj)
      (version_of_meets (h.fits d hd).1 hk)
    exact hjk (congrArg Change.who hsame)
  createOnce := by
    intro before between after c d heq hc hd
    have hcin : c ∈ y.accepted := by
      rw [heq]
      exact List.mem_append_right _ List.mem_cons_self
    have hdin : d ∈ y.accepted := by
      rw [heq]
      exact List.mem_append_right _
        (List.mem_cons_of_mem _ (List.mem_append_right _ List.mem_cons_self))
    exact h.history.emptied_between heq (creates_of_fits (h.fits c hcin) hc).2
      (creates_of_fits (h.fits d hdin) hd).1
  removed := by
    intro c hc im hverb
    have hfits := h.fits c hc
    rw [hverb] at hfits
    obtain ⟨hmeets, hafter, hbefore⟩ := hfits
    obtain ⟨n, hn⟩ := Option.isSome_iff_exists.mp hbefore
    refine ⟨hafter, n, hn, fun him => ?_⟩
    obtain ⟨m, hm, hlist⟩ := match_of_meets hmeets him
    rw [hn] at hm
    obtain rfl := Option.some.inj hm
    exact hlist

end Runs

/-- From any store the operations lead to, with one version of the resource at most: in every
    run of conditional requests that nothing disturbs, they keep their promise. -/
theorem conditional_of_undisturbed (kind : Kind) (readable : Message → Bool) (rooms : List Room)
    (config : List (Bytes × Bytes)) (users : List (Bytes × Int)) (credentials : List Bytes)
    (quotas : List Limit) (past : List (World × Op)) (room : Nat) (euid : Bytes)
    (hne : euid ≠ []) (verbs : Nat → Verb euid) (acts : List (World × Nat)) :
    let start := Site.opening (run (fresh rooms config users credentials quotas) past) verbs
    (∀ m ∈ rowsByEuid start.store room euid, findByEuid start.store room euid = some m) →
    AllUndisturbed kind readable room start acts →
    Conditional (start.run kind readable room acts) := by
  intro start hone hall
  obtain ⟨E, hok⟩ := ok_run rooms config users credentials quotas past
  exact conditional_of_kept (kept_run hne acts (kept_opening hok hne hone verbs) hall)

theorem draft_euid : draft.euid = bytes "a" := rfl

/-- Two requests that name version 1 of a resource. -/
def editors : Nat → Verb (bytes "a")
  | 0 => .put draft draft_euid (etagFor 1) []
  | 1 => .put draft draft_euid (etagFor 1) []
  | _ => .delete (etagFor 1)

/-- One editor after the other: the second is refused. -/
theorem conditional_of_undisturbed_apart :
    let start := Site.opening (run (fresh [⟨7, 0, 0, 0, 0, 0⟩] [] [] [] [])
      [(still, .insert draft [7])]) editors
    let finish := start.run .object (fun _ => true) 7
      [(still, 0), (still, 0), (still, 0), (still, 0), (still, 1), (still, 2)]
    Conditional finish ∧ finish.accepted = [⟨0, some 1, some 2⟩] := by
  refine ⟨conditional_of_undisturbed .object (fun _ => true) [⟨7, 0, 0, 0, 0, 0⟩] [] [] [] []
    [(still, .insert draft [7])] 7 (bytes "a") (by decide) editors _ (by decide +kernel) ?_,
    by decide +kernel⟩
  exact ⟨trivial, trivial, fun _ _ => by decide +kernel, trivial, trivial, trivial, trivial⟩

/-- Both look before either saves: both succeed, and what the first stored is gone. -/
theorem editors_both_succeed : ¬∀ (kind : Kind) (readable : Message → Bool) (rooms : List Room)
      (config : List (Bytes × Bytes)) (users : List (Bytes × Int)) (credentials : List Bytes)
      (quotas : List Limit) (past : List (World × Op)) (room : Nat) (euid : Bytes),
      euid ≠ [] → ∀ (verbs : Nat → Verb euid) (acts : List (World × Nat)),
      let start := Site.opening (run (fresh rooms config users credentials quotas) past) verbs
      (∀ m ∈ rowsByEuid start.store room euid, findByEuid start.store room euid = some m) →
      Conditional (start.run kind readable room acts) := by
  intro h
  have hconditional := h .object (fun _ => true) [⟨7, 0, 0, 0, 0, 0⟩] [] [] [] []
    [(still, .insert draft [7])] 7 (bytes "a") (by decide) editors
    [(still, 0), (still, 1), (still, 0), (still, 0), (still, 0), (still, 1), (still, 1),
      (still, 1)] (by decide +kernel)
  refine hconditional.matchOnce 1 0 1 (by decide) rfl rfl ⟨?_, ?_⟩
  · decide +kernel
  · decide +kernel

end QuackMail.Dav
