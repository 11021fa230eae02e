import Mathlib.Logic.Function.Basic
import Mathlib.Tactic.Common

/-! # Commands of several statements

Sessions run commands on a shared state, one statement at a time and in any order.  A
statement leaves the command to the next one or answers it.  Each command belongs to a key
and works on what the key shows of the state.  Where no two commands of one key overlap,
each of them does and answers what it would have alone.
-/

namespace QuackMail.Serial

variable {σ α ρ κ υ β : Type*} [DecidableEq κ]

/-! ## Runs -/

/-- What the sessions share, and the command of each with the number of its next statement. -/
structure System (σ α κ : Type*) where
  shared : σ
  busy : κ → Option (α × Nat)

inductive Event (κ α : Type*) where
  | start (session : κ) (cmd : α)
  | advance (session : κ)

def fresh (shared : σ) : System σ α κ := ⟨shared, fun _ => none⟩

/-- One event and the answer it gives; a session that is busy starts nothing. -/
def step (statement : α → Nat → σ → σ × Option ρ) (s : System σ α κ) :
    Event κ α → System σ α κ × Option ρ
  | .start k cmd =>
    match s.busy k with
    | some _ => (s, none)
    | none => ({ s with busy := Function.update s.busy k (some (cmd, 0)) }, none)
  | .advance k =>
    match s.busy k with
    | none => (s, none)
    | some (cmd, pc) =>
      match statement cmd pc s.shared with
      | (t, some answer) => (⟨t, Function.update s.busy k none⟩, some answer)
      | (t, none) => (⟨t, Function.update s.busy k (some (cmd, pc + 1))⟩, none)

def run (statement : α → Nat → σ → σ × Option ρ) (s : System σ α κ) (events : List (Event κ α)) :
    System σ α κ :=
  events.foldl (fun s e => (step statement s e).1) s

/-- `admits` holds of every command in the state it is started in. -/
def Admitted (statement : α → Nat → σ → σ × Option ρ) (admits : System σ α κ → α → Prop) :
    System σ α κ → List (Event κ α) → Prop
  | _, [] => True
  | s, e :: events =>
    (∀ k cmd, e = .start k cmd → s.busy k = none → admits s cmd) ∧
      Admitted statement admits (step statement s e).1 events

/-- A command alone, from statement `pc` on and for at most `fuel` statements. -/
def alone (statement : α → Nat → σ → σ × Option ρ) (cmd : α) : Nat → Nat → σ → σ × Option ρ
  | 0, _, t => (t, none)
  | fuel + 1, pc, t =>
    match statement cmd pc t with
    | (t', some answer) => (t', some answer)
    | (t', none) => alone statement cmd fuel (pc + 1) t'

/-! ## Keys -/

/-- A statement reads and writes what the key of its command shows, and nothing else. -/
structure Keyed (statement : α → Nat → σ → σ × Option ρ) (key : α → υ) (view : υ → σ → β) :
    Prop where
  same : ∀ cmd pc t t', view (key cmd) t = view (key cmd) t' →
    view (key cmd) (statement cmd pc t).1 = view (key cmd) (statement cmd pc t').1 ∧
      (statement cmd pc t).2 = (statement cmd pc t').2
  frame : ∀ cmd pc t u, u ≠ key cmd → view u (statement cmd pc t).1 = view u t

/-- No command of the key is in progress. -/
def Free (key : α → υ) (s : System σ α κ) (u : υ) : Prop :=
  ∀ k cmd pc, s.busy k = some (cmd, pc) → key cmd ≠ u

/-- No two commands of one key are in progress. -/
def Exclusive (key : α → υ) (s : System σ α κ) : Prop :=
  ∀ j k c d pc pd, s.busy j = some (c, pc) → s.busy k = some (d, pd) → key c = key d → j = k

variable {statement : α → Nat → σ → σ × Option ρ} {key : α → υ} {view : υ → σ → β}

theorem run_append (s : System σ α κ) (events events' : List (Event κ α)) :
    run statement s (events ++ events') = run statement (run statement s events) events' :=
  List.foldl_append

theorem Admitted.append {admits : System σ α κ → α → Prop} (events : List (Event κ α)) :
    ∀ {s : System σ α κ} {events' : List (Event κ α)},
      Admitted statement admits s (events ++ events') →
        Admitted statement admits s events ∧
          Admitted statement admits (run statement s events) events' := by
  induction events with
  | nil => exact fun h => ⟨trivial, h⟩
  | cons e events ih =>
    intro s events' h
    obtain ⟨hfirst, hrest⟩ := h
    obtain ⟨hevents, hafter⟩ := ih hrest
    exact ⟨⟨hfirst, hevents⟩, hafter⟩

theorem Admitted.mono {admits admits' : System σ α κ → α → Prop}
    (himp : ∀ s cmd, admits s cmd → admits' s cmd) (events : List (Event κ α)) :
    ∀ {s : System σ α κ}, Admitted statement admits s events →
      Admitted statement admits' s events := by
  induction events with
  | nil => exact fun _ => trivial
  | cons e events ih =>
    intro s h
    exact ⟨fun k cmd he hidle => himp _ _ (h.1 k cmd he hidle), ih h.2⟩

variable (statement) in
/-- What one event changes: it starts a command, runs a statement, or does nothing. -/
theorem step_cases (s : System σ α κ) (e : Event κ α) :
    (step statement s e = (s, none)) ∨
    (∃ k cmd, e = .start k cmd ∧ s.busy k = none ∧
      step statement s e =
        ({ s with busy := Function.update s.busy k (some (cmd, 0)) }, none)) ∨
    ∃ k cmd pc, e = .advance k ∧ s.busy k = some (cmd, pc) ∧
      step statement s e =
        (⟨(statement cmd pc s.shared).1, Function.update s.busy k
          (if (statement cmd pc s.shared).2.isSome then none else some (cmd, pc + 1))⟩,
          (statement cmd pc s.shared).2) := by
  cases e with
  | start k cmd =>
    cases hbusy : s.busy k with
    | some entry => exact .inl (by rw [step, hbusy])
    | none => exact .inr (.inl ⟨k, cmd, rfl, hbusy, by rw [step, hbusy]⟩)
  | advance k =>
    cases hbusy : s.busy k with
    | none => exact .inl (by rw [step, hbusy])
    | some entry =>
      obtain ⟨cmd, pc⟩ := entry
      refine .inr (.inr ⟨k, cmd, pc, rfl, hbusy, ?_⟩)
      rw [step, hbusy]
      dsimp only
      cases hst : statement cmd pc s.shared with
      | mk t answer => cases answer <;> rfl

/-- Commands that are started while their key is free do not overlap. -/
theorem exclusive_step {s : System σ α κ} (h : Exclusive key s) {e : Event κ α}
    (hfree : ∀ k cmd, e = .start k cmd → s.busy k = none → Free key s (key cmd)) :
    Exclusive key (step statement s e).1 := by
  rcases step_cases statement s e with heq | ⟨k, cmd, rfl, hidle, heq⟩ |
    ⟨k, cmd, pc, rfl, hbusy, heq⟩
  · rw [heq]
    exact h
  · have hfree := hfree k cmd rfl hidle
    rw [heq]
    intro i j c d pc pd hi hj hkey
    simp only [Function.update_apply] at hi hj
    split at hi
    · next hik =>
      split at hj
      · next hjk => exact hik.trans hjk.symm
      · obtain ⟨rfl, -⟩ := Prod.mk.inj (Option.some.inj hi)
        exact absurd hkey.symm (hfree j d pd hj)
    · split at hj
      · obtain ⟨rfl, -⟩ := Prod.mk.inj (Option.some.inj hj)
        exact absurd hkey (hfree i c pc hi)
      · exact h i j c d pc pd hi hj hkey
  · rw [heq]
    have hsame : ∀ i c p, Function.update s.busy k
        (if (statement cmd pc s.shared).2.isSome then none else some (cmd, pc + 1)) i =
          some (c, p) → ∃ q, s.busy i = some (c, q) := by
      intro i c p hi
      simp only [Function.update_apply] at hi
      split at hi
      · next hik =>
        split at hi
        · cases hi
        · obtain ⟨rfl, -⟩ := Prod.mk.inj (Option.some.inj hi)
          exact ⟨pc, by rw [hik, hbusy]⟩
      · exact ⟨p, hi⟩
    intro i j c d pi pj hi hj hkey
    obtain ⟨qi, hqi⟩ := hsame i c pi hi
    obtain ⟨qj, hqj⟩ := hsame j d pj hj
    exact h i j c d qi qj hqi hqj hkey

theorem exclusive_run (events : List (Event κ α)) :
    ∀ {s : System σ α κ}, Exclusive key s →
      Admitted statement (fun s cmd => Free key s (key cmd)) s events →
        Exclusive key (run statement s events) := by
  induction events with
  | nil => exact fun h _ => h
  | cons e events ih => exact fun h hadm => ih (exclusive_step h hadm.1) hadm.2

omit [DecidableEq κ] in
theorem exclusive_fresh (key : α → υ) (shared : σ) : Exclusive key (fresh shared : System σ α κ) := by
  intro j k c d pc pd hj
  cases hj

/-! ## Alone -/

/-- What a command does alone depends on what its key shows. -/
theorem alone_same (h : Keyed statement key view) (cmd : α) (fuel : Nat) :
    ∀ (pc : Nat) (t t' : σ), view (key cmd) t = view (key cmd) t' →
      view (key cmd) (alone statement cmd fuel pc t).1 =
          view (key cmd) (alone statement cmd fuel pc t').1 ∧
        (alone statement cmd fuel pc t).2 = (alone statement cmd fuel pc t').2 := by
  induction fuel with
  | zero => exact fun pc t t' hview => ⟨hview, rfl⟩
  | succ fuel ih =>
    intro pc t t' hview
    obtain ⟨hnext, hanswer⟩ := h.same cmd pc t t' hview
    rw [alone, alone]
    cases hst : statement cmd pc t with
    | mk u answer =>
      cases hst' : statement cmd pc t' with
      | mk u' answer' =>
        rw [hst, hst'] at hnext hanswer
        subst hanswer
        cases answer with
        | some a => exact ⟨hnext, rfl⟩
        | none => exact ih (pc + 1) u u' hnext

/-- A command that has answered does nothing more. -/
theorem alone_add (cmd : α) (n : Nat) (a : ρ) (fuel : Nat) :
    ∀ (pc : Nat) (t : σ), (alone statement cmd fuel pc t).2 = some a →
      alone statement cmd (fuel + n) pc t = alone statement cmd fuel pc t := by
  induction fuel with
  | zero =>
    intro pc t h
    cases h
  | succ fuel ih =>
    intro pc t h
    rw [show fuel + 1 + n = fuel + n + 1 by omega]
    rw [alone] at h ⊢
    rw [alone]
    cases hst : statement cmd pc t with
    | mk t' answer =>
      rw [hst] at h
      cases answer with
      | some b => rfl
      | none => exact ih (pc + 1) t' h

/-- A command that is in progress still comes to what it came to from `t`. -/
def OnTrack (statement : α → Nat → σ → σ × Option ρ) (key : α → υ) (view : υ → σ → β) (cmd : α)
    (t : σ) (pc : Nat) (now : σ) : Prop :=
  ∀ fuel, view (key cmd) (alone statement cmd (fuel + pc) 0 t).1 =
      view (key cmd) (alone statement cmd fuel pc now).1 ∧
    (alone statement cmd (fuel + pc) 0 t).2 = (alone statement cmd fuel pc now).2

theorem onTrack_start (cmd : α) (t : σ) : OnTrack statement key view cmd t 0 t :=
  fun _ => ⟨rfl, rfl⟩

theorem OnTrack.of_view (h : Keyed statement key view) {cmd : α} {t now now' : σ} {pc : Nat}
    (htrack : OnTrack statement key view cmd t pc now)
    (hview : view (key cmd) now' = view (key cmd) now) :
    OnTrack statement key view cmd t pc now' := by
  intro fuel
  obtain ⟨hsame, hanswer⟩ := alone_same h cmd fuel pc now' now hview
  exact ⟨(htrack fuel).1.trans hsame.symm, (htrack fuel).2.trans hanswer.symm⟩

theorem OnTrack.next {cmd : α} {t now now' : σ} {pc : Nat}
    (htrack : OnTrack statement key view cmd t pc now)
    (hst : statement cmd pc now = (now', none)) :
    OnTrack statement key view cmd t (pc + 1) now' := by
  intro fuel
  have hone : alone statement cmd (fuel + 1) pc now = alone statement cmd fuel (pc + 1) now' := by
    rw [alone, hst]
  have h := htrack (fuel + 1)
  rw [hone] at h
  rwa [show fuel + (pc + 1) = fuel + 1 + pc by omega]

theorem OnTrack.answer {cmd : α} {t now now' : σ} {pc : Nat} {a : ρ}
    (htrack : OnTrack statement key view cmd t pc now)
    (hst : statement cmd pc now = (now', some a)) :
    view (key cmd) (alone statement cmd (1 + pc) 0 t).1 = view (key cmd) now' ∧
      (alone statement cmd (1 + pc) 0 t).2 = some a := by
  have hone : alone statement cmd 1 pc now = (now', some a) := by
    rw [alone, hst]
  have h := htrack 1
  rwa [hone] at h

/-! ## Serial effect -/

/-- While session `k` is busy with a command, the state it started in determines the rest. -/
theorem track_run (h : Keyed statement key view) {k : κ} (cmd : α) (t : σ)
    (mid : List (Event κ α)) :
    ∀ {s : System σ α κ}, Exclusive key s →
      Admitted statement (fun s cmd => Free key s (key cmd)) s mid →
      (∀ e ∈ mid, ∀ c, e ≠ .start k c) →
      (∀ c pc, s.busy k = some (c, pc) →
        c = cmd ∧ OnTrack statement key view cmd t pc s.shared) →
      ∀ c pc, (run statement s mid).busy k = some (c, pc) →
        c = cmd ∧ OnTrack statement key view cmd t pc (run statement s mid).shared := by
  induction mid with
  | nil => exact fun _ _ _ htrack => htrack
  | cons e mid ih =>
    intro s hexcl hadm hmid htrack
    refine ih (exclusive_step hexcl hadm.1) hadm.2
      (fun e' he' => hmid e' (List.mem_cons_of_mem _ he')) ?_
    intro c pc hbusy
    dsimp only at hbusy ⊢
    rcases step_cases statement s e with heq | ⟨j, other, rfl, -, heq⟩ |
      ⟨j, other, pj, rfl, hj, heq⟩
    · rw [heq] at hbusy ⊢
      exact htrack c pc hbusy
    · have hne : k ≠ j := fun hkj => hmid _ List.mem_cons_self other (by rw [hkj])
      rw [heq] at hbusy ⊢
      simp only [Function.update_of_ne hne] at hbusy
      exact htrack c pc hbusy
    · rw [heq] at hbusy ⊢
      simp only [Function.update_apply] at hbusy
      split at hbusy
      · next hkj =>
        subst hkj
        obtain ⟨rfl, hon⟩ := htrack other pj hj
        split at hbusy
        · cases hbusy
        · next hnone =>
          obtain ⟨rfl, rfl⟩ := Prod.mk.inj (Option.some.inj hbusy)
          refine ⟨rfl, hon.next ?_⟩
          exact Prod.ext rfl (by simpa using hnone)
      · next hkj =>
        obtain ⟨rfl, hon⟩ := htrack c pc hbusy
        refine ⟨rfl, hon.of_view h (h.frame other pj s.shared _ fun hkey => ?_)⟩
        exact hkj (hexcl k j c other pc pj hbusy hj hkey)

/-- A command that does not overlap with others of its key does and answers what it would
    have done alone in the state it was started in. -/
theorem serial (h : Keyed statement key view) {s : System σ α κ} (hexcl : Exclusive key s)
    {k : κ} {cmd : α} (hidle : s.busy k = none) {mid : List (Event κ α)} {a : ρ}
    (hadm : Admitted statement (fun s cmd => Free key s (key cmd)) s
      (.start k cmd :: (mid ++ [.advance k])))
    (hmid : ∀ e ∈ mid, ∀ c, e ≠ .start k c)
    (hanswer : (step statement (run statement s (.start k cmd :: mid)) (.advance k)).2 = some a) :
    ∃ fuel, view (key cmd) (alone statement cmd fuel 0 s.shared).1 =
        view (key cmd)
          (step statement (run statement s (.start k cmd :: mid)) (.advance k)).1.shared ∧
      (alone statement cmd fuel 0 s.shared).2 = some a := by
  have hstart : step statement s (.start k cmd) =
      ({ s with busy := Function.update s.busy k (some (cmd, 0)) }, none) := by
    rw [step, hidle]
  have hfirst : Exclusive key (step statement s (.start k cmd)).1 := exclusive_step hexcl hadm.1
  obtain ⟨hadmMid, -⟩ := Admitted.append mid hadm.2
  have htrack := track_run h cmd s.shared mid hfirst hadmMid hmid <| by
    intro c pc hbusy
    rw [hstart] at hbusy ⊢
    simp only [Function.update_self] at hbusy
    obtain ⟨rfl, rfl⟩ := Prod.mk.inj (Option.some.inj hbusy)
    exact ⟨rfl, onTrack_start _ _⟩
  have hrun : run statement s (.start k cmd :: mid) =
      run statement (step statement s (.start k cmd)).1 mid := rfl
  rw [hrun] at hanswer ⊢
  rcases step_cases statement
      (run statement (step statement s (.start k cmd)).1 mid) (.advance k) with
    heq | ⟨j, other, hj, -⟩ | ⟨j, c, pc, hj, hbusy, heq⟩
  · rw [heq] at hanswer
    cases hanswer
  · cases hj
  · obtain rfl := Event.advance.inj hj
    obtain ⟨rfl, hon⟩ := htrack c pc hbusy
    rw [heq] at hanswer ⊢
    obtain ⟨hview, hans⟩ := hon.answer (Prod.ext rfl hanswer)
    exact ⟨1 + pc, hview, hans⟩

/-! ## Invariants -/

/-- The view of the key is good now and after any number of further statements. -/
def StaysGood (statement : α → Nat → σ → σ × Option ρ) (key : α → υ) (view : υ → σ → β)
    (good : υ → β → Prop) (cmd : α) (pc : Nat) (t : σ) : Prop :=
  ∀ fuel, good (key cmd) (view (key cmd) (alone statement cmd fuel pc t).1)

/-- Every key's view is good, and the commands in progress keep it so. -/
structure Good (statement : α → Nat → σ → σ × Option ρ) (key : α → υ) (view : υ → σ → β)
    (good : υ → β → Prop) (s : System σ α κ) : Prop where
  now : ∀ u, good u (view u s.shared)
  later : ∀ k cmd pc, s.busy k = some (cmd, pc) →
    StaysGood statement key view good cmd pc s.shared

theorem good_step (h : Keyed statement key view) {good : υ → β → Prop} {s : System σ α κ}
    (hexcl : Exclusive key s) (hgood : Good statement key view good s) {e : Event κ α}
    (hstays : ∀ k cmd, e = .start k cmd → s.busy k = none →
      StaysGood statement key view good cmd 0 s.shared) :
    Good statement key view good (step statement s e).1 := by
  rcases step_cases statement s e with heq | ⟨k, cmd, rfl, hidle, heq⟩ |
    ⟨k, cmd, pc, rfl, hbusy, heq⟩
  · rw [heq]
    exact hgood
  · have hstays := hstays k cmd rfl hidle
    rw [heq]
    refine ⟨hgood.now, fun j c p hj => ?_⟩
    simp only [Function.update_apply] at hj
    split at hj
    · obtain ⟨rfl, rfl⟩ := Prod.mk.inj (Option.some.inj hj)
      exact hstays
    · exact hgood.later j c p hj
  · have hstays := hgood.later k cmd pc hbusy
    rw [heq]
    constructor
    · intro u
      by_cases hu : u = key cmd
      · -- one statement of the command alone is this one
        have hone := hstays 1
        rw [alone] at hone
        subst hu
        cases hst : statement cmd pc s.shared with
        | mk t answer =>
          rw [hst] at hone
          cases answer with
          | some a => exact hone
          | none => exact hone
      · rw [h.frame cmd pc s.shared u hu]
        exact hgood.now u
    · intro j c p hj
      simp only [Function.update_apply] at hj
      split at hj
      · split at hj
        · cases hj
        · next hnone =>
          obtain ⟨rfl, rfl⟩ := Prod.mk.inj (Option.some.inj hj)
          intro fuel
          have hnext := hstays (fuel + 1)
          have hst : statement cmd pc s.shared = ((statement cmd pc s.shared).1, none) :=
            Prod.ext rfl (by simpa using hnone)
          rw [alone, hst] at hnext
          exact hnext
      · next hjk =>
        intro fuel
        have hother := h.frame cmd pc s.shared (key c) fun hkey =>
          hjk (hexcl j k c cmd p pc hj hbusy hkey)
        rw [(alone_same h c fuel p _ _ hother).1]
        exact hgood.later j c p hj fuel

/-- In every state of a run without overlaps every view is good. -/
theorem good_run (h : Keyed statement key view) {good : υ → β → Prop} (events : List (Event κ α)) :
    ∀ {s : System σ α κ}, Exclusive key s → Good statement key view good s →
      Admitted statement (fun s cmd => Free key s (key cmd) ∧
        ((∀ u, good u (view u s.shared)) → StaysGood statement key view good cmd 0 s.shared))
        s events →
      Good statement key view good (run statement s events) := by
  induction events with
  | nil => exact fun _ hgood _ => hgood
  | cons e events ih =>
    intro s hexcl hgood hadm
    exact ih (exclusive_step hexcl fun k cmd he hidle => (hadm.1 k cmd he hidle).1)
      (good_step h hexcl hgood fun k cmd he hidle => (hadm.1 k cmd he hidle).2 hgood.now) hadm.2

end QuackMail.Serial
