import Mathlib.Data.List.Basic
import Mathlib.Tactic.Common

/-! # The last write wins

A list of writes is carried out in order, and each write either says what a reading is from
then on or says nothing about it.  Then the reading at the end is what the `last` write that
says anything says, and the reading at the start where none does.
-/

namespace LastWrite

variable {ω σ β γ : Type*}

/-- What the last of the writes that say anything says. -/
def last (sets : ω → Option β) : List ω → Option β
  | [] => none
  | x :: xs => (last sets xs).or (sets x)

variable {sets : ω → Option β} {xs ys : List ω}

@[simp] theorem last_nil : last sets [] = none := rfl

@[simp] theorem last_cons {x : ω} : last sets (x :: xs) = (last sets xs).or (sets x) := rfl

theorem last_append : last sets (xs ++ ys) = (last sets ys).or (last sets xs) := by
  induction xs with
  | nil => simp
  | cons x xs ih => rw [List.cons_append, last_cons, ih, Option.or_assoc, last_cons]

theorem last_eq_none_iff : last sets xs = none ↔ ∀ x ∈ xs, sets x = none := by
  induction xs with
  | nil => simp
  | cons x xs ih => rw [last_cons, Option.or_eq_none_iff, ih, List.forall_mem_cons, and_comm]

/-- The write that has the last word, and those after it, which say nothing. -/
theorem last_eq_some_iff {b : β} :
    last sets xs = some b ↔
      ∃ before x after, xs = before ++ x :: after ∧ sets x = some b ∧
        ∀ y ∈ after, sets y = none := by
  constructor
  · intro h
    induction xs with
    | nil => cases h
    | cons x xs ih =>
      rw [last_cons] at h
      cases hlast : last sets xs with
      | some c =>
        rw [hlast, Option.some_or] at h
        obtain ⟨before, y, after, heq, hy, hafter⟩ := ih (hlast.trans h)
        exact ⟨x :: before, y, after, by rw [heq, List.cons_append], hy, hafter⟩
      | none =>
        rw [hlast, Option.none_or] at h
        exact ⟨[], x, xs, rfl, h, last_eq_none_iff.mp hlast⟩
  · rintro ⟨before, x, after, rfl, hx, hafter⟩
    rw [last_append, last_cons, last_eq_none_iff.mpr hafter, Option.none_or, hx, Option.some_or]

/-- Where no write says anything, nothing said differently does. -/
theorem last_eq_none_of_silent {tells : ω → Option γ}
    (hsilent : ∀ x, sets x = none → tells x = none) (h : last sets xs = none) :
    last tells xs = none :=
  last_eq_none_iff.mpr fun x hx => hsilent x (last_eq_none_iff.mp h x hx)

/-- The write with the last word about one thing has it about whatever it tells, as long as
    the others tell that only where they say something. -/
theorem exists_last_of_silent {b : β} (h : last sets xs = some b) :
    ∃ x ∈ xs, sets x = some b ∧
      ∀ {tells : ω → Option γ} {c : γ}, (∀ y, sets y = none → tells y = none) →
        tells x = some c → last tells xs = some c := by
  obtain ⟨before, x, after, rfl, hx, hafter⟩ := last_eq_some_iff.mp h
  refine ⟨x, by simp, hx, fun hsilent hc => ?_⟩
  exact last_eq_some_iff.mpr ⟨before, x, after, rfl, hc, fun y hy => hsilent y (hafter y hy)⟩

/-- A reading that every step leaves or sets is what the last write says. -/
theorem read_foldl (read : σ → β) {step : σ → ω → σ}
    (hstep : ∀ s x, read (step s x) = (sets x).getD (read s)) (xs : List ω) (s : σ) :
    read (xs.foldl step s) = (last sets xs).getD (read s) := by
  induction xs generalizing s with
  | nil => rfl
  | cons x xs ih =>
    rw [List.foldl_cons, ih, hstep, last_cons]
    cases last sets xs with
    | some b => rfl
    | none => rfl

end LastWrite
