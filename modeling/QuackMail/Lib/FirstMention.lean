import Mathlib.Data.List.Nodup
import Mathlib.Tactic.Common

/-! # First mentions

A list of entries is read once, and an entry counts only if no earlier one has its key.  The
entries that count have distinct keys, and the entry that stands for a key is the one a search
from the front finds.
-/

namespace FirstMention

variable {α β κ : Type*} [DecidableEq κ] {key : α → κ} {seen : List κ} {xs : List α}

/-- The entries whose key is neither seen before the list nor earlier in it. -/
def firsts (key : α → κ) : List κ → List α → List α
  | _, [] => []
  | seen, x :: xs =>
    if key x ∈ seen then firsts key seen xs else x :: firsts key (seen ++ [key x]) xs

/-- A loop that remembers the keys it has seen and skips their entries. -/
def skipping (key : α → κ) (step : β → α → β) (acc : List κ × β) (x : α) : List κ × β :=
  if key x ∈ acc.1 then acc else (acc.1 ++ [key x], step acc.2 x)

/-- Such a loop takes the entries that count. -/
theorem foldl_skipping (step : β → α → β) (seen : List κ) (b : β) (xs : List α) :
    (xs.foldl (skipping key step) (seen, b)).2 = (firsts key seen xs).foldl step b := by
  induction xs generalizing seen b with
  | nil => rfl
  | cons x xs ih =>
    rw [List.foldl_cons, firsts, skipping]
    by_cases hseen : key x ∈ seen
    · rw [if_pos hseen, if_pos hseen]
      exact ih seen b
    · rw [if_neg hseen, if_neg hseen, List.foldl_cons]
      exact ih _ _

theorem not_seen_of_mem_firsts {x : α} (h : x ∈ firsts key seen xs) : key x ∉ seen := by
  induction xs generalizing seen with
  | nil => cases h
  | cons y ys ih =>
    rw [firsts] at h
    by_cases hseen : key y ∈ seen
    · rw [if_pos hseen] at h
      exact ih h
    · rw [if_neg hseen, List.mem_cons] at h
      cases h with
      | inl heq => exact heq ▸ hseen
      | inr hrest => exact fun hx => ih hrest (List.mem_append_left _ hx)

/-- Every key is taken once. -/
theorem nodup_firsts : ((firsts key seen xs).map key).Nodup := by
  induction xs generalizing seen with
  | nil => exact List.nodup_nil
  | cons x xs ih =>
    rw [firsts]
    by_cases hseen : key x ∈ seen
    · rw [if_pos hseen]
      exact ih
    · rw [if_neg hseen, List.map_cons, List.nodup_cons]
      refine ⟨fun hagain => ?_, ih⟩
      obtain ⟨y, hy, heq⟩ := List.mem_map.mp hagain
      exact not_seen_of_mem_firsts hy (by simp [heq])

/-- The entry that counts is the first of its key. -/
theorem mem_firsts_iff {x : α} :
    x ∈ firsts key seen xs ↔
      key x ∉ seen ∧ xs.find? (fun y => decide (key y = key x)) = some x := by
  induction xs generalizing seen with
  | nil => simp [firsts]
  | cons y ys ih =>
    rw [firsts, List.find?_cons]
    by_cases hkey : key y = key x
    · rw [decide_eq_true hkey]
      simp only [Option.some.injEq]
      by_cases hseen : key y ∈ seen
      · rw [if_pos hseen, ih]
        rw [hkey] at hseen
        simp [hseen]
      · rw [if_neg hseen, List.mem_cons, ih]
        rw [hkey] at hseen
        simp [hseen, hkey, eq_comm]
    · rw [decide_eq_false hkey]
      simp only
      by_cases hseen : key y ∈ seen
      · rw [if_pos hseen, ih]
      · rw [if_neg hseen, List.mem_cons, ih]
        have hne : x ≠ y := fun heq => hkey (heq ▸ rfl)
        simp [hne, Ne.symm hkey]

end FirstMention
