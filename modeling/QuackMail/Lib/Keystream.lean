import Mathlib.Data.List.Basic
import Mathlib.Tactic.Common

/-! # Keystreams

A list is encrypted by adding the elements of a stream, position by position; for an addition that
is its own inverse, this is its own inverse as well.
-/

namespace QuackMail.Keystream

/-- The stream on a list. -/
def apply {α : Type} (op : α → α → α) (ks : Nat → α) (s : List α) : List α :=
  s.mapIdx fun i a => op a (ks i)

/-- One stream for the first `n` elements and another, from its beginning, behind them. -/
def join {α : Type} (n : Nat) (ks ks' : Nat → α) (i : Nat) : α :=
  if i < n then ks i else ks' (i - n)

section

variable {α : Type} {op : α → α → α} {ks ks' : Nat → α}

@[simp] theorem length_apply (s : List α) : (apply op ks s).length = s.length := by
  simp [apply]

theorem apply_congr {s : List α} (h : ∀ i < s.length, ks i = ks' i) :
    apply op ks s = apply op ks' s := by
  apply List.ext_getElem
  · simp
  · intro i hi _
    rw [length_apply] at hi
    simp [apply, h i hi]

theorem apply_append (s s' : List α) :
    apply op ks (s ++ s') = apply op ks s ++ apply op (fun i => ks (i + s.length)) s' := by
  simp [apply, List.mapIdx_append]

theorem apply_join {n : Nat} {s : List α} (h : s.length ≤ n) :
    apply op (join n ks ks') s = apply op ks s := by
  apply apply_congr
  intro i hi
  exact if_pos (Nat.lt_of_lt_of_le hi h)

theorem apply_join_append {n : Nat} {s : List α} (h : s.length = n) (s' : List α) :
    apply op (join n ks ks') (s ++ s') = apply op ks s ++ apply op ks' s' := by
  rw [apply_append, apply_join (Nat.le_of_eq h)]
  congr 1
  apply apply_congr
  intro i _
  have hnot : ¬i + n < n := by omega
  simp [join, h, hnot]

/-- The stream of a neutral element. -/
theorem apply_neutral {e : α} (h : ∀ a, op a e = a) (s : List α) : apply op (fun _ => e) s = s := by
  apply List.ext_getElem
  · simp
  · intro i _ _
    simp [apply, h]

theorem apply_apply (h : ∀ a b, op (op a b) b = a) (s : List α) :
    apply op ks (apply op ks s) = s := by
  apply List.ext_getElem
  · simp
  · intro i _ _
    simp [apply, h]

end

end QuackMail.Keystream
