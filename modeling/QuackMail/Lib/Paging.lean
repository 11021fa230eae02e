import Mathlib.Data.List.Basic

/-! # Paging through a list

A client asks for a list page by page, at positions that grow by the page size it wants.  The
server caps a page.  Below the cap the pages are the list; above it they leave some of a list
out that is longer than the cap.
-/

namespace QuackMail.Paging

variable {α : Type*}

/-- The items from a position on, at most `cap` of them. -/
def page (xs : List α) (position cap : Nat) : List α := (xs.drop position).take cap

/-- The first `k` pages, at multiples of `step`. -/
def pages (xs : List α) (step cap : Nat) : Nat → List α
  | 0 => []
  | k + 1 => pages xs step cap k ++ page xs (k * step) cap

theorem length_page (xs : List α) (position cap : Nat) :
    (page xs position cap).length = min cap (xs.length - position) := by
  simp [page]

/-- Pages that are as long as the steps are put together without a seam. -/
theorem pages_self (xs : List α) (step k : Nat) : pages xs step step k = xs.take (k * step) := by
  induction k with
  | zero => simp [pages]
  | succ k ih =>
    rw [pages, ih, page, Nat.succ_mul]
    exact (List.take_add).symm

/-- The first page of a list that fits in it is the list, and the others are empty. -/
theorem pages_short {xs : List α} {step cap : Nat} (hcap : xs.length ≤ cap) (hstep : cap ≤ step)
    (k : Nat) : pages xs step cap (k + 1) = xs := by
  induction k with
  | zero => simp [pages, page, List.take_of_length_le hcap]
  | succ k ih =>
    have hbeyond : xs.length ≤ (k + 1) * step := by
      calc xs.length ≤ step := Nat.le_trans hcap hstep
        _ ≤ (k + 1) * step := Nat.le_mul_of_pos_left step (Nat.succ_pos k)
    rw [pages, ih, page, List.drop_eq_nil_of_le hbeyond]
    simp

/-- What is between the cap and the step is in none of the pages. -/
theorem length_pages_add_le {xs : List α} {step cap : Nat} (hstep : cap ≤ step) (k : Nat) :
    (pages xs step cap (k + 1)).length + (min step xs.length - cap) ≤
      min ((k + 1) * step) xs.length := by
  induction k with
  | zero =>
    simp only [pages, List.nil_append, length_page]
    omega
  | succ k ih =>
    rw [pages, List.length_append, length_page]
    -- the position is any number from the step on
    rw [Nat.succ_mul (k + 1) step]
    generalize (k + 1) * step = position at ih
    omega

/-- Pages shorter than the steps are shorter than a list that does not fit in one. -/
theorem length_pages_lt {xs : List α} {step cap : Nat} (hstep : cap < step)
    (hlong : cap < xs.length) (k : Nat) : (pages xs step cap k).length < xs.length := by
  cases k with
  | zero =>
    simp only [pages, List.length_nil]
    omega
  | succ k =>
    have hle := @length_pages_add_le α xs step cap (Nat.le_of_lt hstep) k
    omega

/-- Where the server caps the pages at `cap`, enough of them are the whole list, if the step is
    within the cap or the list is. -/
theorem pages_capped {xs : List α} {step cap : Nat} (hstep : 0 < step)
    (hfits : step ≤ cap ∨ xs.length ≤ cap) {k : Nat} (hk : xs.length < k) :
    pages xs step (min step cap) k = xs := by
  by_cases hcap : step ≤ cap
  · rw [Nat.min_eq_left hcap, pages_self]
    apply List.take_of_length_le
    calc xs.length ≤ k := Nat.le_of_lt hk
      _ ≤ k * step := Nat.le_mul_of_pos_right k hstep
  · rw [Nat.min_eq_right (by omega)]
    obtain ⟨k, rfl⟩ : ∃ j, k = j + 1 := ⟨k - 1, by omega⟩
    exact pages_short (hfits.resolve_left hcap) (by omega) k

/-- Pages that are as long as the list are the list, and then the step or the list is within
    the cap. -/
theorem eq_of_length_pages {xs : List α} {step cap k : Nat}
    (hlength : (pages xs step (min step cap) k).length = xs.length) :
    pages xs step (min step cap) k = xs ∧ (step ≤ cap ∨ xs.length ≤ cap) := by
  by_cases hcap : step ≤ cap
  · rw [Nat.min_eq_left hcap, pages_self] at hlength ⊢
    rw [List.length_take] at hlength
    exact ⟨List.take_of_length_le (by omega), .inl hcap⟩
  · rw [Nat.min_eq_right (by omega)] at hlength ⊢
    have hshort : xs.length ≤ cap := by
      by_contra hlong
      have hlt := @length_pages_lt α xs step cap (by omega) (by omega) k
      omega
    refine ⟨?_, .inr hshort⟩
    cases k with
    | zero => exact (List.length_eq_zero_iff.mp hlength.symm).symm
    | succ k => exact pages_short hshort (by omega) k

end QuackMail.Paging
