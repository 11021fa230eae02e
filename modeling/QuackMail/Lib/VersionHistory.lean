import Mathlib.Data.List.Basic
import Mathlib.Tactic.Common

/-! # Histories of one cell

A cell holds a version or nothing, and every change puts a version that was never there
before, or nothing, in the place of what the cell held.  A version is then replaced at most
once, and between two changes that find the cell empty it was emptied.
-/

namespace QuackMail.VersionHistory

variable {κ υ : Type*}

/-- A change of the cell: who made it, and what the cell held before and after it. -/
structure Change (κ υ : Type*) where
  who : κ
  before : Option υ
  after : Option υ
  deriving DecidableEq

/-- The versions a history has seen. -/
def versions (first : Option υ) (changes : List (Change κ υ)) : List υ :=
  first.toList ++ changes.filterMap Change.after

/-- The cell held `first`, then came the changes, and it holds the last argument now. -/
inductive History (first : Option υ) : List (Change κ υ) → Option υ → Prop where
  | start : History first [] first
  | step {changes : List (Change κ υ)} (c : Change κ υ) (past : History first changes c.before)
      (new : ∀ x, c.after = some x → x ∉ versions first changes) :
      History first (changes ++ [c]) c.after

variable {first : Option υ} {changes : List (Change κ υ)} {now : Option υ}

variable {x : υ}

@[simp] theorem mem_versions :
    x ∈ versions first changes ↔ first = some x ∨ ∃ c ∈ changes, c.after = some x := by
  simp [versions]

theorem versions_append (c : Change κ υ) (h : x ∈ versions first changes) :
    x ∈ versions first (changes ++ [c]) := by
  rw [mem_versions] at h ⊢
  exact h.imp_right fun ⟨d, hd, heq⟩ => ⟨d, List.mem_append_left _ hd, heq⟩

/-- What the cell holds is a version of its history. -/
theorem History.now_mem (h : History first changes now) (hx : now = some x) :
    x ∈ versions first changes := by
  cases h with
  | start => exact mem_versions.mpr (.inl hx)
  | step c past new =>
    exact mem_versions.mpr
      (.inr ⟨c, List.mem_append_right _ (List.mem_singleton_self c), hx⟩)

variable {c : Change κ υ}

theorem History.before_mem (h : History first changes now) (hc : c ∈ changes)
    (hx : c.before = some x) : x ∈ versions first changes := by
  induction h with
  | start => cases hc
  | step d past new ih =>
    rcases List.mem_append.mp hc with hold | hlast
    · exact versions_append d (ih hold)
    · obtain rfl := List.mem_singleton.mp hlast
      exact versions_append c (past.now_mem hx)

/-- What the cell holds has not been replaced. -/
theorem History.not_replaced (h : History first changes now) (hx : now = some x) :
    ∀ c ∈ changes, c.before ≠ some x := by
  intro c hc hbefore
  cases h with
  | start => cases hc
  | step d past new =>
    refine new x hx ?_
    rcases List.mem_append.mp hc with hold | hlast
    · exact past.before_mem hold hbefore
    · obtain rfl := List.mem_singleton.mp hlast
      exact past.now_mem hbefore

/-- A version is replaced at most once. -/
theorem History.replaced_once (h : History first changes now) {d : Change κ υ}
    (hc : c ∈ changes) (hd : d ∈ changes) (hcx : c.before = some x)
    (hdx : d.before = some x) : c = d := by
  induction h with
  | start => cases hc
  | step e past new ih =>
    rcases List.mem_append.mp hc with hcold | hclast
    · rcases List.mem_append.mp hd with hdold | hdlast
      · exact ih hcold hdold
      · obtain rfl := List.mem_singleton.mp hdlast
        exact absurd hcx (past.not_replaced hdx c hcold)
    · rcases List.mem_append.mp hd with hdold | hdlast
      · obtain rfl := List.mem_singleton.mp hclast
        exact absurd hdx (past.not_replaced hcx d hdold)
      · exact (List.mem_singleton.mp hclast).trans (List.mem_singleton.mp hdlast).symm

/-- A history up to one of its changes. -/
theorem History.prior (h : History first changes now) {before after : List (Change κ υ)}
    (heq : changes = before ++ c :: after) :
    History first before c.before := by
  induction h generalizing after with
  | start => exact absurd heq (by simp)
  | step d past new ih =>
    rcases List.eq_nil_or_concat' after with rfl | ⟨after', e, rfl⟩
    · obtain ⟨rfl, hlast⟩ := List.append_inj' heq rfl
      obtain rfl := List.singleton_inj.mp hlast
      exact past
    · rw [← List.cons_append, ← List.append_assoc] at heq
      exact ih (List.append_inj' heq rfl).1

theorem History.now_of_append (h : History first changes now) {before : List (Change κ υ)}
    (heq : changes = before ++ [c]) : now = c.after := by
  cases h with
  | start => exact absurd heq (by simp)
  | step d past new =>
    obtain ⟨-, hlast⟩ := List.append_inj' heq rfl
    rw [List.singleton_inj.mp hlast]

/-- Between a change that filled the cell and one that found it empty, one emptied it. -/
theorem History.emptied_between (h : History first changes now)
    {before between after : List (Change κ υ)} {d : Change κ υ}
    (heq : changes = before ++ c :: (between ++ d :: after)) (hc : c.after ≠ none)
    (hd : d.before = none) : ∃ e ∈ between, e.after = none := by
  have hprior : History first (before ++ c :: between) d.before := by
    have hsplit : changes = before ++ c :: between ++ d :: after := by
      rw [heq, List.append_assoc, List.cons_append]
    exact h.prior hsplit
  rcases List.eq_nil_or_concat' between with rfl | ⟨between', e, rfl⟩
  · exact absurd ((hprior.now_of_append rfl).symm.trans hd) hc
  · refine ⟨e, List.mem_append_right _ (List.mem_singleton_self e), ?_⟩
    have hlast : before ++ c :: (between' ++ [e]) = (before ++ c :: between') ++ [e] := by
      rw [List.append_assoc, List.cons_append]
    exact (hprior.now_of_append hlast).symm.trans hd

end QuackMail.VersionHistory
