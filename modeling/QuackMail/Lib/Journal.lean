import Mathlib.Data.Set.Insert
import Mathlib.Logic.Relation
import Mathlib.Order.Defs.LinearOrder
import Mathlib.Tactic.Common

/-! # Change journals

A collection whose additions are found by the birth stamp of a member and whose
removals are recorded with a stamp of their own.  A client that knows the members
as of a token asks what is `Named` after it and looks these items up again.
`Follows` is what makes that enough; an item may enter silently only if its birth
stamp or an earlier removal names it (`Announced`).
-/

namespace ChangeJournal

variable {ι τ : Type*} [Preorder τ]

structure Journal (ι τ : Type*) where
  members : Set ι
  removals : Set (τ × ι)

inductive Event (ι τ : Type*) where
  | enter (i : ι)
  | leave (t : τ) (i : ι)

def Journal.apply (j : Journal ι τ) : Event ι τ → Journal ι τ
  | .enter i => ⟨insert i j.members, j.removals⟩
  | .leave t i => ⟨j.members \ {i}, insert (t, i) j.removals⟩

variable (birth : ι → τ) (token : τ)

/-- Some entry of the journal after the token names the item. -/
def Named (j : Journal ι τ) (i : ι) : Prop :=
  (i ∈ j.members ∧ token < birth i) ∨ ∃ t, token < t ∧ (t, i) ∈ j.removals

/-- The event leaves an entry after the token that names its item. -/
def Announced (j : Journal ι τ) : Event ι τ → Prop
  | .enter i => i ∈ j.members ∨ token < birth i ∨ ∃ t, token < t ∧ (t, i) ∈ j.removals
  | .leave t _ => token < t

/-- Every item whose membership differs from the base is named. -/
def Follows (base j : Journal ι τ) : Prop :=
  ∀ i, Named birth token j i ∨ (i ∈ j.members ↔ i ∈ base.members)

/-- What a client has after it looked up again what is named. -/
def sync (j : Journal ι τ) (known : Set ι) : Set ι :=
  {i | (Named birth token j i ∧ i ∈ j.members) ∨ (¬Named birth token j i ∧ i ∈ known)}

/-- One announced event. -/
def Step (j j' : Journal ι τ) : Prop := ∃ e, Announced birth token j e ∧ j' = j.apply e

variable {birth token} {base j j' : Journal ι τ}

theorem Follows.refl (base : Journal ι τ) : Follows birth token base base :=
  fun _ => .inr Iff.rfl

/-- A client that knows the base ends up with the members exactly when the journal
    follows the base. -/
theorem sync_eq_iff : sync birth token j base.members = j.members ↔ Follows birth token base j := by
  constructor
  · intro h i
    by_cases hn : Named birth token j i
    · exact .inl hn
    · right
      have hi := Set.ext_iff.mp h i
      simp only [sync, Set.mem_ofPred_eq, hn, false_and, not_false_eq_true, true_and, false_or] at hi
      exact hi.symm
  · intro h
    ext i
    simp only [sync, Set.mem_ofPred_eq]
    rcases h i with hn | hi
    · simp [hn]
    · by_cases hn : Named birth token j i
      · simp [hn]
      · simp [hn, hi]

/-- What is named stays named. -/
theorem Named.apply {e : Event ι τ} {i : ι} (h : Named birth token j i)
    (he : Announced birth token j e) : Named birth token (j.apply e) i := by
  cases e with
  | enter k =>
    rcases h with ⟨hm, ht⟩ | ⟨t, ht, hr⟩
    · exact .inl ⟨Set.mem_insert_of_mem k hm, ht⟩
    · exact .inr ⟨t, ht, hr⟩
  | leave t k =>
    rcases h with ⟨hm, hb⟩ | ⟨u, hu, hr⟩
    · by_cases hik : i = k
      · exact .inr ⟨t, he, hik ▸ Set.mem_insert _ _⟩
      · exact .inl ⟨⟨hm, hik⟩, hb⟩
    · exact .inr ⟨u, hu, Set.mem_insert_of_mem _ hr⟩

theorem Follows.apply {e : Event ι τ} (h : Follows birth token base j)
    (he : Announced birth token j e) : Follows birth token base (j.apply e) := by
  intro i
  rcases h i with hn | hi
  · exact .inl (hn.apply he)
  cases e with
  | enter k =>
    by_cases hik : i = k
    · subst hik
      rcases he with hm | ht | ⟨t, ht, hr⟩
      · refine .inr ?_
        have : i ∈ base.members := hi.mp hm
        simp [Journal.apply, this]
      · exact .inl (.inl ⟨Set.mem_insert _ _, ht⟩)
      · exact .inl (.inr ⟨t, ht, hr⟩)
    · refine .inr ?_
      simpa [Journal.apply, hik] using hi
  | leave t k =>
    by_cases hik : i = k
    · exact .inl (.inr ⟨t, he, hik ▸ Set.mem_insert _ _⟩)
    · refine .inr ?_
      simpa [Journal.apply, hik] using hi

/-- Announced events keep a journal following its base. -/
theorem Follows.steps (h : Follows birth token base j)
    (hs : Relation.ReflTransGen (Step birth token) j j') : Follows birth token base j' := by
  induction hs with
  | refl => exact h
  | tail _ hstep ih =>
    obtain ⟨e, he, rfl⟩ := hstep
    exact ih.apply he

/-- What was removed stays recorded. -/
theorem removals_steps (hs : Relation.ReflTransGen (Step birth token) j j') :
    j.removals ⊆ j'.removals := by
  induction hs with
  | refl => exact Set.Subset.rfl
  | tail _ hstep ih =>
    obtain ⟨e, -, rfl⟩ := hstep
    cases e with
    | enter i => exact ih
    | leave t i => exact ih.trans (Set.subset_insert _ _)

/-- An item that enters unannounced is missed. -/
theorem not_follows_enter {i : ι} (h : Follows birth token base j)
    (hi : ¬Announced birth token j (.enter i)) :
    ¬Follows birth token base (j.apply (.enter i)) := by
  simp only [Announced, not_or] at hi
  obtain ⟨hm, hb, hr⟩ := hi
  have hnamed : ∀ k : Journal ι τ, k.removals = j.removals → ¬Named birth token k i := by
    rintro k hk (⟨_, ht⟩ | ⟨t, ht, hmem⟩)
    · exact hb ht
    · exact hr ⟨t, ht, hk ▸ hmem⟩
  have hbase : i ∉ base.members := by
    rcases h i with hn | hiff
    · exact absurd hn (hnamed j rfl)
    · exact fun hbm => hm (hiff.mpr hbm)
  intro hf
  rcases hf i with hn | hiff
  · exact hnamed (j.apply (.enter i)) rfl hn
  · exact hbase (hiff.mp (Set.mem_insert _ _))

end ChangeJournal
