import Mathlib.Data.List.Induction
import Mathlib.Data.List.Nodup

/-! # Reading a shelf through a watermark

A reader works off a shelf that others put items on and take items from.  It keeps one
number, the mark: a pass takes items above it and moves it up to them.  An item is never
taken twice.  It is taken at all if it comes to the shelf above the mark, or comes back
after a pass has met it; a pass that takes only part of the shelf leaves the rest waiting.
-/

namespace Watermark

structure Reader (σ ι : Type) where
  step : σ → ι → σ
  shelf : σ → Set Nat
  mark : σ → Nat
  pass : ι → Prop
  takes : σ → ι → List Nat
  Inv : σ → Prop
  inv_step : ∀ {s}, Inv s → ∀ i, Inv (step s i)
  takes_other : ∀ s {i}, ¬pass i → takes s i = []
  mark_other : ∀ s {i}, ¬pass i → mark (step s i) = mark s
  shelf_pass : ∀ s {i}, pass i → shelf (step s i) = shelf s
  mark_le : ∀ s i, mark s ≤ mark (step s i)
  takes_nodup : ∀ {s}, Inv s → ∀ i, (takes s i).Nodup
  taken : ∀ {s i n}, n ∈ takes s i → n ∈ shelf s ∧ mark s < n ∧ n ≤ mark (step s i)

namespace Reader

variable {σ ι : Type} (R : Reader σ ι)

/-! ## Runs -/

def run (s : σ) (is : List ι) : σ := is.foldl R.step s

def takenIn : σ → List ι → List Nat
  | _, [] => []
  | s, i :: is => R.takes s i ++ takenIn (R.step s i) is

/-- Some step of the run put `n` on the shelf. -/
def Linked (s : σ) (is : List ι) (n : Nat) : Prop :=
  ∃ before i after, is = before ++ i :: after ∧ n ∉ R.shelf (R.run s before) ∧
    n ∈ R.shelf (R.step (R.run s before) i)

/-- Some pass of the run found `n` on the shelf, after a step had put it there. -/
def Met (s : σ) (is : List ι) (n : Nat) : Prop :=
  ∃ before i after, is = before ++ i :: after ∧ R.pass i ∧ R.Linked s before n ∧
    n ∈ R.shelf (R.run s before)

/-- What comes to the shelf comes above the mark, or was met before. -/
def Ahead (s : σ) (is : List ι) : Prop :=
  ∀ before i after, is = before ++ i :: after → ∀ n, n ∉ R.shelf (R.run s before) →
    n ∈ R.shelf (R.step (R.run s before) i) →
      R.mark (R.run s before) < n ∨ R.Met s before n

/-- What was met leaves the shelf only after it was taken. -/
def Patient (s : σ) (is : List ι) : Prop :=
  ∀ before i after, is = before ++ i :: after → ∀ n, R.Met s before n →
    n ∈ R.shelf (R.run s before) → n ∉ R.shelf (R.step (R.run s before) i) →
      n ∈ R.takenIn s before

variable {R}

@[simp] theorem run_append (s : σ) (xs ys : List ι) :
    R.run s (xs ++ ys) = R.run (R.run s xs) ys := List.foldl_append ..

@[simp] theorem run_cons (s : σ) (i : ι) (is : List ι) :
    R.run s (i :: is) = R.run (R.step s i) is := rfl

@[simp] theorem run_nil (s : σ) : R.run s [] = s := rfl

theorem takenIn_append (s : σ) (xs ys : List ι) :
    R.takenIn s (xs ++ ys) = R.takenIn s xs ++ R.takenIn (R.run s xs) ys := by
  induction xs generalizing s with
  | nil => rfl
  | cons i xs ih =>
    rw [List.cons_append, takenIn, takenIn, ih, List.append_assoc]
    rfl

variable {s : σ} {i : ι} {is : List ι} {n : Nat}

theorem inv_run (h : R.Inv s) (is : List ι) : R.Inv (R.run s is) := by
  induction is generalizing s with
  | nil => exact h
  | cons i is ih => exact ih (R.inv_step h i)

/-! ## Splits of a run that is longer by one step -/

theorem snoc_split {before : List ι} {j : ι} {after : List ι}
    (h : is ++ [i] = before ++ j :: after) :
    (before = is ∧ j = i ∧ after = []) ∨
      ∃ after', after = after' ++ [i] ∧ is = before ++ j :: after' := by
  rcases List.eq_nil_or_concat' after with hnil | ⟨after', last, hsnoc⟩
  · subst hnil
    obtain ⟨hbefore, hlast⟩ := List.append_inj' h rfl
    obtain ⟨hlast, -⟩ := List.cons.inj hlast
    exact .inl ⟨hbefore.symm, hlast.symm, rfl⟩
  · subst hsnoc
    rw [← List.cons_append, ← List.append_assoc] at h
    obtain ⟨his, hlast⟩ := List.append_inj' h rfl
    exact .inr ⟨after', by rw [hlast], his⟩

theorem linked_snoc : R.Linked s (is ++ [i]) n ↔
      R.Linked s is n ∨ n ∉ R.shelf (R.run s is) ∧ n ∈ R.shelf (R.step (R.run s is) i) := by
  constructor
  · intro ⟨before, j, after, heq, hout, hin⟩
    rcases snoc_split heq with ⟨hb, hj, -⟩ | ⟨after', -, his⟩
    · subst hb hj
      exact .inr ⟨hout, hin⟩
    · exact .inl ⟨before, j, after', his, hout, hin⟩
  · intro h
    cases h with
    | inl h =>
      obtain ⟨before, j, after, his, hout, hin⟩ := h
      exact ⟨before, j, after ++ [i], by rw [his]; simp, hout, hin⟩
    | inr h => exact ⟨is, i, [], rfl, h.1, h.2⟩

theorem met_snoc : R.Met s (is ++ [i]) n ↔
      R.Met s is n ∨ R.pass i ∧ R.Linked s is n ∧ n ∈ R.shelf (R.run s is) := by
  constructor
  · intro ⟨before, j, after, heq, hpass, hlinked, hin⟩
    rcases snoc_split heq with ⟨hb, hj, -⟩ | ⟨after', -, his⟩
    · subst hb hj
      exact .inr ⟨hpass, hlinked, hin⟩
    · exact .inl ⟨before, j, after', his, hpass, hlinked, hin⟩
  · intro h
    cases h with
    | inl h =>
      obtain ⟨before, j, after, his, hpass, hlinked, hin⟩ := h
      exact ⟨before, j, after ++ [i], by rw [his]; simp, hpass, hlinked, hin⟩
    | inr h => exact ⟨is, i, [], rfl, h.1, h.2.1, h.2.2⟩

theorem Ahead.left {xs ys : List ι} (h : R.Ahead s (xs ++ ys)) : R.Ahead s xs :=
  fun before i after heq => h before i (after ++ ys) (by rw [heq]; simp)

theorem Patient.left {xs ys : List ι} (h : R.Patient s (xs ++ ys)) : R.Patient s xs :=
  fun before i after heq => h before i (after ++ ys) (by rw [heq]; simp)

/-! ## Never twice -/

theorem mark_lt_of_takenIn (h : n ∈ R.takenIn s is) : R.mark s < n := by
  induction is generalizing s with
  | nil => cases h
  | cons i is ih =>
    rcases List.mem_append.mp h with h | h
    · exact (R.taken h).2.1
    · exact Nat.lt_of_le_of_lt (R.mark_le s i) (ih h)

/-- What a run takes it takes once. -/
theorem takenIn_nodup (hinv : R.Inv s) (is : List ι) : (R.takenIn s is).Nodup := by
  induction is generalizing s with
  | nil => exact List.nodup_nil
  | cons i is ih =>
    refine List.nodup_append'.mpr ⟨R.takes_nodup hinv i, ih (R.inv_step hinv i), ?_⟩
    intro n hfirst hrest
    have := (R.taken hfirst).2.2
    have := mark_lt_of_takenIn hrest
    omega

theorem count_takenIn (hinv : R.Inv s) (h : n ∈ R.takenIn s is) : (R.takenIn s is).count n = 1 := by
  rw [(takenIn_nodup hinv is).count, if_pos h]

/-! ## Readers that take everything -/

/-- What was put on the shelf and not met yet is above the mark. -/
theorem mark_lt_of_unmet (hahead : R.Ahead s is)
    (hin : n ∈ R.shelf (R.run s is)) (hlinked : R.Linked s is n) (hunmet : ¬R.Met s is n) :
    R.mark (R.run s is) < n := by
  induction is using List.reverseRecOn with
  | nil =>
    obtain ⟨before, i, after, heq, -⟩ := hlinked
    simp at heq
  | append_singleton is i ih =>
    rw [met_snoc, not_or] at hunmet
    rw [run_append] at hin ⊢
    by_cases hthere : n ∈ R.shelf (R.run s is)
    · -- it was there before the step, so the step is no pass
      have hlinked' : R.Linked s is n := by
        rcases linked_snoc.mp hlinked with h | h
        · exact h
        · exact absurd hthere h.1
      have hother : ¬R.pass i := fun hpass => hunmet.2 ⟨hpass, hlinked', hthere⟩
      have := ih hahead.left hthere hlinked' hunmet.1
      rwa [run_cons, run_nil, R.mark_other _ hother]
    · -- the step puts it there
      have hother : ¬R.pass i := by
        intro hpass
        rw [run_cons, run_nil, R.shelf_pass _ hpass] at hin
        exact hthere hin
      rw [run_cons, run_nil] at hin ⊢
      rw [R.mark_other _ hother]
      rcases hahead is i [] rfl n hthere hin with h | h
      · exact h
      · exact absurd h hunmet.1

/-! ## Readers that take a part -/

/-- The passes of a run that did some work. -/
def worked (R : Reader σ ι) (works : σ → ι → Bool) : σ → List ι → Nat
  | _, [] => 0
  | s, i :: is => (if works s i then 1 else 0) + worked R works (R.step s i) is

/-- A pass that leaves `n` leaves it above the mark, which moves if the pass works. -/
def Fair (R : Reader σ ι) (works : σ → ι → Bool) (s : σ) (is : List ι) : Prop :=
  ∀ before i after, is = before ++ i :: after → R.pass i → ∀ n, n ∈ R.shelf (R.run s before) →
    R.mark (R.run s before) < n →
      n ∈ R.takes (R.run s before) i ∨
        R.mark (R.step (R.run s before) i) < n ∧
          (works (R.run s before) i = true →
            R.mark (R.run s before) < R.mark (R.step (R.run s before) i))

variable {works : σ → ι → Bool}

theorem Fair.left {xs ys : List ι} (h : R.Fair works s (xs ++ ys)) : R.Fair works s xs :=
  fun before i after heq => h before i (after ++ ys) (by rw [heq]; simp)

theorem worked_append (s : σ) (xs ys : List ι) :
    R.worked works s (xs ++ ys) = R.worked works s xs + R.worked works (R.run s xs) ys := by
  induction xs generalizing s with
  | nil => simp [worked]
  | cons i xs ih =>
    rw [List.cons_append, worked, worked, ih, run_cons, Nat.add_assoc]

/-- Met items are taken, or wait on the shelf above the mark; and what was put on the shelf
    and not taken is above the mark. -/
theorem taken_or_waiting (hahead : R.Ahead s is) (hpatient : R.Patient s is)
    (hfair : R.Fair works s is) (n : Nat) :
    (R.Met s is n → n ∈ R.takenIn s is ∨ n ∈ R.shelf (R.run s is)) ∧
      (n ∈ R.shelf (R.run s is) → R.Linked s is n → n ∉ R.takenIn s is →
        R.mark (R.run s is) < n) := by
  induction is using List.reverseRecOn with
  | nil =>
    constructor
    · intro ⟨before, i, after, heq, _⟩
      simp at heq
    · intro _ ⟨before, i, after, heq, _⟩
      simp at heq
  | append_singleton is i ih =>
    obtain ⟨hmet, hwaits⟩ := ih hahead.left hpatient.left hfair.left
    simp only [run_append, run_cons, run_nil, takenIn_append, takenIn, List.append_nil,
      List.mem_append]
    constructor
    · intro h
      rcases met_snoc.mp h with h | ⟨hpass, _, hin⟩
      · rcases hmet h with htaken | hin
        · exact .inl (.inl htaken)
        · by_cases hstays : n ∈ R.shelf (R.step (R.run s is) i)
          · exact .inr hstays
          · exact .inl (.inl (hpatient is i [] rfl n h hin hstays))
      · rw [R.shelf_pass _ hpass]
        exact .inr hin
    · intro hin hlinked huntaken
      rw [not_or] at huntaken
      by_cases hthere : n ∈ R.shelf (R.run s is)
      · have hlinked' : R.Linked s is n := by
          rcases linked_snoc.mp hlinked with h | h
          · exact h
          · exact absurd hthere h.1
        have habove := hwaits hthere hlinked' huntaken.1
        by_cases hpass : R.pass i
        · rcases hfair is i [] rfl hpass n hthere habove with h | h
          · exact absurd h huntaken.2
          · exact h.1
        · rwa [R.mark_other _ hpass]
      · have hother : ¬R.pass i := by
          intro hpass
          rw [R.shelf_pass _ hpass] at hin
          exact hthere hin
        rw [R.mark_other _ hother]
        rcases hahead is i [] rfl n hthere hin with h | h
        · exact h
        · rcases hmet h with htaken | hin'
          · exact absurd htaken huntaken.1
          · exact absurd hin' hthere

/-- While an item waits, every pass that works moves the mark towards it. -/
theorem mark_climbs {before after : List ι} (hahead : R.Ahead s (before ++ after))
    (hpatient : R.Patient s (before ++ after)) (hfair : R.Fair works s (before ++ after))
    (hin : ∀ early i late, after = early ++ i :: late → R.pass i →
      n ∈ R.shelf (R.run s (before ++ early)) ∧ R.Linked s (before ++ early) n)
    (hworks : ∀ s i, works s i = true → R.pass i) (huntaken : n ∉ R.takenIn s (before ++ after)) :
    R.mark (R.run s before) + R.worked works (R.run s before) after ≤
      R.mark (R.run s (before ++ after)) := by
  induction after using List.reverseRecOn with
  | nil => simp [worked]
  | append_singleton after i ih =>
    rw [← List.append_assoc] at hahead hpatient hfair huntaken ⊢
    rw [takenIn_append, List.mem_append, not_or] at huntaken
    have hclimbed := ih hahead.left hpatient.left hfair.left
      (fun early j late heq => hin early j (late ++ [i]) (by rw [heq]; simp)) huntaken.1
    rw [worked_append, ← run_append, run_append s (before ++ after) [i], run_cons, run_nil, worked,
      worked]
    have hle := R.mark_le (R.run s (before ++ after)) i
    by_cases hw : works (R.run s (before ++ after)) i = true
    · -- the item waits above the mark, and the pass moves it
      have hpass := hworks _ _ hw
      obtain ⟨hthere, hlinked⟩ := hin after i [] rfl hpass
      have habove := (taken_or_waiting hahead.left hpatient.left hfair.left n).2 hthere hlinked
        huntaken.1
      rcases hfair (before ++ after) i [] rfl hpass n hthere habove with h | h
      · exact absurd (List.mem_append_left _ h) huntaken.2
      · have := h.2 hw
        rw [if_pos hw]
        omega
    · rw [if_neg hw]
      omega

/-- As many passes that work as there are numbers between the mark and a met item take it. -/
theorem taken_of_worked (works : σ → ι → Bool) {before : List ι} {after : List ι}
    (hahead : R.Ahead s (before ++ i :: after)) (hpatient : R.Patient s (before ++ i :: after))
    (hfair : R.Fair works s (before ++ i :: after))
    (hworks : ∀ s i, works s i = true → R.pass i) (hpass : R.pass i)
    (hlinked : R.Linked s before n) (hin : n ∈ R.shelf (R.run s before))
    (henough : n ≤ R.mark (R.run s before) + R.worked works (R.run s before) (i :: after)) :
    n ∈ R.takenIn s (before ++ i :: after) := by
  by_contra huntaken
  have hmet : ∀ early late, i :: after = early ++ late → early ≠ [] →
      R.Met s (before ++ early) n := by
    intro early late heq hne
    cases early with
    | nil => exact absurd rfl hne
    | cons j early =>
      obtain ⟨hj, -⟩ := List.cons.inj heq
      subst hj
      exact ⟨before, i, early, rfl, hpass, hlinked, hin⟩
  have hpart : ∀ early late, i :: after = early ++ late → n ∉ R.takenIn s (before ++ early) := by
    intro early late heq htaken
    apply huntaken
    rw [heq, ← List.append_assoc, takenIn_append]
    exact List.mem_append_left _ htaken
  have hwaits : ∀ early late, i :: after = early ++ late →
      n ∈ R.shelf (R.run s (before ++ early)) := by
    intro early late heq
    have hsplit : before ++ i :: after = (before ++ early) ++ late := by
      rw [heq, List.append_assoc]
    rw [hsplit] at hahead hpatient hfair
    by_cases hne : early = []
    · subst hne
      rwa [List.append_nil]
    · rcases (taken_or_waiting hahead.left hpatient.left hfair.left n).1
        (hmet early late heq hne) with h | h
      · exact absurd h (hpart early late heq)
      · exact h
  have hstill : ∀ early, R.Linked s (before ++ early) n := by
    intro early
    obtain ⟨b, j, a, heq, hlink⟩ := hlinked
    exact ⟨b, j, a ++ early, by rw [heq]; simp, hlink⟩
  have hclimbed := mark_climbs hahead hpatient hfair
    (fun early j late heq _ => ⟨hwaits early (j :: late) heq, hstill early⟩) hworks huntaken
  have hend := hwaits (i :: after) [] (List.append_nil _).symm
  have := (taken_or_waiting hahead hpatient hfair n).2 hend (hstill (i :: after)) huntaken
  omega

end Reader

end Watermark
