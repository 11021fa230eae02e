import Mathlib.Data.Int.Init

/-! # Busy periods

`MergePeriods` of `ical.cpp`: from any list of periods, those of a canonical one that covers the
same instants.
-/

namespace QuackMail.Ical

structure Period where
  start : Int
  finish : Int

/-- The order of the sort. -/
def Period.le (a b : Period) : Bool :=
  if a.start ≠ b.start then a.start < b.start else a.finish ≤ b.finish

/-- The loop: the head of `out` is its back. -/
def mergeStep (out : List Period) (p : Period) : List Period :=
  if p.finish ≤ p.start then out
  else
    match out with
    | [] => [p]
    | back :: out =>
      if p.start ≤ back.finish then
        (if p.finish > back.finish then { back with finish := p.finish } else back) :: out
      else p :: back :: out

def mergePeriods (periods : List Period) : List Period :=
  ((periods.mergeSort Period.le).foldl mergeStep []).reverse

/-- The instant is in one of the periods. -/
def Covers (periods : List Period) (t : Int) : Prop :=
  ∃ p ∈ periods, p.start ≤ t ∧ t < p.finish

/-- Periods in order that do not even touch, and none of them empty. -/
structure Canonical (periods : List Period) : Prop where
  apart : periods.Pairwise fun a b => a.finish < b.start
  proper : ∀ p ∈ periods, p.start < p.finish

/-! ## The loop -/

theorem covers_cons {p : Period} {periods : List Period} {t : Int} :
    Covers (p :: periods) t ↔ (p.start ≤ t ∧ t < p.finish) ∨ Covers periods t := by
  simp [Covers]

/-- What the loop keeps, of the periods in reverse: nothing starts after what is still to come. -/
structure Kept (out : List Period) (low : Int) : Prop where
  apart : out.Pairwise fun a b => b.finish < a.start
  proper : ∀ p ∈ out, p.start < p.finish
  low : ∀ p ∈ out, p.start ≤ low

theorem Kept.step {out : List Period} {p : Period} (h : Kept out p.start) :
    Kept (mergeStep out p) p.start ∧
      ∀ t, Covers (mergeStep out p) t ↔ Covers out t ∨ (p.start ≤ t ∧ t < p.finish) := by
  rw [mergeStep.eq_def]
  split
  · next hempty => exact ⟨h, fun t => ⟨.inl, fun hc => hc.resolve_right (by omega)⟩⟩
  next hproper =>
  cases out with
  | nil =>
    refine ⟨⟨List.pairwise_singleton _ _, ?_, ?_⟩, fun t => by simp [Covers]⟩
    · simpa using hproper
    · simp
  | cons back out =>
    obtain ⟨hbefore, hapart⟩ := List.pairwise_cons.mp h.apart
    obtain ⟨hback, hout⟩ := List.forall_mem_cons.mp h.proper
    obtain ⟨hlow, hlows⟩ := List.forall_mem_cons.mp h.low
    dsimp only
    split
    · -- the back grows to the longer end of the two
      next htouch =>
      obtain ⟨finish, hfinish, hmax⟩ : ∃ finish,
          (if p.finish > back.finish then { back with finish := p.finish } else back) =
            ⟨back.start, finish⟩ ∧ finish = max back.finish p.finish := by
        split
        · exact ⟨p.finish, rfl, by omega⟩
        · exact ⟨back.finish, rfl, by omega⟩
      rw [hfinish]
      refine ⟨⟨List.pairwise_cons.mpr ⟨hbefore, hapart⟩, ?_, ?_⟩, fun t => ?_⟩
      · refine List.forall_mem_cons.mpr ⟨?_, hout⟩
        dsimp only
        omega
      · exact List.forall_mem_cons.mpr ⟨hlow, hlows⟩
      · rw [covers_cons, covers_cons]
        by_cases hcovers : Covers out t
        · simp only [hcovers, or_true, true_or]
        · simp only [hcovers, or_false]
          omega
    · next hgap =>
      refine ⟨⟨List.pairwise_cons.mpr ⟨?_, h.apart⟩, ?_, ?_⟩, fun t => ?_⟩
      · intro q hq
        rcases List.mem_cons.mp hq with rfl | hq
        · omega
        · have := hbefore q hq
          omega
      · exact List.forall_mem_cons.mpr ⟨by omega, h.proper⟩
      · exact List.forall_mem_cons.mpr ⟨Int.le_refl _, h.low⟩
      · rw [covers_cons, or_comm]

theorem Kept.fold {periods : List Period} :
    ∀ {out : List Period} {low : Int}, Kept out low → (∀ p ∈ periods, low ≤ p.start) →
      (periods.Pairwise fun a b => a.start ≤ b.start) →
      (∃ last, Kept (periods.foldl mergeStep out) last) ∧
        ∀ t, Covers (periods.foldl mergeStep out) t ↔ Covers out t ∨ Covers periods t := by
  induction periods with
  | nil => exact fun h _ _ => ⟨⟨_, h⟩, fun t => by simp [Covers]⟩
  | cons p periods ih =>
    intro out low h hlow hsorted
    obtain ⟨hfirst, hrest⟩ := List.pairwise_cons.mp hsorted
    have hp : Kept out p.start :=
      ⟨h.apart, h.proper, fun q hq => Int.le_trans (h.low q hq) (hlow p List.mem_cons_self)⟩
    obtain ⟨hstep, hcovers⟩ := hp.step
    obtain ⟨hkept, hall⟩ := ih hstep hfirst hrest
    refine ⟨hkept, fun t => ?_⟩
    rw [List.foldl_cons, hall t, hcovers t, covers_cons, or_assoc]

/-- Of a canonical list every period is pushed. -/
theorem foldl_canonical {periods : List Period} : ∀ {out : List Period},
    Canonical (out.reverse ++ periods) →
      periods.foldl mergeStep out = periods.reverse ++ out := by
  induction periods with
  | nil => exact fun _ => rfl
  | cons p periods ih =>
    intro out h
    have hp := h.proper p (by simp)
    have hpush : mergeStep out p = p :: out := by
      rw [mergeStep.eq_def, if_neg (by omega)]
      cases out with
      | nil => rfl
      | cons back out =>
        have hgap := (List.pairwise_append.mp h.apart).2.2 back (by simp) p (by simp)
        dsimp only
        rw [if_neg (by omega)]
    rw [List.foldl_cons, hpush, ih (by simpa using h), List.reverse_cons, List.append_assoc,
      List.singleton_append]

/-! ## The result -/

theorem Period.le_iff {a b : Period} :
    a.le b = true ↔ a.start < b.start ∨ a.start = b.start ∧ a.finish ≤ b.finish := by
  unfold Period.le
  split
  · simp
    omega
  · simp
    omega

theorem pairwise_sorted (periods : List Period) :
    (periods.mergeSort Period.le).Pairwise fun a b => a.start ≤ b.start := by
  have hsorted := @List.pairwise_mergeSort _ Period.le
    (fun a b c hab hbc => by rw [Period.le_iff] at *; omega)
    (fun a b => by rw [Bool.or_eq_true, Period.le_iff, Period.le_iff]; omega) periods
  exact hsorted.imp fun h => by rw [Period.le_iff] at h; omega

/-- A canonical list is in order. -/
theorem mergeSort_canonical {periods : List Period} (h : Canonical periods) :
    periods.mergeSort Period.le = periods := by
  apply List.mergeSort_of_pairwise
  refine h.apart.imp_of_mem fun {a b} ha _ hab => ?_
  have := h.proper a ha
  rw [Period.le_iff]
  omega

/-- The periods that come of it are in order, apart and not empty; they cover what the given ones
    cover; and merging them again changes nothing. -/
theorem mergePeriods_canonical (periods : List Period) :
    Canonical (mergePeriods periods) ∧
      ((mergePeriods periods).Pairwise fun a b => a.start < b.start) ∧
      (∀ t, Covers (mergePeriods periods) t ↔ Covers periods t) ∧
      mergePeriods (mergePeriods periods) = mergePeriods periods := by
  have hkept : ∀ low, Kept [] low := fun _ => ⟨List.Pairwise.nil, by simp, by simp⟩
  have hfold : (∃ last, Kept ((periods.mergeSort Period.le).foldl mergeStep []) last) ∧
      ∀ t, Covers ((periods.mergeSort Period.le).foldl mergeStep []) t ↔
        Covers (periods.mergeSort Period.le) t := by
    have hsorted := pairwise_sorted periods
    cases hs : periods.mergeSort Period.le with
    | nil => exact ⟨⟨0, hkept 0⟩, fun t => Iff.rfl⟩
    | cons p rest =>
      rw [hs] at hsorted
      have hlow : ∀ q ∈ p :: rest, p.start ≤ q.start :=
        List.forall_mem_cons.mpr ⟨Int.le_refl _, (List.pairwise_cons.mp hsorted).1⟩
      obtain ⟨hlast, hcovers⟩ := (hkept p.start).fold hlow hsorted
      exact ⟨hlast, fun t => by rw [hcovers t]; simp [Covers]⟩
  obtain ⟨⟨last, hlast⟩, hcovers⟩ := hfold
  have hcanonical : Canonical (mergePeriods periods) := by
    refine ⟨List.pairwise_reverse.mpr hlast.apart, fun p hp => ?_⟩
    exact hlast.proper p (List.mem_reverse.mp hp)
  refine ⟨hcanonical, ?_, fun t => ?_, ?_⟩
  · refine hcanonical.apart.imp_of_mem fun {a b} ha _ hab => ?_
    have := hcanonical.proper a ha
    omega
  · have hperm := List.mergeSort_perm periods Period.le
    refine Iff.trans ?_ ((hcovers t).trans ?_)
    · simp [Covers, mergePeriods]
    · simp [Covers]
  · rw [mergePeriods, mergeSort_canonical hcanonical, @foldl_canonical _ []
      (by simpa using hcanonical), List.append_nil, List.reverse_reverse]

end QuackMail.Ical
