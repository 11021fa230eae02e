import Mathlib.Data.Int.SuccPred
import Mathlib.Data.Set.Card

/-! # Solving for the instant of a local time

A clock shows `u + offset u` at the instant `u`.  The offset changes now and then, and an offset
is shorter than `day`.  If changes lie more than two days apart, then at most one lies where the
instants of a local time can be, and two probes a day on either side tell everything.
-/

namespace QuackMail.LocalTime

variable (offset : Int → Int)

/-- The offset is another one from `t` on. -/
def ChangesAt (t : Int) : Prop := offset (t - 1) ≠ offset t

/-- Two changes lie more than `width` apart. -/
def Spaced (width : Int) : Prop :=
  ∀ s t, ChangesAt offset s → ChangesAt offset t → s < t → width < t - s

/-- The clock shows `w` at `u`. -/
def Shows (w u : Int) : Prop := u + offset u = w

variable {offset}

theorem eq_of_unchanged {a b : Int} (hsame : ∀ t, a < t → t ≤ b → ¬ChangesAt offset t) :
    ∀ u, a ≤ u → u ≤ b → offset u = offset a := by
  intro u hau
  induction u, hau using Int.leInduction with
  | base => exact fun _ => rfl
  | succ u hau ih =>
    intro hub
    have hstep : offset (u + 1 - 1) = offset (u + 1) := by
      by_contra hne
      exact hsame (u + 1) (by omega) hub hne
    rw [← hstep, Int.add_sub_cancel, ih (by omega)]

/-- Over a stretch that is not wider than the space between changes, the offset is constant or
    changes once. -/
theorem constant_or_once {width a b : Int} (hspaced : Spaced offset width)
    (hwidth : b - a ≤ width) :
    (∀ u, a ≤ u → u ≤ b → offset u = offset a) ∨
      ∃ t, a < t ∧ t ≤ b ∧ ChangesAt offset t ∧ (∀ u, a ≤ u → u < t → offset u = offset a) ∧
        ∀ u, t ≤ u → u ≤ b → offset u = offset b := by
  by_cases hchange : ∃ t, a < t ∧ t ≤ b ∧ ChangesAt offset t
  · obtain ⟨t, hat, htb, hat'⟩ := hchange
    -- another change would be too close to this one
    have honly : ∀ s, a < s → s ≤ b → ChangesAt offset s → s = t := by
      intro s has hsb hs
      rcases Int.lt_trichotomy s t with hlt | heq | hgt
      · have hfar := hspaced s t hs hat' hlt
        omega
      · exact heq
      · have hfar := hspaced t s hat' hs hgt
        omega
    have hbefore := @eq_of_unchanged offset a (t - 1) fun s has hst hs => by
      have heq := honly s has (by omega) hs
      omega
    have hafter := @eq_of_unchanged offset t b fun s hts hsb hs => by
      have heq := honly s (by omega) hsb hs
      omega
    refine .inr ⟨t, hat, htb, hat', fun u hau hut => hbefore u hau (by omega), ?_⟩
    intro u htu hub
    rw [hafter u htu hub, hafter b htb (Int.le_refl b)]
  · refine .inl (eq_of_unchanged fun t hat htb ht => hchange ⟨t, hat, htb, ht⟩)

/-! ## The solver -/

/-- An answer: the instant, and whether there are two or none. -/
structure Answer where
  instant : Int
  twice : Bool
  never : Bool

/-- The instant is the first the clock shows `w` at, and the answer tells if there is another;
    or the clock skips `w`, and the instant is what the offset before the gap gives. -/
structure Solves (offset : Int → Int) (w : Int) (r : Answer) : Prop where
  first : (∃ u, Shows offset w u) → IsLeast {u | Shows offset w u} r.instant ∧ r.never = false ∧
    (r.twice = true ↔ {u | Shows offset w u}.ncard = 2)
  skipped : (¬∃ u, Shows offset w u) → r.never = true ∧ r.twice = false ∧
    ∃ t, ChangesAt offset t ∧ t + offset (t - 1) ≤ w ∧ w < t + offset t ∧
      r.instant = w - offset (t - 1)

/-- The two probes. -/
def solve (offset : Int → Int) (day w : Int) : Answer :=
  let before := offset (w - day)
  let after := offset (w + day)
  let c1 := w - before
  let c2 := w - after
  let ok1 := offset c1 = before
  let ok2 := offset c2 = after
  if before = after then ⟨c1, false, false⟩
  else if ok1 ∧ ok2 ∧ c1 ≠ c2 then ⟨min c1 c2, true, false⟩
  else if ok1 then ⟨c1, false, false⟩
  else if ok2 then ⟨c2, false, false⟩
  else ⟨w - min before after, false, true⟩

theorem Solves.of_unique {w c : Int} (hshows : ∀ u, Shows offset w u ↔ u = c) :
    Solves offset w ⟨c, false, false⟩ where
  first := by
    intro _
    have hset : {u | Shows offset w u} = {c} := by
      ext u
      simpa using hshows u
    rw [hset]
    exact ⟨isLeast_singleton, rfl, by simp⟩
  skipped := fun hnone => (hnone ⟨c, (hshows c).mpr rfl⟩).elim

theorem Solves.of_pair {w c d : Int} (hlt : c < d)
    (hshows : ∀ u, Shows offset w u ↔ u = c ∨ u = d) :
    Solves offset w ⟨c, true, false⟩ where
  first := by
    intro _
    have hset : {u | Shows offset w u} = {c, d} := by
      ext u
      simpa using hshows u
    rw [hset]
    refine ⟨⟨by simp, ?_⟩, rfl, by simp [Set.ncard_pair hlt.ne]⟩
    intro u hu
    rcases hu with rfl | rfl
    · exact le_refl _
    · exact hlt.le
  skipped := fun hnone => (hnone ⟨c, (hshows c).mpr (.inl rfl)⟩).elim

/-- The instants of a local time are those among the two candidates that lie on the right side
    of the change. -/
theorem shows_iff_of_change {day w t : Int} (hshort : ∀ u, -day < offset u ∧ offset u < day)
    (hbefore : ∀ u, w - day ≤ u → u < t → offset u = offset (w - day))
    (hafter : ∀ u, t ≤ u → u ≤ w + day → offset u = offset (w + day)) (u : Int) :
    Shows offset w u ↔ (u = w - offset (w - day) ∧ u < t) ∨ (u = w - offset (w + day) ∧ t ≤ u) := by
  have hday := hshort u
  unfold Shows
  constructor
  · intro hu
    by_cases hut : u < t
    · have heq := hbefore u (by omega) hut
      exact .inl ⟨by omega, hut⟩
    · have heq := hafter u (by omega) (by omega)
      exact .inr ⟨by omega, by omega⟩
  · have hprobe := hshort (w - day)
    have hprobe' := hshort (w + day)
    rintro (⟨hu, hut⟩ | ⟨hu, htu⟩)
    · rw [hbefore u (by omega) hut]
      omega
    · rw [hafter u htu (by omega)]
      omega

theorem solve_solves {day : Int} (hshort : ∀ u, -day < offset u ∧ offset u < day)
    (hspaced : Spaced offset (2 * day)) (w : Int) : Solves offset w (solve offset day w) := by
  have hprobe := hshort (w - day)
  have hprobe' := hshort (w + day)
  rcases @constant_or_once offset (2 * day) (w - day) (w + day) hspaced (by omega) with
    hconst | ⟨t, hat, htb, hchange, hbefore, hafter⟩
  · have heq : offset (w + day) = offset (w - day) := hconst _ (by omega) (Int.le_refl _)
    rw [solve, if_pos heq.symm]
    apply Solves.of_unique
    intro u
    unfold Shows
    constructor
    · intro hu
      have hday := hshort u
      have hc := hconst u (by omega) (by omega)
      omega
    · rintro rfl
      have hc := hconst (w - offset (w - day)) (by omega) (by omega)
      omega
  · have hshows := shows_iff_of_change hshort hbefore hafter
    have hleft : offset (t - 1) = offset (w - day) := hbefore _ (by omega) (by omega)
    have hright : offset t = offset (w + day) := hafter t (Int.le_refl t) htb
    have hne : offset (w - day) ≠ offset (w + day) := by
      rw [← hleft, ← hright]
      exact hchange
    -- a candidate is consistent when it lies on its side of the change
    have hok1 : offset (w - offset (w - day)) = offset (w - day) ↔ w - offset (w - day) < t := by
      constructor
      · intro hok
        by_contra hge
        exact hne (hok.symm.trans (hafter _ (by omega) (by omega)))
      · exact hbefore _ (by omega)
    have hok2 : offset (w - offset (w + day)) = offset (w + day) ↔ t ≤ w - offset (w + day) := by
      constructor
      · intro hok
        by_contra hlt
        exact hne ((hbefore _ (by omega) (by omega)).symm.trans hok)
      · exact fun hge => hafter _ hge (by omega)
    rw [solve, if_neg hne]
    simp only [hok1, hok2]
    by_cases h1 : w - offset (w - day) < t
    · by_cases h2 : t ≤ w - offset (w + day)
      · rw [if_pos ⟨h1, h2, by omega⟩, Int.min_eq_left (by omega)]
        apply Solves.of_pair (d := w - offset (w + day)) (by omega)
        intro u
        rw [hshows]
        omega
      · rw [if_neg (fun h => h2 h.2.1), if_pos h1]
        apply Solves.of_unique
        intro u
        rw [hshows]
        omega
    · by_cases h2 : t ≤ w - offset (w + day)
      · rw [if_neg (fun h => h1 h.1), if_neg h1, if_pos h2]
        apply Solves.of_unique
        intro u
        rw [hshows]
        omega
      · rw [if_neg (fun h => h1 h.1), if_neg h1, if_neg h2]
        -- the clock is put forward over the local time
        have hnone : ¬∃ u, Shows offset w u := by
          rintro ⟨u, hu⟩
          rw [hshows] at hu
          omega
        refine ⟨fun hsome => (hnone hsome).elim, fun _ => ⟨rfl, rfl, t, hchange, ?_, ?_, ?_⟩⟩
        · omega
        · omega
        · rw [hleft, Int.min_eq_left (by omega)]

end QuackMail.LocalTime
