import Mathlib.Tactic.Common
import Mathlib.Data.List.Count

/-! # Spending within a sliding window

A ledger charges what is spent, and a spender asks it beforehand.  Between the question and
the charge lie a reservation, the spending and a debt.  As long as a reservation is granted
only where what is charged, owed and reserved leaves room for it, what is spent within any
window of time stays within the bound.
-/

namespace QuackMail.SlidingWindow

/-! ## Counting -/

/-- How many of the times are later than `a`. -/
def countAfter (a : Int) (times : List Int) : Nat := times.countP fun t => decide (a < t)

/-- How many of the times lie in the window `(a, a + width]`. -/
def countWithin (width a : Int) (times : List Int) : Nat :=
  times.countP fun t => decide (a < t ∧ t ≤ a + width)

@[simp] theorem countAfter_nil (a : Int) : countAfter a [] = 0 := rfl

@[simp] theorem countAfter_cons (a t : Int) (times : List Int) :
    countAfter a (t :: times) = countAfter a times + if a < t then 1 else 0 := by
  simp [countAfter, List.countP_cons]

theorem countAfter_replicate (a t : Int) (n : Nat) (times : List Int) :
    countAfter a (List.replicate n t ++ times) =
      countAfter a times + if a < t then n else 0 := by
  rw [countAfter, List.countP_append, List.countP_replicate, countAfter, Nat.add_comm]
  simp

theorem countAfter_mono {a b : Int} (h : a ≤ b) (times : List Int) :
    countAfter b times ≤ countAfter a times := by
  refine List.countP_mono_left fun t _ ht => ?_
  simp only [decide_eq_true_eq] at ht ⊢
  omega

theorem countAfter_eq_zero {a : Int} {times : List Int} (h : ∀ t ∈ times, t ≤ a) :
    countAfter a times = 0 := by
  refine List.countP_eq_zero.mpr fun t ht => ?_
  have hle := h t ht
  simp only [decide_eq_true_eq]
  omega

theorem countWithin_le_countAfter (width a : Int) (times : List Int) :
    countWithin width a times ≤ countAfter a times := by
  refine List.countP_mono_left fun t _ ht => ?_
  simp only [decide_eq_true_eq] at ht ⊢
  exact ht.1

/-- Times past the end of the window do not count. -/
theorem countWithin_replicate_of_lt {width a t : Int} (h : a + width < t) (n : Nat)
    (times : List Int) :
    countWithin width a (List.replicate n t ++ times) = countWithin width a times := by
  rw [countWithin, List.countP_append, List.countP_replicate, countWithin]
  have hout : decide (a < t ∧ t ≤ a + width) = false := by
    simp only [decide_eq_false_iff_not]
    omega
  simp [hout]

/-! ## Ledgers -/

structure Ledger where
  now : Int
  spent : List Int
  charged : List Int
  /-- Granted and not yet spent. -/
  reserved : Nat
  /-- Spent and not yet charged. -/
  owed : Nat

/-- One step of a ledger for windows of `width` and the bound `max`. -/
inductive Step (width max : Int) (l : Ledger) : Ledger → Prop where
  | wait (d : Nat) : Step width max l { l with now := l.now + d }
  | reserve (n : Nat)
      (room : (countAfter (l.now - width) l.charged + l.owed + l.reserved + n : Int) ≤ max) :
      Step width max l { l with reserved := l.reserved + n }
  | release (n : Nat) : Step width max l { l with reserved := l.reserved - n }
  | spend (n : Nat) (granted : n ≤ l.reserved) :
      Step width max l { l with
        spent := List.replicate n l.now ++ l.spent, reserved := l.reserved - n,
        owed := l.owed + n }
  | charge (due : 0 < l.owed) :
      Step width max l { l with charged := l.now :: l.charged, owed := l.owed - 1 }
  | forget (kept : List Int)
      (recent : ∀ a, l.now - width ≤ a → countAfter a l.charged ≤ countAfter a kept) :
      Step width max l { l with charged := kept }

def opened (now : Int) : Ledger := ⟨now, [], [], 0, 0⟩

/-- What a ledger keeps: everything spent lately is charged or owed, and with what is reserved
    it fits into every window that is still open. -/
structure Sound (width max : Int) (l : Ledger) : Prop where
  past : ∀ t ∈ l.spent, t ≤ l.now
  covered : ∀ a, l.now - width ≤ a → countAfter a l.spent ≤ countAfter a l.charged + l.owed
  room : ∀ a, l.now - width ≤ a → (countAfter a l.spent + l.reserved : Int) ≤ max
  bounded : ∀ a, (countWithin width a l.spent : Int) ≤ max

variable {width max : Int}

theorem sound_open (hmax : 0 ≤ max) (now : Int) : Sound width max (opened now) where
  past := by
    intro t ht
    cases ht
  covered := fun _ _ => Nat.zero_le _
  room := fun _ _ => by simpa [opened] using hmax
  bounded := fun _ => by simpa [opened, countWithin] using hmax

theorem Sound.step {l l' : Ledger} (h : Sound width max l) (hstep : Step width max l l') :
    Sound width max l' := by
  obtain ⟨hpast, hcovered, hroom, hbounded⟩ := h
  cases hstep with
  | wait d =>
    refine ⟨fun t ht => ?_, fun a ha => ?_, fun a ha => ?_, hbounded⟩
    · have hle := hpast t ht
      dsimp only
      omega
    · dsimp only at ha
      exact hcovered a (by omega)
    · dsimp only at ha
      exact hroom a (by omega)
  | reserve n hgrant =>
    refine ⟨hpast, hcovered, fun a ha => ?_, hbounded⟩
    dsimp only at ha ⊢
    have hspent := hcovered a ha
    have hcharged := countAfter_mono ha l.charged
    omega
  | release n =>
    refine ⟨hpast, hcovered, fun a ha => ?_, hbounded⟩
    have hle := hroom a ha
    dsimp only
    omega
  | spend n hgranted =>
    refine ⟨fun t ht => ?_, fun a ha => ?_, fun a ha => ?_, fun a => ?_⟩
    · rcases List.mem_append.mp ht with hnew | hold
      · exact Int.le_of_eq (List.eq_of_mem_replicate hnew)
      · exact hpast t hold
    · have hle := hcovered a ha
      dsimp only
      rw [countAfter_replicate]
      split <;> omega
    · have hle := hroom a ha
      dsimp only
      rw [countAfter_replicate]
      split <;> omega
    · dsimp only
      by_cases hopen : l.now ≤ a + width
      · -- the window is open: its reservation was counted when it was granted
        have hle := hroom a (by omega)
        have hwithin := countWithin_le_countAfter width a (List.replicate n l.now ++ l.spent)
        rw [countAfter_replicate] at hwithin
        split at hwithin <;> omega
      · rw [countWithin_replicate_of_lt (by omega)]
        exact hbounded a
  | charge hdue =>
    refine ⟨hpast, fun a ha => ?_, hroom, hbounded⟩
    dsimp only at ha ⊢
    rw [countAfter_cons]
    split
    · have hle := hcovered a ha
      omega
    · next hlate =>
      rw [countAfter_eq_zero fun t ht => Int.le_trans (hpast t ht) (by omega)]
      exact Nat.zero_le _
  | forget kept hrecent =>
    refine ⟨hpast, fun a ha => ?_, hroom, hbounded⟩
    exact Nat.le_trans (hcovered a ha) (Nat.add_le_add_right (hrecent a ha) _)

end QuackMail.SlidingWindow
