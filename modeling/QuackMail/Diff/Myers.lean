import QuackMail.Lib.EditScript
import Mathlib.Logic.Function.Basic
import Mathlib.Data.Int.Init
import Mathlib.Tactic.Ring

/-! # Myers' search

`myersScript` is `MyersScript` of `diff.cpp`: the greedy forward search over
diagonals, one `row` per edit distance, and `walkBack`, which recovers the script
from the recorded frontiers.  The frontier vector `v` is a function from the
diagonal, so `v[off + k]` reads `v k`.

The correctness proof names the frontier of every step (`frontier`) and derives
everything from it: points never leave the quadrant, rows only move forward
(`frontier_mono`), so the first point past both ends is the far corner itself
(`found_exact`), and the walk back from it is a script (`walkBack_reaches`).
-/

namespace QuackMail.Diff

open EditScript

variable {α : Type*} [DecidableEq α]

/-- `(int)n` of a size: its low 32 bits in two's complement. -/
def toInt (n : Nat) : Int := (n : Int).bmod 0x100000000

/-- `(size_t)i` of an int. -/
def toSize (i : Int) : Nat := (i % 0x10000000000000000).toNat

abbrev Frontier := Int → Int

/-- The furthest reaching `x` on diagonal `k` before the snake is followed:
    down from diagonal `k + 1` or right from diagonal `k - 1`. -/
def frontierX (v : Frontier) (d k : Int) : Int :=
  if k = -d ∨ (k ≠ d ∧ v (k - 1) < v (k + 1)) then v (k + 1) else v (k - 1) + 1

/-- Follow equal elements diagonally. -/
def snake (a b : List α) (n m : Int) : Nat → Int → Int → Int × Int
  | 0, x, y => (x, y)
  | fuel + 1, x, y =>
    if x < n ∧ y < m ∧ a[x.toNat]? = b[y.toNat]? then snake a b n m fuel (x + 1) (y + 1)
    else (x, y)

/-- Where diagonal `k` ends up in step `d`. -/
def stepEnd (a b : List α) (n m : Int) (v : Frontier) (d k : Int) : Int × Int :=
  let x := frontierX v d k
  snake a b n m (n - x).toNat x (x - k)

/-- The diagonals `k`, `k + 2`, … of step `d`, with `left` of them to go. -/
def row (a b : List α) (n m : Int) (d : Int) : Nat → Int → Frontier → Frontier × Bool
  | 0, _, v => (v, false)
  | left + 1, k, v =>
    let p := stepEnd a b n m v d k
    let v' := Function.update v k p.1
    if p.1 ≥ n ∧ p.2 ≥ m then (v', true) else row a b n m d left (k + 2) v'

/-- The steps `d`, `d + 1`, … with `left` of them to go; the trace holds the
    frontier as it stood before each step. -/
def search (a b : List α) (n m : Int) : Nat → Nat → Frontier → List Frontier →
    Option (Nat × List Frontier)
  | 0, _, _, _ => none
  | left + 1, d, v, trace =>
    match row a b n m d (d + 1) (-d) v with
    | (_, true) => some (d, trace ++ [v])
    | (v', false) => search a b n m left (d + 1) v' (trace ++ [v])

/-- The diagonal part of the walk back, towards `(px, py)`. -/
def walkKeeps (px py : Int) : Nat → Int → Int → List Edit × Int × Int
  | 0, x, y => ([], x, y)
  | fuel + 1, x, y =>
    if x > px ∧ y > py then
      let r := walkKeeps px py fuel (x - 1) (y - 1)
      (⟨.keep, (x - 1).toNat⟩ :: r.1, r.2)
    else ([], x, y)

/-- The diagonal the predecessor of a point of step `d` on diagonal `k` lies on. -/
def prevDiagonal (v : Frontier) (d k : Int) : Int :=
  if k = -d ∨ (k ≠ d ∧ v (k - 1) < v (k + 1)) then k + 1 else k - 1

/-- The script in reverse, from `(x, y)` reached in step `d` back to the origin. -/
def walkBack (trace : List Frontier) : Nat → Int → Int → List Edit
  | 0, x, y => (walkKeeps 0 0 x.toNat x y).1
  | d + 1, x, y =>
    -- the frontier before step `d + 1`, where the predecessor of `(x, y)` lies
    let vp := trace.getD (d + 1) (fun _ => 0)
    let k := x - y
    let prevK := prevDiagonal vp (d + 1 : Nat) k
    let px := vp prevK
    let py := px - prevK
    let r := walkKeeps px py (x - px).toNat x y
    let turn : Edit :=
      if prevK = k + 1 then ⟨.ins, (r.2.2 - 1).toNat⟩ else ⟨.del, (r.2.1 - 1).toNat⟩
    r.1 ++ turn :: walkBack trace d px py

/-- Search at most `left` steps and walk the trace back. -/
def scriptWithin (a b : List α) (n m : Int) (left : Nat) : Option (List Edit) :=
  match search a b n m left 0 (fun _ => 0) [] with
  | none => none
  | some (found, trace) => some (walkBack trace found n m).reverse

/-- The largest edit distance explored, an `int`. -/
def maxDistance (n m : Int) (budget : Nat) : Int :=
  toInt (min budget ((toSize n + toSize m) % 0x10000000000000000))

/-- `MyersScript`; `none` when the texts are further apart than `budget`. -/
def myersScript (a b : List α) (budget : Nat) : Option (List Edit) :=
  scriptWithin a b (toInt a.length) (toInt b.length)
    (maxDistance (toInt a.length) (toInt b.length) budget + 1).toNat

/-! ## The frontiers of a search -/

/-- The diagonals of step `d`. -/
def OnRow (d : Nat) (k : Int) : Prop := -(d : Int) ≤ k ∧ k ≤ d ∧ (k + d) % 2 = 0

instance (d : Nat) (k : Int) : Decidable (OnRow d k) := by
  unfold OnRow
  infer_instance

/-- The frontier as it stands before step `d`. -/
def frontier (a b : List α) (n m : Int) : Nat → Frontier
  | 0 => fun _ => 0
  | d + 1 => fun k =>
    if OnRow d k then (stepEnd a b n m (frontier a b n m d) d k).1 else frontier a b n m d k

/-- Step `d` reaches past both ends on diagonal `k`. -/
def Past (a b : List α) (n m : Int) (d : Nat) (k : Int) : Prop :=
  n ≤ (stepEnd a b n m (frontier a b n m d) d k).1 ∧
    m ≤ (stepEnd a b n m (frontier a b n m d) d k).2

omit [DecidableEq α] in
/-- Reads of the frontier next to diagonal `k` see the previous step only. -/
theorem frontierX_congr {v w : Frontier} {d k : Int} (h₁ : v (k - 1) = w (k - 1))
    (h₂ : v (k + 1) = w (k + 1)) : frontierX v d k = frontierX w d k := by
  unfold frontierX
  rw [h₁, h₂]

theorem stepEnd_congr {a b : List α} {n m : Int} {v w : Frontier} {d k : Int}
    (h₁ : v (k - 1) = w (k - 1)) (h₂ : v (k + 1) = w (k + 1)) :
    stepEnd a b n m v d k = stepEnd a b n m w d k := by
  unfold stepEnd
  rw [frontierX_congr h₁ h₂]

/-- What one row computes: the next frontier when no diagonal is past both ends,
    otherwise some diagonal that is. -/
theorem row_spec {a b : List α} {n m : Int} {d : Nat} :
    ∀ (left : Nat) (k : Int) (v : Frontier), left ≤ d + 1 →
      k = -(d : Int) + 2 * ((d + 1 : Nat) - left : Int) →
      (∀ j, v j = if OnRow d j ∧ j < k then (stepEnd a b n m (frontier a b n m d) d j).1
        else frontier a b n m d j) →
      (∀ j, OnRow d j → j < k → ¬ Past a b n m d j) →
      match row a b n m d left k v with
      | (_, true) => ∃ j, OnRow d j ∧ Past a b n m d j
      | (v', false) => v' = frontier a b n m (d + 1) ∧ ∀ j, OnRow d j → ¬ Past a b n m d j := by
  intro left
  induction left with
  | zero =>
    intro k v _ hk hv hnot
    have hlast : ∀ j, OnRow d j → j < k := by
      rintro j ⟨_, _, _⟩
      omega
    refine ⟨?_, fun j hj => hnot j hj (hlast j hj)⟩
    funext j
    rw [hv j, frontier]
    by_cases hj : OnRow d j
    · simp [hlast j hj]
    · simp [hj]
  | succ left ih =>
    intro k v hleft hk hv hnot
    have hend : stepEnd a b n m v d k = stepEnd a b n m (frontier a b n m d) d k := by
      apply stepEnd_congr
      · rw [hv, if_neg]
        rintro ⟨⟨_, _, _⟩, _⟩
        omega
      · rw [hv, if_neg]
        rintro ⟨_, _⟩
        omega
    have hrow : OnRow d k := ⟨by omega, by omega, by omega⟩
    simp only [row, hend]
    by_cases hp : (stepEnd a b n m (frontier a b n m d) d k).1 ≥ n ∧
        (stepEnd a b n m (frontier a b n m d) d k).2 ≥ m
    · rw [if_pos hp]
      exact ⟨k, hrow, hp⟩
    · rw [if_neg hp]
      apply ih (k + 2) _ (by omega) (by push_cast at hk ⊢; omega)
      · intro j
        by_cases hjk : j = k
        · subst hjk
          rw [Function.update_self, if_pos ⟨hrow, by omega⟩]
        · rw [Function.update_of_ne hjk, hv j]
          by_cases hj : OnRow d j
          · have : j < k ↔ j < k + 2 := by
              obtain ⟨_, _, _⟩ := hj
              omega
            simp [this]
          · simp [hj]
      · intro j hj hlt
        by_cases hjk : j = k
        · subst hjk
          exact hp
        · obtain ⟨h₁, h₂, h₃⟩ := hj
          exact hnot j ⟨h₁, h₂, h₃⟩ (by omega)

/-- A successful search stops in a step `d` with a diagonal past both ends, no
    earlier step had one, and its trace holds the frontiers up to `d`. -/
theorem search_spec {a b : List α} {n m : Int} :
    ∀ (left d : Nat) (trace : List Frontier) (found : Nat) (trace' : List Frontier),
      trace = (List.range d).map (frontier a b n m) →
      (∀ e < d, ∀ j, OnRow e j → ¬ Past a b n m e j) →
      search a b n m left d (frontier a b n m d) trace = some (found, trace') →
      (∃ j, OnRow found j ∧ Past a b n m found j) ∧
        (∀ e < found, ∀ j, OnRow e j → ¬ Past a b n m e j) ∧
        trace' = (List.range (found + 1)).map (frontier a b n m) := by
  intro left
  induction left with
  | zero => intro d trace found trace' _ _ h; simp [search] at h
  | succ left ih =>
    intro d trace found trace' htrace hnot h
    have htrace' : trace ++ [frontier a b n m d] =
        (List.range (d + 1)).map (frontier a b n m) := by
      rw [htrace, List.range_succ, List.map_append, List.map_singleton]
    have hrow := row_spec (a := a) (b := b) (n := n) (m := m) (d := d) (d + 1) (-d)
      (frontier a b n m d) (Nat.le_refl _) (by omega)
      (by intro j; rw [if_neg]; rintro ⟨⟨_, _, _⟩, _⟩; omega)
      (by rintro j ⟨_, _, _⟩ _; omega)
    rw [search] at h
    cases hr : row a b n m d (d + 1) (-d) (frontier a b n m d) with
    | mk v' past =>
      rw [hr] at hrow h
      cases past with
      | true =>
        obtain ⟨rfl, rfl⟩ := h
        exact ⟨hrow, hnot, htrace'⟩
      | false =>
        obtain ⟨rfl, hnone⟩ := hrow
        apply ih (d + 1) _ found trace' htrace' _ h
        intro e he
        rcases Nat.lt_succ_iff_lt_or_eq.mp he with he | rfl
        · exact hnot e he
        · exact hnone

/-! ## Snakes -/

variable (a b : List α) (n m : Int)

/-- A snake runs over `s` equal elements, all of them inside both lists. -/
theorem snake_spec :
    ∀ (fuel : Nat) (x y : Int), ∃ s : Nat, snake a b n m fuel x y = (x + s, y + s) ∧
      (0 < s → x + s ≤ n ∧ y + s ≤ m) ∧
      ∀ i : Nat, i < s → a[(x + i).toNat]? = b[(y + i).toNat]? := by
  intro fuel
  induction fuel with
  | zero => intro x y; exact ⟨0, by simp [snake], by omega, by omega⟩
  | succ fuel ih =>
    intro x y
    rw [snake]
    split
    · next h =>
      obtain ⟨s, hs, hin, heq⟩ := ih (x + 1) (y + 1)
      refine ⟨s + 1, ?_, ?_, ?_⟩
      · rw [hs]
        push_cast
        ring_nf
      · intro _
        rcases Nat.eq_zero_or_pos s with rfl | hpos
        · exact ⟨by push_cast; omega, by push_cast; omega⟩
        · exact ⟨by push_cast; omega, by push_cast; omega⟩
      · intro i hi
        cases i with
        | zero => simpa using h.2.2
        | succ i =>
          have := heq i (by omega)
          have hx : x + ((i + 1 : Nat) : Int) = x + 1 + i := by push_cast; ring
          have hy : y + ((i + 1 : Nat) : Int) = y + 1 + i := by push_cast; ring
          rw [hx, hy]
          exact this
    · exact ⟨0, by simp, by omega, by omega⟩

/-- The end of a step, as the start on its diagonal and the length of its snake. -/
theorem stepEnd_spec (v : Frontier) (d k : Int) :
    ∃ s : Nat, stepEnd a b n m v d k = (frontierX v d k + s, frontierX v d k - k + s) ∧
      (0 < s → frontierX v d k + s ≤ n ∧ frontierX v d k - k + s ≤ m) ∧
      ∀ i : Nat, i < s → a[(frontierX v d k + i).toNat]? = b[(frontierX v d k - k + i).toNat]? :=
  snake_spec a b n m _ _ _

theorem frontier_of_onRow {a b : List α} {n m : Int} {d : Nat} {k : Int} (h : OnRow d k) :
    frontier a b n m (d + 1) k = (stepEnd a b n m (frontier a b n m d) d k).1 := by
  simp only [frontier, if_pos h]

/-- The two coordinates of a point stay on its diagonal. -/
theorem stepEnd_diag (v : Frontier) (d k : Int) :
    (stepEnd a b n m v d k).2 = (stepEnd a b n m v d k).1 - k := by
  obtain ⟨s, hs, _⟩ := stepEnd_spec a b n m v d k
  rw [hs]
  omega

/-- Where a step starts: at the origin, one down or one right of the row before. -/
theorem frontierX_cases {d : Nat} {k : Int} (h : OnRow d k) :
    (d = 0 ∧ k = 0 ∧ frontierX (frontier a b n m d) d k = 0) ∨
    (∃ e, d = e + 1 ∧ OnRow e (k + 1) ∧
      (k = -(d : Int) ∨ (k ≠ d ∧ frontier a b n m d (k - 1) < frontier a b n m d (k + 1))) ∧
      frontierX (frontier a b n m d) d k = frontier a b n m d (k + 1)) ∨
    (∃ e, d = e + 1 ∧ OnRow e (k - 1) ∧
      ¬ (k = -(d : Int) ∨ (k ≠ d ∧ frontier a b n m d (k - 1) < frontier a b n m d (k + 1))) ∧
      frontierX (frontier a b n m d) d k = frontier a b n m d (k - 1) + 1) := by
  obtain ⟨h₁, h₂, h₃⟩ := h
  cases d with
  | zero =>
    have hk : k = 0 := by omega
    subst hk
    exact .inl ⟨rfl, rfl, by simp [frontierX, frontier]⟩
  | succ e =>
    right
    unfold frontierX
    split
    · next hc =>
      exact .inl ⟨e, rfl, ⟨by push_cast at *; omega, by push_cast at *; omega,
        by push_cast at *; omega⟩, hc, rfl⟩
    · next hc =>
      exact .inr ⟨e, rfl, ⟨by push_cast at *; omega, by push_cast at *; omega,
        by push_cast at *; omega⟩, hc, rfl⟩

/-- Rows only move forward: the next row is at least one down of every point, and
    at least one right of it. -/
theorem frontier_mono {d : Nat} {k : Int} (h : OnRow d k) :
    frontier a b n m (d + 1) k ≤ frontier a b n m (d + 1 + 1) (k - 1) ∧
      frontier a b n m (d + 1) k + 1 ≤ frontier a b n m (d + 1 + 1) (k + 1) := by
  obtain ⟨h₁, h₂, h₃⟩ := h
  have hdown : OnRow (d + 1) (k - 1) :=
    ⟨by push_cast; omega, by push_cast; omega, by push_cast; omega⟩
  have hright : OnRow (d + 1) (k + 1) :=
    ⟨by push_cast; omega, by push_cast; omega, by push_cast; omega⟩
  constructor
  · obtain ⟨s, hs, _⟩ := stepEnd_spec a b n m (frontier a b n m (d + 1)) (d + 1 : Nat) (k - 1)
    rw [frontier_of_onRow hdown, hs]
    simp only [frontierX, sub_add_cancel]
    split
    · omega
    · omega
  · obtain ⟨s, hs, _⟩ := stepEnd_spec a b n m (frontier a b n m (d + 1)) (d + 1 : Nat) (k + 1)
    rw [frontier_of_onRow hright, hs]
    simp only [frontierX, add_sub_cancel_right]
    split
    · omega
    · omega

/-- A point beyond the right edge was reached from a point, on the diagonal to its
    left, at most one column before. -/
theorem beyond_right {a b : List α} {n m : Int} (hn : 0 ≤ n) :
    ∀ (d : Nat) (k : Int), OnRow d k → n < frontier a b n m (d + 1) k →
      ∃ e, d = e + 1 ∧ OnRow e (k - 1) ∧
        frontier a b n m (d + 1) k - 1 ≤ frontier a b n m d (k - 1) := by
  intro d
  induction d using Nat.strongRecOn with
  | ind d ih =>
    intro k h hlt
    obtain ⟨s, hs, hin, _⟩ := stepEnd_spec a b n m (frontier a b n m d) d k
    have hval : frontier a b n m (d + 1) k = frontierX (frontier a b n m d) d k + s := by
      rw [frontier_of_onRow h, hs]
    rcases frontierX_cases a b n m h with ⟨_, _, hx⟩ | ⟨e, rfl, hrow, _, hx⟩ | ⟨e, rfl, hrow, _, hx⟩
    · omega
    · have hprev : n < frontier a b n m (e + 1) (k + 1) := by omega
      obtain ⟨f, rfl, hrow', hge⟩ := ih e (by omega) (k + 1) hrow hprev
      rw [add_sub_cancel_right] at hrow' hge
      have hmono := (frontier_mono a b n m hrow').1
      obtain ⟨h₁, h₂, h₃⟩ := hrow'
      exact ⟨f + 1, rfl, ⟨by push_cast; omega, by push_cast; omega, by push_cast; omega⟩, by omega⟩
    · exact ⟨e, rfl, hrow, by omega⟩

/-- A point beyond the lower edge was reached from a point, on the diagonal below
    it, at most one line before. -/
theorem beyond_below {a b : List α} {n m : Int} (hm : 0 ≤ m) :
    ∀ (d : Nat) (k : Int), OnRow d k → m < frontier a b n m (d + 1) k - k →
      ∃ e, d = e + 1 ∧ OnRow e (k + 1) ∧
        frontier a b n m (d + 1) k ≤ frontier a b n m d (k + 1) := by
  intro d
  induction d using Nat.strongRecOn with
  | ind d ih =>
    intro k h hlt
    obtain ⟨s, hs, hin, _⟩ := stepEnd_spec a b n m (frontier a b n m d) d k
    have hval : frontier a b n m (d + 1) k = frontierX (frontier a b n m d) d k + s := by
      rw [frontier_of_onRow h, hs]
    rcases frontierX_cases a b n m h with ⟨_, hk, hx⟩ | ⟨e, rfl, hrow, _, hx⟩ | ⟨e, rfl, hrow, _, hx⟩
    · omega
    · exact ⟨e, rfl, hrow, by omega⟩
    · have hprev : m < frontier a b n m (e + 1) (k - 1) - (k - 1) := by omega
      obtain ⟨f, rfl, hrow', hge⟩ := ih e (by omega) (k - 1) hrow hprev
      rw [sub_add_cancel] at hrow' hge
      have hmono := (frontier_mono a b n m hrow').2
      obtain ⟨h₁, h₂, h₃⟩ := hrow'
      exact ⟨f + 1, rfl, ⟨by push_cast; omega, by push_cast; omega, by push_cast; omega⟩, by omega⟩

/-- The first point past both ends is the corner itself. -/
theorem found_exact {a b : List α} {n m : Int} (hn : 0 ≤ n) (hm : 0 ≤ m) {d : Nat} {k : Int}
    (h : OnRow d k) (hpast : Past a b n m d k)
    (hnot : ∀ e < d, ∀ j, OnRow e j → ¬ Past a b n m e j) :
    k = n - m ∧ frontier a b n m (d + 1) k = n := by
  obtain ⟨hx, hy⟩ := hpast
  rw [stepEnd_diag] at hy
  rw [← frontier_of_onRow h] at hx hy
  have hnx : ¬ n < frontier a b n m (d + 1) k := by
    intro hlt
    obtain ⟨e, rfl, hrow, hge⟩ := beyond_right hn d k h hlt
    refine hnot e (by omega) (k - 1) hrow ⟨?_, ?_⟩
    · rw [← frontier_of_onRow hrow]
      omega
    · rw [stepEnd_diag, ← frontier_of_onRow hrow]
      omega
  have hny : ¬ m < frontier a b n m (d + 1) k - k := by
    intro hlt
    obtain ⟨e, rfl, hrow, hge⟩ := beyond_below hm d k h hlt
    refine hnot e (by omega) (k + 1) hrow ⟨?_, ?_⟩
    · rw [← frontier_of_onRow hrow]
      omega
    · rw [stepEnd_diag, ← frontier_of_onRow hrow]
      omega
  omega

/-! ## The walk back -/

omit [DecidableEq α] in
/-- The diagonal part of the walk back undoes a snake of `s` equal elements that
    started at `(x, y)`, where the walk stops. -/
theorem walkKeeps_reaches {a b : List α} {es : List Edit} {x y : Nat} {px py : Int}
    (hes : Reaches a b x y es) (hstop : ¬ ((x : Int) > px ∧ (y : Int) > py))
    (hx : px ≤ x) (hy : py ≤ y) :
    ∀ (s fuel : Nat), s ≤ fuel →
      (∀ i < s, x + i < a.length ∧ y + i < b.length ∧ a[x + i]? = b[y + i]?) →
      (walkKeeps px py fuel (x + s) (y + s)).2 = ((x : Int), (y : Int)) ∧
        Reaches a b (x + s) (y + s)
          (es ++ (walkKeeps px py fuel (x + s) (y + s)).1.reverse) := by
  intro s
  induction s with
  | zero =>
    intro fuel _ _
    have : walkKeeps px py fuel x y = ([], (x : Int), (y : Int)) := by
      cases fuel with
      | zero => rfl
      | succ fuel => rw [walkKeeps, if_neg hstop]
    simpa [this] using hes
  | succ s ih =>
    intro fuel hfuel heq
    obtain ⟨fuel, rfl⟩ : ∃ f, fuel = f + 1 := ⟨fuel - 1, by omega⟩
    obtain ⟨hend, hreach⟩ := ih fuel (by omega) (fun i hi => heq i (by omega))
    obtain ⟨hax, hby, hab⟩ := heq s (by omega)
    have hgo : ((x : Int) + (s + 1 : Nat) > px ∧ (y : Int) + (s + 1 : Nat) > py) := by
      constructor <;> push_cast <;> omega
    have hxs : (x : Int) + (s + 1 : Nat) - 1 = x + s := by push_cast; ring
    have hys : (y : Int) + (s + 1 : Nat) - 1 = y + s := by push_cast; ring
    rw [walkKeeps, if_pos hgo, hxs, hys]
    refine ⟨hend, ?_⟩
    have hidx : ((x : Int) + s).toNat = x + s := by omega
    rw [List.getElem?_eq_getElem hax, List.getElem?_eq_getElem hby, Option.some.injEq] at hab
    have := hreach.keep hax hby hab
    simpa [hidx, Nat.add_assoc] using this

omit [DecidableEq α] in
theorem walkBack_succ {trace : List Frontier} {d : Nat} {x y k k' px py : Int} (hk : x - y = k)
    (hprev : prevDiagonal (trace.getD (d + 1) (fun _ => 0)) (d + 1 : Nat) k = k')
    (hpx : trace.getD (d + 1) (fun _ => 0) k' = px) (hpy : px - k' = py) :
    walkBack trace (d + 1) x y =
      (walkKeeps px py (x - px).toNat x y).1 ++
        (if k' = k + 1 then
          ⟨.ins, ((walkKeeps px py (x - px).toNat x y).2.2 - 1).toNat⟩
        else ⟨.del, ((walkKeeps px py (x - px).toNat x y).2.1 - 1).toNat⟩) ::
        walkBack trace d px py := by
  subst hk hprev hpx hpy
  rfl

/-- The walk back from a point of step `d` is the reverse of a script to it. -/
theorem walkBack_reaches {a b : List α} {trace : List Frontier} : ∀ (d : Nat) (k : Int), OnRow d k →
      (∀ e ≤ d, trace.getD e (fun _ => 0) = frontier a b a.length b.length e) →
      frontier a b a.length b.length (d + 1) k ≤ a.length →
      frontier a b a.length b.length (d + 1) k - k ≤ b.length →
      ∃ x y : Nat, frontier a b a.length b.length (d + 1) k = x ∧ (x : Int) - k = y ∧
        Reaches a b x y (walkBack trace d x y).reverse := by
  intro d
  induction d with
  | zero =>
    intro k h _ hxn hym
    obtain ⟨s, hs, hin, heq⟩ :=
      stepEnd_spec a b a.length b.length (frontier a b a.length b.length 0) (0 : Nat) k
    rcases frontierX_cases a b a.length b.length h with ⟨_, rfl, hx⟩ | ⟨e, he, _⟩ | ⟨e, he, _⟩
    · rw [frontier_of_onRow h, hs] at hxn hym ⊢
      rw [hx] at hxn hym hin heq ⊢
      simp only [zero_add, sub_zero] at *
      have hwalk := @walkKeeps_reaches _ a b _ _ _ 0 0 (Reaches.zero a b) (by simp) (by simp)
        (by simp) s s (Nat.le_refl _) (by
          intro i hi
          refine ⟨by omega, by omega, ?_⟩
          simpa using heq i hi)
      refine ⟨s, s, rfl, by simp, ?_⟩
      simpa [walkBack] using hwalk.2
    · omega
    · omega
  | succ d ih =>
    intro k h htrace hxn hym
    obtain ⟨s, hs, hin, heq⟩ := stepEnd_spec a b a.length b.length
      (frontier a b a.length b.length (d + 1)) ((d + 1 : Nat) : Int) k
    have hvp : trace.getD (d + 1) (fun _ => 0) = frontier a b a.length b.length (d + 1) :=
      htrace (d + 1) (Nat.le_refl _)
    rw [frontier_of_onRow h, hs] at hxn hym ⊢
    rcases frontierX_cases a b a.length b.length h with
      ⟨hd, _⟩ | ⟨e, he, hrow, hdir, hx⟩ | ⟨e, he, hrow, hdir, hx⟩
    · omega
    · obtain rfl : d = e := by omega
      rw [hx] at hxn hym hin heq ⊢
      obtain ⟨p, q, hp, hq, hreach⟩ := ih (k + 1) hrow (fun e he => htrace e (by omega))
        (by omega) (by omega)
      rw [hp] at hxn hym hin heq ⊢
      have hins := hreach.ins (show q < b.length by omega)
      have hpq : (p : Int) - k = (q + 1 : Nat) := by omega
      rw [hpq] at hin heq
      obtain ⟨hend, hwalk⟩ := @walkKeeps_reaches _ a b _ _ _ p q hins (by simp) (by simp)
        (by push_cast; omega) s s (Nat.le_refl _) (by
          intro i hi
          refine ⟨by omega, by omega, ?_⟩
          have hxi : ((p : Int) + i).toNat = p + i := by omega
          have hyi : (((q + 1 : Nat) : Int) + i).toNat = q + 1 + i := by omega
          have := heq i hi
          rwa [hxi, hyi] at this)
      refine ⟨p + s, q + 1 + s, by push_cast; ring, by push_cast; omega, ?_⟩
      have hk' : ((p + s : Nat) : Int) - ((q + 1 + s : Nat) : Int) = k := by push_cast; omega
      have hfuel : (((p + s : Nat) : Int) - p).toNat = s := by omega
      rw [walkBack_succ hk' (by rw [hvp, prevDiagonal, if_pos hdir]) (by rw [hvp, hp]) hq, hfuel]
      push_cast at hend hwalk ⊢
      rw [hend]
      simpa using hwalk
    · obtain rfl : d = e := by omega
      rw [hx] at hxn hym hin heq ⊢
      obtain ⟨p, q, hp, hq, hreach⟩ := ih (k - 1) hrow (fun e he => htrace e (by omega))
        (by omega) (by omega)
      rw [hp] at hxn hym hin heq ⊢
      have hdel := hreach.del (show p < a.length by omega)
      have hpq : (p : Int) + 1 - k = q := by omega
      rw [hpq] at hin heq
      obtain ⟨hend, hwalk⟩ := @walkKeeps_reaches _ a b _ _ _ p q hdel (by simp)
        (by push_cast; omega) (by simp) s (s + 1) (Nat.le_succ _) (by
          intro i hi
          refine ⟨by omega, by omega, ?_⟩
          have hxi : ((p : Int) + 1 + i).toNat = p + 1 + i := by omega
          have hyi : ((q : Int) + i).toNat = q + i := by omega
          simpa [hxi, hyi] using heq i hi)
      refine ⟨p + 1 + s, q + s, by push_cast; ring, by push_cast; omega, ?_⟩
      have hk' : ((p + 1 + s : Nat) : Int) - ((q + s : Nat) : Int) = k := by push_cast; omega
      have hfuel : (((p + 1 + s : Nat) : Int) - p).toNat = s + 1 := by omega
      have hne : ¬ k - 1 = k + 1 := by omega
      rw [walkBack_succ hk' (by rw [hvp, prevDiagonal, if_neg hdir]) (by rw [hvp, hp]) hq, hfuel,
        if_neg hne]
      push_cast at hend hwalk ⊢
      rw [hend]
      simpa using hwalk

/-! ## Correctness -/

theorem toInt_of_lt {n : Nat} (h : n < 0x80000000) : toInt n = n := by
  unfold toInt
  rw [Int.bmod_def]
  omega

theorem scriptWithin_valid {a b : List α} {left : Nat} {es : List Edit}
    (h : scriptWithin a b a.length b.length left = some es) :
    ∃ ops, Valid a b ops ∧ es = edits 0 0 ops := by
  unfold scriptWithin at h
  split at h
  · cases h
  · next found trace hsearch =>
    rw [Option.some.injEq] at h
    obtain ⟨⟨k, hrow, hpast⟩, hnot, rfl⟩ := search_spec (a := a) (b := b) _ 0 [] found trace
      rfl (by omega) hsearch
    obtain ⟨hk, hn⟩ := found_exact (by omega) (by omega) hrow hpast hnot
    obtain ⟨x, y, hx, hy, hreach⟩ := @walkBack_reaches _ _ a b
      ((List.range (found + 1)).map (frontier a b a.length b.length)) found k hrow
      (by intro e he; simp [List.getElem?_range (show e < found + 1 by omega)])
      (by omega) (by omega)
    obtain rfl : x = a.length := by omega
    obtain rfl : y = b.length := by omega
    rw [h] at hreach
    exact hreach.valid

/-- A script that the search finds is a script between the two texts, as long as
    their sizes fit an `int`. -/
theorem myersScript_valid {a b : List α} {budget : Nat} {es : List Edit}
    (ha : a.length < 0x80000000) (hb : b.length < 0x80000000)
    (h : myersScript a b budget = some es) : ∃ ops, Valid a b ops ∧ es = edits 0 0 ops := by
  rw [myersScript, toInt_of_lt ha, toInt_of_lt hb] at h
  exact scriptWithin_valid h

end QuackMail.Diff
