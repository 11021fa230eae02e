import Mathlib.Data.List.Basic
import Mathlib.Data.List.Forall2

/-! # Patterns with wildcards

A pattern is a list of pieces: literals, wildcards for one symbol and wildcards for a run of
symbols.  A text is split among the pieces, and the captures are what the wildcards took.
Of all splits there is a first one, in which each capture is as short as those before allow.
-/

namespace QuackMail.Wildcards

variable {α : Type*}

/-- A piece of a pattern, with the symbols it takes. -/
inductive Piece (α : Type*) where
  | literal (p : α → Bool)
  | one (p : α → Bool)
  | run (p : α → Bool)

/-- A text split among the pieces, and what the wildcards took of it. -/
inductive Splits : List (Piece α) → List α → List (List α) → Prop where
  | nil : Splits [] [] []
  | literal {p : α → Bool} {c : α} {pieces : List (Piece α)} {v : List α} {caps : List (List α)} :
      p c = true → Splits pieces v caps → Splits (.literal p :: pieces) (c :: v) caps
  | one {p : α → Bool} {c : α} {pieces : List (Piece α)} {v : List α} {caps : List (List α)} :
      p c = true → Splits pieces v caps → Splits (.one p :: pieces) (c :: v) ([c] :: caps)
  | run {p : α → Bool} {u : List α} {pieces : List (Piece α)} {v : List α}
      {caps : List (List α)} :
      (∀ c ∈ u, p c = true) → Splits pieces v caps →
      Splits (.run p :: pieces) (u ++ v) (u :: caps)

/-! ## The captures -/

/-- The number of wildcards. -/
def wilds : List (Piece α) → Nat
  | [] => 0
  | .literal _ :: pieces => wilds pieces
  | .one _ :: pieces => wilds pieces + 1
  | .run _ :: pieces => wilds pieces + 1

/-- The literals of a pattern. -/
def literals : List (Piece α) → List (α → Bool)
  | [] => []
  | .literal p :: pieces => p :: literals pieces
  | .one _ :: pieces => literals pieces
  | .run _ :: pieces => literals pieces

/-- A pattern with symbols for its literals and texts for its wildcards. -/
def fill : List (Piece α) → List α → List (List α) → List α
  | [], _, _ => []
  | .literal _ :: pieces, lits, caps => lits.take 1 ++ fill pieces (lits.drop 1) caps
  | .one _ :: pieces, lits, caps => caps.headD [] ++ fill pieces lits caps.tail
  | .run _ :: pieces, lits, caps => caps.headD [] ++ fill pieces lits caps.tail

variable {caps : List (List α)} {pieces : List (Piece α)} {v : List α} {p : α → Bool}

theorem Splits.length (h : Splits pieces v caps) : caps.length = wilds pieces := by
  induction h with
  | nil => rfl
  | literal _ _ ih => exact ih
  | one _ _ ih => simp [wilds, ih]
  | run _ _ ih => simp [wilds, ih]

/-- The captures put the text together again. -/
theorem Splits.fill_eq (h : Splits pieces v caps) :
    ∃ lits, List.Forall₂ (fun p c => p c = true) (literals pieces) lits ∧
      fill pieces lits caps = v := by
  induction h with
  | nil => exact ⟨[], .nil, rfl⟩
  | @literal p c pieces v caps hc _ ih =>
    obtain ⟨lits, hlits, hfill⟩ := ih
    exact ⟨c :: lits, .cons hc hlits, by simp [fill, hfill]⟩
  | one _ _ ih =>
    obtain ⟨lits, hlits, hfill⟩ := ih
    exact ⟨lits, hlits, by simp [fill, hfill]⟩
  | run _ _ ih =>
    obtain ⟨lits, hlits, hfill⟩ := ih
    exact ⟨lits, hlits, by simp [fill, hfill]⟩

/-- A run has nowhere to end. -/
theorem not_splits_run {whole : List α}
    (h : ∀ k ≤ whole.length, ∀ caps, ¬ Splits pieces (whole.drop k) caps)
    (caps : List (List α)) : ¬ Splits (.run p :: pieces) whole caps := by
  intro hsplits
  cases hsplits with
  | @run _ u _ v caps _ hsplits =>
    apply h u.length (by simp) caps
    rw [List.drop_left]
    exact hsplits

/-! ## The first split -/

/-- Each capture is the shortest possible one after those before it. -/
structure First (pieces : List (Piece α)) (v : List α) (caps : List (List α)) : Prop where
  splits : Splits pieces v caps
  shortest : ∀ {caps'}, Splits pieces v caps' → ∀ {i u u'}, caps.take i = caps'.take i →
    caps[i]? = some u → caps'[i]? = some u' → u.length ≤ u'.length

theorem First.nil : First ([] : List (Piece α)) [] [] where
  splits := .nil
  shortest := by
    intro _ _ _ _ _ _ hu
    simp at hu

theorem First.literal {c : α} (hc : p c = true) (h : First pieces v caps) :
    First (.literal p :: pieces) (c :: v) caps where
  splits := .literal hc h.splits
  shortest := fun {caps'} hsplits {i u u'} htake hu hu' => by
    cases hsplits with
    | literal _ hsplits => exact h.shortest hsplits htake hu hu'

theorem First.one {c : α} (hc : p c = true) (h : First pieces v caps) :
    First (.one p :: pieces) (c :: v) ([c] :: caps) where
  splits := .one hc h.splits
  shortest := fun {caps'} hsplits {i u u'} htake hu hu' => by
    cases hsplits with
    | one _ hsplits =>
      cases i with
      | zero =>
        simp only [List.getElem?_cons_zero, Option.some.injEq] at hu hu'
        simp [← hu, ← hu']
      | succ i =>
        simp only [List.take_succ_cons, List.cons.injEq, true_and] at htake
        exact h.shortest hsplits htake hu hu'

/-- A run that is cut where the rest splits for the first time. -/
theorem First.run {u : List α} (hu : ∀ c ∈ u, p c = true) (h : First pieces v caps)
    (hbefore : ∀ k < u.length, ∀ caps', ¬ Splits pieces ((u ++ v).drop k) caps') :
    First (.run p :: pieces) (u ++ v) (u :: caps) where
  splits := .run hu h.splits
  shortest := fun {caps'} hsplits {i w w'} htake hw hw' => by
    generalize hwhole : u ++ v = whole at hsplits
    cases hsplits with
    | @run _ u' _ v' caps' _ hsplits =>
      have hle : u.length ≤ u'.length := by
        by_contra hlt
        have hdrop : (u ++ v).drop u'.length = v' := by rw [hwhole, List.drop_left]
        exact hbefore u'.length (by omega) caps' (by rw [hdrop]; exact hsplits)
      cases i with
      | zero =>
        simp only [List.getElem?_cons_zero, Option.some.injEq] at hw hw'
        rw [← hw, ← hw']
        exact hle
      | succ i =>
        simp only [List.take_succ_cons, List.cons.injEq] at htake
        obtain ⟨rfl, htake⟩ := htake
        rw [List.append_cancel_left hwhole] at h
        exact h.shortest hsplits htake hw hw'

end QuackMail.Wildcards
