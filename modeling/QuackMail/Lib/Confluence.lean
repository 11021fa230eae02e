import Mathlib.Data.List.Perm.Basic

/-! # Orders of arrival

Actions that arrive in any order.  They are confluent when every order of them leads to the
same state: it is enough that they commute on the states an invariant holds of, and where one
of them resets the state, what matters is that the others leave the state it resets to.
-/

namespace Confluence

variable {σ α : Type} (f : σ → α → σ)

/-- Every order of the actions leads to the state this order leads to. -/
def Confluent (s : σ) (actions : List α) : Prop :=
  ∀ order : List α, order.Perm actions → order.foldl f s = actions.foldl f s

variable {f}

variable {actions : List α} {s : σ}

theorem Confluent.eq {order order' : List α} (h : Confluent f s actions)
    (hp : order.Perm actions) (hp' : order'.Perm actions) :
    order.foldl f s = order'.foldl f s :=
  (h order hp).trans (h order' hp').symm

/-- An invariant that every action keeps holds after any number of them. -/
theorem foldl_keeps {I : σ → Prop} (hstep : ∀ a ∈ actions, ∀ s, I s → I (f s a))
    (hs : I s) : I (actions.foldl f s) := by
  induction actions generalizing s with
  | nil => exact hs
  | cons a actions ih =>
    exact ih (fun b hb => hstep b (List.mem_cons_of_mem _ hb)) (hstep a List.mem_cons_self s hs)

/-- Two of the actions come last in some order. -/
theorem exists_perm_last {a b : α} (ha : a ∈ actions) (hb : b ∈ actions)
    (hab : a ≠ b) : ∃ rest : List α, (rest ++ [a, b]).Perm actions := by
  obtain ⟨front, back, rfl⟩ := List.append_of_mem ha
  have hb' : b ∈ front ++ back := by
    rw [List.mem_append, List.mem_cons] at hb
    rw [List.mem_append]
    exact hb.imp_right fun h => h.resolve_left (Ne.symm hab)
  obtain ⟨front', back', hsplit⟩ := List.append_of_mem hb'
  refine ⟨front' ++ back', ?_⟩
  have hrest : (b :: (front' ++ back')).Perm (front ++ back) := by
    rw [hsplit]
    exact List.perm_middle.symm
  exact List.perm_append_comm.trans ((hrest.cons a).trans List.perm_middle.symm)

/-- Actions that commute wherever an invariant holds are confluent. -/
theorem confluent_of_commute {I : σ → Prop} (hstep : ∀ a ∈ actions, ∀ s, I s → I (f s a))
    (hcomm : ∀ a ∈ actions, ∀ b ∈ actions, ∀ s, I s → f (f s a) b = f (f s b) a)
    (hs : I s) : Confluent f s actions := by
  intro order hp
  induction hp generalizing s with
  | nil => rfl
  | cons a _ ih =>
    exact ih (fun b hb => hstep b (List.mem_cons_of_mem _ hb))
      (fun b hb c hc => hcomm b (List.mem_cons_of_mem _ hb) c (List.mem_cons_of_mem _ hc))
      (hstep a List.mem_cons_self s hs)
  | swap a b l =>
    rw [List.foldl_cons, List.foldl_cons, List.foldl_cons, List.foldl_cons,
      hcomm b (by simp) a (by simp) s hs]
  | trans hp hp' ih ih' =>
    rw [ih (fun a ha => hstep a (hp'.subset ha))
      (fun a ha b hb => hcomm a (hp'.subset ha) b (hp'.subset hb)) hs, ih' hstep hcomm hs]

/-- With an action that resets the state, the others must leave what it resets to. -/
theorem confluent_reset_iff {r : α} {t : σ} (hr : ∀ s, f s r = t) (s : σ) (rest : List α) :
    Confluent f s (r :: rest) ↔ ∀ a ∈ rest, f t a = t := by
  constructor
  · intro h a ha
    -- let the others come first, and `a` just before or just behind the reset
    obtain ⟨front, back, rfl⟩ := List.append_of_mem ha
    have hafter : (front ++ back ++ [r, a]).Perm (r :: (front ++ a :: back)) := by
      refine List.perm_append_comm.trans ?_
      show (r :: a :: (front ++ back)).Perm _
      exact List.Perm.cons r List.perm_middle.symm
    have hbefore : (front ++ back ++ [a, r]).Perm (r :: (front ++ a :: back)) :=
      ((List.Perm.swap r a []).append_left (front ++ back)).trans hafter
    have heq := h.eq hafter hbefore
    simp only [List.foldl_append, List.foldl_cons, List.foldl_nil, hr] at heq
    exact heq
  · intro h
    have hleave : ∀ l : List α, (∀ a ∈ l, a = r ∨ a ∈ rest) → l.foldl f t = t := by
      intro l hl
      induction l with
      | nil => rfl
      | cons a l ih =>
        have ha : f t a = t := by
          cases hl a List.mem_cons_self with
          | inl heq => rw [heq, hr]
          | inr hmem => exact h a hmem
        rw [List.foldl_cons, ha]
        exact ih fun b hb => hl b (List.mem_cons_of_mem _ hb)
    have hreset : ∀ order : List α, order.Perm (r :: rest) → order.foldl f s = t := by
      intro order hp
      obtain ⟨front, back, rfl⟩ := List.append_of_mem (hp.symm.subset List.mem_cons_self)
      rw [List.foldl_append, List.foldl_cons, hr]
      refine hleave back fun a ha => ?_
      exact List.mem_cons.mp (hp.subset (by simp [ha]))
    intro order hp
    rw [hreset order hp, hreset _ (List.Perm.refl _)]

end Confluence
