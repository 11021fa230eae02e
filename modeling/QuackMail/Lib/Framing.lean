import Mathlib.Data.List.Infix

/-! # Frames on a stream

A frame is a piece of a stream that carries a value.  A kind of frame is unambiguous when
the stream alone says where a frame at its front ends and what it carries; then a stream has
one reading as a sequence of frames, and pieces put together from unambiguous ones are
unambiguous.
-/

namespace Framing

variable {β α γ : Type}

/-- Two frames at the front of one stream are the same frame. -/
def Unambiguous (F : List β → α → Prop) : Prop :=
  ∀ o o' t t' a a', F o a → F o' a' → o ++ t = o' ++ t' → o = o' ∧ a = a'

/-- A stream read as frames, and the rest of it. -/
inductive Reading (F : List β → α → Prop) : List β → List α → List β → Prop where
  | done (s : List β) : Reading F s [] s
  | frame {o : List β} {a : α} {s : List β} {as : List α} {rest : List β} :
      F o a → Reading F s as rest → Reading F (o ++ s) (a :: as) rest

variable {F : List β → α → Prop}

variable {as : List α} {rest s : List β}

/-- Of two readings of a stream, one goes on where the other stops. -/
theorem Reading.continues (hF : Unambiguous F) {bs : List α} {rest' : List β}
    (h : Reading F s as rest) (h' : Reading F s bs rest') (hle : as.length ≤ bs.length) :
    ∃ cs, bs = as ++ cs ∧ Reading F rest cs rest' := by
  induction h generalizing bs with
  | done s => exact ⟨bs, rfl, h'⟩
  | @frame o a s as rest hframe _ ih =>
    generalize hstream : o ++ s = stream at h'
    cases h' with
    | done => simp at hle
    | @frame o' b s' bs _ hframe' hreading' =>
      obtain ⟨ho, ha⟩ := hF o o' s s' a b hframe hframe' hstream
      subst ho ha
      rw [List.append_cancel_left_eq] at hstream
      subst hstream
      obtain ⟨cs, hcs, hrest⟩ := ih hreading' (by simpa using hle)
      exact ⟨cs, by rw [hcs]; rfl, hrest⟩

/-- A stream has one reading of a length. -/
theorem Reading.unique (hF : Unambiguous F) {bs : List α} {rest' : List β}
    (h : Reading F s as rest) (h' : Reading F s bs rest') (hlen : bs.length = as.length) :
    bs = as ∧ rest' = rest := by
  obtain ⟨cs, hcs, hrest⟩ := h.continues hF h' (Nat.le_of_eq hlen.symm)
  have hnil : cs = [] := by
    have := congrArg List.length hcs
    rw [List.length_append] at this
    exact List.length_eq_zero_iff.mp (by omega)
  subst hnil
  rw [List.append_nil] at hcs
  cases hrest with
  | done => exact ⟨hcs, rfl⟩

theorem Reading.imp {G : List β → α → Prop}
    (h : Reading F s as rest) (hFG : ∀ o, ∀ a ∈ as, F o a → G o a) : Reading G s as rest := by
  induction h with
  | done s => exact .done s
  | frame hframe _ ih =>
    exact .frame (hFG _ _ List.mem_cons_self hframe)
      (ih fun o b hb => hFG o b (List.mem_cons_of_mem _ hb))

/-- What is proved of every frame holds of everything a reading carries. -/
theorem Reading.forall {P : α → Prop} (hP : ∀ o a, F o a → P a)
    (h : Reading F s as rest) : ∀ a ∈ as, P a := by
  induction h with
  | done s =>
    intro a ha
    cases ha
  | frame hframe _ ih =>
    intro b hb
    rcases List.mem_cons.mp hb with rfl | hb
    · exact hP _ _ hframe
    · exact ih b hb

/-! ## Putting frames together -/

/-- Frames of `F` that do not stop, up to the first that does. -/
inductive Until (F : List β → α → Prop) (stop : α → Prop) : List β → List α × α → Prop where
  | stop {o : List β} {a : α} : F o a → stop a → Until F stop o ([], a)
  | next {o o' : List β} {a b : α} {as : List α} : F o a → ¬stop a → Until F stop o' (as, b) →
      Until F stop (o ++ o') (a :: as, b)

theorem Unambiguous.until (hF : Unambiguous F) (stop : α → Prop) : Unambiguous (Until F stop) := by
  intro o o' t t' r r' h
  induction h generalizing o' t t' r' with
  | @stop o a hframe hstop =>
    intro h' heq
    cases h' with
    | @stop o' a' hframe' _ =>
      obtain ⟨ho, ha⟩ := hF o o' t t' a a' hframe hframe' heq
      rw [ho, ha]
      exact ⟨rfl, rfl⟩
    | @next p q a' b as hframe' hgo _ =>
      rw [List.append_assoc] at heq
      obtain ⟨-, ha⟩ := hF o p t _ a a' hframe hframe' heq
      exact absurd (ha ▸ hstop) hgo
  | @next p q a b as hframe hgo _ ih =>
    intro h' heq
    rw [List.append_assoc] at heq
    cases h' with
    | @stop o' a' hframe' hstop =>
      obtain ⟨-, ha⟩ := hF p o' _ t' a a' hframe hframe' heq
      exact absurd (ha ▸ hstop) hgo
    | @next p' q' a' b' as' hframe' _ hrest' =>
      rw [List.append_assoc] at heq
      obtain ⟨hp, ha⟩ := hF p p' _ _ a a' hframe hframe' heq
      subst hp ha
      rw [List.append_cancel_left_eq] at heq
      obtain ⟨hq, hr⟩ := ih q' t t' _ hrest' heq
      rw [Prod.mk.injEq] at hr
      rw [hq, hr.1, hr.2]
      exact ⟨rfl, rfl⟩

/-- Pieces that one value ends never reach past it. -/
theorem unambiguous_ended (d : β) {f : List β → α} :
    Unambiguous fun o a => ∃ content, d ∉ content ∧ o = content ++ [d] ∧ a = f content := by
  intro o o' t t' a a' ⟨x, hx, ho, ha⟩ ⟨y, hy, ho', ha'⟩ heq
  subst ho ho' ha ha'
  have hxy : x = y := by
    rw [List.append_assoc, List.append_assoc] at heq
    rcases List.append_eq_append_iff.mp heq with ⟨z, hyz, hz⟩ | ⟨z, hxz, hz⟩
    · cases z with
      | nil => rw [hyz, List.append_nil]
      | cons c z =>
        rw [List.cons_append, List.singleton_append] at hz
        obtain ⟨hc, -⟩ := List.cons.inj hz
        exact absurd (by rw [hyz, ← hc]; simp) hy
    · cases z with
      | nil => rw [hxz, List.append_nil]
      | cons c z =>
        rw [List.cons_append, List.singleton_append] at hz
        obtain ⟨hc, -⟩ := List.cons.inj hz
        exact absurd (by rw [hxz, ← hc]; simp) hx
  subst hxy
  exact ⟨rfl, rfl⟩

end Framing
