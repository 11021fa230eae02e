import Mathlib.Tactic.Common

/-! # Rounds

A loop goes on as long as more is wanted; a round of it goes on, stops or fails.  Where it is known
in which state round `n` begins if all rounds before it go on, the loop fails iff a round that it
reaches fails.
-/

namespace QuackMail.Rounds

inductive Turn (σ : Type)
  | stop (s : σ)
  | next (s : σ)

/-- The loop from round `n` on, for so many rounds at most. -/
def loop {σ : Type} (wants : Nat → σ → Bool) (body : Nat → σ → Option (Turn σ)) :
    Nat → Nat → σ → Option σ
  | 0, _, s => some s
  | fuel + 1, n, s =>
    if wants n s then
      match body n s with
      | none => none
      | some (.stop s) => some s
      | some (.next s) => loop wants body fuel (n + 1) s
    else some s

/-- Round `n` begins in `begins n`, fails unless it `fits`, and is the last one unless it `goes`. -/
structure Known {σ : Type} (wants : Nat → σ → Bool) (body : Nat → σ → Option (Turn σ))
    (begins : Nat → σ) (goes fits : Nat → Prop) : Prop where
  earlier : ∀ n, wants (n + 1) (begins (n + 1)) = true → wants n (begins n) = true
  fails : ∀ n, wants n (begins n) = true → ¬fits n → body n (begins n) = none
  stops : ∀ n, wants n (begins n) = true → fits n → ¬goes n →
    ∃ s, body n (begins n) = some (.stop s) ∨
      body n (begins n) = some (.next s) ∧ wants (n + 1) s = false
  /-- Or nothing more is wanted, whatever it ends in. -/
  nexts : ∀ n, wants n (begins n) = true → fits n → goes n →
    ∃ s, body n (begins n) = some (.next s) ∧
      (s = begins (n + 1) ∨ wants (n + 1) s = false ∧ wants (n + 1) (begins (n + 1)) = false)

variable {σ : Type} {wants : Nat → σ → Bool} {body : Nat → σ → Option (Turn σ)}
  {begins : Nat → σ} {goes fits : Nat → Prop}

theorem loop_of_not_wants {fuel n : Nat} {s : σ} (h : wants n s = false) :
    loop wants body fuel n s = some s := by
  cases fuel with
  | zero => rfl
  | succ fuel => rw [loop, h, if_neg Bool.false_ne_true]

theorem Known.wants_of_le (h : Known wants body begins goes fits) {n k : Nat} (hle : n ≤ k)
    (hk : wants k (begins k) = true) : wants n (begins n) = true := by
  induction hle with
  | refl => exact hk
  | step _ ih => exact ih (h.earlier _ hk)

theorem Known.loop_from (h : Known wants body begins goes fits) (fuel n : Nat) :
    (loop wants body fuel n (begins n)).isSome = true ↔
      ∀ k, n ≤ k → k < n + fuel → (∀ m, n ≤ m → m < k → goes m) →
        wants k (begins k) = true → fits k := by
  induction fuel generalizing n with
  | zero =>
    constructor
    · intro _ k hle hlt
      omega
    · intro _
      rfl
  | succ fuel ih =>
    rw [loop]
    cases hwants : wants n (begins n) with
    | false =>
      rw [if_neg Bool.false_ne_true]
      constructor
      · intro _ k hle _ _ hk
        rw [h.wants_of_le hle hk] at hwants
        cases hwants
      · intro _
        rfl
    | true =>
      rw [if_pos rfl]
      by_cases hfits : fits n
      case neg =>
        rw [h.fails n hwants hfits]
        constructor
        · intro hsome
          cases hsome
        · intro hall
          exact absurd (hall n (Nat.le_refl n) (by omega) (fun m _ _ => by omega) hwants) hfits
      by_cases hgoes : goes n
      case neg =>
        have hends : (match body n (begins n) with
            | none => none
            | some (.stop s) => some s
            | some (.next s) => loop wants body fuel (n + 1) s).isSome = true := by
          obtain ⟨s, hbody | ⟨hbody, hs⟩⟩ := h.stops n hwants hfits hgoes
          · rw [hbody]
            rfl
          · rw [hbody]
            simp [loop_of_not_wants hs]
        refine iff_of_true hends fun k hle _ hall _ => ?_
        -- the loop has ended before every later round
        rcases Nat.eq_or_lt_of_le hle with rfl | hlt
        · exact hfits
        · exact absurd (hall n (Nat.le_refl n) hlt) hgoes
      obtain ⟨s, hbody, hs⟩ := h.nexts n hwants hfits hgoes
      rw [hbody]
      rcases hs with rfl | ⟨hs, hend⟩
      · refine (ih (n + 1)).trans ⟨fun hall k hle hlt hgo hk => ?_, fun hall k hle hlt hgo hk => ?_⟩
        · rcases Nat.eq_or_lt_of_le hle with rfl | hlt'
          · exact hfits
          · exact hall k hlt' (by omega) (fun m hm hmk => hgo m (by omega) hmk) hk
        · refine hall k (by omega) (by omega) (fun m hm hmk => ?_) hk
          rcases Nat.eq_or_lt_of_le hm with rfl | hlt'
          · exact hgoes
          · exact hgo m hlt' hmk
      · simp only [loop_of_not_wants hs, Option.isSome_some, true_iff]
        intro k hle _ _ hk
        rcases Nat.eq_or_lt_of_le hle with rfl | hlt'
        · exact hfits
        · rw [h.wants_of_le hlt' hk] at hend
          cases hend

/-- The loop fails iff a round fails that it reaches. -/
theorem Known.loop_isSome_iff (h : Known wants body begins goes fits) {fuel : Nat}
    (hfuel : ∀ n s, wants n s = true → n < fuel) :
    (loop wants body fuel 0 (begins 0)).isSome = true ↔
      ∀ n, (∀ m < n, goes m) → wants n (begins n) = true → fits n := by
  rw [h.loop_from]
  constructor
  · intro hall n hgo hn
    exact hall n (Nat.zero_le n) (by rw [Nat.zero_add]; exact hfuel n _ hn)
      (fun m _ hm => hgo m hm) hn
  · intro hall n _ _ hgo hn
    exact hall n (fun m hm => hgo m (Nat.zero_le m) hm) hn

end QuackMail.Rounds
