import Mathlib.Data.List.Nodup
import Mathlib.Tactic.Common

/-! # Breadth-first walks

A graph is given by the list of successors of a vertex, and vertices with the same
key are the same place in it.  `search` visits the places level by level and keeps
the vertices that have no successor.  `search_spec` says that these are the ends of
the chains of at most as many steps as there were levels.
-/

namespace BreadthFirst

variable {α κ : Type*} [DecidableEq α] [DecidableEq κ]

/-! ## The walk -/

/-- The places visited so far, the ends found, and the vertices of the next level. -/
structure Walk (α κ : Type*) where
  seen : List κ
  result : List α
  next : List α

variable (expand : α → List α) (key : α → κ)

/-- One vertex of a level. -/
def visit (w : Walk α κ) (candidate : α) : Walk α κ :=
  if key candidate ∈ w.seen then w
  else
    let seen := w.seen ++ [key candidate]
    let further := expand candidate
    if further.isEmpty then
      { w with
        seen := seen
        result := if candidate ∈ w.result then w.result else w.result ++ [candidate] }
    else { w with seen := seen, next := w.next ++ further }

/-- At most `depth` levels, from a first level on. -/
def search : Nat → List α → List κ → List α → List α
  | 0, _, _, result => result
  | depth + 1, frontier, seen, result =>
    if frontier.isEmpty then result
    else
      let w := frontier.foldl (visit expand key) ⟨seen, result, []⟩
      search depth w.next w.seen w.result

/-! ## Chains -/

/-- The second vertex is reached from the first in so many steps. -/
inductive Chain (expand : α → List α) (a : α) : Nat → α → Prop where
  | refl : Chain expand a 0 a
  | snoc {n : Nat} {b c : α} : Chain expand a n b → c ∈ expand b → Chain expand a (n + 1) c

/-- What a walk of so many levels finds: each end of a chain of at most as many
    steps, once. -/
structure Found (a : α) (depth : Nat) (result : List α) : Prop where
  distinct : (result.map key).Nodup
  sound : ∀ c ∈ result, expand c = [] ∧ ∃ n, 0 < n ∧ n ≤ depth ∧ Chain expand a n c
  complete : ∀ n c, n ≤ depth → Chain expand a n c → expand c = [] → key c ≠ key a →
    ∃ c' ∈ result, key c' = key c

/-! ## The invariant -/

/-- The walk inside level `d + 1`, of which `todo` is left; the ends found so far are at
    most `e` steps away. -/
structure Covers (a : α) (d e : Nat) (todo : List α) (w : Walk α κ) : Prop where
  start : key a ∈ w.seen
  todo_chain : ∀ c ∈ todo, Chain expand a (d + 1) c
  next_chain : ∀ c ∈ w.next, Chain expand a (d + 2) c
  closed : ∀ b, key b ∈ w.seen → ∀ c ∈ expand b, key c ∈ w.seen ∨ c ∈ todo ∨ c ∈ w.next
  sound : ∀ c ∈ w.result, expand c = [] ∧ ∃ n, 0 < n ∧ n ≤ e ∧ Chain expand a n c
  kept : ∀ c, key c ∈ w.seen → expand c = [] → key c ≠ key a → ∃ c' ∈ w.result, key c' = key c
  keys : ∀ c ∈ w.result, key c ∈ w.seen
  distinct : (w.result.map key).Nodup

variable {expand key} {a : α} {d e : Nat} {w : Walk α κ}

omit [DecidableEq α] [DecidableEq κ] in
theorem Covers.weaken {e' : Nat} {todo : List α} (h : Covers expand key a d e todo w)
    (he : e ≤ e') : Covers expand key a d e' todo w :=
  { h with
    sound := by
      intro c hc
      obtain ⟨hx, n, hn, hle, hchain⟩ := h.sound c hc
      exact ⟨hx, n, hn, Nat.le_trans hle he, hchain⟩ }

theorem seen_visit (w : Walk α κ) (c : α) :
    (visit expand key w c).seen =
      if key c ∈ w.seen then w.seen else w.seen ++ [key c] := by
  by_cases hseen : key c ∈ w.seen
  · simp [visit, hseen]
  · by_cases hend : (expand c).isEmpty
    · simp [visit, hseen, hend]
    · simp [visit, hseen, hend]

/-- One vertex keeps the invariant: it is either an old place, or a new end, or its
    successors join the next level. -/
theorem Covers.visit (hk : ∀ x y, key x = key y → expand x = expand y) {todo : List α} {c : α}
    (h : Covers expand key a d e (c :: todo) w) (hde : d + 1 ≤ e) :
    Covers expand key a d e todo (visit expand key w c) := by
  have hc := h.todo_chain c List.mem_cons_self
  have htodo : ∀ c' ∈ todo, Chain expand a (d + 1) c' :=
    fun c' hc' => h.todo_chain c' (List.mem_cons_of_mem c hc')
  by_cases hseen : key c ∈ w.seen
  · -- a place seen before: nothing changes, and `c` needs no successor of its own
    have hw : BreadthFirst.visit expand key w c = w := if_pos hseen
    rw [hw]
    refine { h with todo_chain := htodo, closed := ?_ }
    intro b hb c' hc'
    cases h.closed b hb c' hc' with
    | inl hs => exact .inl hs
    | inr ht =>
      cases ht with
      | inl hmem =>
        cases List.mem_cons.mp hmem with
        | inl heq => exact .inl (heq ▸ hseen)
        | inr hmem => exact .inr (.inl hmem)
      | inr hnext => exact .inr (.inr hnext)
  · have hsub : ∀ k ∈ w.seen, k ∈ w.seen ++ [key c] := fun k hk => List.mem_append_left _ hk
    have hlast : ∀ k, k ∈ w.seen ++ [key c] ↔ k ∈ w.seen ∨ k = key c := by simp
    have hkey : ∀ b, b ∈ w.result → key b ≠ key c := fun b hb heq => hseen (heq ▸ h.keys b hb)
    have hold : ∀ b, key b ∈ w.seen → ∀ c' ∈ expand b,
        key c' ∈ w.seen ++ [key c] ∨ c' ∈ todo ∨ c' ∈ w.next := by
      intro b hb c' hc'
      cases h.closed b hb c' hc' with
      | inl hs => exact .inl (hsub _ hs)
      | inr ht =>
        cases ht with
        | inl hmem =>
          cases List.mem_cons.mp hmem with
          | inl heq => exact .inl ((hlast _).mpr (.inr (by rw [heq])))
          | inr hmem => exact .inr (.inl hmem)
        | inr hnext => exact .inr (.inr hnext)
    by_cases hend : expand c = []
    · -- a new end
      have hnew : c ∉ w.result := fun hmem => hkey c hmem rfl
      have hw : BreadthFirst.visit expand key w c =
          ⟨w.seen ++ [key c], w.result ++ [c], w.next⟩ := by
        simp [BreadthFirst.visit, hseen, hend, hnew]
      rw [hw]
      refine ⟨hsub _ h.start, htodo, h.next_chain, ?_, ?_, ?_, ?_, ?_⟩
      · intro b hb c' hc'
        cases (hlast _).mp hb with
        | inl hb => exact hold b hb c' hc'
        | inr hb => rw [hk b c hb, hend] at hc'; cases hc'
      · intro c' hc'
        cases List.mem_append.mp hc' with
        | inl hmem => exact h.sound c' hmem
        | inr hmem =>
          rw [List.mem_singleton.mp hmem]
          exact ⟨hend, d + 1, Nat.succ_pos d, hde, hc⟩
      · intro c' hs hx hne
        cases (hlast _).mp hs with
        | inl hs =>
          obtain ⟨x, hx, heq⟩ := h.kept c' hs hx hne
          exact ⟨x, List.mem_append_left _ hx, heq⟩
        | inr heq => exact ⟨c, by simp, heq.symm⟩
      · intro c' hc'
        cases List.mem_append.mp hc' with
        | inl hmem => exact hsub _ (h.keys c' hmem)
        | inr hmem => rw [List.mem_singleton.mp hmem]; simp
      · rw [List.map_append, List.nodup_append]
        refine ⟨h.distinct, by simp, ?_⟩
        intro k hk' k' hk'' heq
        obtain ⟨b, hb, hbk⟩ := List.mem_map.mp hk'
        rw [List.map_singleton, List.mem_singleton] at hk''
        exact hkey b hb (by rw [hbk, heq, hk''])
    · -- a new place with successors
      have hw : BreadthFirst.visit expand key w c =
          ⟨w.seen ++ [key c], w.result, w.next ++ expand c⟩ := by
        simp [BreadthFirst.visit, hseen, hend]
      rw [hw]
      refine ⟨hsub _ h.start, htodo, ?_, ?_, h.sound, ?_, fun c' hc' => hsub _ (h.keys c' hc'),
        h.distinct⟩
      · intro c' hc'
        cases List.mem_append.mp hc' with
        | inl hmem => exact h.next_chain c' hmem
        | inr hmem => exact hc.snoc hmem
      · intro b hb c' hc'
        cases (hlast _).mp hb with
        | inl hb =>
          cases hold b hb c' hc' with
          | inl hs => exact .inl hs
          | inr ht => exact .inr (ht.imp id (List.mem_append_left _))
        | inr hb => exact .inr (.inr (List.mem_append_right _ (hk b c hb ▸ hc')))
      · intro c' hs hx hne
        cases (hlast _).mp hs with
        | inl hs => exact h.kept c' hs hx hne
        | inr heq => exact absurd (hk c' c heq ▸ hx) hend

/-- A whole level keeps it, and visits every vertex of the level. -/
theorem Covers.level (hk : ∀ x y, key x = key y → expand x = expand y) (hde : d + 1 ≤ e)
    {todo : List α} (h : Covers expand key a d e todo w) :
    Covers expand key a d e [] (todo.foldl (BreadthFirst.visit expand key) w) ∧
      (∀ k ∈ w.seen, k ∈ (todo.foldl (BreadthFirst.visit expand key) w).seen) ∧
      ∀ c ∈ todo, key c ∈ (todo.foldl (BreadthFirst.visit expand key) w).seen := by
  induction todo generalizing w with
  | nil => exact ⟨h, fun _ hk => hk, by simp⟩
  | cons c todo ih =>
    obtain ⟨hrest, hmono, hall⟩ := ih (h.visit hk hde)
    have hstep : ∀ k ∈ w.seen, k ∈ (BreadthFirst.visit expand key w c).seen := by
      intro k hk
      rw [seen_visit]
      split
      · exact hk
      · exact List.mem_append_left _ hk
    have hhead : key c ∈ (BreadthFirst.visit expand key w c).seen := by
      rw [seen_visit]
      split
      · assumption
      · simp
    refine ⟨hrest, fun k hk => hmono k (hstep k hk), ?_⟩
    intro c' hc'
    cases List.mem_cons.mp hc' with
    | inl heq => exact heq ▸ hmono _ hhead
    | inr hmem => exact hall c' hmem

omit [DecidableEq α] [DecidableEq κ] in
/-- The next level starts where this one ended. -/
theorem Covers.turn (h : Covers expand key a d (d + 1) [] w) :
    Covers expand key a (d + 1) (d + 1) w.next ⟨w.seen, w.result, []⟩ :=
  { h with
    todo_chain := h.next_chain
    next_chain := fun _ hc => nomatch hc
    closed := fun b hb c hc => by
      cases h.closed b hb c hc with
      | inl hs => exact .inl hs
      | inr ht => exact .inr (.inl (ht.resolve_left (by simp))) }

omit [DecidableEq α] [DecidableEq κ] in
/-- When a level is empty, every chain stays in the places seen. -/
theorem Covers.exhausted (h : Covers expand key a d e [] ⟨w.seen, w.result, []⟩) {n : Nat} {c : α}
    (hc : Chain expand a n c) : key c ∈ w.seen := by
  induction hc with
  | refl => exact h.start
  | snoc _ hmem ih =>
    cases h.closed _ ih _ hmem with
    | inl hs => exact hs
    | inr ht => simp at ht

theorem search_found (hk : ∀ x y, key x = key y → expand x = expand y) (depth : Nat)
    {frontier : List α} {seen : List κ} {result : List α}
    (h : Covers expand key a d d frontier ⟨seen, result, []⟩)
    (hreach : ∀ n c, n ≤ d → Chain expand a n c → key c ∈ seen) :
    Found expand key a (d + depth) (search expand key depth frontier seen result) := by
  induction depth generalizing d frontier seen result with
  | zero =>
    exact ⟨h.distinct, h.sound, fun n c hn hc hx hne => h.kept c (hreach n c hn hc) hx hne⟩
  | succ depth ih =>
    cases frontier with
    | nil =>
      -- the walk stopped early: there is nothing further away
      refine ⟨h.distinct, ?_, ?_⟩
      · intro c hc
        obtain ⟨hx, n, hn, hle, hchain⟩ := h.sound c hc
        exact ⟨hx, n, hn, by omega, hchain⟩
      · intro n c _ hc hx hne
        exact h.kept c (h.exhausted hc) hx hne
    | cons first rest =>
      obtain ⟨hcov, hmono, hall⟩ := (h.weaken (Nat.le_succ d)).level hk (Nat.le_refl _)
      rw [show d + (depth + 1) = d + 1 + depth by omega]
      refine ih hcov.turn ?_
      intro n c hn hc
      cases hc with
      | refl => exact hmono _ h.start
      | snoc hb hmem =>
        -- one step beyond a place seen: an old place, or a vertex of this level
        cases h.closed _ (hreach _ _ (by omega) hb) _ hmem with
        | inl hs => exact hmono _ hs
        | inr ht => exact hall _ (ht.resolve_right (by simp))

/-- The walk from the successors of a vertex finds the ends of the chains from it. -/
theorem search_spec (hk : ∀ x y, key x = key y → expand x = expand y) (a : α) (depth : Nat) :
    Found expand key a depth (search expand key depth (expand a) [key a] []) := by
  have hstart : Covers expand key a 0 0 (expand a) ⟨[key a], [], []⟩ := by
    refine ⟨by simp, fun c hc => .snoc .refl hc, by simp, ?_, by simp,
      fun c hs _ hne => absurd (List.mem_singleton.mp hs) hne, by simp, by simp⟩
    intro b hb c hc
    rw [hk b a (List.mem_singleton.mp hb)] at hc
    exact .inr (.inl hc)
  have h := search_found hk depth hstart (by
    intro n c hn hc
    cases hc with
    | refl => simp
    | snoc _ _ => omega)
  rwa [Nat.zero_add] at h

end BreadthFirst
