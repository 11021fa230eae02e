import QuackMail.Bytes

/-! # A file as lines

`split`, `keys` and `join` of `diff.cpp`.  A value that `split` returns is
`WellFormed`: no line holds a newline, a text without lines counts as ending in
one, and an unterminated last line is not empty.  On such values `split` and
`join` are inverse to each other.
-/

namespace QuackMail.Diff

/-- A file as lines, with the final newline tracked separately. -/
structure Lines where
  v : List Bytes
  finalNewline : Bool

def nl : Byte := ch '\n'

/-- `Split`, with the bytes of the line read so far. -/
def splitFrom : Bytes → Bytes → Lines
  | cur, [] => if cur = [] then ⟨[], true⟩ else ⟨[cur], false⟩
  | cur, c :: s =>
    if c = nl then
      let rest := splitFrom [] s
      ⟨cur :: rest.v, rest.finalNewline⟩
    else splitFrom (cur ++ [c]) s

def split (s : Bytes) : Lines := splitFrom [] s

/-- What a comparison key of an unterminated last line ends in. -/
def noFinalNewline : Bytes := nl :: 1 :: bytes "no-final-newline"

/-- Comparison keys: a last line without a newline differs from one with it. -/
def keysFrom : List Bytes → Bool → List Bytes
  | [], _ => []
  | [x], fin => [if fin then x else x ++ noFinalNewline]
  | x :: rest, fin => x :: keysFrom rest fin

def keys (l : Lines) : List Bytes := keysFrom l.v l.finalNewline

def joinFrom : List Bytes → Bool → Bytes
  | [], _ => []
  | [x], fin => if fin then x ++ [nl] else x
  | x :: rest, fin => x ++ nl :: joinFrom rest fin

def join (l : Lines) : Bytes := joinFrom l.v l.finalNewline

/-! ## Well-formed lines -/

structure WellFormed (l : Lines) : Prop where
  noNewline : ∀ x ∈ l.v, nl ∉ x
  empty : l.v = [] → l.finalNewline = true
  last : l.finalNewline = false → l.v.getLast? ≠ some []

theorem splitFrom_line {x : Bytes} (hx : nl ∉ x) (cur s : Bytes) :
    splitFrom cur (x ++ nl :: s) =
      ⟨(cur ++ x) :: (split s).v, (split s).finalNewline⟩ := by
  induction x generalizing cur with
  | nil => simp [splitFrom, split]
  | cons c x ih =>
    have hc : c ≠ nl := fun h => hx (h ▸ List.mem_cons_self)
    rw [List.cons_append, splitFrom, if_neg hc, ih (fun h => hx (List.mem_cons_of_mem _ h))]
    simp

/-- A terminated line comes off the front. -/
theorem split_line {x : Bytes} (hx : nl ∉ x) (s : Bytes) :
    split (x ++ nl :: s) = ⟨x :: (split s).v, (split s).finalNewline⟩ := by
  rw [split, splitFrom_line hx, List.nil_append]

theorem splitFrom_rest {x : Bytes} (hx : nl ∉ x) (cur : Bytes) :
    splitFrom cur x = if cur ++ x = [] then ⟨[], true⟩ else ⟨[cur ++ x], false⟩ := by
  induction x generalizing cur with
  | nil => simp [splitFrom]
  | cons c x ih =>
    have hc : c ≠ nl := fun h => hx (h ▸ List.mem_cons_self)
    rw [splitFrom, if_neg hc, ih (fun h => hx (List.mem_cons_of_mem _ h))]
    simp

/-- An unterminated last line. -/
theorem split_rest {x : Bytes} (hx : nl ∉ x) (hne : x ≠ []) : split x = ⟨[x], false⟩ := by
  rw [split, splitFrom_rest hx]
  simp [hne]

/-- Every text is a terminated line and a text, or a text without a newline. -/
theorem line_cases (s : Bytes) :
    (∃ x t, nl ∉ x ∧ s = x ++ nl :: t) ∨ nl ∉ s := by
  induction s with
  | nil => right; simp
  | cons c s ih =>
    by_cases hc : c = nl
    · exact .inl ⟨[], s, by simp, by simp [hc]⟩
    · rcases ih with ⟨x, t, hx, rfl⟩ | hs
      · left
        refine ⟨c :: x, t, ?_, rfl⟩
        simp only [List.mem_cons, not_or]
        exact ⟨fun h => hc h.symm, hx⟩
      · right
        simp only [List.mem_cons, not_or]
        exact ⟨fun h => hc h.symm, hs⟩

theorem split_wellFormed (s : Bytes) : WellFormed (split s) := by
  induction hn : s.length using Nat.strongRecOn generalizing s with
  | ind n ih =>
    rcases line_cases s with ⟨x, t, hx, rfl⟩ | hs
    · have ht := ih t.length (by simp at hn; omega) t rfl
      rw [split_line hx]
      refine ⟨?_, by simp, ?_⟩
      · intro y hy
        rcases List.mem_cons.mp hy with rfl | hy
        · exact hx
        · exact ht.noNewline y hy
      · intro hfin hlast
        cases htv : (split t).v with
        | nil => simp [ht.empty htv] at hfin
        | cons y ys =>
          simp only [htv, List.getLast?_cons_cons] at hlast
          exact ht.last hfin (by rw [htv]; exact hlast)
    · by_cases hne : s = []
      · subst hne
        exact ⟨by simp [split, splitFrom], by simp [split, splitFrom], by simp [split, splitFrom]⟩
      · rw [split_rest hs hne]
        exact ⟨by simpa using hs, by simp, by simpa using hne⟩

theorem joinFrom_cons {x : Bytes} {rest : List Bytes} {fin : Bool} (h : rest = [] → fin = true) :
    joinFrom (x :: rest) fin = x ++ nl :: joinFrom rest fin := by
  cases rest with
  | nil => simp [joinFrom, h rfl]
  | cons y ys => rfl

/-- Joining what a text was split into gives the text back. -/
theorem join_split (s : Bytes) : join (split s) = s := by
  induction hn : s.length using Nat.strongRecOn generalizing s with
  | ind n ih =>
    rcases line_cases s with ⟨x, t, hx, rfl⟩ | hs
    · rw [split_line hx, join, joinFrom_cons (split_wellFormed t).empty]
      have := ih t.length (by simp at hn; omega) t rfl
      rw [join] at this
      rw [this]
    · by_cases hne : s = []
      · subst hne
        rfl
      · rw [split_rest hs hne]
        rfl

/-- Lines, each with its newline. -/
def unlines (ls : List Bytes) : Bytes := ls.flatMap (· ++ [nl])

/-- A text of terminated lines splits into just these lines. -/
theorem split_unlines {ls : List Bytes} (h : ∀ x ∈ ls, nl ∉ x) : split (unlines ls) = ⟨ls, true⟩ := by
  induction ls with
  | nil => rfl
  | cons x ls ih =>
    have hx := h x List.mem_cons_self
    rw [unlines, List.flatMap_cons, List.append_assoc, List.singleton_append, split_line hx,
      ← unlines, ih (fun y hy => h y (List.mem_cons_of_mem _ hy))]

/-! ## Keys -/

@[simp] theorem length_keysFrom (v : List Bytes) (fin : Bool) :
    (keysFrom v fin).length = v.length := by
  induction v with
  | nil => rfl
  | cons x v ih =>
    cases v with
    | nil => rfl
    | cons y v => simp [keysFrom, ih]

@[simp] theorem length_keys (l : Lines) : (keys l).length = l.v.length :=
  length_keysFrom l.v l.finalNewline

/-- A key is its line, marked when the line is the unterminated last one. -/
theorem getElem_keysFrom (v : List Bytes) (fin : Bool) (i : Nat) (h : i < (keysFrom v fin).length)
    (hv : i < v.length) : (keysFrom v fin)[i] = v[i] ++
      (if i + 1 = v.length ∧ fin = false then noFinalNewline else []) := by
  induction v generalizing i with
  | nil => simp at h
  | cons x v ih =>
    cases v with
    | nil =>
      have : i = 0 := by simp at h; exact h
      subst this
      cases fin <;> simp [keysFrom]
    | cons y v =>
      cases i with
      | zero => simp [keysFrom]
      | succ i => simpa [keysFrom] using ih i (by simpa using h) (by simpa using hv)

theorem getElem_keys (l : Lines) (i : Nat) (h : i < (keys l).length) (hv : i < l.v.length) :
    (keys l)[i] = l.v[i] ++
      (if i + 1 = l.v.length ∧ l.finalNewline = false then noFinalNewline else []) :=
  getElem_keysFrom l.v l.finalNewline i h hv

/-- The mark holds a newline, so it cannot be confused with content. -/
theorem marked_inj {x y : Bytes} {p q : Prop} [Decidable p] [Decidable q] (hx : nl ∉ x)
    (hy : nl ∉ y)
    (h : x ++ (if p then noFinalNewline else []) = y ++ (if q then noFinalNewline else [])) :
    x = y ∧ (p ↔ q) := by
  by_cases hp : p <;> by_cases hq : q
  · simp only [hp, hq, if_true] at h
    exact ⟨List.append_cancel_right h, by simp [hp, hq]⟩
  · simp only [hp, hq, if_true, if_false, List.append_nil] at h
    exact absurd (h ▸ by simp [noFinalNewline]) hy
  · simp only [hp, hq, if_true, if_false, List.append_nil] at h
    exact absurd (h.symm ▸ by simp [noFinalNewline]) hx
  · simp only [hp, hq, if_false, List.append_nil] at h
    exact ⟨h, by simp [hp, hq]⟩

/-- Equal keys are equal lines with equal endings. -/
theorem keys_inj {a b : Lines} (ha : WellFormed a) (hb : WellFormed b) {i j : Nat}
    (hi : i < a.v.length) (hj : j < b.v.length)
    (hi' : i < (keys a).length) (hj' : j < (keys b).length) (h : (keys a)[i] = (keys b)[j]) :
    a.v[i] = b.v[j] ∧
      ((i + 1 = a.v.length ∧ a.finalNewline = false) ↔
        (j + 1 = b.v.length ∧ b.finalNewline = false)) := by
  rw [getElem_keys _ _ hi' hi, getElem_keys _ _ hj' hj] at h
  exact marked_inj (ha.noNewline _ (List.getElem_mem hi)) (hb.noNewline _ (List.getElem_mem hj)) h

end QuackMail.Diff
