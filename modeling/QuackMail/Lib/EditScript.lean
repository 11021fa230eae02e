import Mathlib.Data.List.Basic
import Mathlib.Tactic.Common

/-! # Edit scripts between two lists

A script is a list of operations; `Valid a b ops` says that the operations walk
through `a` and `b` together, keeping equal elements.  `edits` numbers the
operations: a keep or a deletion by its position in `a`, an insertion by its
position in `b`.  `Reaches a b x y es` is the prefix form that a search builds
one operation at a time.
-/

namespace EditScript

variable {α : Type*}

inductive Op where
  | keep | del | ins
  deriving DecidableEq

structure Edit where
  op : Op
  index : Nat

inductive Valid : List α → List α → List Op → Prop where
  | nil : Valid [] [] []
  | keep {a b : List α} {ops : List Op} (x : α) (h : Valid a b ops) :
      Valid (x :: a) (x :: b) (.keep :: ops)
  | del {a b : List α} {ops : List Op} (x : α) (h : Valid a b ops) :
      Valid (x :: a) b (.del :: ops)
  | ins {a b : List α} {ops : List Op} (x : α) (h : Valid a b ops) :
      Valid a (x :: b) (.ins :: ops)

/-- How many elements of the source the operations walk over. -/
def srcCount (ops : List Op) : Nat := ops.countP (· ≠ .ins)

/-- How many elements of the target the operations walk over. -/
def dstCount (ops : List Op) : Nat := ops.countP (· ≠ .del)

/-- The operations with their positions, starting at `i` and `j`. -/
def edits : Nat → Nat → List Op → List Edit
  | _, _, [] => []
  | i, j, .keep :: ops => ⟨.keep, i⟩ :: edits (i + 1) (j + 1) ops
  | i, j, .del :: ops => ⟨.del, i⟩ :: edits (i + 1) j ops
  | i, j, .ins :: ops => ⟨.ins, j⟩ :: edits i (j + 1) ops

@[simp] theorem srcCount_nil : srcCount [] = 0 := rfl

@[simp] theorem dstCount_nil : dstCount [] = 0 := rfl

variable (i : Nat) (ops : List Op) (j : Nat)

@[simp] theorem srcCount_keep : srcCount (.keep :: ops) = srcCount ops + 1 := by
  simp [srcCount]

@[simp] theorem srcCount_del : srcCount (.del :: ops) = srcCount ops + 1 := by
  simp [srcCount]

@[simp] theorem srcCount_ins : srcCount (.ins :: ops) = srcCount ops := by
  simp [srcCount]

@[simp] theorem dstCount_keep : dstCount (.keep :: ops) = dstCount ops + 1 := by
  simp [dstCount]

@[simp] theorem dstCount_del : dstCount (.del :: ops) = dstCount ops := by
  simp [dstCount]

@[simp] theorem dstCount_ins : dstCount (.ins :: ops) = dstCount ops + 1 := by
  simp [dstCount]

@[simp] theorem srcCount_append (ops' : List Op) :
    srcCount (ops ++ ops') = srcCount ops + srcCount ops' := by
  simp [srcCount]

@[simp] theorem dstCount_append (ops' : List Op) :
    dstCount (ops ++ ops') = dstCount ops + dstCount ops' := by
  simp [dstCount]

example : srcCount [.keep, .del, .ins] = 2 := by decide +kernel

variable {a b : List α}

theorem Valid.length_src {ops : List Op} (h : Valid a b ops) : srcCount ops = a.length := by
  induction h <;> simp_all

theorem Valid.length_dst {ops : List Op} (h : Valid a b ops) : dstCount ops = b.length := by
  induction h <;> simp_all

theorem Valid.append {a' b' : List α} {ops ops' : List Op} (h : Valid a b ops)
    (h' : Valid a' b' ops') : Valid (a ++ a') (b ++ b') (ops ++ ops') := by
  induction h with
  | nil => exact h'
  | keep x _ ih => exact .keep x ih
  | del x _ ih => exact .del x ih
  | ins x _ ih => exact .ins x ih

theorem Valid.keeps (a : List α) : Valid a a (List.replicate a.length .keep) := by
  induction a with
  | nil => exact .nil
  | cons x a ih => exact .keep x ih

theorem Valid.dels (a : List α) : Valid a [] (List.replicate a.length .del) := by
  induction a with
  | nil => exact .nil
  | cons x a ih => exact .del x ih

theorem Valid.inss (b : List α) : Valid [] b (List.replicate b.length .ins) := by
  induction b with
  | nil => exact .nil
  | cons x b ih => exact .ins x ih

theorem edits_append (ops ops' : List Op) : edits i j (ops ++ ops') =
      edits i j ops ++ edits (i + srcCount ops) (j + dstCount ops) ops' := by
  induction ops generalizing i j with
  | nil => rfl
  | cons op ops ih =>
    cases op <;> simp [edits, ih] <;> congr 1 <;> omega

@[simp] theorem length_edits (ops : List Op) : (edits i j ops).length = ops.length := by
  induction ops generalizing i j with
  | nil => rfl
  | cons op ops ih => cases op <;> simp [edits, ih]

@[simp] theorem map_op_edits (ops : List Op) : (edits i j ops).map Edit.op = ops := by
  induction ops generalizing i j with
  | nil => rfl
  | cons op ops ih => cases op <;> simp [edits, ih]

/-- Moving both starting positions moves every number. -/
theorem edits_shift (n : Nat) (ops : List Op) :
    edits (i + n) (j + n) ops = (edits i j ops).map (fun e => ⟨e.op, e.index + n⟩) := by
  induction ops generalizing i j with
  | nil => rfl
  | cons op ops ih =>
    cases op <;>
      simp [edits, ← ih, Nat.add_right_comm]

theorem edits_keeps (n : Nat) :
    edits i j (List.replicate n .keep) = (List.range n).map (fun k => ⟨.keep, i + k⟩) := by
  induction n generalizing i j with
  | zero => rfl
  | succ n ih =>
    rw [List.replicate_succ, List.range_succ_eq_map, edits, ih]
    simp [Nat.add_comm 1, Nat.add_assoc]

/-! ## Scripts built one operation at a time -/

/-- The edits `es` lead from the start of both lists to positions `x` and `y`. -/
def Reaches (a b : List α) (x y : Nat) (es : List Edit) : Prop :=
  x ≤ a.length ∧ y ≤ b.length ∧
    ∃ ops, Valid (a.take x) (b.take y) ops ∧ es = edits 0 0 ops

theorem Reaches.zero (a b : List α) : Reaches a b 0 0 [] :=
  ⟨Nat.zero_le _, Nat.zero_le _, [], by simpa using Valid.nil, rfl⟩

variable {es : List Edit}

theorem Reaches.keep {x y : Nat} (h : Reaches a b x y es)
    (hx : x < a.length) (hy : y < b.length) (heq : a[x] = b[y]) :
    Reaches a b (x + 1) (y + 1) (es ++ [⟨.keep, x⟩]) := by
  obtain ⟨_, _, ops, hv, rfl⟩ := h
  have hsrc : srcCount ops = x := by rw [hv.length_src, List.length_take]; omega
  refine ⟨hx, hy, ops ++ [.keep], ?_, ?_⟩
  · rw [List.take_add_one, List.take_add_one, List.getElem?_eq_getElem hx,
      List.getElem?_eq_getElem hy, heq]
    exact hv.append (.keep _ .nil)
  · rw [edits_append, hsrc]
    simp [edits]

theorem Reaches.del {x y : Nat} (h : Reaches a b x y es)
    (hx : x < a.length) : Reaches a b (x + 1) y (es ++ [⟨.del, x⟩]) := by
  obtain ⟨_, hy, ops, hv, rfl⟩ := h
  have hsrc : srcCount ops = x := by rw [hv.length_src, List.length_take]; omega
  refine ⟨hx, hy, ops ++ [.del], ?_, ?_⟩
  · rw [List.take_add_one, List.getElem?_eq_getElem hx]
    have := hv.append (.del a[x] .nil)
    rwa [List.append_nil] at this
  · rw [edits_append, hsrc]
    simp [edits]

theorem Reaches.ins {x y : Nat} (h : Reaches a b x y es)
    (hy : y < b.length) : Reaches a b x (y + 1) (es ++ [⟨.ins, y⟩]) := by
  obtain ⟨hx, _, ops, hv, rfl⟩ := h
  have hdst : dstCount ops = y := by rw [hv.length_dst, List.length_take]; omega
  refine ⟨hx, hy, ops ++ [.ins], ?_, ?_⟩
  · rw [List.take_add_one, List.getElem?_eq_getElem hy]
    have := hv.append (.ins b[y] .nil)
    rwa [List.append_nil] at this
  · rw [edits_append, hdst]
    simp [edits]

/-- A script that reaches both ends is a script of the whole lists. -/
theorem Reaches.valid (h : Reaches a b a.length b.length es) :
    ∃ ops, Valid a b ops ∧ es = edits 0 0 ops := by
  obtain ⟨_, _, ops, hv, rfl⟩ := h
  exact ⟨ops, by simpa using hv, rfl⟩

end EditScript
