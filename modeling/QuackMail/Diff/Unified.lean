import QuackMail.Diff.Lines
import QuackMail.Diff.Myers

/-! # The emitter

`unified` is `Unified` of `diff.cpp`.  The script is grouped into hunks by
`hunks`; `Covers` is what the grouping guarantees, that the hunks are in order
and everything between them is kept.
-/

namespace QuackMail.Diff

open EditScript

/-- `"@@ -start,count +start,count @@"`, without its newline; a zero-length side is
    numbered from the line before the change. -/
def headerLine (aStart aCount bStart bCount : Nat) : Bytes :=
  bytes "@@ -" ++ num (if aCount = 0 then aStart else aStart + 1) ++
    (if aCount ≠ 1 then ch ',' :: num aCount else []) ++ bytes " +" ++
    num (if bCount = 0 then bStart else bStart + 1) ++
    (if bCount ≠ 1 then ch ',' :: num bCount else []) ++ bytes " @@"

def hunkHeader (aStart aCount bStart bCount : Nat) : Bytes :=
  headerLine aStart aCount bStart bCount ++ [nl]

def noNewlineText : Bytes := bytes "\\ No newline at end of file"

def noNewline : Bytes := noNewlineText ++ [nl]

/-- One line of a hunk, with the marker after the last line of a side that does
    not end in a newline. -/
def emitLine (tag : Byte) (text : Bytes) (lastOfSide sideFinalNewline : Bool) : Bytes :=
  tag :: text ++ [nl] ++ (if lastOfSide && !sideFinalNewline then noNewline else [])

def emitEdit (a b : Lines) (e : Edit) : Bytes :=
  match e.op with
  | .keep => emitLine (ch ' ') (a.v.getD e.index []) (e.index + 1 == a.v.length)
      (a.finalNewline && b.finalNewline)
  | .del => emitLine (ch '-') (a.v.getD e.index []) (e.index + 1 == a.v.length) a.finalNewline
  | .ins => emitLine (ch '+') (b.v.getD e.index []) (e.index + 1 == b.v.length) b.finalNewline

/-- `WholeFileDiff`: delete every line of `a`, insert every line of `b`. -/
def wholeFileDiff (a b : Lines) : Bytes :=
  hunkHeader 0 a.v.length 0 b.v.length ++
    (List.range a.v.length).flatMap (fun i => emitEdit a b ⟨.del, i⟩) ++
    (List.range b.v.length).flatMap (fun i => emitEdit a b ⟨.ins, i⟩)

/-- Lines of the source among the edits. -/
def srcLines (es : List Edit) : Nat := es.countP (fun e => e.op ≠ .ins)

/-- Lines of the target among the edits. -/
def dstLines (es : List Edit) : Nat := es.countP (fun e => e.op ≠ .del)

/-- The hunk of the edits from `start` up to `stop`. -/
def hunkText (a b : Lines) (full : List Edit) (start stop : Nat) : Bytes :=
  let before := full.take start
  let inside := (full.drop start).take (stop - start)
  hunkHeader (srcLines before) (srcLines inside) (dstLines before) (dstLines inside) ++
    inside.flatMap (emitEdit a b)

/-- The positions of the edits that change something. -/
def changedFrom : Nat → List Edit → List Nat
  | _, [] => []
  | i, e :: es => if e.op ≠ .keep then i :: changedFrom (i + 1) es else changedFrom (i + 1) es

/-- Run over the changes that lie within `gap` of the one before. -/
def groupLast (gap : Nat) : Nat → List Nat → Nat × List Nat
  | last, [] => (last, [])
  | last, c :: rest => if c ≤ last + gap then groupLast gap c rest else (last, c :: rest)

/-- The hunks as pairs of positions; `fuel` bounds the number of changes. -/
def hunks (ctxlen size : Nat) : Nat → List Nat → List (Nat × Nat)
  | 0, _ => []
  | _, [] => []
  | fuel + 1, first :: rest =>
    let g := groupLast (2 * ctxlen + 1) first rest
    (first - ctxlen, min size (g.1 + ctxlen + 1)) :: hunks ctxlen size fuel g.2

def commonHead : List Bytes → List Bytes → Nat
  | x :: xs, y :: ys => if x = y then commonHead xs ys + 1 else 0
  | _, _ => 0

/-- The script over the untrimmed lines: the trimmed head and tail are context. -/
def rebase (head tail size : Nat) (script : List Edit) : List Edit :=
  (List.range head).map (fun i => ⟨.keep, i⟩) ++
    script.map (fun e => ⟨e.op, e.index + head⟩) ++
    (List.range tail).map (fun i => ⟨.keep, size - tail + i⟩)

/-- How many lines the trimmed head has. -/
def headLines (ka kb : List Bytes) : Nat := commonHead ka kb

/-- How many lines the tail has that is trimmed after the head. -/
def tailLines (ka kb : List Bytes) : Nat :=
  commonHead (ka.drop (headLines ka kb)).reverse (kb.drop (headLines ka kb)).reverse

/-- What is left between head and tail. -/
def middle (head tail : Nat) (keys : List Bytes) : List Bytes :=
  (keys.drop head).take (keys.length - head - tail)

/-- The script over all lines: the middle is searched, `none` when the search runs
    over `budget`. -/
def fullScript (ka kb : List Bytes) (budget : Nat) : Option (List Edit) :=
  (myersScript (middle (headLines ka kb) (tailLines ka kb) ka)
      (middle (headLines ka kb) (tailLines ka kb) kb) budget).map
    (rebase (headLines ka kb) (tailLines ka kb) ka.length)

/-- The hunks of a script, one after the other. -/
def scriptText (ctxlen : Nat) (a b : Lines) (full : List Edit) : Bytes :=
  let changed := changedFrom 0 full
  (hunks ctxlen full.length changed.length changed).flatMap (fun h => hunkText a b full h.1 h.2)

def unifiedLines (ctxlen : Nat) (a b : Lines) (maxLines maxEdits : Nat) : Bytes :=
  if a.v.length > maxLines ∨ b.v.length > maxLines then wholeFileDiff a b
  else
    match fullScript (keys a) (keys b) maxEdits with
    | none => wholeFileDiff a b
    | some full => scriptText ctxlen a b full

/-- `Unified`; a negative context length counts as zero. -/
def unified (src dst : Bytes) (ctxlen : Int) (maxLines maxEdits : Nat) : Bytes :=
  if src = dst then []
  else unifiedLines ctxlen.toNat (split src) (split dst) maxLines maxEdits

/-- `Unified` with the default arguments of its declaration. -/
def unifiedDefault (src dst : Bytes) : Bytes := unified src dst 3 20000 2000

/-! ## The trimmed head and tail -/

variable (xs ys : List Bytes)

theorem commonHead_le_left : commonHead xs ys ≤ xs.length := by
  induction xs generalizing ys with
  | nil => simp [commonHead]
  | cons x xs ih =>
    cases ys with
    | nil => simp [commonHead]
    | cons y ys =>
      rw [commonHead]
      split
      · simpa using ih ys
      · simp

theorem take_commonHead : xs.take (commonHead xs ys) = ys.take (commonHead xs ys) := by
  induction xs generalizing ys with
  | nil => simp [commonHead]
  | cons x xs ih =>
    cases ys with
    | nil => simp [commonHead]
    | cons y ys =>
      rw [commonHead]
      split
      · next h => simp [h, ih ys]
      · simp

example : commonHead [[1], [2]] [[1], [3]] = 1 := by decide +kernel

/-- The tail that is trimmed off after the head. -/
theorem drop_commonHead_reverse : xs.drop (xs.length - commonHead xs.reverse ys.reverse) =
      ys.drop (ys.length - commonHead xs.reverse ys.reverse) := by
  have h := congrArg List.reverse (take_commonHead xs.reverse ys.reverse)
  simpa [List.reverse_take] using h

/-- The rebased script is a script between the untrimmed lists. -/
theorem rebase_valid {ka kb : List Bytes} {head tail : Nat} {ops : List Op}
    (hhead : head = commonHead ka kb)
    (htail : tail = commonHead (ka.drop head).reverse (kb.drop head).reverse)
    (h : Valid ((ka.drop head).take (ka.length - head - tail))
      ((kb.drop head).take (kb.length - head - tail)) ops) :
    ∃ all, Valid ka kb all ∧ rebase head tail ka.length (edits 0 0 ops) = edits 0 0 all := by
  have hla : head ≤ ka.length := hhead ▸ commonHead_le_left ka kb
  have hta : tail ≤ ka.length - head := by
    have := commonHead_le_left (ka.drop head).reverse (kb.drop head).reverse
    simpa [← htail] using this
  have hpre : ka.take head = kb.take head := hhead ▸ take_commonHead ka kb
  have hpost : (ka.drop head).drop (ka.length - head - tail) =
      (kb.drop head).drop (kb.length - head - tail) := by
    have := drop_commonHead_reverse (ka.drop head) (kb.drop head)
    rwa [← htail, List.length_drop, List.length_drop] at this
  have hsrc := h.length_src
  have hdst := h.length_dst
  simp only [List.length_take, List.length_drop] at hsrc hdst
  have hv : Valid ka kb (List.replicate (ka.take head).length .keep ++ (ops ++
      List.replicate ((ka.drop head).drop (ka.length - head - tail)).length .keep)) := by
    have hmid := h.append (Valid.keeps ((ka.drop head).drop (ka.length - head - tail)))
    rw [List.take_append_drop] at hmid
    have hall := (Valid.keeps (ka.take head)).append hmid
    rw [List.take_append_drop] at hall
    rwa [hpre, hpost, List.take_append_drop, List.take_append_drop, ← hpost, ← hpre] at hall
  refine ⟨_, hv, ?_⟩
  have hlen : (ka.take head).length = head := by simp [hla]
  have hlen' : ((ka.drop head).drop (ka.length - head - tail)).length = tail := by
    simp only [List.length_drop]
    omega
  rw [hlen, hlen', edits_append, edits_append, edits_keeps, edits_keeps, rebase]
  have hcount : ∀ n, srcCount (List.replicate n .keep) = n := by
    intro n
    have := (Valid.keeps (List.replicate n (0 : Nat))).length_src
    simpa using this
  have hcount' : ∀ n, dstCount (List.replicate n .keep) = n := by
    intro n
    have := (Valid.keeps (List.replicate n (0 : Nat))).length_dst
    simpa using this
  have hshift := edits_shift 0 0 head ops
  rw [hcount, hcount', hsrc, hshift, List.append_assoc]
  congr 2
  · simp
  · apply List.map_congr_left
    intro i _
    congr 1
    omega

/-- A script that is found is a script between the untrimmed lists. -/
theorem fullScript_valid {ka kb : List Bytes} {budget : Nat} {full : List Edit}
    (ha : ka.length < 0x80000000) (hb : kb.length < 0x80000000)
    (h : fullScript ka kb budget = some full) : ∃ all, Valid ka kb all ∧ full = edits 0 0 all := by
  have hmid : ∀ (head tail : Nat) (l : List Bytes), (middle head tail l).length ≤ l.length := by
    intro head tail l
    simp only [middle, List.length_take, List.length_drop]
    omega
  obtain ⟨script, hscript, rfl⟩ := Option.map_eq_some_iff.mp h
  have hma := Nat.lt_of_le_of_lt (hmid (headLines ka kb) (tailLines ka kb) ka) ha
  have hmb := Nat.lt_of_le_of_lt (hmid (headLines ka kb) (tailLines ka kb) kb) hb
  obtain ⟨ops, hops, rfl⟩ := myersScript_valid hma hmb hscript
  exact rebase_valid rfl rfl hops

/-! ## The hunks -/

/-- The hunks come in order from position `p` on, and every edit outside them
    keeps its line. -/
def Covers (full : List Edit) : Nat → List (Nat × Nat) → Prop
  | p, [] => ∀ i, p ≤ i → ∀ e, full[i]? = some e → e.op = .keep
  | p, h :: hs =>
    p ≤ h.1 ∧ h.1 < h.2 ∧ h.2 ≤ full.length ∧
      (∀ i, p ≤ i → i < h.1 → ∀ e, full[i]? = some e → e.op = .keep) ∧ Covers full h.2 hs

theorem mem_changedFrom {es : List Edit} {i c : Nat} :
    c ∈ changedFrom i es ↔ i ≤ c ∧ ∃ e, es[c - i]? = some e ∧ e.op ≠ .keep := by
  induction es generalizing i with
  | nil => simp [changedFrom]
  | cons e es ih =>
    have hstep : (∃ e', i + 1 ≤ c ∧ es[c - (i + 1)]? = some e' ∧ e'.op ≠ .keep) ↔
        (i ≤ c ∧ c ≠ i ∧ ∃ e', (e :: es)[c - i]? = some e' ∧ e'.op ≠ .keep) := by
      constructor
      · rintro ⟨e', hc, he, hop⟩
        refine ⟨by omega, by omega, e', ?_, hop⟩
        rw [show c - i = c - (i + 1) + 1 by omega]
        simpa using he
      · rintro ⟨hc, hne, e', he, hop⟩
        refine ⟨e', by omega, ?_, hop⟩
        rw [show c - i = c - (i + 1) + 1 by omega] at he
        simpa using he
    have hhere : (c = i ∧ e.op ≠ .keep) ↔
        (i ≤ c ∧ c = i ∧ ∃ e', (e :: es)[c - i]? = some e' ∧ e'.op ≠ .keep) := by
      constructor
      · rintro ⟨rfl, hop⟩
        exact ⟨Nat.le_refl _, rfl, e, by simp, hop⟩
      · rintro ⟨_, rfl, e', he, hop⟩
        simp only [Nat.sub_self, List.getElem?_cons_zero, Option.some.injEq] at he
        subst he
        exact ⟨rfl, hop⟩
    rw [changedFrom]
    split
    · next hop =>
      rw [List.mem_cons, ih]
      constructor
      · rintro (rfl | ⟨hc, h⟩)
        · exact ⟨Nat.le_refl _, e, by simp, hop⟩
        · obtain ⟨e', he, hop'⟩ := h
          obtain ⟨h₁, _, h₂⟩ := hstep.mp ⟨e', hc, he, hop'⟩
          exact ⟨h₁, h₂⟩
      · rintro ⟨hc, h⟩
        by_cases hci : c = i
        · exact .inl hci
        · obtain ⟨e', h₁, h₂, h₃⟩ := hstep.mpr ⟨hc, hci, h⟩
          exact .inr ⟨h₁, e', h₂, h₃⟩
    · next hop =>
      rw [ih]
      constructor
      · rintro ⟨hc, e', he, hop'⟩
        obtain ⟨h₁, _, h₂⟩ := hstep.mp ⟨e', hc, he, hop'⟩
        exact ⟨h₁, h₂⟩
      · rintro ⟨hc, h⟩
        have hci : c ≠ i := fun hci => hop (hhere.mpr ⟨hc, hci, h⟩).2
        obtain ⟨e', h₁, h₂, h₃⟩ := hstep.mpr ⟨hc, hci, h⟩
        exact ⟨h₁, e', h₂, h₃⟩

theorem changedFrom_sorted (es : List Edit) (i : Nat) : (changedFrom i es).Pairwise (· < ·) := by
  induction es generalizing i with
  | nil => exact .nil
  | cons e es ih =>
    rw [changedFrom]
    split
    · refine .cons ?_ (ih (i + 1))
      intro c hc
      have := (mem_changedFrom.mp hc).1
      omega
    · exact ih (i + 1)

/-- A group ends at one of its members; what is left lies more than the gap
    beyond it and nothing else was dropped. -/
theorem groupLast_spec (gap : Nat) :
    ∀ (rest : List Nat) (last : Nat), (last :: rest).Pairwise (· < ·) →
      ∃ mid, last :: rest = mid ++ (groupLast gap last rest).2 ∧
        (groupLast gap last rest).1 ∈ mid ∧
        (∀ c ∈ mid, c ≤ (groupLast gap last rest).1) ∧
        (∀ c ∈ (groupLast gap last rest).2, (groupLast gap last rest).1 + gap < c) ∧
        (groupLast gap last rest).2.length ≤ rest.length := by
  intro rest
  induction rest with
  | nil => intro last _; exact ⟨[last], by simp [groupLast], by simp [groupLast]⟩
  | cons c rest ih =>
    intro last hs
    rw [groupLast]
    split
    · obtain ⟨mid, hmid, hmem, hle, hgt, hlen⟩ := ih c hs.of_cons
      refine ⟨last :: mid, by rw [hmid]; rfl, List.mem_cons_of_mem _ hmem, ?_, hgt, ?_⟩
      · intro x hx
        rcases List.mem_cons.mp hx with rfl | hx
        · have hlt := List.rel_of_pairwise_cons hs (List.mem_cons_self : c ∈ c :: rest)
          have hc : c ∈ mid ∨ c ∈ (groupLast gap c rest).2 := by
            rw [← List.mem_append, ← hmid]
            exact List.mem_cons_self
          rcases hc with hc | hc
          · have := hle c hc
            omega
          · have h₂ : (groupLast gap c rest).1 ∈ c :: rest := by
              rw [hmid]
              exact List.mem_append_left _ hmem
            rcases List.mem_cons.mp h₂ with h₂ | h₂
            · omega
            · have := List.rel_of_pairwise_cons hs.of_cons h₂
              omega
        · exact hle x hx
      · simp only [List.length_cons]
        omega
    · next hgap =>
      refine ⟨[last], rfl, by simp, by simp, ?_, by simp⟩
      intro x hx
      rcases List.mem_cons.mp hx with rfl | hx
      · omega
      · have := List.rel_of_pairwise_cons hs.of_cons hx
        omega

example : groupLast 6 1 [3, 20] = (3, [20]) := by decide +kernel

/-- The hunks of the changes from `p` on cover the script from there. -/
theorem hunks_covers {full : List Edit} {ctxlen : Nat} :
    ∀ (fuel p : Nat) (changed : List Nat), changed.length ≤ fuel →
      changed.Pairwise (· < ·) →
      (∀ c ∈ changed, p + ctxlen ≤ c ∨ (p = 0 ∧ 0 ≤ c)) →
      (∀ c ∈ changed, c < full.length) →
      (∀ i, p ≤ i → ∀ e, full[i]? = some e → e.op ≠ .keep → i ∈ changed) →
      Covers full p (hunks ctxlen full.length fuel changed) := by
  intro fuel
  induction fuel with
  | zero =>
    intro p changed hlen _ _ _ hall
    have : changed = [] := List.length_eq_zero_iff.mp (by omega)
    subst this
    intro i hi e he
    by_contra hop
    exact absurd (hall i hi e he hop) (by simp)
  | succ fuel ih =>
    intro p changed hlen hsorted hp hbound hall
    cases changed with
    | nil =>
      intro i hi e he
      by_contra hop
      exact absurd (hall i hi e he hop) (by simp)
    | cons first rest =>
      obtain ⟨mid, hmid, hmem, hle, hgt, hrest⟩ := groupLast_spec (2 * ctxlen + 1) rest first hsorted
      have hfirst : first ≤ (groupLast (2 * ctxlen + 1) first rest).1 := by
        have hin : (groupLast (2 * ctxlen + 1) first rest).1 ∈ first :: rest := by
          rw [hmid]
          exact List.mem_append_left _ hmem
        rcases List.mem_cons.mp hin with h | h
        · omega
        · exact Nat.le_of_lt (List.rel_of_pairwise_cons hsorted h)
      have hlast : (groupLast (2 * ctxlen + 1) first rest).1 < full.length :=
        hbound _ (by rw [hmid]; exact List.mem_append_left _ hmem)
      have hpf : p ≤ first - ctxlen := by
        rcases hp first List.mem_cons_self with h | h <;> omega
      refine ⟨hpf, ?_, Nat.min_le_left _ _, ?_, ?_⟩
      · omega
      · intro i hi hlt e he
        by_contra hop
        have hin := hall i hi e he hop
        rcases List.mem_cons.mp hin with h | h
        · omega
        · have := List.rel_of_pairwise_cons hsorted h
          omega
      · apply ih
        · simp only [List.length_cons] at hlen
          omega
        · rw [hmid] at hsorted
          exact (List.pairwise_append.mp hsorted).2.1
        · intro c hc
          have := hgt c hc
          left
          omega
        · intro c hc
          exact hbound c (by rw [hmid]; exact List.mem_append_right _ hc)
        · intro i hi e he hop
          have hin := hall i (by simp only at hi; omega) e he hop
          rw [hmid] at hin
          rcases List.mem_append.mp hin with h | h
          · have := hle i h
            omega
          · exact h

theorem covers_unified (full : List Edit) (ctxlen : Nat) : Covers full 0
      (hunks ctxlen full.length (changedFrom 0 full).length (changedFrom 0 full)) := by
  apply hunks_covers _ _ _ (Nat.le_refl _) (changedFrom_sorted full 0)
  · intro c _
    exact .inr ⟨rfl, Nat.zero_le c⟩
  · intro c hc
    obtain ⟨_, e, he, _⟩ := mem_changedFrom.mp hc
    simpa using (List.getElem?_eq_some_iff.mp he).1
  · intro i _ e he hop
    exact mem_changedFrom.mpr ⟨Nat.zero_le _, e, by simpa using he, hop⟩

end QuackMail.Diff
