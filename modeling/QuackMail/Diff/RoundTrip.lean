import QuackMail.Diff.Apply
import Mathlib.Data.List.GetD

/-! # Applying an emitted patch

The applier walks the edits of the emitter: `Step` says what the script promises of
one edit, `Reached` is the state after the edits up to lines `i` and `j`, and
`hunkBody_edits` carries it over the lines of a hunk.  `applyLoop_hunks` then runs
the applier over hunks that cover the script.
-/

namespace QuackMail.Diff

open EditScript

/-! ## What the script promises -/

/-- The operations walk through the lines of both texts from lines `i` and `j` on; a
    kept line is the same line, unterminated on both sides or on neither. -/
def Walk (a b : Lines) : Nat → Nat → List Op → Prop
  | _, _, [] => True
  | i, j, .keep :: ops =>
    (i < a.v.length ∧ j < b.v.length ∧ a.v.getD i [] = b.v.getD j [] ∧
      ((i + 1 = a.v.length ∧ a.finalNewline = false) ↔
        (j + 1 = b.v.length ∧ b.finalNewline = false))) ∧ Walk a b (i + 1) (j + 1) ops
  | i, j, .del :: ops => i < a.v.length ∧ Walk a b (i + 1) j ops
  | i, j, .ins :: ops => j < b.v.length ∧ Walk a b i (j + 1) ops

variable {i j : Nat} {dst src : Bytes}

variable {a b : Lines} {ops : List Op} {st : Applied} {p q : Nat}

theorem walk_append {ops' : List Op} : Walk a b i j (ops ++ ops') ↔
      Walk a b i j ops ∧ Walk a b (i + srcCount ops) (j + dstCount ops) ops' := by
  induction ops generalizing i j with
  | nil => simp [Walk]
  | cons op ops ih =>
    cases op with
    | keep => simp [Walk, ih, and_assoc, Nat.add_assoc, Nat.add_comm 1]
    | del => simp [Walk, ih, and_assoc, Nat.add_assoc, Nat.add_comm 1]
    | ins => simp [Walk, ih, and_assoc, Nat.add_assoc, Nat.add_comm 1]

/-- A script between the keys is a walk through the lines. -/
theorem walk_of_valid (ha : WellFormed a) (hb : WellFormed b) :
    ∀ {i j : Nat}, Valid ((keys a).drop i) ((keys b).drop j) ops → Walk a b i j ops := by
  have hdrop : ∀ {l : List Bytes} {i : Nat} {x : Bytes} {xs : List Bytes}, x :: xs = l.drop i →
      ∃ h : i < l.length, l[i] = x ∧ xs = l.drop (i + 1) := by
    intro l i x xs h
    have hi : i < l.length := by
      by_contra hge
      rw [List.drop_eq_nil_of_le (by omega)] at h
      cases h
    rw [List.drop_eq_getElem_cons hi] at h
    exact ⟨hi, (List.cons.inj h).1.symm, (List.cons.inj h).2⟩
  induction ops with
  | nil => intro i j _; trivial
  | cons op ops ih =>
    intro i j h
    generalize hka : (keys a).drop i = ka at h
    generalize hkb : (keys b).drop j = kb at h
    cases h with
    | keep x h =>
      obtain ⟨hi, hxi, rfl⟩ := hdrop hka.symm
      obtain ⟨hj, hxj, rfl⟩ := hdrop hkb.symm
      have hi' : i < a.v.length := by simpa using hi
      have hj' : j < b.v.length := by simpa using hj
      obtain ⟨hline, hlast⟩ := keys_inj ha hb hi' hj' hi hj (hxi.trans hxj.symm)
      refine ⟨⟨hi', hj', ?_, hlast⟩, ih h⟩
      rwa [List.getD_eq_getElem _ _ hi', List.getD_eq_getElem _ _ hj']
    | del x h =>
      obtain ⟨hi, _, rfl⟩ := hdrop hka.symm
      rw [← hkb] at h
      exact ⟨by simpa using hi, ih h⟩
    | ins x h =>
      obtain ⟨hj, _, rfl⟩ := hdrop hkb.symm
      rw [← hka] at h
      exact ⟨by simpa using hj, ih h⟩

/-! ## The lines of a patch -/

/-- The marker line, where one is due. -/
def marker (due : Bool) : List Bytes := if due then [noNewlineText] else []

/-- The lines of one edit: the tagged line, then the marker if it is due. -/
def markedLine (tag : Byte) (text : Bytes) (lastOfSide sideFinalNewline : Bool) : List Bytes :=
  (tag :: text) :: marker (lastOfSide && !sideFinalNewline)

def editLines (a b : Lines) (e : Edit) : List Bytes :=
  match e.op with
  | .keep => markedLine (ch ' ') (a.v.getD e.index []) (e.index + 1 == a.v.length)
      (a.finalNewline && b.finalNewline)
  | .del => markedLine (ch '-') (a.v.getD e.index []) (e.index + 1 == a.v.length) a.finalNewline
  | .ins => markedLine (ch '+') (b.v.getD e.index []) (e.index + 1 == b.v.length) b.finalNewline

@[simp] theorem editLines_keep (a b : Lines) (i : Nat) : editLines a b ⟨.keep, i⟩ =
    (ch ' ' :: a.v.getD i []) ::
      marker ((i + 1 == a.v.length) && !(a.finalNewline && b.finalNewline)) := rfl

@[simp] theorem editLines_del (a b : Lines) (i : Nat) : editLines a b ⟨.del, i⟩ =
    (ch '-' :: a.v.getD i []) :: marker ((i + 1 == a.v.length) && !a.finalNewline) := rfl

@[simp] theorem editLines_ins (a b : Lines) (j : Nat) : editLines a b ⟨.ins, j⟩ =
    (ch '+' :: b.v.getD j []) :: marker ((j + 1 == b.v.length) && !b.finalNewline) := rfl

theorem unlines_append (xs ys : List Bytes) : unlines (xs ++ ys) = unlines xs ++ unlines ys := by
  simp [unlines]

theorem unlines_flatMap {β : Type} (f : β → List Bytes) (xs : List β) :
    unlines (xs.flatMap f) = xs.flatMap (fun x => unlines (f x)) := by
  simp [unlines, List.flatMap_assoc]

theorem emitLine_eq (tag : Byte) (text : Bytes) (last fin : Bool) :
    emitLine tag text last fin = unlines (markedLine tag text last fin) := by
  unfold emitLine markedLine marker
  split <;> simp [unlines, noNewline]

theorem emitEdit_eq (a b : Lines) (e : Edit) : emitEdit a b e = unlines (editLines a b e) := by
  unfold emitEdit editLines
  cases e.op <;> exact emitLine_eq _ _ _ _

theorem noNewlineText_clean : nl ∉ noNewlineText := by decide

theorem markedLine_clean {tag : Byte} {text : Bytes} {last fin : Bool} (htag : tag ≠ nl)
    (htext : nl ∉ text) : ∀ x ∈ markedLine tag text last fin, nl ∉ x := by
  intro x hx
  rcases List.mem_cons.mp hx with rfl | hx
  · simp only [List.mem_cons, not_or]
    exact ⟨fun h => htag h.symm, htext⟩
  · unfold marker at hx
    split at hx
    · rw [List.mem_singleton] at hx
      subst hx
      exact noNewlineText_clean
    · cases hx

theorem getD_clean {l : Lines} (hl : WellFormed l) (i : Nat) : nl ∉ l.v.getD i [] := by
  by_cases hi : i < l.v.length
  · rw [List.getD_eq_getElem _ _ hi]
    exact hl.noNewline _ (List.getElem_mem hi)
  · rw [List.getD_eq_default _ _ (by omega)]
    simp

theorem editLines_clean (ha : WellFormed a) (hb : WellFormed b) (e : Edit) :
    ∀ x ∈ editLines a b e, nl ∉ x := by
  unfold editLines
  cases e.op with
  | keep => exact markedLine_clean (by decide) (getD_clean ha _)
  | del => exact markedLine_clean (by decide) (getD_clean ha _)
  | ins => exact markedLine_clean (by decide) (getD_clean hb _)

theorem num_clean (n : Nat) : nl ∉ num n := by
  intro h
  have := isDigit_of_mem_num h
  simp [isDigit, nl, ch] at this

theorem headerLine_clean (aStart aCount bStart bCount : Nat) :
    nl ∉ headerLine aStart aCount bStart bCount := by
  have hcomma : ∀ n : Nat, nl ∉ (if n ≠ 1 then ch ',' :: num n else []) := by
    intro n
    split
    · simp only [List.mem_cons, not_or]
      exact ⟨by decide, num_clean n⟩
    · simp
  simp only [headerLine, List.mem_append, not_or]
  exact ⟨⟨⟨⟨⟨⟨by decide, num_clean _⟩, hcomma _⟩, by decide⟩, num_clean _⟩, hcomma _⟩, by decide⟩

/-- No marker comes next. -/
def NoMarker (rest : List Bytes) : Prop := markerAt rest = false

theorem noMarker_cons {c : Byte} {x : Bytes} {rest : List Bytes} (h : c ≠ ch '\\') :
    NoMarker ((c :: x) :: rest) := by
  simp [NoMarker, markerAt, noNewlineText, bytes, h]

theorem noMarker_edit (e : Edit) (rest : List Bytes) : NoMarker (editLines a b e ++ rest) := by
  unfold editLines
  cases e.op with
  | keep => exact noMarker_cons (by decide)
  | del => exact noMarker_cons (by decide)
  | ins => exact noMarker_cons (by decide)

theorem noMarker_edits (es : List Edit) {rest : List Bytes} (h : NoMarker rest) :
    NoMarker (es.flatMap (editLines a b) ++ rest) := by
  cases es with
  | nil => exact h
  | cons e es =>
    rw [List.flatMap_cons, List.append_assoc]
    exact noMarker_edit e _

/-- After a tagged line the next line is a marker exactly when one was due. -/
theorem markerAt_marked {due : Bool} {rest : List Bytes} (h : NoMarker rest) :
    markerAt (marker due ++ rest) = due := by
  cases due with
  | true => simp [markerAt, marker]
  | false => exact h

/-! ## One hunk -/

/-- The first `i` lines of the source and the first `j` of the target are done. -/
structure Reached (b : Lines) (i j : Nat) (st : Applied) : Prop where
  srcAt : st.srcAt = i
  result : st.result = b.v.take j
  ending : 0 < j → j = b.v.length → st.lastNoNewline = !b.finalNewline

theorem take_snoc {l : List Bytes} (h : j < l.length) :
    l.take j ++ [l.getD j []] = l.take (j + 1) := by
  rw [List.getD_eq_getElem _ _ h, List.take_append_getElem]

/-- Taking a kept line from the source. -/
theorem reached_takeSrc (h : Reached b i j st)
    (hw : Walk a b i j [.keep]) : Reached b (i + 1) (j + 1) (takeSrc a st) := by
  obtain ⟨⟨hi, hj, hline, hlast⟩, _⟩ := hw
  refine ⟨by simp [takeSrc, h.srcAt], ?_, ?_⟩
  · rw [takeSrc, h.srcAt, h.result, hline, take_snoc hj]
  · intro _ hend
    simp only [takeSrc, h.srcAt]
    by_cases hb : b.finalNewline = false
    · have := hlast.mpr ⟨hend, hb⟩
      simp [this, hb]
    · by_cases ha : i + 1 = a.v.length ∧ a.finalNewline = false
      · exact absurd (hlast.mp ha).2 hb
      · have hb' : b.finalNewline = true := by simpa using hb
        rw [hb']
        simpa using fun h₁ => by simpa using fun h₂ => ha ⟨h₁, h₂⟩

theorem reached_takeSrcs {n : Nat} (h : Reached b i j st)
    (hw : Walk a b i j (List.replicate n .keep)) :
    Reached b (i + n) (j + n) (takeSrcs a n st) := by
  induction n generalizing i j st with
  | zero => exact h
  | succ n ih =>
    have := ih (reached_takeSrc h ⟨hw.1, trivial⟩) hw.2
    rw [takeSrcs]
    convert this using 1 <;> omega

/-- The flag after a kept line of a hunk is that of its marker. -/
theorem reached_keep (h : Reached b i j st) (hw : Walk a b i j [.keep]) : Reached b (i + 1) (j + 1)
      { takeSrc a st with
        lastNoNewline := (i + 1 == a.v.length) && !(a.finalNewline && b.finalNewline) } := by
  have htake := reached_takeSrc h hw
  obtain ⟨⟨hi, hj, hline, hlast⟩, _⟩ := hw
  refine ⟨htake.srcAt, htake.result, ?_⟩
  intro _ hend
  by_cases hb : b.finalNewline = false
  · have := hlast.mpr ⟨hend, hb⟩
    simp [this, hb]
  · have hb' : b.finalNewline = true := by simpa using hb
    by_cases ha : i + 1 = a.v.length ∧ a.finalNewline = false
    · exact absurd (hlast.mp ha).2 hb
    · simp only [hb', Bool.and_true, Bool.not_true]
      simpa using fun h₁ => by simpa using fun h₂ => ha ⟨h₁, h₂⟩

theorem reached_ins (h : Reached b i j st) (hj : j < b.v.length) : Reached b i (j + 1)
      { st with
        result := st.result ++ [b.v.getD j []]
        lastNoNewline := (j + 1 == b.v.length) && !b.finalNewline } := by
  refine ⟨h.srcAt, ?_, ?_⟩
  · simp only [h.result]
    exact take_snoc hj
  · intro _ hend
    simp [hend]

theorem reached_del (h : Reached b i j st) :
    Reached b (i + 1) j { st with srcAt := st.srcAt + 1 } :=
  ⟨by simp [h.srcAt], h.result, h.ending⟩

section Body

variable {s : Lines} {h : Hunk} {consumed produced : Nat} {st : Applied}

theorem hunkBody_done {lines : List Bytes} (hc : consumed = h.aCount) (hp : produced = h.bCount) :
    hunkBody s h lines consumed produced st = .ok (lines, consumed, produced, st) := by
  cases lines with
  | nil => rfl
  | cons line rest =>
    unfold hunkBody
    rw [if_neg (by omega)]

/-- A marker within the hunk is skipped. -/
theorem hunkBody_marker {due : Bool} {rest : List Bytes}
    (hmore : consumed < h.aCount ∨ produced < h.bCount) :
    hunkBody s h (marker due ++ rest) consumed produced st =
      hunkBody s h rest consumed produced st := by
  cases due with
  | false => rfl
  | true =>
    rw [marker, if_pos rfl, List.singleton_append]
    conv_lhs => unfold hunkBody
    rw [if_pos hmore, if_pos rfl]

theorem tagged_ne_marker {tag : Byte} (h : tag ≠ ch '\\') (text : Bytes) :
    tag :: text ≠ noNewlineText := by
  simp [noNewlineText, bytes, h]

theorem hunkBody_space {text : Bytes} {rest : List Bytes}
    (hmore : consumed < h.aCount ∨ produced < h.bCount) (hsrc : s.v[st.srcAt]? = some text) :
    hunkBody s h ((ch ' ' :: text) :: rest) consumed produced st =
      hunkBody s h rest (consumed + 1) (produced + 1)
        { takeSrc s st with lastNoNewline := markerAt rest } := by
  rw [hunkBody, if_pos hmore, if_neg (tagged_ne_marker (by decide) text)]
  simp [hsrc]

theorem hunkBody_minus {text : Bytes} {rest : List Bytes}
    (hmore : consumed < h.aCount ∨ produced < h.bCount) (hsrc : s.v[st.srcAt]? = some text) :
    hunkBody s h ((ch '-' :: text) :: rest) consumed produced st =
      hunkBody s h rest (consumed + 1) produced { st with srcAt := st.srcAt + 1 } := by
  rw [hunkBody, if_pos hmore, if_neg (tagged_ne_marker (by decide) text)]
  simp [hsrc, show ch '-' ≠ ch ' ' by decide]

theorem hunkBody_plus {text : Bytes} {rest : List Bytes}
    (hmore : consumed < h.aCount ∨ produced < h.bCount) :
    hunkBody s h ((ch '+' :: text) :: rest) consumed produced st =
      hunkBody s h rest consumed (produced + 1)
        { st with result := st.result ++ [text], lastNoNewline := markerAt rest } := by
  rw [hunkBody, if_pos hmore, if_neg (tagged_ne_marker (by decide) text)]
  simp [show ch '+' ≠ ch ' ' by decide, show ch '+' ≠ ch '-' by decide]

end Body

/-- The lines of a hunk carry the state over its edits; at most the marker of the
    last of them is left for the loop outside. -/
theorem hunkBody_edits {h : Hunk} {tail : List Bytes} (htail : NoMarker tail) :
    ∀ {i j consumed produced : Nat} {st : Applied}, Reached b i j st → Walk a b i j ops →
      consumed + srcCount ops = h.aCount → produced + dstCount ops = h.bCount →
      ∃ due st', hunkBody a h ((edits i j ops).flatMap (editLines a b) ++ tail) consumed produced st
          = .ok (marker due ++ tail, h.aCount, h.bCount, st') ∧
        Reached b (i + srcCount ops) (j + dstCount ops) st' := by
  induction ops with
  | nil =>
    intro i j consumed produced st hst _ hc hp
    refine ⟨false, st, ?_, hst⟩
    rw [srcCount_nil, Nat.add_zero] at hc
    rw [dstCount_nil, Nat.add_zero] at hp
    rw [hc, hp]
    exact hunkBody_done rfl rfl
  | cons op ops ih =>
    intro i j consumed produced st hst hw hc hp
    -- what is left after the tagged line of the first edit and its marker
    have hcont : ∀ {due : Bool} {i j consumed produced : Nat} {st : Applied}, Reached b i j st →
        Walk a b i j ops → consumed + srcCount ops = h.aCount →
        produced + dstCount ops = h.bCount →
        ∃ due' st', hunkBody a h (marker due ++
            ((edits i j ops).flatMap (editLines a b) ++ tail)) consumed produced st
            = .ok (marker due' ++ tail, h.aCount, h.bCount, st') ∧
          Reached b (i + srcCount ops) (j + dstCount ops) st' := by
      intro due i j consumed produced st hst hw hc hp
      cases ops with
      | nil =>
        rw [srcCount_nil, Nat.add_zero] at hc
        rw [dstCount_nil, Nat.add_zero] at hp
        rw [hc, hp]
        exact ⟨due, st, hunkBody_done rfl rfl, hst⟩
      | cons op' ops' =>
        have hmore : consumed < h.aCount ∨ produced < h.bCount := by
          cases op' <;> simp only [srcCount_keep, srcCount_del, srcCount_ins, dstCount_keep,
            dstCount_del, dstCount_ins] at hc hp <;> omega
        rw [hunkBody_marker hmore]
        exact ih hst hw hc hp
    have hnext : ∀ i j, NoMarker ((edits i j ops).flatMap (editLines a b) ++ tail) :=
      fun i j => noMarker_edits _ htail
    have hsome : ∀ {l : Lines} {k : Nat}, k < l.v.length → l.v[k]? = some (l.v.getD k []) := by
      intro l k hk
      rw [List.getD_eq_getElem _ _ hk, List.getElem?_eq_getElem hk]
    cases op with
    | keep =>
      rw [srcCount_keep] at hc ⊢
      rw [dstCount_keep] at hp ⊢
      obtain ⟨⟨hi, hj, hline, hlast⟩, hw'⟩ := hw
      have hkeep := reached_keep hst ⟨⟨hi, hj, hline, hlast⟩, trivial⟩
      obtain ⟨due', st', hrun, hst'⟩ :=
        @hcont ((i + 1 == a.v.length) && !(a.finalNewline && b.finalNewline)) _ _
          (consumed + 1) (produced + 1) _ hkeep hw' (by omega) (by omega)
      refine ⟨due', st', ?_, ?_⟩
      · rw [← hrun, edits, List.flatMap_cons, editLines_keep, List.append_assoc,
          List.cons_append, hunkBody_space (by omega) (hst.srcAt.symm ▸ hsome hi),
          markerAt_marked (hnext _ _)]
      · convert hst' using 1 <;> omega
    | del =>
      rw [srcCount_del] at hc ⊢
      rw [dstCount_del] at hp ⊢
      obtain ⟨hi, hw'⟩ := hw
      obtain ⟨due', st', hrun, hst'⟩ :=
        @hcont ((i + 1 == a.v.length) && !a.finalNewline) _ _
          (consumed + 1) produced _ (reached_del hst) hw' (by omega) (by omega)
      refine ⟨due', st', ?_, ?_⟩
      · rw [← hrun, edits, List.flatMap_cons, editLines_del, List.append_assoc,
          List.cons_append, hunkBody_minus (by omega) (hst.srcAt.symm ▸ hsome hi)]
      · convert hst' using 1
        omega
    | ins =>
      rw [srcCount_ins] at hc ⊢
      rw [dstCount_ins] at hp ⊢
      obtain ⟨hj, hw'⟩ := hw
      obtain ⟨due', st', hrun, hst'⟩ :=
        @hcont ((j + 1 == b.v.length) && !b.finalNewline) _ _
          consumed (produced + 1) _ (reached_ins hst hj) hw' (by omega) (by omega)
      refine ⟨due', st', ?_, ?_⟩
      · rw [← hrun, edits, List.flatMap_cons, editLines_ins, List.append_assoc,
          List.cons_append, hunkBody_plus (by omega), markerAt_marked (hnext _ _)]
      · convert hst' using 1
        omega

/-! ## The hunks of a patch -/

theorem take_edits (n i j : Nat) (ops : List Op) :
    (edits i j ops).take n = edits i j (ops.take n) := by
  conv_lhs => rw [← List.take_append_drop n ops, edits_append]
  by_cases hn : n ≤ ops.length
  · rw [List.take_left' (by simp [hn])]
  · rw [List.drop_eq_nil_of_le (by omega), edits, List.append_nil, List.take_of_length_le]
    simp

theorem drop_edits (n i j : Nat) (ops : List Op) : (edits i j ops).drop n =
      edits (i + srcCount (ops.take n)) (j + dstCount (ops.take n)) (ops.drop n) := by
  conv_lhs => rw [← List.take_append_drop n ops, edits_append]
  by_cases hn : n ≤ ops.length
  · rw [List.drop_left' (by simp [hn])]
  · have hops : ops.drop n = [] := List.drop_eq_nil_of_le (by omega)
    simp only [hops, edits, List.append_nil]
    apply List.drop_eq_nil_of_le
    rw [length_edits, List.length_take]
    omega

theorem srcLines_edits (i j : Nat) (ops : List Op) : srcLines (edits i j ops) = srcCount ops := by
  have hmap := congrArg srcCount (map_op_edits i j ops)
  rw [← hmap, srcCount, List.countP_map]
  rfl

theorem dstLines_edits (i j : Nat) (ops : List Op) : dstLines (edits i j ops) = dstCount ops := by
  have hmap := congrArg dstCount (map_op_edits i j ops)
  rw [← hmap, dstCount, List.countP_map]
  rfl

/-- The operations of the hunk from position `start` up to `stop`. -/
def hunkOps (all : List Op) (h : Nat × Nat) : List Op := (all.drop h.1).take (h.2 - h.1)

/-- Lines of the source before position `p` of the script. -/
def srcBefore (all : List Op) (p : Nat) : Nat := srcCount (all.take p)

/-- Lines of the target before position `p` of the script. -/
def dstBefore (all : List Op) (p : Nat) : Nat := dstCount (all.take p)

def hunkLines (a b : Lines) (all : List Op) (h : Nat × Nat) : List Bytes :=
  headerLine (srcBefore all h.1) (srcCount (hunkOps all h)) (dstBefore all h.1)
      (dstCount (hunkOps all h)) ::
    (edits (srcBefore all h.1) (dstBefore all h.1) (hunkOps all h)).flatMap (editLines a b)

theorem hunkText_eq (a b : Lines) (all : List Op) (h : Nat × Nat) :
    hunkText a b (edits 0 0 all) h.1 h.2 = unlines (hunkLines a b all h) := by
  have hbody : ∀ es : List Edit, es.flatMap (emitEdit a b) =
      unlines (es.flatMap (editLines a b)) := by
    intro es
    rw [unlines_flatMap]
    congr 1
    funext e
    exact emitEdit_eq a b e
  rw [hunkText, hbody, take_edits, drop_edits, take_edits, srcLines_edits, srcLines_edits,
    dstLines_edits, dstLines_edits, Nat.zero_add, Nat.zero_add]
  simp [hunkLines, unlines, hunkHeader, hunkOps, srcBefore, dstBefore]

theorem take_split {all : List Op} (h : p ≤ q) :
    all.take q = all.take p ++ (all.drop p).take (q - p) := by
  conv_lhs => rw [show q = p + (q - p) by omega, List.take_add]

theorem srcBefore_add {all : List Op} {p q : Nat} (h : p ≤ q) :
    srcBefore all q = srcBefore all p + srcCount ((all.drop p).take (q - p)) := by
  rw [srcBefore, take_split h, srcCount_append, srcBefore]

theorem dstBefore_add {all : List Op} {p q : Nat} (h : p ≤ q) :
    dstBefore all q = dstBefore all p + dstCount ((all.drop p).take (q - p)) := by
  rw [dstBefore, take_split h, dstCount_append, dstBefore]

theorem srcBefore_le (all : List Op) (p : Nat) : srcBefore all p ≤ srcCount all := by
  conv_rhs => rw [← List.take_append_drop p all, srcCount_append]
  exact Nat.le_add_right _ _

theorem dstBefore_le (all : List Op) (p : Nat) : dstBefore all p ≤ dstCount all := by
  conv_rhs => rw [← List.take_append_drop p all, dstCount_append]
  exact Nat.le_add_right _ _

/-- A walk can be entered at any position. -/
theorem walk_between {all : List Op} (hw : Walk a b 0 0 all)
    (h : p ≤ q) : Walk a b (srcBefore all p) (dstBefore all p) ((all.drop p).take (q - p)) := by
  have hall : all.take p ++ ((all.drop p).take (q - p) ++ all.drop q) = all := by
    rw [← List.append_assoc, ← take_split h, List.take_append_drop]
  rw [← hall, walk_append, walk_append] at hw
  simpa [srcBefore, dstBefore] using hw.2.1

/-- All operations from position `p` up to `q` keep their line. -/
def Keeps (all : List Op) (p q : Nat) : Prop :=
  (all.drop p).take (q - p) = List.replicate ((all.drop p).take (q - p)).length .keep

theorem keeps_of_edits {all : List Op}
    (h : ∀ i, p ≤ i → i < q → ∀ e, (edits 0 0 all)[i]? = some e → e.op = .keep) :
    Keeps all p q := by
  refine List.eq_replicate_of_mem ?_
  intro op hop
  obtain ⟨k, hk, rfl⟩ := List.getElem_of_mem hop
  simp only [List.length_take, List.length_drop] at hk
  have hlen : p + k < (edits 0 0 all).length := by
    rw [length_edits]
    omega
  have hop := h (p + k) (by omega) (by omega) _ (List.getElem?_eq_getElem hlen)
  have hmap := congrArg (fun ops => ops[p + k]?) (map_op_edits 0 0 all)
  simp only [List.getElem?_map, List.getElem?_eq_getElem hlen, Option.map_some, hop] at hmap
  obtain ⟨_, hat⟩ := List.getElem?_eq_some_iff.mp hmap.symm
  simpa using hat

/-- Skipping to the start of a hunk. -/
theorem reached_gap {all : List Op} (hw : Walk a b 0 0 all) (hpq : p ≤ q) (hk : Keeps all p q)
    (hst : Reached b (srcBefore all p) (dstBefore all p) st) :
    Reached b (srcBefore all q) (dstBefore all q) (takeSrcs a (srcBefore all q - st.srcAt) st) := by
  have hwalk := walk_between hw hpq
  have hsrc := @srcBefore_add all _ _ hpq
  have hdst := @dstBefore_add all _ _ hpq
  unfold Keeps at hk
  generalize (all.drop p).take (q - p) = gap at hk hwalk hsrc hdst
  generalize hn : gap.length = n at hk
  subst hk
  have hcounts : srcCount (List.replicate n .keep) = n ∧ dstCount (List.replicate n .keep) = n := by
    have hv := Valid.keeps (List.replicate n (0 : Nat))
    exact ⟨by simpa using hv.length_src, by simpa using hv.length_dst⟩
  rw [hcounts.1] at hsrc
  rw [hcounts.2] at hdst
  rw [hst.srcAt, hsrc, hdst, Nat.add_sub_cancel_left]
  exact reached_takeSrcs hst hwalk

theorem applyLoop_marker {s : Lines} {fuel : Nat} {saw due : Bool} {rest : List Bytes}
    {st : Applied} (hfuel : rest.length + 1 ≤ fuel) :
    ∃ fuel', rest.length ≤ fuel' ∧
      applyLoop s fuel saw (marker due ++ rest) st = applyLoop s fuel' saw rest st := by
  cases due with
  | false => exact ⟨fuel, by omega, rfl⟩
  | true =>
    obtain ⟨fuel', rfl⟩ : ∃ fuel', fuel = fuel' + 1 := ⟨fuel - 1, by omega⟩
    refine ⟨fuel', by omega, ?_⟩
    rw [marker, if_pos rfl, List.singleton_append, applyLoop, if_pos (.inr rfl)]

theorem headerLine_ne (aStart aCount bStart bCount : Nat) :
    ¬(headerLine aStart aCount bStart bCount = [] ∨
      headerLine aStart aCount bStart bCount = noNewlineText) := by
  have hhead : ∃ t, headerLine aStart aCount bStart bCount = ch '@' :: t := by
    refine ⟨(headerLine aStart aCount bStart bCount).tail, ?_⟩
    simp [headerLine, bytes]
  obtain ⟨t, ht⟩ := hhead
  rw [ht]
  rintro (h | h)
  · cases h
  · exact tagged_ne_marker (by decide) t h

/-- One hunk brings the applier from an earlier position to the end of the hunk. -/
theorem applyLoop_hunk {all : List Op} (hw : Walk a b 0 0 all)
    (hsrc : srcCount all = a.v.length) (hdst : dstCount all = b.v.length)
    (ha : a.v.length < 10995116277770) (hb : b.v.length < 10995116277770)
    {h : Nat × Nat} (hp : p ≤ h.1) (hlt : h.1 < h.2) (hle : h.2 ≤ all.length)
    (hgap : Keeps all p h.1) {rest : List Bytes} (hrest : NoMarker rest) {fuel : Nat} {saw : Bool}
    (hst : Reached b (srcBefore all p) (dstBefore all p) st)
    (hfuel : (hunkLines a b all h ++ rest).length ≤ fuel) :
    ∃ fuel' st', rest.length ≤ fuel' ∧
      applyLoop a fuel saw (hunkLines a b all h ++ rest) st = applyLoop a fuel' true rest st' ∧
      Reached b (srcBefore all h.2) (dstBefore all h.2) st' := by
  have hends := @srcBefore_add all _ _ (Nat.le_of_lt hlt)
  have hendd := @dstBefore_add all _ _ (Nat.le_of_lt hlt)
  have hsle := srcBefore_le all h.2
  have hdle := dstBefore_le all h.2
  change srcBefore all h.2 = srcBefore all h.1 + srcCount (hunkOps all h) at hends
  change dstBefore all h.2 = dstBefore all h.1 + dstCount (hunkOps all h) at hendd
  have hbody : 0 < (hunkOps all h).length := by
    simp only [hunkOps, List.length_take, List.length_drop]
    omega
  have hlines : (hunkOps all h).length ≤
      ((edits (srcBefore all h.1) (dstBefore all h.1) (hunkOps all h)).flatMap
        (editLines a b)).length := by
    rw [List.length_flatMap]
    conv_lhs => rw [← length_edits (srcBefore all h.1) (dstBefore all h.1) (hunkOps all h)]
    generalize edits (srcBefore all h.1) (dstBefore all h.1) (hunkOps all h) = es
    induction es with
    | nil => simp
    | cons e es ih =>
      have hone : 1 ≤ (editLines a b e).length := by
        unfold editLines
        cases e.op <;> simp [markedLine]
      simp only [List.length_cons, List.map_cons, List.sum_cons]
      omega
  have hskip := reached_gap hw hp hgap hst
  obtain ⟨due, st', hrun, hst'⟩ :=
    hunkBody_edits (a := a) (h := printed (srcBefore all h.1) (srcCount (hunkOps all h))
        (dstBefore all h.1) (dstCount (hunkOps all h))) hrest hskip
      (walk_between hw (Nat.le_of_lt hlt)) (Nat.zero_add _) (Nat.zero_add _)
  simp only [hunkLines, List.cons_append, List.length_cons, List.length_append] at hfuel
  obtain ⟨fuel₁, rfl⟩ : ∃ fuel₁, fuel = fuel₁ + 1 := ⟨fuel - 1, by omega⟩
  obtain ⟨fuel₂, hfuel₂, hmark⟩ :=
    @applyLoop_marker a fuel₁ true due rest st' (by omega)
  refine ⟨fuel₂, st', hfuel₂, ?_, ?_⟩
  · have hstart : st.srcAt ≤ srcBefore all h.1 := by
      rw [hst.srcAt, srcBefore_add hp]
      exact Nat.le_add_right _ _
    rw [hunkLines, List.cons_append, applyLoop, if_neg (headerLine_ne _ _ _ _),
      parseHunk_headerLine (by omega) (by omega)]
    simp only [want_printed]
    rw [if_neg (by omega), if_neg (by omega)]
    change hunkBody a _ ((edits _ _ (hunkOps all h)).flatMap (editLines a b) ++ rest) 0 0 _ = _
      at hrun
    rw [hrun]
    simp only [ne_eq, not_true_eq_false, or_self, if_false]
    exact hmark
  · rw [hends, hendd]
    exact hst'

theorem noMarker_hunks (a b : Lines) (all : List Op) (hs : List (Nat × Nat)) :
    NoMarker (hs.flatMap (hunkLines a b all)) := by
  cases hs with
  | nil => rfl
  | cons h hs =>
    rw [List.flatMap_cons, hunkLines]
    exact noMarker_cons (by decide)

/-- Hunks that cover the script from `p` on bring the applier to a position after
    which every line is kept. -/
theorem applyLoop_hunks {a b : Lines} {all : List Op} (hw : Walk a b 0 0 all)
    (hsrc : srcCount all = a.v.length) (hdst : dstCount all = b.v.length)
    (ha : a.v.length < 10995116277770) (hb : b.v.length < 10995116277770)
    {hs : List (Nat × Nat)} :
    ∀ {p : Nat} {saw : Bool} {fuel : Nat} {st : Applied}, p ≤ all.length →
      Covers (edits 0 0 all) p hs → Reached b (srcBefore all p) (dstBefore all p) st →
      (hs.flatMap (hunkLines a b all)).length ≤ fuel →
      ∃ q st', q ≤ all.length ∧ Keeps all q all.length ∧
        applyLoop a fuel saw (hs.flatMap (hunkLines a b all)) st = .ok st' ∧
        Reached b (srcBefore all q) (dstBefore all q) st' := by
  induction hs with
  | nil =>
    intro p saw fuel st hp hcov hst _
    refine ⟨p, st, hp, keeps_of_edits (fun i hi _ => hcov i hi), ?_, hst⟩
    cases fuel <;> rfl
  | cons h hs ih =>
    intro p saw fuel st hp hcov hst hfuel
    obtain ⟨hph, hlt, hle, hgap, hcov⟩ := hcov
    rw [length_edits] at hle
    obtain ⟨fuel', st', hfuel', hrun, hst'⟩ :=
      applyLoop_hunk hw hsrc hdst ha hb hph hlt hle (keeps_of_edits hgap)
        (noMarker_hunks a b all hs) hst hfuel
    obtain ⟨q, st'', hq, hkeeps, hrun', hst''⟩ := @ih _ true _ _ hle hcov hst' hfuel'
    exact ⟨q, st'', hq, hkeeps, hrun.trans hrun', hst''⟩

theorem hunkLines_clean (ha : WellFormed a) (hb : WellFormed b) (all : List Op)
    (h : Nat × Nat) : ∀ x ∈ hunkLines a b all h, nl ∉ x := by
  intro x hx
  rcases List.mem_cons.mp hx with rfl | hx
  · exact headerLine_clean _ _ _ _
  · obtain ⟨e, _, hx⟩ := List.mem_flatMap.mp hx
    exact editLines_clean ha hb e x hx

/-- Applying hunks that cover a script gives the target text. -/
theorem apply_covers {all : List Op} (hv : Valid (keys (split src)) (keys (split dst)) all)
    (ha : (split src).v.length < 10995116277770) (hb : (split dst).v.length < 10995116277770)
    {hs : List (Nat × Nat)} (hcov : Covers (edits 0 0 all) 0 hs) :
    apply src (hs.flatMap (fun h => hunkText (split src) (split dst) (edits 0 0 all) h.1 h.2)) =
      .ok dst := by
  have hwa := split_wellFormed src
  have hwb := split_wellFormed dst
  have hw : Walk (split src) (split dst) 0 0 all := walk_of_valid hwa hwb (by simpa using hv)
  have hsrc : srcCount all = (split src).v.length := by simpa using hv.length_src
  have hdst : dstCount all = (split dst).v.length := by simpa using hv.length_dst
  have hstart : Reached (split dst) (srcBefore all 0) (dstBefore all 0)
      ⟨0, [], !(split src).finalNewline⟩ := ⟨rfl, rfl, fun h => absurd h (by simp [dstBefore])⟩
  have htext : hs.flatMap (fun h => hunkText (split src) (split dst) (edits 0 0 all) h.1 h.2) =
      unlines (hs.flatMap (hunkLines (split src) (split dst) all)) := by
    rw [unlines_flatMap]
    congr 1
    funext h
    exact hunkText_eq _ _ all h
  have hclean : ∀ x ∈ hs.flatMap (hunkLines (split src) (split dst) all), nl ∉ x := by
    intro x hx
    obtain ⟨h, _, hx⟩ := List.mem_flatMap.mp hx
    exact hunkLines_clean hwa hwb all h x hx
  obtain ⟨q, st, hq, hkeeps, hrun, hst⟩ :=
    @applyLoop_hunks _ _ _ hw hsrc hdst ha hb _ _ false _ _ (Nat.zero_le _) hcov hstart (Nat.le_refl _)
  have hend := reached_gap hw hq hkeeps hst
  have hwhole : srcBefore all all.length = (split src).v.length ∧
      dstBefore all all.length = (split dst).v.length := by
    simp [srcBefore, dstBefore, hsrc, hdst]
  rw [hwhole.1, hwhole.2] at hend
  have hresult := hend.result
  rw [List.take_length] at hresult
  simp only [apply, htext, split_unlines hclean, hrun]
  congr 1
  have hfin : (if (split dst).v = [] then true else
      !(takeSrcs (split src) ((split src).v.length - st.srcAt) st).lastNoNewline) =
      (split dst).finalNewline := by
    split
    · next hnil => exact (hwb.empty hnil).symm
    · next hne =>
      have hpos : 0 < (split dst).v.length := List.length_pos_of_ne_nil hne
      simp [hend.ending hpos rfl]
  rw [hresult, hfin]
  exact join_split dst

/-! ## The round trip -/

/-- The whole-file patch is one hunk over all deletions and all insertions. -/
theorem wholeFileDiff_eq (a b : Lines) : wholeFileDiff a b = hunkText a b
      (edits 0 0 (List.replicate a.v.length .del ++ List.replicate b.v.length .ins)) 0
      (a.v.length + b.v.length) := by
  have hdels : ∀ n i j, edits i j (List.replicate n .del) =
      (List.range n).map (fun k => ⟨.del, i + k⟩) := by
    intro n
    induction n with
    | zero => intro i j; rfl
    | succ n ih =>
      intro i j
      rw [List.replicate_succ, edits, ih, List.range_succ_eq_map]
      simp [Nat.add_assoc, Nat.add_comm 1]
  have hinss : ∀ n i j, edits i j (List.replicate n .ins) =
      (List.range n).map (fun k => ⟨.ins, j + k⟩) := by
    intro n
    induction n with
    | zero => intro i j; rfl
    | succ n ih =>
      intro i j
      rw [List.replicate_succ, edits, ih, List.range_succ_eq_map]
      simp [Nat.add_assoc, Nat.add_comm 1]
  have hcounts : ∀ n m, srcCount (List.replicate n .del ++ List.replicate m .ins) = n ∧
      dstCount (List.replicate n .del ++ List.replicate m .ins) = m := by
    intro n m
    have h₁ := (Valid.dels (List.replicate n (0 : Nat))).append
      (Valid.inss (List.replicate m (0 : Nat)))
    exact ⟨by simpa using h₁.length_src, by simpa using h₁.length_dst⟩
  have hzero : dstCount (List.replicate a.v.length .del) = 0 := by
    have := (hcounts a.v.length 0).2
    simpa using this
  rw [hunkText, List.drop_zero, List.take_zero, Nat.sub_zero, List.take_of_length_le (by simp),
    srcLines_edits, dstLines_edits, (hcounts _ _).1, (hcounts _ _).2, edits_append, hdels, hinss,
    hzero, wholeFileDiff]
  simp [srcLines, dstLines, List.flatMap_map]

theorem apply_wholeFileDiff (hne : src ≠ dst)
    (ha : (split src).v.length < 10995116277770) (hb : (split dst).v.length < 10995116277770) :
    apply src (wholeFileDiff (split src) (split dst)) = .ok dst := by
  have hv := (Valid.dels (keys (split src))).append (Valid.inss (keys (split dst)))
  simp only [List.append_nil, List.nil_append, length_keys] at hv
  have hpos : 0 < (split src).v.length + (split dst).v.length := by
    by_contra h
    have hs : (split src).v = [] := List.length_eq_zero_iff.mp (by omega)
    have hd : (split dst).v = [] := List.length_eq_zero_iff.mp (by omega)
    apply hne
    rw [← join_split src, ← join_split dst, join, join, hs, hd]
    rfl
  have hcov : Covers (edits 0 0 (List.replicate (split src).v.length .del ++
      List.replicate (split dst).v.length .ins)) 0
      [(0, (split src).v.length + (split dst).v.length)] := by
    refine ⟨Nat.le_refl _, hpos, by simp, fun i _ hi => absurd hi (Nat.not_lt_zero _), ?_⟩
    intro i hi e he
    have := (List.getElem?_eq_some_iff.mp he).1
    simp at this
    omega
  have := apply_covers hv ha hb hcov
  rwa [List.flatMap_singleton, ← wholeFileDiff_eq] at this

/-- The largest edit distance the search explores. -/
def maxD (src dst : Bytes) (maxEdits : Nat) : Nat :=
  min maxEdits ((split src).v.length + (split dst).v.length)

/-- The sizes for which the line numbers of a patch are read back and the search
    runs within its `int`s: an edit moves the frontier past the end of a side by one
    at most, and the diagonals are numbered up to `2 * max_d + 2`. -/
structure Fits (src dst : Bytes) (maxLines maxEdits : Nat) : Prop where
  srcRead : (split src).v.length < 10995116277770
  dstRead : (split dst).v.length < 10995116277770
  search : (split src).v.length ≤ maxLines → (split dst).v.length ≤ maxLines →
    maxD src dst maxEdits < 0x3fffffff ∧
      (split src).v.length + maxD src dst maxEdits < 0x80000000 ∧
      (split dst).v.length + maxD src dst maxEdits < 0x80000000

/-- A text without any hunk changes nothing. -/
theorem applyLoop_noHunk {s : Lines} {lines : List Bytes} (h : ∀ x ∈ lines, parseHunk x = none) :
    ∀ (fuel : Nat) (st : Applied), applyLoop s fuel false lines st = .ok st := by
  induction lines with
  | nil => intro fuel st; cases fuel <;> rfl
  | cons line rest ih =>
    intro fuel st
    have hrest := ih (fun x hx => h x (List.mem_cons_of_mem _ hx))
    cases fuel with
    | zero => rfl
    | succ fuel =>
      rw [applyLoop, h line List.mem_cons_self]
      split
      · exact hrest fuel st
      · exact hrest fuel st

theorem walk_self (a : Lines) : Walk a a 0 0 (List.replicate a.v.length .keep) := by
  have hkeep : ∀ n i, i + n ≤ a.v.length → Walk a a i i (List.replicate n .keep) := by
    intro n
    induction n with
    | zero => intro i _; trivial
    | succ n ih =>
      intro i hi
      exact ⟨⟨by omega, by omega, rfl, Iff.rfl⟩, ih (i + 1) (by omega)⟩
  exact hkeep _ 0 (by omega)

theorem apply_noHunk {patch : Bytes} (h : ∀ x ∈ (split patch).v, parseHunk x = none) :
    apply src patch = .ok src := by
  have hwf := split_wellFormed src
  have hstart : Reached (split src) 0 0 ⟨0, [], !(split src).finalNewline⟩ :=
    ⟨rfl, rfl, fun h => absurd h (by simp)⟩
  have hend := reached_takeSrcs hstart (walk_self (split src))
  have hresult := hend.result
  rw [Nat.zero_add, List.take_length] at hresult
  simp only [apply, applyLoop_noHunk h, Nat.sub_zero]
  congr 1
  have hfin : (if (split src).v = [] then true else
      !(takeSrcs (split src) (split src).v.length
        ⟨0, [], !(split src).finalNewline⟩).lastNoNewline) = (split src).finalNewline := by
    split
    · next hnil => exact (hwf.empty hnil).symm
    · next hne =>
      have hpos : 0 < (split src).v.length := List.length_pos_of_ne_nil hne
      simp [hend.ending (by omega) (by omega)]
  rw [hresult, hfin]
  exact join_split src

/-- What the emitter writes, the applier turns back into the target. -/
theorem apply_emitted (ctxlen : Int) {maxLines maxEdits : Nat}
    (hfits : Fits src dst maxLines maxEdits) :
    apply src (unified src dst ctxlen maxLines maxEdits) = .ok dst := by
  unfold unified
  by_cases heq : src = dst
  · subst heq
    exact apply_noHunk (by simp [split, splitFrom])
  rw [if_neg heq, unifiedLines]
  by_cases hlines : (split src).v.length > maxLines ∨ (split dst).v.length > maxLines
  · rw [if_pos hlines]
    exact apply_wholeFileDiff heq hfits.srcRead hfits.dstRead
  rw [if_neg hlines]
  obtain ⟨-, hsa, hsb⟩ := hfits.search (by omega) (by omega)
  cases hscript : fullScript (keys (split src)) (keys (split dst)) maxEdits with
  | none => exact apply_wholeFileDiff heq hfits.srcRead hfits.dstRead
  | some full =>
    obtain ⟨all, hall, rfl⟩ := fullScript_valid (by rw [length_keys]; omega)
      (by rw [length_keys]; omega) hscript
    exact apply_covers hall hfits.srcRead hfits.dstRead (covers_unified _ _)

/-- The round trip of `Unified` and `Apply`, for every context length and both the
    search and the whole-file fallback. -/
theorem apply_unified (src dst : Bytes) (ctxlen : Int) (maxLines maxEdits : Nat)
    (hfits : Fits src dst maxLines maxEdits) :
    apply src (unified src dst ctxlen maxLines maxEdits) = .ok dst :=
  apply_emitted ctxlen hfits

theorem apply_unified_crossing :
    apply (bytes "a\nb") (unified (bytes "a\nb") (bytes "b\n") 3 20000 2000) =
      .ok (bytes "b\n") :=
  apply_unified (bytes "a\nb") (bytes "b\n") 3 20000 2000 ⟨by decide, by decide, by decide⟩

theorem parseHunk_tagged {tag : Byte} (h : tag ≠ ch '@') (text : Bytes) :
    parseHunk (tag :: text) = none := by
  have hpre : (bytes "@@ -").isPrefixOf (tag :: text) = false := by
    simp [bytes, List.isPrefixOf, h.symm]
  simp [parseHunk, hpre]

theorem parseHunk_editLines {e : Edit} {x : Bytes} (h : x ∈ editLines a b e) :
    parseHunk x = none := by
  have hmarker : ∀ due, x ∈ marker due → parseHunk x = none := by
    intro due hx
    unfold marker at hx
    split at hx
    · rw [List.mem_singleton] at hx
      subst hx
      exact parseHunk_tagged (by decide) _
    · cases hx
  obtain ⟨op, index⟩ := e
  cases op with
  | keep =>
    rcases List.mem_cons.mp h with rfl | h
    · exact parseHunk_tagged (by decide) _
    · exact hmarker _ h
  | del =>
    rcases List.mem_cons.mp h with rfl | h
    · exact parseHunk_tagged (by decide) _
    · exact hmarker _ h
  | ins =>
    rcases List.mem_cons.mp h with rfl | h
    · exact parseHunk_tagged (by decide) _
    · exact hmarker _ h

/-- A whole-file patch whose header is not read back is skipped line by line. -/
theorem apply_unread
    (h : parseHunk (headerLine 0 (split src).v.length 0 (split dst).v.length) = none) :
    apply src (wholeFileDiff (split src) (split dst)) = .ok src := by
  apply apply_noHunk
  generalize hall : List.replicate (split src).v.length Op.del ++
    List.replicate (split dst).v.length .ins = all
  have hv := (Valid.dels (keys (split src))).append (Valid.inss (keys (split dst)))
  simp only [List.append_nil, List.nil_append, length_keys, hall] at hv
  have hops : hunkOps all (0, (split src).v.length + (split dst).v.length) = all := by
    rw [hunkOps, List.drop_zero, List.take_of_length_le]
    simp [← hall]
  rw [wholeFileDiff_eq, hall,
    hunkText_eq (split src) (split dst) all (0, (split src).v.length + (split dst).v.length),
    split_unlines (hunkLines_clean (split_wellFormed src) (split_wellFormed dst) all _)]
  intro x hx
  rcases List.mem_cons.mp hx with rfl | hx
  · rw [hops, hv.length_src, hv.length_dst, length_keys, length_keys]
    exact h
  · obtain ⟨e, _, hx⟩ := List.mem_flatMap.mp hx
    exact parseHunk_editLines hx

theorem split_newlines (n : Nat) : split (List.replicate n nl) = ⟨List.replicate n [], true⟩ := by
  have := @split_unlines (List.replicate n []) (by simp)
  rwa [unlines, List.flatMap_replicate, List.nil_append, List.flatten_replicate_singleton] at this

/-- Newlines that are too many to be numbered in a patch stay as they are. -/
theorem apply_newlines {n : Nat} (hn : 0 < n) (h : parseHunk (headerLine 0 n 0 0) = none) :
    apply (List.replicate n nl) (unified (List.replicate n nl) [] 3 0 2000) =
      .ok (List.replicate n nl) := by
  have hne : List.replicate n nl ≠ [] := by
    rw [ne_eq, List.replicate_eq_nil_iff]
    omega
  have hlen : (split (List.replicate n nl)).v.length = n := by
    rw [split_newlines, List.length_replicate]
  rw [unified, if_neg hne, unifiedLines, if_pos (.inl (by rw [hlen]; exact hn))]
  apply apply_unread
  rw [hlen]
  exact h

/-- A line number beyond the guard of `ParseHunk` is not read back: the patch that
    empties a file of that many lines leaves it as it is. -/
theorem apply_unified_unread : apply (List.replicate 20000000000000 nl)
      (unified (List.replicate 20000000000000 nl) [] 3 0 2000) ≠ .ok [] := by
  rw [apply_newlines (by decide) (by decide +kernel)]
  intro h
  have hnil : List.replicate 20000000000000 nl = [] := Except.ok.inj h
  exact absurd hnil (by decide)

end QuackMail.Diff
