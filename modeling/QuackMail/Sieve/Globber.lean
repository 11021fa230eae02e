import QuackMail.Lib.Wildcards
import QuackMail.Sieve.Tests

/-! # The `:matches` patterns of Sieve

`Globber` tries the shortest run of each `*` first and gives up after `kMaxSteps` calls of
itself.  Captures are written on the way in for `?` and on the way out for `*`, also in
branches that fail later.  What carries the proof: a call changes no capture of the wildcards
before it, and every step beyond the budget ends the whole search with no match.
-/

namespace QuackMail.Sieve

open Wildcards

/-! ## The pieces of a pattern -/

def glyph (fold : Bool) (pc : Byte) : Piece Byte :=
  if pc = ch '*' then .run fun _ => true
  else if pc = ch '?' then .one fun _ => true
  else .literal fun c => same fold c pc

/-- What a pattern means: a backslash quotes the byte after it. -/
def pieces (fold : Bool) : Bytes → List (Piece Byte)
  | [] => []
  | [pc] => [glyph fold pc]
  | pc :: qc :: p =>
    if pc = ch '\\' then .literal (fun c => same fold c qc) :: pieces fold p
    else glyph fold pc :: pieces fold (qc :: p)

/-- The state in which `Match(0, 0)` begins, with its own step counted. -/
def globStart (pattern : Bytes) : GlobState := ⟨1, List.replicate (wildcards pattern + 1) []⟩

/-- `Match(0, 0)`. -/
def globRun (value pattern : Bytes) (fold : Bool) : Bool × GlobState :=
  globLoop fold pattern 0 value (globStart pattern)

theorem globMatch_eq (value pattern : Bytes) (fold : Bool) :
    globMatch value pattern fold =
      ((globRun value pattern fold).1, (globRun value pattern fold).2.caps.set 0 value) := rfl

theorem wilds_pieces (fold : Bool) (pattern : Bytes) :
    wilds (pieces fold pattern) = wildcards pattern := by
  have hglyph (pc : Byte) (es : List (Piece Byte)) : wilds (glyph fold pc :: es) =
      if pc = ch '*' ∨ pc = ch '?' then wilds es + 1 else wilds es := by
    rw [glyph]
    by_cases hstar : pc = ch '*'
    · simp [hstar, wilds]
    · by_cases hone : pc = ch '?'
      · rw [if_neg hstar, if_pos hone, if_pos (.inr hone), wilds]
      · simp [hstar, hone, wilds]
  induction pattern using pieces.induct with
  | case1 => rfl
  | case2 pc => rw [pieces, wildcards, hglyph, wilds]
  | case3 qc p ih => rw [pieces, wildcards, if_pos rfl, if_pos rfl, wilds, ih]
  | case4 pc qc p hpc ih => rw [pieces, wildcards, if_neg hpc, if_neg hpc, hglyph, ih]

/-! ## One call -/

/-- A call that comes in time and has room for its captures. -/
structure InTime (es : List (Piece Byte)) (which : Nat) (st : GlobState) : Prop where
  steps : st.steps ≤ kMaxSteps
  room : which + wilds es < st.caps.length

/-- What a call of `Match` does: `es` is the pattern that is left, `which` the wildcards
    before, `st` the state at the call and `r` the outcome. -/
structure Searched (es : List (Piece Byte)) (which : Nat) (v : Bytes) (st : GlobState)
    (r : Bool × GlobState) : Prop where
  steps : r.2.steps ≤ kMaxSteps + 1
  length : r.2.caps.length = st.caps.length
  before : ∀ i ≤ which, r.2.caps[i]? = st.caps[i]?
  found : r.1 = true → r.2.steps ≤ kMaxSteps ∧
    ∃ caps, First es v caps ∧ ∀ i < caps.length, r.2.caps[which + 1 + i]? = caps[i]?
  missed : r.1 = false → r.2.steps ≤ kMaxSteps → ∀ caps, ¬ Splits es v caps

variable {es : List (Piece Byte)} {which : Nat} {v : Bytes} {st : GlobState}
  {r : Bool × GlobState}

/-- A call that ends at once without a match. -/
theorem Searched.refused (h : InTime es which st) (hno : ∀ caps, ¬ Splits es v caps) :
    Searched es which v st (false, st) where
  steps := Nat.le_succ_of_le h.steps
  length := rfl
  before := fun _ _ => rfl
  found := fun h => by cases h
  missed := fun _ _ => hno

theorem Searched.nil (h : InTime [] which st) : Searched [] which v st (v.isEmpty, st) := by
  cases v with
  | nil =>
    exact {
      steps := Nat.le_succ_of_le h.steps
      length := rfl
      before := fun _ _ => rfl
      found := fun _ => ⟨h.steps, [], .nil, fun i hi => by simp at hi⟩
      missed := fun h => by cases h }
  | cons c v =>
    apply Searched.refused h
    intro caps hsplits
    cases hsplits

theorem Searched.literal {p : Byte → Bool} {c : Byte} (hc : p c = true)
    (h : Searched es which v st r) : Searched (.literal p :: es) which (c :: v) st r where
  steps := h.steps
  length := h.length
  before := h.before
  found := fun hfound => by
    obtain ⟨hsteps, caps, hfirst, hcaps⟩ := h.found hfound
    exact ⟨hsteps, caps, hfirst.literal hc, hcaps⟩
  missed := fun hmissed hsteps caps hsplits => by
    cases hsplits with
    | literal _ hsplits => exact h.missed hmissed hsteps caps hsplits

/-- `?` writes its capture on the way in; the rest of the search leaves it. -/
theorem Searched.one {c : Byte} (hroom : which + 1 < st.caps.length)
    (h : Searched es (which + 1) v (st.record (which + 1) [c]) r) :
    Searched (.one (fun _ => true) :: es) which (c :: v) st r where
  steps := h.steps
  length := by simpa [GlobState.record] using h.length
  before := fun i hi => by
    rw [h.before i (by omega), GlobState.record, List.getElem?_set_ne (by omega)]
  found := fun hfound => by
    obtain ⟨hsteps, caps, hfirst, hcaps⟩ := h.found hfound
    refine ⟨hsteps, [c] :: caps, hfirst.one rfl, ?_⟩
    intro i hi
    cases i with
    | zero =>
      rw [Nat.add_zero, h.before _ (Nat.le_refl _), GlobState.record,
        List.getElem?_set_self hroom, List.getElem?_cons_zero]
    | succ i =>
      rw [List.getElem?_cons_succ, ← hcaps i (by simpa using hi)]
      congr 1
      omega
  missed := fun hmissed hsteps caps hsplits => by
    cases hsplits with
    | one _ hsplits => exact h.missed hmissed hsteps _ hsplits

/-- A later call in the loop of a `*`. -/
theorem Searched.after {st₀ : GlobState} (hlength : st.caps.length = st₀.caps.length)
    (hbefore : ∀ i ≤ which, st.caps[i]? = st₀.caps[i]?) (h : Searched es which v st r) :
    Searched es which v st₀ r where
  steps := h.steps
  length := h.length.trans hlength
  before := fun i hi => (h.before i hi).trans (hbefore i hi)
  found := h.found
  missed := h.missed

/-! ## The loop of a `*` -/

/-- The rest of the pattern matches after the run `u`, and did not match before. -/
theorem Searched.star {u : Bytes} (hroom : which + 1 < st.caps.length)
    (hbefore : ∀ k < u.length, ∀ caps, ¬ Splits es ((u ++ v).drop k) caps)
    (h : Searched es (which + 1) v st r) (hfound : r.1 = true) :
    Searched (.run (fun _ => true) :: es) which (u ++ v) st (true, r.2.record (which + 1) u) where
  steps := h.steps
  length := by simpa [GlobState.record] using h.length
  before := fun i hi => by
    rw [GlobState.record, List.getElem?_set_ne (by omega), h.before i (by omega)]
  found := fun _ => by
    obtain ⟨hsteps, caps, hfirst, hcaps⟩ := h.found hfound
    refine ⟨hsteps, u :: caps, hfirst.run (fun _ _ => rfl) hbefore, ?_⟩
    intro i hi
    cases i with
    | zero =>
      rw [GlobState.record, Nat.add_zero, List.getElem?_set_self (by rw [h.length]; exact hroom),
        List.getElem?_cons_zero]
    | succ i =>
      rw [List.getElem?_cons_succ, ← hcaps i (by simpa using hi), GlobState.record,
        List.getElem?_set_ne (by omega)]
      congr 1
      omega
  missed := fun h => by cases h

theorem starLoop_searched {rest : Bytes → GlobState → Bool × GlobState} {whole : Bytes}
    (hrest : ∀ v st, InTime es (which + 1) st → Searched es (which + 1) v st (rest v st))
    {u v : Bytes} {st : GlobState} (hwhole : u ++ v = whole)
    (htime : InTime es (which + 1) st)
    (hbefore : ∀ k < u.length, ∀ caps, ¬ Splits es (whole.drop k) caps) :
    Searched (.run (fun _ => true) :: es) which whole st
      (starLoop rest (which + 1) whole v st) := by
  have hroom : which + 1 < st.caps.length := by
    have := htime.room
    omega
  induction v generalizing u st with
  | nil =>
    have hcall := hrest [] st htime
    rw [starLoop]
    cases hr : rest [] st with
    | mk found st' =>
      rw [hr] at hcall
      cases found with
      | true =>
        subst hwhole
        have := hcall.star (u := u) hroom (by simpa using hbefore) rfl
        simpa using this
      | false =>
        exact {
          steps := hcall.steps
          length := hcall.length
          before := fun i hi => hcall.before i (by omega)
          found := fun h => by cases h
          missed := fun _ hsteps => by
            apply not_splits_run
            intro k hk caps
            by_cases hlt : k < u.length
            · exact hbefore k hlt caps
            · rw [← hwhole, List.append_nil, List.drop_eq_nil_of_le (by omega)]
              exact hcall.missed rfl hsteps caps }
  | cons c v ih =>
    have hcall := hrest (c :: v) st htime
    rw [starLoop]
    cases hr : rest (c :: v) st with
    | mk found st' =>
      rw [hr] at hcall
      have htake : whole.take (whole.length - (c :: v).length) = u := by
        rw [← hwhole]
        simp
      cases found with
      | true =>
        subst hwhole
        rw [htake]
        exact hcall.star hroom hbefore rfl
      | false =>
        simp only [Bool.false_eq_true, if_false]
        split
        · next hover =>
          exact {
            steps := hcall.steps
            length := hcall.length
            before := fun i hi => hcall.before i (by omega)
            found := fun h => by cases h
            missed := fun _ hsteps => absurd hover (by simpa using hsteps) }
        · next hover =>
          apply Searched.after hcall.length fun i hi => hcall.before i (by omega)
          have htime' : InTime es (which + 1) st' :=
            ⟨Nat.le_of_not_lt hover, by rw [hcall.length]; exact htime.room⟩
          have hroom' : which + 1 < st'.caps.length := by
            rw [hcall.length]
            exact hroom
          apply ih (u := u ++ [c]) (by simpa using hwhole) htime' ?_ hroom'
          intro k hk caps
          by_cases hlt : k < u.length
          · exact hbefore k hlt caps
          · have hk' : k = u.length := by
              rw [List.length_append, List.length_singleton] at hk
              omega
            rw [hk', ← hwhole, List.drop_left]
            exact hcall.missed rfl (Nat.le_of_not_lt hover) caps

/-! ## The search -/

/-- A call counts its step before anything else. -/
theorem searched_step {next : Bytes → GlobState → Bool × GlobState}
    (hnext : ∀ v st, InTime es which st → Searched es which v st (next v st)) (v : Bytes)
    (st : GlobState) (htime : InTime es which st) :
    Searched es which v st
      (if kMaxSteps < st.steps + 1 then (false, { st with steps := st.steps + 1 })
        else next v { st with steps := st.steps + 1 }) := by
  split
  · next hover =>
    exact {
      steps := Nat.succ_le_succ htime.steps
      length := rfl
      before := fun _ _ => rfl
      found := fun h => by cases h
      missed := fun _ hsteps => absurd hover (by simpa using hsteps) }
  · next hover =>
    let st' : GlobState := { st with steps := st.steps + 1 }
    have hlength : st'.caps.length = st.caps.length := rfl
    have hcall := hnext v st' ⟨Nat.le_of_not_lt hover, htime.room⟩
    exact hcall.after hlength fun _ _ => rfl

section Loop

variable (fold : Bool) (pc qc : Byte) (p : Bytes) (which : Nat) (c : Byte) (v : Bytes)
  (st : GlobState)

theorem globLoop_star :
    globLoop fold (ch '*' :: p) which v st =
      starLoop
        (fun v st =>
          if kMaxSteps < st.steps + 1 then (false, { st with steps := st.steps + 1 })
          else globLoop fold p (which + 1) v { st with steps := st.steps + 1 })
        (which + 1) v v st := by
  rw [globLoop.eq_def]
  simp only [if_true]

theorem globLoop_empty (h : pc ≠ ch '*') : globLoop fold (pc :: p) which [] st = (false, st) := by
  rw [globLoop.eq_def]
  simp only [if_neg h]

theorem globLoop_one :
    globLoop fold (ch '?' :: p) which (c :: v) st =
      globLoop fold p (which + 1) v (st.record (which + 1) [c]) := by
  have h : ch '?' ≠ ch '*' := by decide
  rw [globLoop.eq_def]
  simp only [if_neg h, if_true]

theorem globLoop_literal (hstar : pc ≠ ch '*') (hone : pc ≠ ch '?')
    (hquote : pc ≠ ch '\\' ∨ p = []) :
    globLoop fold (pc :: p) which (c :: v) st =
      if same fold c pc then globLoop fold p which v st else (false, st) := by
  rw [globLoop.eq_def]
  simp only [if_neg hstar, if_neg hone]
  cases p with
  | nil =>
    cases same fold c pc <;> rfl
  | cons qc p =>
    have hquote' : pc ≠ ch '\\' := by simpa using hquote
    simp only [if_neg hquote']

end Loop

/-- A literal, from the search of the rest. -/
theorem searched_literal {p : Byte → Bool} (htime : InTime es which st)
    (hnext : Searched es which v st r) (c : Byte) :
    Searched (.literal p :: es) which (c :: v) st (if p c then r else (false, st)) := by
  cases hc : p c with
  | true => exact hnext.literal hc
  | false =>
    have htime' : InTime (.literal p :: es) which st := ⟨htime.steps, htime.room⟩
    apply Searched.refused htime'
    intro caps hsplits
    cases hsplits with
    | literal hc' _ => simp [hc] at hc'

/-- A glyph that is not quoted, from the search of the rest. -/
theorem searched_glyph {fold : Bool} {pc : Byte} {p : Bytes} (hquote : pc ≠ ch '\\' ∨ p = [])
    (ih : ∀ which v st, InTime es which st → Searched es which v st (globLoop fold p which v st))
    (which : Nat) (v : Bytes) (st : GlobState) (htime : InTime (glyph fold pc :: es) which st) :
    Searched (glyph fold pc :: es) which v st (globLoop fold (pc :: p) which v st) := by
  by_cases hstar : pc = ch '*'
  · subst hstar
    rw [glyph, if_pos rfl] at htime ⊢
    have htime' : InTime es (which + 1) st := by
      refine ⟨htime.steps, ?_⟩
      have := htime.room
      rw [wilds] at this
      omega
    rw [globLoop_star]
    apply starLoop_searched (searched_step (ih (which + 1))) (List.nil_append v) htime'
    intro k hk
    simp at hk
  · cases v with
    | nil =>
      rw [globLoop_empty _ _ _ _ _ hstar]
      apply Searched.refused htime
      intro caps hsplits
      rw [glyph, if_neg hstar] at hsplits
      split at hsplits <;> cases hsplits
    | cons c v =>
      by_cases hone : pc = ch '?'
      · subst hone
        rw [glyph, if_neg hstar, if_pos rfl] at htime ⊢
        have hroom := htime.room
        rw [wilds] at hroom
        rw [globLoop_one]
        apply Searched.one (by omega)
        apply ih
        exact ⟨htime.steps, by simp only [GlobState.record, List.length_set]; omega⟩
      · rw [glyph, if_neg hstar, if_neg hone] at htime ⊢
        rw [globLoop_literal _ _ _ _ _ _ _ hstar hone hquote]
        have htime' : InTime es which st := ⟨htime.steps, htime.room⟩
        exact searched_literal htime' (ih which v st htime') c

theorem globLoop_searched (fold : Bool) (pattern : Bytes) (which : Nat) (v : Bytes)
    (st : GlobState) (htime : InTime (pieces fold pattern) which st) :
    Searched (pieces fold pattern) which v st (globLoop fold pattern which v st) := by
  induction pattern using pieces.induct generalizing which v st with
  | case1 =>
    exact Searched.nil htime
  | case2 pc =>
    apply searched_glyph (.inr rfl) ?_ which v st htime
    intro which v st htime
    exact Searched.nil htime
  | case3 qc p ih =>
    have hrest : InTime (pieces fold p) which st := ⟨htime.steps, htime.room⟩
    cases v with
    | nil =>
      apply Searched.refused htime
      intro caps hsplits
      cases hsplits
    | cons c v =>
      exact searched_literal hrest (ih which v st hrest) c
  | case4 pc qc p hpc ih =>
    rw [pieces, if_neg hpc] at htime ⊢
    exact searched_glyph (.inl hpc) (fun which v st htime => ih which v st htime) which v st htime

/-! ## The result -/

/-- The search is over after at most one step beyond the budget; within it, it finds a match
    exactly when there is one.  What it found are the captures of the first split: with literals
    equal to those of the pattern they put the value together again. -/
structure GlobExact (value pattern : Bytes) (fold : Bool) : Prop where
  bounded : (globRun value pattern fold).2.steps ≤ kMaxSteps + 1
  exact : (globRun value pattern fold).2.steps ≤ kMaxSteps →
    ((globMatch value pattern fold).1 = true ↔ ∃ caps, Splits (pieces fold pattern) value caps)
  captures : (globMatch value pattern fold).1 = true →
    ∃ caps, (globMatch value pattern fold).2 = value :: caps ∧
      First (pieces fold pattern) value caps ∧
      ∃ lits, List.Forall₂ (fun p c => p c = true) (literals (pieces fold pattern)) lits ∧
        fill (pieces fold pattern) lits caps = value

theorem globMatch_exact (value pattern : Bytes) (fold : Bool) :
    GlobExact value pattern fold := by
  have hstart : InTime (pieces fold pattern) 0 (globStart pattern) :=
    ⟨show 1 ≤ kMaxSteps by decide, by simp [globStart, wilds_pieces]⟩
  have hrun : Searched (pieces fold pattern) 0 value (globStart pattern)
      (globRun value pattern fold) :=
    globLoop_searched fold pattern 0 value (globStart pattern) hstart
  exact {
    bounded := hrun.steps
    exact := fun hsteps => by
      constructor
      · intro hfound
        obtain ⟨-, caps, hfirst, -⟩ := hrun.found hfound
        exact ⟨caps, hfirst.splits⟩
      · rintro ⟨caps, hsplits⟩
        by_contra hmissed
        exact hrun.missed (Bool.eq_false_iff.mpr hmissed) hsteps caps hsplits
    captures := fun hfound => by
      obtain ⟨-, caps, hfirst, hcaps⟩ := hrun.found hfound
      refine ⟨caps, ?_, hfirst, hfirst.splits.fill_eq⟩
      have hlength : (globRun value pattern fold).2.caps.length = caps.length + 1 := by
        rw [hrun.length, hfirst.splits.length, wilds_pieces]
        simp [globStart]
      rw [globMatch_eq]
      apply List.ext_getElem?
      intro i
      cases i with
      | zero => rw [List.getElem?_set_self (by omega), List.getElem?_cons_zero]
      | succ i =>
        rw [List.getElem?_set_ne (by omega), List.getElem?_cons_succ]
        by_cases hi : i < caps.length
        · rw [← hcaps i hi]
          congr 1
          omega
        · rw [List.getElem?_eq_none (by omega), List.getElem?_eq_none (by omega)] }

end QuackMail.Sieve
