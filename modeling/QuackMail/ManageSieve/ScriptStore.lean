import Mathlib.Data.List.Nodup
import QuackMail.ManageSieve.Scripts

/-! # What the commands do to a user's scripts

Commands of different users do not meet.  Where no two commands of one user overlap, and no
command replaces the active script or stops half-way, each user keeps one script of each
name and at most one that is active, and every command does what it is for.
-/

namespace QuackMail.ManageSieve

open Serial

variable {check : Bytes → Bool}

/-! ## Commands belong to users -/

theorem scriptsOf_execP (fails : Bool) (f : Table → Table) (user : Bytes) (t : Table) :
    scriptsOf user (execP fails f t) =
      if fails = true then scriptsOf user t else scriptsOf user (f t) := by
  rw [execP]
  split <;> rfl

theorem keyed_statement (check : Bytes → Bool) :
    Keyed (statement check) Command.user scriptsOf where
  same := by
    intro c pc t t' h
    have hexists := scriptExists_congr h
    have hactive := isActive_congr h
    match pc with
    | 0 =>
      unfold statement
      cases c.verb with
      | putScript name script => exact ⟨h, rfl⟩
      | setActive name => exact ⟨h, by simp only [hexists]⟩
      | deleteScript name => exact ⟨h, by simp only [hexists]⟩
      | renameScript source target => exact ⟨h, by simp only [hexists]⟩
    | 1 =>
      unfold statement
      cases c.verb with
      | putScript name script =>
        refine ⟨?_, rfl⟩
        simp only [scriptsOf_execP, scriptsOf_delete, if_true, h]
      | setActive name =>
        refine ⟨?_, rfl⟩
        simp only [scriptsOf_execP, scriptsOf_deactivateAll, if_true, h]
      | deleteScript name => exact ⟨h, by simp only [hactive]⟩
      | renameScript source target => exact ⟨h, by simp only [hexists]⟩
    | pc + 2 =>
      unfold statement
      cases c.verb with
      | putScript name script =>
        refine ⟨?_, rfl⟩
        simp only [scriptsOf_execP, scriptsOf_insert, if_true, h]
      | setActive name =>
        refine ⟨?_, rfl⟩
        simp only [scriptsOf_execP, scriptsOf_activate, if_true, h]
      | deleteScript name =>
        refine ⟨?_, rfl⟩
        simp only [scriptsOf_execP, scriptsOf_delete, if_true, h]
      | renameScript source target =>
        refine ⟨?_, rfl⟩
        simp only [scriptsOf_execP, scriptsOf_rename, if_true, h]
  frame := by
    intro c pc t user hne
    match pc with
    | 0 =>
      unfold statement
      cases c.verb <;> rfl
    | 1 =>
      unfold statement
      cases c.verb with
      | putScript name script => simp only [scriptsOf_execP, scriptsOf_delete, if_neg hne, ite_self]
      | setActive name => simp only [scriptsOf_execP, scriptsOf_deactivateAll, if_neg hne, ite_self]
      | deleteScript name => rfl
      | renameScript source target => rfl
    | pc + 2 =>
      unfold statement
      cases c.verb with
      | putScript name script => simp only [scriptsOf_execP, scriptsOf_insert, if_neg hne, ite_self]
      | setActive name => simp only [scriptsOf_execP, scriptsOf_activate, if_neg hne, ite_self]
      | deleteScript name => simp only [scriptsOf_execP, scriptsOf_delete, if_neg hne, ite_self]
      | renameScript source target =>
        simp only [scriptsOf_execP, scriptsOf_rename, if_neg hne, ite_self]

/-! ## One of each -/

/-- One script of each name, and at most one that is active. -/
structure OneEach (rows : List Script) : Prop where
  names : (rows.map Script.name).Nodup
  active : rows.Pairwise fun r r' => ¬(r.active = true ∧ r'.active = true)

variable {rows : List Script} {b : Bool} {c : Command} {t : Table}

theorem OneEach.filter (h : OneEach rows) (p : Script → Bool) : OneEach (rows.filter p) where
  names := h.names.sublist (List.filter_sublist.map _)
  active := h.active.sublist List.filter_sublist

theorem OneEach.append (h : OneEach rows) {r : Script}
    (hname : ∀ r' ∈ rows, r'.name ≠ r.name) (hactive : r.active = false) :
    OneEach (rows ++ [r]) where
  names := by
    rw [List.map_append, List.map_singleton]
    refine h.names.append (List.nodup_singleton _) fun name hold hnew => ?_
    obtain ⟨r', hr', rfl⟩ := List.mem_map.mp hold
    exact hname r' hr' (List.mem_singleton.mp hnew)
  active := by
    refine List.pairwise_append.mpr ⟨h.active, List.pairwise_singleton _ _, fun r' _ r'' hr'' => ?_⟩
    rw [List.mem_singleton.mp hr'', hactive]
    rintro ⟨-, h⟩
    cases h

/-- Where only the rows of one name are active, at most one row is. -/
theorem oneEach_of_active (hnames : (rows.map Script.name).Nodup)
    {name : Bytes} (hactive : ∀ r ∈ rows, r.active = true → r.name = name) : OneEach rows where
  names := hnames
  active := by
    have hpair : rows.Pairwise fun r r' => r.name ≠ r'.name := List.pairwise_map.mp hnames
    refine hpair.imp_of_mem fun {r r'} hr hr' hne => ?_
    rintro ⟨h, h'⟩
    exact hne ((hactive r hr h).trans (hactive r' hr' h').symm)

theorem OneEach.deactivate {rows : List Script} (h : OneEach rows) :
    OneEach (rows.map fun r => { r with active := false }) := by
  refine @oneEach_of_active _ ?_ [] fun r hr hactive => ?_
  · rw [List.map_map]
    exact h.names
  · obtain ⟨r', -, rfl⟩ := List.mem_map.mp hr
    cases hactive

/-- A row is activated where no row of another name is active. -/
theorem OneEach.activate {rows : List Script} (h : OneEach rows) {name : Bytes}
    (hactive : ∀ r ∈ rows, r.active = true → r.name = name) :
    OneEach (rows.map fun r => if r.name = name then { r with active := true } else r) := by
  refine @oneEach_of_active _ ?_ name fun r hr hact => ?_
  · rw [List.map_map]
    have hsame : (Script.name ∘ fun r : Script =>
        if r.name = name then { r with active := true } else r) = Script.name := by
      funext r
      rw [Function.comp_apply]
      split <;> rfl
    rw [hsame]
    exact h.names
  · obtain ⟨r', hr', rfl⟩ := List.mem_map.mp hr
    by_cases heq : r'.name = name
    · rw [if_pos heq]
      exact heq
    · rw [if_neg heq] at hact ⊢
      exact hactive r' hr' hact

/-- A name is replaced by one that is not there. -/
theorem OneEach.rename (h : OneEach rows) {source target : Bytes}
    (htarget : (∀ r ∈ rows, r.name ≠ target) ∨ source = target ∨ ∀ r ∈ rows, r.name ≠ source) :
    OneEach (rows.map fun r => if r.name = source then { r with name := target } else r) where
  names := by
    have hmap : (rows.map fun r => if r.name = source then { r with name := target } else r).map
        Script.name = (rows.map Script.name).map fun n => if n = source then target else n := by
      rw [List.map_map, List.map_map]
      refine List.map_congr_left fun r _ => ?_
      simp only [Function.comp_apply]
      split <;> rfl
    rw [hmap]
    refine List.Nodup.map_on ?_ h.names
    intro n hn n' hn' heq
    obtain ⟨r, hr, rfl⟩ := List.mem_map.mp hn
    obtain ⟨r', hr', rfl⟩ := List.mem_map.mp hn'
    rcases htarget with hnone | rfl | hnone
    · split at heq
      · next hsrc =>
        split at heq
        · next hsrc' => exact hsrc.trans hsrc'.symm
        · exact absurd heq.symm (hnone r' hr')
      · split at heq
        · exact absurd heq (hnone r hr)
        · exact heq
    · split at heq
      · next hsrc =>
        split at heq
        · next hsrc' => exact hsrc.trans hsrc'.symm
        · exact hsrc.trans heq
      · split at heq
        · next hsrc' => exact heq.trans hsrc'.symm
        · exact heq
    · rwa [if_neg (hnone r hr), if_neg (hnone r' hr')] at heq
  active := by
    refine List.pairwise_map.mpr (h.active.imp fun {r r'} hne => ?_)
    have hsame : ∀ r : Script,
        (if r.name = source then { r with name := target } else r).active = r.active := by
      intro r
      split <;> rfl
    rw [hsame, hsame]
    exact hne

/-! ## Commands that do no harm -/

/-- PUTSCRIPT does not replace the active script, no command stops between two statements
    that belong together, and no test that fails lets a command through. -/
def Harmless (check : Bytes → Bool) (t : Table) (c : Command) : Prop :=
  match c.verb with
  | .putScript name script =>
    refusesScript check name script = false → scriptExists t c.user name = true →
      (c.fails 1 = true ∧ c.fails 2 = true) ∨
        (c.fails 1 = false ∧ c.fails 2 = false ∧ isActive t c.user name = false)
  | .setActive name =>
    name ≠ [] → c.fails 0 = false → scriptExists t c.user name = true →
      c.fails 1 = c.fails 2 ∨ (∀ r ∈ scriptsOf c.user t, r.active = false) ∨
        (c.fails 1 = true ∧ ∀ r ∈ scriptsOf c.user t, r.active = true → r.name = name)
  | .deleteScript name =>
    c.fails 0 = false → isActive t c.user name = true → c.fails 1 = false ∨ c.fails 2 = true
  | .renameScript source target =>
    c.fails 0 = false → scriptExists t c.user source = true →
      scriptExists t c.user target = true → source ≠ target → c.fails 1 = false ∨ c.fails 2 = true

/-- What a command that was answered has done to the scripts of its user. -/
def Serves (c : Command) (before after : List Script) : Bool → Prop
  | false => after = before
  | true =>
    match c.verb with
    | .putScript name script =>
      (∀ r, r.name ≠ name → (r ∈ after ↔ r ∈ before)) ∧
        (∀ r ∈ before, r.name = name → r ∈ after ∨ { r with script := script } ∈ after) ∧
        ((∀ n, c.fails n = false) →
          (∀ r ∈ before, r.name = name → { r with script := script } ∈ after) ∧
            ∃ r ∈ after, r.name = name ∧ r.script = script)
    | .setActive name =>
      after.map (fun r => (r.name, r.script)) = before.map (fun r => (r.name, r.script)) ∧
        (after = before ∨ ∀ r ∈ after, r.active = true ↔ name ≠ [] ∧ r.name = name) ∧
        ((∀ n, c.fails n = false) →
          (∀ r ∈ after, r.active = true ↔ name ≠ [] ∧ r.name = name) ∧
            (name ≠ [] → ∃ r ∈ after, r.name = name))
    | .deleteScript name =>
      (∀ r, r.name ≠ name ∨ r.active = true → (r ∈ after ↔ r ∈ before)) ∧
        (∀ r ∈ after, r ∈ before) ∧
        ((∀ n, c.fails n = false) → ∀ r ∈ after, r.name ≠ name)
    | .renameScript source target =>
      (after = before ∨
          after = before.map fun r => if r.name = source then { r with name := target } else r) ∧
        ((∀ n, c.fails n = false) →
          after = before.map fun r => if r.name = source then { r with name := target } else r)

/-! ## A command alone -/

/-- What a command comes to when nothing comes between its statements. -/
def outcome (check : Bytes → Bool) (c : Command) (t : Table) : Table × Option Bool :=
  alone (statement check) c 3 0 t

theorem statement_last (c : Command) (t : Table) : (statement check c 2 t).2 = some true := by
  unfold statement
  cases c.verb <;> rfl

theorem statement_first (c : Command) (t : Table) : (statement check c 0 t).1 = t := by
  unfold statement
  cases c.verb <;> rfl

theorem statement_eq (c : Command) (pc : Nat) (t : Table) {answer : Option Bool}
    (h : (statement check c pc t).2 = answer) :
    statement check c pc t = ((statement check c pc t).1, answer) :=
  Prod.ext rfl h

/-- The first statement of a command answers nothing but NO. -/
theorem statement_refuses (h : (statement check c 0 t).2 = some b) : b = false := by
  unfold statement at h
  cases hv : c.verb with
  | putScript name script => simp_all
  | setActive name => simp_all
  | deleteScript name => simp_all
  | renameScript source target => simp_all

/-- A command that its first statement answers. -/
theorem outcome_of_first
    (h : (statement check c 0 t).2 = some b) : outcome check c t = (t, some b) := by
  rw [outcome, alone, statement_eq c 0 t h, statement_first]

/-- A command that its second statement answers. -/
theorem outcome_of_second
    (h : (statement check c 0 t).2 = none) (h1 : (statement check c 1 t).2 = some b) :
    outcome check c t = ((statement check c 1 t).1, some b) := by
  rw [outcome, alone, statement_eq c 0 t h, statement_first]
  dsimp only
  rw [alone, statement_eq c 1 t h1]

/-- A command that runs to its end. -/
theorem outcome_of_third
    (h : (statement check c 0 t).2 = none) (h1 : (statement check c 1 t).2 = none) :
    outcome check c t = ((statement check c 2 (statement check c 1 t).1).1, some true) := by
  rw [outcome, alone, statement_eq c 0 t h, statement_first]
  dsimp only
  rw [alone, statement_eq c 1 t h1]
  dsimp only
  rw [alone, statement_eq c 2 _ (statement_last c _)]

/-- Three statements are all there are. -/
theorem alone_three (c : Command) (n : Nat) (t : Table) :
    alone (statement check) c (3 + n) 0 t = outcome check c t := by
  have hanswer : ∃ b, (outcome check c t).2 = some b := by
    cases h : (statement check c 0 t).2 with
    | some b => exact ⟨b, by rw [outcome_of_first h]⟩
    | none =>
      cases h1 : (statement check c 1 t).2 with
      | some b => exact ⟨b, by rw [outcome_of_second h h1]⟩
      | none => exact ⟨true, by rw [outcome_of_third h h1]⟩
  obtain ⟨b, hb⟩ := hanswer
  exact alone_add c n b 3 0 t hb

theorem alone_answered {fuel : Nat} (h : (alone (statement check) c fuel 0 t).2 = some b) :
    alone (statement check) c fuel 0 t = outcome check c t := by
  rw [← alone_add c 3 b fuel 0 t h, Nat.add_comm, alone_three]

/-- The table before a command and after each of its statements. -/
theorem alone_table (c : Command) (t : Table) (fuel : Nat) :
    (alone (statement check) c fuel 0 t).1 = t ∨
    ((statement check c 0 t).2 = none ∧
      (alone (statement check) c fuel 0 t).1 = (statement check c 1 t).1) ∨
    ((statement check c 0 t).2 = none ∧ (statement check c 1 t).2 = none ∧
      (alone (statement check) c fuel 0 t).1 =
        (statement check c 2 (statement check c 1 t).1).1) := by
  match fuel with
  | 0 => exact .inl rfl
  | 1 =>
    refine .inl ?_
    rw [alone]
    split
    · next heq => exact (congrArg Prod.fst heq).symm.trans (statement_first c t)
    · next heq => exact (congrArg Prod.fst heq).symm.trans (statement_first c t)
  | 2 =>
    cases h : (statement check c 0 t).2 with
    | some b =>
      refine .inl ?_
      rw [alone, statement_eq c 0 t h, statement_first]
    | none =>
      refine .inr (.inl ⟨rfl, ?_⟩)
      rw [alone, statement_eq c 0 t h, statement_first]
      dsimp only
      rw [alone]
      split
      · next heq => exact (congrArg Prod.fst heq).symm
      · next heq => exact (congrArg Prod.fst heq).symm
  | n + 3 =>
    rw [Nat.add_comm, alone_three]
    cases h : (statement check c 0 t).2 with
    | some b => exact .inl (by rw [outcome_of_first h])
    | none =>
      cases h1 : (statement check c 1 t).2 with
      | some b => exact .inr (.inl ⟨rfl, by rw [outcome_of_second h h1]⟩)
      | none => exact .inr (.inr ⟨rfl, rfl, by rw [outcome_of_third h h1]⟩)

/-! ## Harmless commands -/

theorem name_ne_of_not_exists {user name : Bytes}
    (h : ¬scriptExists t user name = true) : ∀ r ∈ scriptsOf user t, r.name ≠ name :=
  fun r hr hname => h (scriptExists_iff.mpr ⟨r, hr, hname⟩)

theorem not_active_of_not_isActive {user name : Bytes} (h : ¬isActive t user name = true) :
    ∀ r ∈ scriptsOf user t, r.name = name → r.active = false := by
  intro r hr hname
  by_contra hne
  exact h (isActive_iff.mpr ⟨r, hr, hname, by simpa using hne⟩)

/-! ### PUTSCRIPT -/

section PutScript

variable {c : Command} {name script : Bytes} (hv : c.verb = .putScript name script)

include hv

theorem putScript_first (t : Table) (h : (statement check c 0 t).2 = none) :
    refusesScript check name script = false := by
  unfold statement at h
  rw [hv] at h
  by_contra hne
  simp [hne] at h

theorem putScript_rows (t : Table) : scriptsOf c.user (statement check c 1 t).1 =
        (if c.fails 1 = true then scriptsOf c.user t
          else (scriptsOf c.user t).filter fun r => !decide (r.name = name)) ∧
      scriptsOf c.user (statement check c 2 t).1 =
        (if c.fails 2 = true then scriptsOf c.user t
          else scriptsOf c.user t ++ [⟨c.user, name, false, script⟩]) := by
  unfold statement
  rw [hv]
  simp only [scriptsOf_execP, scriptsOf_delete, scriptsOf_insert, if_true, and_self]

theorem putScript_oneEach {t : Table} (hone : OneEach (scriptsOf c.user t))
    (h : Harmless check t c) (h0 : (statement check c 0 t).2 = none) :
    OneEach (scriptsOf c.user (statement check c 1 t).1) ∧
      OneEach (scriptsOf c.user (statement check c 2 (statement check c 1 t).1).1) := by
  have hkept := putScript_first hv t h0
  rw [Harmless, hv] at h
  obtain ⟨hdelete, -⟩ := @putScript_rows check c name script hv t
  have hinsert := (@putScript_rows check c name script hv (statement check c 1 t).1).2
  have hfirst : OneEach (scriptsOf c.user (statement check c 1 t).1) := by
    rw [hdelete]
    split
    · exact hone
    · exact hone.filter _
  refine ⟨hfirst, ?_⟩
  rw [hinsert]
  split
  · exact hfirst
  · next hfails2 =>
    refine hfirst.append ?_ rfl
    rw [hdelete]
    split
    · next hfails1 =>
      -- the old row is still there, if there was one
      refine name_ne_of_not_exists fun hexists => ?_
      rcases h hkept hexists with ⟨-, h2⟩ | ⟨h1, -⟩
      · exact hfails2 h2
      · rw [h1] at hfails1
        cases hfails1
    · intro r hr
      simpa using (List.mem_filter.mp hr).2

theorem putScript_serves {t : Table} (h : Harmless check t c)
    (h0 : (statement check c 0 t).2 = none) :
    Serves c (scriptsOf c.user t)
      (scriptsOf c.user (statement check c 2 (statement check c 1 t).1).1) true := by
  have hkept := putScript_first hv t h0
  rw [Harmless, hv] at h
  obtain ⟨hdelete, -⟩ := @putScript_rows check c name script hv t
  have hinsert := (@putScript_rows check c name script hv (statement check c 1 t).1).2
  rw [Serves, hv, hinsert, hdelete]
  have hnew : ∀ r ∈ scriptsOf c.user t, r.name = name → r.active = false →
      ({ r with script := script } : Script) = ⟨c.user, name, false, script⟩ := by
    intro r hr hname hactive
    cases r
    simp only [mem_scriptsOf] at hr hname hactive ⊢
    rw [hr.2, hname, hactive]
  refine ⟨?_, ?_, ?_⟩
  · intro r hname
    have hne : r ≠ ⟨c.user, name, false, script⟩ := fun heq => hname (by rw [heq])
    split <;> split <;> simp [hname, hne]
  · intro r hr hname
    rcases h hkept (scriptExists_iff.mpr ⟨r, hr, hname⟩) with ⟨h1, h2⟩ | ⟨h1, h2, hactive⟩
    · left
      rw [h1, h2]
      exact hr
    · right
      rw [hnew r hr hname (not_active_of_not_isActive (by simp [hactive]) r hr hname), h2]
      exact List.mem_append_right _ (List.mem_singleton_self _)
  · intro hfails
    rw [hfails 1, hfails 2]
    refine ⟨fun r hr hname => ?_, ⟨c.user, name, false, script⟩, ?_, rfl, rfl⟩
    · rcases h hkept (scriptExists_iff.mpr ⟨r, hr, hname⟩) with ⟨h1, -⟩ | ⟨-, -, hactive⟩
      · rw [hfails 1] at h1
        cases h1
      · rw [hnew r hr hname (not_active_of_not_isActive (by simp [hactive]) r hr hname)]
        exact List.mem_append_right _ (List.mem_singleton_self _)
    · exact List.mem_append_right _ (List.mem_singleton_self _)

end PutScript

/-! ### SETACTIVE -/

section SetActive

variable {c : Command} {name : Bytes} (hv : c.verb = .setActive name)

include hv

variable (t : Table)

theorem setActive_first (h : (statement check c 0 t).2 = none) (hname : name ≠ []) :
    c.fails 0 = false ∧ scriptExists t c.user name = true := by
  unfold statement at h
  rw [hv] at h
  by_contra hne
  simp only [ite_eq_right_iff, reduceCtorEq, imp_false, not_and, not_or] at h
  obtain ⟨h0, hexists⟩ := h hname
  exact hne ⟨by simpa using h0, by simpa using hexists⟩

theorem setActive_rows : scriptsOf c.user (statement check c 1 t).1 =
        (if c.fails 1 = true then scriptsOf c.user t
          else (scriptsOf c.user t).map fun r => { r with active := false }) ∧
      scriptsOf c.user (statement check c 2 t).1 =
        (if c.fails 2 = true then scriptsOf c.user t
          else (scriptsOf c.user t).map fun r =>
            if r.name = name then { r with active := true } else r) := by
  unfold statement
  rw [hv]
  simp only [scriptsOf_execP, scriptsOf_deactivateAll, scriptsOf_activate, if_true, and_self]

theorem setActive_second : (statement check c 1 t).2 = if name = [] then some true else none := by
  unfold statement
  rw [hv]
  rfl

theorem setActive_oneEach {t : Table} (hone : OneEach (scriptsOf c.user t))
    (h : Harmless check t c) (h0 : (statement check c 0 t).2 = none) :
    OneEach (scriptsOf c.user (statement check c 1 t).1) ∧
      ((statement check c 1 t).2 = none →
        OneEach (scriptsOf c.user (statement check c 2 (statement check c 1 t).1).1)) := by
  obtain ⟨hoff, -⟩ := @setActive_rows check c name hv t
  have hon := (@setActive_rows check c name hv (statement check c 1 t).1).2
  have hfirst : OneEach (scriptsOf c.user (statement check c 1 t).1) := by
    rw [hoff]
    split
    · exact hone
    · exact hone.deactivate
  refine ⟨hfirst, fun h1 => ?_⟩
  have hname : name ≠ [] := by
    intro hempty
    rw [setActive_second hv, if_pos hempty] at h1
    cases h1
  obtain ⟨hf0, hexists⟩ := setActive_first hv t h0 hname
  rw [Harmless, hv] at h
  rw [hon]
  split
  · exact hfirst
  · next hfails2 =>
    refine hfirst.activate fun r hr hactive => ?_
    rw [hoff] at hr
    split at hr
    · next hfails1 =>
      rcases h hname hf0 hexists with heq | hnone | ⟨-, hself⟩
      · exact absurd (heq ▸ hfails1) hfails2
      · rw [hnone r hr] at hactive
        cases hactive
      · exact hself r hr hactive
    · obtain ⟨r', -, rfl⟩ := List.mem_map.mp hr
      cases hactive

/-- What the two updates leave alone. -/
theorem setActive_texts :
    (scriptsOf c.user (statement check c 1 t).1).map (fun r => (r.name, r.script)) =
        (scriptsOf c.user t).map (fun r => (r.name, r.script)) ∧
      (scriptsOf c.user (statement check c 2 t).1).map (fun r => (r.name, r.script)) =
        (scriptsOf c.user t).map (fun r => (r.name, r.script)) := by
  obtain ⟨hoff, hon⟩ := @setActive_rows check c name hv t
  rw [hoff, hon]
  constructor
  · split
    · rfl
    · rw [List.map_map]
      rfl
  · split
    · rfl
    · rw [List.map_map]
      refine List.map_congr_left fun r _ => ?_
      rw [Function.comp_apply]
      split <;> rfl

omit hv in
theorem active_of_activate {rows : List Script}
    (hrows : ∀ r ∈ rows, r.active = false ∨ r.name = name) :
    ∀ r ∈ rows.map (fun r => if r.name = name then { r with active := true } else r),
      r.active = true ↔ r.name = name := by
  intro r hr
  obtain ⟨r', hr', rfl⟩ := List.mem_map.mp hr
  by_cases heq : r'.name = name
  · rw [if_pos heq]
    exact ⟨fun _ => heq, fun _ => rfl⟩
  · rw [if_neg heq]
    rcases hrows r' hr' with hoff | hname
    · rw [hoff]
      exact ⟨fun h => (Bool.false_ne_true h).elim, fun h => absurd h heq⟩
    · exact absurd hname heq

omit hv in
theorem deactivate_of_none {rows : List Script} (h : ∀ r ∈ rows, r.active = false) :
    (rows.map fun r => { r with active := false }) = rows := by
  conv_rhs => rw [← List.map_id rows]
  refine List.map_congr_left fun r hr => ?_
  have hoff := h r hr
  cases r
  dsimp only at hoff
  rw [hoff]
  rfl

/-- SETACTIVE of no name. -/
theorem setActive_serves_none {t : Table} (hname : name = []) :
    Serves c (scriptsOf c.user t) (scriptsOf c.user (statement check c 1 t).1) true := by
  rw [Serves, hv]
  refine ⟨(setActive_texts hv t).1, ?_⟩
  obtain ⟨hoff, -⟩ := @setActive_rows check c name hv t
  rw [hoff]
  have hcleared : ∀ r ∈ (scriptsOf c.user t).map (fun r : Script => { r with active := false }),
      r.active = true ↔ name ≠ [] ∧ r.name = name := by
    intro r hr
    obtain ⟨r', -, rfl⟩ := List.mem_map.mp hr
    constructor
    · intro h
      cases h
    · exact fun h => absurd hname h.1
  constructor
  · split
    · exact .inl rfl
    · exact .inr hcleared
  · intro hfails
    rw [hfails 1]
    exact ⟨hcleared, fun hne => absurd hname hne⟩

theorem setActive_serves {t : Table} (h : Harmless check t c)
    (h0 : (statement check c 0 t).2 = none) (hname : name ≠ []) :
    Serves c (scriptsOf c.user t)
      (scriptsOf c.user (statement check c 2 (statement check c 1 t).1).1) true := by
  obtain ⟨hf0, hexists⟩ := setActive_first hv t h0 hname
  have hharm : c.fails 1 = c.fails 2 ∨ (∀ r ∈ scriptsOf c.user t, r.active = false) ∨
      (c.fails 1 = true ∧ ∀ r ∈ scriptsOf c.user t, r.active = true → r.name = name) := by
    rw [Harmless, hv] at h
    exact h hname hf0 hexists
  obtain ⟨hoff, -⟩ := @setActive_rows check c name hv t
  have hon := (@setActive_rows check c name hv (statement check c 1 t).1).2
  have htexts := (@setActive_texts check c name hv (statement check c 1 t).1).2.trans
    (setActive_texts hv t).1
  have hserved : c.fails 2 = false →
      ∀ r ∈ scriptsOf c.user (statement check c 2 (statement check c 1 t).1).1,
        r.active = true ↔ name ≠ [] ∧ r.name = name := by
    intro hf2 r hr
    rw [hon, hf2] at hr
    refine (active_of_activate ?_ r hr).trans ⟨fun h => ⟨hname, h⟩, fun h => h.2⟩
    intro r' hr'
    rw [hoff] at hr'
    split at hr'
    · next hf1 =>
      rcases hharm with heq | hnone | ⟨-, hself⟩
      · rw [hf1, hf2] at heq
        cases heq
      · exact .inl (hnone r' hr')
      · cases hactive : r'.active with
        | true => exact .inr (hself r' hr' hactive)
        | false => exact .inl rfl
    · obtain ⟨r'', -, rfl⟩ := List.mem_map.mp hr'
      exact .inl rfl
  rw [Serves, hv]
  refine ⟨htexts, ?_, ?_⟩
  · cases hf2 : c.fails 2 with
    | false => exact .inr (hserved hf2)
    | true =>
      left
      rw [hon, if_pos hf2, hoff]
      split
      · rfl
      · next hf1 =>
        rcases hharm with heq | hnone | ⟨hf1', -⟩
        · exact absurd (heq.trans hf2) hf1
        · exact deactivate_of_none hnone
        · exact absurd hf1' hf1
  · intro hfails
    refine ⟨hserved (hfails 2), fun _ => ?_⟩
    obtain ⟨r, hr, hrname⟩ := scriptExists_iff.mp hexists
    have hpair : (name, r.script) ∈
        (scriptsOf c.user t).map (fun r => (r.name, r.script)) :=
      List.mem_map.mpr ⟨r, hr, by rw [hrname]⟩
    rw [← htexts] at hpair
    obtain ⟨r', hr', heq⟩ := List.mem_map.mp hpair
    exact ⟨r', hr', congrArg Prod.fst heq⟩

end SetActive

/-! ### DELETESCRIPT -/

section DeleteScript

variable {c : Command} {name : Bytes} (hv : c.verb = .deleteScript name)

include hv

variable (t : Table)

theorem deleteScript_first (h : (statement check c 0 t).2 = none) : c.fails 0 = false := by
  unfold statement at h
  rw [hv] at h
  simp only [ite_eq_right_iff, reduceCtorEq, imp_false, not_or] at h
  simpa using h.1

theorem deleteScript_second : statement check c 1 t =
      (t, if c.fails 1 = false ∧ isActive t c.user name = true then some false else none) := by
  unfold statement
  rw [hv]
  rfl

theorem deleteScript_rows : scriptsOf c.user (statement check c 2 t).1 =
      if c.fails 2 = true then scriptsOf c.user t
      else (scriptsOf c.user t).filter fun r => !decide (r.name = name) := by
  unfold statement
  rw [hv]
  simp only [scriptsOf_execP, scriptsOf_delete, if_true]

theorem deleteScript_serves {t : Table} (h : Harmless check t c)
    (h0 : (statement check c 0 t).2 = none) (h1 : (statement check c 1 t).2 = none) :
    Serves c (scriptsOf c.user t) (scriptsOf c.user (statement check c 2 t).1) true := by
  have hf0 := deleteScript_first hv t h0
  rw [Harmless, hv] at h
  rw [deleteScript_second hv] at h1
  simp only [ite_eq_right_iff, reduceCtorEq, imp_false, not_and] at h1
  rw [Serves, hv, deleteScript_rows hv]
  refine ⟨?_, ?_, ?_⟩
  · intro r hr
    split
    · rfl
    · next hf2 =>
      rw [List.mem_filter]
      refine ⟨fun hmem => hmem.1, fun hmem => ⟨hmem, ?_⟩⟩
      by_contra hname
      have hname : r.name = name := by simpa using hname
      rcases hr with hne | hactive
      · exact hne hname
      · -- an active row of the name would have stopped the command
        have hisActive := isActive_iff.mpr ⟨r, hmem, hname, hactive⟩
        rcases h hf0 hisActive with hf1 | hf2'
        · exact h1 hf1 hisActive
        · exact hf2 hf2'
  · intro r hr
    split at hr
    · exact hr
    · exact (List.mem_filter.mp hr).1
  · intro hfails r hr
    rw [hfails 2] at hr
    simpa using (List.mem_filter.mp hr).2

end DeleteScript

/-! ### RENAMESCRIPT -/

section RenameScript

variable {c : Command} {source target : Bytes} (hv : c.verb = .renameScript source target)

include hv

variable (t : Table)

theorem renameScript_first (h : (statement check c 0 t).2 = none) :
    c.fails 0 = false ∧ scriptExists t c.user source = true := by
  unfold statement at h
  rw [hv] at h
  simp only [ite_eq_right_iff, reduceCtorEq, imp_false, not_or] at h
  exact ⟨by simpa using h.1, by simpa using h.2⟩

theorem renameScript_second : statement check c 1 t =
      (t, if c.fails 1 = false ∧ scriptExists t c.user target = true then some false
        else none) := by
  unfold statement
  rw [hv]
  rfl

theorem renameScript_rows : scriptsOf c.user (statement check c 2 t).1 =
      if c.fails 2 = true then scriptsOf c.user t
      else (scriptsOf c.user t).map fun r =>
        if r.name = source then { r with name := target } else r := by
  unfold statement
  rw [hv]
  simp only [scriptsOf_execP, scriptsOf_rename, if_true]

theorem renameScript_oneEach {t : Table} (hone : OneEach (scriptsOf c.user t))
    (h : Harmless check t c) (h0 : (statement check c 0 t).2 = none)
    (h1 : (statement check c 1 t).2 = none) :
    OneEach (scriptsOf c.user (statement check c 2 t).1) := by
  obtain ⟨hf0, hsource⟩ := renameScript_first hv t h0
  rw [Harmless, hv] at h
  rw [renameScript_second hv] at h1
  simp only [ite_eq_right_iff, reduceCtorEq, imp_false, not_and] at h1
  rw [renameScript_rows hv]
  split
  · exact hone
  · next hf2 =>
    refine hone.rename ?_
    by_cases htarget : scriptExists t c.user target = true
    · by_cases heq : source = target
      · exact .inr (.inl heq)
      · rcases h hf0 hsource htarget heq with hf1 | hf2'
        · exact absurd htarget (h1 hf1)
        · exact absurd hf2' hf2
    · exact .inl (name_ne_of_not_exists htarget)

theorem renameScript_serves :
    Serves c (scriptsOf c.user t) (scriptsOf c.user (statement check c 2 t).1) true := by
  rw [Serves, hv, renameScript_rows hv]
  constructor
  · split
    · exact .inl rfl
    · exact .inr rfl
  · intro hfails
    rw [hfails 2]
    rfl

end RenameScript

/-! ## Runs of commands -/

/-- The rows of the user of a harmless command keep their shape through all its statements. -/
theorem staysGood_of_harmless (hone : OneEach (scriptsOf c.user t)) (h : Harmless check t c) :
    StaysGood (statement check) Command.user scriptsOf (fun _ rows => OneEach rows) c 0 t := by
  intro fuel
  rcases @alone_table check c t fuel with heq | ⟨h0, heq⟩ | ⟨h0, h1, heq⟩
  · rw [heq]
    exact hone
  · rw [heq]
    cases hv : c.verb with
    | putScript name script => exact (putScript_oneEach hv hone h h0).1
    | setActive name => exact (setActive_oneEach hv hone h h0).1
    | deleteScript name =>
      rw [deleteScript_second hv]
      exact hone
    | renameScript source target =>
      rw [renameScript_second hv]
      exact hone
  · rw [heq]
    cases hv : c.verb with
    | putScript name script => exact (putScript_oneEach hv hone h h0).2
    | setActive name => exact (setActive_oneEach hv hone h h0).2 h1
    | deleteScript name =>
      have hsame : (statement check c 1 t).1 = t := by rw [deleteScript_second hv]
      rw [hsame, deleteScript_rows hv]
      split
      · exact hone
      · exact hone.filter _
    | renameScript source target =>
      have hsame : (statement check c 1 t).1 = t := by rw [renameScript_second hv]
      rw [hsame]
      exact renameScript_oneEach hv hone h h0 h1

/-- A harmless command that nothing interrupts does what it answers. -/
theorem serves_of_harmless (h : Harmless check t c) (hb : (outcome check c t).2 = some b) :
    Serves c (scriptsOf c.user t) (scriptsOf c.user (outcome check c t).1) b := by
  cases h0 : (statement check c 0 t).2 with
  | some b0 =>
    rw [outcome_of_first h0] at hb ⊢
    obtain rfl := Option.some.inj hb
    rw [statement_refuses h0]
    rfl
  | none =>
    cases hv : c.verb with
    | putScript name script =>
      have h1 : (statement check c 1 t).2 = none := by
        unfold statement
        rw [hv]
        rfl
      rw [outcome_of_third h0 h1] at hb ⊢
      obtain rfl := Option.some.inj hb
      exact putScript_serves hv h h0
    | setActive name =>
      by_cases hname : name = []
      · have h1 : (statement check c 1 t).2 = some true := by
          rw [setActive_second hv, if_pos hname]
        rw [outcome_of_second h0 h1] at hb ⊢
        obtain rfl := Option.some.inj hb
        exact setActive_serves_none hv hname
      · have h1 : (statement check c 1 t).2 = none := by
          rw [setActive_second hv, if_neg hname]
        rw [outcome_of_third h0 h1] at hb ⊢
        obtain rfl := Option.some.inj hb
        exact setActive_serves hv h h0 hname
    | deleteScript name =>
      have hsame : (statement check c 1 t).1 = t := by rw [deleteScript_second hv]
      cases h1 : (statement check c 1 t).2 with
      | some b1 =>
        rw [outcome_of_second h0 h1, hsame] at hb ⊢
        obtain rfl := Option.some.inj hb
        rw [deleteScript_second hv] at h1
        split at h1 <;> cases h1
        rfl
      | none =>
        rw [outcome_of_third h0 h1, hsame] at hb ⊢
        obtain rfl := Option.some.inj hb
        exact deleteScript_serves hv h h0 h1
    | renameScript source target =>
      have hsame : (statement check c 1 t).1 = t := by rw [renameScript_second hv]
      cases h1 : (statement check c 1 t).2 with
      | some b1 =>
        rw [outcome_of_second h0 h1, hsame] at hb ⊢
        obtain rfl := Option.some.inj hb
        rw [renameScript_second hv] at h1
        split at h1 <;> cases h1
        rfl
      | none =>
        rw [outcome_of_third h0 h1, hsame] at hb ⊢
        obtain rfl := Option.some.inj hb
        exact renameScript_serves hv t

abbrev Store := System Table Command Nat

/-- A command is steady when no other command of its user is in progress and it is harmless. -/
def Steady (check : Bytes → Bool) (s : Store) (c : Command) : Prop :=
  Free Command.user s c.user ∧ Harmless check s.shared c

/-- The store is as it should be: every user has one script of each name and at most one that
    is active, and every command has done what it answered. -/
def Kept (check : Bytes → Bool) (events : List (Event Nat Command)) : Prop :=
  (∀ user, OneEach (scriptsOf user (run (statement check) (fresh []) events).shared)) ∧
  ∀ before mid after k c answer, events = before ++ .start k c :: (mid ++ .advance k :: after) →
    (run (statement check) (fresh []) before).busy k = none →
    (∀ e ∈ mid, ∀ c', e ≠ .start k c') →
    (step (statement check) (run (statement check) (fresh []) (before ++ .start k c :: mid))
      (.advance k)).2 = some answer →
    Serves c (scriptsOf c.user (run (statement check) (fresh []) before).shared)
      (scriptsOf c.user (step (statement check)
        (run (statement check) (fresh []) (before ++ .start k c :: mid)) (.advance k)).1.shared)
      answer

theorem good_empty (check : Bytes → Bool) :
    Good (statement check) Command.user scriptsOf (fun _ rows => OneEach rows)
      (fresh [] : Store) where
  now := fun _ => ⟨List.nodup_nil, List.Pairwise.nil⟩
  later := by
    intro k c pc hbusy
    cases hbusy

/-- In every run of steady commands, by any sessions of any users, the store is kept. -/
theorem kept_of_steady (check : Bytes → Bool) (events : List (Event Nat Command))
    (h : Admitted (statement check) (Steady check) (fresh []) events) : Kept check events := by
  have hkeyed := keyed_statement check
  have hgoodRun := good_run hkeyed events (exclusive_fresh Command.user [])
    (good_empty check) <| h.mono fun s c hsteady =>
      ⟨hsteady.1, fun hone => staysGood_of_harmless (hone c.user) hsteady.2⟩
  refine ⟨hgoodRun.now, ?_⟩
  intro before mid after k c answer hevents hidle hmid hanswer
  subst hevents
  obtain ⟨hbefore, hstarted⟩ := h.append before
  obtain ⟨hsteady, hrest⟩ := hstarted
  obtain ⟨-, hharmless⟩ := hsteady k c rfl hidle
  have hfree : ∀ (s : Store) (c : Command), Steady check s c → Free Command.user s c.user :=
    fun _ _ hs => hs.1
  have hexcl := exclusive_run before (exclusive_fresh Command.user [])
    (hbefore.mono hfree)
  have hadm : Admitted (statement check) (fun s c => Free Command.user s c.user)
      (run (statement check) (fresh []) before) (.start k c :: (mid ++ [.advance k])) := by
    have hcmd : Admitted (statement check) (Steady check)
        (run (statement check) (fresh []) before)
        ((.start k c :: (mid ++ [.advance k])) ++ after) := by
      rw [List.cons_append, List.append_assoc]
      exact ⟨hsteady, hrest⟩
    exact (hcmd.append _).1.mono hfree
  rw [run_append] at hanswer ⊢
  obtain ⟨fuel, hview, hans⟩ := serial hkeyed hexcl hidle hadm hmid hanswer
  rw [← hview]
  have halone := alone_answered hans
  rw [halone] at hans ⊢
  exact serves_of_harmless hharmless hans

/-- Two users store a script each, at the same time. -/
def overlapping : List (Event Nat Command) :=
  [.start 0 ⟨bytes "ann", .putScript (bytes "main") (bytes "keep;"), fun _ => false⟩,
    .start 1 ⟨bytes "bob", .putScript (bytes "main") (bytes "stop;"), fun _ => false⟩,
    .advance 0, .advance 1, .advance 1, .advance 0, .advance 1, .advance 0]

theorem kept_of_steady_overlapping :
    Admitted (statement fun _ => true) (Steady fun _ => true) (fresh []) overlapping ∧
      Kept (fun _ => true) overlapping := by
  have hadm : Admitted (statement fun _ => true) (Steady fun _ => true) (fresh [])
      overlapping := by
    refine ⟨?_, ?_, ?_⟩
    · rintro k cmd he -
      obtain ⟨rfl, rfl⟩ := Event.start.inj he
      refine ⟨fun j c pc hj => (Option.some_ne_none _ hj.symm).elim, fun _ hexists => ?_⟩
      cases hexists
    · rintro k cmd he -
      obtain ⟨rfl, rfl⟩ := Event.start.inj he
      refine ⟨fun j c pc hj => ?_, fun _ hexists => ?_⟩
      · change Function.update _ _ _ j = _ at hj
        simp only [Function.update_apply, fresh] at hj
        split at hj
        · obtain ⟨rfl, -⟩ := Prod.mk.inj (Option.some.inj hj)
          decide +kernel
        · cases hj
      · cases hexists
    · simp [Admitted]
  exact ⟨hadm, kept_of_steady _ _ hadm⟩

/-- The run of one user who stores a script, makes it active and stores it again. -/
def replaced : List (Event Nat Command) :=
  let user := bytes "ann"
  let name := bytes "main"
  let command (verb : Verb) : List (Event Nat Command) :=
    [.start 0 ⟨user, verb, fun _ => false⟩, .advance 0, .advance 0, .advance 0]
  command (.putScript name (bytes "keep;")) ++ command (.setActive name) ++
    command (.putScript name (bytes "stop;"))

/-- PUTSCRIPT on the active script leaves the user without one. -/
theorem not_kept_replaced : ¬Kept (fun _ => true) replaced := by
  intro h
  have hserves := h.2 (replaced.take 8) ((replaced.drop 9).take 2) [] 0
    ⟨bytes "ann", .putScript (bytes "main") (bytes "stop;"), fun _ => false⟩ true rfl
    (by decide +kernel) (by simp [replaced]) (by decide +kernel)
  obtain ⟨hstays, -⟩ := hserves.2.2 fun _ => rfl
  have hactive := hstays ⟨bytes "ann", bytes "main", true, bytes "keep;"⟩ (by decide +kernel) rfl
  revert hactive
  decide +kernel

end QuackMail.ManageSieve
