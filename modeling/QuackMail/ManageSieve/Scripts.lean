import QuackMail.Bytes
import QuackMail.Lib.Serial

/-! # The store of Sieve scripts

The table `quackmail_sieve_scripts` and the commands of ManageSieve that write it, as the
statements they are made of.  The table has no key, a replacement is a `DELETE` and an
`INSERT`, and every statement may fail without the command noticing.
-/

namespace QuackMail.ManageSieve

open Serial

/-- A row of `quackmail_sieve_scripts`. -/
structure Script where
  username : Bytes
  name : Bytes
  active : Bool
  script : Bytes
  deriving DecidableEq

abbrev Table := List Script

/-- `kMaxScriptBytes`. -/
def maxScriptBytes : Nat := 1048576

/-! ## Statements -/

/-- `ScriptExists`. -/
def scriptExists (t : Table) (user name : Bytes) : Bool :=
  t.any fun r => decide (r.username = user ∧ r.name = name)

/-- The `SELECT` for the active script of a name. -/
def isActive (t : Table) (user name : Bytes) : Bool :=
  t.any fun r => decide (r.username = user ∧ r.name = name ∧ r.active = true)

/-- The `DELETE` of a name. -/
def deleteScript (user name : Bytes) (t : Table) : Table :=
  t.filter fun r => !decide (r.username = user ∧ r.name = name)

/-- The `INSERT`; a new row is not active. -/
def insertScript (user name script : Bytes) (t : Table) : Table :=
  t ++ [⟨user, name, false, script⟩]

/-- The first `UPDATE` of `SetActive`. -/
def deactivateAll (user : Bytes) (t : Table) : Table :=
  t.map fun r => if r.username = user then { r with active := false } else r

/-- The second `UPDATE` of `SetActive`. -/
def activate (user name : Bytes) (t : Table) : Table :=
  t.map fun r => if r.username = user ∧ r.name = name then { r with active := true } else r

/-- The `UPDATE` of RENAMESCRIPT. -/
def renameScript (user source target : Bytes) (t : Table) : Table :=
  t.map fun r => if r.username = user ∧ r.name = source then { r with name := target } else r

/-- A statement that fails changes nothing. -/
def execP (fails : Bool) (f : Table → Table) (t : Table) : Table := if fails then t else f t

/-! ## Commands -/

inductive Verb where
  | putScript (name script : Bytes)
  | setActive (name : Bytes)
  | deleteScript (name : Bytes)
  | renameScript (source target : Bytes)

/-- A command of a user who is logged in; `fails n` is what becomes of its statement `n`. -/
structure Command where
  user : Bytes
  verb : Verb
  fails : Nat → Bool

/-- What PUTSCRIPT refuses before it touches the table; `check` is `sieve::Check`. -/
def refusesScript (check : Bytes → Bool) (name script : Bytes) : Bool :=
  decide (name = []) || !check script || decide (script.length > maxScriptBytes)

/-- Statement `n` of a command and its answer, `true` for OK and `false` for NO.  Statement 0
    of PUTSCRIPT is the check of its arguments. -/
def statement (check : Bytes → Bool) (c : Command) : Nat → Table → Table × Option Bool
  | 0, t =>
    match c.verb with
    | .putScript name script => (t, if refusesScript check name script then some false else none)
    | .setActive name =>
      (t, if name ≠ [] ∧ (c.fails 0 = true ∨ scriptExists t c.user name = false) then some false
        else none)
    | .deleteScript name =>
      (t, if c.fails 0 = true ∨ scriptExists t c.user name = false then some false else none)
    | .renameScript source _ =>
      (t, if c.fails 0 = true ∨ scriptExists t c.user source = false then some false else none)
  | 1, t =>
    match c.verb with
    | .putScript name _ => (execP (c.fails 1) (deleteScript c.user name) t, none)
    | .setActive name =>
      (execP (c.fails 1) (deactivateAll c.user) t, if name = [] then some true else none)
    | .deleteScript name =>
      (t, if c.fails 1 = false ∧ isActive t c.user name = true then some false else none)
    | .renameScript _ target =>
      (t, if c.fails 1 = false ∧ scriptExists t c.user target = true then some false else none)
  | _, t =>
    match c.verb with
    | .putScript name script =>
      (execP (c.fails 2) (insertScript c.user name script) t, some true)
    | .setActive name => (execP (c.fails 2) (activate c.user name) t, some true)
    | .deleteScript name => (execP (c.fails 2) (deleteScript c.user name) t, some true)
    | .renameScript source target =>
      (execP (c.fails 2) (renameScript c.user source target) t, some true)

/-! ## What a user has -/

/-- The scripts of a user. -/
def scriptsOf (user : Bytes) (t : Table) : List Script :=
  t.filter fun r => decide (r.username = user)

variable {t : Table} {user : Bytes}

@[simp] theorem mem_scriptsOf {r : Script} : r ∈ scriptsOf user t ↔ r ∈ t ∧ r.username = user := by
  simp [scriptsOf]

theorem scriptExists_iff {name : Bytes} :
    scriptExists t user name = true ↔ ∃ r ∈ scriptsOf user t, r.name = name := by
  simp [scriptExists, and_assoc]

theorem isActive_iff {name : Bytes} :
    isActive t user name = true ↔ ∃ r ∈ scriptsOf user t, r.name = name ∧ r.active = true := by
  simp [isActive, and_assoc]

theorem scriptExists_congr {t' : Table} (h : scriptsOf user t = scriptsOf user t')
    (name : Bytes) : scriptExists t user name = scriptExists t' user name := by
  rw [Bool.eq_iff_iff, scriptExists_iff, scriptExists_iff, h]

theorem isActive_congr {t' : Table} (h : scriptsOf user t = scriptsOf user t')
    (name : Bytes) : isActive t user name = isActive t' user name := by
  rw [Bool.eq_iff_iff, isActive_iff, isActive_iff, h]

/-! ## The statements, seen by a user -/

theorem scriptsOf_delete (user name other : Bytes) (t : Table) :
    scriptsOf other (deleteScript user name t) =
      if other = user then (scriptsOf user t).filter (fun r => !decide (r.name = name))
      else scriptsOf other t := by
  split
  · next heq =>
    subst heq
    rw [scriptsOf, deleteScript, scriptsOf, List.filter_filter, List.filter_filter]
    refine List.filter_congr fun r _ => ?_
    by_cases hu : r.username = other <;> simp [hu]
  · next hne =>
    rw [scriptsOf, deleteScript, scriptsOf, List.filter_filter]
    refine List.filter_congr fun r _ => ?_
    by_cases hu : r.username = other
    · simp [hu, hne]
    · simp [hu]

theorem scriptsOf_insert (user name script other : Bytes) (t : Table) :
    scriptsOf other (insertScript user name script t) =
      if other = user then scriptsOf user t ++ [⟨user, name, false, script⟩]
      else scriptsOf other t := by
  rw [insertScript, scriptsOf, List.filter_append]
  split
  · next heq =>
    subst heq
    simp [scriptsOf]
  · next hne => simp [scriptsOf, Ne.symm hne]

/-- An `UPDATE` of rows of one user. -/
theorem scriptsOf_map (user other : Bytes) (p : Script → Bool) (f : Script → Script)
    (hf : ∀ r, (f r).username = r.username) (t : Table) :
    scriptsOf other (t.map fun r => if r.username = user ∧ p r = true then f r else r) =
      if other = user then (scriptsOf user t).map (fun r => if p r = true then f r else r)
      else scriptsOf other t := by
  induction t with
  | nil => split <;> rfl
  | cons r t ih =>
    have hname : (if r.username = user ∧ p r = true then f r else r).username = r.username := by
      split
      · exact hf r
      · rfl
    rw [scriptsOf, List.map_cons, List.filter_cons, hname, ← scriptsOf, ih]
    by_cases hother : other = user
    · subst hother
      by_cases hr : r.username = other
      · simp [scriptsOf, hr]
      · simp [scriptsOf, hr]
    · simp only [if_neg hother]
      by_cases hr : r.username = other
      · have hne : ¬r.username = user := fun h => hother (hr.symm.trans h)
        simp [scriptsOf, hr, hother]
      · simp [scriptsOf, hr]

theorem scriptsOf_deactivateAll (user other : Bytes) (t : Table) :
    scriptsOf other (deactivateAll user t) =
      if other = user then (scriptsOf user t).map (fun r => { r with active := false })
      else scriptsOf other t := by
  have h := scriptsOf_map user other (fun _ => true) (fun r => { r with active := false })
    (fun _ => rfl) t
  simpa [deactivateAll] using h

theorem scriptsOf_activate (user name other : Bytes) (t : Table) :
    scriptsOf other (activate user name t) =
      if other = user then
        (scriptsOf user t).map (fun r => if r.name = name then { r with active := true } else r)
      else scriptsOf other t := by
  have h := scriptsOf_map user other (fun r => decide (r.name = name))
    (fun r => { r with active := true }) (fun _ => rfl) t
  simpa [activate] using h

theorem scriptsOf_rename (user source target other : Bytes) (t : Table) :
    scriptsOf other (renameScript user source target t) =
      if other = user then
        (scriptsOf user t).map (fun r => if r.name = source then { r with name := target } else r)
      else scriptsOf other t := by
  have h := scriptsOf_map user other (fun r => decide (r.name = source))
    (fun r => { r with name := target }) (fun _ => rfl) t
  simpa [renameScript] using h

end QuackMail.ManageSieve
