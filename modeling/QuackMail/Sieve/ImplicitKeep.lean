import QuackMail.Sieve.Evaluate
import QuackMail.Sieve.Numbers

/-! # The implicit keep

A script that executes nothing that settles where a message goes still keeps it.  The run is
followed with the commands that it executes: they alone decide whether the implicit keep is
cancelled and which kinds of actions there are.  The implicit keep is a keep without flags,
whatever the internal flag set is.
-/

namespace QuackMail.Sieve

section Executed

variable (parseAddressList : Bytes → List Bytes)

/-! ## The commands that a run executes -/

mutual

/-- The commands of a block that are executed, from the runner before it. -/
def trace (m : Message) : List Command → Runner → List (Verb × Args)
  | [], _ => []
  | c :: cs, r =>
    if r.stopped then []
    else traceCommand m c r ++ trace m cs (runCommand parseAddressList m c r)

def traceCommand (m : Message) : Command → Runner → List (Verb × Args)
  | .require _, _ => []
  | .if' branches, r => traceBranches m branches r
  | .act v args, _ => [(v, args)]

def traceBranches (m : Message) : List Branch → Runner → List (Verb × Args)
  | [], _ => []
  | .mk none body :: _, r => trace m body r
  | .mk (some test) body :: branches, r =>
    let (found, vars) := evalTest parseAddressList m r.flags test r.vars
    if found then trace m body { r with vars := vars }
    else traceBranches m branches { r with vars := vars }

end

/-- The program of a script; a blank one has no commands. -/
def programOf (script : Bytes) : Except Bytes (List Command) :=
  if Delivery.trim script = [] then .ok [] else parseInternal script

/-- What the evaluation of a script executes: nothing, if it does not parse. -/
def executed (script : Bytes) (m : Message) : List (Verb × Args) :=
  match programOf script with
  | .error _ => []
  | .ok program =>
    trace parseAddressList m program
      { vars := { enabled := requires program (bytes "variables") } }

/-- The evaluation of a program that reaches a `keep;` where it ends. -/
def evaluateKeeping (program : List Command) (m : Message) : Result :=
  ((runProgram parseAddressList m program).act parseAddressList m .keep {}).settle

/-- The commands that cancel the implicit keep. -/
def cancels (c : Verb × Args) : Bool :=
  match c.1 with
  | .keep | .discard | .reject => true
  | .fileinto | .redirect => !c.2.copy
  | _ => false

/-- The action that a command adds in any case. -/
def actionOf : Verb → Option ActionType
  | .keep => some .keep
  | .fileinto => some .fileinto
  | .redirect => some .redirect
  | .reject => some .reject
  | _ => none

/-- The implicit keep is the keep that the script could have reached; there always is an action,
    and none that keeps, files, redirects or rejects the message only after a `discard`. -/
structure KeepsImplicitly (script : Bytes) (m : Message) : Prop where
  keep : ∀ {program}, programOf script = .ok program →
    (∀ c ∈ executed parseAddressList script m, cancels c = false) →
    evaluate parseAddressList script m = evaluateKeeping parseAddressList program m
  nonempty : (evaluate parseAddressList script m).actions ≠ []
  discarded : (∀ a ∈ (evaluate parseAddressList script m).actions,
      a.type ∉ [.keep, .fileinto, .redirect, .reject]) →
    ∃ args, (.discard, args) ∈ executed parseAddressList script m

end Executed

/-! ## What the commands do to the runner -/

/-- A runner after the commands `done`: they alone cancel the implicit keep, and they alone add
    actions, vacation replies apart. -/
structure Follows (r r' : Runner) (done : List (Verb × Args)) : Prop where
  cancel : r'.cancelImplicitKeep = (r.cancelImplicitKeep || done.any cancels)
  actions : ∀ {t : ActionType}, t ≠ .vacation → ((∃ a ∈ r'.actions, a.type = t) ↔
    (∃ a ∈ r.actions, a.type = t) ∨ ∃ c ∈ done, actionOf c.1 = some t)

theorem Follows.nil {r r' : Runner} (hcancel : r'.cancelImplicitKeep = r.cancelImplicitKeep)
    (hactions : r'.actions = r.actions) : Follows r r' [] where
  cancel := by simp [hcancel]
  actions := by simp [hactions]

theorem Follows.trans {r r' r'' : Runner} {done done' : List (Verb × Args)}
    (h : Follows r r' done) (h' : Follows r' r'' done') : Follows r r'' (done ++ done') where
  cancel := by rw [h'.cancel, h.cancel, List.any_append, Bool.or_assoc]
  actions := by
    intro t ht
    rw [h'.actions ht, h.actions ht]
    simp only [List.mem_append, or_and_right, exists_or]
    exact or_assoc

theorem follows_act (parseAddressList : Bytes → List Bytes) (m : Message) (v : Verb) (args : Args)
    (r : Runner) : Follows r (r.act parseAddressList m v args) [(v, args)] := by
  have hadded {r : Runner} {a : Action} {t : ActionType} :
      (∃ b ∈ r.actions ++ [a], b.type = t) ↔ (∃ b ∈ r.actions, b.type = t) ∨ a.type = t := by
    simp
  cases v with
  | stop | set | setflag | addflag | removeflag | discard =>
    constructor
    · simp [Runner.act, cancels]
    · intro t _
      simp [Runner.act, actionOf]
  | keep | fileinto | redirect | reject =>
    constructor
    · simp [Runner.act, Runner.deliver, cancels]
    · intro t _
      simp only [Runner.act, Runner.deliver, hadded, List.mem_singleton, exists_eq_left, actionOf,
        Option.some.injEq]
  | vacation =>
    constructor
    · rw [Runner.act, Runner.vacate]
      split_ifs <;> simp [cancels]
    · intro t ht
      rw [Runner.act, Runner.vacate]
      split_ifs
      · simp [actionOf]
      · simp [actionOf]
      · simp [actionOf, vacationAction, ht.symm]

section Run

variable (parseAddressList : Bytes → List Bytes)

/-- The captures of a test change neither. -/
theorem Follows.captures {r r' : Runner} {vars : Variables} {done : List (Verb × Args)}
    (h : Follows { r with vars := vars } r' done) : Follows r r' done :=
  ⟨h.cancel, h.actions⟩

mutual

theorem follows_run (m : Message) : ∀ (cs : List Command) (r : Runner),
    Follows r (run parseAddressList m cs r) (trace parseAddressList m cs r)
  | [], r => by
    rw [run, trace]
    exact .nil rfl rfl
  | c :: cs, r => by
    rw [run, trace]
    split_ifs
    · exact .nil rfl rfl
    · exact (follows_command m c r).trans
        (follows_run m cs (runCommand parseAddressList m c r))

theorem follows_command (m : Message) : ∀ (c : Command) (r : Runner),
    Follows r (runCommand parseAddressList m c r) (traceCommand parseAddressList m c r)
  | .require _, r => by
    rw [runCommand, traceCommand]
    exact .nil rfl rfl
  | .if' branches, r => by
    rw [runCommand, traceCommand]
    exact follows_branches m branches r
  | .act v args, r => by
    rw [runCommand, traceCommand]
    exact follows_act parseAddressList m v args r

theorem follows_branches (m : Message) : ∀ (bs : List Branch) (r : Runner),
    Follows r (runBranches parseAddressList m bs r) (traceBranches parseAddressList m bs r)
  | [], r => by
    rw [runBranches, traceBranches]
    exact .nil rfl rfl
  | .mk none body :: _, r => by
    rw [runBranches, traceBranches]
    exact follows_run m body r
  | .mk (some test) body :: branches, r => by
    rw [runBranches, traceBranches]
    generalize evalTest parseAddressList m r.flags test r.vars = outcome
    obtain ⟨found, vars⟩ := outcome
    cases found with
    | true => exact (follows_run m body { r with vars := vars }).captures
    | false => exact (follows_branches m branches { r with vars := vars }).captures

end

/-! ## The result -/

variable {parseAddressList} {script : Bytes} {m : Message} {program : List Command}

theorem evaluate_eq (hprogram : programOf script = .ok program) :
    evaluate parseAddressList script m = (runProgram parseAddressList m program).settle := by
  rw [programOf] at hprogram
  rw [evaluate]
  split_ifs at hprogram ⊢ with hblank
  · cases hprogram
    rfl
  · rw [hprogram]

theorem evaluate_eq_error {err : Bytes} (hprogram : programOf script = .error err) :
    evaluate parseAddressList script m = ⟨[{ type := .keep }], err⟩ := by
  rw [programOf] at hprogram
  rw [evaluate]
  split_ifs at hprogram ⊢ with hblank
  rw [hprogram]

/-- What the run of a script leaves behind, by the commands that it executed. -/
theorem follows_program (hprogram : programOf script = .ok program) :
    Follows {} (runProgram parseAddressList m program)
      (executed parseAddressList script m) := by
  rw [executed, hprogram, runProgram]
  have h := follows_run parseAddressList m program
    { vars := { enabled := requires program (bytes "variables") } }
  exact ⟨h.cancel, h.actions⟩

theorem mem_addFlags_of_mem {f : Bytes} {add set : List Bytes} (h : f ∈ set) :
    f ∈ addFlags set add := by
  induction add generalizing set with
  | nil => exact h
  | cons g add ih =>
    rw [addFlags, List.foldl_cons]
    apply ih
    split_ifs
    · exact h
    · exact List.mem_append_left _ h

theorem addFlags_nil_iff {flags : List Bytes} : addFlags [] flags = [] ↔ flags = [] := by
  cases flags with
  | nil => simp [addFlags]
  | cons f flags =>
    have hmem : canonicalFlag f ∈ addFlags [] (f :: flags) := by
      rw [addFlags, List.foldl_cons, if_neg List.not_mem_nil]
      exact mem_addFlags_of_mem (by simp)
    simp only [reduceCtorEq, iff_false]
    intro h
    rw [h] at hmem
    exact List.not_mem_nil hmem

theorem settle_of_no_reject {r : Runner} (h : ∀ a ∈ r.actions, a.type ≠ .reject) :
    r.settle =
      if !r.cancelImplicitKeep then ⟨r.actions ++ [{ type := .keep }], []⟩
      else if r.actions = [] then ⟨[{ type := .discard }], []⟩
      else ⟨r.actions, []⟩ := by
  have hfind : r.actions.find? (fun a => a.type = .reject) = none := by
    simpa using h
  rw [Runner.settle, hfind]

/-- With nothing executed that cancels it, the implicit keep stands at the end without flags, and
    the `keep;` in its place with those of the internal set. -/
theorem keep_iff (hprogram : programOf script = .ok program)
    (hnone : ∀ c ∈ executed parseAddressList script m, cancels c = false) :
    evaluate parseAddressList script m = evaluateKeeping parseAddressList program m ↔
      (runProgram parseAddressList m program).flags = [] := by
  have hfollows := @follows_program parseAddressList script m program hprogram
  rw [evaluate_eq hprogram, evaluateKeeping]
  generalize runProgram parseAddressList m program = r at hfollows ⊢
  have hcancel : r.cancelImplicitKeep = false := by
    rw [hfollows.cancel]
    simpa using hnone
  have hreject : ∀ a ∈ r.actions, a.type ≠ .reject := by
    intro a ha htype
    obtain ⟨_, hempty, -⟩ | ⟨c, hc, haction⟩ :=
      (hfollows.actions (t := .reject) (by decide)).mp ⟨a, ha, htype⟩
    · cases hempty
    · obtain ⟨v, args⟩ := c
      have := hnone _ hc
      cases v <;> simp [actionOf, cancels] at haction this
  -- the `keep;` at the end
  let kept : Action := { type := .keep, flags := addFlags [] r.flags }
  have hkeep : (r.act parseAddressList m .keep {}).actions = r.actions ++ [kept] := rfl
  have hkept : (r.act parseAddressList m .keep {}).cancelImplicitKeep = true :=
    Bool.or_true _
  have hreject' : ∀ a ∈ (r.act parseAddressList m .keep {}).actions, a.type ≠ .reject := by
    intro a ha
    obtain ha | ha := List.mem_append.mp ha
    · exact hreject a ha
    · rw [List.mem_singleton.mp ha]
      intro htype
      cases htype
  have hne : r.actions ++ [kept] ≠ [] := by simp
  rw [settle_of_no_reject hreject, settle_of_no_reject hreject', hcancel, hkept, hkeep,
    Bool.not_false, if_pos rfl, Bool.not_true, if_neg Bool.false_ne_true, if_neg hne,
    Result.mk.injEq, List.append_cancel_left_eq, List.singleton_inj, Action.mk.injEq]
  simp only [true_and, and_true]
  rw [eq_comm, addFlags_nil_iff]

theorem evaluate_nonempty : (evaluate parseAddressList script m).actions ≠ [] := by
  cases hprogram : programOf script with
  | error err =>
    rw [evaluate_eq_error hprogram]
    simp
  | ok program =>
    rw [evaluate_eq hprogram, Runner.settle]
    split
    · simp
    · split_ifs with hcancel hempty
      · simp
      · simp
      · exact hempty

/-- Without a `discard` among the commands, one of the actions disposes of the message. -/
theorem evaluate_disposes
    (hdiscard : ∀ args, (.discard, args) ∉ executed parseAddressList script m) :
    ∃ a ∈ (evaluate parseAddressList script m).actions,
      a.type ∈ [.keep, .fileinto, .redirect, .reject] := by
  cases hprogram : programOf script with
  | error err =>
    rw [evaluate_eq_error hprogram]
    exact ⟨_, List.mem_singleton.mpr rfl, by decide⟩
  | ok program =>
    have hfollows := @follows_program parseAddressList script m program hprogram
    rw [evaluate_eq hprogram]
    generalize runProgram parseAddressList m program = r at hfollows ⊢
    rw [Runner.settle]
    split
    · next only honly =>
      have htype := List.find?_some honly
      simp only [decide_eq_true_eq] at htype
      exact ⟨only, List.mem_singleton.mpr rfl, by simp [htype]⟩
    · cases hcancel : r.cancelImplicitKeep with
      | false => exact ⟨{ type := .keep }, by simp, by decide⟩
      | true =>
        -- the command that cancelled it added its own action
        rw [hfollows.cancel] at hcancel
        simp only [Bool.false_or, List.any_eq_true] at hcancel
        obtain ⟨⟨v, args⟩, hc, hcancels⟩ := hcancel
        have haction : ∃ t, actionOf v = some t ∧ t ≠ .vacation ∧
            t ∈ [ActionType.keep, .fileinto, .redirect, .reject] := by
          cases v with
          | discard => exact absurd hc (hdiscard args)
          | keep | fileinto | redirect | reject => exact ⟨_, rfl, by decide, by decide⟩
          | _ => simp [cancels] at hcancels
        obtain ⟨t, ht, hvacation, hmem⟩ := haction
        obtain ⟨a, ha, rfl⟩ := (hfollows.actions hvacation).mpr (.inr ⟨_, hc, ht⟩)
        have hne : r.actions ≠ [] := List.ne_nil_of_mem ha
        exact ⟨a, by simpa [hne] using ha, hmem⟩

end Run

/-- The implicit keep is the keep that it stands for, where the internal flag set is empty at the
    end of the script.  The rest holds of every script. -/
theorem keepsImplicitly_iff (parseAddressList : Bytes → List Bytes) (script : Bytes)
    (m : Message) :
    KeepsImplicitly parseAddressList script m ↔
      ∀ program, programOf script = .ok program →
        (∀ c ∈ executed parseAddressList script m, cancels c = false) →
        (runProgram parseAddressList m program).flags = [] := by
  constructor
  · intro h program hprogram hnone
    exact (keep_iff hprogram hnone).mp (h.keep hprogram hnone)
  · intro h
    exact {
      keep := fun hprogram hnone => (keep_iff hprogram hnone).mpr (h _ hprogram hnone)
      nonempty := evaluate_nonempty
      discarded := fun hnone => by
        by_contra hdiscard
        simp only [not_exists] at hdiscard
        obtain ⟨a, ha, htype⟩ := @evaluate_disposes parseAddressList script m hdiscard
        exact hnone a ha htype }

/-- A message. -/
def anyMessage : Message := ⟨⟨[], [], [], []⟩, [], ⟨[], [], []⟩⟩

/-- `setflag "a";` keeps the message without the flag that `keep;` would give it. -/
theorem implicit_keep_without_flags :
    ¬ ∀ (parseAddressList : Bytes → List Bytes) (script : Bytes) (m : Message),
      KeepsImplicitly parseAddressList script m := by
  intro h
  let script := bytes "setflag \"a\";"
  let args : Args := { flags := [bytes "a"], hasFlags := true }
  have hlex : lex script 1 = .ok ([⟨.identifier (bytes "setflag"), 1⟩, ⟨.string (bytes "a"), 1⟩,
      ⟨.semicolon, 1⟩], 1) := by
    have hname : skipGap script 1 = (ch 's' :: bytes "etflag \"a\";", 1) := by decide +kernel
    have hreadName : readToken (ch 's') (bytes "etflag \"a\";") 1 =
        .ok (.identifier (bytes "setflag"), bytes " \"a\";", 1) := by decide +kernel
    have hflag : skipGap (bytes " \"a\";") 1 = (ch '"' :: bytes "a\";", 1) := by decide +kernel
    have hreadFlag : readToken (ch '"') (bytes "a\";") 1 =
        .ok (.string (bytes "a"), bytes ";", 1) := by decide +kernel
    have hend : skipGap (bytes ";") 1 = (ch ';' :: [], 1) := by decide +kernel
    have hreadEnd : readToken (ch ';') [] 1 = .ok (.semicolon, [], 1) := by decide +kernel
    rw [lex_eq hname hreadName, lex_eq hflag hreadFlag, lex_eq hend hreadEnd, lex_nil]
    rfl
  have hprogram : programOf script = .ok [.act .setflag args] := by
    have htrim : Delivery.trim script ≠ [] := by decide +kernel
    rw [programOf, if_neg htrim, parseInternal, hlex]
    rfl
  have hrun : (runProgram (fun _ => []) anyMessage [.act .setflag args]).flags ≠ [] := by
    decide +kernel
  have hnone : ∀ c ∈ executed (fun _ => []) script anyMessage, cancels c = false := by
    decide +kernel
  apply hrun
  exact (keep_iff hprogram hnone).mp ((h (fun _ => []) script anyMessage).keep hprogram hnone)

end QuackMail.Sieve
