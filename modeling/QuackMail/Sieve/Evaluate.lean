import QuackMail.Sieve.Tests

/-! # Running a Sieve script

`Runner`, `Evaluate` and `Check` of `sieve.cpp`.
-/

namespace QuackMail.Sieve

open Delivery (Parsed Envelope trim)

/-! ## Actions -/

/-- The tagged arguments of `vacation`. -/
structure VacationSpec where
  subject : Bytes := []
  «from» : Bytes := []
  handle : Bytes := []
  addresses : List Bytes := []
  days : Int32 := 7
  mime : Bool := false

inductive ActionType where
  | keep
  | fileinto
  | redirect
  | reject
  | discard
  | vacation
  deriving DecidableEq

structure Action where
  type : ActionType := .keep
  folder : Bytes := []
  address : Bytes := []
  reason : Bytes := []
  create : Bool := false
  flags : List Bytes := []
  vacation : VacationSpec := {}

structure Result where
  actions : List Action
  error : Bytes

/-! ## Flags -/

/-- The words of a text. -/
def words (s : Bytes) : List Bytes :=
  match _hword : s.dropWhile isSpace with
  | [] => []
  | c :: rest =>
    (c :: rest.takeWhile fun d => !isSpace d) :: words (rest.dropWhile fun d => !isSpace d)
termination_by s.length
decreasing_by
  have hspace : (s.dropWhile isSpace).length ≤ s.length := (List.dropWhile_suffix _).length_le
  rw [_hword, List.length_cons] at hspace
  exact Nat.lt_of_le_of_lt (List.dropWhile_suffix _).length_le hspace

/-- `SplitFlags`: one string may hold several flags. -/
def splitFlags (flags : List Bytes) (vars : Variables) : List Bytes :=
  flags.flatMap fun s => words (expand vars s)

def systemFlags : List Bytes :=
  [bytes "\\Seen", bytes "\\Answered", bytes "\\Flagged", bytes "\\Deleted", bytes "\\Draft"]

/-- `CanonicalFlag`. -/
def canonicalFlag (flag : Bytes) : Bytes :=
  (systemFlags.find? fun s => lower flag == lower s).getD flag

/-- `AddFlags`. -/
def addFlags (set add : List Bytes) : List Bytes :=
  add.foldl
    (fun set f => if canonicalFlag f ∈ set then set else set ++ [canonicalFlag f]) set

/-- `RemoveFlags`. -/
def removeFlags (set drop : List Bytes) : List Bytes :=
  drop.foldl (fun set f => set.filter fun g => g ≠ canonicalFlag f) set

/-! ## `VacationRefusal` -/

section Run

variable (parseAddressList : Bytes → List Bytes)

/-- `CollectAddrs`. -/
def collectAddrs (msg : Parsed) (header : Bytes) : List Bytes :=
  (headerValues msg header).flatMap fun value =>
    ((parseAddressList value).filter fun a => a ≠ []).map lower

def listHeaders : List Bytes :=
  [bytes "List-Id", bytes "List-Help", bytes "List-Unsubscribe", bytes "List-Post",
    bytes "List-Subscribe", bytes "List-Owner", bytes "List-Archive"]

/-- The local parts that no person has. -/
def isRobot («local» : Bytes) : Bool :=
  «local» ∈ [bytes "mailer-daemon", bytes "postmaster", bytes "listserv", bytes "majordomo"] ||
    [bytes "-request", bytes "-bounces", bytes "-confirm"].any (fun s =>
      decide (s.length < «local».length) && s.isSuffixOf «local») ||
    [bytes "owner-", bytes "bounce-"].any (fun s =>
      decide (s.length < «local».length) && s.isPrefixOf «local»)

/-- `VacationRefusal`: why no automatic reply is sent. -/
def vacationRefusal (m : Message) (addresses : List Bytes) : Option Bytes :=
  let mine := (m.env.rcptTo :: addresses).map fun a => lower (trim a)
  let sender := lower (trim m.env.mailFrom)
  let recipients :=
    [bytes "To", bytes "Cc", bytes "Bcc", bytes "Resent-To", bytes "Resent-Cc"].flatMap
      (collectAddrs parseAddressList m.msg)
  if trim m.env.mailFrom = [] then some (bytes "the message has no envelope sender")
  else if (headerValues m.msg (bytes "Auto-Submitted")).any fun v =>
      lower (trim (v.takeWhile (· ≠ ch ';'))) ≠ bytes "no" then
    some (bytes "the message is Auto-Submitted")
  else if (headerValues m.msg (bytes "Precedence")).any fun v =>
      lower (trim v) ∈ [bytes "bulk", bytes "list", bytes "junk"] then
    some (bytes "the message is bulk or list mail")
  else if listHeaders.any fun h => headerValues m.msg h ≠ [] then
    some (bytes "the message came from a mailing list")
  else if mine.any fun a => a ≠ [] && a == sender then
    some (bytes "the message is from the user themselves")
  else if isRobot (sender.takeWhile (· ≠ ch '@')) then
    some (bytes "the sender is an automated address")
  else if mine.any fun a => a ≠ [] && recipients.contains a then none
  else some (bytes "the user is not a visible recipient")

/-! ## The runner -/

structure Runner where
  vars : Variables := {}
  flags : List Bytes := []
  actions : List Action := []
  cancelImplicitKeep : Bool := false
  stopped : Bool := false

/-- `FlagsFor`: a command's own flags, or the internal set. -/
def Runner.flagsFor (r : Runner) (args : Args) : List Bytes :=
  addFlags [] (if args.hasFlags then splitFlags args.flags r.vars else r.flags)

/-- An action that settles where the message goes. -/
def Runner.deliver (r : Runner) (a : Action) (cancel : Bool) : Runner :=
  { r with
    actions := r.actions ++ [a]
    cancelImplicitKeep := r.cancelImplicitKeep || cancel }

/-- `:quotewildcard`. -/
def quoteWildcards (s : Bytes) : Bytes :=
  s.flatMap fun c => if c = ch '*' ∨ c = ch '?' ∨ c = ch '\\' then [ch '\\', c] else [c]

def mapFirst (f : Byte → Byte) : Bytes → Bytes
  | [] => []
  | c :: s => f c :: s

/-- `ApplyModifiers`, by precedence. -/
def applyModifiers (value : Bytes) (modifiers : List Modifier) : Bytes :=
  let value := if .quotewildcard ∈ modifiers then quoteWildcards value else value
  if .length ∈ modifiers then num value.length
  else
    let value :=
      if .lower ∈ modifiers then lower value
      else if .upper ∈ modifiers then upper value
      else value
    if .lowerfirst ∈ modifiers then mapFirst toLower value
    else if .upperfirst ∈ modifiers then mapFirst toUpper value
    else value

/-- The silence window of a `vacation`: a week, and at most a year. -/
def vacationDays (days : Int) : Int32 :=
  if 0 < days then Int32.ofInt (min days 365) else 7

/-- The action of a `vacation`. -/
def vacationAction (vars : Variables) (args : Args) : Action :=
  { type := .vacation
    reason := expand vars args.argument
    vacation :=
      { subject := expand vars args.vacSubject
        «from» := expand vars args.vacFrom
        handle := expand vars args.vacHandle
        addresses := expandAll vars args.vacAddresses
        mime := args.vacMime
        days := vacationDays args.vacDays } }

/-- `vacation`: at most one reply for a message, and none that the message refuses. -/
def Runner.vacate (r : Runner) (m : Message) (args : Args) : Runner :=
  if r.actions.any fun a => a.type = .vacation then r
  else if vacationRefusal parseAddressList m (vacationAction r.vars args).vacation.addresses ≠ none
  then r
  else { r with actions := r.actions ++ [vacationAction r.vars args] }

/-- A command other than `require` and `if`. -/
def Runner.act (r : Runner) (m : Message) (v : Verb) (args : Args) : Runner :=
  match v with
  | .stop => { r with stopped := true }
  | .keep => r.deliver { type := .keep, flags := r.flagsFor args } true
  | .discard => { r with cancelImplicitKeep := true }
  | .fileinto =>
    r.deliver
      { type := .fileinto
        folder := expand r.vars args.argument
        create := args.create
        flags := r.flagsFor args }
      !args.copy
  | .redirect =>
    r.deliver { type := .redirect, address := expand r.vars args.argument } !args.copy
  | .reject =>
    { r.deliver { type := .reject, reason := expand r.vars args.argument } true with
      stopped := true }
  | .set =>
    { r with
      vars := r.vars.set args.varName
        (applyModifiers (expand r.vars args.argument) args.modifiers) }
  | .setflag => { r with flags := addFlags [] (splitFlags args.flags r.vars) }
  | .addflag => { r with flags := addFlags r.flags (splitFlags args.flags r.vars) }
  | .removeflag => { r with flags := removeFlags r.flags (splitFlags args.flags r.vars) }
  | .vacation => r.vacate parseAddressList m args

mutual

/-- `Run`: the commands of a block until one stops the script. -/
def run (m : Message) : List Command → Runner → Runner
  | [], r => r
  | c :: cs, r => if r.stopped then r else run m cs (runCommand m c r)

def runCommand (m : Message) : Command → Runner → Runner
  | .require _, r => r
  | .if' branches, r => runBranches m branches r
  | .act v args, r => r.act parseAddressList m v args

/-- The first branch whose test holds, or the `else`. -/
def runBranches (m : Message) : List Branch → Runner → Runner
  | [], r => r
  | .mk none body :: _, r => run m body r
  | .mk (some test) body :: branches, r =>
    let (found, vars) := evalTest parseAddressList m r.flags test r.vars
    if found then run m body { r with vars := vars }
    else runBranches m branches { r with vars := vars }

end

/-- `Requires`: the script asks for an extension at its top level. -/
def requires (program : List Command) (capability : Bytes) : Bool :=
  program.any fun c =>
    match c with
    | .require capabilities => capabilities.any fun c => lower (trim c) == capability
    | _ => false

/-- The runner after a script that parses. -/
def runProgram (m : Message) (program : List Command) : Runner :=
  run parseAddressList m program
    { vars := { enabled := requires program (bytes "variables") } }

/-! ## `Evaluate` -/

/-- A `reject` stands alone; without a delivering action the message is still kept. -/
def Runner.settle (r : Runner) : Result :=
  match r.actions.find? fun a => a.type = .reject with
  | some only => ⟨[only], []⟩
  | none =>
    if !r.cancelImplicitKeep then ⟨r.actions ++ [{ type := .keep }], []⟩
    else if r.actions = [] then ⟨[{ type := .discard }], []⟩
    else ⟨r.actions, []⟩

/-- `Evaluate`: a script that does not parse keeps the message. -/
def evaluate (script : Bytes) (m : Message) : Result :=
  if trim script = [] then ⟨[{ type := .keep }], []⟩
  else
    match parseInternal script with
    | .error err => ⟨[{ type := .keep }], err⟩
    | .ok program => (runProgram parseAddressList m program).settle

end Run

/-- `Check`. -/
def check (script : Bytes) : Except Bytes Unit :=
  if trim script = [] then .ok () else (parseInternal script).map fun _ => ()

end QuackMail.Sieve
