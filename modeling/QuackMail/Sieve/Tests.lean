import QuackMail.Delivery.LocalDeliver
import QuackMail.Sieve.Parser

/-! # The tests of Sieve scripts

`EvalTest` of `sieve.cpp` and what it stands on: variables, the `:matches` patterns, the
header values and the address parts.  A test reads the flags and may set the captures of
the variables.
-/

namespace QuackMail.Sieve

open Delivery (Parsed Envelope trim)

/-! ## Variables -/

structure Variables where
  named : List (Bytes × Bytes) := []
  captures : List Bytes := []
  enabled : Bool := false

def kMaxNames : Nat := 128

def kMaxValue : Nat := 4096

/-- `Variables::Set`: over a limit the assignment is dropped. -/
def Variables.set (vars : Variables) (name value : Bytes) : Variables :=
  let key := lower (trim name)
  if kMaxValue < value.length then vars
  else if vars.named.lookup key = none ∧ kMaxNames ≤ vars.named.length then vars
  else { vars with named := (key, value) :: vars.named.filter fun v => v.1 ≠ key }

/-- `Variables::Get`. -/
def Variables.get (vars : Variables) (name : Bytes) : Bytes :=
  let key := lower (trim name)
  match key with
  | [c] =>
    if isDigit c then (vars.captures[c.toNat - 48]?).getD []
    else (vars.named.lookup key).getD []
  | _ => (vars.named.lookup key).getD []

/-- Names with dots between them; `start` is where a name must follow. -/
def isQualified (start : Bool) : Bytes → Bool
  | [] => !start
  | c :: s =>
    if start then (isAlpha c || c == ch '_') && isQualified false s
    else if c = ch '.' then isQualified true s
    else (isAlnum c || c == ch '_') && isQualified false s

def validVariableName (name : Bytes) : Bool :=
  if name = [] ∨ 128 < name.length then false
  else if name.all isDigit then name.length == 1
  else isQualified true name

/-- A reference at the front of a text: its name and what is after it. -/
def reference : Bytes → Option (Bytes × Bytes)
  | c :: d :: s =>
    if c = ch '$' ∧ d = ch '\x7b' then
      match findChar (ch '\x7d') s with
      | some close =>
        if validVariableName (s.take close) then some (s.take close, s.drop (close + 1)) else none
      | none => none
    else none
  | _ => none

theorem length_reference {s name rest : Bytes} (h : reference s = some (name, rest)) :
    rest.length < s.length := by
  rw [reference.eq_def] at h
  split at h
  · next c d s =>
    split_ifs at h
    split at h
    · split_ifs at h
      simp only [Option.some.injEq, Prod.mk.injEq] at h
      rw [← h.2, List.length_drop, List.length_cons, List.length_cons]
      omega
    · simp at h
  · simp at h

/-- The loop of `Expand`. -/
def expandFrom (vars : Variables) (s : Bytes) : Bytes :=
  match s with
  | [] => []
  | c :: s' =>
    match _href : reference (c :: s') with
    | some (name, rest) => vars.get name ++ expandFrom vars rest
    | none => c :: expandFrom vars s'
termination_by s.length
decreasing_by
  · exact length_reference _href
  · simp

/-- `Expand`. -/
def expand (vars : Variables) (s : Bytes) : Bytes :=
  if !vars.enabled || find (bytes "$\x7b") s = none then s else expandFrom vars s

/-- `ExpandAll`. -/
def expandAll (vars : Variables) (l : List Bytes) : List Bytes :=
  if vars.enabled then l.map (expand vars) else l

/-! ## `:matches` -/

def kMaxSteps : Nat := 2000000

/-- What a `Globber` changes. -/
structure GlobState where
  steps : Nat
  caps : List Bytes

/-- `Record`. -/
def GlobState.record (st : GlobState) (which : Nat) (text : Bytes) : GlobState :=
  { st with caps := st.caps.set which text }

def same (fold : Bool) (a b : Byte) : Bool := if fold then toLower a == toLower b else a == b

/-- The loop of a `*`, shortest first: `whole` is the value from the `*` on, the list what is
    left of it where the rest of the pattern is tried. -/
def starLoop (rest : Bytes → GlobState → Bool × GlobState) (which : Nat) (whole : Bytes) :
    Bytes → GlobState → Bool × GlobState
  | [], st =>
    let (found, st) := rest [] st
    if found then (true, st.record which whole) else (false, st)
  | c :: v, st =>
    let (found, st) := rest (c :: v) st
    if found then (true, st.record which (whole.take (whole.length - (c :: v).length)))
    else if kMaxSteps < st.steps then (false, st)
    else starLoop rest which whole v st

/-- The loop of `Globber::Match`, on what is left of the pattern and of the value; `which`
    counts the wildcards before. -/
def globLoop (fold : Bool) : Bytes → Nat → Bytes → GlobState → Bool × GlobState
  | [], _, v, st => (v.isEmpty, st)
  | pc :: p, which, v, st =>
    if pc = ch '*' then
      starLoop
        (fun v st =>
          if kMaxSteps < st.steps + 1 then (false, { st with steps := st.steps + 1 })
          else globLoop fold p (which + 1) v { st with steps := st.steps + 1 })
        (which + 1) v v st
    else
      match v with
      | [] => (false, st)
      | c :: v' =>
        if pc = ch '?' then globLoop fold p (which + 1) v' (st.record (which + 1) [c])
        else
          match p with
          | [] => (same fold c pc && v'.isEmpty, st)
          | qc :: p' =>
            if pc = ch '\\' then
              if same fold c qc then globLoop fold p' which v' st else (false, st)
            else if same fold c pc then globLoop fold (qc :: p') which v' st
            else (false, st)

/-- The wildcards of a pattern. -/
def wildcards : Bytes → Nat
  | [] => 0
  | [pc] => if pc = ch '*' ∨ pc = ch '?' then 1 else 0
  | pc :: qc :: p =>
    if pc = ch '\\' then wildcards p
    else if pc = ch '*' ∨ pc = ch '?' then wildcards (qc :: p) + 1
    else wildcards (qc :: p)

/-- `GlobMatch`: whether the value matches, and the captures. -/
def globMatch (value pattern : Bytes) (fold : Bool) : Bool × List Bytes :=
  let start : GlobState := ⟨1, List.replicate (wildcards pattern + 1) []⟩
  let (found, st) := globLoop fold pattern 0 value start
  (found, st.caps.set 0 value)

/-! ## Matching -/

/-- `MatchOne`, with the captures of a pattern. -/
def matchOne (value key : Bytes) (t : MatchType) (comparator : Bytes) : Bool × List Bytes :=
  let fold := comparator ≠ bytes "i;octet"
  let v := if fold then lower value else value
  let k := if fold then lower key else key
  match t with
  | .matches => globMatch value key fold
  | .contains => ((find k v).isSome, [])
  | .is => (v == k, [])

/-- The keys of `MatchAny` against one value. -/
def matchKeys (value : Bytes) (t : MatchType) (comparator : Bytes) (vars : Variables) :
    List Bytes → Bool × Variables
  | [] => (false, vars)
  | key :: keys =>
    let (found, caps) := matchOne value (expand vars key) t comparator
    if found then
      (true, if vars.enabled && t = .matches then { vars with captures := caps } else vars)
    else matchKeys value t comparator vars keys

/-- `MatchAny`. -/
def matchAny (keys : List Bytes) (t : MatchType) (comparator : Bytes) (vars : Variables) :
    List Bytes → Bool × Variables
  | [] => (false, vars)
  | value :: values =>
    let (found, vars') := matchKeys value t comparator vars keys
    if found then (true, vars') else matchAny keys t comparator vars values

/-! ## The values of a message -/

/-- A message with its raw text and envelope. -/
structure Message where
  msg : Parsed
  raw : Bytes
  env : Envelope

/-- `HeaderValues`. -/
def headerValues (msg : Parsed) (name : Bytes) : List Bytes :=
  (msg.headers.filter fun h => lower (trim h.1) = lower (trim name)).map fun h => trim h.2

/-- `AddressPart`; `:detail` of an address without one is no value. -/
def addressPart (addr : Bytes) (part : AddressPart) (sep : Bytes) : Option Bytes :=
  let «at» := rfindChar (ch '@') addr
  let «local» := match «at» with
    | some k => addr.take k
    | none => addr
  let cut := if sep = [] then none else find sep «local»
  match part with
  | .all => some addr
  | .localpart => some «local»
  | .domain =>
    match «at» with
    | some k => some (addr.drop (k + 1))
    | none => some []
  | .user =>
    match cut with
    | some k => some («local».take k)
    | none => some «local»
  | .detail =>
    match cut with
    | some k => some («local».drop (k + sep.length))
    | none => none

/-- Everything after the empty line. -/
def bodyText (raw : Bytes) : Bytes :=
  match find (bytes "\r\n\r\n") raw with
  | some k => raw.drop (k + 4)
  | none =>
    match find (bytes "\n\n") raw with
    | some k => raw.drop (k + 2)
    | none => []

/-- The parts of the envelope that a name stands for. -/
def envelopeValues (env : Envelope) (part : AddressPart) (name : Bytes) : List Bytes :=
  let n := lower (trim name)
  if n = bytes "from" then (addressPart env.mailFrom part env.separator).toList
  else if n = bytes "to" then (addressPart env.rcptTo part env.separator).toList
  else []

/-! ## `EvalTest` -/

section Eval

-- the addresses of `mime::ParseAddressList`
variable (parseAddressList : Bytes → List Bytes)

def addressValues (msg : Parsed) (part : AddressPart) (name : Bytes) : List Bytes :=
  (headerValues msg name).flatMap fun value =>
    ((parseAddressList value).filter fun a => a ≠ []).filterMap fun a =>
      addressPart a part (bytes "+")

mutual

/-- `EvalTest`; the variables come back with the captures of a match. -/
def evalTest (m : Message) (flags : List Bytes) : Test → Variables → Bool × Variables
  | .always, vars => (true, vars)
  | .never, vars => (false, vars)
  | .not child, vars =>
    let (found, vars) := evalTest m flags child vars
    (!found, vars)
  | .anyof children, vars => evalAny m flags children vars
  | .allof children, vars => evalAll m flags children vars
  | .exists' names, vars =>
    (names.all fun n => headerValues m.msg (expand vars n) ≠ [], vars)
  | .size tags limit, vars =>
    (if tags.sizeRelation = some .over then limit < m.raw.length else m.raw.length < limit, vars)
  | .header tags names keys, vars =>
    matchAny keys tags.matchType tags.comparator vars
      (names.flatMap fun n => headerValues m.msg (expand vars n))
  | .address tags names keys, vars =>
    matchAny keys tags.matchType tags.comparator vars
      (names.flatMap fun n => addressValues parseAddressList m.msg tags.addressPart (expand vars n))
  | .envelope tags names keys, vars =>
    matchAny keys tags.matchType tags.comparator vars
      (names.flatMap fun n => envelopeValues m.env tags.addressPart n)
  | .body tags keys, vars =>
    matchAny keys (if tags.matchType = .is then .contains else tags.matchType) tags.comparator
      vars [bodyText m.raw]
  | .string tags names keys, vars =>
    matchAny keys tags.matchType tags.comparator vars (names.map (expand vars))
  | .hasflag tags _ keys, vars =>
    matchAny keys tags.matchType tags.comparator vars flags

def evalAny (m : Message) (flags : List Bytes) : List Test → Variables → Bool × Variables
  | [], vars => (false, vars)
  | t :: ts, vars =>
    let (found, vars) := evalTest m flags t vars
    if found then (true, vars) else evalAny m flags ts vars

def evalAll (m : Message) (flags : List Bytes) : List Test → Variables → Bool × Variables
  | [], vars => (true, vars)
  | t :: ts, vars =>
    let (found, vars) := evalTest m flags t vars
    if found then evalAll m flags ts vars else (false, vars)

end

end Eval

end QuackMail.Sieve
