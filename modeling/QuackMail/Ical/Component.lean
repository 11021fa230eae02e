import QuackMail.Ical.ContentLine

/-! # Calendar objects

The component tree of `ical.cpp`, its parser and its emitter.
-/

namespace QuackMail.Ical

open Contentline

/-- `Trim`. -/
def trim (s : Bytes) : Bytes :=
  trimBy (fun c => c == ch ' ' || c == ch '\t' || c == ch '\r' || c == ch '\n') s

/-! ## Properties and components -/

structure Property where
  /-- upper-cased. -/
  name : Bytes := []
  params : List (Bytes × Bytes) := []
  /-- escapes resolved. -/
  value : Bytes := []

/-- `Property::Param`. -/
def Property.param (p : Property) (name : Bytes) : Bytes :=
  match p.params.find? (fun kv => kv.1 == upper name) with
  | none => []
  | some kv => kv.2

inductive Component where
  | mk (name : Bytes) (props : List Property) (children : List Component)

namespace Component

def name : Component → Bytes
  | mk name _ _ => name

def props : Component → List Property
  | mk _ props _ => props

def children : Component → List Component
  | mk _ _ children => children

/-- `Component::Find`. -/
def find (c : Component) (name : Bytes) : Option Property :=
  c.props.find? fun p => p.name == upper name

/-- `Component::Get`. -/
def get (c : Component) (name : Bytes) : Bytes :=
  match c.find name with
  | none => []
  | some p => p.value

/-- Give the first property of a name a value, or add one. -/
def setIn (name value : Bytes) : List Property → List Property
  | [] => [{ name := name, value := value }]
  | p :: props => if p.name = name then { p with value := value } :: props
    else p :: setIn name value props

/-- `Component::Set`. -/
def set (c : Component) (name value : Bytes) : Component :=
  mk c.name (setIn (upper name) value c.props) c.children

def addProp (c : Component) (p : Property) : Component := mk c.name (c.props ++ [p]) c.children

def addChild (c child : Component) : Component := mk c.name c.props (c.children ++ [child])

end Component

/-! ## Parsing -/

/-- The colon that ends a line's name and parameters: not one inside quotes. -/
def findColon (quoted : Bool) : Bytes → Option Nat
  | [] => none
  | c :: s =>
    if c = ch '"' then (findColon (!quoted) s).map (· + 1)
    else if c = ch ':' ∧ quoted = false then some 0
    else (findColon quoted s).map (· + 1)

/-- The parts of a line's head: split at `;` outside quotes, and without the quotes. -/
def headParts (quoted : Bool) (cur : Bytes) : Bytes → List Bytes
  | [] => [cur]
  | c :: s =>
    if c = ch '"' then headParts (!quoted) cur s
    else if c = ch ';' ∧ quoted = false then cur :: headParts quoted [] s
    else headParts quoted (cur ++ [c]) s

/-- A parameter; a part without `=` is none. -/
def parseParam (part : Bytes) : Option (Bytes × Bytes) :=
  let kv := trim part
  match findChar (ch '=') kv with
  | none => none
  | some eq => some (upper (trim (kv.take eq)), trim (kv.drop (eq + 1)))

/-- The name and the parameters of a line's head; a head without a name is none. -/
def parseHead (head : Bytes) : Option (Bytes × List (Bytes × Bytes)) :=
  match headParts false [] head with
  | [] => none
  | part :: parts =>
    if trim part = [] then none else some (upper (trim part), parts.filterMap parseParam)

/-- A property whose value is structure and stays as it is written. -/
def isRule (name : Bytes) : Bool := name == bytes "RRULE" || name == bytes "EXRULE"

/-- The open components, the innermost first, and the root once it is closed. -/
structure ParseState where
  stack : List Component := []
  root : Option Component := none

/-- `BEGIN`. -/
def ParseState.begin (st : ParseState) (name : Bytes) : ParseState :=
  { st with stack := .mk name [] [] :: st.stack }

/-- `END`: the component goes to its parent; one that has none is the root if it is a
    `VCALENDAR`. -/
def ParseState.finish (st : ParseState) : ParseState :=
  match st.stack with
  | [] => st
  | [done] =>
    if done.name = bytes "VCALENDAR" then { stack := [], root := some done }
    else { st with stack := [] }
  | done :: parent :: stack => { st with stack := parent.addChild done :: stack }

/-- A property of the innermost component; outside of any it is dropped. -/
def ParseState.property (st : ParseState) (p : Property) : ParseState :=
  match st.stack with
  | [] => st
  | c :: stack => { st with stack := c.addProp p :: stack }

/-- One turn of the loop of `Parse`. -/
def parseLine (st : ParseState) (raw : Bytes) : ParseState :=
  let line := trim raw
  match findColon false line with
  | none => st
  | some colon =>
    match parseHead (line.take colon) with
    | none => st
    | some (name, params) =>
      let value := line.drop (colon + 1)
      if name = bytes "BEGIN" then st.begin (upper (trim value))
      else if name = bytes "END" then st.finish
      else
        st.property
          { name := name, params := params, value := if isRule name then value else unescape value }

/-- `Parse`: `none` where there is no `VCALENDAR`. -/
def parse (text : Bytes) : Option Component := ((unfoldLines text).foldl parseLine {}).root

/-! ## Emitting -/

/-- A parameter as a line has it. -/
def emitParam (kv : Bytes × Bytes) : Bytes :=
  ch ';' :: kv.1 ++ ch '=' ::
    if kv.2.any fun c => c == ch ':' || c == ch ';' || c == ch ',' then
      ch '"' :: kv.2 ++ [ch '"']
    else kv.2

/-- The line of a property. -/
def emitProp (p : Property) : Bytes :=
  p.name ++ p.params.flatMap emitParam ++
    ch ':' :: if isRule p.name then p.value else escape p.value

mutual

/-- The lines `EmitComponent` appends for a component. -/
def Component.lines : Component → List Bytes
  | .mk name props children =>
    (bytes "BEGIN:" ++ name) :: props.map emitProp ++ linesOfAll children ++ [bytes "END:" ++ name]

def linesOfAll : List Component → List Bytes
  | [] => []
  | c :: cs => c.lines ++ linesOfAll cs

end

/-- `Emit`. -/
def emit (root : Component) : Bytes := root.lines.flatMap appendFolded

end QuackMail.Ical
