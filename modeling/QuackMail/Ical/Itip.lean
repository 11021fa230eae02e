import QuackMail.Ical.Component

/-! # Scheduling messages

`ApplyReply` and `Receive` of `itip.cpp`.  A user's Calendar room is the map from UIDs to the
objects filed under them.
-/

namespace QuackMail.Itip

open Ical

/-! ## Addresses, parameters and sequence numbers -/

def isScheduled (c : Component) : Bool := c.name == bytes "VEVENT" || c.name == bytes "VTODO"

/-- `AddressOf`: empty for what is no mail address. -/
def addressOf (calAddress : Bytes) : Bytes :=
  let v := trimBy (fun c => c == ch ' ' || c == ch '\t') calAddress
  let address :=
    if bytes "mailto:" <+: lower v then some (v.drop 7)
    else if ch ':' ∈ v then none
    else some v
  match address with
  | none => []
  | some v => if ch '@' ∉ v ∨ ch ' ' ∈ v then [] else lower v

/-- `SetParam` on a list of parameters. -/
def setKey (name value : Bytes) : List (Bytes × Bytes) → List (Bytes × Bytes)
  | [] => [(name, value)]
  | kv :: params =>
    if upper kv.1 = name then (kv.1, value) :: params else kv :: setKey name value params

/-- `SetParam`. -/
def setParam (p : Property) (name value : Bytes) : Property :=
  { p with params := setKey name value p.params }

/-- `SequenceOf`. -/
def sequenceOf (c : Component) : Int := strtoll (c.get (bytes "SEQUENCE"))

/-- `FirstScheduled`. -/
def firstScheduled (root : Component) : Option Component := root.children.find? isScheduled

def isAttendee (p : Property) : Bool := upper p.name == bytes "ATTENDEE"

/-! ## `ApplyReply` -/

/-- What the innermost loop does to a stored property. -/
def answerProp (who partstat : Bytes) (hp : Property) : Property :=
  if isAttendee hp = false ∨ addressOf hp.value ≠ who then hp
  else setParam (setParam hp (bytes "PARTSTAT") (upper partstat)) (bytes "RSVP") (bytes "FALSE")

/-- One property of a reply against a stored component; the flag is `changed`. -/
def answerLine (hc : Component × Bool) (rp : Property) : Component × Bool :=
  if isAttendee rp = false then hc
  else
    let who := addressOf rp.value
    let partstat := rp.param (bytes "PARTSTAT")
    if who = [] ∨ partstat = [] then hc
    else
      (.mk hc.1.name (hc.1.props.map (answerProp who partstat)) hc.1.children,
        hc.2 || hc.1.props.any fun hp => isAttendee hp && addressOf hp.value == who)

/-- Whether a component of a reply is applied to a stored one: it has its UID and is not
    older. -/
def applies (rc hc : Component) : Bool :=
  isScheduled hc && hc.get (bytes "UID") == rc.get (bytes "UID") &&
    !(rc.get (bytes "SEQUENCE") != [] && sequenceOf rc < sequenceOf hc)

/-- One component of a reply against the stored ones. -/
def applyComponent (stored : List Component × Bool) (rc : Component) : List Component × Bool :=
  if isScheduled rc = false ∨ rc.get (bytes "UID") = [] then stored
  else
    let answered := stored.1.map fun hc =>
      if applies rc hc then rc.props.foldl answerLine (hc, false) else (hc, false)
    (answered.map Prod.fst, stored.2 || answered.any Prod.snd)

/-- `ApplyReply`: `none` where nothing is changed. -/
def applyReply (stored reply : Bytes) : Option Bytes :=
  match parse stored, parse reply with
  | some have_, some said =>
    let applied := said.children.foldl applyComponent (have_.children, false)
    if applied.2 then some (emit (.mk have_.name have_.props applied.1)) else none
  | _, _ => none

/-! ## `Receive` -/

/-- What `CANCEL` makes of a stored object. -/
def cancelled (root : Component) : Component :=
  .mk root.name root.props <| root.children.map fun c =>
    if isScheduled c then c.set (bytes "STATUS") (bytes "CANCELLED") else c

/-- The object a message makes of the one that is filed, if it makes any. -/
def newBody (method ics : Bytes) (filed : Option Bytes) : Option Bytes :=
  if method = bytes "REPLY" then
    match filed with
    | none => none
    | some stored => if stored = [] then none else applyReply stored ics
  else if method = bytes "CANCEL" then
    match filed with
    | none => none
    | some stored =>
      if stored = [] then none
      else
        match parse stored with
        | none => none
        | some root => if root.children.any isScheduled then some (emit (cancelled root)) else none
  else some ics

/-- A Calendar room: the object under each UID. -/
abbrev Calendar := Bytes → Option Bytes

/-- `UpsertByEuid`. -/
def Calendar.file (cal : Calendar) (uid body : Bytes) : Calendar :=
  fun u => if u = uid then some body else cal u

/-- `Receive`: the calendar, and whether something was applied. -/
def receive (cal : Calendar) (method ics : Bytes) : Calendar × Bool :=
  let m := upper method
  if m ≠ bytes "REQUEST" ∧ m ≠ bytes "REPLY" ∧ m ≠ bytes "CANCEL" then (cal, false)
  else
    match parse ics with
    | none => (cal, false)
    | some incoming =>
      match firstScheduled incoming with
      | none => (cal, false)
      | some first =>
        let uid := first.get (bytes "UID")
        if uid = [] then (cal, false)
        else
          match newBody m ics (cal uid) with
          | none => (cal, false)
          | some body => if body = [] then (cal, false) else (cal.file uid body, true)

end QuackMail.Itip
