import QuackMail.Dav.Conditional
import QuackMail.Dav.Names
import QuackMail.Lib.Bindings

/-! # Resources of a collection

A calendar or an address book serves its objects under names that clients choose.  An object
is kept under its euid; `citadel_dav_names` binds a name to an euid where the name is not the
default one, and a name without a row is read as an euid.
-/

namespace QuackMail.Dav.Naming

open Bindings

/-! ## Collections -/

/-- The groupware kinds of `DavKind`. -/
inductive Groupware where
  | calendar
  | addressBook

/-- `ObjectExt`. -/
def Groupware.objectExt : Groupware → Bytes
  | .addressBook => bytes ".vcf"
  | .calendar => bytes ".ics"

/-- A message of the room that has an euid, and what `ObjectBody` finds in it: nothing, where
    it is no object of the collection's kind. -/
structure Object where
  msgnum : Nat
  euid : Bytes
  body : Bytes
  deriving DecidableEq

/-- The room of a collection: its messages with the newest first, the number of the next one,
    and the rows of `citadel_dav_names`. -/
structure Room where
  objects : List Object
  next : Nat
  names : List (Bytes × Bytes)

def findByEuid (room : Room) (euid : Bytes) : Option Object :=
  if euid = [] then none else room.objects.find? fun o => decide (o.euid = euid)

/-- `DeleteMessage`. -/
def deleteMessage (msgnum : Nat) (room : Room) : Room :=
  { room with objects := room.objects.filter fun o => !decide (o.msgnum = msgnum) }

/-- `InsertMessage`. -/
def insertMessage (euid body : Bytes) (room : Room) : Room :=
  { room with objects := ⟨room.next, euid, body⟩ :: room.objects, next := room.next + 1 }

/-- `UpsertByEuid` of a message that is accepted. -/
def upsertByEuid (euid body : Bytes) (room : Room) : Room :=
  match findByEuid room euid with
  | none => insertMessage euid body room
  | some old => deleteMessage old.msgnum (insertMessage euid body room)

/-! ## Names -/

/-- What an object that has no row is served as. -/
def defaultName (kind : Groupware) (euid : Bytes) : Bytes := nameForEuid euid ++ kind.objectExt

/-- A name without a row is read as an encoded euid. -/
def readName (name : Bytes) : Bytes := euidForName (stripExt name)

/-- `ResourceNameFor`; which of several rows comes first is not said. -/
def resourceNameFor (kind : Groupware) (row : Nat) (room : Room) (euid : Bytes) : Bytes :=
  nameOf (defaultName kind) row room.names euid

/-- `EuidForResource`. -/
def euidForResource (room : Room) (name : Bytes) : Bytes :=
  if name = [] then [] else resolve readName room.names name

/-- `UnbindResourceName`. -/
def unbindResourceName (name : Bytes) (room : Room) : Room :=
  { room with names := unbind name room.names }

/-- `BindResourceName`: a row only where the default would not do. -/
def bindResourceName (kind : Groupware) (name euid : Bytes) (room : Room) : Room :=
  if name = [] ∨ euid = [] then room
  else if defaultName kind euid = name then unbindResourceName name room
  else { room with names := bind name euid room.names }

/-- `LoadObject`. -/
def loadObject (room : Room) (euid : Bytes) : Option Object :=
  (findByEuid room euid).filter fun o => o.body ≠ []

/-- `LoadObjectByName`. -/
def loadObjectByName (room : Room) (name : Bytes) : Option Object :=
  loadObject room (euidForResource room name)

/-- What `ListObjects` lists. -/
def listed (room : Room) : List Object :=
  room.objects.filter fun o => o.body ≠ [] ∧ o.euid ≠ []

/-! ## Requests -/

/-- A PUT of a body of the right media type; `row` says which row comes first. -/
structure Put where
  name : Bytes
  /-- a path has no empty segments -/
  named : name ≠ []
  /-- `BodyUid`, if the body is what the collection holds -/
  uid : Option Bytes
  /-- what `ObjectBody` will find in the message that is stored -/
  body : Bytes
  ifMatch : Bytes
  ifNoneMatch : Bytes
  canPost : Bool
  /-- whether `UpsertByEuid` accepts the message -/
  accepted : Bool
  row : Nat

structure Delete where
  name : Bytes
  ifMatch : Bytes
  canPost : Bool
  /-- whether `DeleteMessage` succeeds -/
  deleted : Bool

/-- A name that holds another object. -/
def holdsOther (room : Room) (name uid : Bytes) : Bool :=
  let held := euidForResource room name
  decide (held ≠ [] ∧ held ≠ uid) && (findByEuid room held).isSome

/-- `DavPut` of an object: the room, and the status of the answer. -/
def davPut (kind : Groupware) (p : Put) (room : Room) : Room × Nat :=
  match p.uid with
  | none => (room, 415)
  | some uid =>
    let existing := findByEuid room uid
    if uid = [] then (room, 415)
    else if existing.isSome ∧ resourceNameFor kind p.row room uid ≠ p.name then (room, 409)
    else if holdsOther room p.name uid then (room, 409)
    else if p.ifNoneMatch ≠ [] ∧ existing.isSome then (room, 412)
    else if p.ifMatch ≠ [] ∧
        existing.any (fun o => etagListMatches p.ifMatch (etagFor o.msgnum)) = false then
      (room, 412)
    else if p.canPost = false then (room, 403)
    else if p.accepted = false then (room, 400)
    else
      (bindResourceName kind p.name uid (upsertByEuid uid p.body room),
        if existing.isSome then 204 else 201)

/-- `DavDelete` of an object. -/
def davDelete (d : Delete) (room : Room) : Room × Nat :=
  match loadObjectByName room d.name with
  | none => (room, 404)
  | some o =>
    if d.ifMatch ≠ [] ∧ etagListMatches d.ifMatch (etagFor o.msgnum) = false then (room, 412)
    else if d.canPost = false then (room, 403)
    else if d.deleted = false then (room, 409)
    else (unbindResourceName d.name (deleteMessage o.msgnum room), 204)

/-- A save through another front end. -/
def saveObject (euid body : Bytes) (room : Room) : Room :=
  if euid = [] then room else upsertByEuid euid body room

/-- A delete through another front end. -/
def eraseObject (euid : Bytes) (room : Room) : Room :=
  match findByEuid room euid with
  | none => room
  | some o => deleteMessage o.msgnum room

/-- `PruneDavNames`. -/
def pruneDavNames (room : Room) : Room :=
  { room with names := room.names.filter fun row => room.objects.any fun o => o.euid = row.2 }

/-! ## Runs -/

inductive Event where
  | put (p : Put)
  | delete (d : Delete)
  | save (euid body : Bytes)
  | erase (euid : Bytes)
  | prune

/-- A room, and what is known of the names: the euid that was stored under a name last, until
    it is deleted. -/
structure Registry where
  room : Room
  held : Held Bytes Bytes

def succeeded (status : Nat) : Bool := status == 201 || status == 204

/-- One event.  What another front end saves is stored under the name it is listed under. -/
def Registry.step (kind : Groupware) (y : Registry) : Event → Registry
  | .put p =>
    let out := davPut kind p y.room
    ⟨out.1, if succeeded out.2 then
      Function.update y.held p.name (some (some (p.uid.getD []))) else y.held⟩
  | .delete d =>
    let out := davDelete d y.room
    ⟨out.1, if succeeded out.2 then
      retire (euidForResource y.room d.name) y.held else y.held⟩
  | .save euid body =>
    ⟨saveObject euid body y.room, if euid = [] then y.held else
      Function.update y.held (resourceNameFor kind 0 y.room euid) (some (some euid))⟩
  | .erase euid => ⟨eraseObject euid y.room, retire euid y.held⟩
  | .prune => ⟨pruneDavNames y.room, y.held⟩

def Registry.run (kind : Groupware) (y : Registry) (events : List Event) : Registry :=
  events.foldl (Registry.step kind) y

/-- There is an object of this euid in the room. -/
def Live (room : Room) (euid : Bytes) : Prop := (findByEuid room euid).isSome = true

instance (room : Room) (euid : Bytes) : Decidable (Live room euid) :=
  inferInstanceAs (Decidable ((findByEuid room euid).isSome = true))

/-- Names identify objects. -/
structure Identifies (kind : Groupware) (y : Registry) : Prop where
  /-- objects have distinct names -/
  distinct : ∀ a ∈ listed y.room, ∀ b ∈ listed y.room, ∀ j k,
    resourceNameFor kind j y.room a.euid = resourceNameFor kind k y.room b.euid → a = b
  /-- the name of an object stands for it -/
  resolves : ∀ o ∈ listed y.room, ∀ k,
    euidForResource y.room (resourceNameFor kind k y.room o.euid) = o.euid
  /-- a name stands for what was stored under it last, -/
  alive : ∀ name euid, y.held name = some (some euid) →
    Live y.room euid ∧ euidForResource y.room name = euid
  /-- and for nothing once that is deleted -/
  gone : ∀ name, y.held name = some none → loadObjectByName y.room name = none

/-- A PUT leaves alone what is listed under another name. -/
def Spares (kind : Groupware) (y : Registry) : Event → Prop
  | .put p => ∀ o ∈ listed y.room, ∀ k, resourceNameFor kind k y.room o.euid ≠ p.name →
      o ∈ (y.step kind (.put p)).room.objects
  | _ => True

/-- At every point of a run, names identify objects, and its PUTs spare what is listed under
    other names. -/
def IdentifiesThroughout (kind : Groupware) (y : Registry) (events : List Event) : Prop :=
  (∀ before after, events = before ++ after → Identifies kind (y.run kind before)) ∧
    ∀ before e after, events = before ++ e :: after → Spares kind (y.run kind before) e

/-- A PUT that stores an object which is not in the room. -/
def Put.Creates (p : Put) (room : Room) (uid : Bytes) : Prop :=
  p.uid = some uid ∧ uid ≠ [] ∧ findByEuid room uid = none ∧
    holdsOther room p.name uid = false ∧ p.ifMatch = [] ∧ p.canPost = true ∧ p.accepted = true

/-- What must hold of an event for the names to identify objects after it. -/
def Orderly (kind : Groupware) (y : Registry) : Event → Prop
  -- no name that was given up stands for an object that is stored under another
  | .put p => ∀ uid, p.Creates y.room uid →
      Unclaimed readName y.room.names y.held p.name uid
  -- the name that goes does not read as another object
  | .delete d => (lookup y.room.names d.name).isSome = true → Live y.room (readName d.name) →
      readName d.name = euidForResource y.room d.name
  -- a new object finds its default name free, and no name that was given up stands for it
  | .save euid _ => euid ≠ [] → findByEuid y.room euid = none →
      (names y.room.names euid = [] → lookup y.room.names (defaultName kind euid) = none) ∧
        Unclaimed readName y.room.names y.held (resourceNameFor kind 0 y.room euid) euid
  | .erase _ => True
  -- no name that loses its row reads as an object
  | .prune => ∀ name euid, (name, euid) ∈ y.room.names → ¬Live y.room euid →
      ¬Live y.room (readName name)

def OrderlyRun (kind : Groupware) : Registry → List Event → Prop
  | _, [] => True
  | y, e :: events => Orderly kind y e ∧ OrderlyRun kind (y.step kind e) events

/-- A collection nothing is known of: its objects have distinct euids and numbers, and no name
    has a row. -/
structure Opened (room : Room) : Prop where
  euids : (room.objects.map Object.euid).Nodup
  numbers : (room.objects.map Object.msgnum).Nodup
  below : ∀ o ∈ room.objects, o.msgnum < room.next
  present : ∀ o ∈ room.objects, o.euid ≠ []
  unbound : room.names = []

def opening (room : Room) : Registry := ⟨room, fun _ => none⟩

end QuackMail.Dav.Naming
