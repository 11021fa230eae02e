import QuackMail.Dav.Names
import QuackMail.Lib.VersionHistory
import QuackMail.Store.Versions

/-! # Conditional requests

PUT and DELETE on one resource of a collection, with `If-Match` and `If-None-Match`, as the
steps `DavPut` and `DavDelete` make on the store: look up the current version, test the
headers against its ETag, then save or remove.  The save looks the version up again, commits
the new one and unlinks the old one; the removal of a file looks it up again, and under its
own name, where the test took the name apart as that of an object.
-/

namespace QuackMail.Dav

open Citadel Versions VersionHistory

/-! ## Entity tags -/

/-- `ETagFor`. -/
def etagFor (msgnum : Nat) : Bytes := ch '"' :: num msgnum ++ [ch '"']

def isBlank (c : Byte) : Bool := c == ch ' ' || c == ch '\t'

/-- One item of the list, without blanks around it and without the mark of a weak tag. -/
def tagOf (item : Bytes) : Bytes :=
  let item := trimBy isBlank item
  if bytes "W/" <+: item then item.drop 2 else item

/-- `ETagListMatches`; the loop does not visit an empty last item, which is no tag. -/
def etagListMatches (header etag : Bytes) : Bool :=
  (splitOn (ch ',') header).any fun item => tagOf item == etag || tagOf item == bytes "*"

theorem tagOf_etagFor (n : Nat) : tagOf (etagFor n) = etagFor n := by
  have hquote : ¬isBlank (ch '"') = true := by decide
  have htrim : trimBy isBlank (etagFor n) = etagFor n := by
    rw [trimBy, etagFor, List.cons_append, List.dropWhile_cons_of_neg hquote,
      ← List.cons_append, List.rdropWhile_concat_neg _ _ _ hquote]
  have hstrong : ¬bytes "W/" <+: etagFor n := by
    rintro ⟨rest, heq⟩
    have hhead := List.head_eq_of_cons_eq (heq.trans (List.cons_append ..))
    revert hhead
    decide
  rw [tagOf, htrim, if_neg hstrong]

/-- A tag names one version. -/
theorem etagListMatches_etagFor {n m : Nat} :
    etagListMatches (etagFor n) (etagFor m) = true ↔ n = m := by
  have hcomma : ch ',' ∉ etagFor n := by
    rw [etagFor, List.mem_append, List.mem_cons]
    rintro ((hquote | hdigit) | hquote)
    · revert hquote
      decide
    · have hcontra := isDigit_of_mem_num hdigit
      revert hcontra
      decide
    · have hcontra := List.mem_singleton.mp hquote
      revert hcontra
      decide
  have hstar : etagFor n ≠ bytes "*" := by
    intro heq
    have hhead := List.head_eq_of_cons_eq heq
    revert hhead
    decide
  rw [etagListMatches, splitOn_of_not_mem hcomma, List.any_cons, List.any_nil, tagOf_etagFor,
    Bool.or_false, Bool.or_eq_true, beq_iff_eq, beq_iff_eq]
  constructor
  · rintro (heq | heq)
    · exact num_injective (List.append_cancel_right (List.tail_eq_of_cons_eq heq))
    · exact absurd heq hstar
  · rintro rfl
    exact .inl rfl

/-! ## Requests -/

/-- A calendar or address book, or a file area. -/
inductive Kind where
  | object
  | file
  deriving DecidableEq

inductive Verb (euid : Bytes) where
  | put (msg : Message) (about : msg.euid = euid) (ifMatch ifNoneMatch : Bytes)
  | delete (ifMatch : Bytes)

def Verb.ifMatch {euid : Bytes} : Verb euid → Bytes
  | .put _ _ ifMatch _ => ifMatch
  | .delete ifMatch => ifMatch

/-- DELETE does not look at it. -/
def Verb.ifNoneMatch {euid : Bytes} : Verb euid → Bytes
  | .put _ _ _ ifNoneMatch => ifNoneMatch
  | .delete _ => []

/-- How far a request has come. -/
inductive Stage (euid : Bytes) where
  | begun
  /-- the headers hold of `tested`, and `UpsertByEuid` is called -/
  | saving (tested : Option Nat) (call : Call euid)
  /-- the headers hold of `tested`, and `RemoveFile` is called -/
  | deleting (tested : Nat)
  /-- `DeleteMessage` is called -/
  | removing (tested msgnum : Nat)
  | answered (status : Nat)

structure Request (euid : Bytes) where
  verb : Verb euid
  stage : Stage euid

/-- `LoadObject`, `StatFile`: the current version, if it holds what the collection holds.
    Numbers start at 1, so no version is below the bounds these test. -/
def load (readable : Message → Bool) (s : Store) (room : Nat) (euid : Bytes) : Option Nat :=
  (findByEuid s room euid).filter fun n => (loadMessage s n).any readable

/-- `EuidFor` of the file areas. -/
def euidFor (name : Bytes) : Bytes := bytes "file/" ++ name

/-- The euid DELETE loads what it tests its headers against by: `EuidForResource` decodes the
    name of a file and strips its extension as well. -/
def loadedEuid (kind : Kind) (euid : Bytes) : Bytes :=
  match kind with
  | .object => euid
  | .file => euidFor (euidForName (stripExt (euid.drop (euidFor []).length)))

/-- DELETE of one file tests another one. -/
example : loadedEuid .file (euidFor (bytes "plan.ics")) = euidFor (bytes "plan") := by
  decide +kernel

/-- The version that PUT tests its headers against. -/
def existing (kind : Kind) (readable : Message → Bool) (s : Store) (room : Nat) (euid : Bytes) :
    Option Nat :=
  match kind with
  | .object => findByEuid s room euid
  | .file => load readable s room euid

/-- Whether the conditional headers hold where `current` is the version of the resource. -/
def Verb.meets {euid : Bytes} (v : Verb euid) (current : Option Nat) : Bool :=
  (v.ifNoneMatch.isEmpty || current.isNone) &&
    (v.ifMatch.isEmpty || current.any fun n => etagListMatches v.ifMatch (etagFor n))

/-- The answer of PUT when `UpsertByEuid` returns. -/
def saveStatus (kind : Kind) (tested : Option Nat) {euid : Bytes} : Call euid → Nat
  | .stored _ _ => if tested.isSome then 204 else 201
  | _ =>
    match kind with
    | .object => 400
    | .file => 507

/-- The next step of a request: the store, how far the request is then, and whether this
    step is the one that changes the resource. -/
def Request.advance (w : World) (kind : Kind) (readable : Message → Bool) (room : Nat)
    {euid : Bytes} (s : Store) (r : Request euid) : Store × Stage euid × Bool :=
  match r.stage with
  | .begun =>
    match r.verb with
    | .put msg about _ _ =>
      let found := existing kind readable s room euid
      if r.verb.meets found then (s, .saving found (.save msg about), false)
      else (s, .answered 412, false)
    | .delete _ =>
      match load readable s room (loadedEuid kind euid) with
      | none => (s, .answered 404, false)
      | some n =>
        if r.verb.meets (some n) then
          (s, if kind = .file then .deleting n else .removing n n, false)
        else (s, .answered 412, false)
  | .saving tested call =>
    match call.advance w room s with
    | (s', .done) => (s', .answered (saveStatus kind tested call), false)
    | (s', .stored created old) => (s', .saving tested (.stored created old), true)
    | (s', next) => (s', .saving tested next, false)
  | .deleting tested =>
    match findByEuid s room euid with
    | none => (s, .answered 409, false)
    | some n => (s, .removing tested n, false)
  | .removing _ n =>
    match deleteMessage w s room n with
    | (s', .ok ()) => (s', .answered 204, true)
    | (s', .error _) => (s', .answered 409, false)
  | .answered status => (s, .answered status, false)

def Stage.succeeded {euid : Bytes} : Stage euid → Bool
  | .answered status => status == 201 || status == 204
  | _ => false

/-! ## Runs -/

/-- The store, the requests, and the changes of the resource in the order they were made. -/
structure Site (euid : Bytes) where
  store : Store
  requests : Nat → Request euid
  accepted : List (Change Nat Nat)

section Runs

variable (kind : Kind) (readable : Message → Bool) (room : Nat) {euid : Bytes}

/-- Request `k` takes a step. -/
def Site.step (y : Site euid) (a : World × Nat) : Site euid :=
  let r := (y.requests a.2).advance a.1 kind readable room y.store
  ⟨r.1, Function.update y.requests a.2 ⟨(y.requests a.2).verb, r.2.1⟩,
    if r.2.2 then
      y.accepted ++ [⟨a.2, findByEuid y.store room euid, findByEuid r.1 room euid⟩]
    else y.accepted⟩

def Site.run (y : Site euid) (acts : List (World × Nat)) : Site euid :=
  acts.foldl (Site.step kind readable room) y

def Site.opening (s : Store) (verbs : Nat → Verb euid) : Site euid :=
  ⟨s, fun k => ⟨verbs k, .begun⟩, []⟩

/-- Where a request changes the resource, what is linked is the version it was tested
    against and no other, and that is the one it replaces or removes. -/
def Undisturbed (y : Site euid) (a : World × Nat) : Prop :=
  match (y.requests a.2).stage with
  | .saving tested (.found msg _ old) =>
    quotaRefusal y.store [room] = none → a.1.fault msg = none →
      rowsByEuid y.store room euid = tested.toList ∧ old = tested
  | .removing tested n =>
    messageInRoom y.store room n = true →
      rowsByEuid y.store room euid = [tested] ∧ n = tested
  | _ => True

def AllUndisturbed : Site euid → List (World × Nat) → Prop
  | _, [] => True
  | y, a :: acts =>
    Undisturbed room y a ∧ AllUndisturbed (y.step kind readable room a) acts

end Runs

/-- What conditional requests promise. -/
structure Conditional {euid : Bytes} (y : Site euid) : Prop where
  /-- A request changes the resource only where its headers hold of what is there. -/
  named : ∀ c ∈ y.accepted, (y.requests c.who).verb.meets c.before = true
  /-- A request that succeeded changed the resource. -/
  accepted : ∀ k, (y.requests k).stage.succeeded = true → ∃ c ∈ y.accepted, c.who = k
  /-- Of two requests that name the same version one succeeds at most. -/
  matchOnce : ∀ n j k, j ≠ k → (y.requests j).verb.ifMatch = etagFor n →
    (y.requests k).verb.ifMatch = etagFor n →
    ¬((y.requests j).stage.succeeded = true ∧ (y.requests k).stage.succeeded = true)
  /-- Of two requests that name no version the second succeeds only after a removal. -/
  createOnce : ∀ before between after c d,
    y.accepted = before ++ c :: (between ++ d :: after) →
    (y.requests c.who).verb.ifNoneMatch ≠ [] → (y.requests d.who).verb.ifNoneMatch ≠ [] →
    ∃ e ∈ between, e.after = none
  /-- DELETE leaves nothing, and removes the version it named. -/
  removed : ∀ c ∈ y.accepted, ∀ ifMatch, (y.requests c.who).verb = .delete ifMatch →
    c.after = none ∧ ∃ n, c.before = some n ∧
      (ifMatch ≠ [] → etagListMatches ifMatch (etagFor n) = true)

end QuackMail.Dav
