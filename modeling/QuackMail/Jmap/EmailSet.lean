import QuackMail.Delivery.LocalDeliver
import QuackMail.Jmap.Email
import QuackMail.Jmap.PatchOutcome

/-! # Email/set

`EmailSet` of `jmap_mail.cpp`.  Behind the check of the state the creations, the updates and the
destructions are carried out one after the other, each by calls of its own, and nothing ties
them together: `emailSet_tables` says that the tables are those the items leave.
-/

namespace QuackMail.Jmap

open Citadel Imap

/-! ## JSON -/

/-- `AsString()`. -/
def Json.asString : Json → Bytes
  | .string s => s
  | _ => []

def Json.items : Json → List Json
  | .array items => items
  | _ => []

/-! ## Items -/

/-- What one item takes from outside the tables: `fails` are the store calls that fail, and
    `raw` is the message that is built of the creation, `none` where an attachment names a blob
    that is not found. -/
structure Call where
  world : World
  fails : Nat → Bool
  raw : Option Bytes

structure SetError where
  type : Bytes
  description : Bytes

/-- The mailbox a creation goes to: the first that is wanted and can be used. -/
def firstMailbox (c : Ctx) (t : Tables) : List (Bytes × Json) → Option Room
  | [] => none
  | kv :: rest =>
    if kv.2.asBool then
      match resolveMailbox c t kv.1 with
      | some room => some room
      | none => firstMailbox c t rest
    else firstMailbox c t rest

/-- The message of a creation. -/
def createdMessage (c : Ctx) (t : Tables) (w : World) (spec : Json) (room : Room) (raw : Bytes) :
    Message :=
  { Message.blank with
    author := c.username
    authorUsernum := userNumOf t.realm c.username
    msgtime := w.now
    subject := (member spec.members (bytes "subject")).asString
    formatType := 4
    originRoom := (labelOf t.realm.dir room.roomNum).elim [] RoomLabel.displayName
    node := getConfig t.store (bytes "c_nodename") []
    raw := raw }

/-- The keywords of a creation that are to be set. -/
def createdKeywords (spec : Json) : List Bytes :=
  ((member spec.members (bytes "keywords")).members.filter (fun kv => kv.2.asBool)).map Prod.fst

/-- One creation: the number it is stored under. -/
def createEmail (c : Ctx) (o : Call) (spec : Json) (t : Tables) : Tables × Except SetError Nat :=
  match firstMailbox c t (member spec.members (bytes "mailboxIds")).members with
  | none =>
    (t, .error ⟨bytes "invalidProperties", bytes "mailboxIds names no mailbox you can use"⟩)
  | some room =>
    if canPost t.realm c.username room = false then
      (t, .error ⟨bytes "forbidden", bytes "you cannot add to that mailbox"⟩)
    else
      match o.raw with
      | none =>
        (t, .error ⟨bytes "blobNotFound", bytes "attachments name a blob that is not yours"⟩)
      | some raw =>
        if (Delivery.wouldExceed t.realm.dir c.username raw.length).2 then
          (t, .error ⟨bytes "overQuota", bytes "mailbox is over its storage quota"⟩)
        else
          match insertMessage o.world t.store (createdMessage c t o.world spec room raw)
              [room.roomNum] with
          | (s, .error err) => (t.withStore s, .error ⟨bytes "serverFail", err⟩)
          | (s, .ok msgnum) =>
            let v := (createdKeywords spec).foldl
              (fun v k => setKeyword v c.username msgnum k true) (t.withStore s).server
            ((t.withStore s).withFlags v.flags, .ok msgnum)

/-- One update. -/
def updateEmail (c : Ctx) (o : Call) (id : Bytes) (patch : Json) (t : Tables) :
    Tables × Except SetError Unit :=
  match idNum id with
  | none => (t, .error ⟨bytes "notFound", []⟩)
  | some msgnum =>
    if (loadEmailFor c t msgnum).isSome = false then (t, .error ⟨bytes "notFound", []⟩)
    else
      match applyEmailPatch c o.world o.fails msgnum patch t with
      | (t', .error why) => (t', .error ⟨bytes "invalidProperties", why⟩)
      | (t', .ok ()) => (t', .ok ())

/-- The loop of a destruction over the mailboxes: whether any call succeeded. -/
def unlinkAll (c : Ctx) (o : Call) (msgnum : Nat) : List (Room × Nat) → Tables → Bool →
    Tables × Bool
  | [], t, any => (t, any)
  | (room, i) :: rest, t, any =>
    if messageInRoom t.store room.roomNum msgnum = false then unlinkAll c o msgnum rest t any
    else if canPost t.realm c.username room = false then unlinkAll c o msgnum rest t any
    else if o.fails i then unlinkAll c o msgnum rest t any
    else
      let s := (deleteMessage o.world t.store room.roomNum msgnum).1
      unlinkAll c o msgnum rest (t.withStore s) true

/-- One destruction: the message is unlinked from every mailbox the user can see. -/
def destroyEmail (c : Ctx) (o : Call) (id : Bytes) (t : Tables) : Tables × Except SetError Unit :=
  match idNum id with
  | none => (t, .error ⟨bytes "notFound", []⟩)
  | some msgnum =>
    if (loadEmailFor c t msgnum).isSome = false then (t, .error ⟨bytes "notFound", []⟩)
    else
      match unlinkAll c o msgnum (jmapMailboxes c t).zipIdx t false with
      | (t', true) => (t', .ok ())
      | (t', false) => (t', .error ⟨bytes "forbidden", bytes "you cannot remove that message"⟩)

/-! ## The method -/

structure SetAnswer where
  oldState : Bytes
  newState : Bytes
  created : List (Bytes × Nat)
  notCreated : List (Bytes × SetError)
  updated : List Bytes
  notUpdated : List (Bytes × SetError)
  destroyed : List Bytes
  notDestroyed : List (Bytes × SetError)

inductive Item where
  | create (key : Bytes) (spec : Json)
  | update (id : Bytes) (patch : Json)
  | destroy (id : Bytes)

/-- The items of a request in the order in which they are carried out. -/
def itemsOf (args : Json) : List Item :=
  (member args.members (bytes "create")).members.map (fun m => .create m.1 m.2) ++
    (member args.members (bytes "update")).members.map (fun m => .update m.1 m.2) ++
    (member args.members (bytes "destroy")).items.map (fun id => .destroy id.asString)

/-- One item, and what it adds to the answer. -/
def carryOut (c : Ctx) (o : Call) (item : Item) (t : Tables) (answer : SetAnswer) :
    Tables × SetAnswer :=
  match item with
  | .create key spec =>
    match createEmail c o spec t with
    | (t', .ok msgnum) => (t', { answer with created := answer.created ++ [(key, msgnum)] })
    | (t', .error err) => (t', { answer with notCreated := answer.notCreated ++ [(key, err)] })
  | .update id patch =>
    match updateEmail c o id patch t with
    | (t', .ok ()) => (t', { answer with updated := answer.updated ++ [id] })
    | (t', .error err) => (t', { answer with notUpdated := answer.notUpdated ++ [(id, err)] })
  | .destroy id =>
    match destroyEmail c o id t with
    | (t', .ok ()) => (t', { answer with destroyed := answer.destroyed ++ [id] })
    | (t', .error err) => (t', { answer with notDestroyed := answer.notDestroyed ++ [(id, err)] })

/-- The error of a request that is not carried out. -/
def setRefusal (account : Bytes) (c : Ctx) (args : Json) (t : Tables) : Option Bytes :=
  let want := (member args.members (bytes "accountId")).asString
  let ifInState := (member args.members (bytes "ifInState")).asString
  if want ≠ [] ∧ want ≠ account then some (bytes "accountNotFound")
  else if ifInState ≠ [] ∧ ifInState ≠ accountState c t then some (bytes "stateMismatch")
  else none

/-- `EmailSet`; `o` is what each item takes from outside. -/
def emailSet (account : Bytes) (c : Ctx) (o : Nat → Call) (args : Json) (t : Tables) :
    Tables × Except Bytes SetAnswer :=
  match setRefusal account c args t with
  | some err => (t, .error err)
  | none =>
    let oldState := accountState c t
    let r := (itemsOf args).zipIdx.foldl (fun r item => carryOut c (o item.2) item.1 r.1 r.2)
      (t, ⟨oldState, [], [], [], [], [], [], []⟩)
    (r.1, .ok { r.2 with newState := accountState c r.1 })

/-! ## The tables an item leaves -/

def itemTables (c : Ctx) (o : Call) (t : Tables) : Item → Tables
  | .create _ spec => (createEmail c o spec t).1
  | .update id patch => (updateEmail c o id patch t).1
  | .destroy id => (destroyEmail c o id t).1

theorem carryOut_fst (c : Ctx) (o : Call) (item : Item) (t : Tables) (answer : SetAnswer) :
    (carryOut c o item t answer).1 = itemTables c o t item := by
  cases item with
  | create key spec =>
    rw [carryOut, itemTables]
    obtain ⟨t', r⟩ := createEmail c o spec t
    cases r with
    | ok msgnum => rfl
    | error err => rfl
  | update id patch =>
    rw [carryOut, itemTables]
    obtain ⟨t', r⟩ := updateEmail c o id patch t
    cases r with
    | ok u => rfl
    | error err => rfl
  | destroy id =>
    rw [carryOut, itemTables]
    obtain ⟨t', r⟩ := destroyEmail c o id t
    cases r with
    | ok u => rfl
    | error err => rfl

/-- A request that is refused leaves the tables, any other leaves what its items leave. -/
theorem emailSet_tables (account : Bytes) (c : Ctx) (o : Nat → Call) (args : Json) (t : Tables) :
    (emailSet account c o args t).1 =
      if (setRefusal account c args t).isSome then t
      else (itemsOf args).zipIdx.foldl (fun t item => itemTables c (o item.2) t item.1) t := by
  have hfold : ∀ (items : List (Item × Nat)) (t : Tables) (answer : SetAnswer),
      (items.foldl (fun r item => carryOut c (o item.2) item.1 r.1 r.2) (t, answer)).1 =
        items.foldl (fun t item => itemTables c (o item.2) t item.1) t := by
    intro items
    induction items with
    | nil => exact fun _ _ => rfl
    | cons item items ih =>
      intro t answer
      rw [List.foldl_cons, List.foldl_cons, ← carryOut_fst c (o item.2) item.1 t answer]
      exact ih _ _
  unfold emailSet
  cases setRefusal account c args t with
  | some err => rfl
  | none => exact hfold _ _ _

end QuackMail.Jmap
