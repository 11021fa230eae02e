import Mathlib.Logic.Function.Basic
import QuackMail.Dav.Conditional
import QuackMail.Dav.Names
import QuackMail.Files.Area

/-! # Locks on files

LOCK, UNLOCK, PUT and DELETE on a file area over DAV, and the commands of FTP and SFTP that
write.  A lock is a row under its token.  A request runs one statement after the other, and
those of other sessions run in between: it sweeps what has expired, looks the lock up, and
writes.  The commands of FTP and SFTP write without looking.
-/

namespace QuackMail.Files

open Dav

/-! ## Locks -/

/-- A row of `citadel_dav_locks`. -/
structure Lock where
  token : Bytes
  resource : Resource
  username : Bytes
  owner : Bytes
  expiresAt : Nat

/-- `kLockSeconds`. -/
def kLockSeconds : Nat := 600

/-- `Expire`. -/
def expire (now : Nat) (locks : List Lock) : List Lock :=
  locks.filter fun l => !decide (l.expiresAt < now)

/-- `LockOn`: any row of the resource, whichever the query comes upon first. -/
def lockOn (choice : Nat) (x : Resource) (locks : List Lock) : Option Lock :=
  let rows := locks.filter fun l => decide (l.resource = x)
  rows[choice % rows.length]?

/-- The loop of `TokensIn`, with as many rounds as there are bytes. -/
def tokensLoop : Nat → Bytes → List Bytes
  | 0, _ => []
  | fuel + 1, header =>
    match findChar (ch '<') header with
    | none => []
    | some start =>
      match findChar (ch '>') (header.drop start) with
      | none => []
      | some len =>
        (header.drop (start + 1)).take (len - 1) :: tokensLoop fuel (header.drop (start + len + 1))

/-- `TokensIn`. -/
def tokensIn (header : Bytes) : List Bytes := tokensLoop header.length header

/-- The token in a `Lock-Token` header. -/
def unlockToken (header : Bytes) : Bytes :=
  if 1 < header.length ∧ header.head? = some (ch '<') ∧ header.getLast? = some (ch '>') then
    (header.drop 1).dropLast
  else header

def lockToken (hex : Bytes) : Bytes := bytes "opaquelocktoken:" ++ hex

/-- What the body of a LOCK asks for. -/
structure LockInfo where
  shared : Bool
  owner : Bytes

/-! ## Requests -/

/-- What is asked of one resource over DAV. -/
inductive DavVerb where
  /-- without a body it refreshes; `hex` is what `RandomHex` gives -/
  | lock (hex ifHeader : Bytes) (body : Option LockInfo)
  | unlock (lockToken : Bytes)
  | put (content contentType ifHeader ifMatch ifNoneMatch : Bytes)
  | delete (ifHeader ifMatch : Bytes)

/-- A command of FTP or SFTP that writes, with the area it is in. -/
inductive Transfer where
  | stor (area : Area) (arg content : Bytes)
  | dele (area : Area) (arg : Bytes)
  | rnto (area : Area) (source arg : Bytes)
  /-- the close of an SFTP handle that was opened for writing -/
  | close (area : Area) (path content contentType : Bytes)
  | remove (area : Area) (path : Bytes)
  | rename (sourceArea : Area) (source : Bytes) (targetArea : Area) (target : Bytes)

inductive Request where
  | dav (user : Bytes) (x : Resource) (verb : DavVerb)
  | transfer (user : Bytes) (t : Transfer)

def Request.user : Request → Bytes
  | .dav user _ _ => user
  | .transfer user _ => user

/-- The lock tokens that the request quotes. -/
def Request.quoted : Request → List Bytes
  | .dav _ _ (.put _ _ ifHeader _ _) => tokensIn ifHeader
  | .dav _ _ (.delete ifHeader _) => tokensIn ifHeader
  | _ => []

def Transfer.targets : Transfer → List Resource
  | .stor area arg _ => [(area.roomNum, sanitizeName arg)]
  | .dele area arg => [(area.roomNum, arg)]
  | .rnto area source arg => [(area.roomNum, sanitizeName arg), (area.roomNum, source)]
  | .close area path _ _ => [(area.roomNum, sanitizeName path)]
  | .remove area path => [(area.roomNum, path)]
  | .rename sourceArea source targetArea target =>
    [(targetArea.roomNum, sanitizeName target), (sourceArea.roomNum, source)]

/-- The resources that a request is about. -/
def Request.targets : Request → List Resource
  | .dav _ x _ => [x]
  | .transfer _ t => t.targets

/-! ## Writes -/

/-- A write of a request, with what is answered where it fails. -/
inductive Write where
  /-- `PutFile` up to the new message -/
  | put (x : Resource) (u : Upload) (failure : Nat)
  /-- the message that `PutFile` has replaced -/
  | unlink (x : Resource) (msgnum : Nat)
  /-- `RemoveFile`, which may fail silently -/
  | remove (x : Resource) (failure : Option Nat)

def Write.resource : Write → Resource
  | .put x _ _ => x
  | .unlink x _ => x
  | .remove x _ => x

/-- The file as it is stored again under another name. -/
def Stored.again (f : Stored) : Upload := ⟨f.content, f.contentType, f.description, f.uploader⟩

/-- What a command of FTP or SFTP is going to write, or what it is refused with. -/
def plan (acc : Access) (user : Bytes) (shelf : Shelf) : Transfer → Except Nat (List Write)
  | .stor area arg content =>
    if canUpload acc user area = false then .error 550
    else if sanitizeName arg = [] then .error 553
    else .ok [.put (area.roomNum, sanitizeName arg) ⟨content, [], [], user⟩ 452]
  | .dele area arg =>
    if canPost acc user area = false then .error 550
    else .ok [.remove (area.roomNum, arg) (some 550)]
  | .rnto area source arg =>
    if canUpload acc user area = false then .error 550
    else if sanitizeName arg = [] then .error 550
    else
      match getFile shelf (area.roomNum, source) with
      | none => .error 550
      | some f =>
        .ok [.put (area.roomNum, sanitizeName arg) f.again 550,
          .remove (area.roomNum, source) none]
  | .close area path content contentType =>
    -- whether the user may upload was asked when the handle was opened
    if sanitizeName path = [] then .error 4
    else
      .ok [.put (area.roomNum, sanitizeName path)
        ⟨content, if contentType = [] then octetStream else contentType, [], user⟩ 4]
  | .remove area path =>
    if canPost acc user area = false then .error 3
    else .ok [.remove (area.roomNum, path) (some 2)]
  | .rename sourceArea source targetArea target =>
    if canPost acc user sourceArea = false ∨ canUpload acc user targetArea = false then .error 3
    else if sanitizeName target = [] ∨
        (getFile shelf (targetArea.roomNum, sanitizeName target)).isSome then .error 4
    else
      match getFile shelf (sourceArea.roomNum, source) with
      | none => .error 2
      | some f =>
        .ok [.put (targetArea.roomNum, sanitizeName target) f.again 4,
          .remove (sourceArea.roomNum, source) none]

/-! ## Statements -/

/-- What the sessions share.  `drawn` and `grants` are history: the tokens that were drawn,
    and the locks as they were answered to those who asked, without those that an UNLOCK has
    released. -/
structure Shared where
  now : Nat
  locks : List Lock
  shelf : Shelf
  drawn : List Bytes
  grants : List Lock

/-- How far a request has come. -/
inductive Stage where
  | begun
  /-- `Expire` has run -/
  | swept
  /-- `LockOn` has run, and the request goes on with what it found -/
  | checked (held : Option Lock)
  | writing (writes : List Write)

inductive Answer where
  | granted (lock : Lock)
  | unlocked
  | done
  | refused (status : Nat)

inductive Next where
  | goOn (stage : Stage)
  | answer (a : Answer)

section Statements

variable (acc : Access) (mime : Bytes → Bytes → Bytes × Bytes)

/-- `ResolveCollection`. -/
def resolveCollection (user : Bytes) (room : Nat) : Option Area :=
  (acc.resolveRoomNum user room).filter fun area =>
    isFileArea area && acc.roomUnlocked user area

def sweep (w : Shared) : Shared × Next :=
  ({ w with locks := expire w.now w.locks }, .goOn .swept)

def refuse (w : Shared) (status : Nat) : Shared × Next := (w, .answer (.refused status))

/-- `LockBlocks`, where `found` is what `LockOn` gives. -/
def lockBlocks (user ifHeader : Bytes) : Option Lock → Bool
  | none => false
  | some lock => decide (lock.username ≠ user ∧ lock.token ∉ tokensIn ifHeader)

/-- `DavLock`. -/
def davLock (choice : Nat) (user : Bytes) (x : Resource) (hex ifHeader : Bytes)
    (body : Option LockInfo) (w : Shared) : Stage → Shared × Next
  | .begun =>
    match resolveCollection acc user x.1 with
    | none => refuse w 404
    | some area => if canPost acc user area then sweep w else refuse w 403
  | .swept =>
    match body, lockOn choice x w.locks with
    | none, none => refuse w 412
    | none, some held =>
      if held.username = user ∨ held.token ∈ tokensIn ifHeader then
        (w, .goOn (.checked (some held)))
      else refuse w 423
    | some info, none => if info.shared then refuse w 409 else (w, .goOn (.checked none))
    | some info, some held =>
      if held.username ≠ user then refuse w 423
      else if info.shared then refuse w 409
      else (w, .goOn (.checked none))
  | .checked held =>
    match body, held with
    | none, none => refuse w 412
    | none, some held =>
      let expiresAt := w.now + kLockSeconds
      let lock := { held with expiresAt := expiresAt }
      ({ w with
        locks := w.locks.map fun l =>
          if l.token = held.token then { l with expiresAt := expiresAt } else l
        grants := lock :: w.grants }, .answer (.granted lock))
    | some info, _ =>
      let lock : Lock := ⟨lockToken hex, x, user, info.owner, w.now + kLockSeconds⟩
      ({ w with
        locks := lock :: w.locks.filter fun l => !decide (l.token = lock.token)
        drawn := lock.token :: w.drawn
        grants := lock :: w.grants }, .answer (.granted lock))
  | .writing _ => (w, .answer .done)

/-- `DavUnlock`. -/
def davUnlock (choice : Nat) (user : Bytes) (x : Resource) (header : Bytes) (w : Shared) :
    Stage → Shared × Next
  | .begun =>
    match resolveCollection acc user x.1 with
    | none => refuse w 404
    | some _ => sweep w
  | .swept =>
    if unlockToken header = [] then refuse w 400
    else
      match lockOn choice x w.locks with
      | none => refuse w 409
      | some held =>
        if held.token ≠ unlockToken header then refuse w 409
        else if held.username ≠ user ∧
            (resolveCollection acc user x.1).any (canAdminister acc user) = false then
          refuse w 403
        else (w, .goOn (.checked (some held)))
  | .checked _ =>
    ({ w with
      locks := w.locks.filter fun l => !decide (l.token = unlockToken header)
      grants := w.grants.filter fun g => !decide (g.resource = x) }, .answer .unlocked)
  | .writing _ => (w, .answer .done)

/-- `DavPut` on a file area, up to `PutFile`. -/
def davPut (choice : Nat) (user : Bytes) (x : Resource)
    (content contentType ifHeader ifMatch ifNoneMatch : Bytes) (w : Shared) :
    Stage → Shared × Next
  | .begun =>
    match resolveCollection acc user x.1 with
    | none => refuse w 404
    | some area =>
      if content = [] then refuse w 400
      else if canUpload acc user area = false then refuse w 403
      else if sanitizeName x.2 = [] ∨ sanitizeName x.2 ≠ x.2 then refuse w 403
      else sweep w
  | .swept =>
    if lockBlocks user ifHeader (lockOn choice x w.locks) then refuse w 423
    else (w, .goOn (.checked none))
  | .checked _ =>
    let before := getFile w.shelf x
    if ifNoneMatch ≠ [] ∧ before.isSome then refuse w 412
    else if ifMatch ≠ [] ∧
        before.any (fun f => etagListMatches ifMatch (etagFor f.msgnum)) = false then
      refuse w 412
    else (w, .goOn (.writing [.put x ⟨content, contentType, [], user⟩ 507]))
  | .writing _ => (w, .answer .done)

/-- `LoadObjectByName` in a file area, which reads the name as that of an object. -/
def loadByName (shelf : Shelf) (x : Resource) : Option Stored :=
  let euid := euidForName (stripExt x.2)
  if euid = [] then none else getFile shelf (x.1, euid)

/-- `DavDelete` on a file area, up to `RemoveFile`. -/
def davDelete (choice : Nat) (user : Bytes) (x : Resource) (ifHeader ifMatch : Bytes)
    (w : Shared) : Stage → Shared × Next
  | .begun =>
    match resolveCollection acc user x.1, loadByName w.shelf x with
    | some area, some f =>
      if ifMatch ≠ [] ∧ etagListMatches ifMatch (etagFor f.msgnum) = false then refuse w 412
      else if canPost acc user area = false then refuse w 403
      else sweep w
    | _, _ => refuse w 404
  | .swept =>
    if lockBlocks user ifHeader (lockOn choice x w.locks) then refuse w 423
    else (w, .goOn (.writing [.remove x (some 409)]))
  | _ => (w, .answer .done)

/-- One write; `full` says that the store takes no message. -/
def write (full : Bool) (w : Shared) : List Write → Shared × Next
  | [] => (w, .answer .done)
  | .put x u failure :: writes =>
    if full then refuse w failure
    else
      ({ w with shelf := insertFile mime w.now x u w.shelf },
        .goOn (.writing (((getFile w.shelf x).map fun f => Write.unlink x f.msgnum).toList ++
          writes)))
  | .unlink x msgnum :: writes =>
    ({ w with shelf := unlinkFile x.1 msgnum w.shelf }, .goOn (.writing writes))
  | .remove x failure :: writes =>
    match getFile w.shelf x, failure with
    | some f, _ =>
      ({ w with shelf := unlinkFile x.1 f.msgnum w.shelf }, .goOn (.writing writes))
    | none, some status => refuse w status
    | none, none => (w, .goOn (.writing writes))

/-- The next statement of a request. -/
def statement (choice : Nat) (full : Bool) (w : Shared) (r : Request) (stage : Stage) :
    Shared × Next :=
  match r, stage with
  | _, .writing writes => write mime full w writes
  | .dav user x (.lock hex ifHeader body), stage =>
    davLock acc choice user x hex ifHeader body w stage
  | .dav user x (.unlock header), stage => davUnlock acc choice user x header w stage
  | .dav user x (.put content contentType ifHeader ifMatch ifNoneMatch), stage =>
    davPut acc choice user x content contentType ifHeader ifMatch ifNoneMatch w stage
  | .dav user x (.delete ifHeader ifMatch), stage =>
    davDelete acc choice user x ifHeader ifMatch w stage
  | .transfer user t, .begun =>
    match plan acc user w.shelf t with
    | .error status => refuse w status
    | .ok writes => (w, .goOn (.writing writes))
  | .transfer _ _, _ => (w, .answer .done)

end Statements

/-! ## Runs -/

/-- What is shared, and the request of each session with how far it has come. -/
structure System (κ : Type*) where
  shared : Shared
  busy : κ → Option (Request × Stage)

inductive Event (κ : Type*) where
  | tick (seconds : Nat)
  | start (session : κ) (r : Request)
  /-- the next statement of a session: which row a query comes upon first, and whether the
      store is full -/
  | advance (session : κ) (choice : Nat) (full : Bool)

section Runs

variable {κ : Type*} [DecidableEq κ] (acc : Access) (mime : Bytes → Bytes → Bytes × Bytes)

def fresh (now : Nat) (shelf : Shelf) : System κ := ⟨⟨now, [], shelf, [], []⟩, fun _ => none⟩

/-- One event and the answer it gives; a session that is busy starts nothing. -/
def step (s : System κ) : Event κ → System κ × Option Answer
  | .tick seconds => ({ s with shared := { s.shared with now := s.shared.now + seconds } }, none)
  | .start k r =>
    match s.busy k with
    | some _ => (s, none)
    | none => ({ s with busy := Function.update s.busy k (some (r, .begun)) }, none)
  | .advance k choice full =>
    match s.busy k with
    | none => (s, none)
    | some (r, stage) =>
      match statement acc mime choice full s.shared r stage with
      | (w, .goOn stage') => (⟨w, Function.update s.busy k (some (r, stage'))⟩, none)
      | (w, .answer a) => (⟨w, Function.update s.busy k none⟩, some a)

def run (s : System κ) (events : List (Event κ)) : System κ :=
  events.foldl (fun s e => (step acc mime s e).1) s

end Runs

end QuackMail.Files
