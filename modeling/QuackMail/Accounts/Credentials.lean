import QuackMail.Web.Session

/-! # Credentials

What a user may sign in with: the passwords of `auth.cpp`, the SSH keys of `sshkeys.cpp` and the
sessions of `websession.cpp`, each in a table of its own.
-/

namespace QuackMail.Accounts

/-! ## Passwords -/

/-- `Stored`: a password hash, and what it was made with. -/
structure Stored where
  hash : Bytes
  salt : Bytes
  algo : Bytes

/-- `kScryptN`. -/
def scryptN : Nat := 16384

/-- `kScryptR`. -/
def scryptR : Nat := 8

/-- `kScryptP`. -/
def scryptP : Nat := 1

/-- `CurrentAlgo`. -/
def currentAlgo : Bytes :=
  bytes "scrypt$" ++ num scryptN ++ [ch '$'] ++ num scryptR ++ [ch '$'] ++ num scryptP

/-- A number up to the next `$`, and what is behind that one. -/
def algoField (s : Bytes) : Option (Nat × Option Bytes) :=
  let tok := s.takeWhile (· != ch '$')
  let n := min (digitsFrom 0 tok) 0xffffffffffffffff
  if tok = [] || tok.any (fun c => !isDigit c) || n = 0 then none
  else
    match s.dropWhile (· != ch '$') with
    | [] => some (n, none)
    | _ :: rest => some (n, some rest)

/-- `ParseScrypt`. -/
def parseScrypt (algo : Bytes) : Option (Nat × Nat × Nat) :=
  if ¬bytes "scrypt$" <+: algo then none
  else
    match algoField (algo.drop 7) with
    | some (n, some rest) =>
      match algoField rest with
      | some (r, some rest) =>
        match algoField rest with
        | some (p, _) => if n ≤ 0x400000 ∧ r ≤ 64 ∧ p ≤ 16 then some (n, r, p) else none
        | none => none
      | _ => none
    | _ => none

/-- The functions this repository takes from elsewhere: `ScryptHex`, which gives nothing when it
    fails, `Sha256Hex`, the reading of a public key line as its blob, the fingerprint of a blob,
    and `lower` of the database. -/
structure Crypto where
  scryptHex : Bytes → Bytes → Nat → Nat → Nat → Bytes
  sha256Hex : Bytes → Bytes
  parseAuthorizedKey : Bytes → Except Bytes Bytes
  fingerprint : Bytes → Bytes
  sqlLower : Bytes → Bytes

variable (crypto : Crypto)

/-- `LegacySha256`. -/
def legacySha256 (password salt : Bytes) : Bytes :=
  crypto.sha256Hex (salt ++ bytes ":" ++ password)

/-- `HashPassword` with the salt `GenSalt` gave. -/
def hashPassword (password salt : Bytes) : Stored :=
  { hash := crypto.scryptHex password salt scryptN scryptR scryptP, salt := salt,
    algo := currentAlgo }

/-- What the password hashes to in the way the row names, if it is a known one. -/
def computedHash (password : Bytes) (stored : Stored) : Option Bytes :=
  match parseScrypt stored.algo with
  | some (n, r, p) => some (crypto.scryptHex password stored.salt n r p)
  | none =>
    if stored.algo = [] ∨ stored.algo = bytes "sha256" then
      some (legacySha256 crypto password stored.salt)
    else none

/-- `CheckPassword`. -/
def checkPassword (password : Bytes) (stored : Stored) : Bool :=
  match computedHash crypto password stored with
  | none => false
  | some computed => computed != [] && computed == stored.hash

/-- `NeedsRehash`. -/
def needsRehash (algo : Bytes) : Bool :=
  match parseScrypt algo with
  | none => true
  | some (n, r, p) => decide (n < scryptN) || decide (r < scryptR) || decide (p < scryptP)

/-- A row of `quackmail_users`. -/
structure User where
  stored : Stored
  enabled : Bool

/-- A row of `citadel_user_sshkeys`. -/
structure Key where
  username : Bytes
  blob : Bytes
  addedAt : Nat
  lastUsed : Nat

/-- The three tables, by their primary keys. -/
structure Tables where
  users : Bytes → Option User
  keys : Bytes → Option Key
  sessions : Web.Table

/-- Insert, replace or delete the row of a key. -/
def assign {α : Type} (t : Bytes → Option α) (k : Bytes) (row : Option α) : Bytes → Option α :=
  fun k' => if k' = k then row else t k'

@[simp] theorem assign_self {α : Type} (t : Bytes → Option α) (k : Bytes) (row : Option α) :
    assign t k row k = row :=
  if_pos rfl

theorem assign_of_ne {α : Type} (t : Bytes → Option α) {k k' : Bytes} (row : Option α)
    (h : k' ≠ k) : assign t k row k' = t k' :=
  if_neg h

/-- `AddUser`: also what sets a new password. -/
def addUser (username password salt : Bytes) (s : Tables) : Tables × Except Bytes Unit :=
  let fresh := hashPassword crypto password salt
  if fresh.hash = [] then (s, .error (bytes "the password could not be hashed"))
  else ({ s with users := assign s.users username (some ⟨fresh, true⟩) }, .ok ())

/-- `Verify`, with the salt of a hash that replaces an older one. -/
def verify (username password salt : Bytes) (s : Tables) : Tables × Bool :=
  match s.users username with
  | none => (s, false)
  | some user =>
    if user.enabled = false then (s, false)
    else if checkPassword crypto password user.stored = false then (s, false)
    else if needsRehash user.stored.algo = false then (s, true)
    else
      let fresh := hashPassword crypto password salt
      if fresh.hash = [] then (s, true)
      else
        ({ s with users := assign s.users username (some { user with stored := fresh }) }, true)

/-! ## SSH keys -/

/-- `AddKey`. -/
def addKey (now : Nat) (username line : Bytes) (s : Tables) : Tables × Except Bytes Unit :=
  match crypto.parseAuthorizedKey line with
  | .error err => (s, .error err)
  | .ok blob =>
    match s.keys (crypto.fingerprint blob) with
    | some row =>
      (s, .error (if lower row.username = lower username then
        bytes "that key is already registered"
      else bytes "that key is registered to another user"))
    | none =>
      ({ s with keys := assign s.keys (crypto.fingerprint blob) (some
          { username := username, blob := blob, addedAt := now, lastUsed := 0 }) }, .ok ())

/-- The key belongs to the user, whatever the case of the name. -/
def Key.owned (key : Key) (username : Bytes) : Bool :=
  crypto.sqlLower key.username == crypto.sqlLower username

/-- `RemoveKey`. -/
def removeKey (username fp : Bytes) (s : Tables) : Tables :=
  { s with keys := fun k => (s.keys k).filter fun key => !(key.owned crypto username && k == fp) }

/-- `RemoveAllKeys`. -/
def removeAllKeys (username : Bytes) (s : Tables) : Tables :=
  { s with keys := fun k => (s.keys k).filter fun key => !key.owned crypto username }

/-- `UserHasKey`. -/
def userHasKey (now : Nat) (username blob : Bytes) (touch : Bool) (s : Tables) : Tables × Bool :=
  match s.keys (crypto.fingerprint blob) with
  | none => (s, false)
  | some key =>
    if key.owned crypto username = false then (s, false)
    else if touch then
      ({ s with keys := assign s.keys (crypto.fingerprint blob) (some
          { key with lastUsed := now }) }, true)
    else (s, true)

/-! ## Removal -/

/-- `RemoveUser`: the row of the user, then the SSH keys. -/
def removeUser (username : Bytes) (s : Tables) : Tables :=
  removeAllKeys crypto username { s with users := assign s.users username none }

/-! ## Runs -/

inductive Act
  | addUser (username password salt : Bytes)
  | removeUser (username : Bytes)
  | verify (username password salt : Bytes)
  | addKey (username line : Bytes)
  | removeKey (username fp : Bytes)
  | useKey (username blob : Bytes) (touch : Bool)
  | web (op : Web.Op)

/-- A call at a time. -/
def step (s : Tables) : Nat × Act → Tables
  | (_, .addUser username password salt) => (addUser crypto username password salt s).1
  | (_, .removeUser username) => removeUser crypto username s
  | (_, .verify username password salt) => (verify crypto username password salt s).1
  | (now, .addKey username line) => (addKey crypto now username line s).1
  | (_, .removeKey username fp) => removeKey crypto username fp s
  | (now, .useKey username blob touch) => (userHasKey crypto now username blob touch s).1
  | (now, .web op) => { s with sessions := Web.step crypto.sha256Hex s.sessions (now, op) }

/-- The tables after a run that starts with these users and keys, and no session. -/
def run (users : Bytes → Option User) (keys : Bytes → Option Key) (acts : List (Nat × Act)) :
    Tables :=
  acts.foldl (step crypto) { users := users, keys := keys, sessions := fun _ => none }

/-- The calls on the sessions. -/
def webCalls (acts : List (Nat × Act)) : List (Nat × Web.Op) :=
  acts.filterMap fun e =>
    match e.2 with
    | .web op => some (e.1, op)
    | _ => none

variable {crypto}

theorem step_sessions_of_not_web {s : Tables} {e : Nat × Act} (h : ∀ op, e.2 ≠ .web op) :
    (step crypto s e).sessions = s.sessions := by
  obtain ⟨now, act⟩ := e
  cases act with
  | addUser username password salt =>
    rw [step, addUser]
    split
    · rfl
    · rfl
  | removeUser username => rfl
  | verify username password salt =>
    rw [step, verify]
    split
    · rfl
    · split
      · rfl
      · split
        · rfl
        · split
          · rfl
          · dsimp only
            split
            · rfl
            · rfl
  | addKey username line =>
    rw [step, addKey]
    split
    · rfl
    · split
      · rfl
      · rfl
  | removeKey username fp => rfl
  | useKey username blob touch =>
    rw [step, userHasKey]
    split
    · rfl
    · split
      · rfl
      · split
        · rfl
        · rfl
  | web op => exact absurd rfl (h op)

theorem foldl_sessions (acts : List (Nat × Act)) (s : Tables) :
    (acts.foldl (step crypto) s).sessions =
      (webCalls acts).foldl (Web.step crypto.sha256Hex) s.sessions := by
  induction acts generalizing s with
  | nil => rfl
  | cons e acts ih =>
    obtain ⟨now, act⟩ := e
    rw [List.foldl_cons, ih]
    cases act with
    | web op => rfl
    | addUser _ _ _ => rw [step_sessions_of_not_web (by simp)]; rfl
    | removeUser _ => rfl
    | verify _ _ _ => rw [step_sessions_of_not_web (by simp)]; rfl
    | addKey _ _ => rw [step_sessions_of_not_web (by simp)]; rfl
    | removeKey _ _ => rfl
    | useKey _ _ _ => rw [step_sessions_of_not_web (by simp)]; rfl

/-- The sessions are those of the calls on them. -/
theorem run_sessions (users : Bytes → Option User) (keys : Bytes → Option Key)
    (acts : List (Nat × Act)) :
    (run crypto users keys acts).sessions = Web.run crypto.sha256Hex (webCalls acts) :=
  foldl_sessions acts _

/-- A hash made now is not made again. -/
theorem needsRehash_currentAlgo : needsRehash currentAlgo = false := by decide +kernel

theorem parseScrypt_currentAlgo : parseScrypt currentAlgo = some (scryptN, scryptR, scryptP) := by
  decide +kernel

end QuackMail.Accounts
