import QuackMail.Store.Messages

/-! # Expiry

The expiry policies of `citadel_store.cpp` and the sweep `RunExpiry`.
-/

namespace QuackMail.Citadel

/-- `EXPIRE_NEXTLEVEL` and the modes after it. -/
inductive ExpireMode where
  | nextLevel | manual | numMsgs | age
  deriving DecidableEq

structure ExpirePolicy where
  mode : ExpireMode
  value : Int
  deriving DecidableEq

/-- The mode of a stored number, `none` where it is out of range. -/
def expireMode (n : Int) : Option ExpireMode :=
  if n = 0 then some .nextLevel
  else if n = 1 then some .manual
  else if n = 2 then some .numMsgs
  else if n = 3 then some .age
  else none

def qrPermanent : Nat := 2

def qrMailbox : Nat := 16384

/-- `ReadPolicy`: `"mode|value"`, the next level for anything else. -/
def readPolicy (s : Store) (key : Bytes) : ExpirePolicy :=
  let raw := getConfig s key []
  match findChar (ch '|') raw with
  | none => ⟨.nextLevel, 0⟩
  | some bar =>
    match expireMode (strtoll (raw.take bar)) with
    | none => ⟨.nextLevel, 0⟩
    | some mode => ⟨mode, strtoll (raw.drop (bar + 1))⟩

def roomPolicyKey (room : Room) : Bytes := bytes "c_ep_room_" ++ num room.roomNum

def floorPolicyKey (room : Room) : Bytes := bytes "c_ep_floor_" ++ numInt room.floorNum

/-- `SetConfig`. -/
def setConfig (s : Store) (name value : Bytes) : Store :=
  if s.config.any (fun kv => kv.1 = name) then
    { s with config := s.config.map (fun kv => if kv.1 = name then (kv.1, value) else kv) }
  else { s with config := s.config ++ [(name, value)] }

def expireKey (which : Bytes) (room : Room) : Bytes :=
  if which = bytes "roompolicy" then roomPolicyKey room
  else if which = bytes "floorpolicy" then floorPolicyKey room
  else if which = bytes "mailboxespolicy" then bytes "c_ep_mailboxes"
  else bytes "c_ep_site"

def validWhich (which : Bytes) : Bool :=
  which = bytes "roompolicy" || which = bytes "floorpolicy" || which = bytes "sitepolicy" ||
    which = bytes "mailboxespolicy"

/-- `SetExpirePolicy`: a count or an age below 1 is refused. -/
def setExpirePolicy (s : Store) (which : Bytes) (room : Room) (mode value : Int) :
    Store × Except Bytes Unit :=
  if ¬validWhich which then (s, .error (bytes "Unknown policy level."))
  else if mode < 0 ∨ mode > 3 then (s, .error (bytes "Unknown expiry mode."))
  else if mode ≥ 2 ∧ value < 1 then
    (s, .error (bytes "That expiry mode needs a value of at least 1."))
  else (setConfig s (expireKey which room) (numInt mode ++ ch '|' :: numInt value), .ok ())

/-- `EffectiveExpirePolicy`: room, then floor or mailboxes, then site, then manual. -/
def effectiveExpirePolicy (s : Store) (room : Room) : ExpirePolicy :=
  let p := readPolicy s (roomPolicyKey room)
  if p.mode ≠ .nextLevel then p
  else
    let p := readPolicy s
      (if room.qrFlags &&& qrMailbox ≠ 0 then bytes "c_ep_mailboxes" else floorPolicyKey room)
    if p.mode ≠ .nextLevel then p
    else
      let p := readPolicy s (bytes "c_ep_site")
      if p.mode = .nextLevel then ⟨.manual, 0⟩ else p

/-- The messages a policy dooms, in ascending order. -/
def doomed (w : World) (s : Store) (room : Room) : List Nat :=
  let p := effectiveExpirePolicy s room
  let msgnums := roomMessages s room.roomNum
  match p.mode with
  | .nextLevel => []
  | .manual => []
  | .numMsgs =>
    if (msgnums.length : Int) > p.value then msgnums.take (msgnums.length - p.value.toNat) else []
  | .age =>
    let cutoff := wrap64 (w.now - wrap64 (p.value * 86400))
    msgnums.filter (fun msgnum =>
      match loadMessage s msgnum with
      | none => false
      | some msg => decide (msg.msgtime > 0 ∧ msg.msgtime < cutoff))

/-- Delete the doomed messages of a room; the numbers that were unlinked. -/
def deleteAll (w : World) (roomNum : Nat) : List Nat → Store → Store × List Nat
  | [], s => (s, [])
  | msgnum :: rest, s =>
    match deleteMessage w s roomNum msgnum with
    | (s', .ok _) =>
      let r := deleteAll w roomNum rest s'
      (r.1, msgnum :: r.2)
    | (s', .error _) => deleteAll w roomNum rest s'

/-- The first pass, over the rooms in the order of their numbers. -/
def expireRooms (w : World) : List Room → Store → Store × List Nat
  | [], s => (s, [])
  | room :: rest, s =>
    if room.qrFlags &&& qrPermanent ≠ 0 then expireRooms w rest s
    else
      let r := deleteAll w room.roomNum (doomed w s room) s
      let r' := expireRooms w rest r.1
      (r'.1, r.2 ++ r'.2)

/-- Delete the row of a message no room points at any more. -/
def dropRow (s : Store) (msgnum : Nat) : Store :=
  if s.roomMsgs.any (fun p => p.msgnum == msgnum) then s
  else { s with messages := s.messages.filter (fun r => r.msg.msgnum ≠ msgnum) }

/-- `RunExpiry`: the store it leaves and how many messages it purged. -/
def runExpiry (w : World) (s : Store) : Store × Nat :=
  let r := expireRooms w (s.rooms.insertionSort (fun a b => a.roomNum ≤ b.roomNum)) s
  (r.2.foldl dropRow r.1, r.2.length)

/-- What deletions and the drop of a row no room points at keep, the sweep keeps. -/
theorem runExpiry_rule {w : World} {s : Store} {P : Store → Prop} (h : P s)
    (hdelete : ∀ u n m, P u → P (deleteMessage w u n m).1)
    (hdrop : ∀ u m, P u → P (dropRow u m)) : P (runExpiry w s).1 := by
  have hall : ∀ (n : Nat) (nums : List Nat) (u : Store), P u → P (deleteAll w n nums u).1 := by
    intro n nums
    induction nums with
    | nil => exact fun u hu => hu
    | cons m nums ih =>
      intro u hu
      have hdel := hdelete u n m hu
      unfold deleteAll
      split
      · next heq => rw [heq] at hdel; exact ih _ hdel
      · next heq => rw [heq] at hdel; exact ih _ hdel
  have hrooms : ∀ (rooms : List Room) (u : Store), P u → P (expireRooms w rooms u).1 := by
    intro rooms
    induction rooms with
    | nil => exact fun u hu => hu
    | cons room rooms ih =>
      intro u hu
      unfold expireRooms
      split
      · exact ih u hu
      · exact ih _ (hall room.roomNum _ u hu)
  have hdrops : ∀ (nums : List Nat) (u : Store), P u → P (nums.foldl dropRow u) := by
    intro nums
    induction nums with
    | nil => exact fun u hu => hu
    | cons m nums ih => exact fun u hu => ih _ (hdrop u m hu)
  exact hdrops _ _ (hrooms _ s h)

end QuackMail.Citadel
