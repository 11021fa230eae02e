import QuackMail.Bytes

/-! # Resource names

The default name of an object is its euid with every byte that is not safe in a path segment
written as `~` and two hexadecimal digits, and an extension that says what the collection
holds.  `EuidForName` and `StripExt` go the other way.
-/

namespace QuackMail.Dav

/-- `IsSafeNameByte`. -/
def isSafeNameByte (c : Byte) : Bool := isAlnum c || c == ch '.' || c == ch '_' || c == ch '-'

/-- `HexVal`, without a value for what is no digit. -/
def hexVal (c : Byte) : Option Nat :=
  if isDigit c then some (c.toNat - 48)
  else if ch 'a' ≤ c && c ≤ ch 'f' then some (c.toNat - 87)
  else if ch 'A' ≤ c && c ≤ ch 'F' then some (c.toNat - 55)
  else none

/-- `kHex`. -/
def hexDigit (n : Nat) : Byte := (bytes "0123456789ABCDEF").getD n 0

def escaped (c : Byte) : Bytes := [ch '~', hexDigit (c.toNat / 16), hexDigit (c.toNat % 16)]

/-- The name of an euid behind its first byte. -/
def nameTail (euid : Bytes) : Bytes :=
  euid.flatMap fun c => if isSafeNameByte c then [c] else escaped c

/-- `NameForEuid`: a dot in front is escaped as well. -/
def nameForEuid : Bytes → Bytes
  | [] => []
  | c :: euid =>
    (if isSafeNameByte c && !(c == ch '.') then [c] else escaped c) ++ nameTail euid

/-- `EuidForName`: a `~` without two digits behind it stands for itself. -/
def euidForName : Bytes → Bytes
  | c :: d :: e :: name =>
    if c = ch '~' then
      match hexVal d, hexVal e with
      | some hi, some lo => UInt8.ofNat (16 * hi + lo) :: euidForName name
      | _, _ => c :: euidForName (d :: e :: name)
    else c :: euidForName (d :: e :: name)
  | name => name

def extensions : List Bytes := [bytes ".ics", bytes ".vcf", bytes ".vcs"]

/-- `StripExt`. -/
def stripExt (name : Bytes) : Bytes :=
  if 4 < name.length ∧ lower (name.drop (name.length - 4)) ∈ extensions then
    name.take (name.length - 4)
  else name

end QuackMail.Dav
