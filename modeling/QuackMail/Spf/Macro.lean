import QuackMail.Bytes

/-! # Addresses and macros

The address handling and the macro expansion of `spf.cpp`.
-/

namespace QuackMail.Spf

def startsWithI (s pre : Bytes) : Bool :=
  decide (s.length ≥ pre.length) && lower (s.take pre.length) == lower pre

/-- `addr.rfind('@')`: how many bytes stand before the last `@`. -/
def lastAt (addr : Bytes) : Option Nat :=
  (findChar (ch '@') addr.reverse).map (fun i => addr.length - 1 - i)

def domainOf (addr : Bytes) : Bytes :=
  match lastAt addr with
  | none => []
  | some at_ => addr.drop (at_ + 1)

def localOf (addr : Bytes) : Bytes :=
  match lastAt addr with
  | none => addr
  | some at_ => addr.take at_

/-! ## Addresses -/

/-- A valid `Ip`: 4 or 16 bytes in network order. -/
structure Ip where
  v6 : Bool
  bytes : List Byte

/-- One decimal octet of `inet_pton`: no leading zero, at most 255. -/
def octet (s : Bytes) : Option Byte :=
  if s ≠ [] ∧ s.all isDigit ∧ (s.length = 1 ∨ s.head? ≠ some (ch '0')) ∧ digitsFrom 0 s ≤ 255 then
    some (UInt8.ofNat (digitsFrom 0 s))
  else none

/-- `inet_pton(AF_INET, …)`. -/
def inetPton4 (s : Bytes) : Option (List Byte) :=
  match (splitOn (ch '.') s).map octet with
  | [some a, some b, some c, some d] => some [a, b, c, d]
  | _ => none

def hexValue (c : Byte) : Option Nat :=
  if isDigit c then some (c.toNat - 48)
  else if ch 'a' ≤ c ∧ c ≤ ch 'f' then some (c.toNat - 87)
  else if ch 'A' ≤ c ∧ c ≤ ch 'F' then some (c.toNat - 55)
  else none

/-- The two bytes of a group. -/
def groupBytes (val : Nat) : List Byte := [UInt8.ofNat (val / 256), UInt8.ofNat (val % 256)]

/-- What stands left and right of a `::`, filled up to 16 bytes. -/
def expandColon (out : List Byte) (colon : Option Nat) : Option (List Byte) :=
  match colon with
  | none => if out.length = 16 then some out else none
  | some p =>
    if out.length ≥ 16 then none
    else some (out.take p ++ List.replicate (16 - out.length) 0 ++ out.drop p)

/-- The loop of `inet_pton(AF_INET6, …)`: the bytes so far, where the `::` stood, the
    text from the start of the group on, and the digits of the group. -/
def pton6Loop (out : List Byte) (colon : Option Nat) (curtok : Bytes) (digits val : Nat) :
    Bytes → Option (List Byte)
  | [] =>
    if digits > 0 then
      if out.length + 2 > 16 then none else expandColon (out ++ groupBytes val) colon
    else expandColon out colon
  | c :: s =>
    match hexValue c with
    | some d =>
      if digits = 4 then none else pton6Loop out colon curtok (digits + 1) (val * 16 + d) s
    | none =>
      if c = ch ':' then
        if digits = 0 then
          if colon.isSome then none else pton6Loop out (some out.length) s 0 0 s
        else if s = [] then none
        else if out.length + 2 > 16 then none
        else pton6Loop (out ++ groupBytes val) colon s 0 0 s
      else if c = ch '.' ∧ out.length + 4 ≤ 16 then
        match inetPton4 curtok with
        | some quad => expandColon (out ++ quad) colon
        | none => none
      else none

def inetPton6 (s : Bytes) : Option (List Byte) :=
  match s with
  | [] => none
  | c :: rest =>
    if c = ch ':' then
      -- a leading colon has to be the first of two
      if rest.head? = some (ch ':') then pton6Loop [] none rest 0 0 rest else none
    else pton6Loop [] none s 0 0 s

/-- `ParseIp`, `none` for an invalid address; a C string ends at a NUL. -/
def parseIp (s : Bytes) : Option Ip :=
  let text := s.takeWhile (· ≠ 0)
  match inetPton4 text with
  | some quad => some ⟨false, quad⟩
  | none => (inetPton6 text).map (fun b => ⟨true, b⟩)

/-- `PrefixMatch`: the first `prefixBits` bits of two addresses of one family; a length
    out of range means all of them. -/
def prefixMatch (a b : Ip) (prefixBits : Int) : Bool :=
  if a.v6 ≠ b.v6 then false
  else
    let total : Int := if a.v6 then 128 else 32
    let bits := (if prefixBits < 0 ∨ prefixBits > total then total else prefixBits).toNat
    let whole := bits / 8
    let rest := bits % 8
    if a.bytes.take whole ≠ b.bytes.take whole then false
    else if rest = 0 then true
    else
      let mask : Byte := 255 <<< UInt8.ofNat (8 - rest)
      a.bytes.getD whole 0 &&& mask == b.bytes.getD whole 0 &&& mask

def lowerHex (n : Nat) : Byte := (bytes "0123456789abcdef").getD n 0

/-- `MacroIp`: dotted quad, or dotted nibbles of an IPv6 address. -/
def macroIp (ip : Ip) : Bytes :=
  if ip.v6 then
    joinWith (ch '.') (ip.bytes.flatMap (fun c => [[lowerHex (c.toNat / 16)], [lowerHex (c.toNat % 16)]]))
  else joinWith (ch '.') (ip.bytes.map (fun c => num c.toNat))

/-! ## Macros -/

structure MacroCtx where
  ip : Ip
  sender : Bytes
  domain : Bytes
  helo : Bytes
  clientIpText : Bytes

/-- Split at every byte of `delims`. -/
def splitAny (delims : Bytes) : Bytes → List Bytes
  | [] => [[]]
  | c :: s =>
    if c ∈ delims then [] :: splitAny delims s
    else
      match splitAny delims s with
      | [] => [[c]]
      | piece :: rest => (c :: piece) :: rest

/-- `Transform`: the reverse and count transformers. -/
def transform (value : Bytes) (digits : Nat) (reverse : Bool) (delims : Bytes) : Bytes :=
  let parts := splitAny (if delims = [] then bytes "." else delims) value
  let parts := if reverse then parts.reverse else parts
  let parts := if digits > 0 ∧ digits < parts.length then parts.drop (parts.length - digits) else parts
  joinWith (ch '.') parts

def urlEscape (s : Bytes) : Bytes :=
  s.flatMap (fun c =>
    if isAlnum c || c == ch '-' || c == ch '.' || c == ch '_' || c == ch '~' then [c]
    else [ch '%', toUpper (lowerHex (c.toNat / 16)), toUpper (lowerHex (c.toNat % 16))])

def macroValue (ctx : MacroCtx) (letter : Byte) : Bytes :=
  if letter = ch 's' then ctx.sender
  else if letter = ch 'l' then localOf ctx.sender
  else if letter = ch 'o' then domainOf ctx.sender
  else if letter = ch 'd' then ctx.domain
  else if letter = ch 'i' then macroIp ctx.ip
  else if letter = ch 'h' then ctx.helo
  else if letter = ch 'v' then (if ctx.ip.v6 then bytes "ip6" else bytes "in-addr")
  else if letter = ch 'c' then ctx.clientIpText
  else if letter = ch 'r' then bytes "quackcit"
  else []

/-- What stands between the braces of a macro. -/
def macroBody (ctx : MacroCtx) : Bytes → Bytes
  | [] => []
  | c :: rest =>
    let digits := digitsFrom 0 rest
    let rest := rest.dropWhile isDigit
    let reverse := rest.head? == some (ch 'r') || rest.head? == some (ch 'R')
    let delims := if reverse then rest.drop 1 else rest
    let value := transform (macroValue ctx (toLower c)) digits reverse delims
    if isUpper c then urlEscape value else value

/-- `ExpandMacros`, with the number of bytes to skip before going on. -/
def expandFrom (ctx : MacroCtx) : Nat → Bytes → Bytes
  | _, [] => []
  | skip + 1, _ :: s => expandFrom ctx skip s
  | 0, c :: s =>
    if c ≠ ch '%' then c :: expandFrom ctx 0 s
    else
      match s.head? with
      | none => [ch '%']
      | some next =>
        if next = ch '%' then ch '%' :: expandFrom ctx 1 s
        else if next = ch '_' then ch ' ' :: expandFrom ctx 1 s
        else if next = ch '-' then bytes "%20" ++ expandFrom ctx 1 s
        else if next ≠ ch '{' then ch '%' :: next :: expandFrom ctx 1 s
        else
          match findChar (ch '}') s with
          | none => bytes "%\x7b" ++ expandFrom ctx 1 s
          | some close => macroBody ctx ((s.take close).drop 1) ++ expandFrom ctx (close + 1) s

def expandMacros (s : Bytes) (ctx : MacroCtx) : Bytes := expandFrom ctx 0 s

end QuackMail.Spf
