import QuackMail.ManageSieve.Scripts
import QuackMail.Net.Reads

/-! # Arguments

`ReadArg` takes one argument off the rest of a command line.  For a literal it goes on to the
stream: the octets it announces, and then the line behind them, which becomes the rest.
-/

namespace QuackMail.ManageSieve

open Net

/-- The longest line a session reads. -/
def maxLine : Nat := 8192

def isBlank (c : Byte) : Bool := c == ch ' ' || c == ch '\t'

/-! ## What stands at the front of the rest -/

inductive Token where
  | missing
  | malformed
  | unterminated (value : Bytes)
  | quoted (value rest : Bytes)
  /-- the text before the first brace that closes, without a `+`, and what follows it -/
  | literal (digits behind : Bytes)
  | atom (value rest : Bytes)
  deriving DecidableEq

/-- A quoted string behind its opening quote, and what follows the closing one, if there is
    one; a backslash takes the next byte with it, unless it is the last. -/
def quotedString : Bytes → Bytes × Option Bytes
  | [] => ([], none)
  | [c] => if c = ch '"' then ([], some []) else ([c], none)
  | c :: d :: s =>
    if c = ch '"' then ([], some (d :: s))
    else if c = ch '\\' then (d :: (quotedString s).1, (quotedString s).2)
    else (c :: (quotedString (d :: s)).1, (quotedString (d :: s)).2)

/-- The count of a literal without the mark of one that does not wait for the server. -/
def stripPlus (s : Bytes) : Bytes := if s.getLast? = some (ch '+') then s.dropLast else s

def token (rest : Bytes) : Token :=
  match rest.dropWhile isBlank with
  | [] => .missing
  | c :: s =>
    if c = ch '"' then
      match quotedString s with
      | (value, none) => .unterminated value
      | (value, some behind) => .quoted value behind
    else if c = ch '\x7b' then
      match findChar (ch '\x7d') s with
      | none => .malformed
      | some close => .literal (stripPlus (s.take close)) (s.drop (close + 1))
    else .atom ((c :: s).takeWhile (!isBlank ·)) ((c :: s).dropWhile (!isBlank ·))

/-! ## Reading -/

/-- The loop over `ReadAvailable`.  Every round takes a byte at least, so as many rounds as
    there are bytes to read are enough. -/
def payloadLoop (want : Nat) : Nat → Bytes → ClientStream → ClientStream × Option Bytes
  | 0, payload, s => (s, if payload.length < want then none else some payload)
  | fuel + 1, payload, s =>
    if payload.length < want then
      match readAvailable (want - payload.length) s with
      | (s', none) => (s', none)
      | (s', some chunk) => payloadLoop want fuel (payload ++ chunk) s'
    else (s, some payload)

def readPayload (want : Nat) (s : ClientStream) : ClientStream × Option Bytes :=
  payloadLoop want want [] s

/-- `(size_t)atoll(digits) > kMaxScriptBytes`; a negative number is a large size. -/
def tooLarge (digits : Bytes) : Bool :=
  decide (strtoll digits < 0 ∨ (maxScriptBytes : Int) < strtoll digits)

/-- `ReadArg`: the argument, which has a value also after an error, and what is left of the
    line. -/
def readArg (s : ClientStream) (rest : Bytes) : ClientStream × Bytes × Except Bytes Bytes :=
  match token rest with
  | .missing => (s, [], .error (bytes "missing argument"))
  | .malformed => (s, [], .error (bytes "malformed literal"))
  | .unterminated value => (s, value, .error (bytes "unterminated quoted string"))
  | .quoted value behind => (s, value, .ok behind)
  | .atom value behind => (s, value, .ok behind)
  | .literal digits _ =>
    if tooLarge digits then (s, [], .error (bytes "literal too large"))
    else
      match readPayload (strtoll digits).toNat s with
      | (s', none) => (s', [], .error (bytes "connection closed inside a literal"))
      | (s', some payload) =>
        match readLine maxLine s' with
        | (s'', none) => (s'', payload, .ok [])
        | (s'', some tail) => (s'', payload, .ok tail)

end QuackMail.ManageSieve
