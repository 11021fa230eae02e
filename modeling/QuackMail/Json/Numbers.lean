import QuackMail.Bytes
import QuackMail.Lib.Binary64

/-! # JSON numbers

The reader of a number, `Parser::ParseNumber`, which walks the grammar itself and leaves only the
value to `strtod`.
-/

namespace QuackMail

namespace Json

open Binary64

/-! ## Reading a number -/

def isExp (c : Byte) : Bool := c == ch 'e' || c == ch 'E'

/-- Step over a minus sign. -/
def skipMinus : Bytes → Bytes
  | [] => []
  | c :: s => if c = ch '-' then s else c :: s

/-- Step over the sign of an exponent. -/
def skipSign : Bytes → Bytes
  | [] => []
  | c :: s => if c = ch '+' ∨ c = ch '-' then s else c :: s

/-- Step over the integer. -/
def skipInt : Bytes → Except String Bytes
  | [] => .error "truncated number"
  | c :: s =>
    if c = ch '0' then .ok s
    else if ch '1' ≤ c ∧ c ≤ ch '9' then .ok ((c :: s).dropWhile isDigit)
    else .error "not a JSON value"

/-- Step over a fraction, and say whether there was one. -/
def skipFrac : Bytes → Except String (Bool × Bytes)
  | [] => .ok (false, [])
  | c :: s =>
    if c = ch '.' then
      if s.takeWhile isDigit = [] then .error "a fraction needs a digit"
      else .ok (true, s.dropWhile isDigit)
    else .ok (false, c :: s)

/-- Step over an exponent, and say whether there was one. -/
def skipExp : Bytes → Except String (Bool × Bytes)
  | [] => .ok (false, [])
  | c :: s =>
    if isExp c then
      if (skipSign s).takeWhile isDigit = [] then .error "an exponent needs a digit"
      else .ok (true, (skipSign s).dropWhile isDigit)
    else .ok (false, c :: s)

/-- The number of these digits, `places` of them behind the point, times a power of ten. -/
def decimal (digits : Bytes) (places : Nat) (exponent : Int) : ℚ :=
  digitsFrom 0 digits * (10 : ℚ) ^ (exponent - places)

def fractionDigits : Bytes → Bytes
  | [] => []
  | c :: s => if c = ch '.' then s.takeWhile isDigit else []

def afterFraction : Bytes → Bytes
  | [] => []
  | c :: s => if c = ch '.' then s.dropWhile isDigit else c :: s

def exponentOf : Bytes → Int
  | [] => 0
  | c :: s =>
    if isExp c then
      if s.head? = some (ch '-') then -digitsFrom 0 (skipSign s) else digitsFrom 0 (skipSign s)
    else 0

/-- `strtod` of the text of a number. -/
def strtod (s : Bytes) : Double :=
  let negative := s.head? == some (ch '-')
  let s := skipMinus s
  let int := s.takeWhile isDigit
  let s := s.dropWhile isDigit
  let frac := fractionDigits s
  nearest negative (decimal (int ++ frac) frac.length (exponentOf (afterFraction s)))

/-- `Parser::ParseNumber`: the number, whether it is written as an integer, and what follows. -/
def parseNumber (s : Bytes) : Except String (Double × Bool × Bytes) :=
  match skipInt (skipMinus s) with
  | .error e => .error e
  | .ok afterInt =>
    match skipFrac afterInt with
    | .error e => .error e
    | .ok (frac, afterFrac) =>
      match skipExp afterFrac with
      | .error e => .error e
      | .ok (exp, rest) => .ok (strtod (s.take (s.length - rest.length)), !frac && !exp, rest)

end Json

end QuackMail
