import QuackMail.Bytes
import QuackMail.Lib.Binary64

/-! # JSON values

The value tree of `json.hpp`.  An object's members are in order, and a name may occur twice.
-/

namespace QuackMail

namespace Json

open Binary64

/-- `Value`: the field that its type populates. -/
inductive Value
  | null
  | boolean (boolean : Bool)
  | number (number : Double) (integral : Bool)
  | string (str : Bytes)
  | array (items : List Value)
  | object (members : List (Bytes × Value))

end Json

end QuackMail
