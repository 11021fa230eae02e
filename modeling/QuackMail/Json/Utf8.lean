import QuackMail.Bytes

/-! # UTF-8

What it means that a byte string is UTF-8 text.
-/

namespace QuackMail

namespace Json

/-- The bytes are the UTF-8 of a string of Unicode characters. -/
def Unicode (s : Bytes) : Prop := ∃ cs : List Char, s = cs.flatMap String.utf8EncodeChar

end Json

end QuackMail
