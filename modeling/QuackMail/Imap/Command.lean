import QuackMail.Bytes

/-! # Command lines

How `HandleImap` takes a line apart, and the small texts its branches share.
-/

namespace QuackMail.Imap

/-- The text up to the first space, and what follows it. -/
def splitWord (s : Bytes) : Bytes × Bytes :=
  match findChar (ch ' ') s with
  | none => (s, [])
  | some sp => (s.take sp, s.drop (sp + 1))

structure Command where
  tag : Bytes
  cmd : Bytes
  args : Bytes

/-- `tag SP command [SP args]`, the command in upper case. -/
def parseCommand (line : Bytes) : Command :=
  let first := splitWord line
  let second := splitWord first.2
  ⟨first.1, upper second.1, second.2⟩

/-- `unq`: a text without the quotes around it. -/
def unquoted (s : Bytes) : Bytes :=
  if s.length ≥ 2 ∧ s.head? = some (ch '"') ∧ s.getLast? = some (ch '"') then (s.drop 1).dropLast
  else s

/-- The part of a mailbox name behind its last slash. -/
def leafOf (name : Bytes) : Bytes :=
  ((name.reverse.takeWhile (fun c => c != ch '/')).reverse)

end QuackMail.Imap
