import QuackMail.Sieve.Lexer

/-! # The parser of Sieve scripts

`Parser` of `sieve.cpp`.  The token list is what `Peek` and `Next` have left to give; where
it is empty they give `END`, whose line is `eof`.  The recursion of the parser is on a fuel,
and `parseScript` starts with twice the tokens there are.
-/

namespace QuackMail.Sieve

/-! ## The syntax tree -/

inductive MatchType where
  | is
  | contains
  | matches
  deriving DecidableEq

inductive AddressPart where
  | all
  | localpart
  | domain
  | user
  | detail

inductive SizeRelation where
  | over
  | under
  deriving DecidableEq

/-- The tagged arguments common to the match tests. -/
structure MatchTags where
  matchType : MatchType := .is
  comparator : Bytes := bytes "i;ascii-casemap"
  addressPart : AddressPart := .all
  sizeRelation : Option SizeRelation := none

inductive Test where
  | always
  | never
  | not (child : Test)
  | anyof (children : List Test)
  | allof (children : List Test)
  | header (tags : MatchTags) (names keys : List Bytes)
  | address (tags : MatchTags) (names keys : List Bytes)
  | envelope (tags : MatchTags) (names keys : List Bytes)
  | exists' (names : List Bytes)
  | size (tags : MatchTags) (limit : Int)
  | body (tags : MatchTags) (keys : List Bytes)
  | string (tags : MatchTags) (names keys : List Bytes)
  | hasflag (tags : MatchTags) (names keys : List Bytes)

/-- The modifiers of `set`. -/
inductive Modifier where
  | lower
  | upper
  | lowerfirst
  | upperfirst
  | length
  | quotewildcard
  deriving DecidableEq

/-- The arguments of a command other than `require` and `if`. -/
structure Args where
  argument : Bytes := []
  create : Bool := false
  copy : Bool := false
  varName : Bytes := []
  modifiers : List Modifier := []
  flags : List Bytes := []
  hasFlags : Bool := false
  vacSubject : Bytes := []
  vacFrom : Bytes := []
  vacHandle : Bytes := []
  vacAddresses : List Bytes := []
  vacDays : Int := 0
  vacMime : Bool := false

inductive Verb where
  | stop
  | keep
  | discard
  | fileinto
  | redirect
  | reject
  | set
  | setflag
  | addflag
  | removeflag
  | vacation

mutual

inductive Command where
  | require (capabilities : List Bytes)
  | if' (branches : List Branch)
  | act (verb : Verb) (args : Args)

/-- A branch of an `if`; the trailing `else` has no test. -/
inductive Branch where
  | mk (test : Option Test) (body : List Command)

end

/-! ## Expecting a token -/

section Parser

variable (eof : Nat)

/-- `Peek().line`. -/
def peekLine : List Token → Nat
  | [] => eof
  | t :: _ => t.line

def expected (what : String) (toks : List Token) : Bytes :=
  bytes "expected " ++ bytes what ++ onLine (peekLine eof toks)

def expect (t : Tok) (what : String) : List Token → Except Bytes (List Token)
  | [] => .error (expected eof what [])
  | u :: rest => if u.tok = t then .ok rest else .error (expected eof what (u :: rest))

/-! ## String lists -/

/-- The strings of a list after its opening bracket. -/
def parseStrings : List Token → Except Bytes (List Bytes × List Token)
  | ⟨.string v, _⟩ :: ⟨.comma, _⟩ :: rest =>
    (parseStrings rest).map fun r => (v :: r.1, r.2)
  | ⟨.string v, _⟩ :: rest => (expect eof .rbracket "']'" rest).map fun r => ([v], r)
  | toks => .error (expected eof "a string inside the list" toks)

/-- `ParseStringList`: a string, or a bracketed list of strings. -/
def parseStringList : List Token → Except Bytes (List Bytes × List Token)
  | ⟨.string v, _⟩ :: rest => .ok ([v], rest)
  | ⟨.lbracket, _⟩ :: ⟨.rbracket, _⟩ :: rest => .ok ([], rest)
  | ⟨.lbracket, _⟩ :: rest => parseStrings eof rest
  | toks => .error (expected eof "a string or string list" toks)

/-! ## Tests -/

def matchTypeTag (tag : Bytes) : Option MatchType :=
  if tag = bytes "is" then some .is
  else if tag = bytes "contains" then some .contains
  else if tag = bytes "matches" then some .matches
  else none

def addressPartTag (tag : Bytes) : Option AddressPart :=
  if tag = bytes "all" then some .all
  else if tag = bytes "localpart" then some .localpart
  else if tag = bytes "domain" then some .domain
  else if tag = bytes "user" then some .user
  else if tag = bytes "detail" then some .detail
  else none

def sizeRelationTag (tag : Bytes) : Option SizeRelation :=
  if tag = bytes "over" then some .over
  else if tag = bytes "under" then some .under
  else none

/-- A tag without an argument; one that is not known has no effect. -/
def MatchTags.add (m : MatchTags) (tag : Bytes) : MatchTags :=
  match matchTypeTag tag, addressPartTag tag, sizeRelationTag tag with
  | some t, _, _ => { m with matchType := t }
  | none, some p, _ => { m with addressPart := p }
  | none, none, some r => { m with sizeRelation := some r }
  | none, none, none => m

/-- `ParseMatchTags`.  A `:comparator` takes the string after it. -/
def parseMatchTags (m : MatchTags) : List Token → MatchTags × List Token
  | ⟨.tag tag, _⟩ :: ⟨.string v, line⟩ :: rest =>
    if tag = bytes "comparator" then parseMatchTags { m with comparator := lower v } rest
    else parseMatchTags (m.add tag) (⟨.string v, line⟩ :: rest)
  | ⟨.tag tag, _⟩ :: rest => parseMatchTags (m.add tag) rest
  | toks => (m, toks)

/-- The tags, the sources, more tags and the keys of `header` and its like. -/
def parseMatch (toks : List Token) :
    Except Bytes (MatchTags × List Bytes × List Bytes × List Token) := do
  let (tags, toks) := parseMatchTags {} toks
  let (names, toks) ← parseStringList eof toks
  let (tags, toks) := parseMatchTags tags toks
  let (keys, toks) ← parseStringList eof toks
  .ok (tags, names, keys, toks)

def parseSize (toks : List Token) : Except Bytes (Test × List Token) :=
  let (tags, toks) := parseMatchTags {} toks
  match toks with
  | ⟨.number limit, _⟩ :: rest =>
    if tags.sizeRelation = none then
      .error (bytes "size test needs :over or :under" ++ onLine (peekLine eof rest))
    else .ok (.size tags limit, rest)
  | _ => .error (bytes "size test needs a number" ++ onLine (peekLine eof toks))

/-- `hasflag`: of two lists the last has the keys. -/
def parseHasflag (toks : List Token) : Except Bytes (Test × List Token) := do
  let (tags, toks) := parseMatchTags {} toks
  let (keys, toks) ← parseStringList eof toks
  let (tags, toks) := parseMatchTags tags toks
  match toks with
  | ⟨.string _, _⟩ :: _ | ⟨.lbracket, _⟩ :: _ =>
    let (last, rest) ← parseStringList eof toks
    .ok (.hasflag tags keys last, rest)
  | _ => .ok (.hasflag tags [] keys, toks)

/-- A test that has no tests inside. -/
def parseSimpleTest (name : Bytes) (toks : List Token) : Except Bytes (Test × List Token) := do
  if name = bytes "true" then .ok (.always, toks)
  else if name = bytes "false" then .ok (.never, toks)
  else if name = bytes "size" then parseSize eof toks
  else if name = bytes "exists" then
    let (names, toks) ← parseStringList eof toks
    .ok (.exists' names, toks)
  else if name = bytes "header" then
    let (tags, names, keys, toks) ← parseMatch eof toks
    .ok (.header tags names keys, toks)
  else if name = bytes "address" then
    let (tags, names, keys, toks) ← parseMatch eof toks
    .ok (.address tags names keys, toks)
  else if name = bytes "envelope" then
    let (tags, names, keys, toks) ← parseMatch eof toks
    .ok (.envelope tags names keys, toks)
  else if name = bytes "body" then
    let (tags, toks) := parseMatchTags {} toks
    let (keys, toks) ← parseStringList eof toks
    .ok (.body tags keys, toks)
  else if name = bytes "string" then
    let (tags, names, keys, toks) ← parseMatch eof toks
    .ok (.string tags names keys, toks)
  else if name = bytes "hasflag" then parseHasflag eof toks
  else .error (bytes "unknown test '" ++ name ++ bytes "'" ++ onLine (peekLine eof toks))

mutual

/-- `ParseTest`. -/
def parseTest : Nat → List Token → Except Bytes (Test × List Token)
  | 0, _ => .error (bytes "out of fuel")
  | fuel + 1, toks =>
    match toks with
    | ⟨.identifier name, _⟩ :: rest =>
      if name = bytes "not" then (parseTest fuel rest).map fun r => (.not r.1, r.2)
      else if name = bytes "anyof" then
        (parseTests fuel rest).map fun r => (.anyof r.1, r.2)
      else if name = bytes "allof" then
        (parseTests fuel rest).map fun r => (.allof r.1, r.2)
      else parseSimpleTest eof name rest
    | _ => .error (expected eof "a test" toks)

/-- The tests of `anyof` and `allof`, in their parentheses. -/
def parseTests : Nat → List Token → Except Bytes (List Test × List Token)
  | 0, _ => .error (bytes "out of fuel")
  | fuel + 1, toks => do
    let toks ← expect eof .lparen "'(' after anyof/allof" toks
    let (children, toks) ← parseChildren fuel toks
    let toks ← expect eof .rparen "')'" toks
    .ok (children, toks)

/-- The tests between the parentheses. -/
def parseChildren : Nat → List Token → Except Bytes (List Test × List Token)
  | 0, _ => .error (bytes "out of fuel")
  | fuel + 1, toks => do
    let (child, toks) ← parseTest fuel toks
    match toks with
    | ⟨.comma, _⟩ :: rest =>
      let (children, rest) ← parseChildren fuel rest
      .ok (child :: children, rest)
    | _ => .ok ([child], toks)

end

/-! ## Commands -/

def verb (name : Bytes) : Option Verb :=
  if name = bytes "stop" then some .stop
  else if name = bytes "keep" then some .keep
  else if name = bytes "discard" then some .discard
  else if name = bytes "fileinto" then some .fileinto
  else if name = bytes "redirect" then some .redirect
  else if name = bytes "reject" ∨ name = bytes "ereject" then some .reject
  else if name = bytes "set" then some .set
  else if name = bytes "setflag" then some .setflag
  else if name = bytes "addflag" then some .addflag
  else if name = bytes "removeflag" then some .removeflag
  else if name = bytes "vacation" then some .vacation
  else none

def modifier (tag : Bytes) : Option Modifier :=
  if tag = bytes "lower" then some .lower
  else if tag = bytes "upper" then some .upper
  else if tag = bytes "lowerfirst" then some .lowerfirst
  else if tag = bytes "upperfirst" then some .upperfirst
  else if tag = bytes "length" then some .length
  else if tag = bytes "quotewildcard" then some .quotewildcard
  else none

/-- The number of `:days` and `:seconds`. -/
def parseDays (tag : Bytes) : List Token → Except Bytes (Int × List Token)
  | ⟨.number n, _⟩ :: rest => .ok (n, rest)
  | toks =>
    .error (bytes "':" ++ tag ++ bytes "' needs a number" ++ onLine (peekLine eof toks))

/-- The string of `:subject`, `:from` and `:handle`. -/
def parseText (tag : Bytes) : List Token → Except Bytes (Bytes × List Token)
  | ⟨.string v, _⟩ :: rest => .ok (v, rest)
  | toks =>
    .error (bytes "':" ++ tag ++ bytes "' needs a string" ++ onLine (peekLine eof toks))

/-- A tag without an argument; one that is not known has no effect. -/
def Args.add (args : Args) (tag : Bytes) : Args :=
  if tag = bytes "create" then { args with create := true }
  else if tag = bytes "copy" then { args with copy := true }
  else if tag = bytes "mime" then { args with vacMime := true }
  else
    match modifier tag with
    | some m => { args with modifiers := args.modifiers ++ [m] }
    | none => args

/-- `:days`, or `:seconds` rounded up to days. -/
def Args.addDays (args : Args) (tag : Bytes) (n : Int) : Args :=
  if tag = bytes "days" then { args with vacDays := n }
  else { args with vacDays := (longLong (n + 86399)).tdiv 86400 }

def Args.addText (args : Args) (tag v : Bytes) : Args :=
  if tag = bytes "subject" then { args with vacSubject := v }
  else if tag = bytes "from" then { args with vacFrom := v }
  else { args with vacHandle := v }

/-- One tagged argument. -/
def parseTag (args : Args) (tag : Bytes) (toks : List Token) :
    Except Bytes (Args × List Token) :=
  if tag = bytes "flags" then
    (parseStringList eof toks).map fun r =>
      ({ args with flags := args.flags ++ r.1, hasFlags := true }, r.2)
  else if tag = bytes "days" ∨ tag = bytes "seconds" then
    (parseDays eof tag toks).map fun r => (args.addDays tag r.1, r.2)
  else if tag = bytes "subject" ∨ tag = bytes "from" ∨ tag = bytes "handle" then
    (parseText eof tag toks).map fun r => (args.addText tag r.1, r.2)
  else if tag = bytes "addresses" then
    (parseStringList eof toks).map fun r =>
      ({ args with vacAddresses := args.vacAddresses ++ r.1 }, r.2)
  else .ok (args.add tag, toks)

/-- The tagged arguments. -/
def parseTags : Nat → Args → List Token → Except Bytes (Args × List Token)
  | 0, _, _ => .error (bytes "out of fuel")
  | fuel + 1, args, toks =>
    match toks with
    | ⟨.tag tag, _⟩ :: rest => do
      let (args, rest) ← parseTag eof args tag rest
      parseTags fuel args rest
    | _ => .ok (args, toks)

/-- The positional arguments of `set`. -/
def parseSet (args : Args) : List Token → Except Bytes (Args × List Token)
  | ⟨.string name, _⟩ :: ⟨.string value, _⟩ :: rest =>
    .ok ({ args with varName := name, argument := value }, rest)
  | ⟨.string _, _⟩ :: rest =>
    .error (bytes "'set' needs a value" ++ onLine (peekLine eof rest))
  | toks => .error (bytes "'set' needs a variable name" ++ onLine (peekLine eof toks))

/-- The positional arguments of `setflag` and its like: of two lists the last has the
    flags. -/
def parseFlags (args : Args) (toks : List Token) : Except Bytes (Args × List Token) := do
  let (flags, toks) ← parseStringList eof toks
  match toks with
  | ⟨.string _, _⟩ :: _ | ⟨.lbracket, _⟩ :: _ =>
    let (last, rest) ← parseStringList eof toks
    .ok ({ args with flags := last, hasFlags := true }, rest)
  | _ => .ok ({ args with flags := args.flags ++ flags, hasFlags := true }, toks)

/-- The positional arguments. -/
def parsePositional (v : Verb) (args : Args) (toks : List Token) :
    Except Bytes (Args × List Token) :=
  match v with
  | .set => parseSet eof args toks
  | .setflag | .addflag | .removeflag => parseFlags eof args toks
  | _ =>
    match toks with
    | ⟨.string value, _⟩ :: rest => .ok ({ args with argument := value }, rest)
    | _ => .ok (args, toks)

/-- A command other than `require` and `if`, after its name. -/
def parseAct (v : Verb) (toks : List Token) : Except Bytes (Command × List Token) := do
  let (args, toks) ← parseTags eof (toks.length + 1) {} toks
  let (args, toks) ← parsePositional eof v args toks
  let toks ← expect eof .semicolon "';'" toks
  .ok (.act v args, toks)

def parseRequire (toks : List Token) : Except Bytes (Command × List Token) := do
  let (capabilities, toks) ← parseStringList eof toks
  let toks ← expect eof .semicolon "';'" toks
  .ok (.require capabilities, toks)

mutual

/-- `ParseCommand`. -/
def parseCommand : Nat → List Token → Except Bytes (Command × List Token)
  | 0, _ => .error (bytes "out of fuel")
  | fuel + 1, toks =>
    match toks with
    | ⟨.identifier name, _⟩ :: rest =>
      if name = bytes "require" then parseRequire eof rest
      else if name = bytes "if" then
        (parseBranches fuel rest).map fun r => (.if' r.1, r.2)
      else if name = bytes "elsif" ∨ name = bytes "else" then
        .error (bytes "'" ++ name ++ bytes "' without a matching 'if'" ++
          onLine (peekLine eof rest))
      else
        match verb name with
        | some v => parseAct eof v rest
        | none =>
          .error (bytes "unknown command '" ++ name ++ bytes "'" ++ onLine (peekLine eof rest))
    | _ => .error (expected eof "a command" toks)

/-- The branches of an `if`, from the test of one of them on. -/
def parseBranches : Nat → List Token → Except Bytes (List Branch × List Token)
  | 0, _ => .error (bytes "out of fuel")
  | fuel + 1, toks => do
    let (test, toks) ← parseTest eof fuel toks
    let (body, toks) ← parseBlock fuel toks
    match toks with
    | ⟨.identifier name, _⟩ :: rest =>
      if name = bytes "elsif" then
        let (branches, rest) ← parseBranches fuel rest
        .ok (.mk (some test) body :: branches, rest)
      else if name = bytes "else" then
        let (tail, rest) ← parseBlock fuel rest
        .ok ([.mk (some test) body, .mk none tail], rest)
      else .ok ([.mk (some test) body], toks)
    | _ => .ok ([.mk (some test) body], toks)

/-- `ParseBlock`. -/
def parseBlock : Nat → List Token → Except Bytes (List Command × List Token)
  | 0, _ => .error (bytes "out of fuel")
  | fuel + 1, toks => do
    let toks ← expect eof .lbrace "'\x7b'" toks
    parseCommands fuel toks

/-- The commands of a block up to its closing brace. -/
def parseCommands : Nat → List Token → Except Bytes (List Command × List Token)
  | 0, _ => .error (bytes "out of fuel")
  | fuel + 1, toks =>
    match toks with
    | [] => .error (bytes "unterminated block")
    | ⟨.rbrace, _⟩ :: rest => .ok ([], rest)
    | _ => do
      let (c, toks) ← parseCommand fuel toks
      let (cs, toks) ← parseCommands fuel toks
      .ok (c :: cs, toks)

end

/-- The loop of `ParseScript`. -/
def parseProgram : Nat → List Token → Except Bytes (List Command)
  | 0, _ => .error (bytes "out of fuel")
  | fuel + 1, toks =>
    match toks with
    | [] => .ok []
    | _ => do
      let (c, toks) ← parseCommand eof fuel toks
      let cs ← parseProgram fuel toks
      .ok (c :: cs)

/-- `ParseScript`. -/
def parseScript (toks : List Token) : Except Bytes (List Command) :=
  parseProgram eof (2 * toks.length + 3) toks

end Parser

/-- `ParseInternal`. -/
def parseInternal (script : Bytes) : Except Bytes (List Command) := do
  let (toks, eof) ← lex script 1
  parseScript eof toks

end QuackMail.Sieve
