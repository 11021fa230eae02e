import QuackMail.Spf.Macro

/-! # Evaluating a record

`Check` and `Evaluate` of `spf.cpp` over an arbitrary resolver.  `Limits` is the
budget the source shares between all branches; its `log` is not in the source, it
lists what the evaluation did, newest first, so that the budget can be reasoned
about.  A mechanism is a function from the limits to a `Step`.
-/

namespace QuackMail.Spf

inductive Result where
  | none | neutral | pass | fail | softFail | tempError | permError
  deriving DecidableEq

inductive Status where
  | ok | noData | nxDomain | tempFail
  deriving DecidableEq

/-- The answers to the lookups; the first argument is the number of queries issued
    before, so that answers may change over time. -/
structure Resolver where
  txt : Nat → Bytes → Status × List Bytes
  a : Nat → Bytes → Status × List Bytes
  aaaa : Nat → Bytes → Status × List Bytes
  mx : Nat → Bytes → Status × List Bytes
  ptr : Nat → Bytes → Status × List Bytes

/-- What an evaluation does: a query, a term charged, a term refused by the budget, a
    lookup charged as void, and a `ptr` term that comes to its names: the void lookups charged
    so far, and how many of the names the DNS answers as void. -/
inductive Event where
  | query | term | refused | void | ptr (voids voidNames : Nat)
  deriving DecidableEq

structure Limits where
  lookups : Nat
  voidLookups : Nat
  exceeded : Bool
  log : List Event
  deriving DecidableEq

def maxLookups : Nat := 10

def maxVoidLookups : Nat := 2

def maxMxRecords : Nat := 10

def maxPtrRecords : Nat := 10

def maxDepth : Nat := 10

def Limits.start : Limits := ⟨0, 0, false, []⟩

def Limits.queries (l : Limits) : Nat := l.log.count .query

/-- `Charge`: whether the term may be evaluated. -/
def charge (l : Limits) : Limits × Bool :=
  if l.lookups + 1 > maxLookups then
    ({ l with lookups := l.lookups + 1, exceeded := true, log := .refused :: l.log }, false)
  else ({ l with lookups := l.lookups + 1, log := .term :: l.log }, true)

/-- `Void`. -/
def chargeVoid (l : Limits) : Limits :=
  { l with
    voidLookups := l.voidLookups + 1
    exceeded := l.exceeded || decide (l.voidLookups + 1 > maxVoidLookups)
    log := .void :: l.log }

/-- A query is issued. -/
def asked (l : Limits) : Limits := { l with log := .query :: l.log }

/-- The TXT records that are SPF records. -/
def isSpfRecord (t : Bytes) : Bool :=
  startsWithI t (bytes "v=spf1") &&
    !(decide (t.length > 6) && t.getD 6 0 != ch ' ' && t.getD 6 0 != ch '\t')

/-- `FetchRecord`: the single record, or why there is none. -/
def fetchRecord (d : Resolver) (domain : Bytes) (l : Limits) : Limits × Except Result Bytes :=
  match d.txt l.queries domain with
  | (.tempFail, _) => (asked l, .error .tempError)
  | (.ok, txts) =>
    match txts.filter isSpfRecord with
    | [] => (asked l, .error .none)
    | [record] => (asked l, .ok record)
    | _ => (asked l, .error .permError)
  | (_, _) => (asked l, .error .none)

def qualifierToResult (q : Byte) : Result :=
  if q = ch '-' then .fail
  else if q = ch '~' then .softFail
  else if q = ch '?' then .neutral
  else .pass

/-- `atoi`. -/
def atoi (s : Bytes) : Int := (strtoll s).bmod 0x100000000

/-- `SplitCidr`: `"name/cidr4//cidr6"`, -1 for what is missing. -/
def splitCidr (s : Bytes) : Bytes × Int × Int :=
  let (name, cidr6) :=
    match find (bytes "//") s with
    | none => (s, -1)
    | some dbl => (s.take dbl, atoi (s.drop (dbl + 2)))
  match findChar (ch '/') name with
  | none => (name, -1, cidr6)
  | some slash => (name.take slash, atoi (name.drop (slash + 1)), cidr6)

/-- What a host lookup finds. -/
structure HostResult where
  limits : Limits
  hit : Bool
  temp : Bool

/-- `MatchHost`. -/
def matchHost (d : Resolver) (ctx : MacroCtx) (name : Bytes) (cidr : Int) (l : Limits) :
    HostResult :=
  match (if ctx.ip.v6 then d.aaaa else d.a) l.queries name with
  | (.tempFail, _) => ⟨asked l, false, true⟩
  | (.ok, addrs) =>
    ⟨asked l, addrs.any (fun a => (parseIp a).any (fun ip => prefixMatch ctx.ip ip cidr)), false⟩
  | (_, _) => ⟨chargeVoid (asked l), false, false⟩

/-- The hosts of an `mx` term, until one matches. -/
def matchHosts (d : Resolver) (ctx : MacroCtx) (cidr : Int) : List Bytes → Bool → Limits →
    HostResult
  | [], temp, l => ⟨l, false, temp⟩
  | host :: hosts, temp, l =>
    let r := matchHost d ctx host cidr l
    if r.hit then ⟨r.limits, true, temp || r.temp⟩
    else matchHosts d ctx cidr hosts (temp || r.temp) r.limits

/-- Whether a validated PTR name is the target or below it. -/
def underTarget (candidate target : Bytes) : Bool :=
  let lc := lower candidate
  let lt := lower target
  lc == lt || (decide (lc.length > lt.length) &&
    lc.drop (lc.length - lt.length - 1) == ch '.' :: lt)

def stripDot (name : Bytes) : Bytes :=
  if name.getLast? = some (ch '.') then name.dropLast else name

/-- The names of a `ptr` term, until one resolves back and lies under the target. -/
def matchPtrNames (d : Resolver) (ctx : MacroCtx) (target : Bytes) : List Bytes → Limits →
    Limits × Bool
  | [], l => (l, false)
  | name :: names, l =>
    let r := matchHost d ctx (stripDot name) (-1) l
    if r.hit ∧ underTarget (stripDot name) target then (r.limits, true)
    else matchPtrNames d ctx target names r.limits

/-- The names that have no address, up to the one that resolves back and lies under the target;
    the first of them is looked up after `q` queries. -/
def voidNames (d : Resolver) (ip : Ip) (target : Bytes) : Nat → List Bytes → Nat
  | _, [] => 0
  | q, name :: names =>
    match (if ip.v6 then d.aaaa else d.a) q (stripDot name) with
    | (.tempFail, _) => voidNames d ip target (q + 1) names
    | (.ok, addrs) =>
      if (addrs.any fun a => (parseIp a).any fun b => prefixMatch ip b (-1)) ∧
          underTarget (stripDot name) target then 0
      else voidNames d ip target (q + 1) names
    | (_, _) => voidNames d ip target (q + 1) names + 1

/-- What a term does: end the evaluation or go on to the next one. -/
inductive Step where
  | stop (result : Result) (explanation : Bytes) (limits : Limits)
  | next (limits : Limits)
  deriving DecidableEq

structure Outcome where
  result : Result
  record : Bytes
  explanation : Bytes
  limits : Limits

/-- A term without its qualifier, split at `:` or `/`. -/
structure Term where
  qualifier : Byte
  mech : Bytes
  arg : Bytes
  deriving DecidableEq

def parseTerm (raw : Bytes) : Option Term :=
  let qualified := raw.head?.any (fun c => c == ch '+' || c == ch '-' || c == ch '~' || c == ch '?')
  let qualifier := if qualified then raw.headD 0 else ch '+'
  let term := if qualified then raw.drop 1 else raw
  if term = [] then none
  else
    match findChar (ch ':') term, findChar (ch '/') term with
    | some colon, none => some ⟨qualifier, lower (term.take colon), term.drop (colon + 1)⟩
    | some colon, some slash =>
      if colon < slash then some ⟨qualifier, lower (term.take colon), term.drop (colon + 1)⟩
      else some ⟨qualifier, lower (term.take slash), term.drop slash⟩
    | none, some slash => some ⟨qualifier, lower (term.take slash), term.drop slash⟩
    | none, none => some ⟨qualifier, lower term, []⟩

section Mechanisms

/-! ## The mechanisms -/

variable (d : Resolver) (sub : Bytes → MacroCtx → Limits → Outcome) (domain : Bytes)
  (ctx : MacroCtx) (raw : Bytes) (t : Term) (l : Limits)

def tooManyLookups (domain : Bytes) : Bytes := bytes "too many DNS lookups evaluating " ++ domain

def tooManyVoids (domain : Bytes) : Bytes := bytes "too many void DNS lookups evaluating " ++ domain

def matched (raw domain : Bytes) : Bytes := bytes "client matched " ++ raw ++ bytes " in " ++ domain

/-- `all`. -/
def evalAll : Step :=
  .stop (qualifierToResult t.qualifier)
    (bytes "matched 'all' in " ++ domain ++ bytes "'s SPF record") l

/-- `ip4` and `ip6`: the prefix length is always the one `SplitCidr` returns first. -/
def evalIp : Step :=
  let (name, c4, _) := splitCidr t.arg
  match parseIp name with
  | none => .stop .permError (bytes "malformed " ++ t.mech ++ bytes " term in " ++ domain) l
  | some target =>
    if prefixMatch ctx.ip target c4 then
      .stop (qualifierToResult t.qualifier) (matched raw domain) l
    else .next l

/-- The host name and prefix length of an `a` or `mx` term. -/
def hostArg : Bytes × Int :=
  let (name, c4, c6) := splitCidr (if t.arg.head? = some (ch '/') then domain ++ t.arg else t.arg)
  (expandMacros (if name = [] then domain else name) ctx, if ctx.ip.v6 then c6 else c4)

/-- `mx` under the strict lookup, which has no implicit MX. -/
def matchMx (name : Bytes) (cidr : Int) (l : Limits) : HostResult :=
  match d.mx l.queries name with
  | (.tempFail, _) => ⟨asked l, false, true⟩
  | (.ok, hosts) => matchHosts d ctx cidr (hosts.take maxMxRecords) false (asked l)
  | (_, _) => ⟨chargeVoid (asked l), false, false⟩

/-- `a` and `mx`. -/
def evalHost : Step :=
  match charge l with
  | (l, false) => .stop .permError (tooManyLookups domain) l
  | (l, true) =>
    let (name, cidr) := hostArg domain ctx t
    let r := if t.mech = bytes "a" then matchHost d ctx name cidr l else matchMx d ctx name cidr l
    if r.temp then .stop .tempError (bytes "DNS temporary failure resolving " ++ name) r.limits
    else if r.limits.exceeded then .stop .permError (tooManyVoids domain) r.limits
    else if r.hit then .stop (qualifierToResult t.qualifier) (matched raw domain) r.limits
    else .next r.limits

def evalExists : Step :=
  match charge l with
  | (l, false) => .stop .permError (tooManyLookups domain) l
  | (l, true) =>
    let name := expandMacros t.arg ctx
    let answer := d.a l.queries name
    let l := asked l
    if answer.1 = .tempFail then
      .stop .tempError (bytes "DNS temporary failure for exists:" ++ name) l
    else if answer.1 = .ok ∧ answer.2 ≠ [] then
      .stop (qualifierToResult t.qualifier) (matched raw domain) l
    else if (chargeVoid l).exceeded then .stop .permError (tooManyVoids domain) (chargeVoid l)
    else .next (chargeVoid l)

/-- `include`: only a pass of the included record matches. -/
def evalInclude : Step :=
  match charge l with
  | (l, false) => .stop .permError (tooManyLookups domain) l
  | (l, true) =>
    let target := expandMacros t.arg ctx
    let o := sub target ctx l
    match o.result with
    | .pass => .stop (qualifierToResult t.qualifier) (bytes "client matched include:" ++ target) o.limits
    | .tempError => .stop .tempError o.explanation o.limits
    | .none =>
      .stop .permError
        (bytes "include:" ++ target ++ bytes " is unusable (" ++ o.explanation ++ bytes ")") o.limits
    | .permError =>
      .stop .permError
        (bytes "include:" ++ target ++ bytes " is unusable (" ++ o.explanation ++ bytes ")") o.limits
    | _ => .next o.limits

/-- A `ptr` term comes to its names. -/
def ptrBegun (voidNames : Nat) (l : Limits) : Limits :=
  { l with log := .ptr (l.log.count .void) voidNames :: l.log }

/-- `ptr`; there is no test of the void budget here. -/
def evalPtr : Step :=
  match charge l with
  | (l, false) => .stop .permError (tooManyLookups domain) l
  | (l, true) =>
    let target := if t.arg = [] then domain else expandMacros t.arg ctx
    let answer := d.ptr l.queries ctx.clientIpText
    if answer.1 = .tempFail then .stop .tempError (bytes "DNS temporary failure resolving PTR") (asked l)
    else
      let names := answer.2.take maxPtrRecords
      let begun := ptrBegun (voidNames d ctx.ip target (asked l).queries names) (asked l)
      let r := matchPtrNames d ctx target names begun
      if r.2 then
        .stop (qualifierToResult t.qualifier) (bytes "client matched ptr in " ++ domain) r.1
      else .next r.1

/-- One term that is no `redirect=` and no `exp=`. -/
def evalTerm : Step :=
  match parseTerm raw with
  | none => .next l
  | some t =>
    if t.mech = bytes "all" then evalAll domain t l
    else if t.mech = bytes "ip4" ∨ t.mech = bytes "ip6" then evalIp domain ctx raw t l
    else if t.mech = bytes "a" ∨ t.mech = bytes "mx" then evalHost d domain ctx raw t l
    else if t.mech = bytes "exists" then evalExists d domain ctx raw t l
    else if t.mech = bytes "include" then evalInclude sub domain ctx t l
    else if t.mech = bytes "ptr" then evalPtr d domain ctx t l
    else if ch '=' ∈ raw then .next l
    else .stop .permError (bytes "unknown mechanism '" ++ t.mech ++ bytes "' in " ++ domain) l

/-- After the last term: the redirect, or neutral. -/
def evalRedirect (record redirect : Bytes) : Outcome :=
  if redirect = [] then
    ⟨.neutral, record, bytes "no mechanism matched in " ++ domain ++ bytes "'s SPF record", l⟩
  else
    match charge l with
    | (l, false) => ⟨.permError, record, tooManyLookups domain, l⟩
    | (l, true) =>
      let o := sub redirect ctx l
      if o.result = .none then
        ⟨.permError, record, bytes "redirect=" ++ redirect ++ bytes " has no SPF record", o.limits⟩
      else ⟨o.result, if o.record = [] then record else o.record, o.explanation, o.limits⟩

/-- The terms of a record, with the redirect seen so far. -/
def evalTerms (record : Bytes) : List Bytes → Bytes → Limits → Outcome
  | [], redirect, l => evalRedirect sub domain ctx l record redirect
  | raw :: rest, redirect, l =>
    if startsWithI raw (bytes "redirect=") then
      evalTerms record rest (expandMacros (raw.drop 9) ctx) l
    else if startsWithI raw (bytes "exp=") then evalTerms record rest redirect l
    else
      match evalTerm d sub domain ctx raw l with
      | .stop result explanation l => ⟨result, record, explanation, l⟩
      | .next l => evalTerms record rest redirect l

end Mechanisms

/-- The words of a record; the first is the version. -/
def terms (record : Bytes) : List Bytes :=
  (splitAny [ch ' ', ch '\t'] record).filter (fun t => decide (t ≠ []))

/-- `Evaluate`; the first argument counts how much deeper the nesting may get, so it is
    0 where the source finds `depth > kMaxDepth`. -/
def evaluate (d : Resolver) : Nat → Bytes → MacroCtx → Limits → Outcome
  | 0, _, _, l => ⟨.permError, [], bytes "include/redirect nesting too deep", l⟩
  | n + 1, domain, ctx, l =>
    if domain = [] then ⟨.none, [], bytes "empty domain", l⟩
    else
      match fetchRecord d domain l with
      | (l, .error .tempError) =>
        ⟨.tempError, [], bytes "DNS temporary failure for " ++ domain, l⟩
      | (l, .error .permError) =>
        ⟨.permError, [], bytes "multiple SPF records for " ++ domain, l⟩
      | (l, .error _) => ⟨.none, [], bytes "no SPF record for " ++ domain, l⟩
      | (l, .ok record) =>
        evalTerms d (evaluate d n) domain { ctx with domain := domain } record
          ((terms record).drop 1) [] l

/-- The identity that is checked: an empty reverse-path is `postmaster@<helo>`. -/
def identity (helo mailFrom : Bytes) : Bytes :=
  let id := if mailFrom = [] ∨ mailFrom = bytes "<>" then bytes "postmaster@" ++ helo else mailFrom
  if ch '@' ∈ id then id else bytes "postmaster@" ++ id

/-- `Eval`, with the limits the evaluation ended with. -/
structure Eval where
  result : Result
  domain : Bytes
  explanation : Bytes
  record : Bytes
  limits : Limits

/-- `Check`. -/
def check (d : Resolver) (clientIp helo mailFrom : Bytes) : Eval :=
  match parseIp clientIp with
  | none => ⟨.none, [], bytes "no usable client IP address", [], .start⟩
  | some ip =>
    let sender := identity helo mailFrom
    let domain := domainOf sender
    if domain = [] then ⟨.none, [], bytes "no domain in the sender identity", [], .start⟩
    else
      let o := evaluate d (maxDepth + 1) domain ⟨ip, sender, domain, helo, clientIp⟩ .start
      ⟨o.result, domain, o.explanation, o.record, o.limits⟩

end QuackMail.Spf
