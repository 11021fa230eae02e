import QuackMail.Spf.Evaluate

/-! # Prefix lengths

When the prefix length of an `ip4`, `ip6`, `a` or `mx` term decides an evaluation.  The
grammar of the suffix is said here on its own; the program reads it with two searches
for `/` and `atoi`, so that a suffix that is no number is the length 0.
-/

namespace QuackMail.Spf

/-! ## Bits -/

/-- The bits of an octet, the highest one first. -/
def byteBits (c : Byte) : List Bool := (List.range 8).map (fun j => c.toNat.testBit (7 - j))

namespace Ip

def bits (a : Ip) : List Bool := a.bytes.flatMap byteBits

def size (a : Ip) : Nat := if a.v6 then 128 else 32

/-- The first `k` bits of two addresses of one family are the same. -/
def Agree (k : Nat) (a b : Ip) : Prop := a.v6 = b.v6 ∧ a.bits.take k = b.bits.take k

end Ip

/-- A text from its first `/` on; `SplitCidr` does not know macros, and neither does this. -/
def suffixOf (text : Bytes) : Bytes := text.dropWhile (· != ch '/')

/-- The text of a term that `SplitCidr` is given: where an `a` or `mx` term names no host, the
    domain stands in front of its lengths. -/
def Term.cidrText (domain : Bytes) (t : Term) : Bytes :=
  if (t.mech = bytes "a" ∨ t.mech = bytes "mx") ∧ t.arg.head? = some (ch '/') then domain ++ t.arg
  else t.arg

/-- The suffix of a term in the record of a domain. -/
def Term.suffix (domain : Bytes) (t : Term) : Bytes := suffixOf (t.cidrText domain)

/-- A decimal number that is at most `bound`. -/
def IsLength (bound : Nat) (s : Bytes) : Prop :=
  s ≠ [] ∧ (∀ c ∈ s, isDigit c = true) ∧ digitsFrom 0 s ≤ bound

/-- No suffix, one length for the family of `ip4` and `ip6`, one or both for `a` and
    `mx`. -/
def Term.WellFormed (domain : Bytes) (t : Term) : Prop :=
  t.suffix domain = [] ∨
    (t.mech = bytes "ip4" ∧ ∃ n, t.suffix domain = ch '/' :: n ∧ IsLength 32 n) ∨
    (t.mech = bytes "ip6" ∧ ∃ n, t.suffix domain = ch '/' :: n ∧ IsLength 128 n) ∨
    ((t.mech = bytes "a" ∨ t.mech = bytes "mx") ∧
      ((∃ n, t.suffix domain = ch '/' :: n ∧ IsLength 32 n) ∨
        (∃ m, t.suffix domain = bytes "//" ++ m ∧ IsLength 128 m) ∨
        ∃ n m, t.suffix domain = ch '/' :: n ++ bytes "//" ++ m ∧ IsLength 32 n ∧ IsLength 128 m))

theorem IsLength.slash {bound : Nat} {n : Bytes} (hn : IsLength bound n) : ch '/' ∉ n :=
  fun hmem => absurd (hn.2.1 _ hmem) (by decide)

section Evaluation

variable (d : Resolver) (sub : Bytes → MacroCtx → Limits → Outcome) (domain : Bytes)
  (ctx : MacroCtx)

/-- The terms that are evaluated, each with the limits it finds; modifiers are not. -/
def reached : List Bytes → Limits → List (Bytes × Limits)
  | [], _ => []
  | raw :: rest, l =>
    if startsWithI raw (bytes "redirect=") ∨ startsWithI raw (bytes "exp=") then reached rest l
    else
      (raw, l) ::
        match evalTerm d sub domain ctx raw l with
        | .stop _ _ _ => []
        | .next l => reached rest l

/-- The addresses of a host: the family is the client's. -/
def answers (q : Nat) (host : Bytes) : Status × List Bytes :=
  (if ctx.ip.v6 then d.aaaa else d.a) q host

/-- One of the hosts has an address that agrees with the client in the first `cidr` bits,
    no lookup up to there fails, and the void ones stay within the budget; `q` counts the
    queries and `v` the void lookups. -/
def Found (cidr : Int) : List Bytes → Nat → Nat → Prop
  | [], _, _ => False
  | host :: hosts, q, v =>
    match answers d ctx q host with
    | (.tempFail, _) => False
    | (.ok, addrs) =>
      (∃ a ∈ addrs, ∃ ip, parseIp a = some ip ∧ prefixMatch ctx.ip ip cidr = true) ∨
        Found cidr hosts (q + 1) v
    | (_, _) => v + 1 ≤ maxVoidLookups ∧ Found cidr hosts (q + 1) (v + 1)

/-- The term stops the evaluation with the result of its qualifier. -/
def Matches (raw : Bytes) (t : Term) (l : Limits) : Prop :=
  ∃ explanation l', evalTerm d sub domain ctx raw l =
    .stop (qualifierToResult t.qualifier) explanation l'

end Evaluation

section Decisions

variable {d : Resolver} {sub : Bytes → MacroCtx → Limits → Outcome} {domain raw : Bytes}
  {ctx : MacroCtx} {t : Term} {l : Limits}

end Decisions

/-! ## Evaluations -/

end QuackMail.Spf
