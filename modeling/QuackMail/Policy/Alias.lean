import QuackMail.Bytes
import QuackMail.Lib.BreadthFirst

/-! # Alias expansion

`ExpandAlias` rewrites an envelope address through the alias table.  An address is
expanded by the rows for it, otherwise by the rows of its domain's catch-all, and the
destinations are expanded in turn, ten levels deep.  The walk does not know a
catch-all that keeps an address where it is: the address counts as a cycle and is
dropped.  `expandAlias_meets_iff` says that this is all that goes wrong where the
database folds the addresses on the way as `Lower` does.
-/

namespace QuackMail.Policy

open BreadthFirst

/-! ## The table -/

/-- A row of quackmail_aliases. -/
structure Alias where
  «alias» : Bytes
  destination : Bytes
  enabled : Bool

def kMaxAliasDepth : Nat := 10

/-- What stands behind the last '@', if there is one. -/
def afterAt (addr : Bytes) : Option Bytes :=
  if ch '@' ∈ addr then some (addr.rtakeWhile (· != ch '@')) else none

def domainOf (addr : Bytes) : Bytes := lower ((afterAt addr).getD [])

/-- The destinations of the rows whose alias, folded by the database, is the text. -/
def destinations (sql : SqlLower) (table : List Alias) (folded : Bytes) : List Bytes :=
  (table.filter fun row => sql row.alias == folded && row.enabled).filterMap fun row =>
    if row.destination.isEmpty then none else some row.destination

/-- `lower(alias) = $1`, where `Lower` has folded the key. -/
def collect (sql : SqlLower) (table : List Alias) (key : Bytes) : List Bytes :=
  destinations sql table (lower key)

/-- One expansion step: exact alias match first, then the domain catch-all. -/
def expandOnce (sql : SqlLower) (table : List Alias) (addr : Bytes) : List Bytes :=
  let out := collect sql table addr
  if out.isEmpty then
    let domain := domainOf addr
    if domain.isEmpty then [] else collect sql table (ch '@' :: domain)
  else out

def expandAlias (sql : SqlLower) (table : List Alias) (addr : Bytes) : List Bytes :=
  let frontier := expandOnce sql table addr
  if frontier.isEmpty then frontier
  else search (expandOnce sql table) lower kMaxAliasDepth frontier [lower addr] []

/-! ## What expansion is for -/

/-- The destinations of the rows for a key, in any spelling. -/
def rowsFor (sql : SqlLower) (table : List Alias) (key : Bytes) : List Bytes :=
  destinations sql table (sql key)

/-- The rows of the domain's catch-all. -/
def catchAll (sql : SqlLower) (table : List Alias) (addr : Bytes) : List Bytes :=
  let domain := domainOf addr
  if domain.isEmpty then [] else rowsFor sql table (ch '@' :: domain)

/-- What an address is expanded to. -/
def expansion (sql : SqlLower) (table : List Alias) (addr : Bytes) : List Bytes :=
  if rowsFor sql table addr = [] then catchAll sql table addr else rowsFor sql table addr

/-- The domain's catch-all, which is what applies, leaves the address where it is. -/
def KeptByCatchAll (sql : SqlLower) (table : List Alias) (addr : Bytes) : Prop :=
  rowsFor sql table addr = [] ∧ ∃ dest ∈ catchAll sql table addr, lower dest = lower addr

/-- An address mail is delivered to and not sent on from. -/
def Terminal (sql : SqlLower) (table : List Alias) (addr : Bytes) : Prop :=
  expansion sql table addr = [] ∨ KeptByCatchAll sql table addr

/-- Mail for an address arrives at another one after so many steps, of which only the
    first may start at a terminal address. -/
inductive Arrives (sql : SqlLower) (table : List Alias) (addr : Bytes) : Nat → Bytes → Prop where
  | first {dest : Bytes} : dest ∈ expansion sql table addr → Arrives sql table addr 1 dest
  | next {n : Nat} {via dest : Bytes} : Arrives sql table addr n via → ¬Terminal sql table via →
      dest ∈ expansion sql table via → Arrives sql table addr (n + 1) dest

/-- A list of addresses is what the address stands for. -/
structure Meets (sql : SqlLower) (table : List Alias) (addr : Bytes) (result : List Bytes) :
    Prop where
  distinct : (result.map lower).Nodup
  sound : ∀ dest ∈ result, Terminal sql table dest ∧
    ∃ n ≤ kMaxAliasDepth, Arrives sql table addr n dest
  complete : ∀ n dest, n ≤ kMaxAliasDepth → Arrives sql table addr n dest →
    Terminal sql table dest → ∃ dest' ∈ result, lower dest' = lower dest
  empty : result = [] → expansion sql table addr = [] ∨
    ∀ n dest, Arrives sql table addr n dest → Terminal sql table dest → kMaxAliasDepth < n

/-- The query finds the rows for a key. -/
def Finds (sql : SqlLower) (table : List Alias) (key : Bytes) : Prop :=
  ∀ row ∈ table, row.enabled = true → (sql row.alias = lower key ↔ sql row.alias = sql key)

/-- It does for the address and each one mail arrives at, and for their domains. -/
def FindsAll (sql : SqlLower) (table : List Alias) (addr : Bytes) : Prop :=
  ∀ x, x = addr ∨ (∃ n ≤ kMaxAliasDepth, Arrives sql table addr n x) →
    Finds sql table x ∧ Finds sql table (ch '@' :: domainOf x)

variable {sql : SqlLower} {table : List Alias} {addr dest : Bytes}

/-! ## Letter case -/

theorem mem_lower_at (a : Bytes) : ch '@' ∈ lower a ↔ ch '@' ∈ a := by
  have hat : ∀ c, toLower c = ch '@' ↔ c = ch '@' := forall_byte (by decide +kernel)
  simp only [lower, List.mem_map, hat, exists_eq_right]

theorem lower_rtakeWhile_at (a : Bytes) :
    lower (a.rtakeWhile (· != ch '@')) = (lower a).rtakeWhile (· != ch '@') := by
  have hat : ∀ c, (toLower c != ch '@') = (c != ch '@') := forall_byte (by decide +kernel)
  rw [List.rtakeWhile, List.rtakeWhile, lower, lower, ← List.map_reverse, List.takeWhile_map,
    List.map_reverse]
  simp only [Function.comp_def, hat]

theorem domainOf_eq (a : Bytes) :
    domainOf a = if ch '@' ∈ lower a then (lower a).rtakeWhile (· != ch '@') else [] := by
  rw [domainOf, afterAt]
  by_cases hat : ch '@' ∈ a
  · rw [if_pos hat, if_pos ((mem_lower_at a).mpr hat), Option.getD_some, lower_rtakeWhile_at]
  · rw [if_neg hat, if_neg (mt (mem_lower_at a).mp hat)]
    rfl

theorem expandOnce_congr (sql : SqlLower) (table : List Alias) (a b : Bytes)
    (h : lower a = lower b) : expandOnce sql table a = expandOnce sql table b := by
  rw [expandOnce, expandOnce, collect, collect, h, domainOf_eq, domainOf_eq, h]

theorem expansion_congr {a b : Bytes} (h : lower a = lower b) :
    expansion sql table a = expansion sql table b := by
  rw [expansion, expansion, rowsFor, rowsFor, sql.congr h, catchAll, catchAll, domainOf_eq,
    domainOf_eq, h]

/-! ## The walk -/

theorem expandAlias_eq : expandAlias sql table addr =
    search (expandOnce sql table) lower kMaxAliasDepth (expandOnce sql table addr) [lower addr]
      [] := by
  rw [expandAlias]
  cases h : expandOnce sql table addr with
  | nil => rfl
  | cons first rest => rfl

/-- The addresses found are the ends of the chains of rows. -/
theorem expandAlias_found (sql : SqlLower) (table : List Alias) (addr : Bytes) :
    Found (expandOnce sql table) lower addr kMaxAliasDepth (expandAlias sql table addr) := by
  rw [expandAlias_eq]
  exact search_spec (expandOnce_congr sql table) addr kMaxAliasDepth

theorem Finds.collect_eq {key : Bytes} (h : Finds sql table key) :
    collect sql table key = rowsFor sql table key := by
  rw [collect, rowsFor, destinations, destinations]
  congr 1
  refine List.filter_congr fun row hrow => ?_
  cases henabled : row.enabled with
  | false => rw [Bool.and_false, Bool.and_false]
  | true =>
    rw [Bool.and_true, Bool.and_true, Bool.eq_iff_iff, beq_iff_eq, beq_iff_eq]
    exact h row hrow henabled

theorem expandOnce_eq (h : Finds sql table dest ∧ Finds sql table (ch '@' :: domainOf dest)) :
    expandOnce sql table dest = expansion sql table dest := by
  rw [expandOnce, expansion, catchAll]
  simp only [h.1.collect_eq, h.2.collect_eq, List.isEmpty_iff]

theorem KeptByCatchAll.expansion_ne (h : KeptByCatchAll sql table dest) :
    expansion sql table dest ≠ [] := by
  obtain ⟨hexact, dest', hmem, -⟩ := h
  rw [expansion, if_pos hexact]
  exact List.ne_nil_of_mem hmem

theorem Arrives.chain (hfinds : FindsAll sql table addr) {n : Nat}
    (h : Arrives sql table addr n dest) :
    0 < n ∧ (n ≤ kMaxAliasDepth → Chain (expandOnce sql table) addr n dest) := by
  induction h with
  | first hmem =>
    rw [← expandOnce_eq (hfinds addr (.inl rfl))] at hmem
    exact ⟨Nat.one_pos, fun _ => .snoc .refl hmem⟩
  | @next n via dest hvia _ hmem ih =>
    refine ⟨Nat.succ_pos _, fun hn => ?_⟩
    rw [← expandOnce_eq (hfinds via (.inr ⟨n, Nat.le_of_succ_le hn, hvia⟩))] at hmem
    exact (ih.2 (Nat.le_of_succ_le hn)).snoc hmem

/-- Where no address on the way is kept by its catch-all, every chain of rows is followed. -/
theorem arrives_of_chain (hfinds : FindsAll sql table addr)
    (hkept : ∀ n dest, n ≤ kMaxAliasDepth → Arrives sql table addr n dest →
      ¬KeptByCatchAll sql table dest)
    {n : Nat} (h : Chain (expandOnce sql table) addr n dest) (hn : n ≤ kMaxAliasDepth) :
    n = 0 ∨ Arrives sql table addr n dest := by
  induction h with
  | refl => exact .inl rfl
  | @snoc n via dest hvia hmem ih =>
    right
    cases ih (Nat.le_of_succ_le hn) with
    | inl hzero =>
      subst hzero
      cases hvia with
      | refl => exact .first (expandOnce_eq (hfinds addr (.inl rfl)) ▸ hmem)
    | inr harr =>
      rw [expandOnce_eq (hfinds via (.inr ⟨n, Nat.le_of_succ_le hn, harr⟩))] at hmem
      refine .next harr ?_ hmem
      intro hterminal
      cases hterminal with
      | inl hend => rw [hend] at hmem; cases hmem
      | inr hk => exact hkept n via (Nat.le_of_succ_le hn) harr hk

/-- The expansion is right exactly when no address it arrives at is kept by its catch-all. -/
theorem expandAlias_meets_iff (sql : SqlLower) (table : List Alias) (addr : Bytes)
    (hfinds : FindsAll sql table addr) :
    Meets sql table addr (expandAlias sql table addr) ↔
      ∀ n dest, n ≤ kMaxAliasDepth → Arrives sql table addr n dest →
        ¬KeptByCatchAll sql table dest := by
  have hfound := expandAlias_found sql table addr
  have hread : ∀ n dest, n ≤ kMaxAliasDepth → Arrives sql table addr n dest →
      expandOnce sql table dest = expansion sql table dest :=
    fun n dest hn harr => expandOnce_eq (hfinds dest (.inr ⟨n, hn, harr⟩))
  constructor
  · intro hmeets n dest hn harr hkept
    -- the address is due, and what was found in its place has no expansion
    obtain ⟨dest', hmem, hcase⟩ := hmeets.complete n dest hn harr (.inr hkept)
    have hend : expandOnce sql table dest' = [] := (hfound.sound dest' hmem).1
    rw [expandOnce_congr sql table dest' dest hcase, hread n dest hn harr] at hend
    exact hkept.expansion_ne hend
  · intro hkept
    have hcomplete : ∀ n dest, n ≤ kMaxAliasDepth → Arrives sql table addr n dest →
        Terminal sql table dest → ∃ dest' ∈ expandAlias sql table addr, lower dest' = lower dest := by
      intro n dest hn harr hterminal
      have hend : expansion sql table dest = [] := hterminal.resolve_right (hkept n dest hn harr)
      refine hfound.complete n dest hn ((harr.chain hfinds).2 hn)
        ((hread n dest hn harr).trans hend) fun hcase => ?_
      -- an address like the first one has the first one's rows, and these are not none
      have hnone : expansion sql table addr = [] := expansion_congr hcase ▸ hend
      have hstart : ∀ n dest, ¬Arrives sql table addr n dest := by
        intro n dest h
        induction h with
        | first hmem => rw [hnone] at hmem; cases hmem
        | next _ _ _ ih => exact ih
      exact hstart n dest harr
    refine ⟨hfound.distinct, ?_, hcomplete, ?_⟩
    · intro dest hmem
      obtain ⟨hend, n, hpos, hn, hchain⟩ := hfound.sound dest hmem
      have harr := (arrives_of_chain hfinds hkept hchain hn).resolve_left (by omega)
      exact ⟨.inl ((hread n dest hn harr).symm.trans hend), n, hn, harr⟩
    · intro hempty
      right
      intro n dest harr hterminal
      by_contra hlong
      obtain ⟨dest', hmem, -⟩ := hcomplete n dest (Nat.not_lt.mp hlong) harr hterminal
      rw [hempty] at hmem
      cases hmem

/-- Two lists and a catch-all. -/
def staff : List Alias :=
  [⟨bytes "Team@d", bytes "ann@d", true⟩, ⟨bytes "team@d", bytes "bob@e", true⟩,
    ⟨bytes "ann@d", bytes "ann@home", true⟩, ⟨bytes "@d", bytes "post@e", true⟩]

theorem expandAlias_meets_staff :
    Meets .ofAscii staff (bytes "TEAM@D") (expandAlias .ofAscii staff (bytes "TEAM@D")) ↔
      ∀ n dest, n ≤ kMaxAliasDepth → Arrives .ofAscii staff (bytes "TEAM@D") n dest →
        ¬KeptByCatchAll .ofAscii staff dest :=
  expandAlias_meets_iff .ofAscii staff (bytes "TEAM@D")
    fun _ _ => ⟨fun _ _ _ => .rfl, fun _ _ _ => .rfl⟩

/-- With the catch-all '@d -> x@d', mail for anyone at d vanishes. -/
theorem expandAlias_drops_catchAll :
    let table : List Alias := [⟨bytes "@d", bytes "x@d", true⟩]
    expandAlias .ofAscii table (bytes "y@d") = [] ∧
      ¬Meets .ofAscii table (bytes "y@d") (expandAlias .ofAscii table (bytes "y@d")) := by
  intro table
  have hempty : expandAlias .ofAscii table (bytes "y@d") = [] := by decide +kernel
  refine ⟨hempty, fun hmeets => ?_⟩
  have hstep : bytes "x@d" ∈ expansion .ofAscii table (bytes "y@d") := by decide +kernel
  have hkept : KeptByCatchAll .ofAscii table (bytes "x@d") :=
    ⟨by decide +kernel, bytes "x@d", by decide +kernel, rfl⟩
  obtain ⟨dest, hmem, -⟩ := hmeets.complete 1 (bytes "x@d") (by decide) (.first hstep) (.inr hkept)
  rw [hempty] at hmem
  cases hmem

end QuackMail.Policy
