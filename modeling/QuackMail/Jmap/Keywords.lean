import QuackMail.Imap.ReadOnly
import QuackMail.Lib.LastWrite

/-! # Keywords of an email

`JmapKeywordFor`, `KeywordsFor`, `ImapFlagFor` and `SetKeyword` of `jmap_mail.cpp`.  The store
keeps the flags as IMAP spells them.  A keyword is read from every spelling of it, but each
instruction of a patch writes one spelling only: the instruction that sets a keyword sets
it, and the one that unsets it leaves the other spellings.
-/

namespace QuackMail.Jmap

open Citadel Imap LastWrite

/-! ## Flags and keywords -/

/-- `kFlagMap`: the names IMAP and JMAP have for the system flags. -/
def kFlagMap : List (Bytes × Bytes) :=
  [(bytes "\\Seen", bytes "$seen"), (bytes "\\Flagged", bytes "$flagged"),
    (bytes "\\Answered", bytes "$answered"), (bytes "\\Draft", bytes "$draft"),
    (bytes "\\Deleted", bytes "$deleted")]

def jmapKeywordFor (imapFlag : Bytes) : Bytes :=
  match kFlagMap.find? (fun m => m.1 = imapFlag) with
  | some m => m.2
  | none => lower imapFlag

def imapFlagFor (keyword : Bytes) : Bytes :=
  match kFlagMap.find? (fun m => m.2 = lower keyword) with
  | some m => m.1
  | none => []

/-- The flag `SetKeyword` reads and writes: a keyword of the user is stored as itself. -/
def storedFlag (keyword : Bytes) : Bytes :=
  if imapFlagFor keyword = [] then keyword else imapFlagFor keyword

/-- `SetKeyword`. -/
def setKeyword (v : Server) (username : Bytes) (msgnum : Nat) (keyword : Bytes) (on : Bool) :
    Server :=
  if on then addFlag v msgnum username (storedFlag keyword)
  else removeFlag v msgnum username (storedFlag keyword)

def keywordsFor (v : Server) (username : Bytes) (msgnum : Nat) : List Bytes :=
  (loadFlags v msgnum username).map jmapKeywordFor

/-- The first half of a `keywords` member: what is read is unset. -/
def clearKeywords (v : Server) (username : Bytes) (msgnum : Nat) : Server :=
  (keywordsFor v username msgnum).foldl (fun v k => setKeyword v username msgnum k false) v

/-! ## Spellings -/

theorem kFlagMap_cases {m : Bytes × Bytes} (h : m ∈ kFlagMap) :
    jmapKeywordFor m.1 = m.2 ∧ imapFlagFor m.2 = m.1 ∧ m.1 ≠ [] ∧ lower m.2 = m.2 ∧
      lower m.1 ≠ m.1 := by
  revert m
  decide

/-- The keyword that is read of a flag is the one that is read back when it is set. -/
theorem jmapKeywordFor_storedFlag (flag : Bytes) :
    jmapKeywordFor (storedFlag (jmapKeywordFor flag)) = jmapKeywordFor flag := by
  cases hflag : kFlagMap.find? (fun m => m.1 = flag) with
  | some m =>
    have hmem : m ∈ kFlagMap := List.mem_of_find?_eq_some hflag
    obtain ⟨hread, hback, hne, -, -⟩ := kFlagMap_cases hmem
    have hname : jmapKeywordFor flag = m.2 := by rw [jmapKeywordFor, hflag]
    rw [hname, storedFlag, hback, if_neg hne, hread]
  | none =>
    have hname : jmapKeywordFor flag = lower flag := by rw [jmapKeywordFor, hflag]
    rw [hname]
    cases hsystem : kFlagMap.find? (fun m => m.2 = lower flag) with
    | some m =>
      -- the flag is spelled like the keyword of a system flag
      have hmem : m ∈ kFlagMap := List.mem_of_find?_eq_some hsystem
      have heq : m.2 = lower flag := by simpa using List.find?_some hsystem
      obtain ⟨hread, -, hne, -, -⟩ := kFlagMap_cases hmem
      have hback : imapFlagFor (lower flag) = m.1 := by rw [imapFlagFor, lower_lower, hsystem]
      rw [storedFlag, hback, if_neg hne, hread, heq]
    | none =>
      have hback : imapFlagFor (lower flag) = [] := by rw [imapFlagFor, lower_lower, hsystem]
      have hsmall : kFlagMap.find? (fun m => m.1 = lower flag) = none := by
        rw [List.find?_eq_none]
        intro m hm heq
        rw [decide_eq_true_eq] at heq
        obtain ⟨-, -, -, -, hupper⟩ := kFlagMap_cases hm
        exact hupper (by rw [heq, lower_lower])
      rw [storedFlag, hback, if_pos rfl, jmapKeywordFor, hsmall]
      exact lower_lower flag

/-! ## Instructions -/

/-- What the members of a patch do to the keywords, one at a time. -/
inductive Instr where
  /-- every keyword is unset -/
  | clear
  | set (keyword : Bytes) (on : Bool)
  deriving DecidableEq

def Instr.run (username : Bytes) (msgnum : Nat) (v : Server) : Instr → Server
  | .clear => clearKeywords v username msgnum
  | .set keyword on => setKeyword v username msgnum keyword on

/-- The keyword that a name stands for: the one read back when it is set. -/
def keywordOf (name : Bytes) : Bytes := jmapKeywordFor (storedFlag name)

/-- What the instruction asks of a keyword. -/
def Instr.about (w : Bytes) : Instr → Option Bool
  | .clear => some false
  | .set keyword on => if keywordOf keyword = w then some on else none

/-- What it does to a flag: clearing deletes the spelling `SetKeyword` would write. -/
def Instr.writes (flag : Bytes) : Instr → Option Bool
  | .clear => if storedFlag (jmapKeywordFor flag) = flag then some false else none
  | .set keyword on => if storedFlag keyword = flag then some on else none

/-- An instruction that asks nothing of the keyword of a flag leaves the flag. -/
theorem Instr.writes_of_about {flag : Bytes} {i : Instr} (h : i.about (jmapKeywordFor flag) = none) :
    i.writes flag = none := by
  cases i with
  | clear => cases h
  | set keyword on =>
    rw [Instr.about, ite_eq_right_iff] at h
    rw [Instr.writes, if_neg]
    rintro rfl
    exact nomatch h rfl

section Stored

variable {v : Server} {username : Bytes} {msgnum : Nat} {flag : Bytes}

/-- The flag is stored for the user. -/
def stores (v : Server) (username : Bytes) (msgnum : Nat) (flag : Bytes) : Bool :=
  decide (flag ∈ loadFlags v msgnum username)

theorem mem_keywordsFor {w : Bytes} :
    w ∈ keywordsFor v username msgnum ↔
      ∃ flag, jmapKeywordFor flag = w ∧ stores v username msgnum flag = true := by
  rw [keywordsFor, List.mem_map]
  simp only [stores, decide_eq_true_eq]
  exact ⟨fun ⟨flag, hmem, heq⟩ => ⟨flag, heq, hmem⟩, fun ⟨flag, heq, hmem⟩ => ⟨flag, hmem, heq⟩⟩

@[simp] theorem store_setKeyword (keyword : Bytes) (on : Bool) :
    (setKeyword v username msgnum keyword on).store = v.store := by
  unfold setKeyword
  split
  · exact addFlag_store _ _ _ _
  · rfl

theorem stores_setKeyword (keyword : Bytes) (on : Bool) :
    stores (setKeyword v username msgnum keyword on) username msgnum flag =
      ((Instr.set keyword on).writes flag).getD (stores v username msgnum flag) := by
  rw [Instr.writes, stores, stores, Bool.eq_iff_iff, decide_eq_true_eq, mem_loadFlags, setKeyword]
  cases on with
  | true =>
    rw [if_pos rfl, mem_addFlag, FlagRow.mk.injEq]
    by_cases heq : storedFlag keyword = flag
    · simp [heq]
    · simp [heq, Ne.symm heq, mem_loadFlags]
  | false =>
    rw [if_neg Bool.false_ne_true, removeFlag]
    by_cases heq : storedFlag keyword = flag
    · simp [heq]
    · simp [heq, Ne.symm heq, mem_loadFlags]

@[simp] theorem store_unsetAll (keywords : List Bytes) :
    (keywords.foldl (fun v k => setKeyword v username msgnum k false) v).store = v.store := by
  induction keywords generalizing v with
  | nil => rfl
  | cons k keywords ih => rw [List.foldl_cons, ih, store_setKeyword]

/-- Unsetting some keywords deletes the spellings they are written in. -/
theorem stores_unsetAll (keywords : List Bytes) :
    stores (keywords.foldl (fun v k => setKeyword v username msgnum k false) v) username msgnum flag =
      (decide (∀ k ∈ keywords, storedFlag k ≠ flag) && stores v username msgnum flag) := by
  induction keywords generalizing v with
  | nil => simp
  | cons k keywords ih =>
    rw [List.foldl_cons, ih, stores_setKeyword, Instr.writes]
    by_cases heq : storedFlag k = flag
    · simp [heq]
    · simp [heq]

@[simp] theorem store_run (i : Instr) : (i.run username msgnum v).store = v.store := by
  cases i with
  | clear => exact store_unsetAll _
  | set keyword on => exact store_setKeyword keyword on

/-- One instruction writes what `Instr.writes` says. -/
theorem stores_run (i : Instr) :
    stores (i.run username msgnum v) username msgnum flag =
      (i.writes flag).getD (stores v username msgnum flag) := by
  cases i with
  | set keyword on => exact stores_setKeyword keyword on
  | clear =>
    rw [Instr.run, clearKeywords, stores_unsetAll, Instr.writes]
    by_cases hown : storedFlag (jmapKeywordFor flag) = flag
    · rw [if_pos hown, Option.getD_some, Bool.and_eq_false_iff, decide_eq_false_iff_not]
      by_cases hstored : stores v username msgnum flag = true
      · refine .inl fun hkept => ?_
        exact hkept _ (mem_keywordsFor.mpr ⟨flag, rfl, hstored⟩) hown
      · exact .inr (by simpa using hstored)
    · -- only spellings that are read back as themselves are deleted
      have hkept : ∀ k ∈ keywordsFor v username msgnum, storedFlag k ≠ flag := by
        intro k hk heq
        obtain ⟨other, rfl, -⟩ := mem_keywordsFor.mp hk
        rw [← heq] at hown
        exact hown (by rw [jmapKeywordFor_storedFlag])
      rw [if_neg hown, decide_eq_true hkept, Bool.true_and, Option.getD_none]

end Stored

/-! ## Whole lists of instructions -/

section Run

variable {v : Server} {username : Bytes} {msgnum : Nat} {ops : List Instr}

def runAll (username : Bytes) (msgnum : Nat) (v : Server) (ops : List Instr) : Server :=
  ops.foldl (Instr.run username msgnum) v

@[simp] theorem store_runAll : (runAll username msgnum v ops).store = v.store := by
  unfold runAll
  induction ops generalizing v with
  | nil => rfl
  | cons i ops ih => rw [List.foldl_cons, ih, store_run]

/-- The flag is stored after the instructions. -/
def left (v : Server) (username : Bytes) (msgnum : Nat) (ops : List Instr) (flag : Bytes) : Bool :=
  (last (Instr.writes flag) ops).getD (stores v username msgnum flag)

theorem stores_runAll (flag : Bytes) :
    stores (runAll username msgnum v ops) username msgnum flag = left v username msgnum ops flag :=
  read_foldl (fun v => stores v username msgnum flag) (fun _ i => stores_run i) ops v

theorem mem_keywordsFor_runAll {w : Bytes} :
    w ∈ keywordsFor (runAll username msgnum v ops) username msgnum ↔
      ∃ flag, jmapKeywordFor flag = w ∧ left v username msgnum ops flag = true := by
  simp only [mem_keywordsFor, stores_runAll]

/-- A keyword that no instruction is about stays as it is. -/
theorem kept_of_silent {w : Bytes} (h : last (Instr.about w) ops = none) :
    w ∈ keywordsFor (runAll username msgnum v ops) username msgnum ↔
      w ∈ keywordsFor v username msgnum := by
  rw [mem_keywordsFor_runAll, mem_keywordsFor]
  refine exists_congr fun flag => and_congr_right ?_
  rintro rfl
  rw [left, last_eq_none_of_silent (fun _ => Instr.writes_of_about) h, Option.getD_none]

/-- A keyword whose last instruction sets it is set. -/
theorem set_of_last {w : Bytes} (h : last (Instr.about w) ops = some true) :
    w ∈ keywordsFor (runAll username msgnum v ops) username msgnum := by
  obtain ⟨i, -, hi, htells⟩ := exists_last_of_silent h
  cases i with
  | clear => cases hi
  | set keyword on =>
    rw [Instr.about, ite_eq_iff] at hi
    simp only [Option.some.injEq, reduceCtorEq, and_false, or_false] at hi
    obtain ⟨rfl, rfl⟩ := hi
    refine mem_keywordsFor_runAll.mpr ⟨storedFlag keyword, rfl, ?_⟩
    have hlast : last (Instr.writes (storedFlag keyword)) ops = some true :=
      htells (fun _ => Instr.writes_of_about) (by rw [Instr.writes, if_pos rfl])
    rw [left, hlast, Option.getD_some]

/-- What is set in the end was set before, and what is unset in the end was not, unless it
    is left in another spelling. -/
def NothingNew (v : Server) (username : Bytes) (msgnum : Nat) (ops : List Instr) : Prop :=
  ∀ w on, last (Instr.about w) ops = some on →
    (w ∈ keywordsFor v username msgnum ↔
      on = true ∨ ∃ flag, jmapKeywordFor flag = w ∧ left v username msgnum ops flag = true)

theorem unchanged_iff :
    (∀ w, w ∈ keywordsFor (runAll username msgnum v ops) username msgnum ↔
        w ∈ keywordsFor v username msgnum) ↔ NothingNew v username msgnum ops := by
  constructor
  · intro h w on hlast
    rw [← h w]
    cases on with
    | true => exact iff_of_true (set_of_last hlast) (.inl rfl)
    | false => rw [mem_keywordsFor_runAll, or_iff_right Bool.false_ne_true]
  · intro h w
    cases hlast : last (Instr.about w) ops with
    | none => exact kept_of_silent hlast
    | some on =>
      rw [h w on hlast]
      cases on with
      | true => exact iff_of_true (set_of_last hlast) (.inl rfl)
      | false => rw [mem_keywordsFor_runAll, or_iff_right Bool.false_ne_true]

end Run

end QuackMail.Jmap
