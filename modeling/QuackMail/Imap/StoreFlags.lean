import QuackMail.Imap.Session

/-! # STORE

What a STORE does is looked for in one text: `-FLAGS` anywhere in it removes flags, `.SILENT`
anywhere in it answers nothing, and the flags are those between its brackets, if it has any.
There is no third operation, so `FLAGS` adds.  Flags are compared as they are spelled.
-/

namespace QuackMail.Imap

/-! ## The command -/

/-- `FlagsList`. -/
def flagsList (flags : List Bytes) : Bytes := ch '(' :: joinWith (ch ' ') flags ++ [ch ')']

/-- The untagged response of a message. -/
def fetchLine (pos : Nat) (flags : List Bytes) : Bytes :=
  bytes "* " ++ num pos ++ bytes " FETCH (FLAGS " ++ flagsList flags ++ [ch ')']

/-- Whether a STORE answers nothing. -/
def storeSilent (ops : Bytes) : Bool := (find (bytes ".SILENT") (upper ops)).isSome

/-- The loop of STORE over the positions of its set, and the lines that it writes. -/
def storeLoop (user ops : Bytes) (uids : List Nat) : List Nat → Server → Server × List Bytes
  | [], v => (v, [])
  | pos :: set, v =>
    let v' := storeOne user (storeRemoves ops) (storeFlags ops) uids v pos
    let line := fetchLine pos (loadFlags v' (uidAt uids pos) user)
    let rest := storeLoop user ops uids set v'
    (rest.1, (if storeSilent ops then [] else [line]) ++ rest.2)

/-! ## The flags of one message -/

/-- What the flags of a message become. -/
def flagsAfter (removes : Bool) (flags old : List Bytes) : List Bytes :=
  if removes then old.filter fun f => f ∉ flags
  else flags.foldl (fun old f => if f ∈ old then old else old ++ [f]) old

variable {f : Bytes} {flags old : List Bytes}

theorem mem_flagsAfter_add : f ∈ flagsAfter false flags old ↔ f ∈ old ∨ f ∈ flags := by
  rw [flagsAfter, if_neg Bool.false_ne_true]
  induction flags generalizing old with
  | nil => simp
  | cons g flags ih =>
    rw [List.foldl_cons, ih, List.mem_cons]
    split
    · next hg =>
      constructor
      · rintro (h | h)
        · exact .inl h
        · exact .inr (.inr h)
      · rintro (h | rfl | h)
        · exact .inl h
        · exact .inl hg
        · exact .inr h
    · rw [List.mem_append, List.mem_singleton, or_assoc]

theorem mem_flagsAfter_remove : f ∈ flagsAfter true flags old ↔ f ∈ old ∧ f ∉ flags := by
  rw [flagsAfter, if_pos rfl, List.mem_filter, decide_eq_true_eq]

theorem flagsAfter_add_of_mem (h : ∀ f ∈ flags, f ∈ old) : flagsAfter false flags old = old := by
  rw [flagsAfter, if_neg Bool.false_ne_true]
  induction flags with
  | nil => rfl
  | cons f flags ih =>
    rw [List.foldl_cons, if_pos (h f List.mem_cons_self)]
    exact ih fun g hg => h g (List.mem_cons_of_mem _ hg)

/-- Doing it again changes nothing. -/
theorem flagsAfter_again (removes : Bool) (flags old : List Bytes) :
    flagsAfter removes flags (flagsAfter removes flags old) = flagsAfter removes flags old := by
  cases removes with
  | true =>
    rw [flagsAfter, flagsAfter, if_pos rfl, if_pos rfl, List.filter_filter]
    simp
  | false => exact flagsAfter_add_of_mem fun f hf => mem_flagsAfter_add.mpr (.inr hf)

/-! ## The flags in the table -/

theorem loadFlags_addFlag (v : Server) (msgnum m : Nat) (user u flag : Bytes) :
    loadFlags (addFlag v msgnum user flag) m u =
      if m = msgnum ∧ u = user then flagsAfter false [flag] (loadFlags v m u)
      else loadFlags v m u := by
  have hafter : flagsAfter false [flag] (loadFlags v m u) =
      if flag ∈ loadFlags v m u then loadFlags v m u else loadFlags v m u ++ [flag] := rfl
  rw [hafter, addFlag]
  by_cases hm : m = msgnum ∧ u = user
  · rw [if_pos hm, hm.1, hm.2]
    split
    · rfl
    · simp [loadFlags]
  · split
    · rfl
    · have hother : ¬ (msgnum = m ∧ user = u) := fun h => hm ⟨h.1.symm, h.2.symm⟩
      simp [loadFlags, hother]

theorem loadFlags_removeFlag (v : Server) (msgnum m : Nat) (user u flag : Bytes) :
    loadFlags (removeFlag v msgnum user flag) m u =
      if m = msgnum ∧ u = user then flagsAfter true [flag] (loadFlags v m u)
      else loadFlags v m u := by
  rw [removeFlag, loadFlags, loadFlags, List.filter_filter]
  by_cases hm : m = msgnum ∧ u = user
  · rw [if_pos hm, flagsAfter, if_pos rfl, List.filter_map, List.filter_filter, hm.1, hm.2]
    congr 1
    apply List.filter_congr
    rintro ⟨n, w, f⟩ -
    rw [Bool.eq_iff_iff]
    simp
    tauto
  · rw [if_neg hm]
    congr 1
    apply List.filter_congr
    rintro ⟨n, w, f⟩ -
    rw [Bool.eq_iff_iff]
    simp only [ne_eq, FlagRow.mk.injEq, decide_not, Bool.and_eq_true, decide_eq_true_eq,
      Bool.not_eq_true', decide_eq_false_iff_not]
    constructor
    · exact And.left
    · rintro ⟨rfl, rfl⟩
      exact ⟨⟨rfl, rfl⟩, fun h => hm ⟨h.1, h.2.1⟩⟩

theorem loadFlags_storeOne (user : Bytes) (removes : Bool) (flags : List Bytes) (uids : List Nat)
    (v : Server) (pos m : Nat) (u : Bytes) :
    loadFlags (storeOne user removes flags uids v pos) m u =
      if m = uidAt uids pos ∧ u = user then flagsAfter removes flags (loadFlags v m u)
      else loadFlags v m u := by
  rw [storeOne]
  induction flags generalizing v with
  | nil => cases removes <;> simp [flagsAfter]
  | cons f flags ih =>
    rw [List.foldl_cons, ih]
    cases removes with
    | true =>
      rw [if_pos rfl, loadFlags_removeFlag]
      split
      · simp only [flagsAfter, if_true, List.filter_filter]
        congr 1
        funext g
        simp [Bool.and_comm]
      · rfl
    | false =>
      rw [if_neg Bool.false_ne_true, loadFlags_addFlag]
      split
      · rfl
      · rfl

/-- The flags after the loop: a message named again is left as it is. -/
theorem loadFlags_storeLoop (user ops : Bytes) (uids set : List Nat) (v : Server) (m : Nat)
    (u : Bytes) :
    loadFlags (storeLoop user ops uids set v).1 m u =
      if u = user ∧ ∃ pos ∈ set, uidAt uids pos = m then
        flagsAfter (storeRemoves ops) (storeFlags ops) (loadFlags v m u)
      else loadFlags v m u := by
  induction set generalizing v with
  | nil => simp [storeLoop]
  | cons pos set ih =>
    rw [storeLoop, ih, loadFlags_storeOne]
    by_cases hu : u = user
    · by_cases hpos : uidAt uids pos = m
      · have hhere : m = uidAt uids pos ∧ u = user := ⟨hpos.symm, hu⟩
        have hnamed : u = user ∧ ∃ p ∈ pos :: set, uidAt uids p = m :=
          ⟨hu, pos, List.mem_cons_self, hpos⟩
        rw [if_pos hhere, if_pos hnamed, flagsAfter_again, ite_self]
      · have hother : ¬ (m = uidAt uids pos ∧ u = user) := fun h => hpos h.1.symm
        rw [if_neg hother]
        simp [hpos]
    · simp [hu]

theorem storeLoop_lines (user ops : Bytes) (uids set : List Nat) (v : Server) :
    (storeLoop user ops uids set v).2 =
      if storeSilent ops then []
      else set.map fun pos => fetchLine pos
        (flagsAfter (storeRemoves ops) (storeFlags ops) (loadFlags v (uidAt uids pos) user)) := by
  induction set generalizing v with
  | nil => simp [storeLoop]
  | cons pos set ih =>
    rw [storeLoop, ih]
    split
    · rfl
    · rw [List.map_cons, loadFlags_storeOne, if_pos ⟨rfl, rfl⟩]
      show _ :: _ = _
      congr 1
      apply List.map_congr_left
      intro p _
      rw [loadFlags_storeOne]
      split
      · rw [flagsAfter_again]
      · rfl

/-! ## Looking for a word -/

theorem isSome_find {needle s : Bytes} : (find needle s).isSome ↔ needle <:+: s := by
  constructor
  · intro h
    obtain ⟨p, hp⟩ := Option.isSome_iff_exists.mp h
    obtain ⟨t, ht⟩ := (find_spec hp).1
    exact ⟨s.take p, t, by rw [List.append_assoc, ht, List.take_append_drop]⟩
  · rintro ⟨x, y, rfl⟩
    have hdrop : needle <+: (x ++ needle ++ y).drop x.length := by simp
    obtain ⟨q, -, hq⟩ := exists_find_le hdrop
    rw [hq]
    rfl

/-- A word without a separator stands on one side of it. -/
theorem infix_separated {sep : Byte} {needle x y : Bytes} (h : sep ∉ needle) :
    needle <:+: x ++ sep :: y ↔ needle <:+: x ∨ needle <:+: y := by
  constructor
  · rintro ⟨s, t, hst⟩
    rw [List.append_assoc] at hst
    obtain ⟨a, rfl, ha⟩ | ⟨a, rfl, ha⟩ := List.append_eq_append_iff.mp hst
    · obtain ⟨b, rfl, -⟩ | ⟨b, rfl, hb⟩ := List.append_eq_append_iff.mp ha
      · exact .inl ⟨s, b, by simp⟩
      · cases b with
        | nil => exact .inl ⟨s, [], by simp⟩
        | cons c b =>
          cases (List.cons.inj hb).1
          simp at h
    · cases a with
      | nil =>
        cases needle with
        | nil => exact .inl List.nil_infix
        | cons c needle =>
          cases (List.cons.inj ha).1
          simp at h
      | cons c a => exact .inr ⟨a, t, by simp [(List.cons.inj ha).2]⟩
  · rintro (⟨s, t, rfl⟩ | ⟨s, t, rfl⟩)
    · exact ⟨s, t ++ sep :: y, by simp⟩
    · exact ⟨x ++ sep :: s, t, by simp⟩

theorem infix_joinWith {sep : Byte} {needle : Bytes} (h : sep ∉ needle) (hne : needle ≠ [])
    (pieces : List Bytes) :
    needle <:+: joinWith sep pieces ↔ ∃ piece ∈ pieces, needle <:+: piece := by
  induction pieces with
  | nil => simp [joinWith, hne]
  | cons piece pieces ih =>
    cases pieces with
    | nil => simp [joinWith]
    | cons next pieces =>
      show needle <:+: piece ++ sep :: joinWith sep (next :: pieces) ↔ _
      rw [infix_separated h, ih]
      simp

theorem upper_joinWith {sep : Byte} (h : toUpper sep = sep) (pieces : List Bytes) :
    upper (joinWith sep pieces) = joinWith sep (pieces.map upper) := by
  induction pieces with
  | nil => rfl
  | cons piece pieces ih =>
    cases pieces with
    | nil => rfl
    | cons next pieces =>
      rw [joinWith, upper, List.map_append, List.map_cons, h]
      · exact congrArg (upper piece ++ sep :: ·) ih
      · simp

/-! ## A well-formed STORE -/

inductive StoreOp
  | replace
  | add
  | remove
  deriving DecidableEq

def StoreOp.word : StoreOp → Bytes
  | .replace => bytes "FLAGS"
  | .add => bytes "+FLAGS"
  | .remove => bytes "-FLAGS"

/-- The operation in upper case. -/
def StoreOp.spelling (op : StoreOp) (silent : Bool) : Bytes :=
  op.word ++ if silent then bytes ".SILENT" else []

theorem StoreOp.not_mem_spelling (op : StoreOp) (silent : Bool) :
    ch '(' ∉ op.spelling silent ∧ ch ')' ∉ op.spelling silent := by
  cases op <;> cases silent <;> decide +kernel

/-- What stands behind the set of a STORE: `word` is the operation in any case, and the flags
    stand in brackets or bare. -/
structure StoreItem where
  op : StoreOp
  silent : Bool
  word : Bytes
  flags : List Bytes
  bracketed : Bool
  spelled : upper word = op.spelling silent
  plain : ∀ f ∈ flags, f ≠ [] ∧ ch ' ' ∉ f ∧ ch '(' ∉ f ∧ ch ')' ∉ f

namespace StoreItem

def text (it : StoreItem) : Bytes :=
  it.word ++ ch ' ' :: if it.bracketed then flagsList it.flags else joinWith (ch ' ') it.flags

/-- The flags that stand in brackets. -/
def listed (it : StoreItem) : List Bytes := if it.bracketed then it.flags else []

/-- Whether the name of a flag has this text in it, in any case. -/
def names (it : StoreItem) (needle : Bytes) : Bool :=
  it.flags.any fun f => (find needle (upper f)).isSome

/-- A flag whose name makes the command one that removes. -/
def inverted (it : StoreItem) : Bool := it.names (bytes "-FLAGS")

/-- A flag whose name makes the command a silent one. -/
def muted (it : StoreItem) : Bool := it.names (bytes ".SILENT")

variable (it : StoreItem)

theorem not_mem_word : ch '(' ∉ it.word ∧ ch ')' ∉ it.word := by
  obtain ⟨hlp, hrp⟩ := it.op.not_mem_spelling it.silent
  rw [← it.spelled] at hlp hrp
  exact ⟨fun h => hlp (List.mem_map_of_mem h), fun h => hrp (List.mem_map_of_mem h)⟩

theorem not_mem_joined {c : Byte} (hc : c = ch '(' ∨ c = ch ')') :
    c ∉ joinWith (ch ' ') it.flags := by
  intro h
  obtain h | ⟨f, hf, hcf⟩ := mem_joinWith h
  · obtain rfl | rfl := hc <;> cases h
  · obtain rfl | rfl := hc
    · exact (it.plain f hf).2.2.1 hcf
    · exact (it.plain f hf).2.2.2 hcf

/-- The flags between the brackets of a STORE that has some. -/
theorem storeFlags_bracketed {word : Bytes} {flags : List Bytes}
    (hlp : ch '(' ∉ word) (hrp : ch ')' ∉ word)
    (hplain : ∀ f ∈ flags, f ≠ [] ∧ ch ' ' ∉ f) (hend : ch ')' ∉ joinWith (ch ' ') flags) :
    storeFlags (word ++ ch ' ' :: flagsList flags) = flags := by
  have hopen : word ++ ch ' ' :: flagsList flags =
      (word ++ [ch ' ']) ++ ch '(' :: (joinWith (ch ' ') flags ++ [ch ')']) := by
    simp [flagsList]
  have hclose : word ++ ch ' ' :: flagsList flags =
      (word ++ ch ' ' :: ch '(' :: joinWith (ch ' ') flags) ++ ch ')' :: [] := by
    simp [flagsList]
  have hfirst : findChar (ch '(') (word ++ ch ' ' :: flagsList flags) =
      some (word.length + 1) := by
    rw [hopen, findChar_append]
    · simp
    · rw [List.mem_append, not_or]
      exact ⟨hlp, by decide⟩
  have hlast : findChar (ch ')') (word ++ ch ' ' :: flagsList flags) =
      some (word.length + 2 + (joinWith (ch ' ') flags).length) := by
    rw [hclose, findChar_append]
    · simp
      omega
    · rw [List.mem_append, List.mem_cons, List.mem_cons, not_or, not_or, not_or]
      exact ⟨hrp, by decide, by decide, hend⟩
  have hinner : ((word ++ ch ' ' :: flagsList flags).drop (word.length + 1 + 1)).take
      (word.length + 2 + (joinWith (ch ' ') flags).length - (word.length + 1) - 1) =
      joinWith (ch ' ') flags := by
    have hlength : word.length + 2 + (joinWith (ch ' ') flags).length - (word.length + 1) - 1 =
        (joinWith (ch ' ') flags).length := by omega
    have hbehind : word ++ ch ' ' :: flagsList flags =
        (word ++ [ch ' ', ch '(']) ++ (joinWith (ch ' ') flags ++ [ch ')']) := by
      simp [flagsList]
    rw [hbehind, List.drop_left' (by simp), hlength, List.take_left' rfl]
  rw [storeFlags, hfirst, hlast]
  dsimp only
  rw [if_pos (by omega), hinner]
  cases flags with
  | nil => rfl
  | cons f flags =>
    rw [splitOn_joinWith (by simp) fun g hg => (hplain g hg).2, List.filter_eq_self]
    intro g hg
    simpa using (hplain g hg).1

theorem storeFlags_text : storeFlags it.text = it.listed := by
  obtain ⟨hlp, hrp⟩ := it.not_mem_word
  rw [text, listed]
  split
  · exact storeFlags_bracketed hlp hrp (fun f hf => ⟨(it.plain f hf).1, (it.plain f hf).2.1⟩)
      (it.not_mem_joined (.inr rfl))
  · have hbare : ch '(' ∉ it.word ++ ch ' ' :: joinWith (ch ' ') it.flags := by
      rw [List.mem_append, List.mem_cons, not_or, not_or]
      exact ⟨hlp, by decide, it.not_mem_joined (.inl rfl)⟩
    rw [storeFlags, findChar_of_not_mem hbare]

/-- A word that is looked for stands in the operation or in the name of a flag. -/
theorem find_text {needle : Bytes} (hne : needle ≠ [])
    (hplain : ch ' ' ∉ needle ∧ ch '(' ∉ needle ∧ ch ')' ∉ needle) :
    (find needle (upper it.text)).isSome =
      ((find needle (it.op.spelling it.silent)).isSome || it.names needle) := by
  have hjoined : needle <:+: upper (joinWith (ch ' ') it.flags) ↔ it.names needle = true := by
    rw [upper_joinWith (by decide), infix_joinWith hplain.1 hne, names, List.any_eq_true]
    simp [isSome_find]
  have hargs : needle <:+: upper (if it.bracketed then flagsList it.flags
      else joinWith (ch ' ') it.flags) ↔ it.names needle = true := by
    rw [← hjoined]
    split
    · have hopen : upper (flagsList it.flags) =
          [] ++ ch '(' :: (upper (joinWith (ch ' ') it.flags) ++ ch ')' :: []) := by
        rw [flagsList, upper, List.map_append, List.map_cons]
        rfl
      rw [hopen, infix_separated hplain.2.1, infix_separated hplain.2.2]
      simp [hne]
    · rfl
  have hall : needle <:+: upper it.text ↔
      needle <:+: upper it.word ∨ it.names needle = true := by
    have hsplit : upper it.text = upper it.word ++ ch ' ' :: upper (if it.bracketed then
        flagsList it.flags else joinWith (ch ' ') it.flags) := by
      rw [text, upper, List.map_append, List.map_cons]
      rfl
    rw [hsplit, infix_separated hplain.1, hargs]
  rw [Bool.eq_iff_iff, Bool.or_eq_true, isSome_find, isSome_find, hall, it.spelled]

theorem storeRemoves_text : storeRemoves it.text = (decide (it.op = .remove) || it.inverted) := by
  rw [storeRemoves, it.find_text (by decide) (by decide), inverted]
  congr 1
  cases it.op <;> cases it.silent <;> decide

theorem storeSilent_text : storeSilent it.text = (it.silent || it.muted) := by
  rw [storeSilent, it.find_text (by decide) (by decide), muted]
  congr 1
  cases it.op <;> cases it.silent <;> decide

end StoreItem

/-! ## What STORE should do -/

/-- `f` is one of these flags, up to case. -/
def Among (f : Bytes) (flags : List Bytes) : Prop := ∃ g ∈ flags, lower g = lower f

/-- The flags a message should have. -/
def StoreItem.Wanted (it : StoreItem) (old : List Bytes) (f : Bytes) : Prop :=
  match it.op with
  | .replace => Among f it.flags
  | .add => Among f old ∨ Among f it.flags
  | .remove => Among f old ∧ ¬ Among f it.flags

/-- What a STORE should do to the messages at the positions `set`. -/
structure StoreExact (it : StoreItem) (user : Bytes) (uids set : List Nat) (v : Server) : Prop where
  flags : ∀ pos ∈ set, ∀ f,
    Among f (loadFlags (storeLoop user it.text uids set v).1 (uidAt uids pos) user) ↔
      it.Wanted (loadFlags v (uidAt uids pos) user) f
  distinct : ∀ pos ∈ set,
    ((loadFlags (storeLoop user it.text uids set v).1 (uidAt uids pos) user).map lower).Nodup
  others : ∀ m u, ¬ (u = user ∧ ∃ pos ∈ set, uidAt uids pos = m) →
    loadFlags (storeLoop user it.text uids set v).1 m u = loadFlags v m u
  shown : (storeLoop user it.text uids set v).2 =
    if it.silent then []
    else set.map fun pos =>
      fetchLine pos (loadFlags (storeLoop user it.text uids set v).1 (uidAt uids pos) user)

/-! ## When it does -/

/-- The flags of a message come out right. -/
def StoreItem.Fits (it : StoreItem) (old : List Bytes) : Prop :=
  match it.op, it.inverted with
  | .remove, _ => ∀ g ∈ old, Among g it.flags → g ∈ it.listed
  | .add, false => it.bracketed = true ∨ ∀ f ∈ it.flags, Among f old
  | .replace, false =>
    (it.bracketed = true ∨ ∀ f ∈ it.flags, Among f old) ∧ ∀ g ∈ old, Among g it.flags
  | .add, true => ∀ f ∈ old ++ it.flags, ∃ g ∈ old, g ∉ it.listed ∧ lower g = lower f
  | .replace, true =>
    (∀ f ∈ it.flags, ∃ g ∈ old, g ∉ it.listed ∧ lower g = lower f) ∧
      ∀ g ∈ old, g ∉ it.listed → Among g it.flags

/-- No two flags of a message differ in case only. -/
def StoreItem.Apart (it : StoreItem) (old : List Bytes) : Prop :=
  if it.op = .remove ∨ it.inverted = true then
    old.Pairwise fun f g => f ∉ it.listed → g ∉ it.listed → lower f ≠ lower g
  else
    (old.map lower).Nodup ∧ ∀ f ∈ it.listed, ∀ g ∈ old ++ it.listed, lower f = lower g → f = g

/-- When a STORE does what it should. -/
structure StoreFits (it : StoreItem) (user : Bytes) (uids set : List Nat) (v : Server) : Prop where
  fits : ∀ pos ∈ set, it.Fits (loadFlags v (uidAt uids pos) user)
  apart : ∀ pos ∈ set, it.Apart (loadFlags v (uidAt uids pos) user)
  heard : it.silent = false → set ≠ [] → it.muted = false

theorem Among.of_mem (h : f ∈ flags) : Among f flags :=
  ⟨f, h, rfl⟩

theorem Among.congr {g : Bytes} (h : Among f flags) (heq : lower f = lower g) : Among g flags := by
  obtain ⟨k, hk, hkf⟩ := h
  exact ⟨k, hk, hkf.trans heq⟩

theorem among_added : Among f (flagsAfter false flags old) ↔ Among f old ∨ Among f flags := by
  simp only [Among, mem_flagsAfter_add, or_and_right, exists_or]

theorem among_kept :
    Among f (flagsAfter true flags old) ↔ ∃ g ∈ old, g ∉ flags ∧ lower g = lower f := by
  simp only [Among, mem_flagsAfter_remove, and_assoc]

theorem nodup_flagsAfter_add : (flagsAfter false flags old).Nodup ↔ old.Nodup := by
  rw [flagsAfter, if_neg Bool.false_ne_true]
  induction flags generalizing old with
  | nil => rfl
  | cons f flags ih =>
    rw [List.foldl_cons, ih]
    split
    · rfl
    · next hnew =>
      rw [List.nodup_append]
      constructor
      · exact And.left
      · intro hold
        refine ⟨hold, List.nodup_singleton f, ?_⟩
        intro g hg k hk heq
        rw [List.mem_singleton.mp hk] at heq
        exact hnew (heq ▸ hg)

namespace StoreItem

variable {it : StoreItem} {old : List Bytes}

theorem mem_of_mem_listed {f : Bytes} (h : f ∈ it.listed) : f ∈ it.flags := by
  rw [listed] at h
  split at h
  · exact h
  · cases h

/-- Without brackets nothing is listed. -/
theorem among_listed_iff (it : StoreItem) (old : List Bytes) :
    (∀ f ∈ it.flags, Among f old ∨ Among f it.listed) ↔
      it.bracketed = true ∨ ∀ f ∈ it.flags, Among f old := by
  cases hb : it.bracketed with
  | true =>
    have hlisted : it.listed = it.flags := if_pos hb
    rw [hlisted]
    exact ⟨fun _ => .inl rfl, fun _ f hf => .inr (.of_mem hf)⟩
  | false =>
    have hlisted : it.listed = [] := by rw [listed, hb, if_neg Bool.false_ne_true]
    simp [hlisted, Among]

/-- What the flags of a message become. -/
def after (it : StoreItem) (old : List Bytes) : List Bytes :=
  flagsAfter (decide (it.op = .remove) || it.inverted) it.listed old

theorem wanted_remove_iff :
    (∀ f, Among f (flagsAfter true it.listed old) ↔ Among f old ∧ ¬ Among f it.flags) ↔
      ∀ g ∈ old, Among g it.flags → g ∈ it.listed := by
  constructor
  · intro h g hg hamong
    by_contra hkept
    exact ((h g).mp (among_kept.mpr ⟨g, hg, hkept, rfl⟩)).2 hamong
  · intro h f
    rw [among_kept]
    constructor
    · intro ⟨g, hg, hkept, heq⟩
      exact ⟨⟨g, hg, heq⟩, fun hf => hkept (h g hg (hf.congr heq.symm))⟩
    · intro ⟨⟨g, hg, heq⟩, hnot⟩
      exact ⟨g, hg, fun hl => hnot ⟨g, mem_of_mem_listed hl, heq⟩, heq⟩

theorem wanted_add_iff :
    (∀ f, Among f (flagsAfter false it.listed old) ↔ Among f old ∨ Among f it.flags) ↔
      it.bracketed = true ∨ ∀ f ∈ it.flags, Among f old := by
  rw [← among_listed_iff]
  constructor
  · intro h f hf
    exact among_added.mp ((h f).mpr (.inr (.of_mem hf)))
  · intro h f
    rw [among_added]
    constructor
    · intro hf
      obtain hold | ⟨g, hg, heq⟩ := hf
      · exact .inl hold
      · exact .inr ⟨g, mem_of_mem_listed hg, heq⟩
    · intro hf
      obtain hold | ⟨g, hg, heq⟩ := hf
      · exact .inl hold
      · exact (h g hg).imp (·.congr heq) (·.congr heq)

theorem wanted_replace_iff : (∀ f, Among f (flagsAfter false it.listed old) ↔ Among f it.flags) ↔
      (it.bracketed = true ∨ ∀ f ∈ it.flags, Among f old) ∧ ∀ g ∈ old, Among g it.flags := by
  rw [← wanted_add_iff]
  constructor
  · intro h
    have hold : ∀ g ∈ old, Among g it.flags := fun g hg =>
      (h g).mp (among_added.mpr (.inl (.of_mem hg)))
    refine ⟨fun f => ?_, hold⟩
    rw [h f]
    constructor
    · exact .inr
    · intro hf
      obtain ⟨g, hg, heq⟩ | hf := hf
      · exact (hold g hg).congr heq
      · exact hf
  · intro ⟨h, hold⟩ f
    rw [h f]
    constructor
    · intro hf
      obtain ⟨g, hg, heq⟩ | hf := hf
      · exact (hold g hg).congr heq
      · exact hf
    · exact .inr

theorem wanted_add_inverted_iff :
    (∀ f, Among f (flagsAfter true it.listed old) ↔ Among f old ∨ Among f it.flags) ↔
      ∀ f ∈ old ++ it.flags, ∃ g ∈ old, g ∉ it.listed ∧ lower g = lower f := by
  constructor
  · intro h f hf
    exact among_kept.mp ((h f).mpr ((List.mem_append.mp hf).imp .of_mem .of_mem))
  · intro h f
    rw [among_kept]
    constructor
    · intro ⟨g, hg, _, heq⟩
      exact .inl ⟨g, hg, heq⟩
    · intro hf
      have hsome : ∃ g ∈ old ++ it.flags, lower g = lower f := by
        obtain ⟨g, hg, heq⟩ | ⟨g, hg, heq⟩ := hf
        · exact ⟨g, List.mem_append_left _ hg, heq⟩
        · exact ⟨g, List.mem_append_right _ hg, heq⟩
      obtain ⟨g, hg, heq⟩ := hsome
      obtain ⟨k, hk, hkept, hkeq⟩ := h g hg
      exact ⟨k, hk, hkept, hkeq.trans heq⟩

theorem wanted_replace_inverted_iff :
    (∀ f, Among f (flagsAfter true it.listed old) ↔ Among f it.flags) ↔
      (∀ f ∈ it.flags, ∃ g ∈ old, g ∉ it.listed ∧ lower g = lower f) ∧
        ∀ g ∈ old, g ∉ it.listed → Among g it.flags := by
  constructor
  · intro h
    exact ⟨fun f hf => among_kept.mp ((h f).mpr (.of_mem hf)),
      fun g hg hkept => (h g).mp (among_kept.mpr ⟨g, hg, hkept, rfl⟩)⟩
  · intro ⟨hall, hold⟩ f
    rw [among_kept]
    constructor
    · intro ⟨g, hg, hkept, heq⟩
      exact (hold g hg hkept).congr heq
    · intro ⟨g, hg, heq⟩
      obtain ⟨k, hk, hkept, hkeq⟩ := hall g hg
      exact ⟨k, hk, hkept, hkeq.trans heq⟩

theorem fits_iff (it : StoreItem) (old : List Bytes) :
    (∀ f, Among f (it.after old) ↔ it.Wanted old f) ↔ it.Fits old := by
  rw [after, Fits]
  simp only [Wanted]
  cases it.op with
  | remove => exact wanted_remove_iff
  | add =>
    cases it.inverted with
    | true => exact wanted_add_inverted_iff
    | false => exact wanted_add_iff
  | replace =>
    cases it.inverted with
    | true => exact wanted_replace_inverted_iff
    | false => exact wanted_replace_iff

theorem apart_iff (it : StoreItem) (old : List Bytes) :
    ((it.after old).map lower).Nodup ↔ it.Apart old := by
  rw [after, Apart]
  by_cases hremoves : it.op = .remove ∨ it.inverted = true
  · have hdecide : (decide (it.op = .remove) || it.inverted) = true := by simpa using hremoves
    rw [hdecide, if_pos hremoves, flagsAfter, if_pos rfl, List.Nodup, List.pairwise_map,
      List.pairwise_filter]
    simp only [decide_eq_true_eq]
  · have hdecide : (decide (it.op = .remove) || it.inverted) = false := by simpa using hremoves
    rw [hdecide, if_neg hremoves]
    constructor
    · intro h
      have hold : old.Nodup := nodup_flagsAfter_add.mp (h.of_map lower)
      have hinj := (List.nodup_map_iff_inj_on (h.of_map lower)).mp h
      constructor
      · rw [List.nodup_map_iff_inj_on hold]
        exact fun f hf g hg => hinj f (mem_flagsAfter_add.mpr (.inl hf)) g
          (mem_flagsAfter_add.mpr (.inl hg))
      · exact fun f hf g hg => hinj f (mem_flagsAfter_add.mpr (.inr hf)) g
          (mem_flagsAfter_add.mpr (List.mem_append.mp hg))
    · intro ⟨h, hlisted⟩
      have hold : old.Nodup := h.of_map lower
      have hinj := (List.nodup_map_iff_inj_on hold).mp h
      rw [List.nodup_map_iff_inj_on (nodup_flagsAfter_add.mpr hold)]
      intro f hf g hg heq
      rw [mem_flagsAfter_add] at hf hg
      obtain hf | hf := hf
      · obtain hg | hg := hg
        · exact hinj f hf g hg heq
        · exact (hlisted g hg f (List.mem_append_left _ hf) heq.symm).symm
      · exact hlisted f hf g (List.mem_append.mpr hg) heq

end StoreItem

/-- A STORE does what it should exactly when the flags fit. -/
theorem store_exact_iff (it : StoreItem) (user : Bytes) (uids set : List Nat) (v : Server) :
    StoreExact it user uids set v ↔ StoreFits it user uids set v := by
  have hload : ∀ pos ∈ set,
      loadFlags (storeLoop user it.text uids set v).1 (uidAt uids pos) user =
        it.after (loadFlags v (uidAt uids pos) user) := by
    intro pos hpos
    rw [loadFlags_storeLoop, if_pos ⟨rfl, pos, hpos, rfl⟩, it.storeRemoves_text,
      it.storeFlags_text]
    rfl
  have hlines := storeLoop_lines user it.text uids set v
  rw [it.storeRemoves_text, it.storeFlags_text, it.storeSilent_text] at hlines
  constructor
  · intro h
    constructor
    · intro pos hpos
      rw [← it.fits_iff, ← hload pos hpos]
      exact h.flags pos hpos
    · intro pos hpos
      rw [← it.apart_iff, ← hload pos hpos]
      exact h.distinct pos hpos
    · intro hsilent hset
      have hshown := h.shown
      rw [hlines, hsilent, if_neg Bool.false_ne_true] at hshown
      cases hmuted : it.muted with
      | false => rfl
      | true =>
        rw [hmuted] at hshown
        exact absurd (List.map_eq_nil_iff.mp hshown.symm) hset
  · intro h
    constructor
    · intro pos hpos
      rw [hload pos hpos, it.fits_iff]
      exact h.fits pos hpos
    · intro pos hpos
      rw [hload pos hpos, it.apart_iff]
      exact h.apart pos hpos
    · intro m u hother
      rw [loadFlags_storeLoop, if_neg hother]
    · rw [hlines]
      cases hsilent : it.silent with
      | true => rfl
      | false =>
        cases set with
        | nil => simp
        | cons pos set =>
          rw [h.heard hsilent (by simp), Bool.or_self, if_neg Bool.false_ne_true,
            if_neg Bool.false_ne_true]
          apply List.map_congr_left
          intro p hp
          rw [hload p hp]
          rfl

/-- `FLAGS (\Seen)`. -/
def replaceWithSeen : StoreItem where
  op := .replace
  silent := false
  word := bytes "FLAGS"
  flags := [bytes "\\Seen"]
  bracketed := true
  spelled := by decide +kernel
  plain := by decide +kernel

/-- One message, marked as deleted. -/
def deletedOnly : Server where
  store := ⟨[], [], [], [], 8, [], [], [], []⟩
  flags := [⟨7, bytes "alice", bytes "\\Deleted"⟩]

/-- `FLAGS` replaces nothing. -/
theorem store_flags_adds : ¬ ∀ (it : StoreItem) (user : Bytes) (uids set : List Nat) (v : Server),
    StoreExact it user uids set v := by
  intro h
  have hflags := (h replaceWithSeen (bytes "alice") [7] [1] deletedOnly).flags 1 (by simp)
    (bytes "\\Deleted")
  have hkept : bytes "\\Deleted" ∈ loadFlags (storeLoop (bytes "alice") replaceWithSeen.text [7] [1]
      deletedOnly).1 7 (bytes "alice") := by decide +kernel
  obtain ⟨g, hg, heq⟩ := hflags.mp (.of_mem hkept)
  rw [List.mem_singleton.mp hg] at heq
  revert heq
  decide +kernel

end QuackMail.Imap
