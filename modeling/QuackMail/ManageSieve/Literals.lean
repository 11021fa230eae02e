import Mathlib.Data.List.Chain
import QuackMail.ManageSieve.Session
import QuackMail.Net.Ended

/-! # Literals belong to their command

A line that ends with `{n}` or `{n+}` announces a literal: the `n` octets behind it, and the
line behind those, belong to the command.  The server keeps to this where the branch of the
verb reads every argument up to the last literal; what it does not read is left in the stream
for the loop, which takes it for commands.
-/

namespace QuackMail.ManageSieve

open Net

/-! ## Announcements -/

/-- The digits in front of a mark or a closing brace, read from their end. -/
def counted (back : Bytes) : Option Nat :=
  if back.takeWhile isDigit ≠ [] ∧ (back.dropWhile isDigit).head? = some (ch '\x7b') then
    some (digitsFrom 0 (back.takeWhile isDigit).reverse)
  else none

/-- The mark of a literal that does not wait for the server. -/
def dropPlus : Bytes → Bytes
  | [] => []
  | c :: back => if c = ch '+' then back else c :: back

/-- The count of a literal that a line ends with, read from its end. -/
def closing : Bytes → Option Nat
  | [] => none
  | c :: back => if c = ch '\x7d' then counted (dropPlus back) else none

/-- The octets that a line announces. -/
def announced (line : Bytes) : Option Nat := closing line.reverse

example : announced (bytes "PUTSCRIPT \"a\" \x7b12+\x7d") = some 12 := by decide

/-- The bytes of an announcement. -/
def inBraces (c : Byte) : Bool :=
  isDigit c || c == ch '+' || c == ch '\x7b' || c == ch '\x7d'

variable {c : Byte} {args : Bytes} {ts : List Turn}

theorem counted_append (hdigit : isDigit c = false) (hopen : c ≠ ch '\x7b')
    (back front : Bytes) : counted (back ++ c :: front) = counted back := by
  have htake : (back ++ c :: front).takeWhile isDigit = back.takeWhile isDigit := by
    induction back with
    | nil =>
      rw [List.nil_append, List.takeWhile_cons_of_neg (by simp [hdigit])]
      rfl
    | cons d back ih => rw [List.cons_append, List.takeWhile_cons, List.takeWhile_cons, ih]
  have hdrop : ((back ++ c :: front).dropWhile isDigit).head? = some (ch '\x7b') ↔
      (back.dropWhile isDigit).head? = some (ch '\x7b') := by
    clear htake
    induction back with
    | nil =>
      rw [List.nil_append, List.dropWhile_cons_of_neg (by simp [hdigit])]
      simp [hopen]
    | cons d back ih =>
      rw [List.cons_append, List.dropWhile_cons, List.dropWhile_cons]
      split
      · exact ih
      · rfl
  simp only [counted, htake, hdrop]

theorem dropPlus_append (hplus : c ≠ ch '+') (back front : Bytes) :
    dropPlus (back ++ c :: front) = dropPlus back ++ c :: front := by
  cases back with
  | nil => exact if_neg hplus
  | cons d back =>
    rw [List.cons_append, dropPlus, dropPlus]
    split <;> rfl

theorem closing_append (hc : inBraces c = false) (back front : Bytes) :
    closing (back ++ c :: front) = closing back := by
  simp only [inBraces, Bool.or_eq_false_iff, beq_eq_false_iff_ne, ne_eq] at hc
  obtain ⟨⟨⟨hdigit, hplus⟩, hopen⟩, hclose⟩ := hc
  cases back with
  | nil =>
    exact if_neg hclose
  | cons d back =>
    rw [List.cons_append, closing, closing, dropPlus_append hplus, counted_append hdigit hopen]

/-- What stands before a byte that no announcement has does not count. -/
theorem announced_append (hc : inBraces c = false) (front line : Bytes) :
    announced (front ++ c :: line) = announced line := by
  rw [announced, List.reverse_append, List.reverse_cons, List.append_assoc, List.singleton_append,
    closing_append hc, announced]

theorem announced_nil : announced [] = none := rfl

/-! ## Arguments and announcements -/

theorem quotedString_behind (s : Bytes) {behind : Bytes}
    (h : (quotedString s).2 = some behind) : ∃ front, s = front ++ ch '"' :: behind := by
  induction s using quotedString.induct with
  | case1 => cases h
  | case2 =>
    obtain rfl := Option.some.inj h
    exact ⟨[], rfl⟩
  | case3 c hc =>
    rw [quotedString, if_neg hc] at h
    cases h
  | case4 d s =>
    obtain rfl := Option.some.inj h
    exact ⟨[], rfl⟩
  | case5 d s hc ih =>
    obtain ⟨front, rfl⟩ := ih h
    exact ⟨ch '\\' :: d :: front, rfl⟩
  | case6 c d s hc hescape ih =>
    rw [quotedString, if_neg hc, if_neg hescape] at h
    obtain ⟨front, heq⟩ := ih h
    exact ⟨c :: front, by rw [heq, List.cons_append]⟩

/-- The rest behind a quoted string announces what the whole rest does. -/
theorem announced_quoted {value behind : Bytes} (h : token args = .quoted value behind) :
    announced args = announced behind := by
  rw [token] at h
  split at h
  · cases h
  · next c s hs =>
    split at h
    · next hquote =>
      split at h
      · cases h
      · next v b hstring =>
        obtain ⟨rfl, rfl⟩ := Token.quoted.inj h
        obtain ⟨front, rfl⟩ := quotedString_behind s (by rw [hstring])
        have hsplit : args = (args.takeWhile isBlank ++ c :: front) ++ ch '"' :: b := by
          conv_lhs => rw [← List.takeWhile_append_dropWhile (p := isBlank) (l := args), hs]
          simp
        rw [hsplit, announced_append (by decide)]
    · split at h
      · split at h <;> cases h
      · cases h

/-- So does the rest behind an atom, if there is one. -/
theorem announced_atom {value behind : Bytes} (h : token args = .atom value behind)
    (hne : behind ≠ []) : announced args = announced behind := by
  rw [token] at h
  split at h
  · cases h
  · next c s hs =>
    split at h
    · split at h <;> cases h
    · split at h
      · split at h <;> cases h
      · obtain ⟨rfl, hbehind⟩ := Token.atom.inj h
        obtain ⟨d, t, rfl⟩ := List.exists_cons_of_ne_nil hne
        have hblank : isBlank d = true := by
          have hsome : (c :: s).dropWhile (!isBlank ·) ≠ [] := by
            rw [hbehind]
            exact List.cons_ne_nil _ _
          have hhead := List.head_dropWhile_not (!isBlank ·) hsome
          simp only [hbehind, List.head_cons] at hhead
          simpa using hhead
        have hout : inBraces d = false := by
          simp only [isBlank, Bool.or_eq_true, beq_iff_eq] at hblank
          rcases hblank with rfl | rfl <;> decide
        have hsplit : args = (args.takeWhile isBlank ++ (c :: s).takeWhile (!isBlank ·)) ++
            d :: t := by
          rw [List.append_assoc, ← hbehind, List.takeWhile_append_dropWhile, ← hs,
            List.takeWhile_append_dropWhile]
        rw [hsplit, announced_append hout, ← List.nil_append (d :: t), announced_append hout]

/-- A literal whose count is a number and whose brace ends the line is announced. -/
theorem announced_literal {digits : Bytes} (h : token args = .literal digits [])
    (hne : digits ≠ []) (hdigits : ∀ c ∈ digits, isDigit c = true) :
    announced args = some (digitsFrom 0 digits) := by
  rw [token] at h
  split at h
  · cases h
  · next c s hs =>
    split at h
    · split at h <;> cases h
    · split at h
      · next hopen =>
        split at h
        · cases h
        · next close hclose =>
          obtain ⟨hstrip, hbehind⟩ := Token.literal.inj h
          obtain ⟨-, hsplit⟩ := findChar_some hclose
          rw [hbehind] at hsplit
          obtain ⟨plus, hplus, hdigitsPlus⟩ : ∃ plus, (plus = [] ∨ plus = [ch '+']) ∧
              s.take close = digits ++ plus := by
            rw [stripPlus] at hstrip
            split at hstrip
            · next hlast =>
              refine ⟨[ch '+'], .inr rfl, ?_⟩
              rw [← hstrip]
              exact (List.dropLast_append_getLast? _ hlast).symm
            · exact ⟨[], .inl rfl, by rw [hstrip, List.append_nil]⟩
          have hargs : args.reverse = ch '\x7d' :: (plus ++
              (digits.reverse ++ ch '\x7b' :: (args.takeWhile isBlank).reverse)) := by
            conv_lhs => rw [← List.takeWhile_append_dropWhile (p := isBlank) (l := args), hs,
              hsplit, hdigitsPlus, hopen]
            rcases hplus with rfl | rfl <;> simp
          have hfirst : ∀ t, dropPlus (digits.reverse ++ t) = digits.reverse ++ t := by
            intro t
            obtain ⟨d, u, hd⟩ := List.exists_cons_of_ne_nil
              (fun hnil => hne (List.reverse_eq_nil_iff.mp hnil) : digits.reverse ≠ [])
            have hdigit := hdigits d (List.mem_reverse.mp (by rw [hd]; exact List.mem_cons_self))
            rw [hd, List.cons_append, dropPlus, if_neg (isDigit_plain hdigit).2.2]
          have hback : dropPlus (plus ++ (digits.reverse ++ ch '\x7b' ::
              (args.takeWhile isBlank).reverse)) =
              digits.reverse ++ ch '\x7b' :: (args.takeWhile isBlank).reverse := by
            rcases hplus with rfl | rfl
            · exact hfirst _
            · rw [List.singleton_append, dropPlus, if_pos rfl]
          have hall : ∀ d ∈ digits.reverse, isDigit d = true :=
            fun d hd => hdigits d (List.mem_reverse.mp hd)
          have hstop : ¬isDigit (ch '\x7b') = true := by decide
          rw [announced, hargs, closing, if_pos rfl, hback, counted,
            List.takeWhile_append_of_pos hall, List.dropWhile_append_of_pos hall,
            List.takeWhile_cons_of_neg hstop, List.dropWhile_cons_of_neg hstop, List.append_nil,
            List.reverse_reverse]
          exact if_pos ⟨fun hnil => hne (List.reverse_eq_nil_iff.mp hnil), rfl⟩
      · cases h

/-! ## Payloads -/

theorem payloadLoop_some {want : Nat} : ∀ (fuel : Nat) {payload out : Bytes}
    {s s' : ClientStream}, Net.Steady s → want ≤ payload.length + fuel → payload.length ≤ want →
      payloadLoop want fuel payload s = (s', some out) →
      want - payload.length ≤ (rest s).length ∧
        rest s' = (rest s).drop (want - payload.length) ∧ Net.Steady s' := by
  intro fuel
  induction fuel with
  | zero =>
    intro payload out s s' hsteady hfuel hle h
    obtain ⟨rfl, -⟩ := Prod.mk.inj h
    have hzero : want - payload.length = 0 := by omega
    rw [hzero]
    exact ⟨Nat.zero_le _, rfl, hsteady⟩
  | succ fuel ih =>
    intro payload out s s' hsteady hfuel hle h
    rw [payloadLoop] at h
    split at h
    · next hshort =>
      split at h
      · cases h
      · next t chunk hread =>
        obtain ⟨hpos, hmax, hrest, hsteady'⟩ := readAvailable_some (by omega) hsteady hread
        have hlen : (payload ++ chunk).length = payload.length + chunk.length :=
          List.length_append
        obtain ⟨henough, hdrop, hfinal⟩ := ih hsteady' (by omega) (by omega) h
        refine ⟨?_, ?_, hfinal⟩
        · rw [hrest, List.length_append]
          omega
        · have hsum : want - payload.length =
              chunk.length + (want - (payload ++ chunk).length) := by omega
          rw [hdrop, hrest, hsum, ← List.drop_drop, List.drop_left]
    · obtain ⟨rfl, -⟩ := Prod.mk.inj h
      have hzero : want - payload.length = 0 := by omega
      rw [hzero]
      exact ⟨Nat.zero_le _, rfl, hsteady⟩

theorem payloadLoop_none {want : Nat} : ∀ (fuel : Nat) {payload : Bytes}
    {s s' : ClientStream}, Net.Steady s → want ≤ payload.length + fuel →
      payloadLoop want fuel payload s = (s', none) → Ended maxLine s' ∧ Net.Steady s' := by
  intro fuel
  induction fuel with
  | zero =>
    intro payload s s' hsteady hfuel h
    rw [payloadLoop, if_neg (by omega)] at h
    cases h
  | succ fuel ih =>
    intro payload s s' hsteady hfuel h
    rw [payloadLoop] at h
    split at h
    · split at h
      · next t hread =>
        obtain ⟨rfl, -⟩ := Prod.mk.inj h
        exact ended_of_readAvailable hread
      · next t chunk hread =>
        obtain ⟨hpos, -, -, hsteady'⟩ := readAvailable_some (by omega) hsteady hread
        refine ih hsteady' ?_ h
        rw [List.length_append]
        omega
    · cases h

/-- A count that is not too large is what its digits say. -/
theorem toNat_count {digits : Bytes} (hdigits : ∀ c ∈ digits, isDigit c = true)
    (hlarge : ¬tooLarge digits = true) : (strtoll digits).toNat = digitsFrom 0 digits := by
  have hrange : ¬(strtoll digits < 0 ∨ (maxScriptBytes : Int) < strtoll digits) :=
    fun h => hlarge (decide_eq_true h)
  rw [maxScriptBytes] at hrange
  have hle : digitsFrom 0 digits ≤ 0x7fffffffffffffff := by
    by_contra hgt
    cases digits with
    | nil => exact hgt (Nat.zero_le _)
    | cons c digits =>
      obtain ⟨hspace, hminus, hplus⟩ := isDigit_plain (hdigits c List.mem_cons_self)
      rw [strtoll, List.dropWhile_cons_of_neg (by simp [hspace])] at hrange
      simp only [if_neg hminus, if_neg hplus] at hrange
      omega
  rw [strtoll_digits hdigits hle]
  rfl

/-! ## Complete commands -/

/-- Behind a line the text `s` goes on with `t`, once the literals the line announces and the
    lines behind them are taken off. -/
inductive Behind : Bytes → Bytes → Bytes → Prop where
  | plain {line s : Bytes} (none_announced : announced line = none) : Behind line s s
  | literal {line s body s' t : Bytes} {n : Nat} (announces : announced line = some n)
      (octets : n ≤ s.length) (first : FirstLine (s.drop n) body s')
      (rest : Behind (stripCr body) s' t) : Behind line s t

/-- The command at the front of `s` is complete, and `t` is what follows it. -/
def Complete (s t : Bytes) : Prop :=
  ∃ body s', FirstLine s body s' ∧ Behind (stripCr body) s' t

theorem Behind.congr {line line' s t : Bytes} (h : Behind line s t)
    (heq : announced line' = announced line) : Behind line' s t := by
  cases h with
  | plain hnone => exact .plain (heq.trans hnone)
  | literal hsome hlen hfirst hrest => exact .literal (heq.trans hsome) hlen hfirst hrest

theorem Behind.unique {line s t u : Bytes} (h : Behind line s t) (h' : Behind line s u) :
    t = u := by
  induction h generalizing u with
  | plain hnone =>
    cases h' with
    | plain => rfl
    | literal hsome =>
      rw [hnone] at hsome
      cases hsome
  | literal hsome hlen hfirst hrest ih =>
    cases h' with
    | plain hnone =>
      rw [hnone] at hsome
      cases hsome
    | literal hsome' hlen' hfirst' hrest' =>
      rw [hsome] at hsome'
      obtain rfl := Option.some.inj hsome'
      obtain ⟨rfl, rfl⟩ := hfirst.unique hfirst'
      exact ih hrest'

/-- What follows a command is determined. -/
theorem Complete.unique {s t u : Bytes} (h : Complete s t) (h' : Complete s u) : t = u := by
  obtain ⟨body, s', hfirst, hbehind⟩ := h
  obtain ⟨body', s'', hfirst', hbehind'⟩ := h'
  obtain ⟨rfl, rfl⟩ := hfirst.unique hfirst'
  exact hbehind.unique hbehind'

/-! ## Arguments the server reads -/

/-- The server reads every literal that is announced: reading up to so many arguments off
    `args`, it stops at an error or at the last of them only where nothing is announced any
    more, and each literal on the way is a decimal number of at most `maxScriptBytes` whose
    brace ends the line. -/
def Covered : Nat → Bytes → Bytes → Prop
  | 0, args, _ => announced args = none
  | reads + 1, args, s =>
    match token args with
    | .missing => announced args = none
    | .malformed => announced args = none
    | .unterminated _ => announced args = none
    | .quoted _ behind => Covered reads behind s
    | .atom _ behind => (behind = [] → announced args = none) ∧ Covered reads behind s
    | .literal digits behind =>
      if tooLarge digits then announced args = none
      else
        behind = [] ∧ digits ≠ [] ∧ (∀ c ∈ digits, isDigit c = true) ∧
          ∀ body s', digitsFrom 0 digits ≤ s.length →
            FirstLine (s.drop (digitsFrom 0 digits)) body s' → Covered reads (stripCr body) s'

/-- A line the server takes up whose literals it reads; a line without arguments announces
    nothing. -/
def Turn.Covered (t : Turn) : Prop :=
  (t.args = [] → announced t.line = none) ∧ ManageSieve.Covered t.reads t.args t.behind

/-- The stream after up to so many arguments. -/
def readArgs : Nat → ClientStream → Bytes → ClientStream
  | 0, s, _ => s
  | reads + 1, s, args =>
    match readArg s args with
    | (s', _, .error _) => s'
    | (s', _, .ok args') => readArgs reads s' args'

theorem readArgs_nil (reads : Nat) (s : ClientStream) : readArgs reads s [] = s := by
  cases reads <;> rfl

/-- Reading the arguments of a covered line leaves what follows the command, or nothing. -/
theorem behind_readArgs (reads : Nat) :
    ∀ {s : ClientStream} {args : Bytes}, Net.Steady s → Covered reads args (rest s) →
      Net.Steady (readArgs reads s args) ∧
        (Behind args (rest s) (rest (readArgs reads s args)) ∨
          Ended maxLine (readArgs reads s args)) := by
  induction reads with
  | zero => exact fun hsteady hcovered => ⟨hsteady, .inl (.plain hcovered)⟩
  | succ reads ih =>
    intro s args hsteady hcovered
    rw [Covered] at hcovered
    rw [readArgs, readArg]
    cases htoken : token args with
    | missing =>
      rw [htoken] at hcovered
      exact ⟨hsteady, .inl (.plain hcovered)⟩
    | malformed =>
      rw [htoken] at hcovered
      exact ⟨hsteady, .inl (.plain hcovered)⟩
    | unterminated value =>
      rw [htoken] at hcovered
      exact ⟨hsteady, .inl (.plain hcovered)⟩
    | quoted value behind =>
      rw [htoken] at hcovered
      obtain ⟨hfinal, hbehind⟩ := ih hsteady hcovered
      exact ⟨hfinal, hbehind.imp_left fun h => h.congr (announced_quoted htoken)⟩
    | atom value behind =>
      rw [htoken] at hcovered
      obtain ⟨hlast, hcovered⟩ := hcovered
      obtain ⟨hfinal, hbehind⟩ := ih hsteady hcovered
      refine ⟨hfinal, hbehind.imp_left fun h => h.congr ?_⟩
      by_cases hnil : behind = []
      · rw [hlast hnil, hnil, announced_nil]
      · exact announced_atom htoken hnil
    | literal digits behind =>
      rw [htoken] at hcovered
      dsimp only at hcovered ⊢
      by_cases hlarge : tooLarge digits = true
      · rw [if_pos hlarge] at hcovered ⊢
        exact ⟨hsteady, .inl (.plain hcovered)⟩
      · rw [if_neg hlarge] at hcovered ⊢
        obtain ⟨rfl, hne, hdigits, hnext⟩ := hcovered
        have hannounced := announced_literal htoken hne hdigits
        rw [toNat_count hdigits hlarge]
        cases hpayload : readPayload (digitsFrom 0 digits) s with
        | mk s₁ out =>
          cases out with
          | none =>
            obtain ⟨hended, hsteady₁⟩ := payloadLoop_none _ hsteady (by simp) hpayload
            exact ⟨hsteady₁, .inr hended⟩
          | some payload =>
            obtain ⟨henough, hdrop, hsteady₁⟩ := payloadLoop_some _ hsteady (by simp)
              (Nat.zero_le _) hpayload
            obtain ⟨hread, hsteady₂⟩ := readLine_spec maxLine hsteady₁
            cases hline : readLine maxLine s₁ with
            | mk s₂ tail =>
              rw [hline] at hread hsteady₂
              dsimp only
              rw [hline]
              cases hread with
              | refused hsame hlong =>
                have hended := @ended_of_readLine s₁ maxLine (by rw [hline])
                rw [hline] at hended
                dsimp only
                rw [readArgs_nil]
                exact ⟨hsteady₂, .inr hended⟩
              | @line body hfirst hshort =>
                rw [hdrop] at hfirst
                obtain ⟨hfinal, hbehind⟩ := ih hsteady₂ (hnext body _ henough hfirst)
                exact ⟨hfinal, hbehind.imp_left fun h => .literal hannounced henough hfirst h⟩

/-! ## Sessions -/

/-- Each line that is taken up is the first after the complete command before it. -/
def Framed (ts : List Turn) : Prop := ts.IsChain fun a b => Complete a.start b.start

/-- The lines taken up so far are framed, and the stream goes on behind the last of them or
    gives no line any more. -/
structure Leads (ts : List Turn) (s : ClientStream) : Prop where
  steady : Net.Steady s
  framed : Framed ts
  last : ∀ t ∈ ts.getLast?, Complete t.start (rest s) ∨ Ended maxLine s

/-- A line is taken up and its arguments are read. -/
theorem Leads.line {s s' : ClientStream} (h : Leads ts s) {line : Bytes}
    {reads : Nat} (hread : readLine maxLine s = (s', some line))
    (hargs : args ≠ [] → announced line = announced args)
    (hcovered : (⟨rest s, line, args, reads, rest s'⟩ : Turn).Covered) :
    Leads (ts ++ [⟨rest s, line, args, reads, rest s'⟩]) (readArgs reads s' args) := by
  obtain ⟨hline, hsteady'⟩ := readLine_spec maxLine h.steady
  rw [hread] at hline hsteady'
  have hopen : ¬Ended maxLine s := by
    intro hended
    have hnone := (readLine_ended hended).1
    rw [hread] at hnone
    cases hnone
  obtain ⟨hfinal, hbehind⟩ := behind_readArgs reads hsteady' hcovered.2
  refine ⟨hfinal, ?_, ?_⟩
  · refine List.isChain_append.mpr ⟨h.framed, List.isChain_singleton _, ?_⟩
    intro t ht u hu
    obtain rfl := Option.some.inj hu
    exact (h.last t ht).resolve_right hopen
  · intro t ht
    rw [List.getLast?_append, List.getLast?_singleton, Option.some_or] at ht
    obtain rfl := Option.some.inj ht
    refine hbehind.imp_left fun hb => ?_
    cases hline with
    | @line body hfirst hshort =>
      refine ⟨body, rest s', hfirst, hb.congr ?_⟩
      by_cases hnil : args = []
      · rw [hcovered.1 hnil, hnil, announced_nil]
      · exact hargs hnil

theorem Leads.ended {s : ClientStream} (h : Leads ts s)
    (hread : (readLine maxLine s).2 = none) : Leads ts (readLine maxLine s).1 :=
  ⟨(readLine_spec maxLine h.steady).2, h.framed, fun _ _ => .inr (ended_of_readLine hread)⟩

/-! ### AUTHENTICATE -/

theorem readArgs_one (s : ClientStream) (args : Bytes) :
    readArgs 1 s args = (readArg s args).1 := by
  rw [readArgs]
  split
  · next h => rw [h]
  · next h => rw [h, readArgs]

theorem challenge_leads {x : Exchange} (h : Leads (ts ++ x.answers) x.stream)
    {prompt : Bytes} (hcovered : ∀ t ∈ (challenge x prompt).1.answers, t.Covered) :
    Leads (ts ++ (challenge x prompt).1.answers) (challenge x prompt).1.stream := by
  have hanswers : ∀ s reply, readLine maxLine x.stream = (s, some reply) →
      (challenge x prompt).1.answers = x.answers ++ [⟨rest x.stream, reply, reply, 1, rest s⟩] ∧
        (challenge x prompt).1.stream = (readArg s reply).1 := by
    intro s reply hread
    rw [challenge, hread]
    dsimp only
    split
    · next heq => exact ⟨rfl, by rw [heq]⟩
    · next heq => exact ⟨rfl, by rw [heq]⟩
  cases hread : readLine maxLine x.stream with
  | mk s reply =>
    cases reply with
    | none =>
      have hended := h.ended (by rw [hread])
      rw [hread] at hended
      rw [challenge, hread]
      exact hended
    | some reply =>
      obtain ⟨hlist, hstream⟩ := hanswers s reply hread
      rw [hlist] at hcovered ⊢
      rw [hstream, ← readArgs_one, ← List.append_assoc]
      exact h.line hread (fun _ => rfl)
        (hcovered _ (List.mem_append_right _ (List.mem_singleton_self _)))

/-- A challenge adds an answer behind those there were. -/
theorem challenge_answers (x : Exchange) (prompt : Bytes) :
    ∃ more, (challenge x prompt).1.answers = x.answers ++ more := by
  rw [challenge]
  split
  · exact ⟨[], (List.append_nil _).symm⟩
  · split
    · exact ⟨_, rfl⟩
    · exact ⟨_, rfl⟩

variable (v : Server) (s : Session)

/-- An exchange makes no challenge, one or two. -/
theorem serverAuth_exchange (mechanism initial : Bytes) (x : Exchange) :
    (serverAuth v mechanism initial x).1 = x ∨
      (∃ p, (serverAuth v mechanism initial x).1 = (challenge x p).1) ∨
        ∃ p q, (serverAuth v mechanism initial x).1 = (challenge (challenge x p).1 q).1 := by
  rw [serverAuth]
  split
  · split
    · refine .inr (.inl ⟨[], ?_⟩)
      split
      · next h => rw [h]
      · next h => rw [h]
    · exact .inl rfl
  · split
    · split
      · next h => exact .inr (.inl ⟨_, by rw [h]⟩)
      · next h =>
        split
        · exact .inr (.inl ⟨_, by rw [h]⟩)
        · split
          · next h' => exact .inr (.inr ⟨_, _, by rw [h, h']⟩)
          · next h' =>
            split
            · exact .inr (.inr ⟨_, _, by rw [h, h']⟩)
            · exact .inr (.inr ⟨_, _, by rw [h, h']⟩)
    · exact .inl rfl

theorem serverAuth_leads {mechanism initial : Bytes} {x : Exchange}
    (h : Leads (ts ++ x.answers) x.stream)
    (hcovered : ∀ t ∈ (serverAuth v mechanism initial x).1.answers, t.Covered) :
    Leads (ts ++ (serverAuth v mechanism initial x).1.answers)
      (serverAuth v mechanism initial x).1.stream := by
  rcases serverAuth_exchange v mechanism initial x with heq | ⟨p, heq⟩ | ⟨p, q, heq⟩
  · rw [heq]
    exact h
  · rw [heq] at hcovered ⊢
    exact challenge_leads h hcovered
  · rw [heq] at hcovered ⊢
    obtain ⟨more, hmore⟩ := challenge_answers (challenge x p).1 q
    refine challenge_leads (challenge_leads h fun t ht => hcovered t ?_) hcovered
    rw [hmore]
    exact List.mem_append_left _ ht

theorem authenticate_stream (stream : ClientStream) (mech args : Bytes) :
    ∃ x, (authenticate v s stream mech args).stream = x.stream ∧
      (authenticate v s stream mech args).answers = x.answers ∧
      ∃ initial, x = (serverAuth v (upper mech) initial ⟨readArgs 1 stream args, [], []⟩).1 := by
  have hinitial : (if args = [] then (stream, []) else
      ((readArg stream args).1, (readArg stream args).2.1)).1 = readArgs 1 stream args := by
    split
    · next hnil => rw [hnil, readArgs_nil]
    · rw [readArgs_one]
  rw [authenticate, hinitial]
  split
  · next h => exact ⟨_, rfl, rfl, _, by rw [h]⟩
  · next h => exact ⟨_, rfl, rfl, _, by rw [h]⟩
  · next h => exact ⟨_, rfl, rfl, _, by rw [h]⟩

/-! ### The branches -/

theorem withOneArg_stream (stream : ClientStream) (args : Bytes)
    (f : Bytes → Session × List Bytes) :
    (withOneArg s stream args f).stream = readArgs 1 stream args ∧
      (withOneArg s stream args f).answers = [] := by
  rw [withOneArg, withArg, readArgs_one]
  rcases readArg stream args with ⟨_, _, _ | _⟩
  · exact ⟨rfl, rfl⟩
  · exact ⟨rfl, rfl⟩

theorem withTwoArgs_stream (stream : ClientStream) (args : Bytes)
    (f : Bytes → Bytes → Session × List Bytes) :
    (withTwoArgs s stream args f).stream = readArgs 2 stream args ∧
      (withTwoArgs s stream args f).answers = [] := by
  rw [withTwoArgs, withArg, readArgs]
  rcases readArg stream args with ⟨s', _, _ | args'⟩
  · exact ⟨rfl, rfl⟩
  · dsimp only
    rw [withArg, readArgs_one]
    rcases readArg s' args' with ⟨_, _, _ | _⟩
    · exact ⟨rfl, rfl⟩
    · exact ⟨rfl, rfl⟩

theorem handleUser_stream {s : Session} (hauthed : s.authed = true)
    (stream : ClientStream) {verb : Keyword} (hverb : verb ≠ .authenticate) (args : Bytes) :
    (handleUser v s stream verb args).stream = readArgs (arity s verb) stream args ∧
      (handleUser v s stream verb args).answers = [] := by
  cases verb with
  | haveSpace =>
    rw [arity, if_pos hauthed]
    exact withTwoArgs_stream s stream args _
  | putScript =>
    rw [arity, if_pos hauthed]
    exact withTwoArgs_stream s stream args _
  | renameScript =>
    rw [arity, if_pos hauthed]
    exact withTwoArgs_stream s stream args _
  | checkScript =>
    rw [arity, if_pos hauthed]
    exact withOneArg_stream s stream args _
  | getScript =>
    rw [arity, if_pos hauthed]
    exact withOneArg_stream s stream args _
  | setActive =>
    rw [arity, if_pos hauthed]
    exact withOneArg_stream s stream args _
  | deleteScript =>
    rw [arity, if_pos hauthed]
    exact withOneArg_stream s stream args _
  | authenticate => exact absurd rfl hverb
  | logout => exact ⟨rfl, rfl⟩
  | noop => exact ⟨rfl, rfl⟩
  | capability => exact ⟨rfl, rfl⟩
  | startTls => exact ⟨rfl, rfl⟩
  | unauthenticate => exact ⟨rfl, rfl⟩
  | listScripts => exact ⟨rfl, rfl⟩
  | unknown => exact ⟨rfl, rfl⟩

/-- What a branch leaves of the stream, and the answers it has taken up. -/
theorem handle_leads {stream : ClientStream}
    (verb : Keyword) (args : Bytes) (h : Leads ts (readArgs (arity s verb) stream args))
    (hcovered : ∀ t ∈ (handle v s stream verb args).answers, t.Covered) :
    Leads (ts ++ (handle v s stream verb args).answers) (handle v s stream verb args).stream := by
  have hplain : (handle v s stream verb args).stream = readArgs (arity s verb) stream args →
      (handle v s stream verb args).answers = [] →
      Leads (ts ++ (handle v s stream verb args).answers)
        (handle v s stream verb args).stream := by
    intro hstream hanswers
    rw [hstream, hanswers, List.append_nil]
    exact h
  have huser : verb ≠ .authenticate → (handle v s stream verb args =
      if s.authed then handleUser v s stream verb args
      else ⟨s, stream, [no (bytes "Authenticate first")], [], .again⟩) →
      Leads (ts ++ (handle v s stream verb args).answers)
        (handle v s stream verb args).stream := by
    intro hverb heq
    by_cases hauthed : s.authed = true
    · rw [if_pos hauthed] at heq
      obtain ⟨hstream, hanswers⟩ := handleUser_stream v hauthed stream hverb args
      exact hplain (by rw [heq, hstream]) (by rw [heq, hanswers])
    · rw [if_neg hauthed] at heq
      have harity : arity s verb = 0 := by
        cases verb <;> first | rfl | exact if_neg hauthed | exact absurd rfl hverb
      exact hplain (by rw [heq, harity]; rfl) (by rw [heq])
  cases verb with
  | authenticate =>
    by_cases hauthed : s.authed = true
    · refine hplain ?_ (by rw [handle, if_pos hauthed])
      rw [handle, if_pos hauthed, arity, if_pos hauthed]
      rfl
    · by_cases htls : (!s.tlsActive) = true
      · refine hplain ?_ (by rw [handle, if_neg hauthed, if_pos htls])
        rw [handle, if_neg hauthed, if_pos htls, arity, if_neg hauthed, if_pos htls]
        rfl
      · have hhandle : handle v s stream .authenticate args =
            withArg s stream args (authenticate v s) := by
          rw [handle, if_neg hauthed, if_neg htls]
        have harity : arity s .authenticate = 2 := by
          rw [arity, if_neg hauthed, if_neg htls]
        rw [harity] at h hplain
        rw [hhandle] at hcovered hplain ⊢
        cases hfirst : readArg stream args with
        | mk stream' found =>
          obtain ⟨mech, out⟩ := found
          cases out with
          | error err =>
            exact hplain (by rw [withArg, readArgs, hfirst]) (by rw [withArg, hfirst])
          | ok args' =>
            have hbranch : withArg s stream args (authenticate v s) =
                authenticate v s stream' mech args' := by rw [withArg, hfirst]
            have hread : readArgs 2 stream args = readArgs 1 stream' args' := by
              rw [readArgs, hfirst]
            obtain ⟨x, hstream, hanswers, initial, hx⟩ :=
              authenticate_stream v s stream' mech args'
            rw [hread] at h
            rw [hbranch, hanswers, hx] at hcovered
            rw [hbranch, hstream, hanswers, hx]
            refine serverAuth_leads v ?_ hcovered
            rw [List.append_nil]
            exact h
  | logout => exact hplain rfl rfl
  | noop => exact hplain rfl rfl
  | capability => exact hplain rfl rfl
  | unauthenticate =>
    by_cases hauthed : s.authed = true
    · exact hplain (by rw [handle, if_pos hauthed]; rfl) (by rw [handle, if_pos hauthed])
    · exact hplain (by rw [handle, if_neg hauthed]; rfl) (by rw [handle, if_neg hauthed])
  | startTls =>
    by_cases htls : s.tlsActive = true
    · exact hplain (by rw [handle, if_pos htls]; rfl) (by rw [handle, if_pos htls])
    · by_cases hoff : (!v.startTlsEnabled) = true
      · exact hplain (by rw [handle, if_neg htls, if_pos hoff]; rfl)
          (by rw [handle, if_neg htls, if_pos hoff])
      · by_cases hshake : v.handshake = true
        · exact hplain (by rw [handle, if_neg htls, if_neg hoff, if_pos hshake]; rfl)
            (by rw [handle, if_neg htls, if_neg hoff, if_pos hshake])
        · exact hplain (by rw [handle, if_neg htls, if_neg hoff, if_neg hshake]; rfl)
            (by rw [handle, if_neg htls, if_neg hoff, if_neg hshake])
  | listScripts => exact huser nofun rfl
  | haveSpace => exact huser nofun rfl
  | putScript => exact huser nofun rfl
  | checkScript => exact huser nofun rfl
  | getScript => exact huser nofun rfl
  | setActive => exact huser nofun rfl
  | deleteScript => exact huser nofun rfl
  | renameScript => exact huser nofun rfl
  | unknown => exact huser nofun rfl

/-! ### The loop -/

/-- A line announces what its arguments do. -/
theorem announced_splitVerb {line : Bytes} (h : (splitVerb line).2 ≠ []) :
    announced line = announced (splitVerb line).2 := by
  cases hspace : findChar (ch ' ') line with
  | none =>
    rw [splitVerb, hspace] at h
    exact absurd rfl h
  | some sp =>
    obtain ⟨-, hsplit⟩ := findChar_some hspace
    rw [splitVerb, hspace]
    conv_lhs => rw [hsplit]
    exact announced_append (by decide) _ _

theorem framed_turns : ∀ (rounds : Nat) {ts : List Turn} {s : Session}
    {stream : ClientStream}, Leads ts stream → (∀ t ∈ turns v rounds s stream, t.Covered) →
      Framed (ts ++ turns v rounds s stream) := by
  intro rounds
  induction rounds with
  | zero =>
    intro ts s stream h _
    rw [turns, List.append_nil]
    exact h.framed
  | succ rounds ih =>
    intro ts s stream h hcovered
    rw [turns] at hcovered ⊢
    cases hread : readLine maxLine stream with
    | mk stream' found =>
      cases found with
      | none =>
        rw [List.append_nil]
        exact h.framed
      | some line =>
        rw [hread] at hcovered
        obtain ⟨hline, hrest⟩ := List.forall_mem_cons.mp hcovered
        obtain ⟨hanswers, hnext⟩ := List.forall_mem_append.mp hrest
        have hled := handle_leads v s _ _ (h.line hread announced_splitVerb hline) hanswers
        rw [List.append_cons, ← List.append_assoc]
        split at hnext
        · exact ih hled hnext
        · rw [List.append_nil]
          exact hled.framed

/-- Where the server reads every literal that is announced, no octet of one is taken for a
    command, and each command is the first line after the complete command before it. -/
theorem framed_of_covered (v : Server) (rounds : Nat) (s : Session) (stream : ClientStream)
    (hsteady : Net.Steady stream) (hcovered : ∀ t ∈ turns v rounds s stream, t.Covered) :
    Framed (turns v rounds s stream) := by
  have hstart : Leads [] stream := ⟨hsteady, List.isChain_nil, nofun⟩
  exact framed_turns v rounds hstart hcovered

/-- A server whose handshake works and which takes every script and every password. -/
def anyServer : Server := ⟨true, true, bytes "fileinto", fun _ => none, fun _ _ => true⟩

/-- A script whose text is a command, and a command behind it. -/
def uploaded : ClientStream :=
  connect [bytes "PUTSCRIPT \"a\" \x7b6+\x7d\r\nLOGOUT\r\nNOOP\r\n"]

theorem steady_uploaded : Net.Steady uploaded := by
  refine steady_connect fun chunk hchunk => ?_
  obtain rfl := List.mem_singleton.mp hchunk
  exact ⟨by decide +kernel, by decide +kernel⟩

theorem framed_of_covered_uploaded : Net.Steady uploaded ∧
      (∀ t ∈ turns anyServer 3 ⟨true, true, bytes "ann", []⟩ uploaded, t.Covered) ∧
      Framed (turns anyServer 3 ⟨true, true, bytes "ann", []⟩ uploaded) := by
  have hturns : turns anyServer 3 ⟨true, true, bytes "ann", []⟩ uploaded =
      [⟨bytes "PUTSCRIPT \"a\" \x7b6+\x7d\r\nLOGOUT\r\nNOOP\r\n",
          bytes "PUTSCRIPT \"a\" \x7b6+\x7d", bytes "\"a\" \x7b6+\x7d", 2,
          bytes "LOGOUT\r\nNOOP\r\n"⟩,
        ⟨bytes "NOOP\r\n", bytes "NOOP", [], 0, []⟩] := by decide +kernel
  have hcovered : ∀ t ∈ turns anyServer 3 ⟨true, true, bytes "ann", []⟩ uploaded,
      t.Covered := by
    rw [hturns]
    intro t ht
    rcases List.mem_cons.mp ht with rfl | ht
    · refine ⟨fun hnil => absurd hnil (by decide), ?_⟩
      have hname : token (bytes "\"a\" \x7b6+\x7d") =
          .quoted (bytes "a") (bytes " \x7b6+\x7d") := by decide
      have hscript : token (bytes " \x7b6+\x7d") = .literal (bytes "6") [] := by decide
      rw [Covered, hname]
      dsimp only
      rw [Covered, hscript]
      dsimp only
      refine ⟨rfl, by decide, forall_mem_of_all (by decide), fun body s' _ hfirst => ?_⟩
      have hblank : FirstLine ((bytes "LOGOUT\r\nNOOP\r\n").drop (digitsFrom 0 (bytes "6")))
          (bytes "\r") (bytes "NOOP\r\n") := ⟨by decide +kernel, by decide⟩
      obtain ⟨rfl, -⟩ := hfirst.unique hblank
      rw [Covered]
      decide
    · obtain rfl := List.mem_singleton.mp ht
      exact ⟨fun _ => by decide, announced_nil⟩
  exact ⟨steady_uploaded, hcovered, framed_of_covered _ _ _ _ steady_uploaded hcovered⟩

/-- Before the login the script is not read, and its text is executed. -/
theorem not_framed_refused : ¬∀ (v : Server) (rounds : Nat) (s : Session)
    (stream : ClientStream), Net.Steady stream → Framed (turns v rounds s stream) := by
  intro hall
  have hframed := hall anyServer 3 ⟨true, false, [], []⟩ uploaded steady_uploaded
  have hturns : turns anyServer 3 ⟨true, false, [], []⟩ uploaded =
      [⟨bytes "PUTSCRIPT \"a\" \x7b6+\x7d\r\nLOGOUT\r\nNOOP\r\n",
          bytes "PUTSCRIPT \"a\" \x7b6+\x7d", bytes "\"a\" \x7b6+\x7d", 0,
          bytes "LOGOUT\r\nNOOP\r\n"⟩,
        ⟨bytes "LOGOUT\r\nNOOP\r\n", bytes "LOGOUT", [], 0, bytes "NOOP\r\n"⟩] := by
    decide +kernel
  have hexecuted := (List.isChain_cons_cons.mp hframed).1
  have hcomplete : Complete
      (bytes "PUTSCRIPT \"a\" \x7b6+\x7d\r\nLOGOUT\r\nNOOP\r\n") (bytes "NOOP\r\n") := by
    refine ⟨bytes "PUTSCRIPT \"a\" \x7b6+\x7d\r", bytes "LOGOUT\r\nNOOP\r\n",
      ⟨by decide, by decide⟩, ?_⟩
    have hblank : FirstLine ((bytes "LOGOUT\r\nNOOP\r\n").drop 6) (bytes "\r")
        (bytes "NOOP\r\n") := ⟨by decide, by decide⟩
    exact .literal (by decide) (by decide) hblank (.plain (by decide))
  have hsame := hexecuted.unique hcomplete
  revert hsame
  decide

end QuackMail.ManageSieve
