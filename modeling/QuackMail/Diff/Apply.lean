import QuackMail.Diff.Unified

/-! # The applier

`apply` is `Apply` of `diff.cpp`.  A patch is read line by line: `hunkBody` is the
loop over the lines of one hunk, `applyLoop` the loop over the patch.
-/

namespace QuackMail.Diff

/-- The digits of a number; a value above `2^40` is a line number nobody has. -/
def numberLoop (val : Nat) : Bytes → Option (Nat × Bytes)
  | [] => some (val, [])
  | c :: s =>
    if isDigit c then
      if val > 0x10000000000 then none else numberLoop (val * 10 + digitVal c) s
    else some (val, c :: s)

/-- `number` of `ParseHunk`: the value and what follows it. -/
def number : Bytes → Option (Nat × Bytes)
  | [] => none
  | c :: s => if isDigit c then numberLoop 0 (c :: s) else none

/-- The optional `",count"`. -/
def count : Bytes → Option (Nat × Bytes)
  | [] => some (1, [])
  | c :: s => if c = ch ',' then number s else some (1, c :: s)

structure Hunk where
  aStart : Nat
  aCount : Nat
  bStart : Nat
  bCount : Nat

/-- `ParseHunk`: `"@@ -a,b +c,d @@"`, `none` on anything that is not one. -/
def parseHunk (line : Bytes) : Option Hunk := do
  if !(bytes "@@ -").isPrefixOf line then none
  let (aStart, s) ← number (line.drop 4)
  let (aCount, s) ← count s
  if !(bytes " +").isPrefixOf s then none
  let (bStart, s) ← number (s.drop 2)
  let (bCount, s) ← count s
  if (bytes " @@").isPrefixOf s then some ⟨aStart, aCount, bStart, bCount⟩ else none

/-- How far `Apply` has come: the next unconsumed line of the source, the lines of
    the result, and whether the last of them ends without a newline. -/
structure Applied where
  srcAt : Nat
  result : List Bytes
  lastNoNewline : Bool

def takeSrc (s : Lines) (st : Applied) : Applied :=
  { srcAt := st.srcAt + 1
    result := st.result ++ [s.v.getD st.srcAt []]
    lastNoNewline := st.srcAt + 1 == s.v.length && !s.finalNewline }

/-- Take `n` lines of the source. -/
def takeSrcs (s : Lines) : Nat → Applied → Applied
  | 0, st => st
  | n + 1, st => takeSrcs s n (takeSrc s st)

/-- `marker_at` of the line after the current one. -/
def markerAt (rest : List Bytes) : Bool := rest.head? == some noNewlineText

def contextError (st : Applied) : Bytes :=
  bytes "context does not match at line " ++ num (st.srcAt + 1)

def removedError (st : Applied) : Bytes :=
  bytes "removed line does not match at line " ++ num (st.srcAt + 1)

def unrecognisedError (line : Bytes) : Bytes :=
  bytes "unrecognised patch line: " ++ line.take 60

def unexpectedError (line : Bytes) : Bytes :=
  bytes "unexpected line in patch: " ++ line.take 60

/-- What the lines of one hunk leave behind: the patch lines after it, how many
    lines it consumed and produced, and the state. -/
abbrev BodyResult := List Bytes × Nat × Nat × Applied

/-- The lines of a hunk, until both counts are reached. -/
def hunkBody (s : Lines) (h : Hunk) : List Bytes → Nat → Nat → Applied → Except Bytes BodyResult
  | [], consumed, produced, st => .ok ([], consumed, produced, st)
  | line :: rest, consumed, produced, st =>
    if consumed < h.aCount ∨ produced < h.bCount then
      if line = noNewlineText then hunkBody s h rest consumed produced st
      else
        match line with
        | [] =>
          -- a context line whose content is empty and whose space was stripped
          if consumed ≥ h.aCount ∨ s.v[st.srcAt]? ≠ some [] then .error (contextError st)
          else hunkBody s h rest (consumed + 1) (produced + 1)
            { takeSrc s st with lastNoNewline := markerAt rest }
        | tag :: text =>
          if tag = ch ' ' then
            if s.v[st.srcAt]? ≠ some text then .error (contextError st)
            else hunkBody s h rest (consumed + 1) (produced + 1)
              { takeSrc s st with lastNoNewline := markerAt rest }
          else if tag = ch '-' then
            if s.v[st.srcAt]? ≠ some text then .error (removedError st)
            else hunkBody s h rest (consumed + 1) produced { st with srcAt := st.srcAt + 1 }
          else if tag = ch '+' then
            hunkBody s h rest consumed (produced + 1)
              { st with result := st.result ++ [text], lastNoNewline := markerAt rest }
          else .error (unrecognisedError (tag :: text))
    else .ok (line :: rest, consumed, produced, st)

/-- The line of the source a hunk starts at. -/
def Hunk.want (h : Hunk) : Nat := if h.aCount = 0 then h.aStart else h.aStart - 1

/-- The loop over the patch; every round consumes a line, so as many rounds as there
    are lines are enough. -/
def applyLoop (s : Lines) : Nat → Bool → List Bytes → Applied → Except Bytes Applied
  | _, _, [], st => .ok st
  | 0, _, _ :: _, st => .ok st
  | fuel + 1, sawHunk, line :: rest, st =>
    if line = [] ∨ line = noNewlineText then applyLoop s fuel sawHunk rest st
    else
      match parseHunk line with
      | none =>
        -- file headers and anything else before the first hunk
        if sawHunk then .error (unexpectedError line) else applyLoop s fuel sawHunk rest st
      | some h =>
        if h.want < st.srcAt then .error (bytes "patch hunks are out of order")
        else if h.want > s.v.length then .error (bytes "patch applies past the end of the text")
        else
          match hunkBody s h rest 0 0 (takeSrcs s (h.want - st.srcAt) st) with
          | .error err => .error err
          | .ok (rest', consumed, produced, st') =>
            if consumed ≠ h.aCount ∨ produced ≠ h.bCount then .error (bytes "hunk is truncated")
            else applyLoop s fuel true rest' st'

/-- `Apply`: the patched text, or what is wrong with the patch. -/
def apply (src patch : Bytes) : Except Bytes Bytes :=
  let s := split src
  let lines := (split patch).v
  match applyLoop s lines.length false lines ⟨0, [], !s.finalNewline⟩ with
  | .error err => .error err
  | .ok st =>
    let st' := takeSrcs s (s.v.length - st.srcAt) st
    .ok (join ⟨st'.result, if st'.result = [] then true else !st'.lastNoNewline⟩)

/-! ## Hunk headers -/

theorem numberLoop_num {n : Nat} (h : n / 10 ≤ 0x10000000000) (s : Bytes) :
    numberLoop 0 (num n ++ s) = numberLoop n s := by
  induction n using Nat.strongRecOn generalizing s with
  | ind n ih =>
    have hd : n % 10 < 10 := Nat.mod_lt n (by omega)
    have hstep : numberLoop (n / 10) (UInt8.ofNat (48 + n % 10) :: s) = numberLoop n s := by
      rw [numberLoop, if_pos (isDigit_ofNat hd), if_neg (by omega), digitVal_ofNat hd]
      congr 1
      omega
    rw [num_eq, List.append_assoc, List.singleton_append, ← hstep]
    split
    · next hlt =>
      rw [List.nil_append, Nat.div_eq_of_lt hlt]
    · next hge => exact ih (n / 10) (by omega) (by omega) _

/-- A printed number is read back, whatever follows it that is not a digit. -/
theorem number_num {n : Nat} (h : n / 10 ≤ 0x10000000000) {s : Bytes}
    (hs : ∀ c, s.head? = some c → isDigit c = false) : number (num n ++ s) = some (n, s) := by
  have hfirst : number (num n ++ s) = numberLoop 0 (num n ++ s) := by
    obtain ⟨c, ds, hds⟩ := List.exists_cons_of_ne_nil (num_ne_nil n)
    have hc : isDigit c = true := isDigit_of_mem_num (by rw [hds]; exact List.mem_cons_self)
    rw [hds, List.cons_append, number, if_pos hc]
  rw [hfirst, numberLoop_num h]
  cases s with
  | nil => rfl
  | cons c s =>
    rw [numberLoop, hs c rfl]
    rfl

theorem count_num {n : Nat} (h : n / 10 ≤ 0x10000000000) {s : Bytes}
    (hs : ∀ c, s.head? = some c → isDigit c = false ∧ c ≠ ch ',') :
    count ((if n ≠ 1 then ch ',' :: num n else []) ++ s) = some (n, s) := by
  by_cases hn : n = 1
  · subst hn
    cases s with
    | nil => rfl
    | cons c s =>
      have hc := (hs c rfl).2
      simp [count, hc]
  · rw [if_pos hn, List.cons_append, count, if_pos rfl]
    exact number_num h (fun c hc => (hs c hc).1)

/-- The numbers of a header, as `HunkHeader` prints them. -/
def printed (aStart aCount bStart bCount : Nat) : Hunk :=
  ⟨if aCount = 0 then aStart else aStart + 1, aCount,
    if bCount = 0 then bStart else bStart + 1, bCount⟩

@[simp] theorem want_printed (aStart aCount bStart bCount : Nat) :
    (printed aStart aCount bStart bCount).want = aStart := by
  unfold printed Hunk.want
  by_cases h : aCount = 0 <;> simp [h]

/-- `ParseHunk` reads what `HunkHeader` prints. -/
theorem parseHunk_headerLine {aStart aCount bStart bCount : Nat}
    (ha : aStart + aCount < 10995116277770) (hb : bStart + bCount < 10995116277770) :
    parseHunk (headerLine aStart aCount bStart bCount) =
      some (printed aStart aCount bStart bCount) := by
  have hstart : ∀ start cnt : Nat, start + cnt < 10995116277770 →
      (if cnt = 0 then start else start + 1) / 10 ≤ 0x10000000000 := by
    intro start cnt h
    split <;> omega
  have hhead : headerLine aStart aCount bStart bCount = bytes "@@ -" ++
      (num (if aCount = 0 then aStart else aStart + 1) ++
      ((if aCount ≠ 1 then ch ',' :: num aCount else []) ++ (bytes " +" ++
      (num (if bCount = 0 then bStart else bStart + 1) ++
      ((if bCount ≠ 1 then ch ',' :: num bCount else []) ++ bytes " @@"))))) := by
    simp [headerLine]
  have hsep : ∀ (n : Nat) (s : Bytes),
      (∀ c, s.head? = some c → isDigit c = false) →
      ∀ c, ((if n ≠ 1 then ch ',' :: num n else []) ++ s).head? = some c → isDigit c = false := by
    intro n s hs c hc
    by_cases hn : n = 1
    · rw [if_neg (by simpa using hn)] at hc
      exact hs c hc
    · rw [if_pos hn] at hc
      simp only [List.cons_append, List.head?_cons, Option.some.injEq] at hc
      subst hc
      decide
  have hplus : ∀ s c, (bytes " +" ++ s).head? = some c → isDigit c = false ∧ c ≠ ch ',' := by
    intro s c hc
    have : c = ch ' ' := by simpa [bytes] using hc.symm
    subst this
    decide
  have hend : ∀ c, (bytes " @@").head? = some c → isDigit c = false ∧ c ≠ ch ',' := by
    intro c hc
    have : c = ch ' ' := by simpa [bytes] using hc.symm
    subst this
    decide
  have hdrop₄ : ∀ s, List.drop 4 (bytes "@@ -" ++ s) = s := fun s => rfl
  have hdrop₂ : ∀ s, List.drop 2 (bytes " +" ++ s) = s := fun s => rfl
  have hpre₁ : ∀ s, (bytes "@@ -").isPrefixOf (bytes "@@ -" ++ s) = true := fun s => by
    simp
  have hpre₂ : ∀ s, (bytes " +").isPrefixOf (bytes " +" ++ s) = true := fun s => by
    simp
  rw [hhead]
  unfold parseHunk
  simp only [hpre₁, hdrop₄]
  rw [number_num (hstart _ _ ha) (hsep _ _ (fun c hc => (hplus _ c hc).1))]
  simp only [Bool.not_true, Bool.false_eq_true, if_false, Option.bind_eq_bind, Option.bind_some]
  rw [count_num (by omega) (hplus _)]
  simp only [Option.bind_some, hpre₂, hdrop₂, Bool.not_true, Bool.false_eq_true, if_false]
  rw [number_num (hstart _ _ hb) (hsep _ _ (fun c hc => (hend c hc).1))]
  simp only [Option.bind_some]
  rw [count_num (by omega) hend]
  simp [printed]

end QuackMail.Diff
