import QuackMail.Ical.RoundTrip

/-! # Contacts

The structured values of `contentline.cpp` and the reader and writer of `vcard.cpp`.  A list
that was escaped and joined is split into itself.  The reader trims a line before it looks at
it, so of the components of a card only white space at the end of the last one is lost.
-/

namespace QuackMail.Vcard

open Contentline
open Ical (trim findColon headParts)

/-! ## Splitting -/

def splitEscaped (s : Bytes) (sep : Byte) : List Bytes := (splitRaw s sep).map unescape

/-! ## Cards -/

structure Property where
  group : Bytes := []
  name : Bytes := []
  params : List (Bytes × Bytes) := []
  values : List Bytes := []
  deriving DecidableEq

structure Card where
  version : Nat := 3
  props : List Property := []
  deriving DecidableEq

/-- `SeparatorFor`. -/
def separatorFor (name : Bytes) : Option Byte :=
  if name ∈ [bytes "N", bytes "ADR", bytes "ORG", bytes "GENDER", bytes "CLIENTPIDMAP"] then
    some (ch ';')
  else if name ∈ [bytes "CATEGORIES", bytes "NICKNAME"] then some (ch ',')
  else none

def Card.find (card : Card) (name : Bytes) : Option Property :=
  card.props.find? fun p => p.name == upper name

/-- Give the first property of a name its values, or add one. -/
def setIn (name : Bytes) (values : List Bytes) : List Property → List Property
  | [] => [{ name := name, values := values }]
  | p :: props =>
    if p.name = name then { p with values := values } :: props else p :: setIn name values props

/-- The group in front of a name. -/
def splitGroup (head : Bytes) : Bytes × Bytes :=
  match findChar (ch '.') head with
  | none => ([], head)
  | some dot =>
    match findChar (ch ';') head with
    | none => (head.take dot, head.drop (dot + 1))
    | some semi => if dot < semi then (head.take dot, head.drop (dot + 1)) else ([], head)

/-- A parameter; one without `=` is a type. -/
def parseParam (part : Bytes) : Option (Bytes × Bytes) :=
  let kv := trim part
  if kv = [] then none
  else
    match findChar (ch '=') kv with
    | none => some (bytes "TYPE", upper kv)
    | some eq => some (upper (trim (kv.take eq)), trim (kv.drop (eq + 1)))

/-- `contentline::Parse` with groups: the group, the name, the parameters and the value. -/
def parseContent (line : Bytes) : Option (Bytes × Bytes × List (Bytes × Bytes) × Bytes) :=
  match findColon false line with
  | none => none
  | some colon =>
    let head := splitGroup (line.take colon)
    match headParts false [] head.2 with
    | [] => none
    | part :: parts =>
      if trim part = [] then none
      else some (head.1, upper (trim part), parts.filterMap parseParam, line.drop (colon + 1))

/-- The values of a property from its line. -/
def valuesOf (name value : Bytes) : List Bytes :=
  match separatorFor name with
  | some sep => splitEscaped value sep
  | none => [unescape value]

/-- The cards that are done, and the open one. -/
structure ParseState where
  done : List Card := []
  cur : Option Card := none
  deriving DecidableEq

/-- One turn of the loop of `Parse`. -/
def parseLine (st : ParseState) (raw : Bytes) : ParseState :=
  let line := trim raw
  if line = [] then st
  else if lower line = lower (bytes "BEGIN:VCARD") then { st with cur := some {} }
  else if lower line = lower (bytes "END:VCARD") then
    { done := st.done ++ st.cur.toList, cur := none }
  else
    match st.cur with
    | none => st
    | some card =>
      match parseContent line with
      | none => st
      | some (group, name, params, value) =>
        if name = bytes "VERSION" then
          let version := if (trim value).head? = some (ch '4') then 4 else 3
          { st with cur := some { card with version := version } }
        else
          let p : Property :=
            { group := group, name := name, params := params, values := valuesOf name value }
          { st with cur := some { card with props := card.props ++ [p] } }

def parse (text : Bytes) : List Card := ((unfoldLines text).foldl parseLine {}).done

/-- A parameter as a line has it. -/
def emitParam (kv : Bytes × Bytes) : Bytes :=
  ch ';' :: kv.1 ++ ch '=' ::
    if kv.2.any fun c => c == ch ':' || c == ch ';' then ch '"' :: kv.2 ++ [ch '"'] else kv.2

/-- The value of a property's line. -/
def text (p : Property) : Bytes :=
  match separatorFor p.name with
  | some sep => joinWith sep (p.values.map escape)
  | none => (p.values.map escape).flatten

def emitProp (p : Property) : Bytes :=
  (if p.group = [] then [] else p.group ++ [ch '.']) ++ p.name ++ p.params.flatMap emitParam ++
    ch ':' :: text p

/-- The properties that are not written from the card itself. -/
def isWritten (p : Property) : Bool :=
  p.name ≠ bytes "VERSION" && p.name ≠ bytes "BEGIN" && p.name ≠ bytes "END"

def lines (card : Card) (version : Nat) : List Bytes :=
  bytes "BEGIN:VCARD" :: (if version = 4 then bytes "VERSION:4.0" else bytes "VERSION:3.0") ::
    ((card.props.filter isWritten).map emitProp ++ [bytes "END:VCARD"])

def emit (card : Card) (version : Nat) : Bytes := (lines card version).flatMap appendFolded

/-! ## What was escaped is split again -/

variable {sep : Byte} {vs : List Bytes} {name : Bytes}

theorem splitRawFrom_sep (h : sep ≠ ch '\\') (cur s : Bytes) :
    splitRawFrom sep cur (sep :: s) = cur :: splitRawFrom sep [] s := by
  cases s with
  | nil => simp [splitRawFrom]
  | cons n s => rw [splitRawFrom, if_neg h, if_pos rfl]

theorem splitRawFrom_plain {c : Byte} (hc : c ≠ ch '\\') (hsep : c ≠ sep) (cur s : Bytes) :
    splitRawFrom sep cur (c :: s) = splitRawFrom sep (cur ++ [c]) s := by
  cases s with
  | nil => simp [splitRawFrom, hsep]
  | cons n s => rw [splitRawFrom, if_neg hc, if_neg hsep]

/-- The escape of a byte does not split. -/
theorem splitRawFrom_escapeByte (h : sep = ch ',' ∨ sep = ch ';') (c : Byte) (cur s : Bytes) :
    splitRawFrom sep cur (escapeByte c ++ s) = splitRawFrom sep (cur ++ escapeByte c) s := by
  have hpair : ∀ n, splitRawFrom sep cur ([ch '\\', n] ++ s) =
      splitRawFrom sep (cur ++ [ch '\\', n]) s := by
    intro n
    rw [List.cons_append, List.singleton_append, splitRawFrom, if_pos rfl]
  unfold escapeByte
  split
  · exact hpair (ch '\\')
  · next hback =>
    split
    · exact hpair (ch ';')
    · next hsemi =>
      split
      · exact hpair (ch ',')
      · next hcomma =>
        split
        · exact hpair (ch 'n')
        · split
          · simp
          · apply splitRawFrom_plain hback
            rintro rfl
            cases h with
            | inl heq => exact hcomma heq
            | inr heq => exact hsemi heq

theorem splitRawFrom_escape (h : sep = ch ',' ∨ sep = ch ';') (v cur s : Bytes) :
    splitRawFrom sep cur (escape v ++ s) = splitRawFrom sep (cur ++ escape v) s := by
  induction v generalizing cur with
  | nil => simp [escape]
  | cons c v ih =>
    rw [escape, List.flatMap_cons, List.append_assoc, splitRawFrom_escapeByte h]
    exact (ih _).trans (by rw [escape, List.append_assoc])

theorem separator_ne (h : sep = ch ',' ∨ sep = ch ';') : sep ≠ ch '\\' := by
  cases h with
  | inl heq => rw [heq]; decide
  | inr heq => rw [heq]; decide

/-- The pieces behind the front of the first one. -/
theorem splitRawFrom_joinWith (h : sep = ch ',' ∨ sep = ch ';') (v : Bytes)
    (vs : List Bytes) (cur : Bytes) :
    splitRawFrom sep cur (joinWith sep ((v :: vs).map escape)) =
      (cur ++ escape v) :: vs.map escape := by
  induction vs generalizing v cur with
  | nil =>
    have hend := splitRawFrom_escape h v cur []
    rw [List.append_nil] at hend
    exact hend
  | cons w vs ih =>
    show splitRawFrom sep cur (escape v ++ sep :: joinWith sep ((w :: vs).map escape)) = _
    rw [splitRawFrom_escape h, splitRawFrom_sep (separator_ne h), ih]
    rfl

theorem map_unescape (h : ∀ v ∈ vs, ch '\r' ∉ v) : (vs.map escape).map unescape = vs := by
  rw [List.map_map]
  apply (List.map_congr_left fun v hv => ?_).trans (List.map_id vs)
  exact unescape_escape (h v hv)

theorem splitEscaped_joinWith (hsep : sep = ch ',' ∨ sep = ch ';')
    (hne : vs ≠ []) (h : ∀ v ∈ vs, ch '\r' ∉ v) :
    splitEscaped (joinWith sep (vs.map escape)) sep = vs := by
  cases vs with
  | nil => exact absurd rfl hne
  | cons v vs =>
    rw [splitEscaped, splitRaw, splitRawFrom_joinWith hsep, List.nil_append, ← List.map_cons]
    exact map_unescape h

/-! ## White space at the end of a line -/

def isBlank (c : Byte) : Bool := c == ch ' ' || c == ch '\t'

def trimEnd (s : Bytes) : Bytes := s.rdropWhile isBlank

/-- A list whose last member has no white space at its end. -/
def trimLast : List Bytes → List Bytes
  | [] => []
  | [v] => [trimEnd v]
  | v :: w :: vs => v :: trimLast (w :: vs)

/-- What is read of the values of a property. -/
def readValues (p : Property) : List Bytes :=
  match separatorFor p.name with
  | some _ => trimLast p.values
  | none => [trimEnd p.values.flatten]

theorem trimEnd_append_cons {c : Byte} (hc : isBlank c = false) (x y : Bytes) :
    trimEnd (x ++ c :: y) = x ++ c :: trimEnd y := by
  induction y using List.reverseRecOn with
  | nil =>
    rw [trimEnd, List.rdropWhile_concat_neg _ _ _ (by simp [hc])]
    rfl
  | append_singleton y d ih =>
    rw [← List.cons_append, ← List.append_assoc, trimEnd, trimEnd]
    cases hd : isBlank d with
    | true =>
      rw [List.rdropWhile_concat_pos _ _ _ hd, List.rdropWhile_concat_pos _ _ _ hd]
      exact ih
    | false =>
      rw [List.rdropWhile_concat_neg _ _ _ (by simp [hd]),
        List.rdropWhile_concat_neg _ _ _ (by simp [hd])]
      simp

theorem trimEnd_escape {v : Bytes} (h : ch '\r' ∉ v) : trimEnd (escape v) = escape (trimEnd v) := by
  induction v using List.reverseRecOn with
  | nil => rfl
  | append_singleton v c ih =>
    rw [List.mem_append, List.mem_singleton, not_or] at h
    have hescape : escape (v ++ [c]) = escape v ++ escapeByte c := by simp [escape]
    cases hc : isBlank c with
    | true =>
      have hbyte : ∀ c : Byte, isBlank c = true → escapeByte c = [c] :=
        forall_byte (by decide +kernel)
      rw [hescape, hbyte c hc, trimEnd, trimEnd, List.rdropWhile_concat_pos _ _ _ hc,
        List.rdropWhile_concat_pos _ _ _ hc]
      exact ih h.1
    | false =>
      -- the escape ends with a byte that is none either
      have hbyte : ∀ c : Byte, isBlank c = false → c ≠ ch '\r' →
          escapeByte c = (escapeByte c).dropLast ++ [(escapeByte c).getLastD 0] ∧
            isBlank ((escapeByte c).getLastD 0) = false := forall_byte (by decide +kernel)
      obtain ⟨hlast, hblank⟩ := hbyte c hc (Ne.symm h.2)
      have hkept := trimEnd_append_cons hc v []
      have hkept' := trimEnd_append_cons hblank (escape v ++ (escapeByte c).dropLast) []
      rw [hkept]
      show _ = escape (v ++ [c])
      rw [hescape, hlast, ← List.append_assoc]
      exact hkept'

theorem trimEnd_joinWith (hsep : isBlank sep = false) (h : ∀ v ∈ vs, ch '\r' ∉ v) :
    trimEnd (joinWith sep (vs.map escape)) = joinWith sep ((trimLast vs).map escape) := by
  induction vs with
  | nil => rfl
  | cons v vs ih =>
    cases vs with
    | nil => exact trimEnd_escape (h v List.mem_cons_self)
    | cons w vs =>
      have ih := ih fun u hu => h u (List.mem_cons_of_mem _ hu)
      have hne : trimLast (w :: vs) ≠ [] := by cases vs <;> simp [trimLast]
      obtain ⟨u, us, hus⟩ := List.exists_cons_of_ne_nil hne
      show trimEnd (escape v ++ sep :: joinWith sep ((w :: vs).map escape)) = _
      rw [trimEnd_append_cons hsep, ih, trimLast, hus]
      rfl

theorem mem_trimLast (h : ∀ v ∈ vs, ch '\r' ∉ v) : ∀ v ∈ trimLast vs, ch '\r' ∉ v := by
  induction vs with
  | nil => simp [trimLast]
  | cons v vs ih =>
    cases vs with
    | nil =>
      intro u hu hmem
      rw [trimLast, List.mem_singleton] at hu
      rw [hu] at hmem
      exact h v List.mem_cons_self ((List.rdropWhile_prefix _ _).subset hmem)
    | cons w vs =>
      intro u hu
      cases List.mem_cons.mp hu with
      | inl heq => exact heq ▸ h v List.mem_cons_self
      | inr hmem => exact ih (fun x hx => h x (List.mem_cons_of_mem _ hx)) u hmem

theorem trimLast_ne_nil (h : vs ≠ []) : trimLast vs ≠ [] := by
  cases vs with
  | nil => exact absurd rfl h
  | cons v vs => cases vs <;> simp [trimLast]

/-! ## The line of a property -/

/-- A byte of a property's name. -/
def isNameByte (c : Byte) : Bool := isUpper c || isDigit c || c == ch '-'

/-- A property as `SetComponents` makes it. -/
structure Property.Made (p : Property) : Prop where
  group : p.group = []
  params : p.params = []
  name_ne : p.name ≠ []
  name : ∀ c ∈ p.name, isNameByte c = true
  values_ne : p.values ≠ []
  values : ∀ v ∈ p.values, ch '\r' ∉ v

theorem isNameByte_spec {c : Byte} (h : isNameByte c = true) :
    toUpper c = c ∧ Ical.isTrimmed c = false ∧ c ≠ ch '"' ∧ c ≠ ch ':' ∧ c ≠ ch ';' ∧ c ≠ ch '.' ∧
      c ≠ ch '\n' ∧ c ≠ ch ' ' ∧ c ≠ ch '\t' := by
  have hall : ∀ c : Byte, isNameByte c = true →
      toUpper c = c ∧ Ical.isTrimmed c = false ∧ c ≠ ch '"' ∧ c ≠ ch ':' ∧ c ≠ ch ';' ∧
        c ≠ ch '.' ∧ c ≠ ch '\n' ∧ c ≠ ch ' ' ∧ c ≠ ch '\t' := forall_byte (by decide +kernel)
  exact hall c h

theorem separatorFor_some (h : separatorFor name = some sep) : sep = ch ',' ∨ sep = ch ';' := by
  unfold separatorFor at h
  split at h
  · cases h
    exact Or.inr rfl
  · split at h
    · cases h
      exact Or.inl rfl
    · cases h

theorem flatten_escape (vs : List Bytes) : (vs.map escape).flatten = escape vs.flatten := by
  induction vs with
  | nil => rfl
  | cons v vs ih =>
    rw [List.map_cons, List.flatten_cons, ih, List.flatten_cons, escape, escape, escape,
      List.flatMap_append]

variable {p : Property}

/-- The values of a trimmed line. -/
theorem valuesOf_text (h : p.Made) : valuesOf p.name (trimEnd (text p)) = readValues p := by
  rw [text, readValues, valuesOf]
  cases hsep : separatorFor p.name with
  | none =>
    have hcr : ch '\r' ∉ p.values.flatten := by
      intro hmem
      obtain ⟨v, hv, hmem⟩ := List.mem_flatten.mp hmem
      exact h.values v hv hmem
    have hend : ch '\r' ∉ trimEnd p.values.flatten :=
      fun hmem => hcr ((List.rdropWhile_prefix _ _).subset hmem)
    simp only [flatten_escape, trimEnd_escape hcr, unescape_escape hend]
  | some sep =>
    have hof := separatorFor_some hsep
    have hblank : isBlank sep = false := by
      cases hof with
      | inl heq => rw [heq]; decide
      | inr heq => rw [heq]; decide
    simp only [trimEnd_joinWith hblank h.values]
    exact splitEscaped_joinWith hof (trimLast_ne_nil h.values_ne) (mem_trimLast h.values)

theorem text_clean (p : Property) : ch '\n' ∉ text p ∧ ch '\r' ∉ text p := by
  have hall : ∀ d, d = ch '\n' ∨ d = ch '\r' → d ∉ text p := by
    intro d hd hmem
    unfold text at hmem
    split at hmem
    · next sep hsep =>
      cases mem_joinWith hmem with
      | inl heq =>
        obtain hof | hof := separatorFor_some hsep
        all_goals
          rw [heq, hof] at hd
          revert hd
          decide
      | inr hmem =>
        obtain ⟨piece, hpiece, hmem⟩ := hmem
        obtain ⟨v, -, rfl⟩ := List.mem_map.mp hpiece
        exact not_mem_escape hd v hmem
    · rw [flatten_escape] at hmem
      exact not_mem_escape hd _ hmem
  exact ⟨hall _ (Or.inl rfl), hall _ (Or.inr rfl)⟩

/-- Without line ends white space is all that the trim takes off. -/
theorem rdropWhile_isTrimmed {s : Bytes} (h : ch '\n' ∉ s ∧ ch '\r' ∉ s) :
    s.rdropWhile Ical.isTrimmed = trimEnd s := by
  induction s using List.reverseRecOn with
  | nil => rfl
  | append_singleton s c ih =>
    simp only [List.mem_append, List.mem_singleton, not_or] at h
    have hsame : Ical.isTrimmed c = isBlank c := by
      have hall : ∀ c : Byte, c ≠ ch '\n' → c ≠ ch '\r' → Ical.isTrimmed c = isBlank c :=
        forall_byte (by decide +kernel)
      exact hall c (Ne.symm h.1.2) (Ne.symm h.2.2)
    rw [trimEnd]
    cases hc : isBlank c with
    | true =>
      rw [List.rdropWhile_concat_pos _ _ _ (by rw [hsame, hc]), List.rdropWhile_concat_pos _ _ _ hc]
      exact ih ⟨h.1.1, h.2.1⟩
    | false =>
      rw [List.rdropWhile_concat_neg _ _ _ (by simp [hsame, hc]),
        List.rdropWhile_concat_neg _ _ _ (by simp [hc])]

theorem trim_line (hne : name ≠ []) (h : ∀ c ∈ name, isNameByte c = true)
    {value : Bytes} (hvalue : ch '\n' ∉ value ∧ ch '\r' ∉ value) :
    trim (name ++ ch ':' :: value) = name ++ ch ':' :: trimEnd value := by
  obtain ⟨c, t, rfl⟩ := List.exists_cons_of_ne_nil hne
  have hc : Ical.isTrimmed c = false := (isNameByte_spec (h c List.mem_cons_self)).2.1
  have hclean : ∀ d, isNameByte d = false → d ≠ ch ':' → d ∉ value →
      d ∉ (c :: t) ++ ch ':' :: value := by
    intro d hd hcolon hnot hmem
    rw [List.mem_append, List.mem_cons (b := ch ':')] at hmem
    obtain hmem | hmem | hmem := hmem
    · rw [h d hmem] at hd
      cases hd
    · exact hcolon hmem
    · exact hnot hmem
  show trimBy Ical.isTrimmed (c :: t ++ ch ':' :: value) = _
  rw [trimBy, List.cons_append, List.dropWhile_cons_of_neg (by simp [hc]), ← List.cons_append,
    rdropWhile_isTrimmed ⟨hclean _ (by decide) (by decide) hvalue.1,
      hclean _ (by decide) (by decide) hvalue.2⟩,
    trimEnd_append_cons (by decide)]

theorem parseContent_line (hne : name ≠ []) (h : ∀ c ∈ name, isNameByte c = true) (value : Bytes) :
    parseContent (name ++ ch ':' :: value) = some ([], name, [], value) := by
  have hspec := fun c hc => isNameByte_spec (h c hc)
  have hcolon : findColon false (name ++ ch ':' :: value) = some name.length := by
    rw [Ical.findColon_plain false fun c hc => ⟨(hspec c hc).2.2.1, fun _ => (hspec c hc).2.2.2.1⟩]
    show (some 0).map _ = _
    simp
  have hgroup : splitGroup name = ([], name) := by
    rw [splitGroup, findChar_of_not_mem fun hmem => (hspec _ hmem).2.2.2.2.2.1 rfl]
  have hparts : headParts false [] name = [name] := by
    have := Ical.headParts_plain false
      (fun c hc => ⟨(hspec c hc).2.2.1, fun _ => (hspec c hc).2.2.2.2.1⟩) [] []
    simpa [headParts] using this
  have htrim : trim name = name :=
    Ical.trim_of_ends (fun c hc => (hspec c (List.mem_of_head? hc)).2.1)
      fun c hc => (hspec c (List.mem_of_getLast? hc)).2.1
  have hupper : upper name = name :=
    (List.map_congr_left fun c hc => (hspec c hc).1).trans (List.map_id name)
  have hdrop : (name ++ ch ':' :: value).drop (name.length + 1) = value := by
    rw [← List.singleton_append, ← List.append_assoc, List.drop_left' (by simp)]
  rw [parseContent, hcolon]
  simp only [List.take_left, hgroup, hparts, htrim, if_neg hne, hupper, hdrop,
    List.filterMap_nil]

/-- A property's line is none of the two that open and close a card. -/
theorem line_ne_word (word : Bytes) (h : ∀ c ∈ name, isNameByte c = true)
    (hword : ∀ c ∈ word, isNameByte c = true) (hne : name ≠ word) (value rest : Bytes) :
    lower (name ++ ch ':' :: value) ≠ lower (word ++ ch ':' :: rest) := by
  intro heq
  have hcolon : ∀ x : Bytes, (∀ c ∈ x, isNameByte c = true) → ch ':' ∉ lower x ∧
      upper (lower x) = x := by
    intro x hx
    have hbyte : ∀ c : Byte, isNameByte c = true → toLower c ≠ ch ':' ∧ toUpper (toLower c) = c :=
      forall_byte (by decide +kernel)
    constructor
    · intro hmem
      obtain ⟨c, hc, heq⟩ := List.mem_map.mp hmem
      exact (hbyte c (hx c hc)).1 heq
    · rw [upper, lower, List.map_map]
      exact (List.map_congr_left fun c hc => (hbyte c (hx c hc)).2).trans (List.map_id x)
  have hsplit : ∀ x y : Bytes, lower (x ++ ch ':' :: y) = lower x ++ ch ':' :: lower y := by
    intro x y
    rw [lower_append]
    rfl
  rw [hsplit, hsplit] at heq
  have hfind := congrArg (findChar (ch ':')) heq
  rw [findChar_append (hcolon name h).1, findChar_append (hcolon word hword).1,
    Option.some.injEq] at hfind
  have hlower := (List.append_inj heq hfind).1
  rw [← (hcolon name h).2, hlower, (hcolon word hword).2] at hne
  exact hne rfl

/-- What is read of a property. -/
def readProp (p : Property) : Property := { p with values := readValues p }

theorem parseLine_emitProp (h : p.Made) (hwritten : isWritten p = true)
    (cards : List Card) (card : Card) :
    parseLine { done := cards, cur := some card } (emitProp p) =
      { done := cards, cur := some { card with props := card.props ++ [readProp p] } } := by
  have hemit : emitProp p = p.name ++ ch ':' :: text p := by
    rw [emitProp, h.group, h.params]
    simp
  simp only [isWritten, Bool.and_eq_true, decide_eq_true_eq] at hwritten
  obtain ⟨⟨hversion, hbegin⟩, hend⟩ := hwritten
  have hnonempty : p.name ++ ch ':' :: trimEnd (text p) ≠ [] := by simp
  have hne : lower (p.name ++ ch ':' :: trimEnd (text p)) ≠ lower (bytes "BEGIN:VCARD") :=
    line_ne_word (bytes "BEGIN") h.name (forall_mem_bytes (by decide +kernel)) hbegin _
      (bytes "VCARD")
  have hne' : lower (p.name ++ ch ':' :: trimEnd (text p)) ≠ lower (bytes "END:VCARD") :=
    line_ne_word (bytes "END") h.name (forall_mem_bytes (by decide +kernel)) hend _
      (bytes "VCARD")
  rw [parseLine, hemit, trim_line h.name_ne h.name (text_clean p)]
  simp only [if_neg hnonempty, if_neg hne, if_neg hne', parseContent_line h.name_ne h.name,
    if_neg hversion, valuesOf_text h]
  rw [readProp, ← h.group, ← h.params]

theorem foldl_parseLine {props : List Property} (h : ∀ p ∈ props, p.Made)
    (hwritten : ∀ p ∈ props, isWritten p = true) (cards : List Card) (card : Card) :
    (props.map emitProp).foldl parseLine { done := cards, cur := some card } =
      { done := cards, cur := some { card with props := card.props ++ props.map readProp } } := by
  induction props generalizing card with
  | nil => simp
  | cons p props ih =>
    rw [List.map_cons, List.foldl_cons,
      parseLine_emitProp (h p List.mem_cons_self) (hwritten p List.mem_cons_self),
      ih (fun q hq => h q (List.mem_cons_of_mem _ hq))
        fun q hq => hwritten q (List.mem_cons_of_mem _ hq)]
    simp

theorem plain_emitProp (h : p.Made) : Plain (emitProp p) := by
  have hemit : emitProp p = p.name ++ ch ':' :: text p := by
    rw [emitProp, h.group, h.params]
    simp
  obtain ⟨c, t, hname⟩ := List.exists_cons_of_ne_nil h.name_ne
  have hspec := isNameByte_spec (h.name c (hname ▸ List.mem_cons_self))
  have hhead : (emitProp p).head? = some c := by
    rw [hemit, hname]
    rfl
  refine ⟨?_, ?_, ?_⟩
  · intro hmem
    rw [hemit, List.mem_append, List.mem_cons] at hmem
    obtain hmem | hmem | hmem := hmem
    · exact (isNameByte_spec (h.name _ hmem)).2.2.2.2.2.2.1 rfl
    · revert hmem
      decide
    · exact (text_clean p).1 hmem
  · rw [hhead]
    exact fun heq => hspec.2.2.2.2.2.2.2.1 (Option.some.inj heq)
  · rw [hhead]
    exact fun heq => hspec.2.2.2.2.2.2.2.2 (Option.some.inj heq)

/-- A card is read as it was written, with the values of its properties as their lines have
them. -/
theorem parse_emit {card : Card} (h : ∀ p ∈ card.props, p.Made) (version : Nat) :
    parse (emit card version) =
      [{ version := if version = 4 then 4 else 3,
         props := (card.props.filter isWritten).map readProp }] := by
  have hmade : ∀ p ∈ card.props.filter isWritten, p.Made :=
    fun p hp => h p (List.mem_filter.mp hp).1
  have hplain : ∀ line ∈ lines card version, Plain line := by
    have hword : ∀ line ∈ [bytes "BEGIN:VCARD", bytes "VERSION:4.0", bytes "VERSION:3.0",
        bytes "END:VCARD"], Plain line := by
      unfold Plain
      decide +kernel
    intro line hline
    simp only [lines, List.mem_cons, List.mem_append, List.not_mem_nil, or_false] at hline
    obtain rfl | rfl | hline | rfl := hline
    · exact hword _ (by simp)
    · split
      · exact hword _ (by simp)
      · exact hword _ (by simp)
    · obtain ⟨p, hp, rfl⟩ := List.mem_map.mp hline
      exact plain_emitProp (hmade p hp)
    · exact hword _ (by simp)
  have hbegin : parseLine {} (bytes "BEGIN:VCARD") = { cur := some {} } := by decide +kernel
  have hversion : parseLine { cur := some {} }
      (if version = 4 then bytes "VERSION:4.0" else bytes "VERSION:3.0") =
        { cur := some { version := if version = 4 then 4 else 3 } } := by
    split
    · decide +kernel
    · decide +kernel
  have hend : ∀ card, parseLine { cur := some card } (bytes "END:VCARD") = { done := [card] } := by
    intro card
    have htrim : trim (bytes "END:VCARD") = bytes "END:VCARD" := by decide +kernel
    have hother : lower (bytes "END:VCARD") ≠ lower (bytes "BEGIN:VCARD") := by decide +kernel
    have hnonempty : bytes "END:VCARD" ≠ [] := by decide +kernel
    rfl
  have hblank : ∀ st, parseLine st [] = st := fun st => rfl
  rw [parse, emit, unfoldLines_flatMap hplain, lines]
  rw [List.foldl_append, List.foldl_cons, List.foldl_nil, hblank, List.foldl_cons, hbegin,
    List.foldl_cons, hversion, List.foldl_append,
    foldl_parseLine hmade fun p hp => (List.mem_filter.mp hp).2]
  rw [List.foldl_cons, List.foldl_nil, hend, List.nil_append]

/-! ## Cards that `SetComponents` built -/

theorem mem_setIn {values : List Bytes} {props : List Property} (h : p ∈ setIn name values props) :
    p ∈ props ∨ p = { name := name, values := values } ∨
      ∃ q ∈ props, q.name = name ∧ p = { q with values := values } := by
  induction props with
  | nil => exact Or.inr (Or.inl (List.mem_singleton.mp h))
  | cons q props ih =>
    rw [setIn] at h
    split at h
    · next hname =>
      cases List.mem_cons.mp h with
      | inl heq => exact Or.inr (Or.inr ⟨q, List.mem_cons_self, hname, heq⟩)
      | inr hmem => exact Or.inl (List.mem_cons_of_mem _ hmem)
    · cases List.mem_cons.mp h with
      | inl heq => exact Or.inl (heq ▸ List.mem_cons_self)
      | inr hmem =>
        obtain hold | hnew | ⟨r, hr, hrest⟩ := ih hmem
        · exact Or.inl (List.mem_cons_of_mem _ hold)
        · exact Or.inr (Or.inl hnew)
        · exact Or.inr (Or.inr ⟨r, List.mem_cons_of_mem _ hr, hrest⟩)

end QuackMail.Vcard
