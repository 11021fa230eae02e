import QuackMail.Ical.Component

/-! # Emitting and parsing a calendar object

A tree is writable when every name, parameter and value survives on a line: then what `Emit`
writes is parsed to that tree.
-/

namespace QuackMail.Ical

open Contentline

/-! ## Trimmed texts -/

/-- A byte `Trim` takes off. -/
def isTrimmed (c : Byte) : Bool := c == ch ' ' || c == ch '\t' || c == ch '\r' || c == ch '\n'

theorem length_trim_le (s : Bytes) : (trim s).length ≤ s.length :=
  Nat.le_trans (List.rdropWhile_prefix _ _).length_le (List.dropWhile_suffix _).length_le

variable {c : Byte} {s : Bytes} {p : Property}

theorem head_of_trim (h : trim s = s) (hc : s.head? = some c) : isTrimmed c = false := by
  cases s with
  | nil => cases hc
  | cons d t =>
    cases hc
    by_contra hspace
    have hdrop : trim (c :: t) = trim t := trimBy_cons (p := isTrimmed) (by simpa using hspace) t
    have hle := length_trim_le t
    rw [← hdrop, h, List.length_cons] at hle
    omega

theorem last_of_trim (h : trim s = s) (hc : s.getLast? = some c) : isTrimmed c = false := by
  obtain ⟨t, rfl⟩ := List.getLast?_eq_some_iff.mp hc
  by_contra hspace
  have hdrop : trim (t ++ [c]) = trim t := by
    show trimBy isTrimmed (t ++ [c]) = trimBy isTrimmed t
    rw [← trimBy_rdropWhile, List.rdropWhile_concat_pos _ _ _ (by simpa using hspace),
      trimBy_rdropWhile]
  have hle := length_trim_le t
  rw [← hdrop, h, List.length_append, List.length_singleton] at hle
  omega

theorem trim_of_ends (hhead : ∀ c, s.head? = some c → isTrimmed c = false)
    (hlast : ∀ c, s.getLast? = some c → isTrimmed c = false) : trim s = s := by
  cases hs : s with
  | nil => rfl
  | cons c t =>
    obtain ⟨d, hd⟩ : ∃ d, s.getLast? = some d := by
      rw [hs]
      exact ⟨_, List.getLast?_cons⟩
    rw [← hs]
    exact trimBy_of_ends (by rw [hs]; rfl) (by simpa [isTrimmed] using hhead c (by rw [hs]; rfl)) hd
      (by simpa [isTrimmed] using hlast d hd)

/-- Two trimmed texts with a byte between them are trimmed. -/
theorem trim_around {x y : Bytes} (hc : isTrimmed c = false)
    (hx : ∀ d, x.head? = some d → isTrimmed d = false)
    (hy : ∀ d, y.getLast? = some d → isTrimmed d = false) : trim (x ++ c :: y) = x ++ c :: y := by
  refine trim_of_ends ?_ ?_
  · intro d hd
    cases x with
    | nil =>
      cases hd
      exact hc
    | cons e x => exact hx d hd
  · intro d hd
    cases y with
    | nil =>
      rw [List.getLast?_concat] at hd
      cases hd
      exact hc
    | cons e y =>
      rw [List.getLast?_append_of_ne_nil _ (by simp), List.getLast?_cons_cons] at hd
      exact hy d hd

/-! ## Writable trees -/

/-- A parameter that survives on a line. -/
structure WritableParam (kv : Bytes × Bytes) : Prop where
  key_trim : trim kv.1 = kv.1
  key_upper : upper kv.1 = kv.1
  key_bytes : ∀ c ∈ kv.1, c ≠ ch '=' ∧ c ≠ ch ':' ∧ c ≠ ch ';' ∧ c ≠ ch '"' ∧ c ≠ ch '\n'
  value_trim : trim kv.2 = kv.2
  value_bytes : ∀ c ∈ kv.2, c ≠ ch '"' ∧ c ≠ ch '\n'

/-- A property's value as its line has it. -/
def Property.text (p : Property) : Bytes := if isRule p.name then p.value else escape p.value

/-- A property that survives on a line. -/
structure Property.Writable (p : Property) : Prop where
  nonempty : p.name ≠ []
  name_trim : trim p.name = p.name
  name_upper : upper p.name = p.name
  name_bytes : ∀ c ∈ p.name, c ≠ ch ':' ∧ c ≠ ch ';' ∧ c ≠ ch '"' ∧ c ≠ ch '\n'
  not_begin : p.name ≠ bytes "BEGIN"
  not_end : p.name ≠ bytes "END"
  params : ∀ kv ∈ p.params, WritableParam kv
  value_bytes : ∀ c ∈ p.value, if isRule p.name then c ≠ ch '\n' else c ≠ ch '\r'
  value_last : ∀ c, p.text.getLast? = some c → isTrimmed c = false

/-- A component that survives on its lines. -/
inductive Component.Writable : Component → Prop where
  | mk {name : Bytes} {props : List Property} {children : List Component} :
      trim name = name → upper name = name → ch '\n' ∉ name →
      (∀ p ∈ props, p.Writable) → (∀ c ∈ children, c.Writable) → Writable (.mk name props children)

theorem Component.Writable.parts {c : Component} (h : c.Writable) :
    trim c.name = c.name ∧ upper c.name = c.name ∧ ch '\n' ∉ c.name ∧
      (∀ p ∈ c.props, p.Writable) ∧ ∀ d ∈ c.children, d.Writable := by
  cases h with
  | mk h1 h2 h3 h4 h5 => exact ⟨h1, h2, h3, h4, h5⟩

/-! ## The head of a line -/

theorem findColon_plain {x : Bytes} (quoted : Bool)
    (h : ∀ c ∈ x, c ≠ ch '"' ∧ (quoted = false → c ≠ ch ':')) (s : Bytes) :
    findColon quoted (x ++ s) = (findColon quoted s).map (· + x.length) := by
  induction x with
  | nil => simp
  | cons c x ih =>
    obtain ⟨hquote, hcolon⟩ := h c List.mem_cons_self
    rw [List.cons_append, findColon, if_neg hquote, if_neg fun hc => hcolon hc.2 hc.1,
      ih fun d hd => h d (List.mem_cons_of_mem _ hd), Option.map_map]
    rfl

theorem headParts_plain {x : Bytes} (quoted : Bool)
    (h : ∀ c ∈ x, c ≠ ch '"' ∧ (quoted = false → c ≠ ch ';')) (cur s : Bytes) :
    headParts quoted cur (x ++ s) = headParts quoted (cur ++ x) s := by
  induction x generalizing cur with
  | nil => simp
  | cons c x ih =>
    obtain ⟨hquote, hsemi⟩ := h c List.mem_cons_self
    rw [List.cons_append, headParts, if_neg hquote, if_neg fun hc => hsemi hc.2 hc.1,
      ih fun d hd => h d (List.mem_cons_of_mem _ hd), List.append_assoc]
    rfl

/-- A parameter without its quotes. -/
def plainParam (kv : Bytes × Bytes) : Bytes := kv.1 ++ ch '=' :: kv.2

theorem emitParam_plain {kv : Bytes × Bytes} (h : WritableParam kv) :
    (∀ s, findColon false (emitParam kv ++ s) =
      (findColon false s).map (· + (emitParam kv).length)) ∧
    ∀ cur s,
      headParts false cur (emitParam kv ++ s) = cur :: headParts false (plainParam kv) s := by
  have hkey : ∀ c ∈ ch ';' :: kv.1 ++ [ch '='], c ≠ ch '"' ∧ (false = false → c ≠ ch ':') := by
    intro c hc
    rw [List.mem_append, List.mem_cons, List.mem_singleton] at hc
    rcases hc with (rfl | hc) | rfl
    · decide
    · obtain ⟨-, hcolon, -, hquote, -⟩ := h.key_bytes c hc
      exact ⟨hquote, fun _ => hcolon⟩
    · decide
  have hkey' : ∀ c ∈ kv.1 ++ [ch '='], c ≠ ch '"' ∧ (false = false → c ≠ ch ';') := by
    intro c hc
    rw [List.mem_append, List.mem_singleton] at hc
    rcases hc with hc | rfl
    · obtain ⟨-, -, hsemi, hquote, -⟩ := h.key_bytes c hc
      exact ⟨hquote, fun _ => hsemi⟩
    · decide
  unfold emitParam
  split
  · -- the value stands in quotes, where neither `:` nor `;` counts
    have hquoted (d : Byte) : ∀ c ∈ kv.2, c ≠ ch '"' ∧ (true = false → c ≠ d) :=
      fun c hc => ⟨(h.value_bytes c hc).1, fun hf => by cases hf⟩
    constructor
    · intro s
      rw [show ch ';' :: kv.1 ++ ch '=' :: (ch '"' :: kv.2 ++ [ch '"']) ++ s =
        (ch ';' :: kv.1 ++ [ch '=']) ++ ch '"' :: (kv.2 ++ ch '"' :: s) from by simp,
        findColon_plain false hkey, findColon, if_pos rfl, Bool.not_false,
        findColon_plain true (hquoted _), findColon, if_pos rfl, Bool.not_true]
      cases findColon false s with
      | none => rfl
      | some k => simp; omega
    · intro cur s
      rw [show ch ';' :: kv.1 ++ ch '=' :: (ch '"' :: kv.2 ++ [ch '"']) ++ s =
        ch ';' :: ((kv.1 ++ [ch '=']) ++ ch '"' :: (kv.2 ++ ch '"' :: s)) from by simp,
        headParts, if_neg (by decide), if_pos ⟨rfl, rfl⟩, headParts_plain false hkey', headParts,
        if_pos rfl, Bool.not_false, headParts_plain true (hquoted _), headParts, if_pos rfl,
        Bool.not_true, plainParam]
      simp
  · next hplain =>
    have hvalue : ∀ c ∈ kv.2, c ≠ ch '"' ∧ c ≠ ch ':' ∧ c ≠ ch ';' := by
      intro c hc
      have hany : ¬(c = ch ':' ∨ c = ch ';' ∨ c = ch ',') := by
        intro hor
        refine hplain (List.any_eq_true.mpr ⟨c, hc, ?_⟩)
        rcases hor with rfl | rfl | rfl <;> decide
      exact ⟨(h.value_bytes c hc).1, fun heq => hany (.inl heq), fun heq => hany (.inr (.inl heq))⟩
    constructor
    · intro s
      rw [show ch ';' :: kv.1 ++ ch '=' :: kv.2 ++ s =
        (ch ';' :: kv.1 ++ [ch '=']) ++ (kv.2 ++ s) from by simp, findColon_plain false hkey,
        findColon_plain false fun c hc => ⟨(hvalue c hc).1, fun _ => (hvalue c hc).2.1⟩]
      cases findColon false s with
      | none => rfl
      | some k => simp; omega
    · intro cur s
      rw [show ch ';' :: kv.1 ++ ch '=' :: kv.2 ++ s = ch ';' :: ((kv.1 ++ [ch '=']) ++ (kv.2 ++ s))
        from by simp, headParts, if_neg (by decide), if_pos ⟨rfl, rfl⟩,
        headParts_plain false hkey',
        headParts_plain false fun c hc => ⟨(hvalue c hc).1, fun _ => (hvalue c hc).2.2⟩, plainParam]
      simp

/-- The colon of a property's line is the one behind its parameters. -/
theorem findColon_params {params : List (Bytes × Bytes)} (h : ∀ kv ∈ params, WritableParam kv)
    (s : Bytes) :
    findColon false (params.flatMap emitParam ++ ch ':' :: s) =
      some (params.flatMap emitParam).length := by
  induction params with
  | nil => rfl
  | cons kv params ih =>
    rw [List.flatMap_cons, List.append_assoc, (emitParam_plain (h kv List.mem_cons_self)).1,
      ih fun kv' hkv => h kv' (List.mem_cons_of_mem _ hkv)]
    simp [Nat.add_comm]

theorem headParts_params {params : List (Bytes × Bytes)} (h : ∀ kv ∈ params, WritableParam kv)
    (cur : Bytes) :
    headParts false cur (params.flatMap emitParam) = cur :: params.map plainParam := by
  induction params generalizing cur with
  | nil => rfl
  | cons kv params ih =>
    rw [List.flatMap_cons, (emitParam_plain (h kv List.mem_cons_self)).2,
      ih (fun kv' hkv => h kv' (List.mem_cons_of_mem _ hkv)), List.map_cons]

theorem parseParam_plainParam {kv : Bytes × Bytes} (h : WritableParam kv) :
    parseParam (plainParam kv) = some kv := by
  have hkey : ch '=' ∉ kv.1 := fun hmem => (h.key_bytes _ hmem).1 rfl
  have htrim : trim (plainParam kv) = plainParam kv :=
    trim_around (by decide) (fun _ => head_of_trim h.key_trim) fun _ => last_of_trim h.value_trim
  rw [parseParam, htrim, plainParam, findChar_append hkey]
  simp only [List.take_left']
  rw [h.key_trim, h.key_upper, ← List.singleton_append, ← List.append_assoc,
    List.drop_left' (by simp), h.value_trim]

/-- The head of a property's line is read as its name and its parameters. -/
theorem parseHead_emit (h : p.Writable) :
    parseHead (p.name ++ p.params.flatMap emitParam) = some (p.name, p.params) := by
  have hname : ∀ c ∈ p.name, c ≠ ch '"' ∧ (false = false → c ≠ ch ';') := by
    intro c hc
    obtain ⟨-, hsemi, hquote, -⟩ := h.name_bytes c hc
    exact ⟨hquote, fun _ => hsemi⟩
  have hparams : (p.params.map plainParam).filterMap parseParam = p.params := by
    rw [List.filterMap_map]
    refine (List.filterMap_congr fun kv hkv => ?_).trans (List.filterMap_some)
    exact parseParam_plainParam (h.params kv hkv)
  rw [parseHead, headParts_plain false hname, List.nil_append, headParts_params h.params]
  simp only
  rw [h.name_trim, if_neg h.nonempty, h.name_upper, hparams]

/-! ## The lines of a tree -/

theorem text_bytes (h : p.Writable) : ch '\n' ∉ p.text := by
  unfold Property.text
  split
  · next hrule =>
    intro hmem
    have := h.value_bytes _ hmem
    rw [if_pos hrule] at this
    exact this rfl
  · exact not_mem_escape (.inl rfl) p.value

/-- What is emitted for a property is read as that property. -/
theorem parseLine_emitProp (h : p.Writable) (st : ParseState) :
    parseLine st (emitProp p) = st.property p := by
  have hline : emitProp p = (p.name ++ p.params.flatMap emitParam) ++ ch ':' :: p.text := rfl
  have hhead : ∀ c, (p.name ++ p.params.flatMap emitParam).head? = some c →
      isTrimmed c = false := by
    intro c hc
    rw [List.head?_append_of_ne_nil _ h.nonempty] at hc
    exact head_of_trim h.name_trim hc
  have htrim : trim (emitProp p) = emitProp p := trim_around (by decide) hhead h.value_last
  have hname : ∀ c ∈ p.name, c ≠ ch '"' ∧ (false = false → c ≠ ch ':') := by
    intro c hc
    obtain ⟨hcolon, -, hquote, -⟩ := h.name_bytes c hc
    exact ⟨hquote, fun _ => hcolon⟩
  have hcolon : findColon false (emitProp p) =
      some (p.name ++ p.params.flatMap emitParam).length := by
    rw [hline, List.append_assoc, findColon_plain false hname, findColon_params h.params,
      List.length_append]
    simp [Nat.add_comm]
  have hvalue : (if isRule p.name then p.text else unescape p.text) = p.value := by
    unfold Property.text
    split
    · rfl
    · next hrule =>
      refine unescape_escape fun hmem => ?_
      have := h.value_bytes _ hmem
      rw [if_neg hrule] at this
      exact this rfl
  have hdrop : (emitProp p).drop ((p.name ++ p.params.flatMap emitParam).length + 1) = p.text := by
    rw [hline, ← List.singleton_append, ← List.append_assoc,
      List.drop_left' (by simp [Nat.add_assoc])]
  rw [parseLine, htrim, hcolon]
  simp only
  rw [hdrop, hline, List.take_left, parseHead_emit h]
  simp only
  rw [if_neg h.not_begin, if_neg h.not_end, hvalue]

/-- A line `word:name`, for a word without parameters. -/
theorem parseLine_word (word : Bytes) {name : Bytes}
    (hword : ∀ c ∈ word, c ≠ ch '"' ∧ c ≠ ch ':' ∧ c ≠ ch ';') (hne : word ≠ [])
    (hwtrim : trim word = word) (hupper : upper word = word)
    (hname : trim name = name) (st : ParseState) :
    parseLine st (word ++ ch ':' :: name) =
      if word = bytes "BEGIN" then st.begin (upper name)
      else if word = bytes "END" then st.finish
      else st.property { name := word, value := if isRule word then name else unescape name } := by
  have htrim : trim (word ++ ch ':' :: name) = word ++ ch ':' :: name :=
    trim_around (by decide) (fun _ => head_of_trim hwtrim) fun _ => last_of_trim hname
  have hcolon : findColon false (word ++ ch ':' :: name) = some word.length := by
    rw [findColon_plain false fun c hc => ⟨(hword c hc).1, fun _ => (hword c hc).2.1⟩]
    show (some 0).map _ = _
    simp
  have hparts : headParts false [] word = [word] := by
    have := headParts_plain false (fun c hc => ⟨(hword c hc).1, fun _ => (hword c hc).2.2⟩) [] []
    simpa [headParts] using this
  have hdrop : (word ++ ch ':' :: name).drop (word.length + 1) = name := by
    rw [← List.singleton_append, ← List.append_assoc, List.drop_left' (by simp)]
  rw [parseLine, htrim, hcolon]
  simp only
  rw [List.take_left, parseHead, hparts]
  simp only
  rw [hwtrim, if_neg hne, hupper, hdrop, hname]
  rfl

theorem parseLine_begin {name : Bytes} (htrim : trim name = name) (hupper : upper name = name)
    (st : ParseState) : parseLine st (bytes "BEGIN:" ++ name) = st.begin name := by
  have h := parseLine_word (bytes "BEGIN") (by decide +kernel) (by decide) (by decide) (by decide)
    htrim st
  rw [hupper] at h
  exact h

theorem parseLine_end {name : Bytes} (htrim : trim name = name) (st : ParseState) :
    parseLine st (bytes "END:" ++ name) = st.finish :=
  parseLine_word (bytes "END") (by decide +kernel) (by decide) (by decide) (by decide) htrim st

/-- The properties of a component are read into it. -/
theorem foldl_props {props : List Property} (h : ∀ p ∈ props, p.Writable) (c : Component)
    (stack : List Component) (root : Option Component) :
    (props.map emitProp).foldl parseLine { stack := c :: stack, root := root } =
      { stack := .mk c.name (c.props ++ props) c.children :: stack, root := root } := by
  induction props generalizing c with
  | nil =>
    cases c
    simp [Component.name, Component.props, Component.children]
  | cons p props ih =>
    rw [List.map_cons, List.foldl_cons, parseLine_emitProp (h p List.mem_cons_self)]
    show (props.map emitProp).foldl parseLine { stack := c.addProp p :: stack, root := root } = _
    rw [ih fun q hq => h q (List.mem_cons_of_mem _ hq)]
    simp [Component.addProp, Component.name, Component.props, Component.children]

mutual

/-- Reading a component's lines leaves it to be closed. -/
theorem foldl_lines {c : Component} (h : c.Writable) (stack : List Component)
    (root : Option Component) :
    c.lines.foldl parseLine { stack := stack, root := root } =
      ParseState.finish { stack := c :: stack, root := root } := by
  cases h with
  | @mk name props children htrim hupper _ hprops hchildren =>
    rw [Component.lines, List.cons_append, List.cons_append, List.foldl_cons,
      parseLine_begin htrim hupper, List.append_assoc, List.foldl_append, List.foldl_append]
    show List.foldl parseLine (List.foldl parseLine (List.foldl parseLine
      { stack := .mk name [] [] :: stack, root := root } _) _) _ = _
    rw [foldl_props hprops, foldl_linesOfAll hchildren, List.foldl_cons, parseLine_end htrim]
    simp [Component.name, Component.props, Component.children]

theorem foldl_linesOfAll {cs : List Component} (h : ∀ c ∈ cs, c.Writable) (parent : Component)
    (stack : List Component) (root : Option Component) :
    (linesOfAll cs).foldl parseLine { stack := parent :: stack, root := root } =
      { stack := .mk parent.name parent.props (parent.children ++ cs) :: stack, root := root } := by
  cases cs with
  | nil =>
    cases parent
    simp [linesOfAll, Component.name, Component.props, Component.children]
  | cons c cs =>
    rw [linesOfAll, List.foldl_append, foldl_lines (h c List.mem_cons_self)]
    show (linesOfAll cs).foldl parseLine { stack := parent.addChild c :: stack, root := root } = _
    rw [foldl_linesOfAll fun d hd => h d (List.mem_cons_of_mem _ hd)]
    simp [Component.addChild, Component.name, Component.props, Component.children]

end

/-! ## The round trip -/

theorem plain_cons (hc : isTrimmed c = false) (hs : ch '\n' ∉ c :: s) : Plain (c :: s) := by
  refine ⟨hs, ?_, ?_⟩
  · intro h
    cases h
    exact absurd hc (by decide)
  · intro h
    cases h
    exact absurd hc (by decide)

theorem plain_emitProp (h : p.Writable) : Plain (emitProp p) := by
  have hparams : ch '\n' ∉ p.params.flatMap emitParam := by
    intro hmem
    obtain ⟨kv, hkv, hlf⟩ := List.mem_flatMap.mp hmem
    have hw := h.params kv hkv
    have hkey : ch '\n' ∉ kv.1 := fun hk => (hw.key_bytes _ hk).2.2.2.2 rfl
    have hvalue : ch '\n' ∉ kv.2 := fun hv => (hw.value_bytes _ hv).2 rfl
    unfold emitParam at hlf
    split at hlf
    · simp [hkey, hvalue] at hlf
      exact absurd hlf (by decide)
    · simp [hkey, hvalue] at hlf
      exact absurd hlf (by decide)
  have hname : ch '\n' ∉ p.name := fun hmem => (h.name_bytes _ hmem).2.2.2 rfl
  have hlf : ch '\n' ∉ emitProp p := by
    show ch '\n' ∉ (p.name ++ p.params.flatMap emitParam) ++ ch ':' :: p.text
    simp only [List.mem_append, List.mem_cons, hname, hparams, text_bytes h, or_false, false_or]
    decide
  obtain ⟨c, t, hct⟩ := List.exists_cons_of_ne_nil h.nonempty
  have hc : isTrimmed c = false := head_of_trim h.name_trim (by rw [hct]; rfl)
  rw [show emitProp p = c :: (t ++ p.params.flatMap emitParam ++ ch ':' :: p.text) from by
    show p.name ++ p.params.flatMap emitParam ++ ch ':' :: p.text = _
    rw [hct]
    simp] at hlf ⊢
  exact plain_cons hc hlf

mutual

theorem plain_lines {c : Component} (h : c.Writable) : ∀ line ∈ c.lines, Plain line := by
  cases h with
  | @mk name props children _ _ hlf hprops hchildren =>
    intro line hline
    have hword (word : Bytes) (hw : ch '\n' ∉ word) : ch '\n' ∉ word ++ name := by
      rw [List.mem_append, not_or]
      exact ⟨hw, hlf⟩
    rw [Component.lines, List.mem_append, List.mem_append, List.mem_cons] at hline
    rcases hline with ((rfl | hline) | hline) | hline
    · exact plain_cons (by decide) (hword (bytes "BEGIN:") (by decide))
    · obtain ⟨p, hp, rfl⟩ := List.mem_map.mp hline
      exact plain_emitProp (hprops p hp)
    · exact plain_linesOfAll hchildren line hline
    · rw [List.mem_singleton.mp hline]
      exact plain_cons (by decide) (hword (bytes "END:") (by decide))

theorem plain_linesOfAll {cs : List Component} (h : ∀ c ∈ cs, c.Writable) :
    ∀ line ∈ linesOfAll cs, Plain line := by
  cases cs with
  | nil =>
    intro line hline
    cases hline
  | cons c cs =>
    intro line hline
    rw [linesOfAll, List.mem_append] at hline
    cases hline with
    | inl hline => exact plain_lines (h c List.mem_cons_self) line hline
    | inr hline => exact plain_linesOfAll (fun d hd => h d (List.mem_cons_of_mem _ hd)) line hline

end

/-- A line with nothing on it is skipped. -/
theorem parseLine_nil (st : ParseState) : parseLine st [] = st := rfl

/-- A writable calendar is parsed as it was emitted. -/
theorem parse_emit {c : Component} (h : c.Writable) (hname : c.name = bytes "VCALENDAR") :
    parse (emit c) = some c := by
  rw [parse, emit, unfoldLines_flatMap (plain_lines h), List.foldl_append]
  rw [foldl_lines h, List.foldl_cons, parseLine_nil]
  simp [ParseState.finish, hname]

/-- A writable calendar is read back, and no other one is written as the same text. -/
theorem calendar_round_trip {c : Component} (h : c.Writable) (hname : c.name = bytes "VCALENDAR") :
    parse (emit c) = some c ∧
      ∀ d : Component, d.Writable → d.name = bytes "VCALENDAR" → emit d = emit c → d = c := by
  have hparse := parse_emit h hname
  refine ⟨hparse, fun d hd hdname heq => ?_⟩
  have hother := parse_emit hd hdname
  rw [heq, hparse] at hother
  exact (Option.some.inj hother).symm

/-- A summary that has to be escaped and folded. -/
def summary : Property where
  name := bytes "SUMMARY"
  params := [(bytes "LANGUAGE", bytes "en"), (bytes "ALTREP", bytes "cid:part1;a=b")]
  value := bytes "Budget, rooms; and the \\ in names\nsecond line, with words enough for a fold"

def everyWeek : Property where
  name := bytes "RRULE"
  value := bytes "FREQ=WEEKLY;BYDAY=MO,TU"

def agenda : Component :=
  .mk (bytes "VCALENDAR") [] [.mk (bytes "VEVENT") [summary, everyWeek] []]

theorem writable_summary : summary.Writable := by
  have hlast : summary.text.getLast? = some (ch 'd') := by decide +kernel
  refine ⟨by decide, by decide +kernel, by decide +kernel, by decide +kernel, by decide +kernel,
    by decide +kernel, ?_, by decide +kernel, ?_⟩
  · intro kv hkv
    simp only [summary, List.mem_cons, List.not_mem_nil, or_false] at hkv
    obtain rfl | rfl := hkv
    · constructor <;> decide +kernel
    · constructor <;> decide +kernel
  · rw [hlast]
    rintro c ⟨⟩
    decide

theorem writable_everyWeek : everyWeek.Writable := by
  have hlast : everyWeek.text.getLast? = some (ch 'U') := by decide +kernel
  refine ⟨by decide, by decide +kernel, by decide +kernel, by decide +kernel, by decide +kernel,
    by decide +kernel, by simp [everyWeek], by decide +kernel, ?_⟩
  rw [hlast]
  rintro c ⟨⟩
  decide

theorem writable_agenda : agenda.Writable := by
  refine .mk (by decide +kernel) (by decide +kernel) (by decide +kernel) (by simp) ?_
  rw [List.forall_mem_singleton]
  refine .mk (by decide +kernel) (by decide +kernel) (by decide +kernel) ?_ (by simp)
  simp only [List.forall_mem_cons, List.not_mem_nil, false_imp_iff, implies_true, and_true]
  exact ⟨writable_summary, writable_everyWeek⟩

theorem calendar_round_trip_agenda : parse (emit agenda) = some agenda ∧ 75 < summary.text.length :=
  ⟨(calendar_round_trip writable_agenda rfl).1, by decide +kernel⟩

end QuackMail.Ical
