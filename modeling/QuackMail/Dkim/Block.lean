import QuackMail.Dkim.Sign

/-! # The parts of the signed block

How the scans of `dkim.cpp` read what was written: tag lists, the place of `b=`,
lists of header names, and the headers they select.
-/

namespace QuackMail.Dkim

set_option maxRecDepth 20000

/-! ## Tags of a list -/

/-- A tag as it stands in a tag list, with the white space in front of it. -/
structure TagText where
  lead : Bytes
  name : Bytes
  value : Bytes

def TagText.text (t : TagText) : Bytes := t.lead ++ t.name ++ ch '=' :: t.value

/-- The tags, each ended by a `;`. -/
def tagsText (tags : List TagText) : Bytes := tags.flatMap (fun t => t.text ++ [ch ';'])

/-- A tag that the scans read as it was written. -/
structure TagText.Plain (t : TagText) : Prop where
  lead : ∀ c ∈ t.lead, isTrimmed c = true
  name : t.name ≠ []
  plain : ∀ c ∈ t.name, isTrimmed c = false ∧ c ≠ ch ';' ∧ c ≠ ch '='
  folded : key t.name = t.name
  value : ch ';' ∉ t.value

variable {c : Byte} {s name : Bytes} {h : RawHeader} {marked : List (RawHeader × Bool)}

theorem isTrimmed_ne (h : isTrimmed c = true) :
    c ≠ ch ';' ∧ c ≠ ch '=' ∧ c ≠ ch 'b' ∧ c ≠ ch ':' := by
  simp only [isTrimmed, Bool.or_eq_true, beq_iff_eq] at h
  rcases h with ((rfl | rfl) | rfl) | rfl <;> decide

theorem trim_lead {lead : Bytes} (h : ∀ c ∈ lead, isTrimmed c = true) :
    trim (lead ++ s) = trim s := by
  rw [trim, trim, trimBy, trimBy]
  induction lead with
  | nil => rfl
  | cons c lead ih =>
    rw [List.cons_append, List.dropWhile_cons_of_pos (h c List.mem_cons_self),
      ih (fun d hd => h d (List.mem_cons_of_mem _ hd))]

variable {t : TagText} {d : Byte} {list : Bytes}

theorem TagText.Plain.parse (h : t.Plain) :
    parseTag t.text = some (t.name, trim (unfold t.value)) := by
  have heq : ch '=' ∉ t.lead ++ t.name := by
    intro hmem
    rcases List.mem_append.mp hmem with hmem | hmem
    · exact (isTrimmed_ne (h.lead _ hmem)).2.1 rfl
    · exact (h.plain _ hmem).2.2 rfl
  rw [parseTag, TagText.text, findChar_append heq]
  simp only [Option.some.injEq, Prod.mk.injEq]
  constructor
  · rw [List.take_left, trim_lead h.lead]
    exact h.folded
  · rw [List.drop_length_add_append]
    rfl

theorem TagText.Plain.semi (h : t.Plain) : ch ';' ∉ t.text := by
  intro hmem
  simp only [TagText.text, List.mem_append, List.mem_cons] at hmem
  rcases hmem with (hmem | hmem) | hmem | hmem
  · exact (isTrimmed_ne (h.lead _ hmem)).1 rfl
  · exact (h.plain _ hmem).2.1 rfl
  · exact absurd hmem (by decide)
  · exact h.value hmem

/-- Plain tags are read one after the other. -/
theorem parseTagList_tagsText {tags : List TagText} (h : ∀ t ∈ tags, t.Plain) (s : Bytes) :
    parseTagList (tagsText tags ++ s) =
      tags.map (fun t => (t.name, trim (unfold t.value))) ++ parseTagList s := by
  induction tags with
  | nil => rfl
  | cons t tags ih =>
    have ht := h t List.mem_cons_self
    have hsplit : tagsText (t :: tags) ++ s = t.text ++ ch ';' :: (tagsText tags ++ s) := by
      simp [tagsText]
    rw [hsplit, parseTagList, splitOn_append ht.semi, List.filterMap_cons, ht.parse,
      ← parseTagList, ih (fun u hu => h u (List.mem_cons_of_mem _ hu))]
    rfl

/-! ## The place of the signature -/

theorem atTagStart_cons (c : Byte) (before : Bytes) :
    atTagStart (c :: before) = if isTrimmed c then atTagStart before else c == ch ';' := by
  cases hc : isTrimmed c with
  | true => rw [atTagStart, List.dropWhile_cons_of_pos hc, if_pos rfl, ← atTagStart]
  | false => simp [atTagStart, hc]

/-- A byte that does not start the tag is passed. -/
theorem bTag_cons {before : Bytes}
    (h : ¬(c = ch 'b' ∧ s.head? = some (ch '=') ∧ atTagStart before = true)) :
    bTag before (c :: s) = bTag (c :: before) s := by
  cases s with
  | nil => simp [bTag]
  | cons d s =>
    rw [bTag, if_neg (by simpa using h)]

theorem bTag_lead {lead : Bytes} (h : ∀ c ∈ lead, isTrimmed c = true) (before s : Bytes) :
    bTag before (lead ++ s) = bTag (lead.reverse ++ before) s ∧
      atTagStart (lead.reverse ++ before) = atTagStart before := by
  induction lead generalizing before with
  | nil => simp
  | cons c lead ih =>
    have hc := h c List.mem_cons_self
    obtain ⟨hread, hstart⟩ := ih (fun d hd => h d (List.mem_cons_of_mem _ hd)) (c :: before)
    rw [List.cons_append, bTag_cons (fun hb => (isTrimmed_ne hc).2.2.1 hb.1), hread,
      List.reverse_cons, List.append_assoc]
    refine ⟨rfl, ?_⟩
    rw [List.singleton_append, hstart, atTagStart_cons, if_pos hc]

/-- Inside a tag no `b=` counts. -/
theorem bTag_inside {x : Bytes} (h : ch ';' ∉ x) {before : Bytes}
    (hbefore : atTagStart before = false) (s : Bytes) :
    bTag before (x ++ s) = bTag (x.reverse ++ before) s ∧
      atTagStart (x.reverse ++ before) = false := by
  induction x generalizing before with
  | nil => simpa using hbefore
  | cons c x ih =>
    rw [List.mem_cons, not_or] at h
    have hnext : atTagStart (c :: before) = false := by
      rw [atTagStart_cons]
      split
      · exact hbefore
      · simpa using Ne.symm h.1
    obtain ⟨hread, hstart⟩ := ih h.2 hnext
    rw [List.cons_append, bTag_cons (by simp [hbefore]), hread, List.reverse_cons,
      List.append_assoc]
    exact ⟨rfl, hstart⟩

theorem bTag_tag (h : t.Plain) (hb : t.name ≠ bytes "b") (before s : Bytes) :
    bTag before (t.text ++ ch ';' :: s) = bTag ((t.text ++ [ch ';']).reverse ++ before) s ∧
      atTagStart ((t.text ++ [ch ';']).reverse ++ before) = true := by
  obtain ⟨n, ns, hname⟩ := List.exists_cons_of_ne_nil h.name
  have hn := h.plain n (by simp [hname])
  obtain ⟨hlead, hstart⟩ := bTag_lead h.lead before (t.name ++ ch '=' :: t.value ++ ch ';' :: s)
  -- the name is not the one letter `b`
  have hfirst : ¬(n = ch 'b' ∧ (ns ++ ch '=' :: t.value ++ ch ';' :: s).head? = some (ch '=') ∧
      atTagStart (t.lead.reverse ++ before) = true) := by
    rintro ⟨rfl, hhead, -⟩
    cases ns with
    | nil => exact hb (by rw [hname]; rfl)
    | cons m ns =>
      have hm := h.plain m (by simp [hname])
      simp only [List.cons_append, List.head?_cons, Option.some.injEq] at hhead
      exact hm.2.2 hhead
  have hinside : atTagStart (n :: (t.lead.reverse ++ before)) = false := by
    rw [atTagStart_cons, if_neg (by simp [hn.1])]
    simpa using hn.2.1
  have hsemi : ch ';' ∉ ns ++ ch '=' :: t.value := by
    intro hmem
    rcases List.mem_append.mp hmem with hmem | hmem
    · exact (h.plain _ (by simp [hname, hmem])).2.1 rfl
    · rcases List.mem_cons.mp hmem with hmem | hmem
      · exact absurd hmem (by decide)
      · exact h.value hmem
  obtain ⟨hread, -⟩ := bTag_inside hsemi hinside (ch ';' :: s)
  have htext : t.text ++ ch ';' :: s = t.lead ++ (t.name ++ ch '=' :: t.value ++ ch ';' :: s) := by
    simp [TagText.text]
  constructor
  · rw [htext, hlead, hname, List.cons_append, List.cons_append, bTag_cons hfirst, hread,
      bTag_cons (fun hb => absurd hb.1 (by decide))]
    simp [TagText.text, hname]
  · rw [List.reverse_append, List.reverse_singleton, List.append_assoc, List.singleton_append,
      atTagStart_cons, if_neg (by decide)]
    rfl

/-- Tags of another name are passed. -/
theorem bTag_tagsText {tags : List TagText} (h : ∀ t ∈ tags, t.Plain ∧ t.name ≠ bytes "b")
    {before : Bytes} (hbefore : atTagStart before = true) (s : Bytes) :
    bTag before (tagsText tags ++ s) = bTag ((tagsText tags).reverse ++ before) s ∧
      atTagStart ((tagsText tags).reverse ++ before) = true := by
  induction tags generalizing before with
  | nil => simpa [tagsText] using hbefore
  | cons t tags ih =>
    obtain ⟨ht, hb⟩ := h t List.mem_cons_self
    obtain ⟨hread, hstart⟩ := bTag_tag ht hb before (tagsText tags ++ s)
    obtain ⟨hread', hstart'⟩ := ih (fun u hu => h u (List.mem_cons_of_mem _ hu)) hstart
    have hsplit : tagsText (t :: tags) = (t.text ++ [ch ';']) ++ tagsText tags := by
      simp [tagsText]
    rw [hsplit, List.reverse_append]
    constructor
    · rw [List.append_assoc, List.append_assoc, List.singleton_append, hread, hread',
        List.append_assoc]
    · rw [List.append_assoc]
      exact hstart'

/-! ## Names -/

theorem toLower_eq (hd' : isLower d = false) (h : toLower c = d) : c = d := by
  unfold toLower at h
  split at h
  · next hc =>
    have hlow : ∀ c : Byte, isUpper c = true → isLower (c + 32) = true :=
      forall_byte (P := fun c => isUpper c = true → isLower (c + 32) = true) (by decide +kernel)
    rw [← h, hlow c hc] at hd'
    exact absurd hd' (by simp)
  · exact h

@[simp] theorem isTrimmed_toLower (c : Byte) : isTrimmed (toLower c) = isTrimmed c := by
  revert c
  exact forall_byte (by decide)

theorem mem_lower (hd : isUpper d = false) (hd' : isLower d = false) : d ∈ lower s ↔ d ∈ s := by
  constructor
  · intro h
    obtain ⟨c, hc, heq⟩ := List.mem_map.mp h
    exact toLower_eq hd' heq ▸ hc
  · intro h
    have hlow : toLower d = d := by simp [toLower, hd]
    exact List.mem_map.mpr ⟨d, h, hlow⟩

theorem trim_lower (s : Bytes) : trim (lower s) = lower (trim s) := by
  have hp : isTrimmed ∘ toLower = isTrimmed := funext isTrimmed_toLower
  simp only [trim, trimBy, lower, List.rdropWhile, List.dropWhile_map, ← List.map_reverse, hp]

@[simp] theorem key_key (name : Bytes) : key (key name) = key name := by
  rw [key, key, trim_lower, lower_lower, trim, trim, trimBy_trimBy]

theorem mem_of_mem_key (hd : isUpper d = false) (hd' : isLower d = false) (h : d ∈ key s) : d ∈ s :=
  trimBy_subset ((mem_lower hd hd').mp h)

/-- What a name of an `h=` list is. -/
structure IsName (name : Bytes) : Prop where
  key_eq : key name = name
  ne : name ≠ []
  colon : ch ':' ∉ name

theorem isName_of_mem (h : name ∈ listNames list) : IsName name := by
  simp only [listNames, List.mem_filter, List.mem_map, decide_eq_true_eq] at h
  obtain ⟨⟨piece, hpiece, rfl⟩, hne⟩ := h
  exact ⟨key_key piece, hne,
    fun hc => (mem_splitOn hpiece).1 (mem_of_mem_key (by decide) (by decide) hc)⟩

theorem listNames_trim (s : Bytes) : listNames (trim s) = listNames s := by
  have h := @map_trimBy_splitOn (ch ':') isTrimmed (by decide) s
  have hmap : ∀ pieces : List Bytes, pieces.map key = (pieces.map trim).map lower := by
    intro pieces
    simp [key]
  rw [listNames, listNames, hmap, hmap, show trim = trimBy isTrimmed from rfl, h]

/-- The names of a joined list: those joined, and the last piece if it names anything. -/
theorem listNames_join {names : List Bytes} (h : ∀ name ∈ names, IsName name) {last : Bytes}
    (hlast : ch ':' ∉ last) :
    listNames (joinWith (ch ':') (names ++ [last])) =
      names ++ if key last = [] then [] else [key last] := by
  have hpieces : ∀ piece ∈ names ++ [last], ch ':' ∉ piece := by
    intro piece hpiece
    rcases List.mem_append.mp hpiece with hpiece | hpiece
    · exact (h piece hpiece).colon
    · rw [List.mem_singleton.mp hpiece]
      exact hlast
  have hkey : names.map key = names :=
    (List.map_congr_left fun name hname => (h name hname).key_eq).trans (List.map_id _)
  have hfilter : names.filter (· ≠ []) = names :=
    List.filter_eq_self.mpr fun name hname => decide_eq_true (h name hname).ne
  rw [listNames, splitOn_joinWith (by simp) hpieces, List.map_append, List.filter_append, hkey,
    hfilter]
  by_cases hk : key last = [] <;> simp [hk]

/-! ## Names of headers -/

/-- A text whose line endings are all CRLF. -/
inductive CrlfText : Bytes → Prop where
  | nil : CrlfText []
  | char {c : Byte} {s : Bytes} (hcr : c ≠ cr) (hlf : c ≠ lf) (h : CrlfText s) : CrlfText (c :: s)
  | line {s : Bytes} (h : CrlfText s) : CrlfText (cr :: lf :: s)

theorem crlfText_normalize (raw : Bytes) : CrlfText (normalize raw) := by
  induction raw with
  | nil => exact .nil
  | cons c raw ih =>
    rw [normalize, List.flatMap_cons, ← normalize]
    split
    · exact ih
    · next hcr =>
      split
      · exact .line ih
      · next hlf => exact .char hcr hlf ih

/-- The header block is such a text too. -/
theorem CrlfText.head (h : CrlfText s) : CrlfText (splitHead s).1 := by
  have hcut : ∀ sep, find blank s = some sep → CrlfText (s.take (sep + 2)) := by
    induction h with
    | nil => simp [find, blank]
    | @char c s hcr hlf _ ih =>
      intro sep hsep
      rw [find, if_neg (by simp [blank, Ne.symm hcr])] at hsep
      obtain ⟨n, hn, rfl⟩ := Option.map_eq_some_iff.mp hsep
      exact .char hcr hlf (ih n hn)
    | @line s h ih =>
      intro sep hsep
      rw [find] at hsep
      split at hsep
      · cases hsep
        exact .line .nil
      · rw [find, if_neg (by simp [blank, cr, lf])] at hsep
        simp only [Option.map_map, Option.map_eq_some_iff, Function.comp_apply] at hsep
        obtain ⟨n, hn, rfl⟩ := hsep
        exact .line (ih n hn)
  rw [splitHead]
  split
  · exact h
  · next sep hsep => exact hcut sep hsep

/-- No line of such a text has a line ending in it. -/
theorem CrlfText.lines (h : CrlfText s) {cur : Bytes} (hcur : ∀ c ∈ cur, c ≠ cr ∧ c ≠ lf) :
    ∀ line ∈ linesFrom false cur s, ∀ c ∈ line, c ≠ cr ∧ c ≠ lf := by
  induction h generalizing cur with
  | nil =>
    intro line hline
    rw [linesFrom] at hline
    split at hline
    · simp at hline
    · rw [List.mem_singleton.mp hline]
      exact hcur
  | @char c s hcr hlf _ ih =>
    rw [linesFrom, if_neg (by simp [hcr])]
    refine ih (fun d hd => ?_)
    rcases List.mem_append.mp hd with hd | hd
    · exact hcur d hd
    · rw [List.mem_singleton.mp hd]
      exact ⟨hcr, hlf⟩
  | line _ ih =>
    intro line hline
    rcases List.mem_cons.mp hline with rfl | hline
    · exact hcur
    · exact ih (by simp) line hline

theorem headersFrom_names {P : Byte → Prop} {lines : List Bytes}
    (hlines : ∀ line ∈ lines, ∀ c ∈ line, P c) {hd : Option RawHeader}
    (hhd : ∀ h ∈ hd, ∀ c ∈ h.name, P c) :
    ∀ h ∈ headersFrom hd lines, ∀ c ∈ h.name, P c := by
  induction lines generalizing hd with
  | nil =>
    intro h hmem
    exact hhd h (by simpa [headersFrom] using hmem)
  | cons line lines ih =>
    have hrest := fun l hl => hlines l (List.mem_cons_of_mem line hl)
    cases line with
    | nil => exact ih hrest hhd
    | cons c line =>
      have hline := hlines _ List.mem_cons_self
      rw [headersFrom]
      split
      · refine ih hrest ?_
        intro h hmem
        obtain ⟨g, hg, rfl⟩ := Option.map_eq_some_iff.mp hmem
        exact hhd g hg
      · intro h hmem
        rcases List.mem_append.mp hmem with hmem | hmem
        · exact hhd h (by simpa using hmem)
        · split at hmem
          · exact ih hrest (by simp) h hmem
          · refine ih hrest ?_ h hmem
            intro g hg d hd
            cases hg
            exact hline d (List.mem_of_mem_take hd)

theorem splitMessage_names (raw : Bytes) :
    ∀ h ∈ (splitMessage raw).1, ∀ c ∈ h.name, c ≠ cr ∧ c ≠ lf :=
  headersFrom_names ((crlfText_normalize raw).head.lines (by simp)) (by simp)

theorem wanted_mem {headers : List RawHeader} (h : name ∈ wanted list headers) :
    IsName name ∧ ∃ hd ∈ headers, key hd.name = name := by
  obtain ⟨hmem, hany⟩ := List.mem_filter.mp h
  simp only [List.any_eq_true, beq_iff_eq] at hany
  exact ⟨isName_of_mem hmem, hany⟩

/-- No name that is signed has a line ending in it. -/
theorem wanted_clean {raw : Bytes} (h : name ∈ wanted list (splitMessage raw).1) :
    ∀ c ∈ name, c ≠ cr ∧ c ≠ lf := by
  obtain ⟨-, hd, hmem, rfl⟩ := wanted_mem h
  intro c hc
  have hname := splitMessage_names raw hd hmem
  constructor
  · rintro rfl
    exact (hname _ (mem_of_mem_key (by decide) (by decide) hc)).1 rfl
  · rintro rfl
    exact (hname _ (mem_of_mem_key (by decide) (by decide) hc)).2 rfl

/-! ## Selection -/

/-- A header that is used already stays out of the selection. -/
theorem lastUnused_used (name : Bytes) (sig : RawHeader) (marked : List (RawHeader × Bool)) :
    lastUnused name ((sig, true) :: marked) =
      (lastUnused name marked).map (fun r => (r.1, (sig, true) :: r.2)) := by
  rw [lastUnused]
  cases lastUnused name marked <;> simp

theorem selectHeaders_used (relaxed : Bool) (names : List Bytes) (sig : RawHeader)
    (marked : List (RawHeader × Bool)) :
    selectHeaders relaxed names ((sig, true) :: marked) = selectHeaders relaxed names marked := by
  induction names generalizing marked with
  | nil => rfl
  | cons name names ih =>
    rw [selectHeaders, selectHeaders, lastUnused_used]
    cases lastUnused name marked with
    | none => exact ih marked
    | some r =>
      simp [ih]

theorem lastUnused_key {marked' : List (RawHeader × Bool)}
    (hlast : lastUnused name marked = some (h, marked')) : key h.name = name := by
  induction marked generalizing marked' with
  | nil => simp [lastUnused] at hlast
  | cons g marked ih =>
    rw [lastUnused] at hlast
    split at hlast
    · next hrest =>
      cases hlast
      exact ih hrest
    · split at hlast
      · next hg =>
        cases hlast
        exact hg.2
      · simp at hlast

/-- A header of the name that is not used yet is found. -/
theorem lastUnused_isSome (hmem : (h, false) ∈ marked) (hkey : key h.name = name) :
    (lastUnused name marked).isSome := by
  induction marked with
  | nil => simp at hmem
  | cons g marked ih =>
    rw [lastUnused]
    split
    · rfl
    · next hnone =>
      rcases List.mem_cons.mp hmem with heq | hmem
      · cases heq
        rw [if_pos ⟨rfl, hkey⟩]
        rfl
      · rw [hnone] at ih
        exact absurd (ih hmem) (by simp)

/-- Taking a header of one name leaves those of another unused. -/
theorem lastUnused_keep {marked' : List (RawHeader × Bool)}
    {g : RawHeader} (hlast : lastUnused name marked = some (h, marked'))
    (hmem : (g, false) ∈ marked) (hkey : key g.name ≠ name) : (g, false) ∈ marked' := by
  induction marked generalizing marked' with
  | nil => simp at hmem
  | cons f marked ih =>
    rw [lastUnused] at hlast
    split at hlast
    · next hrest =>
      cases hlast
      rcases List.mem_cons.mp hmem with heq | hmem
      · rw [heq]
        exact List.mem_cons_self
      · exact List.mem_cons_of_mem _ (ih hrest hmem)
    · split at hlast
      · next hf =>
        cases hlast
        rcases List.mem_cons.mp hmem with heq | hmem
        · cases heq
          exact absurd hf.2 hkey
        · exact List.mem_cons_of_mem _ hmem
      · simp at hlast

/-- A line of the block starts with the name of its header. -/
theorem canonicalizeHeader_relaxed (name value : Bytes) :
    ∃ s, canonicalizeHeader name value true = key name ++ ch ':' :: s := by
  refine ⟨collapse (unfold value) ++ crlf, ?_⟩
  simp [canonicalizeHeader, key]

theorem canonicalSignature_relaxed (name value : Bytes) :
    ∃ s, canonicalSignature name value true = key name ++ ch ':' :: s := by
  refine ⟨collapse (unfold value), ?_⟩
  have hcanon : canonicalizeHeader name value true =
      (key name ++ ch ':' :: collapse (unfold value)) ++ crlf := by
    simp [canonicalizeHeader, key]
  have hlen : ((key name ++ ch ':' :: collapse (unfold value)) ++ crlf).length =
      (key name ++ ch ':' :: collapse (unfold value)).length + 2 := List.length_append
  rw [canonicalSignature, hcanon]
  simp only [hlen]
  rw [if_pos (by omega), Nat.add_sub_cancel, List.take_left]

/-- Two blocks part where one takes a header whose name the other does not ask for. -/
theorem selectHeaders_differ {front back tail : List Bytes} {sig : RawHeader} {end₁ value : Bytes}
    (hfront : name ∉ front) (hmem : (h, false) ∈ marked) (hkey : key h.name = name)
    (hcolon : ch ':' ∉ name) (htail : ∀ n ∈ tail, n ≠ name ∧ ch ':' ∉ n)
    (hsig : key sig.name ≠ name ∧ ch ':' ∉ key sig.name) :
    selectHeaders true (front ++ name :: back) marked ++ end₁ ≠
      selectHeaders true (front ++ tail) ((sig, true) :: marked) ++
        canonicalSignature sig.name value true := by
  induction front generalizing marked with
  | nil =>
    intro heq
    -- the block of the signer goes on with `name`
    have hstart : ∃ s, selectHeaders true (name :: back) marked ++ end₁ = name ++ ch ':' :: s := by
      obtain ⟨r, hr⟩ := Option.isSome_iff_exists.mp (lastUnused_isSome hmem hkey)
      obtain ⟨g, marked'⟩ := r
      obtain ⟨s, hs⟩ := canonicalizeHeader_relaxed g.name g.value
      refine ⟨s ++ selectHeaders true back marked' ++ end₁, ?_⟩
      rw [selectHeaders, hr]
      simp [hs, lastUnused_key hr]
    -- that of the verifier with another name
    have hother : ∃ n s, n ≠ name ∧ ch ':' ∉ n ∧
        selectHeaders true ([] ++ tail) ((sig, true) :: marked) ++
          canonicalSignature sig.name value true = n ++ ch ':' :: s := by
      rw [List.nil_append, selectHeaders_used]
      clear hmem heq hstart hfront
      induction tail generalizing marked with
      | nil =>
        obtain ⟨s, hs⟩ := canonicalSignature_relaxed sig.name value
        exact ⟨key sig.name, s, hsig.1, hsig.2, by rw [selectHeaders, List.nil_append, hs]⟩
      | cons n tail ih =>
        cases hlast : lastUnused n marked with
        | none =>
          rw [selectHeaders, hlast]
          exact ih (fun m hm => htail m (List.mem_cons_of_mem _ hm))
        | some r =>
          obtain ⟨g, marked'⟩ := r
          obtain ⟨s, hs⟩ := canonicalizeHeader_relaxed g.name g.value
          obtain ⟨hn, hc⟩ := htail n List.mem_cons_self
          refine ⟨n, s ++ selectHeaders true tail marked' ++ canonicalSignature sig.name value true,
            hn, hc, ?_⟩
          rw [selectHeaders, hlast]
          simp [hs, lastUnused_key hlast]
    obtain ⟨s, hs⟩ := hstart
    obtain ⟨n, t, hn, hc, ht⟩ := hother
    rw [List.nil_append, hs, ht] at heq
    exact hn (append_cons_inj hcolon hc heq).1.symm
  | cons n front ih =>
    rw [List.mem_cons, not_or] at hfront
    rw [List.cons_append, List.cons_append, selectHeaders, selectHeaders, lastUnused_used]
    cases hlast : lastUnused n marked with
    | none => exact ih hfront.2 hmem
    | some r =>
      have hkeep := lastUnused_keep hlast hmem (by rw [hkey]; exact hfront.1)
      simp only [Option.map_some, List.append_assoc]
      intro heq
      refine ih hfront.2 hkeep ?_
      simpa only [List.append_assoc] using List.append_cancel_left heq

end QuackMail.Dkim
