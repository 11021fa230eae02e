import QuackMail.Bytes

/-! # Public suffixes

`psl.cpp` over any rule list: the rules become one map from a name to the kind of the
rule, the walk over the trailing labels takes the longest hit.  The published algorithm
is said next to it on the rules themselves.
-/

namespace QuackMail.Psl

inductive Kind where
  | normal | wildcard | exception
  deriving DecidableEq

/-- A rule: its text without a leading `*.` or `!`, and what that was. -/
structure Rule where
  key : Bytes
  kind : Kind
  deriving DecidableEq

/-! ## The program -/

def parseRule (line : Bytes) : Rule :=
  if line.head? = some (ch '!') then ⟨lower (line.drop 1), .exception⟩
  else if 2 < line.length ∧ bytes "*." <+: line then ⟨lower (line.drop 2), .wildcard⟩
  else ⟨lower line, .normal⟩

/-- The rules of the chunks, in their order; a chunk is a C string. -/
def rulesOf (chunks : List Bytes) : List Rule :=
  chunks.flatMap fun chunk =>
    ((splitOn (ch '\n') (chunk.takeWhile (· ≠ 0))).filter (fun l => decide (l ≠ []))).map parseRule

abbrev RuleMap := Bytes → Option Kind

/-- The first rule with a key stays, but an exception takes its place. -/
def addRule (m : RuleMap) (r : Rule) : RuleMap :=
  if m r.key = none ∨ r.kind = .exception then Function.update m r.key (some r.kind) else m

/-- `Rules`. -/
def ruleMap (rules : List Rule) : RuleMap := rules.foldl addRule (fun _ => none)

/-- `Join`: there is no dot as long as nothing was put out. -/
def join (labels : List Bytes) : Bytes :=
  labels.foldl (fun out l => (if out = [] then out else out ++ [ch '.']) ++ l) []

/-- The walk of `SuffixLabels` over the trailing sequences, from the last label on; `i`
    counts the labels in front that are left. -/
def suffixFrom (rules : RuleMap) (labels : List Bytes) : Nat → Nat → Nat
  | 0, best => if best = 0 then 1 else best
  | i + 1, best =>
    match rules (join (labels.drop i)) with
    | none => suffixFrom rules labels i best
    | some .exception => labels.length - i - 1
    | some .wildcard =>
      suffixFrom rules labels i (max best (labels.length - i + if 0 < i then 1 else 0))
    | some .normal => suffixFrom rules labels i (max best (labels.length - i))

def suffixLabels (rules : RuleMap) (labels : List Bytes) : Nat :=
  suffixFrom rules labels labels.length 0

/-- The labels of a domain, without a root dot. -/
def domainLabels (domain : Bytes) : List Bytes :=
  splitOn (ch '.') ((lower domain).rdropWhile (fun c => c == ch '.'))

def publicSuffix (rules : List Rule) (domain : Bytes) : Bytes :=
  if (lower domain).rdropWhile (fun c => c == ch '.') = [] then []
  else
    let labels := domainLabels domain
    let n := min (suffixLabels (ruleMap rules) labels) labels.length
    join (labels.drop (labels.length - n))

def registrableDomain (rules : List Rule) (domain : Bytes) : Bytes :=
  if (lower domain).rdropWhile (fun c => c == ch '.') = [] then []
  else
    let labels := domainLabels domain
    let n := min (suffixLabels (ruleMap rules) labels) labels.length
    if labels.length ≤ n then [] else join (labels.drop (labels.length - n - 1))

/-! ## The published algorithm -/

/-- A domain of non-empty labels. -/
structure Name where
  labels : List Bytes
  ne : labels ≠ []
  plain : ∀ l ∈ labels, l ≠ [] ∧ ch '.' ∉ l

def Name.text (d : Name) : Bytes := joinWith (ch '.') d.labels

/-- The labels rules are compared with. -/
def Name.lowered (d : Name) : List Bytes := d.labels.map lower

def Rule.labels (r : Rule) : List Bytes := splitOn (ch '.') r.key

/-- The rule matches the labels; it has `n` labels itself, one of them for the star. -/
def Rule.Matches (r : Rule) (labels : List Bytes) (n : Nat) : Prop :=
  match r.kind with
  | .wildcard => (∃ l, l :: r.labels <:+ labels) ∧ n = r.labels.length + 1
  | _ => r.labels <:+ labels ∧ n = r.labels.length

/-- An exception rule matches. -/
def Excepted (rules : List Rule) (labels : List Bytes) : Prop :=
  ∃ r ∈ rules, r.kind = .exception ∧ r.labels <:+ labels

/-- The suffix of the published algorithm has `n` labels: an exception prevails without
    its leftmost label, otherwise the rule with the most labels, otherwise `*`. -/
def Prevails (rules : List Rule) (labels : List Bytes) (n : Nat) : Prop :=
  (∃ r ∈ rules, r.kind = .exception ∧ r.Matches labels (n + 1)) ∨
    (¬Excepted rules labels ∧
      ((∃ r ∈ rules, r.Matches labels n) ∧ (∀ r ∈ rules, ∀ m, r.Matches labels m → m ≤ n) ∨
        (∀ r ∈ rules, ∀ m, ¬r.Matches labels m) ∧ n = 1))

/-- Suffix and registrable domain are the ones of the published algorithm. -/
def FollowsList (rules : List Rule) (d : Name) : Prop :=
  ∃ n, Prevails rules d.lowered n ∧
    publicSuffix rules d.text = joinWith (ch '.') (d.lowered.drop (d.lowered.length - n)) ∧
    registrableDomain rules d.text =
      if d.lowered.length ≤ n then []
      else joinWith (ch '.') (d.lowered.drop (d.lowered.length - n - 1))

/-- The first rule with the key is of the kind. -/
def FirstKind (rules : List Rule) (key : Bytes) (k : Kind) : Prop :=
  (rules.find? (fun r => r.key == key)).map (·.kind) = some k

/-- A wildcard is lost where another rule with its key comes first. -/
def Kept (rules : List Rule) (r : Rule) : Prop :=
  r.kind = .wildcard → FirstKind rules r.key .wildcard

/-- The name is all of what a wildcard rule stars. -/
def AtStar (rules : List Rule) (labels : List Bytes) : Prop :=
  ∃ r ∈ rules, r.kind = .wildcard ∧ Kept rules r ∧ r.labels = labels

/-- What the map makes of the rules is right for the labels: an exception matches; or the
    labels are what a wildcard stars, and there is only one or a rule matches all of them;
    or every lost wildcard that matches is outdone by a rule that is kept. -/
def ListFits (rules : List Rule) (labels : List Bytes) : Prop :=
  Excepted rules labels ∨
    (AtStar rules labels → labels.length = 1 ∨ ∃ r ∈ rules, r.Matches labels labels.length) ∧
      (¬AtStar rules labels → ∀ r ∈ rules, ¬Kept rules r → ∀ m, r.Matches labels m →
        ∃ r' ∈ rules, Kept rules r' ∧ ∃ m' ≥ m, r'.Matches labels m')

/-! ## The map -/

/-- The kind a key ends up with. -/
def kindOf (rules : List Rule) (key : Bytes) : Option Kind :=
  if ⟨key, .exception⟩ ∈ rules then some .exception
  else (rules.find? (fun r => r.key == key)).map (·.kind)

theorem ruleMap_eq (rules : List Rule) (key : Bytes) : ruleMap rules key = kindOf rules key := by
  induction rules using List.reverseRecOn with
  | nil => rfl
  | append_singleton rules r ih =>
    have hfold : ruleMap (rules ++ [r]) = addRule (ruleMap rules) r := by
      rw [ruleMap, List.foldl_append]
      rfl
    rw [hfold, addRule]
    by_cases hkey : r.key = key
    · subst hkey
      have hnew : kindOf (rules ++ [r]) r.key =
          if ⟨r.key, .exception⟩ ∈ rules ∨ r.kind = .exception then some .exception
          else ((rules.find? (fun x => x.key == r.key)).or (some r)).map (·.kind) := by
        have hmem : (⟨r.key, .exception⟩ : Rule) ∈ rules ++ [r] ↔
            ⟨r.key, .exception⟩ ∈ rules ∨ r.kind = .exception := by
          obtain ⟨k, kind⟩ := r
          simp [eq_comm]
        simp only [kindOf, hmem, List.find?_append, List.find?_singleton, beq_self_eq_true, if_true]
      rw [hnew, ih]
      by_cases hexc : r.kind = .exception
      · rw [if_pos (.inr hexc), if_pos (.inr hexc), Function.update_self, hexc]
      · have hold : kindOf rules r.key = if ⟨r.key, .exception⟩ ∈ rules then some .exception
            else (rules.find? (fun x => x.key == r.key)).map (·.kind) := rfl
        by_cases hmem : (⟨r.key, .exception⟩ : Rule) ∈ rules
        · rw [if_pos hmem] at hold
          rw [if_neg (by simp [hexc, hold]), if_pos (.inl hmem), ih, hold]
        · rw [if_neg hmem] at hold
          cases hfind : rules.find? (fun x => x.key == r.key) with
          | none =>
            rw [hfind] at hold
            rw [if_pos (.inl hold), if_neg (by simp [hexc, hmem]), Function.update_self]
            rfl
          | some x =>
            rw [hfind] at hold
            rw [if_neg (by simp [hexc, hold]), if_neg (by simp [hexc, hmem]), ih, hold]
            rfl
    · have hsame : kindOf (rules ++ [r]) key = kindOf rules key := by
        have hmem : (⟨key, .exception⟩ : Rule) ∈ rules ++ [r] ↔ ⟨key, .exception⟩ ∈ rules := by
          rw [List.mem_append, List.mem_singleton, or_iff_left]
          rintro rfl
          exact hkey rfl
        simp only [kindOf, hmem, List.find?_append, List.find?_singleton]
        simp [hkey]
      rw [hsame]
      split
      · rw [Function.update_of_ne (Ne.symm hkey), ih]
      · exact ih

/-! ## Labels and texts -/

theorem joinWith_splitOn (sep : Byte) (s : Bytes) : joinWith sep (splitOn sep s) = s := by
  induction s with
  | nil => rfl
  | cons c s ih =>
    rw [splitOn]
    obtain ⟨piece, rest, hsplit⟩ := List.exists_cons_of_ne_nil (splitOn_ne_nil sep s)
    rw [hsplit] at ih ⊢
    by_cases hc : c = sep
    · rw [if_pos hc, joinWith, ih, hc, List.nil_append]
      simp
    · rw [if_neg hc]
      cases rest with
      | nil => exact congrArg (c :: ·) ih
      | cons q rest => exact congrArg (c :: ·) ih

/-- Labels that a domain can have: none is empty or has a dot in it. -/
def Plain (labels : List Bytes) : Prop := ∀ l ∈ labels, l ≠ [] ∧ ch '.' ∉ l

theorem join_eq {labels : List Bytes} (h : Plain labels) :
    join labels = joinWith (ch '.') labels := by
  have hfold : ∀ (ls : List Bytes) (out : Bytes), out ≠ [] →
      ls.foldl (fun out l => (if out = [] then out else out ++ [ch '.']) ++ l) out =
        joinWith (ch '.') (out :: ls) := by
    intro ls
    induction ls with
    | nil => exact fun _ _ => rfl
    | cons l ls ih =>
      intro out hne
      rw [List.foldl_cons, if_neg hne, ih _ (by simp)]
      cases ls <;> simp [joinWith]
  cases labels with
  | nil => rfl
  | cons l ls => exact hfold ls l (h l List.mem_cons_self).1

theorem splitOn_join {labels : List Bytes} (h : Plain labels) (hne : labels ≠ []) :
    splitOn (ch '.') (join labels) = labels := by
  rw [join_eq h, splitOn_joinWith hne fun l hl => (h l hl).2]

/-! ## The walk -/

section Walk

variable {rules : List Rule} {labels : List Bytes}

/-- What the walk finds for the labels from `i` on. -/
def hit (rules : List Rule) (labels : List Bytes) (i : Nat) : Option Kind :=
  kindOf rules (join (labels.drop i))

/-- How many labels the hit at `i` makes the suffix. -/
def Candidate (rules : List Rule) (labels : List Bytes) (i n : Nat) : Prop :=
  hit rules labels i = some .normal ∧ n = labels.length - i ∨
    hit rules labels i = some .wildcard ∧ n = labels.length - i + if 0 < i then 1 else 0

/-- Without an exception the walk takes the longest candidate. -/
theorem suffixFrom_spec {k : Nat} (hexc : ∀ i < k, hit rules labels i ≠ some .exception)
    (best : Nat) :
    ∃ m, suffixFrom (ruleMap rules) labels k best = (if m = 0 then 1 else m) ∧ best ≤ m ∧
      (∀ i < k, ∀ n, Candidate rules labels i n → n ≤ m) ∧
      (m = best ∨ ∃ i < k, Candidate rules labels i m) := by
  induction k generalizing best with
  | zero => exact ⟨best, rfl, Nat.le_refl _, by simp, .inl rfl⟩
  | succ k ih =>
    have ih := ih (fun i hi => hexc i (Nat.lt_succ_of_lt hi))
    rw [suffixFrom, ruleMap_eq, ← hit]
    -- the rest of the walk with the candidate at `k` taken in
    have htake : ∀ n, Candidate rules labels k n → (∀ n', Candidate rules labels k n' → n' = n) →
        ∃ m, suffixFrom (ruleMap rules) labels k (max best n) = (if m = 0 then 1 else m) ∧
          best ≤ m ∧ (∀ i < k + 1, ∀ n, Candidate rules labels i n → n ≤ m) ∧
          (m = best ∨ ∃ i < k + 1, Candidate rules labels i m) := by
      intro n hn honly
      obtain ⟨m, hm, hle, hall, hfrom⟩ := ih (max best n)
      refine ⟨m, hm, by omega, fun i hi n' hn' => ?_, ?_⟩
      · rcases Nat.lt_succ_iff_lt_or_eq.mp hi with hlt | rfl
        · exact hall i hlt n' hn'
        · rw [honly n' hn']
          omega
      · rcases hfrom with rfl | ⟨i, hi, hcand⟩
        · rcases Nat.le_total n best with hle' | hle'
          · exact .inl (Nat.max_eq_left hle')
          · rw [Nat.max_eq_right hle']
            exact .inr ⟨k, Nat.lt_succ_self k, hn⟩
        · exact .inr ⟨i, Nat.lt_succ_of_lt hi, hcand⟩
    cases hkind : hit rules labels k with
    | none =>
      obtain ⟨m, hm, hle, hall, hfrom⟩ := ih best
      refine ⟨m, hm, hle, fun i hi n hn => ?_, ?_⟩
      · rcases Nat.lt_succ_iff_lt_or_eq.mp hi with hlt | rfl
        · exact hall i hlt n hn
        · simp [Candidate, hkind] at hn
      · exact hfrom.imp_right fun ⟨i, hi, hcand⟩ => ⟨i, Nat.lt_succ_of_lt hi, hcand⟩
    | some kind =>
      cases kind with
      | exception => exact absurd hkind (hexc k (Nat.lt_succ_self k))
      | wildcard => exact htake _ (.inr ⟨hkind, rfl⟩) (by simp [Candidate, hkind])
      | normal => exact htake _ (.inl ⟨hkind, rfl⟩) (by simp [Candidate, hkind])

/-- An exception ends the walk. -/
theorem suffixFrom_exception {k : Nat} (hexc : ∃ i < k, hit rules labels i = some .exception)
    (best : Nat) : ∃ i < k, hit rules labels i = some .exception ∧
      suffixFrom (ruleMap rules) labels k best = labels.length - i - 1 := by
  induction k generalizing best with
  | zero => simp at hexc
  | succ k ih =>
    rw [suffixFrom, ruleMap_eq, ← hit]
    have hrest : hit rules labels k ≠ some .exception →
        ∃ i < k, hit rules labels i = some .exception := by
      intro hne
      obtain ⟨i, hi, hkind⟩ := hexc
      rcases Nat.lt_succ_iff_lt_or_eq.mp hi with hlt | rfl
      · exact ⟨i, hlt, hkind⟩
      · exact absurd hkind hne
    have hlater : hit rules labels k ≠ some .exception → ∀ best, ∃ i < k + 1,
        hit rules labels i = some .exception ∧
          suffixFrom (ruleMap rules) labels k best = labels.length - i - 1 := by
      intro hne best
      obtain ⟨i, hi, hkind, heq⟩ := ih (hrest hne) best
      exact ⟨i, Nat.lt_succ_of_lt hi, hkind, heq⟩
    cases hkind : hit rules labels k with
    | none => exact hlater (by simp [hkind]) _
    | some kind =>
      cases kind with
      | exception => exact ⟨k, Nat.lt_succ_self k, hkind, rfl⟩
      | wildcard => exact hlater (by simp [hkind]) _
      | normal => exact hlater (by simp [hkind]) _

/-! ## Hits and rules -/

theorem Rule.labels_ne (r : Rule) : r.labels ≠ [] := splitOn_ne_nil _ _

theorem Plain.drop (h : Plain labels) (i : Nat) : Plain (labels.drop i) :=
  fun l hl => h l (List.mem_of_mem_drop hl)

variable {i n : Nat}

theorem Rule.labels_eq_drop (h : Plain labels) (r : Rule) (hi : i < labels.length) :
    r.labels = labels.drop i ↔ r.key = join (labels.drop i) := by
  have hne : labels.drop i ≠ [] := by simpa using hi
  constructor
  · intro heq
    rw [join_eq (h.drop i), ← heq, Rule.labels, joinWith_splitOn]
  · intro heq
    rw [Rule.labels, heq, splitOn_join (h.drop i) hne]

theorem Rule.labels_suffix (r : Rule) :
    r.labels <:+ labels ↔ ∃ i < labels.length, r.labels = labels.drop i := by
  constructor
  · intro hsuf
    have hle := hsuf.length_le
    have hpos := List.length_pos_iff.mpr r.labels_ne
    exact ⟨labels.length - r.labels.length, by omega, List.suffix_iff_eq_drop.mp hsuf⟩
  · rintro ⟨i, -, heq⟩
    rw [heq]
    exact List.drop_suffix i labels

theorem hit_exception (h : Plain labels) (hi : i < labels.length) :
    hit rules labels i = some .exception ↔
      ∃ r ∈ rules, r.kind = .exception ∧ r.labels = labels.drop i := by
  rw [hit, kindOf]
  constructor
  · intro hkind
    by_cases hmem : (⟨join (labels.drop i), .exception⟩ : Rule) ∈ rules
    · exact ⟨_, hmem, rfl, (Rule.labels_eq_drop h _ hi).mpr rfl⟩
    · rw [if_neg hmem, Option.map_eq_some_iff] at hkind
      obtain ⟨r, hr, hexc⟩ := hkind
      have hkey : r.key = join (labels.drop i) := by simpa using List.find?_some hr
      exact ⟨r, List.mem_of_find?_eq_some hr, hexc, (r.labels_eq_drop h hi).mpr hkey⟩
  · rintro ⟨⟨key, kind⟩, hmem, hexc, heq⟩
    have hkey := (Rule.labels_eq_drop h _ hi).mp heq
    rw [if_pos (by rw [← hkey, ← hexc]; exact hmem)]

/-- Where no exception matches a key has the kind of its first rule. -/
theorem hit_eq_some (h : Plain labels) (hexc : ¬Excepted rules labels)
    (hi : i < labels.length) (k : Kind) :
    hit rules labels i = some k ↔ FirstKind rules (join (labels.drop i)) k := by
  have hmem : (⟨join (labels.drop i), .exception⟩ : Rule) ∉ rules := by
    intro hmem
    refine hexc ⟨_, hmem, rfl, (Rule.labels_suffix _).mpr ⟨i, hi, ?_⟩⟩
    exact (Rule.labels_eq_drop h _ hi).mpr rfl
  rw [hit, kindOf, if_neg hmem, FirstKind]

theorem FirstKind.exists_rule {key : Bytes} {k : Kind} (h : FirstKind rules key k) :
    ∃ r ∈ rules, r.key = key ∧ r.kind = k := by
  obtain ⟨r, hr, hk⟩ := Option.map_eq_some_iff.mp h
  exact ⟨r, List.mem_of_find?_eq_some hr, by simpa using List.find?_some hr, hk⟩

theorem exists_firstKind {r : Rule} (hr : r ∈ rules) : ∃ k, FirstKind rules r.key k := by
  simp only [FirstKind]
  cases hfind : rules.find? (fun x => x.key == r.key) with
  | none => exact absurd (List.find?_eq_none.mp hfind r hr) (by simp)
  | some x => exact ⟨_, rfl⟩

/-- A label stands left of what a wildcard rule stars. -/
theorem exists_cons_suffix {ls : List Bytes} (hi : i < labels.length)
    (heq : ls = labels.drop i) : (∃ l, l :: ls <:+ labels) ↔ 0 < i := by
  subst heq
  constructor
  · rintro ⟨l, hsuf⟩
    have := hsuf.length_le
    simp only [List.length_cons, List.length_drop] at this
    omega
  · intro hpos
    refine ⟨labels.get ⟨i - 1, by omega⟩, ?_⟩
    have hcons := List.drop_eq_getElem_cons (show i - 1 < labels.length by omega)
    rw [show i - 1 + 1 = i by omega] at hcons
    rw [List.get_eq_getElem, ← hcons]
    exact List.drop_suffix _ _

/-- A rule that is kept matches with `n` labels. -/
def KeptMatch (rules : List Rule) (labels : List Bytes) (n : Nat) : Prop :=
  ∃ r ∈ rules, Kept rules r ∧ r.Matches labels n

theorem keptMatch_of_candidate (h : Plain labels) (hexc : ¬Excepted rules labels)
    (hi : i < labels.length) (hcand : Candidate rules labels i n) :
    KeptMatch rules labels n ∨ (AtStar rules labels ∧ n = labels.length) := by
  rcases hcand with ⟨hkind, rfl⟩ | ⟨hkind, rfl⟩
  · obtain ⟨r, hr, hkey, hk⟩ := ((hit_eq_some h hexc hi _).mp hkind).exists_rule
    have heq := (r.labels_eq_drop h hi).mpr hkey
    refine .inl ⟨r, hr, fun hw => absurd (hk.symm.trans hw) (by decide), ?_⟩
    rw [Rule.Matches, hk]
    exact ⟨r.labels_suffix.mpr ⟨i, hi, heq⟩, by rw [heq, List.length_drop]⟩
  · have hfirst := (hit_eq_some h hexc hi _).mp hkind
    obtain ⟨r, hr, hkey, hk⟩ := hfirst.exists_rule
    have heq := (r.labels_eq_drop h hi).mpr hkey
    have hkept : Kept rules r := fun _ => by rwa [hkey]
    by_cases hpos : 0 < i
    · refine .inl ⟨r, hr, hkept, ?_⟩
      rw [Rule.Matches, hk, if_pos hpos, heq]
      exact ⟨(exists_cons_suffix hi rfl).mpr hpos, by rw [List.length_drop]⟩
    · obtain rfl : i = 0 := by omega
      exact .inr ⟨⟨r, hr, hk, hkept, heq⟩, by simp⟩

theorem candidate_of_keptMatch (h : Plain labels) (hexc : ¬Excepted rules labels)
    (hmatch : KeptMatch rules labels n) :
    ∃ i < labels.length, ∃ n' ≥ n, Candidate rules labels i n' := by
  obtain ⟨r, hr, hkept, hmatch⟩ := hmatch
  have hsuf : r.labels <:+ labels := by
    rw [Rule.Matches] at hmatch
    split at hmatch
    · obtain ⟨⟨l, hl⟩, -⟩ := hmatch
      exact (List.suffix_cons l r.labels).trans hl
    · exact hmatch.1
  obtain ⟨i, hi, heq⟩ := r.labels_suffix.mp hsuf
  have hkey := (r.labels_eq_drop h hi).mp heq
  obtain ⟨k, hfirst⟩ := exists_firstKind hr
  have hhit := (hit_eq_some h hexc hi k).mpr (hkey ▸ hfirst)
  have hlen : r.labels.length = labels.length - i := by rw [heq, List.length_drop]
  refine ⟨i, hi, ?_⟩
  rw [Rule.Matches] at hmatch
  split at hmatch
  · next hw =>
    have hwild := hfirst
    rw [FirstKind, hkept hw, Option.some.injEq] at hwild
    subst hwild
    have hpos := (exists_cons_suffix hi heq).mp hmatch.1
    exact ⟨_, by rw [hmatch.2, hlen, if_pos hpos], .inr ⟨hhit, rfl⟩⟩
  · cases k with
    | normal => exact ⟨_, by omega, .inl ⟨hhit, rfl⟩⟩
    | wildcard => exact ⟨_, by omega, .inr ⟨hhit, rfl⟩⟩
    | exception =>
      obtain ⟨r', hr', hkey', hk'⟩ := hfirst.exists_rule
      exact absurd ⟨r', hr', hk', by rwa [Rule.labels, hkey']⟩ hexc

/-! ## The suffix -/

theorem Rule.Matches.bounds {r : Rule} (h : r.Matches labels n) : 1 ≤ n ∧ n ≤ labels.length := by
  have hpos := List.length_pos_iff.mpr r.labels_ne
  rw [Rule.Matches] at h
  split at h
  · obtain ⟨⟨l, hl⟩, rfl⟩ := h
    have := hl.length_le
    simp only [List.length_cons] at this
    omega
  · have := h.1.length_le
    omega

theorem Candidate.le (hi : i < labels.length) (h : Candidate rules labels i n) :
    n ≤ labels.length := by
  rcases h with ⟨-, rfl⟩ | ⟨-, rfl⟩
  · omega
  · split <;> omega

theorem suffixLabels_le (hne : labels ≠ []) :
    suffixLabels (ruleMap rules) labels ≤ labels.length := by
  have hpos := List.length_pos_iff.mpr hne
  by_cases hexc : ∃ i < labels.length, hit rules labels i = some .exception
  · obtain ⟨i, -, -, hwalk⟩ := suffixFrom_exception hexc 0
    rw [suffixLabels, hwalk]
    omega
  · obtain ⟨m, hm, -, -, hfrom⟩ :=
      @suffixFrom_spec rules labels labels.length (fun i hi hhit => hexc ⟨i, hi, hhit⟩) 0
    rw [suffixLabels, hm]
    rcases hfrom with rfl | ⟨i, hi, hcand⟩
    · exact hpos
    · have := hcand.le hi
      split <;> omega

/-- The walk gives the published suffix exactly where the map fits the labels. -/
theorem prevails_suffixLabels_iff (h : Plain labels) (hne : labels ≠ []) :
    Prevails rules labels (suffixLabels (ruleMap rules) labels) ↔ ListFits rules labels := by
  by_cases hexc : Excepted rules labels
  · refine iff_of_true (.inl ?_) (.inl hexc)
    obtain ⟨r, hr, hk, hsuf⟩ := hexc
    obtain ⟨i, hi, heq⟩ := r.labels_suffix.mp hsuf
    obtain ⟨j, hj, hhit, hwalk⟩ := suffixFrom_exception
      ⟨i, hi, (hit_exception h hi).mpr ⟨r, hr, hk, heq⟩⟩ 0
    obtain ⟨r', hr', hk', heq'⟩ := (hit_exception h hj).mp hhit
    refine ⟨r', hr', hk', ?_⟩
    rw [suffixLabels, hwalk, Rule.Matches, hk']
    exact ⟨r'.labels_suffix.mpr ⟨j, hj, heq'⟩, by rw [heq', List.length_drop]; omega⟩
  · obtain ⟨m, hm, -, hall, hfrom⟩ := @suffixFrom_spec rules labels labels.length
      (fun i hi hhit => by
        obtain ⟨r, hr, hk, heq⟩ := (hit_exception h hi).mp hhit
        exact hexc ⟨r, hr, hk, r.labels_suffix.mpr ⟨i, hi, heq⟩⟩) 0
    rw [suffixLabels, hm, Prevails, ListFits, or_iff_right (fun ⟨r, hr, hk, hmatch⟩ =>
      hexc ⟨r, hr, hk, by rw [Rule.Matches, hk] at hmatch; exact hmatch.1⟩), or_iff_right hexc,
      and_iff_right hexc]
    have hpos := List.length_pos_iff.mpr hne
    by_cases hstar : AtStar rules labels
    · -- the star makes the whole name the suffix
      have hmlen : m = labels.length := by
        obtain ⟨r, hr, hk, hkept, heq⟩ := id hstar
        have hkey := (r.labels_eq_drop h hpos).mp (by rw [heq, List.drop_zero])
        have hhit := (hit_eq_some h hexc hpos .wildcard).mpr (hkey ▸ hkept hk)
        have := hall 0 hpos _ (.inr ⟨hhit, rfl⟩)
        rcases hfrom with rfl | ⟨i, hi, hcand⟩
        · omega
        · have := hcand.le hi
          omega
      simp only [hmlen, if_neg (Nat.pos_iff_ne_zero.mp hpos), hstar, forall_const,
        not_true_eq_false, IsEmpty.forall_iff, and_true]
      constructor
      · rintro (⟨hmatch, -⟩ | ⟨-, hone⟩)
        · exact .inr hmatch
        · exact .inl hone
      · rintro (hone | hmatch)
        · by_cases hsome : ∃ r ∈ rules, ∃ n, r.Matches labels n
          · obtain ⟨r, hr, n, hn⟩ := hsome
            have hbound := hn.bounds
            obtain rfl : n = labels.length := by omega
            exact .inl ⟨⟨r, hr, hn⟩, fun r' _ n' hn' => hn'.bounds.2⟩
          · exact .inr ⟨fun r hr n hn => hsome ⟨r, hr, n, hn⟩, hone⟩
        · exact .inl ⟨hmatch, fun r' _ n' hn' => hn'.bounds.2⟩
    · simp only [hstar, IsEmpty.forall_iff, not_false_eq_true, forall_const, true_and]
      -- the walk's suffix is the longest of the rules that are kept
      have hkept : m = 0 ∨ KeptMatch rules labels m := by
        refine hfrom.imp_right fun ⟨i, hi, hcand⟩ => ?_
        exact (keptMatch_of_candidate h hexc hi hcand).resolve_right fun hend => hstar hend.1
      have hmax : ∀ n, KeptMatch rules labels n → n ≤ m := by
        intro n hn
        obtain ⟨i, hi, n', hle, hcand⟩ := candidate_of_keptMatch h hexc hn
        exact Nat.le_trans hle (hall i hi n' hcand)
      constructor
      · intro hprevails r hr hlost n hn
        have hwild : r.kind = .wildcard := by
          by_contra hk
          exact hlost fun hw => absurd hw hk
        have htwo : 2 ≤ n := by
          have := List.length_pos_iff.mpr r.labels_ne
          rw [Rule.Matches, hwild] at hn
          omega
        rcases hprevails with ⟨-, hle⟩ | ⟨hnone, -⟩
        · have hnm := hle r hr n hn
          rcases hkept with rfl | ⟨r', hr', hk', hm'⟩
          · simp at hnm
            omega
          · have := hm'.bounds
            rw [if_neg (by omega)] at hnm
            exact ⟨r', hr', hk', m, hnm, hm'⟩
        · exact absurd hn (hnone r hr n)
      · intro hfits
        have hany : ∀ r ∈ rules, ∀ n, r.Matches labels n → ∃ n' ≥ n, KeptMatch rules labels n' := by
          intro r hr n hn
          by_cases hk : Kept rules r
          · exact ⟨n, Nat.le_refl _, r, hr, hk, hn⟩
          · obtain ⟨r', hr', hk', n', hle, hn'⟩ := hfits r hr hk n hn
            exact ⟨n', hle, r', hr', hk', hn'⟩
        rcases hkept with rfl | ⟨r, hr, hk, hmatch⟩
        · refine .inr ⟨fun r hr n hn => ?_, rfl⟩
          obtain ⟨n', -, hn'⟩ := hany r hr n hn
          obtain ⟨r', -, -, hmatch'⟩ := id hn'
          have := hmax n' hn'
          have := hmatch'.bounds
          omega
        · have := hmatch.bounds
          rw [if_neg (by omega)]
          refine .inl ⟨⟨r, hr, hmatch⟩, fun r' hr' n hn => ?_⟩
          obtain ⟨n', hle, hn'⟩ := hany r' hr' n hn
          exact Nat.le_trans hle (hmax n' hn')

end Walk

/-! ## Domains -/

theorem lower_joinWith (labels : List Bytes) :
    lower (joinWith (ch '.') labels) = joinWith (ch '.') (labels.map lower) := by
  induction labels with
  | nil => rfl
  | cons l ls ih =>
    cases ls with
    | nil => rfl
    | cons l' ls =>
      have hcut : joinWith (ch '.') (l :: l' :: ls) = l ++ ch '.' :: joinWith (ch '.') (l' :: ls) :=
        rfl
      rw [hcut, lower_append]
      exact congrArg (fun t => lower l ++ ch '.' :: t) ih

namespace Name

variable (d : Name)

theorem plain_lowered : Plain d.lowered := by
  intro l hl
  obtain ⟨l₀, hl₀, rfl⟩ := List.mem_map.mp hl
  obtain ⟨hne, hdot⟩ := d.plain l₀ hl₀
  refine ⟨by simpa [lower] using hne, fun hmem => ?_⟩
  obtain ⟨c, hc, heq⟩ := List.mem_map.mp hmem
  have hlow : ∀ c : Byte, toLower c = ch '.' → c = ch '.' := forall_byte (by decide +kernel)
  exact hdot (hlow c heq ▸ hc)

theorem lowered_ne : d.lowered ≠ [] := by simpa [lowered] using d.ne

theorem getLast_joinWith {labels : List Bytes} (h : Plain labels) (hne : labels ≠ []) :
    ∃ c, (joinWith (ch '.') labels).getLast? = some c ∧ c ≠ ch '.' := by
  obtain ⟨front, l, rfl⟩ := (List.eq_nil_or_concat labels).resolve_left hne
  rw [List.concat_eq_append] at h ⊢
  obtain ⟨hl, hdot⟩ := h l (by simp)
  obtain ⟨x, c, rfl⟩ := (List.eq_nil_or_concat l).resolve_left hl
  rw [List.concat_eq_append] at hdot ⊢
  refine ⟨c, ?_, fun hc => hdot (by simp [hc])⟩
  induction front with
  | nil => simp [joinWith]
  | cons f front ih =>
    have hrest := ih (fun l hl => h l (List.mem_cons_of_mem _ hl)) (by simp)
    obtain ⟨l', ls, hls⟩ := List.exists_cons_of_ne_nil (show front ++ [x ++ [c]] ≠ [] by simp)
    rw [hls] at hrest
    rw [List.cons_append, hls, joinWith, List.getLast?_append, List.getLast?_cons, hrest]
    · rfl
    · simp

/-- The labels the program works on. -/
theorem domainLabels_text : (lower d.text).rdropWhile (fun c => c == ch '.') ≠ [] ∧
    domainLabels d.text = d.lowered := by
  obtain ⟨c, hlast, hc⟩ := getLast_joinWith d.plain_lowered d.lowered_ne
  have hlower : lower d.text = joinWith (ch '.') d.lowered := lower_joinWith d.labels
  have hstrip : (lower d.text).rdropWhile (fun c => c == ch '.') = joinWith (ch '.') d.lowered := by
    rw [hlower, List.rdropWhile_eq_self_iff]
    intro hne
    rw [List.getLast?_eq_getLast_of_ne_nil hne, Option.some.injEq] at hlast
    simp [hlast, hc]
  refine ⟨?_, ?_⟩
  · rw [hstrip]
    rintro hnil
    simp [hnil] at hlast
  · rw [domainLabels, hstrip, splitOn_joinWith d.lowered_ne fun l hl => (d.plain_lowered l hl).2]

end Name

/-- A text names its labels. -/
theorem joinWith_inj {xs ys : List Bytes} (hx : Plain xs) (hy : Plain ys)
    (h : joinWith (ch '.') xs = joinWith (ch '.') ys) : xs = ys := by
  have hnil : ∀ {zs : List Bytes}, Plain zs → joinWith (ch '.') zs = [] → zs = [] := by
    intro zs hz hempty
    by_contra hne
    obtain ⟨c, hc, -⟩ := Name.getLast_joinWith hz hne
    simp [hempty] at hc
  by_cases hxnil : xs = []
  · subst hxnil
    exact (hnil hy h.symm).symm
  · by_cases hynil : ys = []
    · subst hynil
      exact hnil hx h
    · rw [← splitOn_joinWith hxnil fun l hl => (hx l hl).2, h,
        splitOn_joinWith hynil fun l hl => (hy l hl).2]

theorem Prevails.le {rules : List Rule} {labels : List Bytes} {n : Nat} (hne : labels ≠ [])
    (h : Prevails rules labels n) : n ≤ labels.length := by
  have := List.length_pos_iff.mpr hne
  rcases h with ⟨r, -, -, hmatch⟩ | ⟨-, ⟨⟨r, -, hmatch⟩, -⟩ | ⟨-, rfl⟩⟩
  · have := hmatch.bounds
    omega
  · exact hmatch.bounds.2
  · omega

/-- The suffix that is put out is the published one exactly where the map fits the name. -/
theorem followsList_iff (chunks : List Bytes) (d : Name) :
    FollowsList (rulesOf chunks) d ↔ ListFits (rulesOf chunks) d.lowered := by
  obtain ⟨hstrip, hlabels⟩ := d.domainLabels_text
  have hplain := d.plain_lowered
  have hbound := @suffixLabels_le (rulesOf chunks) d.lowered d.lowered_ne
  rw [← prevails_suffixLabels_iff hplain d.lowered_ne]
  obtain ⟨k, hk⟩ : ∃ k, k = suffixLabels (ruleMap (rulesOf chunks)) d.lowered := ⟨_, rfl⟩
  rw [FollowsList, publicSuffix, registrableDomain, if_neg hstrip, if_neg hstrip, hlabels]
  rw [← hk] at hbound
  simp only [← hk, Nat.min_eq_left hbound, join_eq (hplain.drop _)]
  constructor
  · rintro ⟨n, hprevails, htext, -⟩
    have hdrop := congrArg List.length (joinWith_inj (hplain.drop _) (hplain.drop _) htext)
    have hle := hprevails.le d.lowered_ne
    simp only [List.length_drop] at hdrop
    rwa [show k = n by omega]
  · exact fun hprevails => ⟨k, hprevails, rfl, rfl⟩

/-- `*.b.c` stars no label of `b.c` itself, and still makes it a suffix. -/
theorem not_followsList_at_star :
    publicSuffix (rulesOf [bytes "*.b.c"]) (bytes "b.c") = bytes "b.c" ∧
      registrableDomain (rulesOf [bytes "*.b.c"]) (bytes "b.c") = [] ∧
      ¬FollowsList (rulesOf [bytes "*.b.c"])
        ⟨[bytes "b", bytes "c"], by decide, by decide⟩ := by
  refine ⟨by decide +kernel, by decide +kernel, fun h => ?_⟩
  rw [followsList_iff] at h
  have hrules : rulesOf [bytes "*.b.c"] = [⟨bytes "b.c", .wildcard⟩] := by decide +kernel
  rw [hrules] at h
  rcases h with ⟨r, hr, hk, -⟩ | ⟨hstar, -⟩
  · rw [List.mem_singleton.mp hr] at hk
    simp at hk
  · rcases hstar ⟨_, List.mem_singleton_self _, rfl, fun _ => rfl, by decide +kernel⟩ with
      hone | ⟨r, hr, hmatch⟩
    · exact absurd hone (by decide)
    · rw [List.mem_singleton.mp hr, Rule.Matches] at hmatch
      exact absurd hmatch.2 (by decide +kernel)

end QuackMail.Psl
