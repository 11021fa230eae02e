import QuackMail.Spf.Evaluate

/-! # The budget of a check

`Within k l r l'` is what an evaluation from limits `l` to `l'` with the result `r`
may have done: the terms charged stay within ten, at most eleven queries were issued
for each of them and `k` more, and a budget that was exceeded shows in the result.
The `ptr` branch does not test the void budget, so the last point is conditional on
`PtrWithin`: what was charged before a `ptr` term and the void ones of the names it looks up
do not spend it.
-/

namespace QuackMail.Spf

def Limits.terms (l : Limits) : Nat := l.log.count .term

def Limits.refused (l : Limits) : Nat := l.log.count .refused

def Limits.voids (l : Limits) : Nat := l.log.count .void

/-- The counters of the source are those of the log. -/
structure Consistent (l : Limits) : Prop where
  lookups : l.lookups = l.terms + l.refused
  voidLookups : l.voidLookups = l.voids
  exceeded : l.exceeded = true ↔ 2 < l.voids ∨ 0 < l.refused

/-- Whenever a `ptr` term comes to its names, the lookups charged as void so far and the void
    ones of its names are two at most. -/
def PtrWithin (l : Limits) : Prop := ∀ v n, .ptr v n ∈ l.log → v + n ≤ 2

/-- The results that reject a check. -/
def Closed (r : Result) : Prop := r = .permError ∨ r = .tempError

/-- Limits with which a term may start. -/
structure Ready (l : Limits) : Prop where
  consistent : Consistent l
  refused : l.refused = 0
  terms : l.terms ≤ 10

structure Within (k : Nat) (l : Limits) (r : Option Result) (l' : Limits) : Prop where
  consistent : Consistent l'
  logged : ∀ e ∈ l.log, e ∈ l'.log
  charged : l.terms ≤ l'.terms
  terms : l'.terms ≤ 10
  queries : l'.queries + 11 * l.terms ≤ l.queries + 11 * l'.terms + k
  refused : l'.refused = 0 ∨ ∃ x, r = some x ∧ Closed x
  voids : PtrWithin l' → l.voids ≤ 2 → l'.voids ≤ 2 ∨ ∃ x, r = some x ∧ Closed x

variable {l l₁ l₂ : Limits} {r : Option Result}

theorem Within.ready {k : Nat} {l' : Limits} (h : Within k l none l') : Ready l' where
  consistent := h.consistent
  refused := by
    rcases h.refused with h | ⟨x, hx, _⟩
    · exact h
    · cases hx
  terms := h.terms

/-- What was done up to `l₁` and what was done from there on. -/
theorem Within.trans {k k' : Nat} (h : Within k l none l₁)
    (h' : Within k' l₁ r l₂) : Within (k + k') l r l₂ where
  consistent := h'.consistent
  logged := fun e he => h'.logged e (h.logged e he)
  charged := Nat.le_trans h.charged h'.charged
  terms := h'.terms
  queries := by
    have h₁ := h.queries
    have h₂ := h'.queries
    omega
  refused := h'.refused
  voids := by
    intro hptr hl
    rcases h.voids (fun v n hv => hptr v n (h'.logged _ hv)) hl with hv | ⟨x, hx, _⟩
    · exact h'.voids hptr hv
    · cases hx

theorem Within.mono {k k' : Nat} {l' : Limits} (h : Within k l r l')
    (hk : k ≤ k') : Within k' l r l' where
  consistent := h.consistent
  logged := h.logged
  charged := h.charged
  terms := h.terms
  queries := by
    have := h.queries
    omega
  refused := h.refused
  voids := h.voids

theorem Within.refl (h : Ready l) (r : Option Result) : Within 0 l r l where
  consistent := h.consistent
  logged := fun _ he => he
  charged := Nat.le_refl _
  terms := h.terms
  queries := Nat.le_refl _
  refused := .inl h.refused
  voids := fun _ hl => .inl hl

/-! ## Lookups -/

/-- `n` queries may have been issued and lookups charged as void, nothing else. -/
structure Looked (n : Nat) (l l' : Limits) : Prop where
  consistent : Consistent l → Consistent l'
  events : ∀ e, e = .term ∨ e = .refused → l'.log.count e = l.log.count e
  logged : ∀ e ∈ l.log, e ∈ l'.log
  queries : l'.queries ≤ l.queries + n

theorem Looked.refl (l : Limits) : Looked 0 l l := ⟨id, fun _ _ => rfl, fun _ => id, Nat.le_refl _⟩

theorem Looked.trans {n m : Nat} (h : Looked n l l₁) (h' : Looked m l₁ l₂) :
    Looked (n + m) l l₂ where
  consistent := h'.consistent ∘ h.consistent
  events := fun e he => (h'.events e he).trans (h.events e he)
  logged := fun e he => h'.logged e (h.logged e he)
  queries := by
    have h₁ := h.queries
    have h₂ := h'.queries
    omega

theorem looked_asked (l : Limits) : Looked 1 l (asked l) where
  consistent := by
    rintro ⟨h₁, h₂, h₃⟩
    refine ⟨?_, ?_, ?_⟩
    · simpa [asked, Limits.terms, Limits.refused] using h₁
    · simpa [asked, Limits.voids] using h₂
    · simpa [asked, Limits.voids, Limits.refused] using h₃
  events := by
    rintro e (rfl | rfl)
    · simp [asked]
    · simp [asked]
  logged := fun _ he => List.mem_cons_of_mem _ he
  queries := by simp [asked, Limits.queries]

theorem looked_chargeVoid (l : Limits) : Looked 0 l (chargeVoid l) where
  consistent := by
    rintro ⟨h₁, h₂, h₃⟩
    refine ⟨?_, ?_, ?_⟩
    · simpa [chargeVoid, Limits.terms, Limits.refused] using h₁
    · simpa [chargeVoid, Limits.voids] using h₂
    · simp only [chargeVoid, Bool.or_eq_true, decide_eq_true_eq, h₃, h₂, maxVoidLookups,
        Limits.voids, Limits.refused, List.count_cons_self]
      rw [List.count_cons_of_ne (by decide)]
      omega
  events := by
    rintro e (rfl | rfl)
    · simp [chargeVoid]
    · simp [chargeVoid]
  logged := fun _ he => List.mem_cons_of_mem _ he
  queries := by
    simp [chargeVoid, Limits.queries]

theorem looked_ptrBegun (n : Nat) (l : Limits) : Looked 0 l (ptrBegun n l) where
  consistent := by
    rintro ⟨h₁, h₂, h₃⟩
    refine ⟨?_, ?_, ?_⟩
    · simpa [ptrBegun, Limits.terms, Limits.refused] using h₁
    · simpa [ptrBegun, Limits.voids] using h₂
    · simpa [ptrBegun, Limits.voids, Limits.refused] using h₃
  events := by
    rintro e (rfl | rfl)
    · simp [ptrBegun]
    · simp [ptrBegun]
  logged := fun _ he => List.mem_cons_of_mem _ he
  queries := by simp [ptrBegun, Limits.queries]

variable (d : Resolver) (ctx : MacroCtx)

theorem looked_matchHost (name : Bytes) (cidr : Int) (l : Limits) :
    Looked 1 l (matchHost d ctx name cidr l).limits := by
  unfold matchHost
  split
  · exact looked_asked l
  · exact looked_asked l
  · exact (looked_asked l).trans (looked_chargeVoid _)

theorem looked_matchHosts (cidr : Int) : ∀ (hosts : List Bytes) (temp : Bool) (l : Limits),
      Looked hosts.length l (matchHosts d ctx cidr hosts temp l).limits := by
  intro hosts
  induction hosts with
  | nil => intro temp l; exact .refl l
  | cons host hosts ih =>
    intro temp l
    have hone := looked_matchHost d ctx host cidr l
    rw [List.length_cons, Nat.add_comm]
    simp only [matchHosts]
    split
    · exact hone.trans ⟨id, fun _ _ => rfl, fun _ => id, Nat.le_add_right _ _⟩
    · exact hone.trans (ih _ _)

theorem looked_matchPtrNames (target : Bytes) : ∀ (names : List Bytes) (l : Limits),
      Looked names.length l (matchPtrNames d ctx target names l).1 := by
  intro names
  induction names with
  | nil => intro l; exact .refl l
  | cons name names ih =>
    intro l
    have hone := looked_matchHost d ctx (stripDot name) (-1) l
    rw [List.length_cons, Nat.add_comm]
    simp only [matchPtrNames]
    split
    · exact hone.trans ⟨id, fun _ _ => rfl, fun _ => id, Nat.le_add_right _ _⟩
    · exact hone.trans (ih _)

/-! ## Charging a term -/

/-- A term is charged: the limits after it have eleven queries to spend. -/
structure Charged (l l' : Limits) : Prop where
  consistent : Consistent l'
  logged : ∀ e ∈ l.log, e ∈ l'.log
  terms : l'.terms = l.terms + 1
  bound : l'.terms ≤ 10
  refused : l'.refused = 0
  voids : l'.voids = l.voids
  queries : l'.queries = l.queries

theorem charge_spec (h : Ready l) : (∃ l', charge l = (l', true) ∧ Charged l l') ∨
      ∃ l', charge l = (l', false) ∧ Within 0 l (some .permError) l' := by
  obtain ⟨⟨h₁, h₂, h₃⟩, hr, ht⟩ := h
  unfold charge
  by_cases hover : l.lookups + 1 > maxLookups
  · right
    rw [if_pos hover]
    refine ⟨_, rfl, ?_, fun _ he => List.mem_cons_of_mem _ he, ?_, ?_, ?_, ?_, ?_⟩
    · refine ⟨?_, ?_, ?_⟩
      · simp only [Limits.terms, Limits.refused] at h₁ ⊢
        rw [List.count_cons_self, List.count_cons_of_ne (by decide)]
        omega
      · simpa [Limits.voids] using h₂
      · simp [Limits.refused]
    · simp [Limits.terms]
    · simpa [Limits.terms] using ht
    · simp [Limits.queries, Limits.terms]
    · exact .inr ⟨_, rfl, .inl rfl⟩
    · exact fun _ _ => .inr ⟨_, rfl, .inl rfl⟩
  · left
    rw [if_neg hover]
    simp only [maxLookups] at hover
    refine ⟨_, rfl, ?_, fun _ he => List.mem_cons_of_mem _ he, ?_, ?_, ?_, ?_, ?_⟩
    · refine ⟨?_, ?_, ?_⟩
      · simp only [Limits.terms, Limits.refused] at h₁ ⊢
        rw [List.count_cons_self, List.count_cons_of_ne (by decide)]
        omega
      · simpa [Limits.voids] using h₂
      · simpa [Limits.voids, Limits.refused] using h₃
    · simp [Limits.terms]
    · simp only [Limits.terms, Limits.refused] at *
      rw [List.count_cons_self]
      omega
    · simpa [Limits.refused] using hr
    · simp [Limits.voids]
    · simp [Limits.queries]

/-- A charged term that looked up at most eleven times, with the void budget tested. -/
theorem Charged.within (h : Charged l l₁) {n : Nat} (hn : n ≤ 11) (hl : Looked n l₁ l₂)
    (hvoid : PtrWithin l₂ → l.voids ≤ 2 → l₂.voids ≤ 2 ∨ ∃ x, r = some x ∧ Closed x) :
    Within 0 l r l₂ where
  consistent := hl.consistent h.consistent
  logged := fun e he => hl.logged e (h.logged e he)
  charged := by
    have := hl.events .term (.inl rfl)
    have := h.terms
    simp only [Limits.terms] at *
    omega
  terms := by
    have := hl.events .term (.inl rfl)
    have := h.bound
    simp only [Limits.terms] at *
    omega
  queries := by
    have h₁ := hl.events .term (.inl rfl)
    have h₂ := h.terms
    have h₃ := hl.queries
    have h₄ := h.queries
    simp only [Limits.terms] at *
    omega
  refused := by
    have := hl.events .refused (.inr rfl)
    have := h.refused
    simp only [Limits.refused] at *
    omega
  voids := hvoid

theorem Charged.ready (h : Charged l l₁) : Ready l₁ :=
  ⟨h.consistent, h.refused, h.bound⟩

/-- A charged term that evaluated another record. -/
theorem Charged.sub (h : Charged l l₁) {x : Result} (hsub : Within 1 l₁ (some x) l₂)
    (hr : Closed x → ∃ y, r = some y ∧ Closed y) : Within 0 l r l₂ where
  consistent := hsub.consistent
  logged := fun e he => hsub.logged e (h.logged e he)
  charged := by
    have h₁ := h.terms
    have h₂ := hsub.charged
    omega
  terms := hsub.terms
  queries := by
    have h₁ := h.terms
    have h₂ := h.queries
    have h₃ := hsub.queries
    omega
  refused := by
    rcases hsub.refused with h₀ | ⟨y, hy, hc⟩
    · exact .inl h₀
    · cases hy
      exact .inr (hr hc)
  voids := by
    intro hptr hl
    rcases hsub.voids hptr (h.voids ▸ hl) with h₀ | ⟨y, hy, hc⟩
    · exact .inl h₀
    · cases hy
      exact .inr (hr hc)

/-! ## The mechanisms -/

/-- What a term may do. -/
def StepWithin (l : Limits) : Step → Prop
  | .stop r _ l' => Within 0 l (some r) l'
  | .next l' => Within 0 l none l'

/-- Consistent limits that are not exceeded have a void budget left. -/
theorem voids_of_not_exceeded (h : Consistent l) (he : ¬l.exceeded = true) : l.voids ≤ 2 := by
  rw [h.exceeded] at he
  omega

theorem voids_asked (l : Limits) : (asked l).voids = l.voids := by
  simp [asked, Limits.voids]

section Mechanisms

variable {d : Resolver} {sub : Bytes → MacroCtx → Limits → Outcome} {domain raw : Bytes}
  {ctx : MacroCtx} {t : Term} {l : Limits}

theorem evalIp_within (h : Ready l) : StepWithin l (evalIp domain ctx raw t l) := by
  unfold evalIp
  rcases splitCidr t.arg with ⟨name, c4, c6⟩
  simp only
  cases parseIp name with
  | none => exact Within.refl h _
  | some target =>
    simp only
    split
    · exact Within.refl h _
    · exact Within.refl h _

theorem looked_matchMx (name : Bytes) (cidr : Int) (l : Limits) :
    Looked 11 l (matchMx d ctx name cidr l).limits := by
  have hmono : ∀ {n l'}, n ≤ 11 → Looked n l l' → Looked 11 l l' := by
    intro n l' hn hl
    exact ⟨hl.consistent, hl.events, hl.logged, by have := hl.queries; omega⟩
  unfold matchMx
  split
  · exact hmono (by omega) (looked_asked l)
  · next hosts _ =>
    have htake : (hosts.take maxMxRecords).length ≤ 10 := by
      rw [List.length_take]
      exact Nat.min_le_left _ _
    exact hmono (by omega) ((looked_asked l).trans (looked_matchHosts d ctx cidr _ _ _))
  · exact hmono (by omega) ((looked_asked l).trans (looked_chargeVoid _))

/-- `a` and `mx` test both errors before the match. -/
theorem evalHost_within (h : Ready l) : StepWithin l (evalHost d domain ctx raw t l) := by
  unfold evalHost
  rcases charge_spec h with ⟨l₁, hl₁, hc⟩ | ⟨l₁, hl₁, hw⟩
  swap
  · rw [hl₁]
    exact hw
  rw [hl₁]
  simp only
  generalize hr : (if t.mech = bytes "a" then
    matchHost d ctx (hostArg domain ctx t).1 (hostArg domain ctx t).2 l₁ else
    matchMx d ctx (hostArg domain ctx t).1 (hostArg domain ctx t).2 l₁) = r
  have hlooked : Looked 11 l₁ r.limits := by
    rw [← hr]
    split
    · have hone := looked_matchHost d ctx (hostArg domain ctx t).1 (hostArg domain ctx t).2 l₁
      exact ⟨hone.consistent, hone.events, hone.logged, by have := hone.queries; omega⟩
    · exact looked_matchMx _ _ _
  have hconsistent := hlooked.consistent hc.consistent
  split
  · exact hc.within (Nat.le_refl _) hlooked (fun _ _ => .inr ⟨_, rfl, .inr rfl⟩)
  · split
    · exact hc.within (Nat.le_refl _) hlooked (fun _ _ => .inr ⟨_, rfl, .inl rfl⟩)
    · next hex =>
      have hv := voids_of_not_exceeded hconsistent hex
      split
      · exact hc.within (Nat.le_refl _) hlooked (fun _ _ => .inl hv)
      · exact hc.within (Nat.le_refl _) hlooked (fun _ _ => .inl hv)

theorem evalExists_within (h : Ready l) : StepWithin l (evalExists d domain ctx raw t l) := by
  unfold evalExists
  rcases charge_spec h with ⟨l₁, hl₁, hc⟩ | ⟨l₁, hl₁, hw⟩
  swap
  · rw [hl₁]
    exact hw
  rw [hl₁]
  simp only
  have hasked := looked_asked l₁
  have hvoided := hasked.trans (looked_chargeVoid (asked l₁))
  split
  · exact hc.within (by omega) hasked (fun _ _ => .inr ⟨_, rfl, .inr rfl⟩)
  · split
    · exact hc.within (by omega) hasked
        (fun _ hl => .inl (by rw [voids_asked, hc.voids]; exact hl))
    · split
      · exact hc.within (by omega) hvoided (fun _ _ => .inr ⟨_, rfl, .inl rfl⟩)
      · next hex =>
        exact hc.within (by omega) hvoided
          (fun _ _ => .inl (voids_of_not_exceeded (hvoided.consistent hc.consistent) hex))

/-- The names charge as void what the DNS answers as void. -/
theorem voids_matchPtrNames (target : Bytes) : ∀ (names : List Bytes) (l : Limits),
    (matchPtrNames d ctx target names l).1.voids =
      l.voids + voidNames d ctx.ip target l.queries names := by
  intro names
  induction names with
  | nil => exact fun _ => rfl
  | cons name names ih =>
    intro l
    have hasked : (asked l).queries = l.queries + 1 := by simp [asked, Limits.queries]
    have hcharged : (chargeVoid (asked l)).voids = l.voids + 1 ∧
        (chargeVoid (asked l)).queries = l.queries + 1 := by
      simp [chargeVoid, asked, Limits.voids, Limits.queries]
    rw [matchPtrNames, voidNames, matchHost]
    cases hanswer : (if ctx.ip.v6 then d.aaaa else d.a) l.queries (stripDot name) with
    | mk status addrs =>
      cases status with
      | ok =>
        simp only
        split
        · rw [voids_asked, Nat.add_zero]
        · rw [ih, voids_asked, hasked]
      | tempFail => simp [ih, voids_asked, hasked]
      | noData =>
        simp only [Bool.false_eq_true, false_and, if_false]
        rw [ih, hcharged.1, hcharged.2]
        omega
      | nxDomain =>
        simp only [Bool.false_eq_true, false_and, if_false]
        rw [ih, hcharged.1, hcharged.2]
        omega

theorem evalPtr_within (h : Ready l) : StepWithin l (evalPtr d domain ctx t l) := by
  unfold evalPtr
  rcases charge_spec h with ⟨l₁, hl₁, hc⟩ | ⟨l₁, hl₁, hw⟩
  swap
  · rw [hl₁]
    exact hw
  rw [hl₁]
  simp only
  split
  · exact hc.within (by omega) (looked_asked l₁) (fun _ _ => .inr ⟨_, rfl, .inr rfl⟩)
  obtain ⟨target, htarget⟩ : ∃ target,
      (if t.arg = [] then domain else expandMacros t.arg ctx) = target := ⟨_, rfl⟩
  obtain ⟨names, hnames⟩ : ∃ names,
      (d.ptr l₁.queries ctx.clientIpText).2.take maxPtrRecords = names := ⟨_, rfl⟩
  rw [htarget, hnames]
  obtain ⟨begun, hbegun⟩ : ∃ begun,
      ptrBegun (voidNames d ctx.ip target (asked l₁).queries names) (asked l₁) = begun := ⟨_, rfl⟩
  rw [hbegun]
  have hlooked : Looked 11 l₁ (matchPtrNames d ctx target names begun).1 := by
    have htake : names.length ≤ 10 := by
      rw [← hnames, List.length_take]
      exact Nat.min_le_left _ _
    have hbegin : Looked 0 (asked l₁) begun := hbegun ▸ looked_ptrBegun _ _
    have hall := ((looked_asked l₁).trans hbegin).trans
      (looked_matchPtrNames d ctx target names begun)
    exact ⟨hall.consistent, hall.events, hall.logged, by have := hall.queries; omega⟩
  -- what was charged before and the void names are all that is charged behind the term
  have hvoid : PtrWithin (matchPtrNames d ctx target names begun).1 →
      (matchPtrNames d ctx target names begun).1.voids ≤ 2 := by
    intro hptr
    have hlogged := (looked_matchPtrNames d ctx target names begun).logged
      (.ptr (asked l₁).voids (voidNames d ctx.ip target (asked l₁).queries names))
      (by rw [← hbegun]; exact List.mem_cons_self)
    have hspent := hptr _ _ hlogged
    have hvoids : begun.voids = (asked l₁).voids ∧ begun.queries = (asked l₁).queries := by
      rw [← hbegun]
      simp [ptrBegun, Limits.voids, Limits.queries]
    rw [voids_matchPtrNames, hvoids.1, hvoids.2]
    exact hspent
  split
  · exact hc.within (Nat.le_refl _) hlooked (fun hptr _ => .inl (hvoid hptr))
  · exact hc.within (Nat.le_refl _) hlooked (fun hptr _ => .inl (hvoid hptr))

theorem evalInclude_within (hsub : ∀ target ctx l, Ready l →
    Within 1 l (some (sub target ctx l).result) (sub target ctx l).limits) (h : Ready l) :
    StepWithin l (evalInclude sub domain ctx t l) := by
  unfold evalInclude
  rcases charge_spec h with ⟨l₁, hl₁, hc⟩ | ⟨l₁, hl₁, hw⟩
  swap
  · rw [hl₁]
    exact hw
  rw [hl₁]
  simp only
  have ho := hsub (expandMacros t.arg ctx) ctx l₁ hc.ready
  generalize sub (expandMacros t.arg ctx) ctx l₁ = o at ho
  obtain ⟨result, record, explanation, limits⟩ := o
  cases result with
  | pass => exact hc.sub ho (fun hx => absurd hx (by simp [Closed]))
  | tempError => exact hc.sub ho (fun _ => ⟨_, rfl, .inr rfl⟩)
  | none => exact hc.sub ho (fun _ => ⟨_, rfl, .inl rfl⟩)
  | permError => exact hc.sub ho (fun _ => ⟨_, rfl, .inl rfl⟩)
  | neutral => exact hc.sub ho (fun hx => absurd hx (by simp [Closed]))
  | fail => exact hc.sub ho (fun hx => absurd hx (by simp [Closed]))
  | softFail => exact hc.sub ho (fun hx => absurd hx (by simp [Closed]))

theorem evalTerm_within (hsub : ∀ target ctx l, Ready l →
    Within 1 l (some (sub target ctx l).result) (sub target ctx l).limits) (h : Ready l) :
    StepWithin l (evalTerm d sub domain ctx raw l) := by
  unfold evalTerm
  cases parseTerm raw with
  | none => exact Within.refl h _
  | some t =>
    simp only
    split
    · exact Within.refl h _
    · split
      · exact evalIp_within h
      · split
        · exact evalHost_within h
        · split
          · exact evalExists_within h
          · split
            · exact evalInclude_within hsub h
            · split
              · exact evalPtr_within h
              · split
                · exact Within.refl h _
                · exact Within.refl h _

theorem evalRedirect_within (hsub : ∀ target ctx l, Ready l →
    Within 1 l (some (sub target ctx l).result) (sub target ctx l).limits) (h : Ready l)
    (record redirect : Bytes) :
    Within 0 l (some (evalRedirect sub domain ctx l record redirect).result)
      (evalRedirect sub domain ctx l record redirect).limits := by
  unfold evalRedirect
  split
  · exact Within.refl h _
  rcases charge_spec h with ⟨l₁, hl₁, hc⟩ | ⟨l₁, hl₁, hw⟩
  swap
  · rw [hl₁]
    exact hw
  rw [hl₁]
  simp only
  have ho := hsub redirect ctx l₁ hc.ready
  split
  · exact hc.sub ho (fun _ => ⟨_, rfl, .inl rfl⟩)
  · exact hc.sub ho (fun hx => ⟨_, rfl, hx⟩)

theorem evalTerms_within (hsub : ∀ target ctx l, Ready l →
    Within 1 l (some (sub target ctx l).result) (sub target ctx l).limits) (record : Bytes) :
    ∀ (ts : List Bytes) (redirect : Bytes) {l : Limits}, Ready l →
      Within 0 l (some (evalTerms d sub domain ctx record ts redirect l).result)
        (evalTerms d sub domain ctx record ts redirect l).limits := by
  intro ts
  induction ts with
  | nil => intro redirect l h; exact evalRedirect_within hsub h record redirect
  | cons raw rest ih =>
    intro redirect l h
    unfold evalTerms
    split
    · exact ih _ h
    · split
      · exact ih _ h
      · have hstep := @evalTerm_within d sub domain raw ctx _ hsub h
        split
        · next heq => rw [heq] at hstep; exact hstep
        · next heq =>
          rw [heq] at hstep
          exact hstep.trans (ih redirect hstep.ready)

end Mechanisms

/-! ## The whole check -/

/-- By induction on how much deeper the nesting may get. -/
theorem evaluate_within : ∀ (n : Nat) (domain : Bytes) (ctx : MacroCtx) (l : Limits), Ready l →
      Within 1 l (some (evaluate d n domain ctx l).result) (evaluate d n domain ctx l).limits := by
  intro n
  induction n with
  | zero => intro domain ctx l h; exact (Within.refl h _).mono (by omega)
  | succ n ih =>
    intro domain ctx l h
    have hasked : ∀ r : Option Result, Within 1 l r (asked l) := by
      intro r
      have hl := looked_asked l
      refine ⟨hl.consistent h.consistent, hl.logged, ?_, ?_, ?_, ?_, ?_⟩
      · simp [asked, Limits.terms]
      · simpa [asked, Limits.terms] using h.terms
      · have := hl.queries
        simp only [asked, Limits.terms, List.count_cons_of_ne (show Event.query ≠ .term by decide)]
        simp only [asked] at this
        omega
      · left
        simpa [asked, Limits.refused] using h.refused
      · intro _ hv
        left
        simpa [asked, Limits.voids] using hv
    have hfetch : (fetchRecord d domain l).1 = asked l := by
      unfold fetchRecord
      split
      · rfl
      · split <;> rfl
      · rfl
    unfold evaluate
    split
    · exact (Within.refl h _).mono (by omega)
    · split
      · next heq => rw [heq] at hfetch; subst hfetch; exact hasked _
      · next heq => rw [heq] at hfetch; subst hfetch; exact hasked _
      · next heq => rw [heq] at hfetch; subst hfetch; exact hasked _
      · next heq =>
        rw [heq] at hfetch
        subst hfetch
        exact (hasked none).trans (evalTerms_within ih _ _ _ (hasked none).ready)

theorem ready_start : Ready .start :=
  ⟨⟨rfl, rfl, by simp [Limits.start, Limits.voids, Limits.refused]⟩, rfl, by decide⟩

theorem check_within (clientIp helo mailFrom : Bytes) :
    Within 1 .start (some (check d clientIp helo mailFrom).result)
      (check d clientIp helo mailFrom).limits := by
  unfold check
  cases parseIp clientIp with
  | none => exact (Within.refl ready_start _).mono (by omega)
  | some ip =>
    simp only
    split
    · exact (Within.refl ready_start _).mono (by omega)
    · exact evaluate_within d _ _ _ _ ready_start

/-- A check evaluates at most ten terms that query the DNS and issues at most 111
    queries; a spent term budget shows in the result, and so does a spent void budget in
    every run in which no `ptr` term looks up names that spend it. -/
theorem check_limits (d : Resolver) (clientIp helo mailFrom : Bytes) :
    (check d clientIp helo mailFrom).limits.terms ≤ 10 ∧
      (check d clientIp helo mailFrom).limits.queries ≤ 1 + 10 * 11 ∧
      (10 < (check d clientIp helo mailFrom).limits.lookups →
        Closed (check d clientIp helo mailFrom).result) ∧
      (PtrWithin (check d clientIp helo mailFrom).limits →
        2 < (check d clientIp helo mailFrom).limits.voidLookups →
        Closed (check d clientIp helo mailFrom).result) := by
  have h := check_within d clientIp helo mailFrom
  have hstart : Limits.start.terms = 0 ∧ Limits.start.queries = 0 ∧ Limits.start.voids = 0 := by
    decide
  refine ⟨h.terms, ?_, ?_, ?_⟩
  · have hq := h.queries
    have ht := h.terms
    omega
  · intro hover
    have hl := h.consistent.lookups
    have ht := h.terms
    rcases h.refused with hr | ⟨x, hx, hc⟩
    · omega
    · cases hx
      exact hc
  · intro hptr hover
    rw [h.consistent.voidLookups] at hover
    rcases h.voids hptr (by omega) with hv | ⟨x, hx, hc⟩
    · omega
    · cases hx
      exact hc

/-- Three PTR names that do not resolve spend the void budget, and `+all` still passes. -/
theorem check_ptr_passes : let d : Resolver :=
      { txt := fun _ _ => (.ok, [bytes "v=spf1 ptr +all"])
        a := fun _ _ => (.nxDomain, [])
        aaaa := fun _ _ => (.nxDomain, [])
        mx := fun _ _ => (.nxDomain, [])
        ptr := fun _ _ => (.ok, [bytes "a.test", bytes "b.test", bytes "c.test"]) }
    let o := check d (bytes "192.0.2.1") (bytes "helo.test") (bytes "u@example.test")
    o.limits.voidLookups = 3 ∧ o.result = .pass := by
  decide +kernel

end QuackMail.Spf
