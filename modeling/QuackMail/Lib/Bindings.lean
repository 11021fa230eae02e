import Mathlib.Data.List.Nodup
import Mathlib.Logic.Function.Basic
import Mathlib.Tactic.Common

/-! # Names with a default

A table binds some names to what they name; a name that is not bound is read by a decoder,
and whatever has no name of its own goes by a default one, which the decoder reads back.  The
rules here say when the names of what is there stay apart, and what becomes of a name once
what it named is gone.
-/

namespace QuackMail.Bindings

variable {N E : Type*}

/-! ## Tables -/

section Tables

variable [DecidableEq N]

/-- What a name is bound to. -/
def lookup (t : List (N × E)) (n : N) : Option E :=
  (t.find? fun row => decide (row.1 = n)).map Prod.snd

def unbind (n : N) (t : List (N × E)) : List (N × E) := t.filter fun row => !decide (row.1 = n)

/-- Binds a name, whatever it was bound to. -/
def bind (n : N) (e : E) (t : List (N × E)) : List (N × E) := (n, e) :: unbind n t

/-- No name is bound twice. -/
def Keyed (t : List (N × E)) : Prop := (t.map Prod.fst).Nodup

variable {e : E} {n m : N} {t : List (N × E)}

theorem mem_of_lookup (h : lookup t n = some e) : (n, e) ∈ t := by
  rw [lookup, Option.map_eq_some_iff] at h
  obtain ⟨row, hfind, rfl⟩ := h
  have hname : row.1 = n := by simpa using List.find?_some hfind
  rw [← hname]
  exact List.mem_of_find?_eq_some hfind

theorem lookup_of_mem (hkeyed : Keyed t) (h : (n, e) ∈ t) : lookup t n = some e := by
  cases hlookup : lookup t n with
  | none =>
    rw [lookup, Option.map_eq_none_iff, List.find?_eq_none] at hlookup
    exact absurd (decide_eq_true rfl) (hlookup _ h)
  | some e' =>
    -- two rows of one name are one row
    have hrow := List.inj_on_of_nodup_map hkeyed (mem_of_lookup hlookup) h rfl
    rw [(Prod.mk.inj hrow).2]

theorem mem_unbind : (m, e) ∈ unbind n t ↔ (m, e) ∈ t ∧ m ≠ n := by
  simp [unbind]

theorem mem_bind {e' : E} : (m, e') ∈ bind n e t ↔ m = n ∧ e' = e ∨ (m, e') ∈ t ∧ m ≠ n := by
  rw [bind, List.mem_cons, mem_unbind, Prod.mk.injEq]

theorem keyed_unbind (h : Keyed t) (n : N) : Keyed (unbind n t) :=
  h.sublist (List.filter_sublist.map _)

theorem keyed_bind (h : Keyed t) (n : N) (e : E) : Keyed (bind n e t) := by
  rw [Keyed, bind, List.map_cons, List.nodup_cons]
  refine ⟨?_, keyed_unbind h n⟩
  simp [unbind]

theorem lookup_eq_none : lookup t n = none ↔ ∀ e, (n, e) ∉ t := by
  rw [lookup, Option.map_eq_none_iff, List.find?_eq_none]
  constructor
  · intro h e hmem
    exact h _ hmem (decide_eq_true rfl)
  · rintro h ⟨m, e⟩ hmem heq
    obtain rfl : m = n := by simpa using heq
    exact h e hmem

theorem lookup_unbind_self (n : N) (t : List (N × E)) : lookup (unbind n t) n = none := by
  rw [lookup_eq_none]
  intro e hmem
  exact (mem_unbind.mp hmem).2 rfl

theorem lookup_unbind (h : m ≠ n) (hkeyed : Keyed t) : lookup (unbind n t) m = lookup t m := by
  cases hlookup : lookup t m with
  | none =>
    rw [lookup_eq_none] at hlookup ⊢
    exact fun e hmem => hlookup e (mem_unbind.mp hmem).1
  | some e =>
    exact lookup_of_mem (keyed_unbind hkeyed n) (mem_unbind.mpr ⟨mem_of_lookup hlookup, h⟩)

theorem lookup_bind (h : m ≠ n) (hkeyed : Keyed t) (e : E) :
    lookup (bind n e t) m = lookup t m := by
  cases hlookup : lookup t m with
  | none =>
    rw [lookup_eq_none] at hlookup ⊢
    intro e' hmem
    rcases mem_bind.mp hmem with ⟨hmn, -⟩ | ⟨hmem, -⟩
    · exact h hmn
    · exact hlookup e' hmem
  | some e' =>
    exact lookup_of_mem (keyed_bind hkeyed n e) (mem_bind.mpr (.inr ⟨mem_of_lookup hlookup, h⟩))

end Tables

/-! ## Names -/

section Names

variable [DecidableEq E]

/-- The names of `e`. -/
def names (t : List (N × E)) (e : E) : List N :=
  (t.filter fun row => decide (row.2 = e)).map Prod.fst

theorem mem_names {t : List (N × E)} {n : N} {e : E} : n ∈ names t e ↔ (n, e) ∈ t := by
  simp [names]

/-- The name of `e`: the one at place `k` of its names, in whatever order they come. -/
def nameOf (default : E → N) (k : Nat) (t : List (N × E)) (e : E) : N :=
  (names t e)[k % (names t e).length]?.getD (default e)

theorem nameOf_of_none (default : E → N) (k : Nat) {t : List (N × E)} {e : E}
    (h : names t e = []) : nameOf default k t e = default e := by
  rw [nameOf, h]
  rfl

theorem nameOf_mem (default : E → N) (k : Nat) {t : List (N × E)} {e : E}
    (h : names t e ≠ []) : nameOf default k t e ∈ names t e := by
  have hlt : k % (names t e).length < (names t e).length :=
    Nat.mod_lt _ (List.length_pos_of_ne_nil h)
  rw [nameOf, List.getElem?_eq_getElem hlt]
  exact List.getElem_mem hlt

theorem nameOf_cases (default : E → N) (k : Nat) (t : List (N × E)) (e : E) :
    names t e = [] ∧ nameOf default k t e = default e ∨
      (nameOf default k t e, e) ∈ t := by
  by_cases h : names t e = []
  · exact .inl ⟨h, nameOf_of_none default k h⟩
  · exact .inr (mem_names.mp (nameOf_mem default k h))

end Names

/-! ## What names stand for -/

section Resolve

variable [DecidableEq N] [DecidableEq E] (decode : N → E) (default : E → N)

/-- What a name stands for. -/
def resolve (t : List (N × E)) (n : N) : E := (lookup t n).getD (decode n)

/-- The names of what is there are its own. -/
structure Sound (t : List (N × E)) (live : E → Prop) : Prop where
  keyed : Keyed t
  round : ∀ e, live e → decode (default e) = e
  /-- what goes by its default name has it to itself -/
  unbound : ∀ e, live e → names t e = [] → lookup t (default e) = none
  single : ∀ e, live e → ∀ m n, (m, e) ∈ t → (n, e) ∈ t → m = n

variable {decode default} {t : List (N × E)} {live : E → Prop}

variable {e : E}

omit [DecidableEq E] in
theorem resolve_of_mem (hkeyed : Keyed t) {n : N} (h : (n, e) ∈ t) : resolve decode t n = e := by
  rw [resolve, lookup_of_mem hkeyed h]
  rfl

omit [DecidableEq E] in
theorem resolve_of_none {n : N} (h : lookup t n = none) : resolve decode t n = decode n := by
  rw [resolve, h]
  rfl

theorem Sound.resolve_nameOf (h : Sound decode default t live) (he : live e) (k : Nat) :
    resolve decode t (nameOf default k t e) = e := by
  rcases nameOf_cases default k t e with ⟨hnone, hname⟩ | hmem
  · rw [hname, resolve_of_none (h.unbound e he hnone), h.round e he]
  · exact resolve_of_mem h.keyed hmem

/-- Names tell apart what is there. -/
theorem Sound.nameOf_injective (h : Sound decode default t live) {e' : E} (he : live e)
    (he' : live e') {j k : Nat} (heq : nameOf default j t e = nameOf default k t e') : e = e' := by
  rw [← h.resolve_nameOf he j, heq, h.resolve_nameOf he' k]

/-- What is there has one name, in whatever order its names come. -/
theorem Sound.nameOf_eq (h : Sound decode default t live) (he : live e) (j k : Nat) :
    nameOf default j t e = nameOf default k t e := by
  by_cases hnone : names t e = []
  · rw [nameOf_of_none default j hnone, nameOf_of_none default k hnone]
  · exact h.single e he _ _ (mem_names.mp (nameOf_mem default j hnone))
      (mem_names.mp (nameOf_mem default k hnone))

/-- Names stay apart when something goes. -/
theorem Sound.fewer (h : Sound decode default t live) {live' : E → Prop}
    (hsub : ∀ e, live' e → live e) : Sound decode default t live' :=
  ⟨h.keyed, fun e he => h.round e (hsub e he), fun e he => h.unbound e (hsub e he),
    fun e he => h.single e (hsub e he)⟩

end Resolve

/-! ## Histories -/

/-- What is known of a name: nothing, what was stored under it last and is still there, or
    that what was stored under it last is gone. -/
abbrev Held (N E : Type*) := N → Option (Option E)

section Histories

variable [DecidableEq N] [DecidableEq E] (decode : N → E) (default : E → N)

/-- Something is gone. -/
def retire (e : E) (held : Held N E) : Held N E := fun n =>
  if held n = some (some e) then some none else held n

/-- The table and what is there agree with the history. -/
structure Tracks (t : List (N × E)) (live : E → Prop) (held : Held N E) : Prop where
  rows : ∀ n e, (n, e) ∈ t → live e ∧ held n = some (some e) ∨ ¬live e ∧ held n = some none
  alive : ∀ n e, held n = some (some e) → live e ∧ resolve decode t n = e
  gone : ∀ n, held n = some none → ¬live (resolve decode t n)

/-- Names are sound and agree with the history. -/
structure Named (t : List (N × E)) (live : E → Prop) (held : Held N E) : Prop where
  sound : Sound decode default t live
  tracks : Tracks decode t live held

/-- No name whose object is gone stands for `e`, but perhaps `n`. -/
def Unclaimed (t : List (N × E)) (held : Held N E) (n : N) (e : E) : Prop :=
  ∀ m, m ≠ n → held m = some none → resolve decode t m ≠ e

variable {decode default} {t : List (N × E)} {live live' : E → Prop} {held : Held N E}

variable {e : E} {n : N}

/-- A row of what was not there is of a name that was given up. -/
theorem Named.stale (h : Named decode default t live held)
    (hunclaimed : Unclaimed decode t held n e) (hnew : ¬live e) {m : N} (hrow : (m, e) ∈ t) :
    m = n := by
  by_contra hne
  rcases h.tracks.rows m e hrow with ⟨hlive, -⟩ | ⟨-, hgone⟩
  · exact hnew hlive
  · exact hunclaimed m hne hgone (resolve_of_mem h.sound.keyed hrow)

omit [DecidableEq E] in
/-- Something is stored, and found by the name `n`, which stands for it by now. -/
theorem Tracks.store (h : Tracks decode t live held) {t' : List (N × E)}
    (hn : resolve decode t' n = e) (hrest : ∀ m, m ≠ n → lookup t' m = lookup t m)
    (hrows : ∀ m x, (m, x) ∈ t' → m = n ∧ x = e ∨ (m, x) ∈ t ∧ m ≠ n)
    (hstale : ¬live e → ∀ m, m ≠ n → (m, e) ∉ t)
    (hunclaimed : ¬live e → Unclaimed decode t held n e) :
    Tracks decode t' (fun x => x = e ∨ live x) (Function.update held n (some (some e))) := by
  have hresolve : ∀ m, m ≠ n → resolve decode t' m = resolve decode t m := by
    intro m hm
    rw [resolve, hrest m hm, resolve]
  refine ⟨?_, ?_, ?_⟩
  · intro m x hrow
    rcases hrows m x hrow with ⟨rfl, rfl⟩ | ⟨hrow, hm⟩
    · exact .inl ⟨.inl rfl, Function.update_self ..⟩
    · rw [Function.update_of_ne hm]
      rcases h.rows m x hrow with ⟨hlive, hheld⟩ | ⟨hdead, hheld⟩
      · exact .inl ⟨.inr hlive, hheld⟩
      · refine .inr ⟨?_, hheld⟩
        rintro (rfl | hlive)
        · exact hstale hdead m hm hrow
        · exact hdead hlive
  · intro m x hheld
    by_cases hm : m = n
    · rw [hm, Function.update_self] at hheld
      obtain rfl := Option.some.inj (Option.some.inj hheld)
      exact ⟨.inl rfl, by rw [hm, hn]⟩
    · rw [Function.update_of_ne hm] at hheld
      obtain ⟨hlive, heq⟩ := h.alive m x hheld
      exact ⟨.inr hlive, by rw [hresolve m hm, heq]⟩
  · intro m hheld
    by_cases hm : m = n
    · rw [hm, Function.update_self] at hheld
      cases hheld
    · rw [Function.update_of_ne hm] at hheld
      rw [hresolve m hm]
      have hdead := h.gone m hheld
      rintro (heq | hlive)
      · refine hunclaimed ?_ m hm hheld heq
        rwa [heq] at hdead
      · exact hdead hlive

/-- Something is stored without a name of its own. -/
theorem Named.save (h : Named decode default t live held)
    (hround : decode (default e) = e) (k : Nat)
    (hfree : ¬live e → names t e = [] → lookup t (default e) = none)
    (hunclaimed : ¬live e → Unclaimed decode t held (nameOf default k t e) e) :
    Named decode default t (fun x => x = e ∨ live x)
      (Function.update held (nameOf default k t e) (some (some e))) := by
  have hstale : ¬live e → ∀ m, (m, e) ∈ t → m = nameOf default k t e :=
    fun hnew m hrow => h.stale (hunclaimed hnew) hnew hrow
  have hsound : Sound decode default t (fun x => x = e ∨ live x) := by
    refine ⟨h.sound.keyed, ?_, ?_, ?_⟩
    · rintro x (rfl | hx)
      · exact hround
      · exact h.sound.round x hx
    · rintro x hx hnone
      by_cases hlive : live x
      · exact h.sound.unbound x hlive hnone
      · obtain rfl := hx.resolve_right hlive
        exact hfree hlive hnone
    · rintro x hx m n hm hn
      by_cases hlive : live x
      · exact h.sound.single x hlive m n hm hn
      · obtain rfl := hx.resolve_right hlive
        rw [hstale hlive m hm, hstale hlive n hn]
  have hname := hsound.resolve_nameOf (.inl rfl) k
  refine ⟨hsound, h.tracks.store hname (fun _ _ => rfl) ?_ ?_ hunclaimed⟩
  · intro m x hrow
    by_cases hm : m = nameOf default k t e
    · -- the name it now has is bound to nothing else
      rw [← hm, resolve_of_mem h.sound.keyed hrow] at hname
      exact .inl ⟨hm, hname⟩
    · exact .inr ⟨hrow, hm⟩
  · exact fun hnew m hm hrow => hm (hstale hnew m hrow)

/-- Something is stored under a name, which is bound to it unless that is its default name. -/
theorem Named.put (h : Named decode default t live held) (hround : decode (default e) = e) (k : Nat)
    (hown : live e → nameOf default k t e = n)
    (hother : resolve decode t n ≠ e → ¬live (resolve decode t n))
    (hunclaimed : ¬live e → Unclaimed decode t held n e) :
    Named decode default (if default e = n then unbind n t else bind n e t)
      (fun x => x = e ∨ live x) (Function.update held n (some (some e))) := by
  have hkeyed := h.sound.keyed
  -- the rows of what is stored are of this name
  have hrow : ∀ m, (m, e) ∈ t → m = n := by
    intro m hrow
    by_cases hlive : live e
    · rcases nameOf_cases default k t e with ⟨hnone, -⟩ | hmem
      · rw [← mem_names, hnone] at hrow
        cases hrow
      · rw [h.sound.single e hlive m _ hrow hmem, hown hlive]
    · exact h.stale (hunclaimed hlive) hlive hrow
  -- nobody else goes by this name by default
  have hdefault : ∀ x, x ≠ e → live x → names t x = [] → default x ≠ n := by
    rintro x hx hlive hnone rfl
    have hresolve : resolve decode t (default x) = x := by
      rw [resolve_of_none (h.sound.unbound x hlive hnone), h.sound.round x hlive]
    rw [hresolve] at hother
    exact hother hx hlive
  -- nor is it bound to anything else that is there
  have hkept : ∀ x, x ≠ e → live x → (n, x) ∉ t := by
    intro x hx hlive hmem
    rw [resolve_of_mem hkeyed hmem] at hother
    exact hother hx hlive
  split
  · next hdef =>
    have hsound : Sound decode default (unbind n t) (fun x => x = e ∨ live x) := by
      refine ⟨keyed_unbind hkeyed n, ?_, ?_, ?_⟩
      · rintro x (rfl | hx)
        · exact hround
        · exact h.sound.round x hx
      · rintro x hx hnone
        by_cases hxe : x = e
        · rw [hxe, hdef, lookup_unbind_self]
        · have hlive := hx.resolve_left hxe
          have hnames : names t x = [] := by
            rw [List.eq_nil_iff_forall_not_mem] at hnone ⊢
            intro m hm
            refine hnone m (mem_names.mpr (mem_unbind.mpr ⟨mem_names.mp hm, ?_⟩))
            rintro rfl
            exact hkept x hxe hlive (mem_names.mp hm)
          rw [lookup_unbind (hdefault x hxe hlive hnames) hkeyed]
          exact h.sound.unbound x hlive hnames
      · intro x hx m m' hm hm'
        have hm := mem_unbind.mp hm
        have hm' := mem_unbind.mp hm'
        by_cases hxe : x = e
        · rw [hxe] at hm
          exact absurd (hrow m hm.1) hm.2
        · exact h.sound.single x (hx.resolve_left hxe) m m' hm.1 hm'.1
    refine ⟨hsound, h.tracks.store ?_ (fun m hm => lookup_unbind hm hkeyed) ?_ ?_ hunclaimed⟩
    · rw [resolve_of_none (lookup_unbind_self n t), ← hdef, hround]
    · exact fun m x hmem => .inr (mem_unbind.mp hmem)
    · exact fun _ m hm hmem => hm (hrow m hmem)
  · next hdef =>
    have hsound : Sound decode default (bind n e t) (fun x => x = e ∨ live x) := by
      refine ⟨keyed_bind hkeyed n e, ?_, ?_, ?_⟩
      · rintro x (rfl | hx)
        · exact hround
        · exact h.sound.round x hx
      · rintro x hx hnone
        by_cases hxe : x = e
        · rw [hxe, List.eq_nil_iff_forall_not_mem] at hnone
          exact absurd (mem_names.mpr (mem_bind.mpr (.inl ⟨rfl, rfl⟩))) (hnone n)
        · have hlive := hx.resolve_left hxe
          have hnames : names t x = [] := by
            rw [List.eq_nil_iff_forall_not_mem] at hnone ⊢
            intro m hm
            refine hnone m (mem_names.mpr (mem_bind.mpr (.inr ⟨mem_names.mp hm, ?_⟩)))
            rintro rfl
            exact hkept x hxe hlive (mem_names.mp hm)
          rw [lookup_bind (hdefault x hxe hlive hnames) hkeyed]
          exact h.sound.unbound x hlive hnames
      · intro x hx m m' hm hm'
        by_cases hxe : x = e
        · have hname : ∀ m, (m, x) ∈ bind n e t → m = n := by
            intro m hm
            rcases mem_bind.mp hm with ⟨hmn, -⟩ | ⟨hm, -⟩
            · exact hmn
            · rw [hxe] at hm
              exact hrow m hm
          rw [hname m hm, hname m' hm']
        · have hold : ∀ m, (m, x) ∈ bind n e t → (m, x) ∈ t := by
            intro m hm
            rcases mem_bind.mp hm with ⟨-, heq⟩ | ⟨hm, -⟩
            · exact absurd heq hxe
            · exact hm
          exact h.sound.single x (hx.resolve_left hxe) m m' (hold m hm) (hold m' hm')
    refine ⟨hsound, h.tracks.store ?_ (fun m hm => lookup_bind hm hkeyed e) ?_ ?_ hunclaimed⟩
    · exact resolve_of_mem (keyed_bind hkeyed n e) (mem_bind.mpr (.inl ⟨rfl, rfl⟩))
    · exact fun m x hmem => mem_bind.mp hmem
    · exact fun _ m hm hmem => hm (hrow m hmem)

omit [DecidableEq N] in
theorem retire_some {x : E} : retire e held n = some (some x) ↔ held n = some (some x) ∧ x ≠ e := by
  rw [retire]
  split
  · next h =>
    rw [h]
    constructor
    · rintro ⟨⟩
    · rintro ⟨⟨⟩, hne⟩
      exact absurd rfl hne
  · next h =>
    constructor
    · intro hx
      refine ⟨hx, ?_⟩
      rintro rfl
      exact h hx
    · exact And.left

omit [DecidableEq N] in
theorem retire_gone :
    retire e held n = some none ↔ held n = some none ∨ held n = some (some e) := by
  rw [retire]
  split
  · next h => simp [h]
  · next h => simp [h]

/-- Something goes, and no row does. -/
theorem Named.erase (h : Named decode default t live held) (e : E) :
    Named decode default t (fun x => x ≠ e ∧ live x) (retire e held) := by
  refine ⟨h.sound.fewer fun x hx => hx.2, ?_, ?_, ?_⟩
  · intro n x hrow
    rw [retire_some, retire_gone]
    rcases h.tracks.rows n x hrow with ⟨hlive, hheld⟩ | ⟨hdead, hheld⟩
    · by_cases hx : x = e
      · exact .inr ⟨fun hlive => hlive.1 hx, .inr (by rw [hheld, hx])⟩
      · exact .inl ⟨⟨hx, hlive⟩, hheld, hx⟩
    · exact .inr ⟨fun hlive => hdead hlive.2, .inl hheld⟩
  · intro n x hheld
    obtain ⟨hheld, hx⟩ := retire_some.mp hheld
    obtain ⟨hlive, hresolve⟩ := h.tracks.alive n x hheld
    exact ⟨⟨hx, hlive⟩, hresolve⟩
  · intro n hheld hlive
    rcases retire_gone.mp hheld with hgone | hgoes
    · exact h.tracks.gone n hgone hlive.2
    · exact hlive.1 (h.tracks.alive n e hgoes).2

/-- Rows of what is not there go, where their names read as nothing that is. -/
theorem Named.prune (h : Named decode default t live held) (keep : N × E → Bool)
    (hdrop : ∀ n e, (n, e) ∈ t → keep (n, e) = false → ¬live e)
    (hreads : ∀ n e, (n, e) ∈ t → keep (n, e) = false → ¬live (decode n)) :
    Named decode default (t.filter keep) live held := by
  have hkeyed : Keyed (t.filter keep) := h.sound.keyed.sublist (List.filter_sublist.map _)
  have hlive : ∀ n e, live e → (n, e) ∈ t → (n, e) ∈ t.filter keep := by
    intro n e he hrow
    refine List.mem_filter.mpr ⟨hrow, ?_⟩
    by_contra hkeep
    exact hdrop n e hrow (by simpa using hkeep) he
  have hlookup : ∀ n, lookup (t.filter keep) n = lookup t n ∨
      lookup (t.filter keep) n = none ∧ ∃ e, (n, e) ∈ t ∧ keep (n, e) = false := by
    intro n
    cases hn : lookup t n with
    | none =>
      left
      rw [lookup_eq_none] at hn ⊢
      exact fun e hrow => hn e (List.mem_filter.mp hrow).1
    | some e =>
      have hrow := mem_of_lookup hn
      cases hkeep : keep (n, e) with
      | true => exact .inl (lookup_of_mem hkeyed (List.mem_filter.mpr ⟨hrow, hkeep⟩))
      | false =>
        refine .inr ⟨lookup_eq_none.mpr ?_, e, hrow, hkeep⟩
        intro e' hrow'
        obtain ⟨hrow', hkeep'⟩ := List.mem_filter.mp hrow'
        rw [lookup_of_mem h.sound.keyed hrow'] at hn
        rw [Option.some.inj hn, hkeep] at hkeep'
        cases hkeep'
  refine ⟨⟨hkeyed, h.sound.round, ?_, ?_⟩, ?_, ?_, ?_⟩
  · intro e he hnone
    have hnames : names t e = [] := by
      rw [List.eq_nil_iff_forall_not_mem] at hnone ⊢
      exact fun n hn => hnone n (mem_names.mpr (hlive n e he (mem_names.mp hn)))
    rcases hlookup (default e) with heq | ⟨heq, -⟩
    · rw [heq]
      exact h.sound.unbound e he hnames
    · exact heq
  · intro e he m n hm hn
    exact h.sound.single e he m n (List.mem_filter.mp hm).1 (List.mem_filter.mp hn).1
  · exact fun n e hrow => h.tracks.rows n e (List.mem_filter.mp hrow).1
  · intro n e hheld
    obtain ⟨he, hresolve⟩ := h.tracks.alive n e hheld
    refine ⟨he, ?_⟩
    rcases hlookup n with heq | ⟨-, e', hrow, hkeep⟩
    · rw [resolve, heq]
      exact hresolve
    · rw [resolve_of_mem h.sound.keyed hrow] at hresolve
      rw [← hresolve] at he
      exact absurd he (hdrop n e' hrow hkeep)
  · intro n hheld
    rcases hlookup n with heq | ⟨heq, e, hrow, hkeep⟩
    · rw [resolve, heq]
      exact h.tracks.gone n hheld
    · rw [resolve_of_none heq]
      exact hreads n e hrow hkeep

/-- Something goes by a name, and a row of the name with it. -/
theorem Named.delete (h : Named decode default t live held) (hresolve : resolve decode t n = e)
    (hreads : (lookup t n).isSome = true → live (decode n) → decode n = e) :
    Named decode default (unbind n t) (fun x => x ≠ e ∧ live x) (retire e held) := by
  refine (h.erase e).prune (fun row => !decide (row.1 = n)) ?_ ?_
  · intro m x hrow hkeep hlive
    obtain rfl : m = n := by simpa using hkeep
    exact hlive.1 (by rw [← hresolve, resolve_of_mem h.sound.keyed hrow])
  · intro m x hrow hkeep hlive
    obtain rfl : m = n := by simpa using hkeep
    refine hlive.1 (hreads ?_ hlive.2)
    rw [lookup_of_mem h.sound.keyed hrow]
    rfl

/-- A table without rows, before anything is known of any name. -/
theorem named_empty (hround : ∀ e, live e → decode (default e) = e) :
    Named decode default ([] : List (N × E)) live (fun _ => none) := by
  refine ⟨⟨List.nodup_nil, hround, fun _ _ _ => rfl, ?_⟩, ?_, ?_, ?_⟩
  · exact fun _ _ _ _ hm => absurd hm List.not_mem_nil
  · exact fun _ _ hrow => absurd hrow List.not_mem_nil
  · exact fun _ _ hheld => by cases hheld
  · exact fun _ hheld => by cases hheld

end Histories

end QuackMail.Bindings
