import Mathlib.Data.List.Infix
import QuackMail.Lib.Incremental
import QuackMail.Xml.Tokenizer

/-! # Input in pieces

What the tokenizer finds at the front of its input does not change when more input comes
behind, unless it is still waiting; so it is a patient incremental reader.
-/

namespace QuackMail.Xmlstream

/-! ## Searches -/

variable {p : Nat} {s : Bytes}

theorem find_add_le {needle : Bytes} (h : find needle s = some p) (hp : p ≤ s.length) :
    p + needle.length ≤ s.length := by
  have hle := (find_spec h).1.length_le
  rw [List.length_drop] at hle
  omega

theorem find_le {needle : Bytes} (h : find needle s = some p) : p ≤ s.length := by
  induction s generalizing p with
  | nil =>
    rw [find] at h
    split at h
    · cases h
      exact Nat.le_refl 0
    · cases h
  | cons d s ih =>
    by_cases hp : needle <+: d :: s
    · rw [find_head hp, Option.some.injEq] at h
      omega
    · rw [find_cons hp] at h
      obtain ⟨q, hq, rfl⟩ := Option.map_eq_some_iff.mp h
      have := ih hq
      rw [List.length_cons]
      omega

theorem find_append_some {needle : Bytes} (h : find needle s = some p) (c : Bytes) :
    find needle (s ++ c) = some p := by
  induction s generalizing p with
  | nil =>
    rw [find] at h
    split at h
    · next hnil =>
      cases h
      exact find_head (by rw [hnil]; exact List.nil_prefix)
    · cases h
  | cons d s ih =>
    by_cases hp : needle <+: d :: s
    · rw [find_head hp] at h
      rw [find_head (hp.trans (List.prefix_append _ _)), h]
    · rw [find_cons hp] at h
      obtain ⟨q, hq, rfl⟩ := Option.map_eq_some_iff.mp h
      -- the needle is found in `s`: it is too short to reach into what comes behind
      have hfit := find_add_le hq (find_le hq)
      have hp' : ¬needle <+: d :: (s ++ c) := by
        intro hp'
        refine hp (List.prefix_of_prefix_length_le hp' (List.prefix_append (d :: s) c) ?_)
        rw [List.length_cons]
        omega
      rw [List.cons_append, find_cons hp', ih hq]
      rfl

theorem findChar_append_some {d : Byte} (h : findChar d s = some p)
    (c : Bytes) : findChar d (s ++ c) = some p := by
  induction s generalizing p with
  | nil => cases h
  | cons e s ih =>
    rw [findChar] at h
    rw [List.cons_append, findChar]
    split at h
    · next heq => rw [if_pos heq, h]
    · next hne =>
      obtain ⟨k, hk, rfl⟩ := Option.map_eq_some_iff.mp h
      rw [if_neg hne, ih hk]
      rfl

theorem tagEnd_lt {quote : Byte} (h : tagEnd quote s = some p) : p < s.length := by
  induction s generalizing quote p with
  | nil => cases h
  | cons e s ih =>
    rw [tagEnd] at h
    rw [List.length_cons]
    split at h
    · obtain ⟨k, hk, rfl⟩ := Option.map_eq_some_iff.mp h
      exact Nat.succ_lt_succ (ih hk)
    · split at h
      · obtain ⟨k, hk, rfl⟩ := Option.map_eq_some_iff.mp h
        exact Nat.succ_lt_succ (ih hk)
      · split at h
        · cases h
          omega
        · obtain ⟨k, hk, rfl⟩ := Option.map_eq_some_iff.mp h
          exact Nat.succ_lt_succ (ih hk)

theorem tagEnd_append_some {quote : Byte} (h : tagEnd quote s = some p)
    (c : Bytes) : tagEnd quote (s ++ c) = some p := by
  induction s generalizing quote p with
  | nil => cases h
  | cons e s ih =>
    rw [tagEnd] at h
    rw [List.cons_append, tagEnd]
    split at h
    · next hquote =>
      obtain ⟨k, hk, rfl⟩ := Option.map_eq_some_iff.mp h
      rw [if_pos hquote, ih hk]
      rfl
    · next hquote =>
      rw [if_neg hquote]
      split at h
      · next hopen =>
        obtain ⟨k, hk, rfl⟩ := Option.map_eq_some_iff.mp h
        rw [if_pos hopen, ih hk]
        rfl
      · next hopen =>
        rw [if_neg hopen]
        split at h
        · next hclose => rw [if_pos hclose, h]
        · next hclose =>
          obtain ⟨k, hk, rfl⟩ := Option.map_eq_some_iff.mp h
          rw [if_neg hclose, ih hk]
          rfl

/-! ## The construct at the front -/

/-- What opens a construct that is not a tag. -/
def markers : List Bytes := [bytes "<![CDATA[", bytes "<?", bytes "<!--"]

/-- On a part of a marker the tokenizer waits: no marker has a `>` in it. -/
theorem construct_inits : ∀ m ∈ markers, ∀ b ∈ m.inits, b ≠ m → (construct b).rest = none := by
  decide +kernel

theorem construct_nil : (construct []).rest = none := by decide

/-- More input does not turn a construct into one with a marker. -/
theorem marker_append {m b r : Bytes} (hm : m ∈ markers) (h : (construct b).rest = some r)
    (c : Bytes) : m <+: b ++ c ↔ m <+: b := by
  constructor
  · intro hp
    cases Nat.le_total m.length b.length with
    | inl hle => exact List.prefix_of_prefix_length_le hp (List.prefix_append b c) hle
    | inr hle =>
      have hb : b <+: m := List.prefix_of_prefix_length_le (List.prefix_append b c) hp hle
      by_cases heq : b = m
      · exact heq ▸ List.prefix_rfl
      · rw [construct_inits m hm b ((List.mem_inits b m).mpr hb) heq] at h
        cases h
  · intro hp
    exact hp.trans (List.prefix_append b c)

/-- A construct with more input behind it. -/
def Construct.behind (c : Bytes) : Construct → Construct
  | .incomplete => .incomplete
  | .skip rest => .skip (rest ++ c)
  | .event e pending rest => .event e pending (rest ++ c)

/-- A construct that is complete stays what it is when more input comes. -/
theorem construct_append {b r : Bytes} (h : (construct b).rest = some r) (c : Bytes) :
    construct (b ++ c) = (construct b).behind c := by
  have hcdata := marker_append (by simp [markers] : bytes "<![CDATA[" ∈ markers) h c
  have hdecl := marker_append (by simp [markers] : bytes "<?" ∈ markers) h c
  have hcomment := marker_append (by simp [markers] : bytes "<!--" ∈ markers) h c
  have hdrop {n : Nat} (hn : n ≤ b.length) : (b ++ c).drop n = b.drop n ++ c :=
    List.drop_append_of_le_length hn
  have hb : b ≠ [] := by
    intro hnil
    rw [hnil, construct_nil] at h
    cases h
  unfold construct at h ⊢
  simp only [hcdata, hdecl, hcomment]
  split at h
  · next hp =>
    rw [if_pos hp, if_pos hp]
    have hlen := hp.length_le
    rw [show (bytes "<![CDATA[").length = 9 from rfl] at hlen
    cases hfind : find (bytes "]]>") (b.drop 9) with
    | none =>
      rw [hfind] at h
      cases h
    | some e =>
      have hle := find_add_le hfind (find_le hfind)
      rw [show (bytes "]]>").length = 3 from rfl, List.length_drop] at hle
      rw [hdrop hlen, find_append_some hfind]
      simp only [Construct.behind]
      rw [List.take_append_of_le_length (by rw [List.length_drop]; omega), hdrop (by omega)]
  · next hp =>
    rw [if_neg hp, if_neg hp]
    rw [List.head?_append_of_ne_nil _ hb]
    split at h
    · next hhead =>
      rw [if_pos hhead, if_pos hhead]
      cases hfind : findChar (ch '<') b with
      | none =>
        rw [hfind] at h
        cases h
      | some lt =>
        have hlt := findChar_lt hfind
        rw [findChar_append_some hfind]
        simp only [Construct.behind]
        rw [List.take_append_of_le_length (by omega), hdrop (by omega)]
    · next hhead =>
      rw [if_neg hhead, if_neg hhead]
      split at h
      · next hp =>
        rw [if_pos hp, if_pos hp]
        cases hfind : find (bytes "?>") b with
        | none =>
          rw [hfind] at h
          cases h
        | some e =>
          have hle := find_add_le hfind (find_le hfind)
          rw [show (bytes "?>").length = 2 from rfl] at hle
          rw [find_append_some hfind]
          simp only [Construct.behind]
          rw [hdrop hle]
      · next hp =>
        rw [if_neg hp, if_neg hp]
        split at h
        · next hp =>
          rw [if_pos hp, if_pos hp]
          cases hfind : find (bytes "-->") b with
          | none =>
            rw [hfind] at h
            cases h
          | some e =>
            have hle := find_add_le hfind (find_le hfind)
            rw [show (bytes "-->").length = 3 from rfl] at hle
            rw [find_append_some hfind]
            simp only [Construct.behind]
            rw [hdrop hle]
        · next hp =>
          rw [if_neg hp, if_neg hp]
          have hlen := List.length_pos_iff.mpr hb
          rw [hdrop (by omega)]
          cases hend : tagEnd 0 (b.drop 1) with
          | none =>
            rw [hend] at h
            cases h
          | some i =>
            have hlt := tagEnd_lt hend
            rw [List.length_drop] at hlt
            rw [tagEnd_append_some hend]
            simp only
            rw [List.take_append_of_le_length (by rw [List.length_drop]; omega), hdrop (by omega)]
            split
            · rfl
            · split
              · rfl
              · rfl

/-! ## The tokenizer as an incremental reader -/

namespace Tokenizer

variable {t : Tokenizer}

theorem next_pending (h : t.pending ≠ []) :
    t.next = (some { kind := .END, name := t.pending }, { t with pending := [] }) := by
  rw [next, if_pos h]

theorem next_incomplete {b : Bytes} (h : (construct b).rest = none) :
    next { unread := b } = (none, { unread := b }) := by
  rw [next, if_neg (by simp)]
  split
  · rfl
  · next r hr =>
    rw [show construct b = _ from hr] at h
    cases h
  · next e p r hr =>
    rw [show construct b = _ from hr] at h
    cases h

theorem next_skip {b r : Bytes} (h : construct b = .skip r) :
    next { unread := b } = next { unread := r } := by
  conv_lhs => rw [next, if_neg (by simp)]
  split
  · next hr => cases (show construct b = _ from hr).symm.trans h
  · next r' hr =>
    cases (show construct b = _ from hr).symm.trans h
    rfl
  · next e p r' hr => cases (show construct b = _ from hr).symm.trans h

theorem next_event {b r p : Bytes} {e : Event} (h : construct b = .event e p r) :
    next { unread := b } = (some e, { unread := r, pending := p }) := by
  rw [next, if_neg (by simp)]
  split
  · next hr => cases (show construct b = _ from hr).symm.trans h
  · next r' hr => cases (show construct b = _ from hr).symm.trans h
  · next e' p' r' hr =>
    cases (show construct b = _ from hr).symm.trans h
    rfl

/-- Induction along the declarations and comments `Next` skips. -/
theorem skip_induction {P : Bytes → Prop} (incomplete : ∀ b, (construct b).rest = none → P b)
    (skip : ∀ b r, construct b = .skip r → P r → P b)
    (event : ∀ b e p r, construct b = .event e p r → P b) (b : Bytes) : P b := by
  induction hn : b.length using Nat.strongRecOn generalizing b with
  | ind n ih =>
    cases hb : construct b with
    | incomplete => exact incomplete b (by rw [hb]; rfl)
    | skip r =>
      have hlt : r.length < b.length := construct_lt (by rw [hb]; rfl)
      exact skip b r hb (ih r.length (hn ▸ hlt) r rfl)
    | event e p r => exact event b e p r hb

/-- What is left to read, and the end that is queued. -/
def weight (t : Tokenizer) : Nat := 2 * t.unread.length + if t.pending = [] then 0 else 1

theorem weight_next {e : Event} (h : t.next.1 = some e) : t.next.2.weight < t.weight := by
  obtain ⟨b, p⟩ := t
  by_cases hp : p = []
  · subst hp
    revert h
    induction b using skip_induction with
    | incomplete b hb =>
      intro h
      rw [next_incomplete hb] at h
      cases h
    | skip b r hb ih =>
      intro h
      rw [next_skip hb] at h ⊢
      have hlt : r.length < b.length := construct_lt (by rw [hb]; rfl)
      have := ih h
      simp only [weight] at this ⊢
      omega
    | event b e' p r hb =>
      intro _
      have hlt : r.length < b.length := construct_lt (by rw [hb]; rfl)
      rw [next_event hb]
      simp only [weight, if_true]
      split <;> omega
  · rw [next_pending hp]
    simp [weight, hp]

/-- An event that is given is given as well when more input is there. -/
theorem next_feed_event {e : Event} (h : t.next.1 = some e) (c : Bytes) :
    (t.feed c).next = (some e, t.next.2.feed c) := by
  obtain ⟨b, p⟩ := t
  by_cases hp : p = []
  · subst hp
    simp only [feed]
    revert h
    induction b using skip_induction with
    | incomplete b hb =>
      intro h
      rw [next_incomplete hb] at h
      cases h
    | skip b r hb ih =>
      intro h
      have hmore : construct (b ++ c) = .skip (r ++ c) := by
        rw [construct_append (by rw [hb]; rfl) c, hb]
        rfl
      rw [next_skip hb] at h ⊢
      rw [next_skip hmore]
      exact ih h
    | event b e' p r hb =>
      intro h
      have hmore : construct (b ++ c) = .event e' p (r ++ c) := by
        rw [construct_append (by rw [hb]; rfl) c, hb]
        rfl
      rw [next_event hb] at h ⊢
      rw [next_event hmore]
      cases h
      rfl
  · have hmore := next_pending (t := feed { unread := b, pending := p } c) hp
    rw [next_pending hp] at h
    rw [hmore, next_pending hp]
    cases h
    rfl

/-- A call that waits only skips declarations and comments. -/
theorem next_feed_nothing (h : t.next.1 = none) (c : Bytes) :
    (t.feed c).next = (t.next.2.feed c).next := by
  obtain ⟨b, p⟩ := t
  by_cases hp : p = []
  · subst hp
    simp only [feed]
    revert h
    induction b using skip_induction with
    | incomplete b hb =>
      intro _
      rw [next_incomplete hb]
    | skip b r hb ih =>
      intro h
      have hmore : construct (b ++ c) = .skip (r ++ c) := by
        rw [construct_append (by rw [hb]; rfl) c, hb]
        rfl
      rw [next_skip hb] at h ⊢
      rw [next_skip hmore]
      exact ih h
    | event b e' p r hb =>
      intro h
      rw [next_event hb] at h
      cases h
  · rw [next_pending hp] at h
    cases h

/-- The tokenizer as an incremental reader. -/
def reader : Incremental.Reader Tokenizer Byte Event where
  feed := feed
  next := next
  weight := weight
  weight_next _ _ h := weight_next h
  feed_feed t a b := by simp [feed]
  next_event _ c _ h := next_feed_event h c
  next_nothing _ c h := next_feed_nothing h c

/-- The events of a document that is fed in these pieces, with `Next` called after each until
    it returns false. -/
def events (chunks : List Bytes) : List Event := (reader.run {} chunks).1

/-- The events of a document depend on its bytes alone. -/
theorem events_flatten (chunks : List Bytes) : events chunks = events [chunks.flatten] := by
  cases chunks with
  | nil =>
    have hwait : (reader.next { unread := [] }).1 = none := by
      show (next { unread := [] }).1 = none
      rw [next_incomplete construct_nil]
    show [] = _
    rw [events, Incremental.Reader.run_eq_drain]
    show [] = (reader.drain { unread := [] }).1
    rw [Incremental.Reader.drain_nothing hwait]
  | cons c cs =>
    rw [events, Incremental.Reader.run_split]
    rfl

end Tokenizer

end QuackMail.Xmlstream
