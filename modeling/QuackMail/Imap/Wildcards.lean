import QuackMail.Bytes
import QuackMail.Lib.Wildcards

/-! # The wildcards of `LIST`

`ImapWildMatch` walks along pattern and name and remembers one place to go back to, the last
`*`.  That is enough, since every other glyph takes exactly one character: what an earlier `*`
could still do, the last one can do as well.  But a `%` is such a glyph too.  It takes one
character where it stands for any run of them, and only the wildcards that end a pattern may
be left over.
-/

namespace QuackMail.Imap

/-! ## `ImapWildMatch` -/

def wildcard (c : Byte) : Bool := c == ch '%' || c == ch '*'

/-- The glyph `pat[pi]` goes with the character `name[ni]`; a `%` does not with the delimiter. -/
def goesWith (c d : Byte) : Bool :=
  (c == d || wildcard c) && !(c == ch '%' && d == ch '/')

/-- The loop of `ImapWildMatch`: what is left of the pattern and of the name, and for the last
    `*` the pattern after it with the name from `star_n` on. -/
def wildLoop (p n : Bytes) (star : Option (Bytes × Bytes)) : Bool :=
  match n with
  | [] => p.all wildcard
  | d :: n' =>
    match _hp : p.head?.filter (goesWith · d) with
    | some c =>
      if c = ch '*' then wildLoop p.tail (d :: n') (some (p.tail, d :: n'))
      else wildLoop p.tail n' star
    | none =>
      match star with
      | none => false
      | some (after, []) => after.all wildcard
      | some (after, _ :: later) => wildLoop after later (some (after, later))
termination_by
  (max p.length ((star.map fun s => s.1.length).getD 0), (star.map fun s => s.2.length).getD 0,
    n.length)
decreasing_by
  · cases p with
    | nil => simp at _hp
    | cons c' p =>
      apply Prod.Lex.left
      simp only [List.tail_cons, List.length_cons, Option.map_some, Option.getD_some]
      omega
  · cases p with
    | nil => simp at _hp
    | cons c' p =>
      simp only [List.tail_cons, List.length_cons]
      generalize (star.map fun s => s.1.length).getD 0 = k
      rcases Nat.lt_or_eq_of_le (show max p.length k ≤ max (p.length + 1) k by omega) with h | h
      · exact Prod.Lex.left _ _ h
      · rw [h]
        exact Prod.Lex.right _ (Prod.Lex.right _ (Nat.lt_succ_self _))
  · simp only [Option.map_some, Option.getD_some, List.length_cons, Nat.max_self]
    rcases Nat.lt_or_eq_of_le (Nat.le_max_right p.length after.length) with h | h
    · exact Prod.Lex.left _ _ h
    · rw [← h]
      exact Prod.Lex.right _ (Prod.Lex.left _ _ (Nat.lt_succ_self _))

/-- `ImapWildMatch`. -/
def imapWildMatch (pat name : Bytes) : Bool := wildLoop pat name none

/-! ## What a pattern means -/

open Wildcards in
/-- A `*` stands for any string, a `%` for any string without the delimiter. -/
def glyph (c : Byte) : Piece Byte :=
  if c = ch '*' then .run fun _ => true
  else if c = ch '%' then .run fun d => d ≠ ch '/'
  else .literal fun d => d == c

/-- The name can be split according to the pattern. -/
def Matches (pat name : Bytes) : Prop := ∃ caps, Wildcards.Splits (pat.map glyph) name caps

/-- A split in which every `%` takes exactly one character; the wildcards at the end of the
    pattern may take none. -/
inductive Narrow : Bytes → Bytes → Prop where
  | trailing {p : Bytes} : p.all wildcard = true → Narrow p []
  | literal {c : Byte} {p n : Bytes} :
      wildcard c = false → Narrow p n → Narrow (c :: p) (c :: n)
  | percent {d : Byte} {p n : Bytes} : d ≠ ch '/' → Narrow p n → Narrow (ch '%' :: p) (d :: n)
  | star {u p n : Bytes} : Narrow p n → Narrow (ch '*' :: p) (u ++ n)

variable {n p : Bytes} {d : Byte}

theorem Narrow.matches (h : Narrow p n) : Matches p n := by
  induction h with
  | @trailing p hp =>
    induction p with
    | nil => exact ⟨[], .nil⟩
    | cons c p ih =>
      simp only [List.all_cons, Bool.and_eq_true] at hp
      obtain ⟨caps, hsplits⟩ := ih hp.2
      refine ⟨[] :: caps, ?_⟩
      rw [List.map_cons, glyph]
      simp only [wildcard, Bool.or_eq_true, beq_iff_eq] at hp
      split_ifs with hstar hpercent
      · exact .run (u := []) (by simp) hsplits
      · exact .run (u := []) (by simp) hsplits
      · exact absurd hp.1 (by simp [hstar, hpercent])
  | @literal c p n hc _ ih =>
    obtain ⟨caps, hsplits⟩ := ih
    simp only [wildcard, Bool.or_eq_false_iff, beq_eq_false_iff_ne] at hc
    refine ⟨caps, ?_⟩
    rw [List.map_cons, glyph, if_neg hc.2, if_neg hc.1]
    exact .literal (by simp) hsplits
  | @percent d p n hd _ ih =>
    obtain ⟨caps, hsplits⟩ := ih
    refine ⟨[d] :: caps, ?_⟩
    exact .run (u := [d]) (by simpa using hd) hsplits
  | @star u p n _ ih =>
    obtain ⟨caps, hsplits⟩ := ih
    refine ⟨u :: caps, ?_⟩
    exact .run (by simp) hsplits

/-! ## One glyph -/

theorem narrow_nil_iff : Narrow p [] ↔ p.all wildcard = true := by
  constructor
  · intro h
    generalize hn : ([] : Bytes) = n at h
    induction h with
    | trailing hp => exact hp
    | literal => cases hn
    | percent => cases hn
    | @star u p n _ ih =>
      have hnil : n = [] := (List.append_eq_nil_iff.mp hn.symm).2
      simpa [wildcard] using ih hnil.symm
  · exact .trailing

theorem narrow_star_iff : Narrow (ch '*' :: p) n ↔ ∃ k ≤ n.length, Narrow p (n.drop k) := by
  constructor
  · intro h
    cases h with
    | trailing hp => exact ⟨0, by simp, .trailing (by simpa [wildcard] using hp)⟩
    | literal hc _ => simp [wildcard] at hc
    | @star u _ n h => exact ⟨u.length, by simp, by simpa using h⟩
  · rintro ⟨k, hk, h⟩
    rw [← List.take_append_drop k n]
    exact .star h

/-- Every other glyph takes one character. -/
theorem narrow_cons_iff {c : Byte} (hc : c ≠ ch '*') :
    Narrow (c :: p) (d :: n) ↔ goesWith c d = true ∧ Narrow p n := by
  constructor
  · intro h
    generalize hm : d :: n = m at h
    cases h with
    | trailing => cases hm
    | literal hw h =>
      cases hm
      simp only [wildcard, Bool.or_eq_false_iff] at hw
      exact ⟨by simp [goesWith, hw.1], h⟩
    | percent hd h =>
      cases hm
      exact ⟨by simp [goesWith, wildcard, hd], h⟩
    | star => exact absurd rfl hc
  · rintro ⟨hgoes, h⟩
    by_cases hpercent : c = ch '%'
    · subst hpercent
      apply Narrow.percent _ h
      simpa [goesWith, wildcard] using hgoes
    · have hcd : c = d := by simpa [goesWith, wildcard, hc, hpercent] using hgoes
      subst hcd
      exact .literal (by simp [wildcard, hc, hpercent]) h

theorem not_narrow_nil : ¬ Narrow [] (d :: n) := fun h => by cases h

/-- A suffix of the name leaves more to a `*`. -/
theorem Narrow.of_suffix {m : Bytes} (h : Narrow (ch '*' :: p) m) (hsuffix : m <:+ n) :
    Narrow (ch '*' :: p) n := by
  obtain ⟨u, rfl⟩ := hsuffix
  cases h with
  | trailing hp =>
    exact .star (.trailing (by simpa [wildcard] using hp))
  | literal hc _ => simp [wildcard] at hc
  | @star u' _ n h =>
    rw [← List.append_assoc]
    exact .star h

/-! ## The loop -/

/-- A pattern without `*` in front takes one character for each glyph, or else the name ends in
    it and the rest of the pattern may be left over. -/
theorem Narrow.split {w m : Bytes} (hw : ch '*' ∉ w) (h : Narrow (w ++ p) m) :
    w.length ≤ m.length ∧ Narrow p (m.drop w.length) ∨
      m.length < w.length ∧ p.all wildcard = true := by
  induction w generalizing m with
  | nil => exact .inl ⟨Nat.zero_le _, h⟩
  | cons c w ih =>
    simp only [List.mem_cons, not_or] at hw
    cases m with
    | nil =>
      have hall := narrow_nil_iff.mp h
      simp only [List.cons_append, List.all_cons, List.all_append, Bool.and_eq_true] at hall
      exact .inr ⟨by simp, hall.2.2⟩
    | cons d m =>
      have hrest := ((narrow_cons_iff fun hc => hw.1 hc.symm).mp h).2
      simpa using ih hw.2 hrest

/-- The place to go back to: the glyphs between the last `*` and here took one character each. -/
def Anchored (p n : Bytes) (star : Option (Bytes × Bytes)) : Prop :=
  ∀ s ∈ star, ∃ w, ch '*' ∉ w ∧ s.1 = w ++ p ∧ w.length ≤ s.2.length ∧ n = s.2.drop w.length

/-- What going back may still find. -/
def Later (star : Option (Bytes × Bytes)) : Prop :=
  ∃ s ∈ star, ∃ k, 0 < k ∧ k ≤ s.2.length ∧ Narrow s.1 (s.2.drop k)

/-- At the end of the name going back finds nothing new. -/
theorem Later.nil {star : Option (Bytes × Bytes)} (hanchor : Anchored p [] star)
    (h : Later star) : Narrow p [] := by
  obtain ⟨s, hs, k, hpos, hk, hnarrow⟩ := h
  obtain ⟨w, hw, hsplit, hle, hend⟩ := hanchor s hs
  have hlength : s.2.length ≤ w.length := List.drop_eq_nil_iff.mp hend.symm
  rw [hsplit] at hnarrow
  obtain ⟨hlong, -⟩ | ⟨-, hall⟩ := hnarrow.split hw
  · rw [List.length_drop] at hlong
    omega
  · exact .trailing hall

/-- What an earlier `*` may still find, the one that is reached finds as well. -/
theorem Later.star {star : Option (Bytes × Bytes)}
    (hanchor : Anchored (ch '*' :: p) n star) (h : Later star) : Narrow (ch '*' :: p) n := by
  obtain ⟨s, hs, k, -, -, hnarrow⟩ := h
  obtain ⟨w, hw, hsplit, -, rfl⟩ := hanchor s hs
  rw [hsplit] at hnarrow
  obtain ⟨-, hrest⟩ | ⟨-, hall⟩ := hnarrow.split hw
  · apply hrest.of_suffix
    rw [List.drop_drop, Nat.add_comm, ← List.drop_drop]
    exact List.drop_suffix _ _
  · rw [narrow_star_iff]
    refine ⟨_, Nat.le_refl _, ?_⟩
    rw [List.drop_length, narrow_nil_iff]
    simpa [wildcard] using hall

theorem later_cons_iff {after later : Bytes} :
    Later (some (after, d :: later)) ↔ Narrow after later ∨ Later (some (after, later)) := by
  simp only [Later, Option.mem_def, Option.some.injEq, exists_eq_left']
  constructor
  · rintro ⟨k, hpos, hk, h⟩
    obtain ⟨k, rfl⟩ : ∃ j, k = j + 1 := ⟨k - 1, by omega⟩
    by_cases hzero : k = 0
    · subst hzero
      exact .inl h
    · exact .inr ⟨k, by omega, by simpa using hk, h⟩
  · rintro (h | ⟨k, hpos, hk, h⟩)
    · exact ⟨1, by omega, by simp, h⟩
    · exact ⟨k + 1, by omega, by simpa using hk, h⟩

theorem narrow_star_iff_later : Narrow (ch '*' :: p) n ↔ Narrow p n ∨ Later (some (p, n)) := by
  rw [narrow_star_iff]
  simp only [Later, Option.mem_def, Option.some.injEq, exists_eq_left']
  constructor
  · rintro ⟨k, hk, h⟩
    by_cases hzero : k = 0
    · subst hzero
      exact .inl h
    · exact .inr ⟨k, by omega, hk, h⟩
  · rintro (h | ⟨k, -, hk, h⟩)
    · exact ⟨0, Nat.zero_le _, h⟩
    · exact ⟨k, hk, h⟩

theorem wildLoop_goes {c : Byte} (hp : p.head?.filter (goesWith · d) = some c)
    (n : Bytes) (star : Option (Bytes × Bytes)) :
    wildLoop p (d :: n) star =
      if c = ch '*' then wildLoop p.tail (d :: n) (some (p.tail, d :: n))
      else wildLoop p.tail n star := by
  conv_lhs => rw [wildLoop.eq_def]
  simp only
  split
  · next hp' =>
    rw [hp] at hp'
    cases hp'
    rfl
  · next hp' =>
    rw [hp] at hp'
    cases hp'

theorem wildLoop_back (hp : p.head?.filter (goesWith · d) = none)
    (n : Bytes) (star : Option (Bytes × Bytes)) :
    wildLoop p (d :: n) star =
      match star with
      | none => false
      | some (after, []) => after.all wildcard
      | some (after, _ :: later) => wildLoop after later (some (after, later)) := by
  conv_lhs => rw [wildLoop.eq_def]
  simp only
  split
  · next hp' =>
    rw [hp] at hp'
    cases hp'
  · rfl

theorem eq_cons_of_goes {c : Byte} (hp : p.head?.filter (goesWith · d) = some c) :
    p = c :: p.tail ∧ goesWith c d = true := by
  cases p with
  | nil => simp at hp
  | cons c' p =>
    simp only [List.head?_cons, Option.filter_eq_some_iff, Option.some.injEq] at hp
    exact ⟨by rw [hp.1, List.tail_cons], hp.2⟩

/-- Where the glyph and the character do not go together there is nothing to find here. -/
theorem not_narrow_of_back (hp : p.head?.filter (goesWith · d) = none) : ¬ Narrow p (d :: n) := by
  cases p with
  | nil => exact not_narrow_nil
  | cons c p =>
    have hgoes : goesWith c d = false := by simpa using hp
    have hc : c ≠ ch '*' := by
      rintro rfl
      simp [goesWith, wildcard, ch] at hgoes
    intro h
    simp [((narrow_cons_iff hc).mp h).1] at hgoes

/-- The loop finds what is left of the pattern here, or the pattern after the last `*` at a
    later place. -/
theorem wildLoop_iff (p n : Bytes) (star : Option (Bytes × Bytes)) (hanchor : Anchored p n star) :
    wildLoop p n star = true ↔ Narrow p n ∨ Later star := by
  induction p, n, star using wildLoop.induct with
  | case1 p star =>
    rw [wildLoop, narrow_nil_iff.symm]
    exact ⟨.inl, fun h => h.elim id (·.nil hanchor)⟩
  | case2 p star d n' hp ih =>
    obtain ⟨hcons, -⟩ := eq_cons_of_goes hp
    rw [wildLoop_goes hp, if_pos rfl]
    have hanchor' : Anchored p.tail (d :: n') (some (p.tail, d :: n')) := by
      rintro s ⟨⟩
      exact ⟨[], by simp, rfl, by simp, rfl⟩
    rw [ih hanchor', ← narrow_star_iff_later, ← hcons]
    rw [hcons] at hanchor ⊢
    exact ⟨.inl, fun h => h.elim id (·.star hanchor)⟩
  | case3 p star d n' c hp hc ih =>
    obtain ⟨hcons, hgoes⟩ := eq_cons_of_goes hp
    rw [wildLoop_goes hp, if_neg hc]
    have hanchor' : Anchored p.tail n' star := by
      intro s hs
      obtain ⟨w, hw, hsplit, hle, hn⟩ := hanchor s hs
      have hlt : w.length < s.2.length := by
        by_contra hge
        rw [List.drop_eq_nil_of_le (by omega)] at hn
        cases hn
      refine ⟨w ++ [c], by simp [hw, Ne.symm hc], ?_, by simpa using Nat.succ_le_of_lt hlt, ?_⟩
      · rw [hsplit, List.append_assoc, List.singleton_append, ← hcons]
      · rw [List.length_append, List.length_singleton, ← List.drop_drop, ← hn, List.drop_succ_cons,
          List.drop_zero]
    rw [ih hanchor', hcons, narrow_cons_iff hc, List.tail_cons]
    simp [hgoes]
  | case4 p d n' hp =>
    rw [wildLoop_back hp]
    simp [not_narrow_of_back hp, Later]
  | case5 p d n' hp after =>
    obtain ⟨w, -, -, -, hn⟩ := hanchor _ rfl
    simp at hn
  | case6 p d n' hp after d' later ih =>
    have hanchor' : Anchored after later (some (after, later)) := by
      rintro s ⟨⟩
      exact ⟨[], by simp, rfl, by simp, rfl⟩
    rw [wildLoop_back hp]
    rw [ih hanchor', later_cons_iff]
    simp [not_narrow_of_back hp]

/-- `ImapWildMatch` takes every `%` for exactly one character. -/
theorem imapWildMatch_iff (pat name : Bytes) : imapWildMatch pat name = true ↔ Narrow pat name := by
  have hanchor : Anchored pat name none := fun s hs => by cases hs
  rw [imapWildMatch, wildLoop_iff pat name none hanchor]
  simp [Later]

/-- The match is right unless the name can be split only where some `%` has no character, or
    more than one. -/
theorem imapWildMatch_exact (pat name : Bytes) :
    (imapWildMatch pat name = true ↔ Matches pat name) ↔
      (Matches pat name → Narrow pat name) := by
  rw [imapWildMatch_iff]
  exact ⟨fun h => h.mpr, fun h => ⟨Narrow.matches, h⟩⟩

/-- `LIST "" %` does not show the inbox: after one character the pattern is used up. -/
theorem percent_misses_inbox :
    ¬ ∀ pat name : Bytes, imapWildMatch pat name = true ↔ Matches pat name := by
  intro h
  have hmatches : Matches (bytes "%") (bytes "INBOX") :=
    ⟨[bytes "INBOX"], .run (u := bytes "INBOX") (by decide +kernel) .nil⟩
  have hcode := (imapWildMatch_iff _ _).mp ((h _ _).mpr hmatches)
  have hpercent : ch '%' ≠ ch '*' := by decide
  exact not_narrow_nil ((narrow_cons_iff hpercent).mp hcode).2

end QuackMail.Imap
