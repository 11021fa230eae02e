import QuackMail.Net.Stream

/-! # What the reads give

Each read of a `ClientStream` is described by the rest of what the peer sends, without
the pieces it arrives in.  Only `ReadLine` can tell them apart: a line that is longer
than the limit may still be handed out when its end arrives with it.
-/

namespace QuackMail.Net

/-- `body` is the first line of `s`, without its line feed, and `tail` what follows. -/
structure FirstLine (s body tail : Bytes) : Prop where
  eq : s = body ++ ch '\n' :: tail
  clean : ch '\n' ∉ body

theorem findChar_some {c : Byte} : ∀ {s : Bytes} {p : Nat}, findChar c s = some p →
    c ∉ s.take p ∧ s = s.take p ++ c :: s.drop (p + 1) := by
  intro s
  induction s with
  | nil => exact fun h => by simp [findChar] at h
  | cons d s ih =>
    intro p h
    rw [findChar] at h
    split at h
    · next hd =>
      obtain rfl := Option.some.inj h
      simp [hd]
    · next hd =>
      obtain ⟨q, hq, rfl⟩ := Option.map_eq_some_iff.mp h
      obtain ⟨hclean, hsplit⟩ := ih hq
      refine ⟨?_, ?_⟩
      · rw [List.take_succ_cons, List.mem_cons, not_or]
        exact ⟨Ne.symm hd, hclean⟩
      · rw [List.take_succ_cons, List.drop_succ_cons, List.cons_append, ← hsplit]

theorem findChar_none {c : Byte} {s : Bytes} (h : findChar c s = none) : c ∉ s := by
  induction s with
  | nil => simp
  | cons d s ih =>
    rw [findChar] at h
    split at h
    · simp at h
    · next hd =>
      rw [List.mem_cons, not_or]
      exact ⟨Ne.symm hd, ih (Option.map_eq_none_iff.mp h)⟩

/-- A text has at most one first line. -/
theorem FirstLine.unique {s body tail body' tail' : Bytes} (h : FirstLine s body tail)
    (h' : FirstLine s body' tail') : body = body' ∧ tail = tail' :=
  append_cons_inj h.clean h'.clean (h.eq.symm.trans h'.eq)

theorem FirstLine.of_head {u v body tail : Bytes} (h : FirstLine (u ++ v) body tail)
    (hu : ch '\n' ∈ u) : ∃ tail', FirstLine u body tail' ∧ tail = tail' ++ v := by
  cases hfind : findChar (ch '\n') u with
  | none => exact absurd hu (findChar_none hfind)
  | some p =>
    obtain ⟨hclean, hsplit⟩ := findChar_some hfind
    have hline : FirstLine u (u.take p) (u.drop (p + 1)) := ⟨hsplit, hclean⟩
    have hboth : FirstLine (u ++ v) (u.take p) (u.drop (p + 1) ++ v) := by
      refine ⟨?_, hclean⟩
      conv_lhs => rw [hsplit]
      simp
    obtain ⟨rfl, rfl⟩ := h.unique hboth
    exact ⟨_, hline, rfl⟩

/-! ## Lines -/

/-- What `ReadLine` does: it hands out the first line, or refuses, and refuses only a line
    that is too long or has no end. -/
inductive LineRead (maxLen : Nat) (s : ClientStream) : ClientStream → Option Bytes → Prop
  | line {s' : ClientStream} {body : Bytes} (first : FirstLine (rest s) body (rest s'))
      (short : body.length < maxLen + chunkSize) : LineRead maxLen s s' (some (stripCr body))
  | refused {s' : ClientStream} (same : rest s' = rest s)
      (long : ∀ body tail, FirstLine (rest s) body tail → maxLen < body.length) :
      LineRead maxLen s s' none

/-- The buffer within the loop: a line feed came with the last result, and what was there
    before it is within the limit. -/
def Filling (maxLen : Nat) (s : ClientStream) : Prop :=
  ch '\n' ∈ unread s → ∃ old chunk, unread s = old ++ chunk ∧ ch '\n' ∉ old ∧
    old.length ≤ maxLen ∧ chunk.length ≤ chunkSize

theorem readLineLoop_spec {maxLen : Nat} :
    ∀ (fuel : Nat) (s : ClientStream), s.pending.length < fuel → Received s.pending →
      Filling maxLen s →
      LineRead maxLen s (readLineLoop maxLen fuel s).1 (readLineLoop maxLen fuel s).2 ∧
        Steady (readLineLoop maxLen fuel s).1 := by
  intro fuel
  induction fuel with
  | zero => exact fun s h => absurd h (Nat.not_lt_zero _)
  | succ fuel ih =>
    intro s hfuel hreceived hfilling
    rw [readLineLoop, findCharFrom, show s.rbuf.drop s.rpos = unread s from rfl, ← length_unread]
    cases hfind : findChar (ch '\n') (unread s) with
    | some p =>
      obtain ⟨hclean, hsplit⟩ := findChar_some hfind
      simp only [Option.map_some, Nat.add_sub_cancel]
      have hafter : unread { s with rpos := p + s.rpos + 1 } = (unread s).drop (p + 1) := by
        simp only [unread, List.drop_drop]
        congr 1
        omega
      have hmem : ch '\n' ∈ unread s := by
        rw [hsplit]
        simp
      have hp := findChar_lt hfind
      -- the line feed is in the last result
      obtain ⟨old, chunk, hbuf, hold, holdlen, hchunk⟩ := hfilling hmem
      have hpos : old.length ≤ p := by
        by_contra hlt
        have hin : ch '\n' ∈ old := by
          have hget : (unread s)[p]? = some (ch '\n') := by
            rw [hsplit, List.getElem?_append_right (by rw [List.length_take]; omega)]
            simp [Nat.min_eq_left hp.le]
          rw [hbuf, List.getElem?_append_left (by omega)] at hget
          exact List.mem_of_getElem? hget
        exact hold hin
      have hbuflen : (unread s).length = old.length + chunk.length := by
        rw [hbuf, List.length_append]
      refine ⟨.line ⟨?_, hclean⟩ ?_, hreceived, fun _ => ?_⟩
      · rw [rest, rest, hafter]
        conv_lhs => rw [hsplit]
        simp
      · rw [List.length_take]
        omega
      · rw [hafter, List.length_drop]
        omega
    | none =>
      have hclean := findChar_none hfind
      simp only [Option.map_none]
      by_cases hlong : (unread s).length > maxLen
      · rw [if_pos hlong]
        refine ⟨.refused rfl fun body tail hline => ?_, hreceived, fun h => absurd h hclean⟩
        -- the end of the line, if it has one, is behind the buffer
        by_contra hle
        have hpre : body ++ [ch '\n'] <+: unread s := by
          refine @List.prefix_of_prefix_length_le _ _ _ (rest s) ?_ (List.prefix_append _ _) ?_
          · rw [hline.eq]
            exact ⟨tail, by simp⟩
          · rw [List.length_append, List.length_singleton]
            omega
        exact hclean (hpre.subset (by simp))
      · rw [if_neg hlong]
        cases hfill : fillBuffer s with
        | mk s' more =>
          have hrest := rest_fillBuffer s
          rw [hfill] at hrest
          cases more with
          | false =>
            obtain ⟨hpending, hunread, hpending'⟩ := fillBuffer_false hfill
            refine ⟨.refused hrest fun body tail hline => ?_, ?_, fun h => ?_⟩
            · have hall : rest s = unread s := by
                rw [rest, hpending]
                simp
              have hmem : ch '\n' ∈ rest s := by
                rw [hline.eq]
                simp
              rw [hall] at hmem
              exact absurd hmem hclean
            · simp only [hpending']
              intro chunk hchunk
              simp at hchunk
            · simp only [hunread] at h
              exact absurd h hclean
          | true =>
            obtain ⟨chunk, hpending, hunread⟩ := fillBuffer_true hfill
            have hreceived' : Received s'.pending := fun c hc =>
              hreceived c (by rw [hpending]; exact List.mem_cons_of_mem _ hc)
            have hchunk := (hreceived chunk (by rw [hpending]; exact List.mem_cons_self)).2
            obtain ⟨hout, hsteady⟩ := ih s' (by rw [hpending] at hfuel; simpa using hfuel)
              hreceived' fun _ => ⟨unread s, chunk, hunread, hclean, by omega, hchunk⟩
            refine ⟨?_, hsteady⟩
            simp only at hrest ⊢
            revert hout
            generalize readLineLoop maxLen fuel s' = r
            obtain ⟨s'', answer⟩ := r
            intro hout
            cases hout with
            | line hfirst hshort => exact .line (hrest ▸ hfirst) hshort
            | refused hsame hlong => exact .refused (hsame.trans hrest) (hrest ▸ hlong)

variable {s : ClientStream}

theorem readLine_spec (maxLen : Nat) (h : Steady s) :
    LineRead maxLen s (readLine maxLen s).1 (readLine maxLen s).2 ∧
      Steady (readLine maxLen s).1 :=
  readLineLoop_spec _ s (Nat.lt_succ_self _) h.received fun hmem =>
    ⟨[], unread s, rfl, by simp, Nat.zero_le _, h.fresh hmem⟩

/-! ## Bytes -/

theorem readByteLoop_spec : ∀ (fuel : Nat) (s : ClientStream), s.pending.length < fuel → Steady s →
      (readByteLoop fuel s).2 = (rest s).head? ∧
        rest (readByteLoop fuel s).1 = (rest s).drop 1 ∧ Steady (readByteLoop fuel s).1 := by
  intro fuel
  induction fuel with
  | zero => exact fun s h => absurd h (Nat.not_lt_zero _)
  | succ fuel ih =>
    intro s hfuel hsteady
    have hget : s.rbuf[s.rpos]? = (unread s).head? := by
      rw [unread, List.head?_drop]
    rw [readByteLoop, hget]
    cases hhead : (unread s).head? with
    | some c =>
      obtain ⟨t, ht⟩ := List.head?_eq_some_iff.mp hhead
      have hafter : unread { s with rpos := s.rpos + 1 } = t := by
        rw [unread_advance, ht]
        rfl
      refine ⟨?_, ?_, hsteady.received, fun h => ?_⟩
      · rw [rest, ht]
        rfl
      · rw [rest, hafter, rest, ht]
        rfl
      · simp only [hafter] at h ⊢
        have := hsteady.fresh (by rw [ht]; exact List.mem_cons_of_mem _ h)
        rw [ht, List.length_cons] at this
        omega
    | none =>
      have hempty : unread s = [] := List.head?_eq_none_iff.mp hhead
      cases hfill : fillBuffer s with
      | mk s' more =>
        have hrest := rest_fillBuffer s
        rw [hfill] at hrest
        cases more with
        | false =>
          obtain ⟨hpending, hunread, hpending'⟩ := fillBuffer_false hfill
          have hnil : rest s = [] := by
            rw [rest, hempty, hpending]
            rfl
          simp only [hnil, hrest, List.head?_nil, List.drop_nil, true_and]
          exact ⟨by simp [Received, hpending'], by simp [hunread, hempty]⟩
        | true =>
          obtain ⟨chunk, hpending, hunread⟩ := fillBuffer_true hfill
          have hchunk := hsteady.received chunk (by rw [hpending]; exact List.mem_cons_self)
          obtain ⟨hout, hafter, hsteady'⟩ := ih s' (by rw [hpending] at hfuel; simpa using hfuel)
            ⟨fun c hc => hsteady.received c (by rw [hpending]; exact List.mem_cons_of_mem _ hc),
              fun _ => by rw [hunread, hempty]; simpa using hchunk.2⟩
          rw [hrest] at hout hafter
          exact ⟨hout, hafter, hsteady'⟩

theorem readByte_spec (h : Steady s) :
    (readByte s).2 = (rest s).head? ∧ rest (readByte s).1 = (rest s).drop 1 ∧
      Steady (readByte s).1 :=
  readByteLoop_spec _ s (Nat.lt_succ_self _) h

/-- Taking bytes off the buffer keeps it steady. -/
theorem Steady.advance (h : Steady s) (n : Nat) : Steady { s with rpos := s.rpos + n } := by
  refine ⟨h.received, fun hmem => ?_⟩
  rw [unread_advance] at hmem ⊢
  have := h.fresh (List.mem_of_mem_drop hmem)
  rw [List.length_drop]
  omega

theorem rest_advance {n : Nat} (h : n ≤ (unread s).length) :
    rest { s with rpos := s.rpos + n } = (rest s).drop n := by
  rw [rest, unread_advance, rest, List.drop_append_of_le_length h]

/-- What is available is a piece from the front of the rest. -/
theorem readAvailable_spec (maxBytes : Nat) (h : Steady s) :
    ∃ n, rest (readAvailable maxBytes s).1 = (rest s).drop n ∧
      (∀ out, (readAvailable maxBytes s).2 = some out → out = (rest s).take n) ∧
      Steady (readAvailable maxBytes s).1 := by
  have htake : ∀ t : ClientStream, Steady t →
      rest { t with rpos := t.rpos + min maxBytes (t.rbuf.length - t.rpos) } =
        (rest t).drop (min maxBytes (unread t).length) ∧
      (unread t).take (min maxBytes (unread t).length) =
        (rest t).take (min maxBytes (unread t).length) ∧
      Steady { t with rpos := t.rpos + min maxBytes (t.rbuf.length - t.rpos) } := by
    intro t ht
    rw [← length_unread]
    exact ⟨rest_advance (Nat.min_le_right _ _),
      (List.take_append_of_le_length (Nat.min_le_right _ _)).symm, ht.advance _⟩
  unfold readAvailable
  by_cases hempty : s.rpos ≥ s.rbuf.length
  · simp only [if_pos hempty]
    cases hfill : fillBuffer s with
    | mk s' more =>
      have hrest := rest_fillBuffer s
      rw [hfill] at hrest
      cases more with
      | false =>
        obtain ⟨-, hunread, hpending'⟩ := fillBuffer_false hfill
        refine ⟨0, by simpa using hrest, by simp, ?_⟩
        refine ⟨by simp [Received, hpending'], fun hmem => ?_⟩
        simp only [hunread] at hmem ⊢
        exact h.fresh hmem
      | true =>
        obtain ⟨chunk, hpending, hunread⟩ := fillBuffer_true hfill
        have hnil : unread s = [] := List.drop_eq_nil_of_le hempty
        have hchunk := h.received chunk (by rw [hpending]; exact List.mem_cons_self)
        have hsteady' : Steady s' :=
          ⟨fun c hc => h.received c (by rw [hpending]; exact List.mem_cons_of_mem _ hc),
            fun _ => by rw [hunread, hnil]; simpa using hchunk.2⟩
        obtain ⟨hafter, hout, hsteady''⟩ := htake s' hsteady'
        refine ⟨_, by rw [← hrest]; exact hafter, ?_, hsteady''⟩
        intro out h
        simp only [Option.some.injEq] at h
        rw [← h, ← hrest, ← length_unread]
        exact hout
  · simp only [if_neg hempty]
    obtain ⟨hafter, hout, hsteady''⟩ := htake s h
    refine ⟨_, hafter, ?_, hsteady''⟩
    intro out h
    simp only [Option.some.injEq] at h
    rw [← h, ← length_unread]
    exact hout

/-- One round of `ReadN` on a buffer that is not empty: what is taken, and that either the
    count or the buffer is used up. -/
theorem readN_take {n : Nat} {out : Bytes} (h : Steady s) (hout : out.length < n)
    {take : Nat} (htake : take = min (n - out.length) (s.rbuf.length - s.rpos)) :
    let s' := { s with rpos := s.rpos + take }
    let out' := out ++ (s.rbuf.drop s.rpos).take take
    Steady s' ∧ out'.length ≤ n ∧ rest s' = (rest s).drop take ∧
      out' ++ (rest s').take (n - out'.length) = out ++ (rest s).take (n - out.length) ∧
      out'.length + (rest s').length = out.length + (rest s).length ∧
      (rest s').drop (n - out'.length) = (rest s).drop (n - out.length) ∧
      (out'.length < n → unread s' = []) := by
  intro s' out'
  have hbuflen := length_unread s
  have hle : take ≤ (unread s).length := by omega
  have hrestlen : (rest s).length = (unread s).length + s.pending.flatten.length := by
    rw [rest, List.length_append]
  have hout' : out' = out ++ (rest s).take take := by
    simp only [out', rest, unread] at hle ⊢
    rw [List.take_append_of_le_length hle]
  have hlen : out'.length = out.length + take := by
    rw [hout', List.length_append, List.length_take]
    omega
  have hrest : rest s' = (rest s).drop take := rest_advance hle
  refine ⟨h.advance take, by omega, hrest, ?_, ?_, ?_, ?_⟩
  · rw [hout', hrest, List.append_assoc, ← hout', hlen,
      show n - (out.length + take) = n - out.length - take by omega,
      ← List.take_add, show take + (n - out.length - take) = n - out.length by omega]
  · rw [hlen, hrest, List.length_drop]
    omega
  · rw [hrest, hlen, List.drop_drop]
    congr 1
    omega
  · intro hlt
    rw [show unread s' = (unread s).drop take from unread_advance s take]
    exact List.drop_eq_nil_of_le (by omega)

theorem readNLoop_spec {n : Nat} :
    ∀ (fuel : Nat) (out : Bytes) (s : ClientStream), Steady s → out.length ≤ n → 0 < fuel →
      (out.length < n → s.pending.length + (if unread s = [] then 0 else 1) < fuel) →
      (readNLoop n fuel out s).2 =
        (decide (n ≤ out.length + (rest s).length), out ++ (rest s).take (n - out.length)) ∧
      rest (readNLoop n fuel out s).1 = (rest s).drop (n - out.length) ∧
      Steady (readNLoop n fuel out s).1 := by
  intro fuel
  induction fuel with
  | zero => exact fun _ _ _ _ h => absurd h (Nat.lt_irrefl _)
  | succ fuel ih =>
    intro out s hsteady hle _ hfuel
    rw [readNLoop]
    by_cases hout : out.length < n
    swap
    · rw [if_neg hout, show n - out.length = 0 by omega]
      simp only [List.take_zero, List.append_nil, List.drop_zero, Prod.mk.injEq, and_true]
      exact ⟨(decide_eq_true (by omega)).symm, trivial, hsteady⟩
    rw [if_pos hout]
    -- one round takes from a buffer that is not empty
    have hround : ∀ t : ClientStream, Steady t → unread t ≠ [] → rest t = rest s →
        t.pending.length < fuel →
        (readNLoop n fuel (out ++ (t.rbuf.drop t.rpos).take
            (min (n - out.length) (t.rbuf.length - t.rpos)))
          { t with rpos := t.rpos + min (n - out.length) (t.rbuf.length - t.rpos) }).2 =
            (decide (n ≤ out.length + (rest s).length), out ++ (rest s).take (n - out.length)) ∧
          rest (readNLoop n fuel (out ++ (t.rbuf.drop t.rpos).take
            (min (n - out.length) (t.rbuf.length - t.rpos)))
          { t with rpos := t.rpos + min (n - out.length) (t.rbuf.length - t.rpos) }).1 =
            (rest s).drop (n - out.length) ∧
          Steady (readNLoop n fuel (out ++ (t.rbuf.drop t.rpos).take
            (min (n - out.length) (t.rbuf.length - t.rpos)))
          { t with rpos := t.rpos + min (n - out.length) (t.rbuf.length - t.rpos) }).1 := by
      intro t ht hne hrest hpending
      obtain ⟨hsteady', hle', -, houtEq, hlenEq, hdropEq, hempty⟩ :=
        readN_take ht hout rfl
      obtain ⟨hval, hafter, hst⟩ := ih _ _ hsteady' hle' (by omega) (fun hlt => by
        rw [if_pos (hempty hlt)]
        exact hpending)
      rw [houtEq, hlenEq, hrest] at hval
      rw [hdropEq, hrest] at hafter
      exact ⟨hval, hafter, hst⟩
    by_cases hempty : s.rpos ≥ s.rbuf.length
    · have hnil : unread s = [] := List.drop_eq_nil_of_le hempty
      have hfuel' := hfuel hout
      simp only [if_pos hempty]
      cases hfill : fillBuffer s with
      | mk s' more =>
        have hrest := rest_fillBuffer s
        rw [hfill] at hrest
        cases more with
        | false =>
          obtain ⟨hpending, hunread, hpending'⟩ := fillBuffer_false hfill
          have hrestNil : rest s = [] := by
            rw [rest, hnil, hpending]
            rfl
          simp only [hrestNil, hrest, List.length_nil, List.take_nil, List.append_nil,
            List.drop_nil, Prod.mk.injEq, and_true, true_and]
          exact ⟨(decide_eq_false (by omega)).symm, by simp [Received, hpending'],
            by simp [hunread, hnil]⟩
        | true =>
          obtain ⟨chunk, hpending, hunread⟩ := fillBuffer_true hfill
          have hchunk := hsteady.received chunk (by rw [hpending]; exact List.mem_cons_self)
          rw [hnil, List.nil_append] at hunread
          refine hround s' ⟨fun c hc => hsteady.received c ?_, fun _ => by rw [hunread]; exact hchunk.2⟩
            (by rw [hunread]; exact hchunk.1) hrest ?_
          · rw [hpending]
            exact List.mem_cons_of_mem _ hc
          · rw [hpending, List.length_cons] at hfuel'
            omega
    · have hne : unread s ≠ [] := by
        rw [unread, ne_eq, List.drop_eq_nil_iff]
        omega
      have hfuel' := hfuel hout
      rw [if_neg hne] at hfuel'
      simp only [if_neg hempty]
      exact hround s hsteady hne rfl (by omega)

/-- `ReadN` gives the next `n` bytes, or all there are. -/
theorem readN_spec (n : Nat) (h : Steady s) :
    (readN n s).2 = (decide (n ≤ (rest s).length), (rest s).take n) ∧
      rest (readN n s).1 = (rest s).drop n ∧ Steady (readN n s).1 := by
  have hspec := readNLoop_spec (n := n) (s.pending.length + 2) [] s h (Nat.zero_le _) (by omega)
    (fun _ => by split <;> omega)
  simpa [readN] using hspec

end QuackMail.Net
