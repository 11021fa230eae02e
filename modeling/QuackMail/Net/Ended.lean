import QuackMail.Net.Reads

/-! # Streams that have ended

A stream that was refused a line, because the line is too long or the peer has stopped, is
refused every line from then on.  A read of what is available gives at least one byte, or the
peer has stopped.
-/

namespace QuackMail.Net

/-- No line is to be had: what is buffered has no line feed, and is already too long for a
    line or has nothing behind it. -/
structure Ended (maxLen : Nat) (s : ClientStream) : Prop where
  clean : ch '\n' ∉ unread s
  exhausted : maxLen < (unread s).length ∨ s.pending = []

theorem unread_length (s : ClientStream) : (unread s).length = s.rbuf.length - s.rpos := by
  simp [unread]

variable {s : ClientStream} {maxLen : Nat}

theorem findCharFrom_unread (h : ch '\n' ∉ unread s) :
    findCharFrom (ch '\n') s.rbuf s.rpos = none := by
  have hnone : findChar (ch '\n') (unread s) = none := by
    cases hfind : findChar (ch '\n') (unread s) with
    | none => rfl
    | some p =>
      obtain ⟨-, hsplit⟩ := findChar_some hfind
      refine absurd ?_ h
      rw [hsplit]
      exact List.mem_append_right _ List.mem_cons_self
  rw [findCharFrom, show s.rbuf.drop s.rpos = unread s from rfl, hnone]
  rfl

/-- A stream that has ended gives no line, and stays so. -/
theorem readLine_ended (h : Ended maxLen s) :
    (readLine maxLen s).2 = none ∧ Ended maxLen (readLine maxLen s).1 := by
  rw [readLine, readLineLoop, findCharFrom_unread h.clean]
  dsimp only
  split
  · exact ⟨rfl, h⟩
  · next hshort =>
    have hpending : s.pending = [] := by
      rcases h.exhausted with hlong | hnone
      · rw [unread_length] at hlong
        exact absurd hlong hshort
      · exact hnone
    have hfill : fillBuffer s = (⟨s.rbuf.drop s.rpos, 0, []⟩, false) := by
      rw [fillBuffer, hpending]
    rw [hfill]
    exact ⟨rfl, h.clean, .inr rfl⟩

/-- A stream that is refused a line has ended. -/
theorem ended_of_readLineLoop : ∀ (fuel : Nat) {s : ClientStream}, s.pending.length < fuel →
      (readLineLoop maxLen fuel s).2 = none → Ended maxLen (readLineLoop maxLen fuel s).1 := by
  intro fuel
  induction fuel with
  | zero => exact fun h => absurd h (Nat.not_lt_zero _)
  | succ fuel ih =>
    intro s hfuel hnone
    rw [readLineLoop] at hnone ⊢
    cases hfind : findCharFrom (ch '\n') s.rbuf s.rpos with
    | some p =>
      rw [hfind] at hnone
      cases hnone
    | none =>
      rw [hfind] at hnone
      dsimp only at hnone ⊢
      have hclean : ch '\n' ∉ unread s := findChar_none (Option.map_eq_none_iff.mp hfind)
      by_cases hlong : s.rbuf.length - s.rpos > maxLen
      · rw [if_pos hlong]
        exact ⟨hclean, .inl (by rwa [unread_length])⟩
      · rw [if_neg hlong] at hnone ⊢
        cases hfill : fillBuffer s with
        | mk s' more =>
          rw [hfill] at hnone
          cases more with
          | false =>
            obtain ⟨-, hunread, hpending⟩ := fillBuffer_false hfill
            exact ⟨by rwa [hunread], .inr hpending⟩
          | true =>
            obtain ⟨chunk, hpending, -⟩ := fillBuffer_true hfill
            exact ih (by rw [hpending] at hfuel; simpa using hfuel) hnone

theorem ended_of_readLine (h : (readLine maxLen s).2 = none) : Ended maxLen (readLine maxLen s).1 :=
  ended_of_readLineLoop _ (Nat.lt_succ_self _) h

/-! ## What is available -/

/-- What is taken off a buffer that is not empty. -/
theorem take_unread {maxBytes : Nat} (hmax : 0 < maxBytes) (h : Steady s)
    (hne : unread s ≠ []) {n : Nat} (hn : n = min maxBytes (s.rbuf.length - s.rpos)) :
    let out := (s.rbuf.drop s.rpos).take n
    let s' : ClientStream := { s with rpos := s.rpos + n }
    0 < out.length ∧ out.length ≤ maxBytes ∧ rest s = out ++ rest s' ∧ Steady s' := by
  intro out s'
  have hpos := List.length_pos_of_ne_nil hne
  have hlen := unread_length s
  have hout : out = (unread s).take n := rfl
  have houtlen : out.length = n := by
    rw [hout, List.length_take]
    omega
  refine ⟨by omega, by omega, ?_, h.advance n⟩
  have hunread : unread s' = (unread s).drop n := unread_advance s n
  rw [rest, rest, hunread, hout, ← List.append_assoc, List.take_append_drop]

theorem readAvailable_some {maxBytes : Nat} (hmax : 0 < maxBytes) {s' : ClientStream}
    (h : Steady s) {out : Bytes} (hread : readAvailable maxBytes s = (s', some out)) :
    0 < out.length ∧ out.length ≤ maxBytes ∧ rest s = out ++ rest s' ∧ Steady s' := by
  rw [readAvailable] at hread
  dsimp only at hread
  by_cases hempty : s.rpos ≥ s.rbuf.length
  · rw [if_pos hempty] at hread
    have hnil : unread s = [] := List.drop_eq_nil_of_le hempty
    cases hfill : fillBuffer s with
    | mk t more =>
      rw [hfill] at hread
      cases more with
      | false => cases hread
      | true =>
        obtain ⟨chunk, hpending, hunread⟩ := fillBuffer_true hfill
        have hchunk := h.received chunk (by rw [hpending]; exact List.mem_cons_self)
        rw [hnil, List.nil_append] at hunread
        have hsteady : Steady t :=
          ⟨fun c hc => h.received c (by rw [hpending]; exact List.mem_cons_of_mem _ hc),
            fun _ => by rw [hunread]; exact hchunk.2⟩
        have hrest := rest_fillBuffer s
        rw [hfill] at hrest
        obtain ⟨rfl, hout⟩ := Prod.mk.inj hread
        obtain rfl := Option.some.inj hout
        rw [← hrest]
        exact take_unread hmax hsteady (by rw [hunread]; exact hchunk.1) rfl
  · rw [if_neg hempty] at hread
    obtain ⟨rfl, hout⟩ := Prod.mk.inj hread
    obtain rfl := Option.some.inj hout
    refine take_unread hmax h (fun hnil => ?_) rfl
    have hle := List.drop_eq_nil_iff.mp hnil
    exact hempty hle

/-- Where nothing is available the peer has stopped. -/
theorem ended_of_readAvailable {maxBytes : Nat} {s' : ClientStream}
    (hread : readAvailable maxBytes s = (s', none)) : Ended maxLen s' ∧ Steady s' := by
  rw [readAvailable] at hread
  dsimp only at hread
  by_cases hempty : s.rpos ≥ s.rbuf.length
  · rw [if_pos hempty] at hread
    have hnil : unread s = [] := List.drop_eq_nil_of_le hempty
    cases hfill : fillBuffer s with
    | mk t more =>
      rw [hfill] at hread
      cases more with
      | true => cases hread
      | false =>
        obtain ⟨-, hunread, hpending⟩ := fillBuffer_false hfill
        obtain ⟨rfl, -⟩ := Prod.mk.inj hread
        have hclean : ch '\n' ∉ unread t := by
          rw [hunread, hnil]
          exact List.not_mem_nil
        refine ⟨⟨hclean, .inr hpending⟩, ⟨?_, fun h => absurd h hclean⟩⟩
        rw [hpending]
        intro chunk hchunk
        cases hchunk
  · rw [if_neg hempty] at hread
    cases hread

end QuackMail.Net
