import QuackMail.Imap.Command
import QuackMail.Net.Segments

/-! # STARTTLS

After the handshake the stream reads what was decrypted, but the buffer is the one from
before.  A session is told what the decrypted bytes say exactly where the buffer was
empty when the handshake began.
-/

namespace QuackMail.Imap

open Net

/-- `ClientStream::StartTls` where the handshake succeeds: from now on the reads give
    `decrypted`. -/
def startTls (s : ClientStream) (decrypted : List Bytes) : ClientStream :=
  { s with pending := decrypted }

section Empty

variable {s t : ClientStream} (hs : unread s = []) (ht : unread t = [])
  (hpending : s.pending = t.pending)
include hs ht hpending

theorem fillBuffer_empty : fillBuffer s = fillBuffer t := by
  have hs' : s.rbuf.drop s.rpos = [] := hs
  have ht' : t.rbuf.drop t.rpos = [] := ht
  rw [fillBuffer, fillBuffer, hpending, hs', ht']

/-- Two streams with nothing in their buffers and the same to come cannot be told apart. -/
theorem call_empty (c : Call) :
    (call s c).2 = (call t c).2 ∧
      ((call s c).1 = (call t c).1 ∨
        unread (call s c).1 = [] ∧ unread (call t c).1 = [] ∧
          (call s c).1.pending = (call t c).1.pending) := by
  have hfill := fillBuffer_empty hs ht hpending
  have hs' : s.rbuf.drop s.rpos = [] := hs
  have ht' : t.rbuf.drop t.rpos = [] := ht
  have hsle : s.rbuf.length ≤ s.rpos := List.drop_eq_nil_iff.mp hs'
  have htle : t.rbuf.length ≤ t.rpos := List.drop_eq_nil_iff.mp ht'
  cases c with
  | readLine maxLen =>
    have hline : readLine maxLen s = readLine maxLen t := by
      rw [readLine, readLine, hpending, readLineLoop, readLineLoop, findCharFrom, findCharFrom, hs',
        ht', findChar, Option.map_none]
      simp only
      rw [show s.rbuf.length - s.rpos = 0 by omega, show t.rbuf.length - t.rpos = 0 by omega, hfill]
      rfl
    exact ⟨by rw [call, call, hline], .inl (by rw [call, call, hline])⟩
  | readByte =>
    have hbyte : readByte s = readByte t := by
      rw [readByte, readByte, hpending, readByteLoop, readByteLoop, List.getElem?_eq_none hsle,
        List.getElem?_eq_none htle, hfill]
    exact ⟨by rw [call, call, hbyte], .inl (by rw [call, call, hbyte])⟩
  | readN n =>
    by_cases hn : n = 0
    · subst hn
      have hzero : ∀ s : ClientStream, readN 0 s = (s, true, []) := by
        intro s
        rw [readN, readNLoop, if_neg (by simp)]
      simp only [call, hzero, true_and]
      exact .inr ⟨hs, ht, hpending⟩
    · have hpos : ([] : Bytes).length < n := Nat.pos_of_ne_zero hn
      have hdata : readN n s = readN n t := by
        rw [readN, readN, hpending, readNLoop, readNLoop, if_pos hpos, if_pos hpos]
        simp only
        rw [if_pos hsle, if_pos htle, hfill]
      exact ⟨by rw [call, call, hdata], .inl (by rw [call, call, hdata])⟩
  | readAvailable maxBytes =>
    have havail : readAvailable maxBytes s = readAvailable maxBytes t := by
      rw [readAvailable, readAvailable]
      simp only
      rw [if_pos hsle, if_pos htle, hfill]
    exact ⟨by rw [call, call, havail], .inl (by rw [call, call, havail])⟩

end Empty

/-- The lines a session reads, `none` where it is refused one or there is no more. -/
def linesRead (maxLen : Nat) : Nat → ClientStream → List (Option Bytes)
  | 0, _ => []
  | n + 1, s => (readLine maxLen s).2 :: linesRead maxLen n (readLine maxLen s).1

theorem linesRead_empty {s t : ClientStream} (hs : unread s = []) (ht : unread t = [])
    (hpending : s.pending = t.pending) (maxLen n : Nat) :
    linesRead maxLen n s = linesRead maxLen n t := by
  induction n generalizing s t with
  | zero => rfl
  | succ n ih =>
    obtain ⟨hanswer, hnext⟩ := call_empty hs ht hpending (.readLine maxLen)
    simp only [call, Answer.line.injEq] at hanswer hnext
    rw [linesRead, linesRead, hanswer]
    rcases hnext with hsame | ⟨hs', ht', hpending'⟩
    · rw [hsame]
    · rw [ih hs' ht' hpending']

/-- The longest line `HandleImap` reads. -/
def maxLine : Nat := 65536

theorem linesRead_x :
    linesRead maxLine 2 (connect [bytes "x\n"]) = [some (bytes "x"), none] := by
  decide

/-- What is left of a steady stream behind a line in its buffer has another line when a
    short one follows. -/
theorem linesRead_ne_of_unread {s : ClientStream} (hsteady : Steady s) (h : unread s ≠ []) :
    linesRead maxLine 2 (startTls s [bytes "x\n"]) ≠ [some (bytes "x"), none] := by
  have hrest : rest (startTls s [bytes "x\n"]) = unread s ++ bytes "x\n" := by
    simp [rest, startTls, unread]
  have hsteady' : Steady (startTls s [bytes "x\n"]) :=
    ⟨(by unfold Received; decide : Received [bytes "x\n"]), hsteady.fresh⟩
  obtain ⟨hread, hsteady₁⟩ := readLine_spec maxLine hsteady'
  rw [linesRead, linesRead, linesRead]
  revert hread hsteady₁
  generalize readLine maxLine (startTls s [bytes "x\n"]) = r
  obtain ⟨s₁, answer⟩ := r
  intro hread hsteady₁ heq
  simp only [List.cons.injEq, and_true] at heq hsteady₁
  obtain ⟨hfirst_eq, hsecond_eq⟩ := heq
  obtain ⟨hread₁, -⟩ := readLine_spec maxLine hsteady₁
  rw [hsecond_eq] at hread₁
  simp only at hread
  cases hread with
  | refused _ _ => simp at hfirst_eq
  | @line body hfirst hshort =>
    rw [hrest] at hfirst
    by_cases hmem : ch '\n' ∈ unread s
    · -- the buffer held a whole line, so there is a second one in front of the decrypted text
      obtain ⟨tail, hline, htail⟩ := hfirst.of_head hmem
      have hlen := hsteady.fresh hmem
      rw [hline.eq, List.length_append, List.length_cons] at hlen
      have hnext : ch '\n' ∈ rest s₁ := by
        rw [htail]
        exact List.mem_append_right _ (by decide)
      cases hfind : findChar (ch '\n') (rest s₁) with
      | none => exact absurd hnext (findChar_none hfind)
      | some p =>
        obtain ⟨hclean, hsplit⟩ := findChar_some hfind
        have hlong : maxLine < ((rest s₁).take p).length := by
          generalize readLine maxLine s₁ = r at hread₁
          obtain ⟨s₂, answer⟩ := r
          cases hread₁ with
          | refused _ hlong => exact hlong _ _ ⟨hsplit, hclean⟩
        have hall : (rest s₁).length = tail.length + 2 := by
          rw [htail, List.length_append]
          rfl
        rw [List.length_take] at hlong
        have hmax : maxLine = 65536 := rfl
        have hsize : chunkSize = 8192 := rfl
        omega
    · -- the buffer is the front of the first decrypted line
      have hline : FirstLine (unread s ++ bytes "x\n") (unread s ++ bytes "x") [] := by
        refine ⟨by simp [bytes], fun hin => ?_⟩
        rcases List.mem_append.mp hin with hin | hin
        · exact hmem hin
        · exact absurd hin (by decide)
      obtain ⟨rfl, -⟩ := hfirst.unique hline
      have hlast : (unread s ++ bytes "x").getLast? = some (ch 'x') := by simp [bytes]
      have hx : ¬some (ch 'x') = some (ch '\r') := by decide
      rw [stripCr, hlast, if_neg hx, Option.some.injEq] at hfirst_eq
      exact h (List.append_left_eq_self.mp hfirst_eq)

theorem calls_steady {pending : List Bytes} (h : Received pending) (cs : List Call) :
    Steady (calls (connect pending) cs) := by
  have hrun : ∀ (cs : List Call) {s : ClientStream}, Steady s → Steady (calls s cs) := by
    intro cs
    induction cs with
    | nil => exact fun hs => hs
    | cons c cs ih => exact fun hs => ih (call_steady hs c)
  exact hrun cs (steady_connect h)

/-- Every line a session reads after STARTTLS is a line of the decrypted stream exactly
    where nothing was left in the buffer behind the command. -/
theorem startTls_lines_iff (sent : List Bytes) (earlier : List Call) (line : Bytes)
    (s : ClientStream) (hsent : Received sent)
    (hline : readLine maxLine (calls (connect sent) earlier) = (s, some line)) :
    (∀ decrypted, Received decrypted → ∀ n,
      linesRead maxLine n (startTls s decrypted) = linesRead maxLine n (connect decrypted)) ↔
      unread s = [] := by
  have hsteady : Steady s := by
    have := (readLine_spec maxLine (calls_steady hsent earlier)).2
    rwa [hline] at this
  constructor
  · intro h
    by_contra hne
    refine linesRead_ne_of_unread hsteady hne ?_
    rw [h [bytes "x\n"] (by unfold Received; decide) 2, linesRead_x]
  · intro hempty decrypted _ n
    have hempty' : unread (startTls s decrypted) = [] := hempty
    have hnew : unread (connect decrypted) = [] := rfl
    exact linesRead_empty hempty' hnew rfl maxLine n

/-- A STARTTLS line that arrives alone. -/
theorem startTls_lines_alone :
    linesRead maxLine 1 (startTls (readLine maxLine (connect [bytes "a STARTTLS\r\n"])).1
        [bytes "b NOOP\r\n"]) =
      linesRead maxLine 1 (connect [bytes "b NOOP\r\n"]) :=
  (startTls_lines_iff [bytes "a STARTTLS\r\n"] [] (bytes "a STARTTLS")
    (readLine maxLine (connect [bytes "a STARTTLS\r\n"])).1 (by unfold Received; decide)
    (by decide)).mpr (by decide) [bytes "b NOOP\r\n"] (by unfold Received; decide) 1

/-- A command behind STARTTLS in the same read is executed after the handshake. -/
theorem startTls_runs_plaintext :
    (readLine maxLine (connect [bytes "a STARTTLS\r\nb LOGIN x y\r\n"])).2 =
        some (bytes "a STARTTLS") ∧
      (parseCommand (bytes "a STARTTLS")).cmd = bytes "STARTTLS" ∧
      linesRead maxLine 1
        (startTls (readLine maxLine (connect [bytes "a STARTTLS\r\nb LOGIN x y\r\n"])).1 []) =
        [some (bytes "b LOGIN x y")] ∧
      linesRead maxLine 1 (connect []) = [none] := by
  decide

end QuackMail.Imap
