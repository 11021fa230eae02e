import QuackMail.Net.Reads

/-! # Texts that end at a dot

`ClientStream::ReadDotStuffed` reads lines up to one that is a dot.  What it takes is described
on the bytes the peer sends: the lines before the first line that is a dot, and the rest.
-/

namespace QuackMail.Net

def crlf : Bytes := [ch '\r', ch '\n']

/-- The line `.`. -/
def dot : Bytes := [ch '.']

/-- Undo dot-stuffing. -/
def unstuff (line : Bytes) : Bytes := if line.head? = some (ch '.') then line.tail else line

/-- The loop of `ReadDotStuffed`; a line takes at least its line feed, so the rest of the
    stream bounds the rounds. -/
def readDotStuffedLoop (maxBytes : Nat) :
    Nat → Bytes → ClientStream → ClientStream × Option Bytes
  | 0, _, s => (s, none)
  | fuel + 1, out, s =>
    match readLine maxBytes s with
    | (s', none) => (s', none)
    | (s', some line) =>
      if line = dot then (s', some out)
      else if out.length + (unstuff line).length + 2 > maxBytes then (s', none)
      else readDotStuffedLoop maxBytes fuel (out ++ unstuff line ++ crlf) s'

/-- `ReadDotStuffed`. -/
def readDotStuffed (maxBytes : Nat) (s : ClientStream) : ClientStream × Option Bytes :=
  readDotStuffedLoop maxBytes ((rest s).length + 1) [] s

/-! ## One line -/

variable {s : ClientStream} {tail : Bytes} {maxBytes : Nat}

theorem readLine_some {maxLen : Nat} {s' : ClientStream} {line : Bytes} (h : Steady s)
    (hread : readLine maxLen s = (s', some line)) :
    ∃ body, FirstLine (rest s) body (rest s') ∧ line = stripCr body ∧ Steady s' := by
  obtain ⟨hspec, hsteady⟩ := readLine_spec maxLen h
  rw [hread] at hspec hsteady
  cases hspec with
  | @line body first short => exact ⟨body, first, rfl, hsteady⟩

/-- A line within the limit is read. -/
theorem readLine_first {maxLen : Nat} {body : Bytes} (h : Steady s)
    (hfirst : FirstLine (rest s) body tail) (hlen : body.length ≤ maxLen) :
    ∃ s', readLine maxLen s = (s', some (stripCr body)) ∧ rest s' = tail ∧ Steady s' := by
  obtain ⟨hspec, hsteady⟩ := readLine_spec maxLen h
  cases hread : readLine maxLen s with
  | mk s' answer =>
    rw [hread] at hspec hsteady
    cases hspec with
    | refused same long => exact absurd hlen (Nat.not_le.mpr (long body tail hfirst))
    | @line body' first' short =>
      obtain ⟨rfl, rfl⟩ := hfirst.unique first'
      exact ⟨s', rfl, rfl, hsteady⟩

/-! ## The lines before the dot -/

/-- The stream begins with these lines, then one that is a dot; `tail` follows. -/
inductive DotText : Bytes → List Bytes → Bytes → Prop
  | done {s body tail : Bytes} (first : FirstLine s body tail) (isDot : stripCr body = dot) :
      DotText s [] tail
  | line {s body more tail : Bytes} {bodies : List Bytes} (first : FirstLine s body more)
      (notDot : stripCr body ≠ dot) (next : DotText more bodies tail) :
      DotText s (body :: bodies) tail

/-- What is received for these lines. -/
def received (bodies : List Bytes) : Bytes :=
  bodies.flatMap fun body => unstuff (stripCr body) ++ crlf

@[simp] theorem received_nil : received [] = [] := rfl

@[simp] theorem received_cons (body : Bytes) (bodies : List Bytes) :
    received (body :: bodies) = unstuff (stripCr body) ++ crlf ++ received bodies := rfl

@[simp] theorem length_crlf : crlf.length = 2 := rfl

/-- A stream has one text. -/
theorem DotText.unique {s tail' : Bytes} {bodies bodies' : List Bytes}
    (h : DotText s bodies tail) (h' : DotText s bodies' tail') :
    bodies = bodies' ∧ tail = tail' := by
  induction h generalizing bodies' with
  | done first isDot =>
    cases h' with
    | done first' isDot' => exact ⟨rfl, (first.unique first').2⟩
    | line first' notDot' next' =>
      rw [(first.unique first').1] at isDot
      exact absurd isDot notDot'
  | line first notDot next ih =>
    cases h' with
    | done first' isDot' =>
      rw [(first.unique first').1] at notDot
      exact absurd isDot' notDot
    | line first' notDot' next' =>
      obtain ⟨rfl, rfl⟩ := first.unique first'
      obtain ⟨rfl, htail⟩ := ih next'
      exact ⟨rfl, htail⟩

theorem stripCr_length (line : Bytes) :
    (stripCr line).length ≤ line.length ∧ line.length ≤ (stripCr line).length + 1 := by
  unfold stripCr
  split
  · rw [List.length_dropLast]
    omega
  · omega

theorem unstuff_length (line : Bytes) :
    (unstuff line).length ≤ line.length ∧ line.length ≤ (unstuff line).length + 1 := by
  unfold unstuff
  split
  · rw [List.length_tail]
    omega
  · omega

/-- What a read of a line leaves is shorter. -/
theorem FirstLine.shorter {s body : Bytes} (h : FirstLine s body tail) :
    tail.length < s.length := by
  rw [h.eq, List.length_append, List.length_cons]
  omega

/-- Whatever is handed out is what is received for the lines before the dot, and within the
    limit. -/
theorem readDotStuffedLoop_sound :
    ∀ (fuel : Nat) (out : Bytes) (s s' : ClientStream) (text : Bytes), Steady s →
      readDotStuffedLoop maxBytes fuel out s = (s', some text) →
        ∃ bodies, DotText (rest s) bodies (rest s') ∧ text = out ++ received bodies ∧
          (out.length ≤ maxBytes → text.length ≤ maxBytes) ∧ Steady s' := by
  intro fuel
  induction fuel with
  | zero =>
    intro out s s' text _ h
    cases h
  | succ fuel ih =>
    intro out s s' text hsteady h
    rw [readDotStuffedLoop] at h
    cases hread : readLine maxBytes s with
    | mk t answer =>
      rw [hread] at h
      cases answer with
      | none => cases h
      | some line =>
        obtain ⟨body, first, rfl, hsteady'⟩ := readLine_some hsteady hread
        simp only at h
        split at h
        · next hdot =>
          simp only [Prod.mk.injEq, Option.some.injEq] at h
          obtain ⟨rfl, rfl⟩ := h
          exact ⟨[], .done first hdot, by simp, fun h => h, hsteady'⟩
        · next hdot =>
          split at h
          · cases h
          · next hlen =>
            obtain ⟨bodies, htext, heq, hbound, hst⟩ := ih _ t s' text hsteady' h
            refine ⟨body :: bodies, .line first hdot htext, ?_, fun _ => hbound ?_, hst⟩
            · rw [heq, received_cons]
              simp
            · simp only [List.length_append, length_crlf]
              omega

/-- A text within the limit is handed out. -/
theorem readDotStuffedLoop_complete (hmax : 2 ≤ maxBytes) :
    ∀ (fuel : Nat) (out : Bytes) (s : ClientStream) (bodies : List Bytes) (tail : Bytes),
      Steady s → (rest s).length < fuel → DotText (rest s) bodies tail →
        (out ++ received bodies).length ≤ maxBytes →
          ∃ s', readDotStuffedLoop maxBytes fuel out s = (s', some (out ++ received bodies)) ∧
            rest s' = tail ∧ Steady s' := by
  intro fuel
  induction fuel with
  | zero => exact fun _ _ _ _ _ h => absurd h (Nat.not_lt_zero _)
  | succ fuel ih =>
    intro out s bodies tail hsteady hfuel htext hbound
    rw [readDotStuffedLoop]
    cases htext with
    | @done _ body _ first isDot =>
      have hshort : body.length ≤ 2 := by
        have hlen := (stripCr_length body).2
        rw [isDot] at hlen
        exact hlen
      obtain ⟨t, hread, hrest, hsteady'⟩ := readLine_first hsteady first (hshort.trans hmax)
      simp only [hread, if_pos isDot, received_nil, List.append_nil]
      exact ⟨t, rfl, hrest, hsteady'⟩
    | @line _ body more _ bodies first notDot next =>
      have hstrip := (stripCr_length body).2
      have hstuff := (unstuff_length (stripCr body)).2
      rw [received_cons] at hbound
      simp only [List.length_append, length_crlf] at hbound
      obtain ⟨t, hread, hrest, hsteady'⟩ :=
        readLine_first hsteady first (show body.length ≤ maxBytes by omega)
      have hshorter := first.shorter
      have hout : (out ++ unstuff (stripCr body) ++ crlf ++ received bodies).length ≤ maxBytes := by
        simp only [List.length_append, length_crlf]
        omega
      rw [← hrest] at next hshorter
      obtain ⟨s', hloop, hrest', hst⟩ :=
        ih (out ++ unstuff (stripCr body) ++ crlf) t bodies tail hsteady' (by omega) next hout
      have hfits : ¬out.length + (unstuff (stripCr body)).length + 2 > maxBytes := by omega
      refine ⟨s', ?_, hrest', hst⟩
      simp only [hread, if_neg notDot, if_neg hfits]
      rw [hloop, received_cons]
      simp

/-- `ReadDotStuffed` hands out what is received for the lines before the dot. -/
theorem readDotStuffed_sound {s' : ClientStream} {text : Bytes} (h : Steady s)
    (hread : readDotStuffed maxBytes s = (s', some text)) :
    ∃ bodies, DotText (rest s) bodies (rest s') ∧ text = received bodies ∧
      text.length ≤ maxBytes ∧ Steady s' := by
  obtain ⟨bodies, htext, heq, hbound, hst⟩ := readDotStuffedLoop_sound _ _ s s' text h hread
  exact ⟨bodies, htext, heq, hbound (Nat.zero_le _), hst⟩

/-- `ReadDotStuffed` hands out every text within the limit. -/
theorem readDotStuffed_complete (hmax : 2 ≤ maxBytes)
    (h : Steady s) {bodies : List Bytes} (htext : DotText (rest s) bodies tail)
    (hbound : (received bodies).length ≤ maxBytes) :
    ∃ s', readDotStuffed maxBytes s = (s', some (received bodies)) ∧ rest s' = tail ∧ Steady s' :=
  readDotStuffedLoop_complete hmax _ [] s bodies tail h (Nat.lt_succ_self _) htext hbound

end QuackMail.Net
