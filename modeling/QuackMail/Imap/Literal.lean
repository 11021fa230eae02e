import QuackMail.Imap.StartTls

/-! # Literals

How APPEND puts its literal together: it reads lines, gives each a CRLF again and cuts the
text to the count.  `Assembles` is a run of that loop, described by the lines it has read.
-/

namespace QuackMail.Imap

open Net

def crlf : Bytes := bytes "\r\n"

/-- The loop of APPEND.  Every round adds at least the two octets of a line ending, so one
    round more than the count is enough. -/
def literalLoop (count : Int) : Nat → Bytes → ClientStream → ClientStream × Bytes
  | 0, raw, s => (s, raw)
  | fuel + 1, raw, s =>
    if (raw.length : Int) < count then
      match readLine maxLine s with
      | (s', none) => (s', raw)
      | (s', some ln) => literalLoop count fuel (raw ++ (ln ++ crlf)) s'
    else (s, raw)

/-- The literal, cut to its count; `none` where `resize` is given a negative size. -/
def readLiteral (count : Int) (s : ClientStream) : ClientStream × Option Bytes :=
  let (s', raw) := literalLoop count (count.toNat + 1) [] s
  (s', if (raw.length : Int) > count then if count < 0 then none else some (raw.take count.toNat)
    else some raw)

/-! ## Lines -/

/-- The complete lines of a text, without their line feeds. -/
def linesOf (s : Bytes) : List Bytes := (splitOn (ch '\n') s).dropLast

/-- The octets of so many lines. -/
def octets (bodies : List Bytes) : Bytes := (bodies.map (· ++ [ch '\n'])).flatten

/-- What the loop makes of a line. -/
def restored (body : Bytes) : Bytes := stripCr body ++ crlf

@[simp] theorem octets_nil : octets [] = [] := rfl

@[simp] theorem octets_cons (body : Bytes) (bodies : List Bytes) :
    octets (body :: bodies) = body ++ ch '\n' :: octets bodies := by
  simp [octets]

@[simp] theorem octets_append (bodies more : List Bytes) :
    octets (bodies ++ more) = octets bodies ++ octets more := by
  simp [octets]

variable {body : Bytes} {count : Int}

theorem linesOf_cons (h : ch '\n' ∉ body) (tail : Bytes) :
    linesOf (body ++ ch '\n' :: tail) = body :: linesOf tail := by
  rw [linesOf, splitOn_append h, List.dropLast_cons_of_ne_nil (splitOn_ne_nil _ _), linesOf]

theorem linesOf_octets {bodies : List Bytes} (h : ∀ body ∈ bodies, ch '\n' ∉ body) (tail : Bytes) :
    linesOf (octets bodies ++ tail) = bodies ++ linesOf tail := by
  induction bodies with
  | nil => simp
  | cons body bodies ih =>
    rw [octets_cons, List.append_assoc, List.cons_append, linesOf_cons (h body List.mem_cons_self),
      ih fun b hb => h b (List.mem_cons_of_mem _ hb), List.cons_append]

theorem clean_of_mem_linesOf {s : Bytes} (h : body ∈ linesOf s) : ch '\n' ∉ body :=
  (mem_splitOn (List.dropLast_subset _ h)).1

/-- A text is its complete lines and what stands behind them. -/
theorem octets_linesOf (s : Bytes) : ∃ tail, s = octets (linesOf s) ++ tail ∧ ch '\n' ∉ tail := by
  induction s using List.reverseRecOn with
  | nil => exact ⟨[], by simp [linesOf, splitOn]⟩
  | append_singleton s c ih =>
    obtain ⟨tail, hs, htail⟩ := ih
    by_cases hc : c = ch '\n'
    · subst hc
      refine ⟨[], ?_, by simp⟩
      have hlines : linesOf (s ++ [ch '\n']) = linesOf s ++ [tail] := by
        conv_lhs => rw [hs]
        rw [List.append_assoc, linesOf_octets fun b hb => clean_of_mem_linesOf hb,
          linesOf_cons htail]
        simp [linesOf, splitOn]
      rw [hlines, octets_append]
      conv_lhs => rw [hs]
      simp
    · refine ⟨tail ++ [c], ?_, by simp [htail, Ne.symm hc]⟩
      have hlines : linesOf (s ++ [c]) = linesOf s := by
        conv_lhs => rw [hs]
        rw [List.append_assoc, linesOf_octets fun b hb => clean_of_mem_linesOf hb]
        simp [linesOf, @splitOn_of_not_mem (tail ++ [c]) (ch '\n') (by simp [htail, Ne.symm hc])]
      rw [hlines, ← List.append_assoc, ← hs]

/-- A text that ends with a line ending is its lines. -/
theorem octets_linesOf_closed (s : Bytes) : octets (linesOf (s ++ crlf)) = s ++ crlf := by
  obtain ⟨tail, hs, htail⟩ := octets_linesOf (s ++ crlf)
  have hcrlf : s ++ crlf = (s ++ [ch '\r']) ++ [ch '\n'] := by simp [crlf, bytes]
  rcases List.eq_nil_or_concat tail with rfl | ⟨front, c, rfl⟩
  · rw [List.append_nil] at hs
    exact hs.symm
  · rw [List.concat_eq_append] at hs htail
    rw [hcrlf] at hs
    rw [← List.append_assoc] at hs
    have := List.append_inj_right' hs rfl
    rw [List.cons.injEq] at this
    exact absurd (by simp [← this.1]) htail

/-! ## Runs of the loop -/

/-- The loop reads the lines `bodies` and then stops, full or refused a line. -/
inductive Assembles (count : Int) (s' : ClientStream) : Bytes → ClientStream → List Bytes → Prop
  | full {raw : Bytes} (enough : count ≤ raw.length) : Assembles count s' raw s' []
  | stopped {raw : Bytes} {s : ClientStream} (short : (raw.length : Int) < count)
      (refused : readLine maxLine s = (s', none)) (same : rest s' = rest s)
      (long : ∀ body tail, FirstLine (rest s) body tail → maxLine < body.length) :
      Assembles count s' raw s []
  | line {raw : Bytes} {s s₁ : ClientStream} {body : Bytes} {bodies : List Bytes}
      (short : (raw.length : Int) < count)
      (read : readLine maxLine s = (s₁, some (stripCr body)))
      (first : FirstLine (rest s) body (rest s₁)) (limit : body.length < maxLine + chunkSize)
      (later : Assembles count s' (raw ++ restored body) s₁ bodies) :
      Assembles count s' raw s (body :: bodies)

theorem literalLoop_assembles :
    ∀ (fuel : Nat) (raw : Bytes) (s : ClientStream), Steady s → count < raw.length + fuel →
      ∃ bodies, Assembles count (literalLoop count fuel raw s).1 raw s bodies ∧
        (literalLoop count fuel raw s).2 = raw ++ (bodies.map restored).flatten := by
  intro fuel
  induction fuel with
  | zero => exact fun raw s _ hfuel => ⟨[], .full (by omega), by simp [literalLoop]⟩
  | succ fuel ih =>
    intro raw s hsteady hfuel
    rw [literalLoop]
    by_cases hshort : (raw.length : Int) < count
    swap
    · rw [if_neg hshort]
      exact ⟨[], .full (by omega), by simp⟩
    rw [if_pos hshort]
    obtain ⟨hread, hsteady'⟩ := readLine_spec maxLine hsteady
    cases hcall : readLine maxLine s with
    | mk s₁ answer =>
      rw [hcall] at hread hsteady'
      cases hread with
      | refused hsame hlong => exact ⟨[], .stopped hshort hcall hsame hlong, by simp⟩
      | @line body hfirst hlimit =>
        have hlen : (raw ++ (stripCr body ++ crlf)).length =
            raw.length + (stripCr body).length + 2 := by
          simp [crlf, bytes, Nat.add_assoc]
        obtain ⟨bodies, hlater, hraw⟩ := ih (raw ++ (stripCr body ++ crlf)) s₁ hsteady' (by
          omega)
        refine ⟨body :: bodies, .line hshort hcall hfirst hlimit hlater, ?_⟩
        rw [hraw]
        simp [restored]

theorem literalLoop_steady (fuel : Nat) (raw : Bytes) (s : ClientStream)
    (h : Steady s) : Steady (literalLoop count fuel raw s).1 := by
  induction fuel generalizing raw s with
  | zero => exact h
  | succ fuel ih =>
    have hread := (readLine_spec maxLine h).2
    rw [literalLoop]
    split
    · cases hcall : readLine maxLine s with
      | mk s₁ answer =>
        rw [hcall] at hread
        cases answer with
        | none => exact hread
        | some ln => exact ih _ s₁ hread
    · exact h

section Runs

variable {count : Int} {s s' : ClientStream} {raw : Bytes} {bodies : List Bytes}

/-- What is read are the lines. -/
theorem Assembles.rest_eq (h : Assembles count s' raw s bodies) :
    rest s = octets bodies ++ rest s' := by
  induction h with
  | full _ => rfl
  | stopped _ _ hsame _ => rw [hsame]; rfl
  | line _ _ hfirst _ _ ih => rw [hfirst.eq, ih, octets_cons, List.append_assoc, List.cons_append]

theorem Assembles.linesOf_eq (h : Assembles count s' raw s bodies) :
    linesOf (rest s) = bodies ++ linesOf (rest s') := by
  induction h with
  | full _ => rfl
  | stopped _ _ hsame _ => rw [hsame]; rfl
  | line _ _ hfirst _ _ ih => rw [hfirst.eq, linesOf_cons hfirst.clean, ih, List.cons_append]

theorem Assembles.limit (h : Assembles count s' raw s bodies) :
    ∀ body ∈ bodies, body.length < maxLine + chunkSize := by
  induction h with
  | full _ => simp
  | stopped _ _ _ _ => simp
  | line _ _ _ hlimit _ ih =>
    intro body hbody
    rcases List.mem_cons.mp hbody with rfl | hbody
    · exact hlimit
    · exact ih body hbody

/-- The loop is not full before the last line. -/
theorem Assembles.short (h : Assembles count s' raw s bodies) :
    ∀ front body back, bodies = front ++ body :: back →
      ((raw ++ (front.map restored).flatten).length : Int) < count := by
  induction h with
  | full _ => intro front body back h; simp at h
  | stopped _ _ _ _ => intro front body back h; simp at h
  | line hshort _ _ _ _ ih =>
    intro front body back h
    cases front with
    | nil => simpa using hshort
    | cons b front =>
      obtain ⟨rfl, htail⟩ := List.cons.inj h
      simpa using ih front body back htail

/-- It stops when it is full, or at a line that is too long. -/
theorem Assembles.ends (h : Assembles count s' raw s bodies) :
    count ≤ (raw ++ (bodies.map restored).flatten).length ∨
      ∀ body tail, FirstLine (rest s') body tail → maxLine < body.length := by
  induction h with
  | full henough => exact .inl (by simpa using henough)
  | stopped _ _ hsame hlong => exact .inr (hsame ▸ hlong)
  | line _ _ _ _ _ ih => simpa using ih

end Runs

/-! ## Segments -/

/-- A line that arrives in single octets and one last piece is handed out, up to the limit
    before that piece. -/
theorem readLineLoop_pieces {maxLen : Nat} {v : Bytes} {pending : List Bytes} (hv : ch '\n' ∉ v)
    (u : Bytes) (fuel : Nat) (s : ClientStream) (hs : ch '\n' ∉ unread s) (hu : ch '\n' ∉ u)
    (hlen : (unread s).length + u.length ≤ maxLen)
    (hpending : s.pending = u.map (fun c => [c]) ++ (v ++ [ch '\n']) :: pending)
    (hfuel : u.length + 1 < fuel) :
    ∃ s', readLineLoop maxLen fuel s = (s', some (stripCr (unread s ++ u ++ v))) ∧
      unread s' = [] ∧ s'.pending = pending := by
  obtain ⟨f, rfl⟩ : ∃ f, fuel = f + 2 + u.length := ⟨fuel - 2 - u.length, by omega⟩
  obtain ⟨t, ht, hpending', hloop⟩ :=
    readLineLoop_singles maxLen (f + 2) u s hs hu (by omega) hpending
  rw [← ht]
  have hclean : ch '\n' ∉ unread t ++ v := by simp [ht, hs, hu, hv]
  have hbuf : unread t ++ (v ++ [ch '\n']) = (unread t ++ v) ++ ch '\n' :: [] := by simp
  have htake : (unread t ++ (v ++ [ch '\n'])).take ((unread t).length + v.length) =
      unread t ++ v := by
    rw [hbuf]
    exact List.take_left' (by simp)
  refine ⟨⟨unread t ++ (v ++ [ch '\n']), (unread t ++ v).length + 1, pending⟩, ?_, ?_, rfl⟩
  · rw [hloop, readLineLoop_fill (by simp [ht, hs, hu]) (by simpa [ht] using hlen) hpending',
      readLineLoop, findCharFrom]
    simp only [List.drop_zero]
    rw [hbuf, findChar_append hclean, Option.map_some, ← hbuf]
    simp [htake]
  · simp [unread, Nat.add_assoc]

/-- A line above the limit is refused. -/
theorem readLineLoop_over {maxLen fuel : Nat} {s : ClientStream} (hs : ch '\n' ∉ unread s)
    (hlen : maxLen < (unread s).length) : readLineLoop maxLen (fuel + 1) s = (s, none) := by
  rw [readLineLoop, findCharFrom, show s.rbuf.drop s.rpos = unread s from rfl,
    findChar_of_not_mem hs, Option.map_none]
  rw [← length_unread, if_pos hlen]

/-- A line that arrives in single octets is refused when it passes the limit. -/
theorem readLineLoop_singles_long {maxLen : Nat} {pending : List Bytes} (u : Bytes) (fuel : Nat)
    (s : ClientStream) (hempty : unread s = []) (hu : ch '\n' ∉ u) (hlen : maxLen < u.length)
    (hpending : s.pending = u.map (fun c => [c]) ++ pending) (hfuel : u.length < fuel) :
    (readLineLoop maxLen fuel s).2 = none := by
  obtain ⟨f, rfl⟩ : ∃ f, fuel = f + 1 + (u.take (maxLen + 1)).length :=
    ⟨fuel - 1 - (u.take (maxLen + 1)).length, by rw [List.length_take]; omega⟩
  have hclean : ch '\n' ∉ u.take (maxLen + 1) := fun h => hu (List.mem_of_mem_take h)
  obtain ⟨t, ht, -, hloop⟩ := readLineLoop_singles maxLen (f + 1) (u.take (maxLen + 1)) s
    (by simp [hempty]) hclean (by rw [hempty, List.length_nil, List.length_take]; omega)
    (by rw [hpending, ← List.append_assoc, ← List.map_append, List.take_append_drop])
  rw [hempty, List.nil_append] at ht
  rw [hloop, readLineLoop_over (by rw [ht]; exact hclean)
    (by rw [ht, List.length_take]; omega)]

/-- What is to come arrives in single octets. -/
structure Singles (s : ClientStream) : Prop where
  empty : unread s = []
  pending : s.pending = (rest s).map (fun c => [c])

theorem readLine_singles {s s' : ClientStream} (hs : Singles s)
    (hread : readLine maxLine s = (s', some (stripCr body)))
    (hfirst : FirstLine (rest s) body (rest s')) : body.length ≤ maxLine ∧ Singles s' := by
  have hpending : s.pending = body.map (fun c => [c]) ++
      ([] ++ [ch '\n']) :: (rest s').map (fun c => [c]) := by
    rw [hs.pending, hfirst.eq]
    simp
  have hclean : ch '\n' ∉ unread s := by simp [hs.empty]
  have hlen : s.pending.length = body.length + 1 + (rest s').length := by
    rw [hpending]
    simp [Nat.add_assoc, Nat.add_comm]
  rw [readLine] at hread
  have hshort : body.length ≤ maxLine := by
    by_contra hlong
    have hnone := @readLineLoop_singles_long maxLine _ body (s.pending.length + 1) s
      hs.empty hfirst.clean (by omega) hpending (by omega)
    rw [hread] at hnone
    simp at hnone
  obtain ⟨s'', hcall, hempty, hrest⟩ := @readLineLoop_pieces maxLine _ _ (by simp) body
    (s.pending.length + 1) s hclean hfirst.clean (by simp [hs.empty, hshort]) hpending (by omega)
  rw [hread, Prod.mk.injEq] at hcall
  obtain ⟨rfl, -⟩ := hcall
  exact ⟨hshort, hempty, hrest⟩

/-- From single octets no line above the limit is read. -/
theorem Assembles.singles {s s' : ClientStream} {raw : Bytes} {bodies : List Bytes}
    (h : Assembles count s' raw s bodies) (hs : Singles s) :
    ∀ body ∈ bodies, body.length ≤ maxLine := by
  induction h with
  | full _ => simp
  | stopped _ _ _ _ => simp
  | line _ hread hfirst _ _ ih =>
    obtain ⟨hshort, hs'⟩ := readLine_singles hs hread hfirst
    intro body hbody
    rcases List.mem_cons.mp hbody with rfl | hbody
    · exact hshort
    · exact ih hs' body hbody

/-- The segments in which `ReadLine` hands a line out even above the limit. -/
def pieces (body : Bytes) : List Bytes :=
  (body.take maxLine).map (fun c => [c]) ++ [body.drop maxLine ++ [ch '\n']]

theorem flatten_singles (s : Bytes) : (s.map (fun c => [c])).flatten = s := by
  induction s with
  | nil => rfl
  | cons c s ih => rw [List.map_cons, List.flatten_cons, ih]; rfl

theorem flatten_pieces (body : Bytes) : (pieces body).flatten = body ++ [ch '\n'] := by
  rw [pieces, List.flatten_append, flatten_singles]
  simp [← List.append_assoc]

theorem received_pieces (h : body.length < maxLine + chunkSize) : Received (pieces body) := by
  intro chunk hchunk
  simp only [pieces, List.mem_append, List.mem_map, List.mem_singleton] at hchunk
  rcases hchunk with ⟨c, -, rfl⟩ | rfl
  · exact ⟨by simp, by simp [chunkSize]⟩
  · refine ⟨by simp, ?_⟩
    have hsize : chunkSize = 8192 := rfl
    rw [List.length_append, List.length_drop, List.length_singleton]
    omega

/-- From its pieces every line is read until the loop is full. -/
theorem Assembles.pieces {s s' : ClientStream} {raw : Bytes} {read : List Bytes}
    (h : Assembles count s' raw s read) {tail : List Bytes} :
    ∀ bodies : List Bytes, unread s = [] → s.pending = (bodies.map pieces).flatten ++ tail →
      (∀ body ∈ bodies, ch '\n' ∉ body ∧ body.length < maxLine + chunkSize) →
      bodies <+: read ∨ count ≤ (raw ++ (read.map restored).flatten).length := by
  have hnext : ∀ {s : ClientStream} {body : Bytes} {bodies : List Bytes}, unread s = [] →
      s.pending = ((body :: bodies).map Imap.pieces).flatten ++ tail → ch '\n' ∉ body →
      ∃ s₁, readLine maxLine s = (s₁, some (stripCr body)) ∧ unread s₁ = [] ∧
        s₁.pending = (bodies.map Imap.pieces).flatten ++ tail := by
    intro s body bodies hempty hpending hclean
    have hsplit : s.pending = (body.take maxLine).map (fun c => [c]) ++
        (body.drop maxLine ++ [ch '\n']) :: ((bodies.map Imap.pieces).flatten ++ tail) := by
      rw [hpending]
      simp [Imap.pieces]
    obtain ⟨s₁, hread, hempty', hpending'⟩ := @readLineLoop_pieces maxLine _ _
      (fun hin => hclean (List.mem_of_mem_drop hin)) (body.take maxLine) (s.pending.length + 1) s
      (by simp [hempty]) (fun hin => hclean (List.mem_of_mem_take hin))
      (by rw [hempty, List.length_nil, Nat.zero_add]; exact List.length_take_le _ _) hsplit
      (by rw [hsplit]; simp)
    refine ⟨s₁, ?_, hempty', hpending'⟩
    rw [readLine, hread, hempty, List.nil_append, List.take_append_drop]
  induction h with
  | full henough => exact fun _ _ _ _ => .inr (by simpa using henough)
  | stopped _ hrefused _ _ =>
    intro bodies hempty hpending hok
    cases bodies with
    | nil => exact .inl (List.nil_prefix)
    | cons body bodies =>
      obtain ⟨s₁, hread, -, -⟩ := hnext hempty hpending (hok body List.mem_cons_self).1
      rw [hrefused] at hread
      simp at hread
  | @line raw s _ b _ _ hread hfirst _ _ ih =>
    intro bodies hempty hpending hok
    cases bodies with
    | nil => exact .inl (List.nil_prefix)
    | cons body bodies =>
      have hclean := (hok body List.mem_cons_self).1
      obtain ⟨s₁, hread', hempty', hpending'⟩ := hnext hempty hpending hclean
      have hbody : FirstLine (rest s) body (((bodies.map Imap.pieces).flatten ++ tail).flatten) := by
        refine ⟨?_, hclean⟩
        rw [rest, hempty, hpending, List.nil_append, List.map_cons, List.flatten_cons,
          List.append_assoc, List.flatten_append, flatten_pieces, List.append_assoc]
        rfl
      obtain ⟨rfl, -⟩ := hfirst.unique hbody
      rw [hread, Prod.mk.injEq] at hread'
      obtain ⟨rfl, -⟩ := hread'
      rcases ih bodies hempty' hpending' (fun x hx => hok x (List.mem_cons_of_mem _ hx)) with h | h
      · exact .inl (List.cons_prefix_cons.mpr ⟨rfl, h⟩)
      · exact .inr (by simpa using h)

end QuackMail.Imap
