import QuackMail.Net.Reads

/-! # Reading from two segmentations

The same bytes may arrive in different pieces.  Two readers that ask for the same data
are told the same, as long as no line they ask for is just above the limit: whether its
end arrives in time decides whether such a line is refused.
-/

namespace QuackMail.Net

inductive Call where
  | readLine (maxLen : Nat)
  | readByte
  | readN (n : Nat)
  | readAvailable (maxBytes : Nat)
  deriving DecidableEq

inductive Answer where
  | line (result : Option Bytes)
  | byte (result : Option Byte)
  | data (ok : Bool) (out : Bytes)
  | available (result : Option Bytes)
  deriving DecidableEq

def call (s : ClientStream) : Call → ClientStream × Answer
  | .readLine maxLen => ((readLine maxLen s).1, .line (readLine maxLen s).2)
  | .readByte => ((readByte s).1, .byte (readByte s).2)
  | .readN n => ((readN n s).1, .data (readN n s).2.1 (readN n s).2.2)
  | .readAvailable maxBytes =>
    ((readAvailable maxBytes s).1, .available (readAvailable maxBytes s).2)

/-- The state a sequence of calls leads to. -/
def calls (s : ClientStream) (cs : List Call) : ClientStream := cs.foldl (fun s c => (call s c).1) s

/-- `ReadAvailable` gives what happens to be there; every other call asks for a piece of
    the data that is determined by where the call is made. -/
def Call.asksFor : Call → Bool
  | .readAvailable _ => false
  | _ => true

/-- What `ReadAvailable` has given out. -/
def Answer.given : Answer → Nat
  | .available (some out) => out.length
  | _ => 0

/-- The calls that ask for data, each with how many bytes `ReadAvailable` has given out since the
    one before; `n` of them so far. -/
def requested (n : Nat) : ClientStream → List Call → List (Nat × Call)
  | _, [] => []
  | s, c :: cs =>
    if c.asksFor then (n, c) :: requested 0 (call s c).1 cs
    else requested (n + (call s c).2.given) (call s c).1 cs

/-- What these calls are told, and what each of them leaves of the data. -/
def told : ClientStream → List Call → List (Answer × Bytes)
  | _, [] => []
  | s, c :: cs =>
    if c.asksFor then ((call s c).2, rest (call s c).1) :: told (call s c).1 cs
    else told (call s c).1 cs

/-- The answer that is due where `left` is what is left of the data: a line of at most
    `maxLen` bytes, or a refusal. -/
def due (left : Bytes) : Call → Answer
  | .readLine maxLen =>
    .line (match findChar (ch '\n') left with
      | some p => if p ≤ maxLen then some (stripCr (left.take p)) else none
      | none => none)
  | .readByte => .byte left.head?
  | .readN n => .data (decide (n ≤ left.length)) (left.take n)
  | .readAvailable _ => .available none

/-- What is left of the data then. -/
def leftAfter (left : Bytes) : Call → Bytes
  | .readLine maxLen =>
    match findChar (ch '\n') left with
    | some p => if p ≤ maxLen then left.drop (p + 1) else left
    | none => left
  | .readByte => left.drop 1
  | .readN n => left.drop n
  | .readAvailable _ => left

/-- What is due and what is to be left of the data, request by request. -/
def owed : Bytes → List (Nat × Call) → List (Answer × Bytes)
  | _, [] => []
  | left, (n, c) :: reqs =>
    (due (left.drop n) c, leftAfter (left.drop n) c) :: owed (leftAfter (left.drop n) c) reqs

/-- A line is within the limit, or above it by a whole read: then it is refused however it
    arrives. -/
def Settled (left : Bytes) : Call → Prop
  | .readLine maxLen => ∀ p, findChar (ch '\n') left = some p → p ≤ maxLen ∨ maxLen + chunkSize ≤ p
  | _ => True

instance (left : Bytes) (c : Call) : Decidable (Settled left c) := by
  cases c with
  | readLine maxLen =>
    cases h : findChar (ch '\n') left with
    | none => exact isTrue fun p hp => absurd (h.symm.trans hp) (by simp)
    | some q =>
      exact decidable_of_iff (q ≤ maxLen ∨ maxLen + chunkSize ≤ q)
        ⟨fun hq p hp => by obtain rfl := Option.some.inj (h.symm.trans hp); exact hq, fun hq => hq q h⟩
  | readByte => exact isTrue trivial
  | readN n => exact isTrue trivial
  | readAvailable maxBytes => exact isTrue trivial

/-- Every request settles where it is made. -/
def AllSettled : Bytes → List (Nat × Call) → Prop
  | _, [] => True
  | left, (n, c) :: reqs => Settled (left.drop n) c ∧ AllSettled (leftAfter (left.drop n) c) reqs

/-- Where a call settles, it is told what is due, and takes that much of the data. -/
theorem call_due {s : ClientStream} (h : Steady s) {c : Call} (hasks : c.asksFor = true)
    (hsettled : Settled (rest s) c) :
    (call s c).2 = due (rest s) c ∧ rest (call s c).1 = leftAfter (rest s) c := by
  cases c with
  | readLine maxLen =>
    obtain ⟨hread, -⟩ := readLine_spec maxLen h
    rw [call, due, leftAfter]
    revert hread
    generalize readLine maxLen s = r
    obtain ⟨s', answer⟩ := r
    intro hread
    cases hread with
    | @line body hfirst hshort =>
      have hfind := findChar_append hfirst.clean (rest s')
      rw [← hfirst.eq] at hfind
      have hle : body.length ≤ maxLen := by
        rcases hsettled body.length hfind with hle | hge
        · exact hle
        · omega
      rw [hfind]
      simp only [if_pos hle]
      constructor
      · conv_rhs => rw [hfirst.eq]
        rw [List.take_left]
      · conv_rhs => rw [hfirst.eq, List.drop_length_add_append]
        rfl
    | refused hsame hlong =>
      cases hfind : findChar (ch '\n') (rest s) with
      | none => exact ⟨rfl, hsame⟩
      | some p =>
        obtain ⟨hclean, hsplit⟩ := findChar_some hfind
        have hline : FirstLine (rest s) ((rest s).take p) ((rest s).drop (p + 1)) := ⟨hsplit, hclean⟩
        have hlt := hlong _ _ hline
        have hlen := findChar_append hclean ((rest s).drop (p + 1))
        rw [← hsplit, hfind, Option.some.injEq] at hlen
        simp only
        rw [if_neg (by omega), if_neg (by omega)]
        exact ⟨rfl, hsame⟩
  | readByte =>
    rw [call, due, leftAfter, (readByte_spec h).1]
    exact ⟨rfl, (readByte_spec h).2.1⟩
  | readN n =>
    rw [call, due, leftAfter, (readN_spec n h).1]
    exact ⟨rfl, (readN_spec n h).2.1⟩
  | readAvailable maxBytes => exact absurd hasks Bool.false_ne_true

/-- `ReadAvailable` takes what it gives out. -/
theorem rest_readAvailable {s : ClientStream} (h : Steady s) (maxBytes : Nat) :
    rest (call s (.readAvailable maxBytes)).1 =
      (rest s).drop (call s (.readAvailable maxBytes)).2.given := by
  obtain ⟨n, hrest, hout, -⟩ := readAvailable_spec maxBytes h
  simp only [call]
  cases hres : (readAvailable maxBytes s).2 with
  | some out =>
    rw [hrest, Answer.given, hout out hres, List.length_take, List.drop_eq_drop_min]
  | none =>
    -- nothing was there, and nothing came
    have hfill := rest_fillBuffer s
    unfold readAvailable at hres ⊢
    split at hres
    · next hempty =>
      rw [if_pos hempty]
      cases hmore : fillBuffer s with
      | mk s' more =>
        rw [hmore] at hres hfill
        cases more with
        | false => exact hfill
        | true => cases hres
    · cases hres

theorem call_steady {s : ClientStream} (h : Steady s) (c : Call) : Steady (call s c).1 := by
  cases c with
  | readLine maxLen => exact (readLine_spec maxLen h).2
  | readByte => exact (readByte_spec h).2.2
  | readN n => exact (readN_spec n h).2.2
  | readAvailable maxBytes =>
    obtain ⟨_, _, _, hsteady⟩ := readAvailable_spec maxBytes h
    exact hsteady

/-- Where the buffer holds no end of a line, the next piece is appended to it. -/
theorem readLineLoop_fill {maxLen fuel : Nat} {s : ClientStream} {x : Bytes} {pending : List Bytes}
    (hs : ch '\n' ∉ unread s) (hlen : (unread s).length ≤ maxLen)
    (hpending : s.pending = x :: pending) :
    readLineLoop maxLen (fuel + 1) s = readLineLoop maxLen fuel ⟨unread s ++ x, 0, pending⟩ := by
  have hfill : fillBuffer s = (⟨unread s ++ x, 0, pending⟩, true) := by
    simp [fillBuffer, hpending, unread]
  rw [readLineLoop, findCharFrom, show s.rbuf.drop s.rpos = unread s from rfl,
    findChar_of_not_mem hs, Option.map_none]
  rw [← length_unread, if_neg (by omega), hfill]

/-- Single octets are read into the buffer one after the other, until it has passed the limit. -/
theorem readLineLoop_singles {pending : List Bytes} (maxLen fuel : Nat) :
    ∀ (u : Bytes) (s : ClientStream), ch '\n' ∉ unread s → ch '\n' ∉ u →
      (unread s).length + u.length ≤ maxLen + 1 → s.pending = u.map (fun c => [c]) ++ pending →
      ∃ t, unread t = unread s ++ u ∧ t.pending = pending ∧
        readLineLoop maxLen (fuel + u.length) s = readLineLoop maxLen fuel t := by
  intro u
  induction u with
  | nil => exact fun s _ _ _ hpending => ⟨s, by simp, hpending, rfl⟩
  | cons c u ih =>
    intro s hs hu hlen hpending
    rw [List.mem_cons, not_or] at hu
    rw [List.length_cons] at hlen
    have hnext : unread ⟨unread s ++ [c], 0, u.map (fun c => [c]) ++ pending⟩ = unread s ++ [c] :=
      rfl
    obtain ⟨t, ht, hpending', hloop⟩ := ih ⟨unread s ++ [c], 0, u.map (fun c => [c]) ++ pending⟩
      (by simp [hnext, hs, hu.1]) hu.2 (by simp [hnext]; omega) rfl
    refine ⟨t, by rw [ht, hnext, List.append_assoc]; rfl, hpending', ?_⟩
    rw [List.length_cons, ← Nat.add_assoc, readLineLoop_fill hs (by omega) hpending, ← hloop]
    rfl

/-- A line above the limit whose end comes with the read that passes the limit is handed
    out. -/
theorem readLineLoop_overrun {maxLen : Nat} {chunk : Bytes} {pending : List Bytes}
    (hchunk : ch '\n' ∈ chunk) (u : Bytes) (fuel : Nat) (s : ClientStream)
    (hs : ch '\n' ∉ unread s) (hu : ch '\n' ∉ u) (hlen : (unread s).length + u.length ≤ maxLen)
    (hpending : s.pending = u.map (fun c => [c]) ++ chunk :: pending)
    (hfuel : u.length + 1 < fuel) : (readLineLoop maxLen fuel s).2 ≠ none := by
  obtain ⟨f, rfl⟩ : ∃ f, fuel = f + 2 + u.length := ⟨fuel - 2 - u.length, by omega⟩
  obtain ⟨t, ht, hpending', hloop⟩ :=
    readLineLoop_singles maxLen (f + 2) u s hs hu (by omega) hpending
  rw [hloop, readLineLoop_fill (by simp [ht, hs, hu]) (by simpa [ht] using hlen) hpending',
    readLineLoop, findCharFrom]
  simp only [List.drop_zero]
  cases hfind : findChar (ch '\n') (unread t ++ chunk) with
  | none => exact absurd (List.mem_append_right _ hchunk) (findChar_none hfind)
  | some p => simp

/-- A call is told what is due in every segmentation exactly where it settles. -/
theorem readLine_due_iff (stream : Bytes) (maxLen : Nat) :
    (∀ pending, Received pending → pending.flatten = stream →
      (call (connect pending) (.readLine maxLen)).2 = due stream (.readLine maxLen)) ↔
      Settled stream (.readLine maxLen) := by
  constructor
  · intro h p hp
    by_contra hnot
    obtain ⟨hlong, hshort⟩ := not_or.mp hnot
    obtain ⟨hclean, hsplit⟩ := findChar_some hp
    have hplen := findChar_lt hp
    have hmem : ch '\n' ∈ (stream.drop maxLen).take (p + 1 - maxLen) := by
      have hget : stream[p]? = some (ch '\n') := by
        rw [hsplit, List.getElem?_append_right (by rw [List.length_take]; omega), List.length_take]
        simp [Nat.min_eq_left hplen.le]
      refine List.mem_of_getElem? (i := p - maxLen) ?_
      rw [List.getElem?_take_of_lt (by omega), List.getElem?_drop,
        show maxLen + (p - maxLen) = p by omega, hget]
    -- single bytes up to the limit, then the rest of the line in one read
    have hpieces : ((stream.take maxLen).map (fun c => [c]) ++
        (stream.drop maxLen).take (p + 1 - maxLen) ::
        (stream.drop (p + 1)).map (fun c => [c])).flatten = stream := by
      have hsingles : ∀ x : Bytes, (x.map (fun c => [c])).flatten = x := fun x => by
        rw [← List.flatMap_def, List.flatMap_singleton']
      rw [List.flatten_append, List.flatten_cons, hsingles, hsingles]
      conv_rhs => rw [← List.take_append_drop maxLen stream,
        ← List.take_append_drop (p + 1 - maxLen) (stream.drop maxLen), List.drop_drop,
        show maxLen + (p + 1 - maxLen) = p + 1 by omega]
    have hreceived : Received ((stream.take maxLen).map (fun c => [c]) ++
        (stream.drop maxLen).take (p + 1 - maxLen) ::
        (stream.drop (p + 1)).map (fun c => [c])) := by
      intro chunk hchunk
      simp only [List.mem_append, List.mem_map, List.mem_cons] at hchunk
      rcases hchunk with ⟨c, -, rfl⟩ | rfl | ⟨c, -, rfl⟩
      · exact ⟨by simp, by simp [chunkSize]⟩
      · refine ⟨List.ne_nil_of_mem hmem, ?_⟩
        rw [List.length_take]
        omega
      · exact ⟨by simp, by simp [chunkSize]⟩
    have hanswer := h _ hreceived hpieces
    rw [call, due, hp] at hanswer
    simp only [if_neg hlong, Answer.line.injEq] at hanswer
    refine readLineLoop_overrun hmem (stream.take maxLen) _ (connect _) (by simp [unread, connect])
      ?_ ?_ rfl ?_ hanswer
    · intro hin
      refine hclean ?_
      exact (List.take_prefix_take_left (by omega)).subset hin
    · rw [show unread (connect _) = [] from rfl, List.length_nil, Nat.zero_add]
      exact List.length_take_le _ _
    · simp [connect]
  · intro hsettled pending hreceived hstream
    have hrest : rest (connect pending) = stream := by rw [rest_connect, hstream]
    rw [(call_due (steady_connect hreceived) rfl (by rw [hrest]; exact hsettled)).1, hrest]

/-- Every request of a run is told what is due at its place. -/
theorem told_owed : ∀ (cs : List Call) {s : ClientStream} {left : Bytes} {n : Nat}, Steady s →
      rest s = left.drop n → AllSettled left (requested n s cs) →
      told s cs = owed left (requested n s cs) := by
  intro cs
  induction cs with
  | nil => exact fun _ _ _ => rfl
  | cons c cs ih =>
    intro s left n hsteady hleft hsettled
    have hnext := call_steady hsteady c
    rw [requested] at hsettled ⊢
    rw [told]
    by_cases hasks : c.asksFor = true
    · rw [if_pos hasks] at hsettled ⊢
      rw [if_pos hasks, owed, ← hleft]
      obtain ⟨hhere, hrest⟩ := hsettled
      rw [← hleft] at hhere hrest
      obtain ⟨hanswer, hafter⟩ := call_due hsteady hasks hhere
      rw [hanswer, hafter, ih hnext (by rw [hafter, List.drop_zero]) hrest]
    · rw [if_neg hasks] at hsettled ⊢
      rw [if_neg hasks]
      cases c with
      | readAvailable maxBytes =>
        exact ih hnext (by rw [rest_readAvailable hsteady, hleft, List.drop_drop]) hsettled
      | _ => exact absurd rfl hasks

/-- Two readers of the same bytes that make the same requests are told the same, and each request
    leaves the same; a line above the limit is refused to both. -/
theorem told_segments (first second : List Bytes) (cs cs' : List Call)
    (hfirst : Received first) (hsecond : Received second) (hsame : first.flatten = second.flatten)
    (hrequested : requested 0 (connect first) cs = requested 0 (connect second) cs')
    (hsettled : AllSettled first.flatten (requested 0 (connect first) cs)) :
    told (connect first) cs = told (connect second) cs' ∧
      told (connect first) cs = owed first.flatten (requested 0 (connect first) cs) := by
  have hstart : rest (connect first) = first.flatten.drop 0 := rest_connect first
  have hstart' : rest (connect second) = first.flatten.drop 0 := by
    rw [rest_connect, hsame, List.drop_zero]
  have htold := told_owed cs (steady_connect hfirst) hstart hsettled
  have htold' := told_owed cs' (steady_connect hsecond) hstart' (by rwa [← hrequested])
  exact ⟨by rw [htold, htold', hrequested], htold⟩

/-- A line within the limit and what comes behind it, in one piece and in three; between them
    each reader takes what is there, one in two calls. -/
theorem told_segments_within :
    told (connect [bytes "ab\r\ncdef"]) [.readLine 3, .readAvailable 2, .readN 2] =
      told (connect [bytes "a", bytes "b\r", bytes "\nc", bytes "d", bytes "ef"])
        [.readLine 3, .readAvailable 2, .readAvailable 2, .readN 2] :=
  (told_segments [bytes "ab\r\ncdef"] [bytes "a", bytes "b\r", bytes "\nc", bytes "d", bytes "ef"]
    [.readLine 3, .readAvailable 2, .readN 2]
    [.readLine 3, .readAvailable 2, .readAvailable 2, .readN 2] (by unfold Received; decide)
    (by unfold Received; decide) (by decide) (by decide)
    ⟨by decide, trivial, trivial⟩).1

/-- A line above the limit is handed out where it arrives at once, and refused otherwise. -/
theorem long_line_depends_on_segments :
    told (connect [bytes "abc\n"]) [.readLine 2] = [(.line (some (bytes "abc")), [])] ∧
      told (connect [bytes "abc", bytes "\n"]) [.readLine 2] = [(.line none, bytes "abc\n")] ∧
      requested 0 (connect [bytes "abc\n"]) [.readLine 2] =
        requested 0 (connect [bytes "abc", bytes "\n"]) [.readLine 2] := by
  decide

end QuackMail.Net
