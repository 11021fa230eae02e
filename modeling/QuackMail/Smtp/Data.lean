import QuackMail.Net.DotWriters

/-! # The end of a message

The command loop the MX, LMTP and submission listeners share, as far as it shares the stream
with `DATA`: a command is a line, and after `354` everything up to a line that is a dot is the
message.  The lines are told apart by their line feed alone, so a dot between bare line feeds
ends the message too.
-/

namespace QuackMail.Smtp

open Net

/-- `kMaxMessageBytes`. -/
def maxMessageBytes : Nat := 25 * 1024 * 1024

/-- What a listener makes of a command line: whether it is a `DATA` that it answers `354`; what
    any other command does to the session and the stream, nothing being left where it closes
    them; and the session after a message. -/
structure Listener (σ : Type) where
  takesData : σ → Bytes → Bool
  other : σ → Bytes → ClientStream → Option (σ × ClientStream)
  accepted : σ → Bytes → σ

inductive Event
  | command (line : Bytes)
  | message (body : Bytes)
  deriving DecidableEq

/-- The loop of `HandleInbound` and of `HandleSubmission`: what is executed, so many commands
    long. -/
def serve {σ : Type} (L : Listener σ) : Nat → σ → ClientStream → List Event
  | 0, _, _ => []
  | fuel + 1, st, s =>
    match readLine 8192 s with
    | (_, none) => []
    | (s', some line) =>
      if L.takesData st line then
        match readDotStuffed maxMessageBytes s' with
        | (_, none) => [.command line]
        | (s'', some body) =>
          .command line :: .message body :: serve L fuel (L.accepted st body) s''
      else
        match L.other st line s' with
        | none => [.command line]
        | some (st', s'') => .command line :: serve L fuel st' s''

/-- What is executed after the `354`. -/
def afterData {σ : Type} (L : Listener σ) (fuel : Nat) (st : σ) (s : ClientStream) : List Event :=
  match readDotStuffed maxMessageBytes s with
  | (_, none) => []
  | (s', some body) => .message body :: serve L fuel (L.accepted st body) s'

/-! ## Where a message ends -/

/-- CR LF `.` CR LF. -/
def terminator : Bytes := crlf ++ (dot ++ crlf)

/-- The line feed and what is in front of it of the line of a dot. -/
def IsEnd (e : Bytes) : Prop := e = [ch '\n'] ∨ e = crlf

/-- The text is empty or ends with a line feed. -/
def AtLine (before : Bytes) : Prop := before = [] ∨ ∃ front, before = front ++ [ch '\n']

/-- The text is empty or ends with CR LF. -/
def AtCrlf (before : Bytes) : Prop := before = [] ∨ ∃ front, before = front ++ crlf

/-- A line that is a dot, and its line feed, behind `before`. -/
def DotAt (wire before e after : Bytes) : Prop :=
  wire = before ++ (dot ++ (e ++ after)) ∧ IsEnd e ∧ AtLine before

/-- A message within the limit is followed by a dot that a bare line feed delimits on one side,
    before the first CR LF `.` CR LF. -/
def BareDot (wire : Bytes) : Prop :=
  ∃ before e after, DotAt wire before e after ∧ ¬(AtCrlf before ∧ e = crlf) ∧
    (received (textLines before)).length ≤ maxMessageBytes ∧
    ∀ p, find terminator (crlf ++ wire) = some p → before.length < p

/-- Lines, each with its line feed. -/
def joined (bodies : List Bytes) : Bytes := bodies.flatMap (· ++ [ch '\n'])

variable {bodies : List Bytes} {wire : Bytes}

theorem textLines_joined (h : ∀ body ∈ bodies, ch '\n' ∉ body) (x : Bytes) :
    textLines (joined bodies ++ x) = bodies ++ textLines x := by
  induction bodies with
  | nil => rfl
  | cons body bodies ih =>
    have hsplit : joined (body :: bodies) ++ x = body ++ ch '\n' :: (joined bodies ++ x) := by
      simp [joined]
    rw [hsplit, textLines, linesFrom_append (h body List.mem_cons_self), linesFrom, if_pos rfl,
      List.nil_append, List.cons_append, ← ih (fun b hb => h b (List.mem_cons_of_mem _ hb)),
      textLines]

theorem received_append (xs ys : List Bytes) :
    received (xs ++ ys) = received xs ++ received ys := List.flatMap_append

theorem atLine_joined (bodies : List Bytes) : AtLine (joined bodies) := by
  cases List.eq_nil_or_concat bodies with
  | inl hnil => exact Or.inl (by rw [hnil]; rfl)
  | inr hconcat =>
    obtain ⟨front, body, rfl⟩ := hconcat
    exact Or.inr ⟨joined front ++ body, by simp [joined]⟩

theorem stripCr_eq_dot {body : Bytes} (h : stripCr body = dot) :
    body = dot ∨ body = dot ++ [ch '\r'] := by
  unfold stripCr at h
  split at h
  · next hlast =>
    right
    obtain ⟨front, rfl⟩ := List.getLast?_eq_some_iff.mp hlast
    rw [List.dropLast_concat] at h
    rw [h]
  · exact Or.inl h

/-- The text the reader splits off is followed by a dot. -/
theorem DotText.dotAt {tail : Bytes} (h : DotText wire bodies tail) :
    (∃ e, DotAt wire (joined bodies) e tail) ∧ ∀ body ∈ bodies, ch '\n' ∉ body := by
  suffices hsplit : (∃ e, wire = joined bodies ++ (dot ++ (e ++ tail)) ∧ IsEnd e) ∧
      ∀ body ∈ bodies, ch '\n' ∉ body by
    obtain ⟨⟨e, hwire, he⟩, hclean⟩ := hsplit
    exact ⟨⟨e, hwire, he, atLine_joined bodies⟩, hclean⟩
  induction h with
  | @done s body tail first isDot =>
    refine ⟨?_, by simp⟩
    cases stripCr_eq_dot isDot with
    | inl hdot => exact ⟨[ch '\n'], by rw [first.eq, hdot]; rfl, Or.inl rfl⟩
    | inr hdot => exact ⟨crlf, by rw [first.eq, hdot]; rfl, Or.inr rfl⟩
  | @line s body more tail bodies first notDot next ih =>
    obtain ⟨⟨e, hmore, he⟩, hclean⟩ := ih
    refine ⟨⟨e, ?_, he⟩, ?_⟩
    · rw [first.eq, hmore]
      simp [joined]
    · intro b hb
      cases List.mem_cons.mp hb with
      | inl heq => rw [heq]; exact first.clean
      | inr hmem => exact hclean b hmem

theorem isEnd_firstLine {e : Bytes} (he : IsEnd e) (after : Bytes) :
    ∃ body, FirstLine (dot ++ (e ++ after)) body after ∧ stripCr body = dot := by
  cases he with
  | inl hlf => exact ⟨dot, ⟨by rw [hlf]; rfl, by decide⟩, by decide⟩
  | inr hcrlf => exact ⟨dot ++ [ch '\r'], ⟨by rw [hcrlf]; rfl, by decide⟩, stripCr_concat dot⟩

/-- Where there is a dot, the reader stops there or before. -/
theorem exists_dotText {before e after : Bytes} (h : DotAt wire before e after) :
    ∃ bodies tail, DotText wire bodies tail ∧ ∃ more, before = joined bodies ++ more := by
  obtain ⟨rfl, he, hline⟩ := h
  induction hn : before.length using Nat.strongRecOn generalizing before with
  | ind n ih =>
    cases hfind : findChar (ch '\n') before with
    | none =>
      have hnil : before = [] := by
        cases hline with
        | inl hnil => exact hnil
        | inr hfront =>
          obtain ⟨front, rfl⟩ := hfront
          exact absurd (by simp) (findChar_none hfind)
      obtain ⟨body, hfirst, hdot⟩ := isEnd_firstLine he after
      rw [hnil]
      exact ⟨[], after, .done hfirst hdot, [], rfl⟩
    | some p =>
      obtain ⟨hclean, hsplit⟩ := findChar_some hfind
      generalize hmore : before.drop (p + 1) = more at hsplit
      generalize before.take p = body at hclean hsplit
      subst hsplit
      have hfirst : FirstLine (body ++ ch '\n' :: more ++ (dot ++ (e ++ after))) body
          (more ++ (dot ++ (e ++ after))) := ⟨by simp, hclean⟩
      by_cases hdot : stripCr body = dot
      · exact ⟨[], _, .done hfirst hdot, _, rfl⟩
      · have hmoreline : AtLine more := by
          cases hline with
          | inl hnil => simp at hnil
          | inr hfront =>
            obtain ⟨front, hfront⟩ := hfront
            cases List.eq_nil_or_concat more with
            | inl hnil => exact Or.inl hnil
            | inr hconcat =>
              obtain ⟨init, last, rfl⟩ := hconcat
              have hends : (body ++ ch '\n' :: init) ++ [last] = front ++ [ch '\n'] := by
                rw [← hfront]
                simp
              have hlast := (List.append_inj' hends rfl).2
              exact Or.inr ⟨init, by rw [← hlast, List.concat_eq_append]⟩
        have hless : more.length < n := by
          rw [← hn, List.length_append, List.length_cons]
          omega
        obtain ⟨bodies, tail, htext, rest, hrest⟩ := ih more.length hless hmoreline rfl
        refine ⟨body :: bodies, tail, .line hfirst hdot htext, rest, ?_⟩
        rw [hrest]
        simp [joined]

/-- An occurrence of the terminator is a dot behind a CR LF. -/
theorem dotAt_of_terminator {p : Nat} (h : terminator <+: (crlf ++ wire).drop p) :
    DotAt wire (wire.take p) crlf (wire.drop (p + 3)) ∧ AtCrlf (wire.take p) ∧
      (wire.take p).length = p := by
  obtain ⟨after, hafter⟩ := h
  match p with
  | 0 =>
    have hwire : wire = dot ++ (crlf ++ after) := by
      rw [terminator, List.drop_zero, List.append_assoc, List.append_cancel_left_eq] at hafter
      rw [← hafter]
      simp
    subst hwire
    exact ⟨⟨rfl, Or.inr rfl, Or.inl rfl⟩, Or.inl rfl, rfl⟩
  | 1 =>
    have hhead : ch '\r' = ch '\n' := (List.cons.inj hafter).1
    exact absurd hhead (by decide)
  | q + 2 =>
    have hdrop : wire.drop q = crlf ++ (dot ++ (crlf ++ after)) := by
      have hskip : (crlf ++ wire).drop (q + 2) = wire.drop q := rfl
      rw [← hskip, ← hafter, terminator]
      simp
    have hlen : (wire.take q).length = q := by
      have hshort := congrArg List.length hdrop
      rw [List.length_drop, List.length_append, length_crlf] at hshort
      rw [List.length_take]
      omega
    have hwire : wire = wire.take q ++ (crlf ++ (dot ++ (crlf ++ after))) := by
      rw [← hdrop, List.take_append_drop]
    generalize wire.take q = front at hlen hwire
    have htake : wire.take (q + 2) = front ++ crlf := by
      rw [hwire, ← List.append_assoc, List.take_left' (by simp [hlen])]
    have hrest : wire.drop (q + 2 + 3) = after := by
      have hsplit : wire = (front ++ crlf ++ dot ++ crlf) ++ after := by
        rw [hwire]
        simp
      rw [hsplit, List.drop_left' (by simp [hlen, dot])]
    rw [htake, hrest]
    refine ⟨⟨by rw [hwire]; simp, Or.inr rfl, Or.inr ⟨front ++ [ch '\r'], by simp [crlf]⟩⟩,
      Or.inr ⟨front, rfl⟩, by simp [hlen]⟩

/-- A dot behind a CR LF and in front of one is an occurrence of the terminator. -/
theorem terminator_of_dotAt {before after : Bytes} (h : DotAt wire before crlf after)
    (hcrlf : AtCrlf before) : terminator <+: (crlf ++ wire).drop before.length := by
  obtain ⟨hwire, -, -⟩ := h
  cases hcrlf with
  | inl hnil =>
    rw [hwire, hnil]
    exact ⟨after, by simp [terminator]⟩
  | inr hfront =>
    obtain ⟨front, rfl⟩ := hfront
    have hsplit : crlf ++ wire = (crlf ++ front) ++ (terminator ++ after) := by
      rw [hwire]
      simp [terminator]
    rw [hsplit, List.drop_left' (by simp; omega)]
    exact List.prefix_append _ _

/-! ## What is taken as the message -/

/-- What comes after the `354` is a message, the octets before the first CR LF `.` CR LF, and
    what is executed of the octets after it; or nothing, where there is none or the message is
    over the limit. -/
def EndsAtTerminator {σ : Type} (L : Listener σ) (fuel : Nat) (st : σ) (s : ClientStream) : Prop :=
  (∃ p s', find terminator (crlf ++ rest s) = some p ∧
    rest s' = (rest s).drop (p + 3) ∧
    afterData L fuel st s =
      .message (received (textLines ((rest s).take p))) ::
        serve L fuel (L.accepted st (received (textLines ((rest s).take p)))) s') ∨
  (afterData L fuel st s = [] ∧
    ∀ p, find terminator (crlf ++ rest s) = some p →
      maxMessageBytes < (received (textLines ((rest s).take p))).length)

theorem length_received_joined (h : ∀ body ∈ bodies, ch '\n' ∉ body)
    (more : Bytes) : (received (textLines (joined bodies ++ more))).length =
      (received bodies).length + (received (textLines more)).length := by
  rw [textLines_joined h, received_append, List.length_append]

theorem textLines_joined_nil (h : ∀ body ∈ bodies, ch '\n' ∉ body) :
    textLines (joined bodies) = bodies := by
  have hjoined := textLines_joined h []
  rw [List.append_nil] at hjoined
  rw [hjoined]
  exact List.append_nil _

/-- Without a bare dot the text the reader splits off ends at the first terminator. -/
theorem find_of_dotText {tail : Bytes} (h : DotText wire bodies tail)
    (hlen : (received bodies).length ≤ maxMessageBytes) (hbare : ¬BareDot wire) :
    find terminator (crlf ++ wire) = some (joined bodies).length ∧
      wire.take (joined bodies).length = joined bodies ∧
      wire.drop ((joined bodies).length + 3) = tail := by
  obtain ⟨⟨e, hdot⟩, hclean⟩ := DotText.dotAt h
  -- the reader stops at the first dot, and every terminator is one
  have hfirst : ∀ p, terminator <+: (crlf ++ wire).drop p → (joined bodies).length ≤ p := by
    intro p hp
    obtain ⟨hdot', -, hp'⟩ := dotAt_of_terminator hp
    obtain ⟨bodies', tail', htext', more, hmore⟩ := exists_dotText hdot'
    obtain ⟨rfl, -⟩ := h.unique htext'
    have hlength := congrArg List.length hmore
    rw [hp', List.length_append] at hlength
    omega
  have hdelimited : AtCrlf (joined bodies) ∧ e = crlf := by
    by_contra hnot
    refine hbare ⟨joined bodies, e, tail, hdot, hnot, ?_, ?_⟩
    · rwa [textLines_joined_nil hclean]
    · intro p hp
      obtain ⟨hlead, -⟩ := find_spec hp
      refine Nat.lt_of_le_of_ne (hfirst p hlead) fun heq => hnot ?_
      obtain ⟨hdot', hcrlf, -⟩ := dotAt_of_terminator hlead
      have htake : wire.take p = joined bodies := by
        rw [hdot.1, ← heq, List.take_left]
      rw [htake] at hdot' hcrlf
      refine ⟨hcrlf, ?_⟩
      have hboth := hdot.1.symm.trans hdot'.1
      rw [List.append_cancel_left_eq, List.append_cancel_left_eq] at hboth
      cases hdot.2.1 with
      | inl hlf =>
        rw [hlf] at hboth
        exact absurd (congrArg List.head? hboth) (by simp [crlf]; decide)
      | inr hcrlf' => exact hcrlf'
  obtain ⟨hcrlf, rfl⟩ := hdelimited
  obtain ⟨q, hq, hfind⟩ := exists_find_le (terminator_of_dotAt hdot hcrlf)
  have hge := hfirst q (find_spec hfind).1
  have htake : wire.take (joined bodies).length = joined bodies := by
    rw [hdot.1, List.take_left]
  refine ⟨by rw [hfind, show q = (joined bodies).length by omega], htake, ?_⟩
  have hsplit : wire = (joined bodies ++ dot ++ crlf) ++ tail := by
    rw [hdot.1]
    simp
  conv_lhs => rw [hsplit]
  exact List.drop_left' (by simp [dot])

/-- The message ends at the first CR LF `.` CR LF and at nothing else, where no dot within the
    limit is delimited by a bare line feed before it. -/
theorem data_ends_iff {σ : Type} (L : Listener σ) (fuel : Nat) (st : σ) (s : ClientStream)
    (h : Steady s) : EndsAtTerminator L fuel st s ↔ ¬BareDot (rest s) := by
  constructor
  · rintro hends ⟨before, e, after, hdot, hnot, hlen, hearly⟩
    obtain ⟨bodies, tail, htext, more, hmore⟩ := exists_dotText hdot
    obtain ⟨-, hclean⟩ := DotText.dotAt htext
    have hbodies : (received bodies).length ≤ maxMessageBytes := by
      rw [hmore, length_received_joined hclean] at hlen
      omega
    obtain ⟨s', hread, -, -⟩ := readDotStuffed_complete (by decide) h htext hbodies
    have htaken : afterData L fuel st s =
        .message (received bodies) :: serve L fuel (L.accepted st (received bodies)) s' := by
      rw [afterData, hread]
    cases hends with
    | inl hmessage =>
      obtain ⟨p, s'', hfind, -, hmessage⟩ := hmessage
      rw [htaken, List.cons.injEq, Event.message.injEq] at hmessage
      have hp := hearly p hfind
      obtain ⟨hdot', -, hp'⟩ := dotAt_of_terminator (find_spec hfind).1
      obtain ⟨bodies', tail', htext', more', hmore'⟩ := exists_dotText hdot'
      obtain ⟨rfl, -⟩ := htext.unique htext'
      -- the message is shorter than what is in front of the terminator
      have hlength := congrArg List.length hmessage.1
      rw [hmore', length_received_joined hclean] at hlength
      have hempty : textLines more' = [] := by
        cases hlines : textLines more' with
        | nil => rfl
        | cons line lines =>
          rw [hlines, received_cons, List.length_append, List.length_append, length_crlf] at hlength
          omega
      have hnil : more' = [] := by
        cases more' with
        | nil => rfl
        | cons c more' =>
          rw [textLines, linesFrom] at hempty
          split at hempty
          · cases hempty
          · exact absurd hempty (linesFrom_ne_nil (by simp) _)
      have hshort := congrArg List.length hmore'
      rw [hp', hnil, List.append_nil] at hshort
      have hbefore := congrArg List.length hmore
      rw [List.length_append] at hbefore
      omega
    | inr hnothing => exact absurd (htaken.symm.trans hnothing.1) (by simp)
  · intro hbare
    cases hread : readDotStuffed maxMessageBytes s with
    | mk s' answer =>
      cases answer with
      | some body =>
        obtain ⟨bodies, htext, rfl, hlen, -⟩ := readDotStuffed_sound h hread
        obtain ⟨hfind, htake, hdrop⟩ := find_of_dotText htext hlen hbare
        obtain ⟨-, hclean⟩ := DotText.dotAt htext
        refine Or.inl ⟨_, s', hfind, hdrop.symm, ?_⟩
        rw [htake, textLines_joined_nil hclean, afterData, hread]
      | none =>
        refine Or.inr ⟨by rw [afterData, hread], fun p hfind => ?_⟩
        by_contra hle
        obtain ⟨hdot, -, -⟩ := dotAt_of_terminator (find_spec hfind).1
        obtain ⟨bodies, tail, htext, more, hmore⟩ := exists_dotText hdot
        obtain ⟨-, hclean⟩ := DotText.dotAt htext
        rw [hmore, length_received_joined hclean] at hle
        obtain ⟨s'', hread', -⟩ := readDotStuffed_complete (by decide) h htext
          (show (received bodies).length ≤ maxMessageBytes by omega)
        rw [hread] at hread'
        cases hread'

/-- A session that takes every other command for done. -/
def echo : Listener Unit := ⟨fun _ _ => false, fun _ _ s => some ((), s), fun _ _ => ()⟩

theorem data_ends_plain : EndsAtTerminator echo 2 () (connect [bytes "a\r\n..b\r\n.\r\nQUIT\r\n"]) ↔
      ¬BareDot (rest (connect [bytes "a\r\n..b\r\n.\r\nQUIT\r\n"])) :=
  data_ends_iff echo 2 () _ (steady_connect (by unfold Received; decide +kernel))

/-- A dot between bare line feeds ends the message, and what the sender of the message put
    behind it is executed. -/
theorem bare_dot_smuggles : afterData echo 2 () (connect [bytes "a\n.\nRSET\r\n.\r\n"]) =
      [.message (bytes "a\r\n"), .command (bytes "RSET"), .command dot] ∧
    ¬EndsAtTerminator echo 2 () (connect [bytes "a\n.\nRSET\r\n.\r\n"]) := by
  have hdone : afterData echo 2 () (connect [bytes "a\n.\nRSET\r\n.\r\n"]) =
      [.message (bytes "a\r\n"), .command (bytes "RSET"), .command dot] := by decide +kernel
  have hfind : find terminator (crlf ++ rest (connect [bytes "a\n.\nRSET\r\n.\r\n"])) =
      some 10 := by
    decide +kernel
  refine ⟨hdone, fun hends => ?_⟩
  cases hends with
  | inl hmessage =>
    obtain ⟨p, s', hp, -, hmessage⟩ := hmessage
    rw [hfind, Option.some.injEq] at hp
    subst hp
    rw [hdone, List.cons.injEq, Event.message.injEq] at hmessage
    exact absurd hmessage.1 (by decide +kernel)
  | inr hnothing =>
    rw [hdone] at hnothing
    exact absurd hnothing.1 (by simp)

end QuackMail.Smtp
