import QuackMail.Nntp.Session

/-! # Transit stays in step and files once

`Consumed` says of a command with an article that the session reads on behind the article's dot.  An
article is filed once as long as no session looks an id up while another is between its lookup and
its record of the same id; `Effect` says what one step of a session does to the store.
-/

namespace QuackMail.Nntp

open Citadel Net

/-! ## What a run has to give -/

/-- What was unread before the article, and after it: if there is a dot, what follows it. -/
def Consumed (before after : Bytes) : Prop :=
  ∀ bodies tail, DotText before bodies tail → after = tail

/-- The sessions stay in step, an id is filed once, and what was answered 235, 239 or 240 is in one
    of its rooms. -/
structure InStep (v : Server) : Prop where
  consumed : ∀ i, ∀ h ∈ (v.conns i).log, Consumed h.1 h.2
  once : v.news.filed.Nodup
  filed : ∀ a ∈ v.news.answered, ∃ room ∈ a.2, messageInRoom v.news.store room a.1 = true

/-- The id a session has looked up and not recorded yet. -/
def Phase.claims : Phase → Option Bytes
  | .ihave msgid => some msgid
  | .insert _ msgid _ => some msgid
  | .record _ msgid _ _ => some msgid
  | _ => none

def Unclaimed (v : Server) (i : Nat) (msgid : Bytes) : Prop :=
  ∀ j, j ≠ i → (v.conns j).phase.claims ≠ some msgid

/-- The article that follows is within the limit. -/
def WithinLimit (s : ClientStream) : Prop :=
  ∀ bodies tail, DotText (rest s) bodies tail → (received bodies).length ≤ kMaxArticleBytes

/-- A TAKETHIS comes from an authenticated peer, an article is within the limit, and an id is looked
    up only when no other session is between its lookup and its record of that id. -/
def Fits (v : Server) (i : Nat) : Prop :=
  match (v.conns i).phase with
  | .command => ∀ s line, readLine 8192 (v.conns i).stream = (s, some line) →
      (upper (word line 0) = bytes "TAKETHIS" → (v.conns i).peer.authed = true) ∧
        (upper (word line 0) = bytes "IHAVE" → Unclaimed v i (word line 1))
  | .ihave _ => WithinLimit (v.conns i).stream
  | .takethis _ => WithinLimit (v.conns i).stream
  | .post => WithinLimit (v.conns i).stream
  | .lookup msgid _ => Unclaimed v i msgid
  | _ => True

/-- Every step of the run fits. -/
def FitRun (e : Env) : Server → List (Nat × World) → Prop
  | _, [] => True
  | v, a :: steps => Fits v a.1 ∧ FitRun e (step e v a) steps

/-! ## The streams -/

/-- What is known of a session by itself. -/
structure Tidy (c : Conn) : Prop where
  steady : Steady c.stream
  log : ∀ h ∈ c.log, Consumed h.1 h.2
  opened :
    match c.phase with
    | .command => c.opened = none
    | .closed => True
    | .ihave _ => c.opened = some (rest c.stream)
    | .takethis _ => c.opened = some (rest c.stream)
    | .post => c.opened = some (rest c.stream)
    | _ => ∃ before, c.opened = some before ∧ Consumed before (rest c.stream)

theorem readDotStuffed_steady (maxBytes : Nat) {s : ClientStream} (h : Steady s) :
    Steady (readDotStuffed maxBytes s).1 := by
  have hloop : ∀ (fuel : Nat) (out : Bytes) (s : ClientStream), Steady s →
      Steady (readDotStuffedLoop maxBytes fuel out s).1 := by
    intro fuel
    induction fuel with
    | zero => exact fun _ _ h => h
    | succ fuel ih =>
      intro out s h
      have hread := (readLine_spec maxBytes h).2
      rw [readDotStuffedLoop]
      cases hline : readLine maxBytes s with
      | mk s' answer =>
        rw [hline] at hread
        cases answer with
        | none => exact hread
        | some line =>
          dsimp only
          split
          · exact hread
          split
          · exact hread
          · exact ih _ _ hread
  exact hloop _ _ _ h

/-- Reading an article that is within the limit takes it off the stream. -/
theorem consumed_read {s : ClientStream} (h : Steady s) (hfits : WithinLimit s) :
    Consumed (rest s) (rest (readDotStuffed kMaxArticleBytes s).1) := by
  intro bodies tail htext
  obtain ⟨s', hread, hrest, -⟩ :=
    readDotStuffed_complete (by decide) h htext (hfits bodies tail htext)
  rw [hread]
  exact hrest

variable {c : Conn} {p : Phase} {e : Env} {n : News} {msgid : Bytes} {w : World} {i msgnum : Nat}
  {v : Server} {rooms : List Nat} {s : Store} {phases : Nat → Phase}

theorem Tidy.finish (hsteady : Steady c.stream) (hlog : ∀ h ∈ c.log, Consumed h.1 h.2)
    (hopened : ∀ before ∈ c.opened, Consumed before (rest c.stream)) (r : Bytes) :
    Tidy (c.finish r) where
  steady := hsteady
  log := by
    intro h hmem
    rcases List.mem_append.mp hmem with hmem | hmem
    · exact hlog h hmem
    · obtain ⟨before, hbefore, rfl⟩ := List.mem_map.mp hmem
      exact hopened before (Option.mem_toList.mp hbefore)
  opened := rfl

theorem Tidy.reply (h : Tidy c) (r : Bytes) : Tidy (c.reply r) :=
  ⟨h.steady, h.log, h.opened⟩

theorem Tidy.opens (h : Tidy c)
    (hp : p = .post ∨ (∃ msgid, p = .ihave msgid) ∨ ∃ msgid, p = .takethis msgid) :
    Tidy (c.opens p) where
  steady := h.steady
  log := h.log
  opened := by rcases hp with rfl | ⟨msgid, rfl⟩ | ⟨msgid, rfl⟩ <;> rfl

theorem authinfo_fields (e : Env) (c : Conn) (line : Bytes) :
    (authinfo e c line).stream = c.stream ∧ (authinfo e c line).phase = c.phase ∧
      (authinfo e c line).log = c.log ∧ (authinfo e c line).opened = c.opened := by
  unfold authinfo
  dsimp only
  split_ifs <;> exact ⟨rfl, rfl, rfl, rfl⟩

theorem Tidy.command {line : Bytes} (h : Tidy c) (hphase : c.phase = .command)
    (hfits : upper (word line 0) = bytes "TAKETHIS" → c.peer.authed = true) :
    Tidy (Nntp.command e n c line) := by
  have hopened := h.opened
  rw [hphase] at hopened
  have hother : Tidy (answerOther e n c line) := ⟨h.steady, h.log, h.opened⟩
  unfold Nntp.command
  dsimp only
  split
  · exact h
  split
  · exact ⟨h.steady, h.log, trivial⟩
  split
  · exact hother
  split
  · obtain ⟨hstream, hsame, hlog, hopen⟩ := authinfo_fields e c line
    exact ⟨hstream ▸ h.steady, hlog ▸ h.log, by rw [hsame, hphase, hopen]; exact hopened⟩
  split
  · rename_i hanon
    apply Tidy.finish (c := { c with
      opened := if upper (word line 0) = bytes "TAKETHIS" then some (rest c.stream) else none })
      h.steady h.log
    intro before hbefore
    split at hbefore
    · rename_i htakethis
      rw [hfits htakethis] at hanon
      cases hanon
    · cases hbefore
  split
  · exact (h.reply _).opens (.inl rfl)
  split
  · unfold offer
    split
    · exact h.reply _
    · exact (h.reply _).opens (.inr (.inl ⟨_, rfl⟩))
  split
  · exact h.opens (.inr (.inr ⟨_, rfl⟩))
  · exact hother

/-- An article is read, and the command is over. -/
theorem Tidy.readFinish (h : Tidy c) (hopened : c.opened = some (rest c.stream))
    (hfits : WithinLimit c.stream) {s : ClientStream} {answer : Option Bytes}
    (hread : readDotStuffed kMaxArticleBytes c.stream = (s, answer)) (r : Bytes) :
    Tidy ({ c with stream := s }.finish r) := by
  have hsteady := readDotStuffed_steady kMaxArticleBytes h.steady
  have hconsumed := consumed_read h.steady hfits
  rw [hread] at hsteady hconsumed
  refine @Tidy.finish { c with stream := s } hsteady h.log ?_ r
  intro before hbefore
  have heq : some before = some (rest c.stream) := (hopened ▸ hbefore : _ = _).symm
  rw [Option.some.inj heq]
  exact hconsumed

/-- An article is read, and the command goes on. -/
theorem Tidy.readOn (h : Tidy c) (hopened : c.opened = some (rest c.stream))
    (hfits : WithinLimit c.stream) {s : ClientStream} {answer : Option Bytes}
    (hread : readDotStuffed kMaxArticleBytes c.stream = (s, answer))
    (hp : (∃ msgid text, p = .lookup msgid text) ∨ (∃ b msgid text, p = .insert b msgid text) ∨
      ∃ text, p = .postInsert text) :
    Tidy { c with stream := s, phase := p } := by
  have hsteady := readDotStuffed_steady kMaxArticleBytes h.steady
  have hconsumed := consumed_read h.steady hfits
  rw [hread] at hsteady hconsumed
  refine ⟨hsteady, h.log, ?_⟩
  rcases hp with ⟨msgid, text, rfl⟩ | ⟨b, msgid, text, rfl⟩ | ⟨text, rfl⟩
  · exact ⟨_, hopened, hconsumed⟩
  · exact ⟨_, hopened, hconsumed⟩
  · exact ⟨_, hopened, hconsumed⟩

/-- Behind the article the command goes on or is over. -/
theorem Tidy.over (h : Tidy c)
    (hopened : ∃ before, c.opened = some before ∧ Consumed before (rest c.stream)) (r : Bytes) :
    Tidy (c.finish r) := by
  apply Tidy.finish h.steady h.log
  obtain ⟨before, heq, hconsumed⟩ := hopened
  intro b hb
  rw [heq] at hb
  exact Option.some.inj hb ▸ hconsumed

theorem Tidy.insertOffered {b : Bool} {article : Bytes} (h : Tidy c)
    (hopened : ∃ before, c.opened = some before ∧ Consumed before (rest c.stream)) :
    Tidy (Nntp.insertOffered e w c n b msgid article).1 := by
  unfold Nntp.insertOffered
  dsimp only
  split
  · exact h.over hopened _
  split
  · exact h.over hopened _
  split
  · exact h.over hopened _
  · exact ⟨h.steady, h.log, hopened⟩

theorem Tidy.insertPosted {article : Bytes} (h : Tidy c)
    (hopened : ∃ before, c.opened = some before ∧ Consumed before (rest c.stream)) :
    Tidy (Nntp.insertPosted e w c n article).1 := by
  unfold Nntp.insertPosted
  split
  · exact h.over hopened _
  split
  · exact h.over hopened _
  dsimp only
  split
  · exact h.over hopened _
  · exact ⟨h.steady, h.log, hopened⟩

/-- A step that fits leaves the session tidy. -/
theorem Tidy.advance (h : Tidy (v.conns i))
    (hfits : Fits v i) : Tidy (Nntp.advance e w (v.conns i) v.news).1 := by
  have hopened := h.opened
  unfold Fits at hfits
  unfold Nntp.advance
  dsimp only
  split
  · exact h
  · rename_i hphase
    rw [hphase] at hfits hopened
    split
    · rename_i s hread
      have hsteady := (readLine_spec 8192 h.steady).2
      rw [hread] at hsteady
      exact ⟨hsteady, h.log, trivial⟩
    · rename_i s line hread
      have hsteady := (readLine_spec 8192 h.steady).2
      rw [hread] at hsteady
      have hmoved : Tidy { v.conns i with stream := s } :=
        ⟨hsteady, h.log, by rw [hphase]; exact hopened⟩
      exact hmoved.command hphase (hfits s line hread).1
  · rename_i msgid hphase
    rw [hphase] at hfits hopened
    split
    · rename_i s hread
      exact h.readFinish hopened hfits hread _
    · rename_i s text hread
      exact h.readOn hopened hfits hread (.inr (.inl ⟨_, _, _, rfl⟩))
  · rename_i msgid hphase
    rw [hphase] at hfits hopened
    split
    · rename_i s hread
      exact h.readFinish hopened hfits hread _
    · rename_i s text hread
      split
      · exact h.readOn hopened hfits hread (.inl ⟨_, _, rfl⟩)
      · exact h.readFinish hopened hfits hread _
  · rename_i msgid text hphase
    rw [hphase] at hopened
    split
    · exact h.over hopened _
    · exact ⟨h.steady, h.log, hopened⟩
  · rename_i b msgid text hphase
    rw [hphase] at hopened
    exact h.insertOffered hopened
  · rename_i b msgid msgnum rooms hphase
    rw [hphase] at hopened
    exact h.over hopened _
  · rename_i hphase
    rw [hphase] at hfits hopened
    split
    · rename_i s hread
      exact h.readFinish hopened hfits hread _
    · rename_i s text hread
      exact h.readOn hopened hfits hread (.inr (.inr ⟨_, rfl⟩))
  · rename_i text hphase
    rw [hphase] at hopened
    exact h.insertPosted hopened
  · rename_i msgid msgnum rooms hphase
    rw [hphase] at hopened
    exact h.over hopened _

/-! ## The store -/

/-- Rows and pointers stay. -/
structure Grows (s s' : Store) : Prop where
  rows : ∀ n, (findRow s n).isSome = true → (findRow s' n).isSome = true
  pointers : ∀ room n, messageInRoom s room n = true → messageInRoom s' room n = true
  seq : s.seq ≤ s'.seq

theorem Grows.refl (s : Store) : Grows s s := ⟨fun _ h => h, fun _ _ h => h, Nat.le_refl _⟩

/-- A message was filed under the number in one of the rooms. -/
structure Stored (s s' : Store) (msgnum : Nat) (rooms : List Nat) : Prop where
  grows : Grows s s'
  row : (findRow s' msgnum).isSome = true
  room : ∃ room ∈ rooms, messageInRoom s' room msgnum = true
  number : msgnum = s.seq

theorem stored_of_insertMessage {s' : Store} {msg : Message}
    (hne : rooms ≠ []) (h : insertMessage w s msg rooms = (s', .ok msgnum)) :
    Stored s s' msgnum rooms := by
  obtain ⟨-, -, rfl, rfl⟩ := insertMessage_accepted h
  obtain ⟨hmessages, -, hseq⟩ := @links_frame
    { s with messages := s.messages ++ [storedRow w s msg], seq := s.seq + 1 } s.seq rooms
  obtain ⟨room, hroom⟩ := List.exists_mem_of_ne_nil rooms hne
  refine ⟨⟨?_, ?_, ?_⟩, ?_, ⟨room, hroom, ?_⟩, rfl⟩
  · intro n hn
    rw [findRow] at hn ⊢
    rw [hmessages, List.find?_append]
    simp [hn]
  · intro room n hn
    simp only [messageInRoom, decide_eq_true_eq, mem_links] at hn ⊢
    exact .inl hn
  · rw [hseq]
    exact Nat.le_succ _
  · rw [findRow, hmessages, List.find?_append]
    simp [storedRow]
  · simp only [messageInRoom, decide_eq_true_eq, mem_links]
    exact .inr ⟨trivial, hroom⟩

theorem grows_of_error {s' : Store} {msg : Message} {why : Bytes}
    (h : insertMessage w s msg rooms = (s', .error why)) : Grows s s' := by
  obtain ⟨-, rfl⟩ | ⟨-, rfl⟩ := insertMessage_refused h
  · exact .refl _
  · exact ⟨fun _ h => h, fun _ _ h => h, Nat.le_succ _⟩

/-- Nothing is claimed or about to be recorded, and an id to be looked up is one. -/
def Phase.Quiet : Phase → Prop
  | .ihave _ => False
  | .insert _ _ _ => False
  | .record _ _ _ _ => False
  | .postRecord _ _ _ => False
  | .lookup msgid _ => msgid ≠ []
  | _ => True

/-- What a step of a session does to the news, by where the session is before and after. -/
inductive Effect (free : Bytes → Prop) (p : Phase) (n : News) : Phase → News → Prop
  /-- nothing, and no id is claimed from here on -/
  | quiet {p' : Phase} {s : Store} (grows : Grows n.store s) (after : p'.Quiet)
      (before : ∀ b msgid msgnum rooms, p ≠ .record b msgid msgnum rooms) :
      Effect free p n p' { n with store := s }
  /-- the id is looked up, and not there -/
  | looked {p' : Phase} {msgid : Bytes}
      (after : p' = .ihave msgid ∨ ∃ text, p' = .insert true msgid text)
      (before : ∀ b id msgnum rooms, p ≠ .record b id msgnum rooms)
      (wellFormed : msgid ≠ []) (absent : findByMessageId n msgid = none) (unclaimed : free msgid) :
      Effect free p n p' n
  | read {msgid text : Bytes} (at_ : p = .ihave msgid) :
      Effect free p n (.insert false msgid text) n
  | filed {b : Bool} {msgid text : Bytes} {s : Store} {msgnum : Nat} {rooms : List Nat}
      (at_ : p = .insert b msgid text) (stored : Stored n.store s msgnum rooms) :
      Effect free p n (.record b msgid msgnum rooms)
        { n with store := s, filed := n.filed ++ [msgid] }
  | posted {text msgid : Bytes} {s : Store} {msgnum : Nat} {rooms : List Nat}
      (at_ : p = .postInsert text) (stored : Stored n.store s msgnum rooms) :
      Effect free p n (.postRecord msgid msgnum rooms) { n with store := s }
  | recorded {msgid : Bytes} {msgnum : Nat} {rooms : List Nat}
      (at_ : (∃ b, p = .record b msgid msgnum rooms) ∨ p = .postRecord msgid msgnum rooms) :
      Effect free p n .command
        { recordMessageId n msgid msgnum with
          answered := (recordMessageId n msgid msgnum).answered ++ [(msgnum, rooms)] }

theorem authinfo_phase (e : Env) (c : Conn) (line : Bytes) :
    (authinfo e c line).phase = c.phase := (authinfo_fields e c line).2.1

theorem ne_nil_of_wellFormed (h : wellFormed msgid = true) : msgid ≠ [] := by
  rintro rfl
  exact absurd h (by decide)

/-- A line that is read as a command leads to an article or is answered. -/
theorem command_phase (e : Env) (n : News) (c : Conn) (line : Bytes) (hphase : c.phase = .command) :
    (command e n c line).phase.Quiet ∨
      ((command e n c line).phase = .ihave (word line 1) ∧ upper (word line 0) = bytes "IHAVE" ∧
        word line 1 ≠ [] ∧ findByMessageId n (word line 1) = none) := by
  have hquiet : ∀ c' : Conn, c'.phase = .command → c'.phase.Quiet := by
    intro c' hc'
    rw [hc']
    trivial
  unfold command
  dsimp only
  split
  · exact .inl (hquiet c hphase)
  split
  · exact .inl trivial
  split
  · exact .inl (hquiet _ hphase)
  split
  · exact .inl (hquiet _ ((authinfo_phase e c line).trans hphase))
  split
  · exact .inl trivial
  split
  · exact .inl trivial
  split
  · rename_i hihave
    unfold offer
    split
    · exact .inl (hquiet _ hphase)
    · rename_i hnew
      rw [not_or, Bool.not_eq_false, Option.not_isSome_iff_eq_none] at hnew
      exact .inr ⟨rfl, hihave, ne_nil_of_wellFormed hnew.1, hnew.2⟩
  split
  · exact .inl trivial
  · exact .inl (hquiet _ hphase)

theorem effect_insertOffered (free : Bytes → Prop) (e : Env) (w : World) (c : Conn) (n : News)
    (b : Bool) (msgid article : Bytes) (hphase : c.phase = .insert b msgid article) :
    Effect free c.phase n (insertOffered e w c n b msgid article).1.phase
      (insertOffered e w c n b msgid article).2 := by
  have hquiet : ∀ (s : Store), Grows n.store s → ∀ r,
      Effect free c.phase n (c.finish r).phase { n with store := s } := by
    intro s hgrows r
    refine .quiet hgrows trivial ?_
    rw [hphase]
    exact fun _ _ _ _ h => nomatch h
  unfold insertOffered
  dsimp only
  split
  · exact hquiet _ (Grows.refl _) _
  split
  · exact hquiet _ (Grows.refl _) _
  rename_i hne
  split
  · rename_i s why hinsert
    exact hquiet s (grows_of_error hinsert) _
  · rename_i s msgnum hinsert
    exact .filed hphase (stored_of_insertMessage hne hinsert)

theorem postRooms_ne_nil {username : Bytes} {groups : List Bytes}
    (hne : groups ≠ []) (h : postRooms e s username groups = .ok rooms) :
    rooms ≠ [] := by
  cases groups with
  | nil => exact (hne rfl).elim
  | cons g groups =>
    rw [postRooms] at h
    split at h
    · cases h
    split at h
    · cases h
    cases hrest : postRooms e s username groups with
    | error reply =>
      rw [hrest] at h
      cases h
    | ok more =>
      rw [hrest] at h
      exact Except.ok.inj h ▸ List.cons_ne_nil _ _

theorem effect_insertPosted (free : Bytes → Prop) (e : Env) (w : World) (c : Conn) (n : News)
    (article : Bytes) (hphase : c.phase = .postInsert article) :
    Effect free c.phase n (insertPosted e w c n article).1.phase
      (insertPosted e w c n article).2 := by
  have hquiet : ∀ (s : Store), Grows n.store s → ∀ r,
      Effect free c.phase n (c.finish r).phase { n with store := s } := by
    intro s hgrows r
    refine .quiet hgrows trivial ?_
    rw [hphase]
    exact fun _ _ _ _ h => nomatch h
  unfold insertPosted
  split
  · exact hquiet _ (Grows.refl _) _
  rename_i hne
  split
  · exact hquiet _ (Grows.refl _) _
  rename_i rooms hrooms
  dsimp only
  split
  · rename_i s why hinsert
    exact hquiet s (grows_of_error hinsert) _
  · rename_i s msgnum hinsert
    exact .posted hphase (stored_of_insertMessage (postRooms_ne_nil hne hrooms) hinsert)

theorem effect_advance {free : Bytes → Prop} (e : Env) (w : World) (c : Conn) (n : News)
    (hlookup : ∀ msgid text, c.phase = .lookup msgid text → msgid ≠ [] ∧ free msgid)
    (hcommand : c.phase = .command → ∀ s line, readLine 8192 c.stream = (s, some line) →
      upper (word line 0) = bytes "IHAVE" → free (word line 1)) :
    Effect free c.phase n (advance e w c n).1.phase (advance e w c n).2 := by
  have hquiet : ∀ p', Phase.Quiet p' →
      (∀ b msgid msgnum rooms, c.phase ≠ .record b msgid msgnum rooms) →
        Effect free c.phase n p' n :=
    fun p' hp' hbefore => .quiet (Grows.refl n.store) hp' hbefore
  unfold advance
  dsimp only
  split <;> rename_i hphase
  · exact hquiet _ (by rw [hphase]; trivial) (by simp [hphase])
  · split
    · exact hquiet _ trivial (by simp [hphase])
    · rename_i s line hread
      rcases command_phase e n { c with stream := s } line hphase with
        hq | ⟨hp, hverb, hne, habsent⟩
      · exact hquiet _ hq (by simp [hphase])
      · exact .looked (.inl hp) (by simp [hphase]) hne habsent (hcommand hphase s line hread hverb)
  · split
    · exact hquiet _ trivial (by simp [hphase])
    · exact .read hphase
  · split
    · exact hquiet _ trivial (by simp [hphase])
    · split
      · rename_i hwell
        exact hquiet _ (ne_nil_of_wellFormed hwell) (by simp [hphase])
      · exact hquiet _ trivial (by simp [hphase])
  · split
    · exact hquiet _ trivial (by simp [hphase])
    · rename_i msgid text hnew
      rw [Option.not_isSome_iff_eq_none] at hnew
      obtain ⟨hne, hfree⟩ := hlookup _ _ hphase
      exact .looked (.inr ⟨_, rfl⟩) (by simp [hphase]) hne hnew hfree
  · exact effect_insertOffered free e w c n _ _ _ hphase
  · exact .recorded (.inl ⟨_, hphase⟩)
  · split
    · exact hquiet _ trivial (by simp [hphase])
    · exact hquiet _ trivial (by simp [hphase])
  · exact effect_insertPosted free e w c n _ hphase
  · exact .recorded (.inr hphase)

/-! ## Filed once -/

/-- What the news know of the article a session has in hand. -/
structure Good (n : News) (p : Phase) : Prop where
  lookup : ∀ msgid text, p = .lookup msgid text → msgid ≠ []
  named : ∀ msgid, p.claims = some msgid → msgid ≠ []
  fresh : ∀ msgid, p.claims = some msgid →
    (∀ b msgnum rooms, p ≠ .record b msgid msgnum rooms) → msgid ∉ n.filed
  stored : ∀ msgid msgnum rooms, (∃ b, p = .record b msgid msgnum rooms) ∨
    p = .postRecord msgid msgnum rooms →
      0 < msgnum ∧ (findRow n.store msgnum).isSome = true ∧
        ∃ room ∈ rooms, messageInRoom n.store room msgnum = true

/-- What is known of the news and the sessions on them. -/
structure Kept (phases : Nat → Phase) (n : News) : Prop where
  seq : 0 < n.store.seq
  good : ∀ i, Good n (phases i)
  apart : ∀ i j msgid, (phases i).claims = some msgid → (phases j).claims = some msgid → i = j
  known : ∀ msgid ∈ n.filed, (findByMessageId n msgid).isSome = true ∨
    ∃ i b msgnum rooms, phases i = .record b msgid msgnum rooms
  once : n.filed.Nodup
  answered : ∀ a ∈ n.answered, ∃ room ∈ a.2, messageInRoom n.store room a.1 = true

theorem Good.of_quiet (n : News) (h : p.Quiet) : Good n p := by
  cases p <;> first | exact h.elim | skip
  all_goals constructor <;> simp_all [Phase.claims, Phase.Quiet]

theorem claims_of_quiet (h : p.Quiet) : p.claims = none := by
  cases p <;> first | rfl | exact h.elim

/-- What others do to the news leaves a session good. -/
theorem Good.mono {n' : News} (h : Good n p) (hgrows : Grows n.store n'.store)
    (hfiled : ∀ msgid, p.claims = some msgid → msgid ∈ n'.filed → msgid ∈ n.filed) : Good n' p where
  lookup := h.lookup
  named := h.named
  fresh := fun msgid hclaims hnot hmem => h.fresh msgid hclaims hnot (hfiled msgid hclaims hmem)
  stored := by
    intro msgid msgnum rooms hp
    obtain ⟨hpos, hrow, room, hmem, hroom⟩ := h.stored msgid msgnum rooms hp
    exact ⟨hpos, hgrows.rows _ hrow, room, hmem, hgrows.pointers _ _ hroom⟩

theorem Grows.answered {s' : Store} (h : Grows s s') {a : Nat × List Nat}
    (ha : ∃ room ∈ a.2, messageInRoom s room a.1 = true) :
    ∃ room ∈ a.2, messageInRoom s' room a.1 = true := by
  obtain ⟨room, hmem, hroom⟩ := ha
  exact ⟨room, hmem, h.pointers _ _ hroom⟩

theorem isSome_findByMessageId : (findByMessageId n msgid).isSome = true ↔
      msgid ≠ [] ∧ ∃ msgnum, n.msgids msgid = some msgnum ∧
        (findRow n.store msgnum).isSome = true := by
  unfold findByMessageId
  by_cases hne : msgid = []
  · simp [hne]
  · cases hid : n.msgids msgid with
    | none => simp
    | some msgnum => simp [hne]

theorem Grows.known (h : Grows n.store s)
    (hknown : (findByMessageId n msgid).isSome = true) (filed : List Bytes) :
    (findByMessageId { n with store := s, filed := filed } msgid).isSome = true := by
  rw [isSome_findByMessageId] at hknown ⊢
  obtain ⟨hne, msgnum, hid, hrow⟩ := hknown
  exact ⟨hne, msgnum, hid, h.rows _ hrow⟩

@[simp] theorem recordMessageId_store (n : News) (msgid : Bytes) (msgnum : Nat) :
    (recordMessageId n msgid msgnum).store = n.store := by
  unfold recordMessageId
  split <;> rfl

@[simp] theorem recordMessageId_filed (n : News) (msgid : Bytes) (msgnum : Nat) :
    (recordMessageId n msgid msgnum).filed = n.filed := by
  unfold recordMessageId
  split <;> rfl

@[simp] theorem recordMessageId_answered (n : News) (msgid : Bytes) (msgnum : Nat) :
    (recordMessageId n msgid msgnum).answered = n.answered := by
  unfold recordMessageId
  split <;> rfl

/-- An id that is had stays had, and the recorded one is. -/
theorem isSome_recordMessageId {id : Bytes} (hrow : (findRow n.store msgnum).isSome = true)
    (h : (findByMessageId n id).isSome = true ∨ id = msgid ∧ msgid ≠ [] ∧ 0 < msgnum) :
    (findByMessageId (recordMessageId n msgid msgnum) id).isSome = true := by
  rw [isSome_findByMessageId] at h ⊢
  unfold recordMessageId
  split
  · rename_i hskip
    rcases h with h | ⟨-, hne, hpos⟩
    · exact h
    · rcases hskip with hskip | hskip
      · exact absurd hskip hne
      · omega
  · by_cases hid : id = msgid
    · subst hid
      have hne : id ≠ [] := by tauto
      exact ⟨hne, msgnum, Function.update_self _ _ _, hrow⟩
    · rcases h with ⟨hne, num, hnum, hfound⟩ | ⟨heq, -⟩
      · exact ⟨hne, num, (Function.update_of_ne hid _ _).trans hnum, hfound⟩
      · exact absurd heq hid

/-- One session moves on. -/
theorem Kept.move {n' : News} (h : Kept phases n) {p' : Phase}
    (hgrows : Grows n.store n'.store) (hgood : Good n' p')
    (hclaims : ∀ msgid, p'.claims = some msgid → ∀ j, j ≠ i → (phases j).claims ≠ some msgid)
    (hfiled : ∀ j, j ≠ i → ∀ msgid, (phases j).claims = some msgid → msgid ∈ n'.filed →
      msgid ∈ n.filed)
    (hknown : ∀ msgid ∈ n'.filed, (findByMessageId n' msgid).isSome = true ∨
      (∃ b msgnum rooms, p' = .record b msgid msgnum rooms) ∨
      ∃ j, j ≠ i ∧ ∃ b msgnum rooms, phases j = .record b msgid msgnum rooms)
    (honce : n'.filed.Nodup)
    (hanswered : ∀ a ∈ n'.answered, ∃ room ∈ a.2, messageInRoom n'.store room a.1 = true) :
    Kept (Function.update phases i p') n' where
  seq := Nat.lt_of_lt_of_le h.seq hgrows.seq
  good := by
    intro j
    by_cases hj : j = i
    · rw [hj, Function.update_self]
      exact hgood
    · rw [Function.update_of_ne hj]
      exact (h.good j).mono hgrows (hfiled j hj)
  apart := by
    intro j k msgid hj hk
    by_cases hji : j = i
    · by_cases hki : k = i
      · rw [hji, hki]
      · rw [hji, Function.update_self] at hj
        rw [Function.update_of_ne hki] at hk
        exact absurd hk (hclaims msgid hj k hki)
    · rw [Function.update_of_ne hji] at hj
      by_cases hki : k = i
      · rw [hki, Function.update_self] at hk
        exact absurd hj (hclaims msgid hk j hji)
      · rw [Function.update_of_ne hki] at hk
        exact h.apart j k msgid hj hk
  known := by
    intro msgid hmem
    rcases hknown msgid hmem with hfound | ⟨b, msgnum, rooms, hp⟩ | ⟨j, hj, b, msgnum, rooms, hp⟩
    · exact .inl hfound
    · exact .inr ⟨i, b, msgnum, rooms, by rw [Function.update_self, hp]⟩
    · exact .inr ⟨j, b, msgnum, rooms, by rw [Function.update_of_ne hj, hp]⟩
  once := honce
  answered := hanswered

/-- An id that is known stays known when session `i`, which is not about to record it, moves. -/
theorem Kept.known_move (h : Kept phases n) (hmem : msgid ∈ n.filed)
    (hnot : ∀ b msgnum rooms, phases i ≠ .record b msgid msgnum rooms) :
    (findByMessageId n msgid).isSome = true ∨
      ∃ j, j ≠ i ∧ ∃ b msgnum rooms, phases j = .record b msgid msgnum rooms := by
  rcases h.known msgid hmem with hfound | ⟨j, b, msgnum, rooms, hp⟩
  · exact .inl hfound
  · refine .inr ⟨j, ?_, b, msgnum, rooms, hp⟩
    rintro rfl
    exact hnot b msgnum rooms hp

/-- An article that is filed was looked up and not there, and no other session has its id. -/
theorem Kept.filed (h : Kept phases n) {b : Bool} {text : Bytes}
    (hp : phases i = .insert b msgid text) (hstored : Stored n.store s msgnum rooms) :
    Kept (Function.update phases i (.record b msgid msgnum rooms))
      { n with store := s, filed := n.filed ++ [msgid] } := by
  have hclaims : (phases i).claims = some msgid := by rw [hp]; rfl
  have hothers : ∀ j, j ≠ i → (phases j).claims ≠ some msgid := fun j hj hc =>
    hj (h.apart j i msgid hc hclaims)
  have hnew : msgid ∉ n.filed := (h.good i).fresh msgid hclaims (by simp [hp])
  apply h.move hstored.grows
  · refine ⟨by simp, ?_, ?_, ?_⟩
    · intro id hid
      exact (h.good i).named id (hclaims.trans hid)
    · intro id hid hnot
      obtain rfl : msgid = id := Option.some.inj hid
      exact absurd rfl (hnot b msgnum rooms)
    · intro id num rs heq
      simp only [Phase.record.injEq, reduceCtorEq, or_false] at heq
      obtain ⟨-, -, -, rfl, rfl⟩ := heq
      refine ⟨?_, hstored.row, hstored.room⟩
      rw [hstored.number]
      exact h.seq
  · intro id hid j hj
    obtain rfl : msgid = id := Option.some.inj hid
    exact hothers j hj
  · intro j hj id hid hmem
    rcases List.mem_append.mp hmem with hmem | hmem
    · exact hmem
    · rw [List.mem_singleton.mp hmem] at hid
      exact absurd hid (hothers j hj)
  · intro id hmem
    rcases List.mem_append.mp hmem with hmem | hmem
    · rcases h.known_move (i := i) hmem (by simp [hp]) with hfound | hother
      · exact .inl (hstored.grows.known hfound _)
      · exact .inr (.inr hother)
    · rw [List.mem_singleton.mp hmem]
      exact .inr (.inl ⟨b, msgnum, rooms, rfl⟩)
  · exact h.once.append (List.nodup_singleton _) (by simpa using hnew)
  · exact fun a ha => hstored.grows.answered (h.answered a ha)

/-- The record is what later lookups find. -/
theorem Kept.recorded (h : Kept phases n) (hp : (∃ b, phases i = .record b msgid msgnum rooms) ∨
      phases i = .postRecord msgid msgnum rooms) :
    Kept (Function.update phases i .command)
      { recordMessageId n msgid msgnum with
        answered := (recordMessageId n msgid msgnum).answered ++ [(msgnum, rooms)] } := by
  obtain ⟨hpos, hrow, hroom⟩ := (h.good i).stored msgid msgnum rooms hp
  apply h.move
  · rw [recordMessageId_store]
    exact Grows.refl _
  · exact Good.of_quiet _ trivial
  · exact fun id hid => nomatch hid
  · intro j hj id hid hmem
    rw [recordMessageId_filed] at hmem
    exact hmem
  · intro id hmem
    rw [recordMessageId_filed] at hmem
    have hfind : ∀ a, findByMessageId { recordMessageId n msgid msgnum with answered := a } id =
        findByMessageId (recordMessageId n msgid msgnum) id := fun _ => rfl
    rcases h.known id hmem with hfound | ⟨j, b, num, rs, hj⟩
    · exact .inl (isSome_recordMessageId hrow (.inl hfound))
    · by_cases hji : j = i
      · subst hji
        rcases hp with ⟨b', hp⟩ | hp
        · obtain ⟨-, rfl, rfl, rfl⟩ := Phase.record.inj (hj.symm.trans hp)
          have hne : id ≠ [] := (h.good j).named id (by rw [hj]; rfl)
          exact .inl (isSome_recordMessageId hrow (.inr ⟨rfl, hne, hpos⟩))
        · exact nomatch hj.symm.trans hp
      · exact .inr (.inr ⟨j, hji, b, num, rs, hj⟩)
  · rw [recordMessageId_filed]
    exact h.once
  · intro a ha
    rw [recordMessageId_store]
    rw [recordMessageId_answered] at ha
    rcases List.mem_append.mp ha with ha | ha
    · exact h.answered a ha
    · rw [List.mem_singleton.mp ha]
      exact hroom

/-- Each effect keeps the news and the sessions. -/
theorem Kept.effect {n' : News} (h : Kept phases n) {p' : Phase}
    (he : Effect (fun msgid => ∀ j, j ≠ i → (phases j).claims ≠ some msgid) (phases i) n p' n') :
    Kept (Function.update phases i p') n' := by
  cases he with
  | quiet hgrows hafter hbefore =>
    apply h.move hgrows (Good.of_quiet _ hafter)
    · intro msgid hclaims
      rw [claims_of_quiet hafter] at hclaims
      cases hclaims
    · exact fun _ _ _ _ hmem => hmem
    · intro msgid hmem
      rcases h.known_move hmem (hbefore · msgid) with hfound | hother
      · exact .inl (hgrows.known hfound _)
      · exact .inr (.inr hother)
    · exact h.once
    · exact fun a ha => hgrows.answered (h.answered a ha)
  | @looked p' msgid hafter hbefore hne habsent hfree =>
    have hnew : msgid ∉ n.filed := by
      intro hmem
      rcases h.known_move hmem (hbefore · msgid) with hfound | ⟨j, hj, b, msgnum, rooms, hp⟩
      · rw [habsent] at hfound
        cases hfound
      · exact hfree j hj (by rw [hp]; rfl)
    have hclaims : p'.claims = some msgid := by
      rcases hafter with rfl | ⟨text, rfl⟩ <;> rfl
    apply h.move (Grows.refl _)
    · refine ⟨?_, ?_, ?_, ?_⟩
      · rcases hafter with rfl | ⟨text, rfl⟩ <;> simp
      · exact fun id hid => Option.some.inj (hclaims.symm.trans hid) ▸ hne
      · exact fun id hid _ => Option.some.inj (hclaims.symm.trans hid) ▸ hnew
      · rcases hafter with rfl | ⟨text, rfl⟩ <;> simp
    · exact fun id hid => Option.some.inj (hclaims.symm.trans hid) ▸ hfree
    · exact fun _ _ _ _ hmem => hmem
    · intro id hmem
      rcases h.known_move hmem (hbefore · id) with hfound | hother
      · exact .inl hfound
      · exact .inr (.inr hother)
    · exact h.once
    · exact h.answered
  | @read msgid text hp =>
    have hclaims : (phases i).claims = some msgid := by rw [hp]; rfl
    apply h.move (Grows.refl _)
    · refine ⟨by simp, fun id hid => (h.good i).named id (hclaims.trans hid), ?_, by simp⟩
      intro id hid _
      exact (h.good i).fresh id (hclaims.trans hid) (by simp [hp])
    · exact fun id hid j hj hc => hj (h.apart j i id hc (hclaims.trans hid))
    · exact fun _ _ _ _ hmem => hmem
    · intro id hmem
      rcases h.known_move (i := i) hmem (by simp [hp]) with hfound | hother
      · exact .inl hfound
      · exact .inr (.inr hother)
    · exact h.once
    · exact h.answered
  | filed hp hstored => exact h.filed hp hstored
  | @posted text msgid s msgnum rooms hp hstored =>
    apply h.move hstored.grows
    · refine ⟨by simp, fun id hid => (nomatch hid), fun id hid => (nomatch hid), ?_⟩
      intro id num rs heq
      simp only [reduceCtorEq, exists_false, Phase.postRecord.injEq, false_or] at heq
      obtain ⟨-, rfl, rfl⟩ := heq
      refine ⟨?_, hstored.row, hstored.room⟩
      rw [hstored.number]
      exact h.seq
    · exact fun id hid => nomatch hid
    · exact fun _ _ _ _ hmem => hmem
    · intro id hmem
      rcases h.known_move (i := i) hmem (by simp [hp]) with hfound | hother
      · exact .inl (hstored.grows.known hfound _)
      · exact .inr (.inr hother)
    · exact h.once
    · exact fun a ha => hstored.grows.answered (h.answered a ha)
  | recorded hp => exact h.recorded hp

/-! ## Runs -/

/-- What a run of fitting steps keeps. -/
structure Well (v : Server) : Prop where
  tidy : ∀ i, Tidy (v.conns i)
  kept : Kept (fun i => (v.conns i).phase) v.news

theorem Well.inStep (h : Well v) : InStep v where
  consumed := fun i => (h.tidy i).log
  once := h.kept.once
  filed := h.kept.answered

theorem Well.step {a : Nat × World} (h : Well v) (hfits : Fits v a.1) : Well (Nntp.step e v a) where
  tidy := by
    intro j
    unfold Nntp.step
    dsimp only
    by_cases hj : j = a.1
    · rw [hj, Function.update_self]
      exact (h.tidy a.1).advance hfits
    · rw [Function.update_of_ne hj]
      exact h.tidy j
  kept := by
    have heffect : Effect (Unclaimed v a.1) (v.conns a.1).phase v.news _ _ :=
      effect_advance e a.2 (v.conns a.1) v.news
        (by
          intro msgid text hphase
          rw [Fits, hphase] at hfits
          exact ⟨(h.kept.good a.1).lookup msgid text hphase, hfits⟩)
        (by
          intro hphase s line hread
          rw [Fits, hphase] at hfits
          exact (hfits s line hread).2)
    have hphases : (fun j => ((Nntp.step e v a).conns j).phase) =
        Function.update (fun j => (v.conns j).phase) a.1
          (advance e a.2 (v.conns a.1) v.news).1.phase :=
      Function.comp_update Conn.phase v.conns a.1 _
    rw [hphases]
    exact h.kept.effect heffect

theorem Well.run (h : Well v) {steps : List (Nat × World)}
    (hfits : FitRun e v steps) : Well (Nntp.run e v steps) := by
  induction steps generalizing v with
  | nil => exact h
  | cons a steps ih => exact ih (h.step hfits.1) hfits.2

theorem well_start {streams : Nat → ClientStream} (hsteady : ∀ i, Steady (streams i))
    {store : Store} (hseq : 0 < store.seq) (msgids : Bytes → Option Nat) :
    Well (start streams store msgids) where
  tidy := fun i => ⟨hsteady i, fun _ h => (nomatch h), rfl⟩
  kept :=
    { seq := hseq
      good := fun _ => Good.of_quiet _ trivial
      apart := fun _ _ _ h => nomatch h
      known := fun _ h => nomatch h
      once := List.nodup_nil
      answered := fun _ h => nomatch h }

/-- In every run whose steps fit, the sessions stay in step and file each article once. -/
theorem inStep_run (e : Env) (streams : Nat → ClientStream) (hsteady : ∀ i, Steady (streams i))
    (store : Store) (hseq : 0 < store.seq) (msgids : Bytes → Option Nat)
    (steps : List (Nat × World)) (hfits : FitRun e (start streams store msgids) steps) :
    InStep (run e (start streams store msgids) steps) :=
  ((well_start hsteady hseq msgids).run hfits).inStep

/-! ## One session -/

/-- The next step fits as far as the session alone decides it. -/
def fitsAlone (c : Conn) : Bool :=
  match c.phase with
  | .command =>
    match (readLine 8192 c.stream).2 with
    | none => true
    | some line => upper (word line 0) ≠ bytes "TAKETHIS" || c.peer.authed
  | .ihave _ => (readDotStuffed kMaxArticleBytes c.stream).2.isSome
  | .takethis _ => (readDotStuffed kMaxArticleBytes c.stream).2.isSome
  | .post => (readDotStuffed kMaxArticleBytes c.stream).2.isSome
  | _ => true

def fitRunAlone (e : Env) : Conn → News → List World → Bool
  | _, _, [] => true
  | c, n, w :: worlds =>
    fitsAlone c && fitRunAlone e (advance e w c n).1 (advance e w c n).2 worlds

theorem withinLimit_of_read {s : ClientStream} (h : Steady s)
    (hread : (readDotStuffed kMaxArticleBytes s).2.isSome = true) : WithinLimit s := by
  intro bodies tail htext
  obtain ⟨text, hsome⟩ := Option.isSome_iff_exists.mp hread
  have hpair : readDotStuffed kMaxArticleBytes s =
      ((readDotStuffed kMaxArticleBytes s).1, some text) := Prod.ext rfl hsome
  obtain ⟨bodies', htext', rfl, hlen, -⟩ := readDotStuffed_sound h hpair
  rw [(htext.unique htext').1]
  exact hlen

theorem fits_of_alone (h : Well v) (hothers : ∀ j, j ≠ i → (v.conns j).phase.claims = none)
    (halone : fitsAlone (v.conns i) = true) : Fits v i := by
  have hfree : ∀ msgid, Unclaimed v i msgid := by
    intro msgid j hj hclaims
    rw [hothers j hj] at hclaims
    cases hclaims
  have hsteady := (h.tidy i).steady
  unfold fitsAlone at halone
  unfold Fits
  split
  · rename_i hphase
    intro s line hread
    simp only [hphase, hread, ne_eq, decide_not, Bool.or_eq_true, Bool.not_eq_true',
      decide_eq_false_iff_not] at halone
    exact ⟨fun hverb => halone.resolve_left (absurd hverb), fun _ => hfree _⟩
  · rename_i hphase
    rw [hphase] at halone
    exact withinLimit_of_read hsteady halone
  · rename_i hphase
    rw [hphase] at halone
    exact withinLimit_of_read hsteady halone
  · rename_i hphase
    rw [hphase] at halone
    exact withinLimit_of_read hsteady halone
  · exact hfree _
  · trivial

theorem fitRun_of_alone (h : Well v) {worlds : List World}
    (hothers : ∀ j, j ≠ i → (v.conns j).phase.claims = none)
    (halone : fitRunAlone e (v.conns i) v.news worlds = true) :
    FitRun e v (worlds.map (i, ·)) := by
  induction worlds generalizing v with
  | nil => trivial
  | cons w worlds ih =>
    rw [fitRunAlone, Bool.and_eq_true] at halone
    have hfits := fits_of_alone h hothers halone.1
    refine ⟨hfits, ih (h.step (a := (i, w)) hfits) ?_ ?_⟩
    · intro j hj
      have hsame : (step e v (i, w)).conns j = v.conns j := Function.update_of_ne hj _ _
      rw [hsame]
      exact hothers j hj
    · have hmoved : (step e v (i, w)).conns i = (advance e w (v.conns i) v.news).1 :=
        Function.update_self _ _ _
      rw [hmoved]
      exact halone.2

/-- A server with one group, and one user, `ann`. -/
def oneGroup : Env where
  node := bytes "here"
  userExists := (· = bytes "ann")
  verify := fun name password => name = bytes "ann" ∧ password = bytes "pw"
  header := fun _ name => if name = bytes "Newsgroups" then bytes "misc.test" else []
  subject := fun _ => []
  resolveRoom := fun _ _ group => if group = bytes "misc.test" then some 1 else none
  canPost := fun _ _ _ => true
  messageId := fun _ _ => bytes "<1@here>"
  other := fun _ p _ => (p.group, bytes "500 unknown")

def noNews : Store := ⟨[], [], [], [], 1, [], [], [], []⟩

def tick : World := ⟨0, [], [], fun _ => none, fun _ _ => []⟩

/-- Session 0 sends this, and the others nothing. -/
def speaks (text : Bytes) (i : Nat) : ClientStream := connect (if i = 0 then [text] else [])

theorem steady_speaks {text : Bytes} (hne : text ≠ []) (hlen : text.length ≤ chunkSize) (i : Nat) :
    Steady (speaks text i) := by
  apply steady_connect
  intro chunk hmem
  split at hmem
  · rw [List.mem_singleton.mp hmem]
    exact ⟨hne, hlen⟩
  · cases hmem

def transfer : Bytes :=
  bytes "AUTHINFO USER ann\r\nAUTHINFO PASS pw\r\nTAKETHIS <a@b>\r\n" ++
    bytes "Newsgroups: misc.test\r\n\r\nhi\r\n.\r\n"

theorem inStep_run_transfer : InStep (run oneGroup (start (speaks transfer) noNews fun _ => none)
        (List.replicate 7 (0, tick))) ∧
      (run oneGroup (start (speaks transfer) noNews fun _ => none)
        (List.replicate 7 (0, tick))).news.filed = [bytes "<a@b>"] := by
  have hsteady : ∀ i, Steady (speaks transfer i) :=
    steady_speaks (by decide +kernel) (by decide +kernel)
  have hfits : FitRun oneGroup (start (speaks transfer) noNews fun _ => none)
      ((List.replicate 7 tick).map (0, ·)) :=
    fitRun_of_alone (well_start hsteady (by decide) _) (fun _ _ => rfl) (by decide +kernel)
  exact ⟨inStep_run oneGroup _ hsteady noNews (by decide) _ _ hfits, by decide +kernel⟩

/-- A peer that does not wait for the answer to its TAKETHIS. -/
def eager : Bytes := bytes "TAKETHIS <a@b>\r\nQUIT\r\n.\r\n"

/-- Without authentication the lines of its article are the next commands. -/
theorem not_inStep_eager :
    ¬∀ (e : Env) (streams : Nat → ClientStream) (_ : ∀ i, Steady (streams i)) (store : Store)
      (_ : 0 < store.seq) (msgids : Bytes → Option Nat) (steps : List (Nat × World)),
        InStep (run e (start streams store msgids) steps) := by
  intro h
  have hsteady : ∀ i, Steady (speaks eager i) :=
    steady_speaks (by decide +kernel) (by decide +kernel)
  have hrun := (h oneGroup _ hsteady noNews (by decide) (fun _ => none) [(0, tick)]).consumed 0
  have hlog : ((run oneGroup (start (speaks eager) noNews fun _ => none) [(0, tick)]).conns 0).log =
      [(bytes "QUIT\r\n.\r\n", bytes "QUIT\r\n.\r\n")] := by decide +kernel
  -- the reader finds the dot behind QUIT
  have hread : readDotStuffed kMaxArticleBytes (speaks (bytes "QUIT\r\n.\r\n") 0) =
      (⟨bytes "QUIT\r\n.\r\n", 9, []⟩, some (bytes "QUIT\r\n")) := by decide +kernel
  obtain ⟨bodies, htext, -⟩ := readDotStuffed_sound
    (steady_speaks (by decide +kernel) (by decide +kernel) 0) hread
  have hconsumed := hrun _ (by rw [hlog]; exact List.mem_singleton_self _) bodies [] htext
  exact absurd hconsumed (by decide +kernel)

end QuackMail.Nntp
