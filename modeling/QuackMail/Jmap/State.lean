import QuackMail.Jmap.Steps

/-! # The state of an account

A client keeps the state string of an account and later asks what changed since.  The string
is made of message numbers, and a keyword that is set or an old message that is linked into a
mailbox has no number of its own: `email_changes_tracked` says on which runs every difference
an `Email/get` would show is in the string and in the answer of `Email/changes`.
-/

namespace QuackMail.Jmap

open Citadel Imap

/-! ## What is tracked -/

/-- The list an email belongs into, by whether it could be seen before and can be seen now. -/
def classBetween (before now : Bool) : Class :=
  if now then if before then .updated else .created else .destroyed

/-- Where the object of an email differs, the state does, `Email/changes` since the earlier
    state lists the email once, where it belongs, and an `Email/set` that carries the earlier
    state is refused. -/
def Tracks (account : Bytes) (c : Ctx) (base t : Tables) : Prop :=
  ∀ m, ¬SameObject (emailGet c base m) (emailGet c t m) →
    accountState c t ≠ accountState c base ∧
      (∃ answer, emailChanges account c account (accountState c base) 0 t = .ok answer ∧
        answer.changes.all.count (idOf m) = 1 ∧
        idOf m ∈ answer.changes.listOf
          (classBetween (emailGet c base m).isSome (emailGet c t m).isSome)) ∧
      ∀ (o : Nat → Call) (args : Json),
        (member args.members (bytes "ifInState")).asString = accountState c base →
          (emailSet account c o args t).1 = t ∧ ∃ err, (emailSet account c o args t).2 = .error err

/-! ## Steps that keep it -/

section Fits

variable (c : Ctx) (base t : Tables)

/-- The message has a number after the state of the base, or one of the mailboxes has or gets a
    tombstone of it with such a number. -/
def Reported (m : Nat) (takes : Nat → Prop) : Prop :=
  accountHigh c base < m ∨
    ∃ n, Sees c t n ∧ (Gone t.store (accountHigh c base) n m ∨ takes n)

/-- A message that comes into a mailbox or changes its keywords is reported.  One that could
    not be seen in the base is new, if a mailbox holds it then, and the first mailbox that
    names it holds it. -/
def MessageFits (m : Nat) (takes holds : Nat → Prop) (rekeyed : Prop) : Prop :=
  ((∃ n, Sees c t n ∧ holds n ∧ messageInRoom t.store n m = false) ∨ rekeyed ∧ Visible c t m →
      Reported c base t m takes) ∧
    ((∃ n, Sees c t n ∧ (takes n ∨ holds n ∧ messageInRoom t.store n m = false)) →
      ¬Visible c base m → (∃ n, Sees c t n ∧ holds n) →
        accountHigh c base < m ∧
          Heralded holds (fun n => Gone t.store (accountHigh c base) n m ∨ takes n)
            (mailboxNums c t))

/-- A message that was reported by tombstones still is where they are pruned, or its object is
    that of the base. -/
def PruneFits (w : World) (olderThanSeconds : Int) : Prop :=
  ∀ m, (∃ n, Sees c t n ∧ Gone t.store (accountHigh c base) n m) →
    (∃ n, Sees c t n ∧ Gone (pruneTombstones w t.store olderThanSeconds) (accountHigh c base) n m) ∨
      accountHigh c base < m ∧ Visible c t m ∨
        SameObject (emailGet c base m) (emailGet c t m)

def StepFits : Step → Prop
  | .call (.change w (.prune olderThanSeconds)) => PruneFits c base t w olderThanSeconds
  | step => ∀ m, MessageFits c base t m (takesOf t · m step) (holdsOf t · m step)
      (rekeys c.username t m step)

/-- The steps fit one after the other. -/
def StepsFit : Tables → List Step → Prop
  | _, [] => True
  | t, step :: steps => StepFits c base t step ∧ StepsFit (stepTables t step) steps

/-- The steps of every event fit. -/
def RunFits : Tables → List Event → Prop
  | _, [] => True
  | t, event :: events =>
    StepsFit c base t (stepsOfEvent t event) ∧ RunFits (eventTables t event) events

end Fits

/-! ## Invariants -/

/-- What every run keeps. -/
structure Sound (t : Tables) : Prop where
  ok : ∃ E, Ok E t.store
  late : TombstonesLate t.store
  keyed : (roomNums t.store).Nodup
  bigint : BigintRooms t

/-- The tables follow the base: what differs is named, and an email that could not be seen
    before is named by the room that holds it. -/
structure Follows (c : Ctx) (base t : Tables) : Prop where
  sound : Sound t
  messages : ∃ E E', Ok E base.store ∧ Ok E' t.store ∧ ∀ n < base.store.seq, E' n = E n
  seq : base.store.seq ≤ t.store.seq
  undisturbed : Undisturbed base t
  named : ∀ m, NamedSince c t (accountHigh c base) m ∨
    SameObject (emailGet c base m) (emailGet c t m)
  heralded : ∀ m, ¬Visible c base m → Visible c t m → accountHigh c base < m ∧
    Heralded (fun n => messageInRoom t.store n m = true)
      (fun n => Gone t.store (accountHigh c base) n m) (mailboxNums c t)

section Heralded

variable {holds holds' gone gone' : Nat → Prop} {nums : List Nat}

theorem heralded_congr (h : ∀ n ∈ nums, (holds n ↔ holds' n) ∧ (gone n ↔ gone' n)) :
    Heralded holds gone nums ↔ Heralded holds' gone' nums := by
  induction nums with
  | nil => exact Iff.rfl
  | cons n rest ih =>
    obtain ⟨hholds, hgone⟩ := h n List.mem_cons_self
    rw [Heralded, Heralded, hholds, hgone, ih fun k hk => h k (List.mem_cons_of_mem _ hk)]

theorem heralded_of_fewer (h : Heralded holds gone nums) (hfewer : ∀ n, gone' n → gone n) :
    Heralded holds gone' nums := by
  induction nums with
  | nil => trivial
  | cons n rest ih =>
    cases h with
    | inl hheld => exact .inl hheld
    | inr hrest => exact .inr ⟨fun hgone => hrest.1 (hfewer n hgone), ih hrest.2⟩

theorem heralded_of_not_gone (h : ∀ n, ¬gone n) : Heralded holds gone nums := by
  induction nums with
  | nil => trivial
  | cons n rest ih => exact .inr ⟨h n, ih⟩

end Heralded

section Steps

variable {account : Bytes} {c : Ctx} {base t t' : Tables} {takes : Nat → Nat → Prop}

theorem roomNums_undisturbed (h : Undisturbed t t') : roomNums t'.store = roomNums t.store := by
  have hnums : ∀ s : Store, roomNums s = (s.rooms.map plain).map Room.roomNum := by
    intro s
    rw [List.map_map]
    rfl
  rw [hnums, hnums, h.framed.rooms]

theorem bigint_undisturbed (h : Undisturbed t t') (hbig : BigintRooms t) : BigintRooms t' := by
  intro room hroom
  have hmem : room.roomNum ∈ roomNums t'.store := List.mem_map_of_mem hroom
  rw [roomNums_undisturbed h] at hmem
  obtain ⟨room', hroom', heq⟩ := List.mem_map.mp hmem
  exact heq ▸ hbig room' hroom'

/-- Pruning takes tombstones away and nothing else. -/
theorem undisturbed_prune (t : Tables) (w : World) (age : Int) :
    Undisturbed t (stepTables t (.call (.change w (.prune age)))) := by
  have hframed : Framed t.store (pruneTombstones w t.store age) := by
    unfold pruneTombstones
    split
    · exact .refl _
    · exact ⟨rfl, rfl, rfl, rfl⟩
  exact .withStore hframed

theorem Sound.step (hsound : Sound t) (step : Step) : Sound (stepTables t step) := by
  obtain ⟨E, hok⟩ := hsound.ok
  by_cases hprune : ∃ w age, step = .call (.change w (.prune age))
  · obtain ⟨w, age, rfl⟩ := hprune
    have hundisturbed := undisturbed_prune t w age
    refine ⟨⟨E, hok.prune w age⟩, fun tomb htomb => ?_, ?_, bigint_undisturbed hundisturbed hsound.bigint⟩
    · exact hsound.late tomb (mem_pruneTombstones.mp htomb).1
    · rw [roomNums_undisturbed hundisturbed]
      exact hsound.keyed
  · obtain ⟨takes, heffect⟩ := step_effect [] hok hsound.keyed hsound.bigint
      (fun w age h => hprune ⟨w, age, h⟩)
    obtain ⟨E', -, hok'⟩ := heffect.does.ok E hok
    refine ⟨⟨E', hok'⟩, heffect.does.late hsound.late, ?_,
      bigint_undisturbed heffect.undisturbed hsound.bigint⟩
    rw [roomNums_undisturbed heffect.undisturbed]
    exact hsound.keyed

theorem Sound.steps (hsound : Sound t) (steps : List Step) :
    Sound (steps.foldl stepTables t) := by
  induction steps generalizing t with
  | nil => exact hsound
  | cons step steps ih => exact ih (hsound.step step)

theorem Sound.run (hsound : Sound t) (events : List Event) : Sound (runEvents t events) := by
  induction events generalizing t with
  | nil => exact hsound
  | cons event events ih =>
    refine ih ?_
    rw [eventTables_eq]
    exact hsound.steps _

theorem Follows.refl (hsound : Sound base) : Follows c base base where
  sound := hsound
  messages := by
    obtain ⟨E, hok⟩ := hsound.ok
    exact ⟨E, E, hok, hok, fun _ _ => rfl⟩
  seq := Nat.le_refl _
  undisturbed := .refl base
  named m := .inr (.refl _)
  heralded m hunseen hseen := absurd hseen hunseen

/-- What is named stays named. -/
theorem NamedSince.effect {step : Step} {token m : Nat} (h : NamedSince c t token m)
    (heffect : Effect c.username t step takes) (htoken : token < t.store.seq) :
    NamedSince c (stepTables t step) token m := by
  obtain ⟨n, hsees, hnamed⟩ := h
  refine ⟨n, (sees_undisturbed heffect.undisturbed n).mpr hsees, ?_⟩
  rw [heffect.does.gone_iff htoken]
  cases hnamed with
  | inl hadded =>
    cases heffect.does.left n m hadded.1 with
    | inl hstays => exact .inl ⟨hstays, hadded.2⟩
    | inr htaken => exact .inr (.inr htaken)
  | inr hgone => exact .inr (.inl hgone)

/-- A step that does not prune and fits keeps what differs named. -/
theorem Follows.named_effect {step : Step} (h : Follows c base t)
    (heffect : Effect c.username t step takes)
    (hfits : ∀ m, MessageFits c base t m (takesOf t · m step) (holdsOf t · m step)
      (rekeys c.username t m step)) (m : Nat) :
    NamedSince c (stepTables t step) (accountHigh c base) m ∨
      SameObject (emailGet c base m) (emailGet c (stepTables t step) m) := by
  obtain ⟨E, hok⟩ := h.sound.ok
  obtain ⟨E', hagree, hok'⟩ := heffect.does.ok E hok
  obtain ⟨Eb, -, hokb, -⟩ := h.messages
  have htoken : accountHigh c base < t.store.seq :=
    Nat.lt_of_lt_of_le (accountHigh_lt_seq hokb) h.seq
  have hsees := sees_undisturbed (c := c) heffect.undisturbed
  -- a tombstone that the step writes names the message
  have htells : (∃ n, Sees c t n ∧ takes n m) →
      NamedSince c (stepTables t step) (accountHigh c base) m := by
    rintro ⟨n, hn, htaken⟩
    exact ⟨n, (hsees n).mpr hn, .inr ((heffect.does.gone_iff htoken).mpr (.inr htaken))⟩
  by_cases hold : m < t.store.seq
  swap
  · -- a new message is named by the mailbox that holds it
    by_cases hseen : Visible c (stepTables t step) m
    · obtain ⟨n, hn, hin⟩ := hseen
      exact .inl ⟨n, hn, .inl ⟨hin, Nat.lt_of_lt_of_le htoken (Nat.not_lt.mp hold)⟩⟩
    · right
      have hnone : emailGet c (stepTables t step) m = none := by
        rw [← Option.not_isSome_iff_eq_none, emailGet_isSome_iff hok']
        exact hseen
      have hnone' : emailGet c base m = none := by
        rw [← Option.not_isSome_iff_eq_none, emailGet_isSome_iff hokb]
        rintro ⟨n, -, hin⟩
        exact hold (Nat.lt_of_lt_of_le (pointer_lt hokb hin) h.seq)
      rw [hnone, hnone']
      trivial
  cases h.named m with
  | inl hnamed => exact .inl (hnamed.effect heffect htoken)
  | inr hsame =>
    by_cases htaken : ∃ n, Sees c t n ∧ takes n m
    · exact .inl (htells htaken)
    by_cases htouched : (∃ n, Sees c t n ∧
        messageInRoom (stepTables t step).store n m = true ∧ messageInRoom t.store n m = false) ∨
        rekeys c.username t m step ∧ Visible c t m
    · -- it came in or changed its keywords, and is reported
      have hreported : Reported c base t m (takesOf t · m step) ∧
          ∀ n, Sees c t n → ¬takesOf t n m step := by
        cases heffect.rooms m hold with
        | inl hexact =>
          refine ⟨(hfits m).1 ?_, fun n hn h => htaken ⟨n, hn, (hexact n).1.mpr h⟩⟩
          cases htouched with
          | inl hentered =>
            obtain ⟨n, hn, hin, hout⟩ := hentered
            exact .inl ⟨n, hn, (hexact n).2.mp hin, hout⟩
          | inr hrekeyed => exact .inr hrekeyed
        | inr hidle =>
          obtain ⟨hkeys, hrooms⟩ := hidle
          cases htouched with
          | inl hentered =>
            obtain ⟨n, -, hin, hout⟩ := hentered
            rw [(hrooms n).2, hout] at hin
            cases hin
          | inr hrekeyed =>
            exact ⟨(hfits m).1 (.inr hrekeyed),
              fun n _ => hkeys.resolve_left (fun h => h hrekeyed.1) n⟩
      obtain ⟨hreport, hnever⟩ := hreported
      left
      cases hreport with
      | inl hnew =>
        have hheld : ∃ n, Sees c t n ∧ messageInRoom (stepTables t step).store n m = true := by
          cases htouched with
          | inl hentered =>
            obtain ⟨n, hn, hin, -⟩ := hentered
            exact ⟨n, hn, hin⟩
          | inr hrekeyed =>
            obtain ⟨-, n, hn, hin⟩ := hrekeyed
            exact ⟨n, hn, (heffect.does.left n m hin).resolve_right fun h => htaken ⟨n, hn, h⟩⟩
        obtain ⟨n, hn, hin⟩ := hheld
        exact ⟨n, (hsees n).mpr hn, .inl ⟨hin, hnew⟩⟩
      | inr htomb =>
        obtain ⟨n, hn, hgone⟩ := htomb
        have hbefore := hgone.resolve_right (hnever n hn)
        exact ⟨n, (hsees n).mpr hn, .inr ((heffect.does.gone_iff htoken).mpr (.inl hbefore))⟩
    · -- nothing that the object shows has changed
      right
      refine hsame.trans (sameObject_of hok hok' heffect.undisturbed (fun _ => hagree m hold) ?_ ?_)
      · intro n hn
        constructor
        · intro hin
          by_contra hout
          exact htouched (.inl ⟨n, hn, hin, by simpa using hout⟩)
        · intro hin
          exact (heffect.does.left n m hin).resolve_right fun h => htaken ⟨n, hn, h⟩
      · intro hseen
        exact heffect.keywords m hold fun hrekeyed => htouched (.inr ⟨hrekeyed, hseen⟩)

/-- A step that does not prune and fits keeps the first mailbox that names a new email the one
    that holds it. -/
theorem Follows.heralded_effect {step : Step} (h : Follows c base t)
    (heffect : Effect c.username t step takes)
    (hfits : ∀ m, MessageFits c base t m (takesOf t · m step) (holdsOf t · m step)
      (rekeys c.username t m step)) {m : Nat} (hunseen : ¬Visible c base m)
    (hseen : Visible c (stepTables t step) m) :
    accountHigh c base < m ∧
      Heralded (fun n => messageInRoom (stepTables t step).store n m = true)
        (fun n => Gone (stepTables t step).store (accountHigh c base) n m)
        (mailboxNums c (stepTables t step)) := by
  obtain ⟨E, hok⟩ := h.sound.ok
  obtain ⟨Eb, -, hokb, -⟩ := h.messages
  have htoken : accountHigh c base < t.store.seq :=
    Nat.lt_of_lt_of_le (accountHigh_lt_seq hokb) h.seq
  have hgone := fun n => heffect.does.gone_iff (n := n) (m := m) htoken
  rw [mailboxNums_congr heffect.undisturbed]
  by_cases hold : m < t.store.seq
  swap
  · -- no tombstone names a new message
    rw [Nat.not_lt] at hold
    refine ⟨Nat.lt_of_lt_of_le htoken hold, heralded_of_not_gone fun n => ?_⟩
    rw [hgone]
    rintro (⟨tomb, htomb, -, -, rfl⟩ | htaken)
    · exact absurd (hok.tombs tomb htomb).2 (Nat.not_lt.mpr hold)
    · exact absurd (heffect.does.old n m htaken) (Nat.not_lt.mpr hold)
  -- where the step touches no mailbox of the message, nothing that is asked for has changed
  have hquiet : (∀ n, Sees c t n → ¬takes n m ∧
        (messageInRoom (stepTables t step).store n m = true ↔ messageInRoom t.store n m = true)) →
      accountHigh c base < m ∧
        Heralded (fun n => messageInRoom (stepTables t step).store n m = true)
          (fun n => Gone (stepTables t step).store (accountHigh c base) n m) (mailboxNums c t) := by
    intro hquiet
    obtain ⟨n, hn, hin⟩ := hseen
    rw [sees_undisturbed heffect.undisturbed] at hn
    obtain ⟨hnew, hheralded⟩ := h.heralded m hunseen ⟨n, hn, (hquiet n hn).2.mp hin⟩
    refine ⟨hnew, (heralded_congr fun k hk => ?_).mp hheralded⟩
    obtain ⟨hkept, hrooms⟩ := hquiet k (mem_mailboxNums.mp hk)
    refine ⟨hrooms.symm, ?_⟩
    rw [hgone]
    exact (or_iff_left hkept).symm
  cases heffect.rooms m hold with
  | inr hidle => exact hquiet fun n _ => hidle.2 n
  | inl hexact =>
    by_cases htouched : ∃ n, Sees c t n ∧
        (takesOf t n m step ∨ holdsOf t n m step ∧ messageInRoom t.store n m = false)
    · obtain ⟨n, hn, hin⟩ := hseen
      rw [sees_undisturbed heffect.undisturbed] at hn
      obtain ⟨hnew, hheralded⟩ := (hfits m).2 htouched hunseen ⟨n, hn, (hexact n).2.mp hin⟩
      refine ⟨hnew, (heralded_congr fun k _ => ⟨(hexact k).2.symm, ?_⟩).mp hheralded⟩
      rw [hgone, (hexact k).1]
    · refine hquiet fun n hn => ⟨fun h => htouched ⟨n, hn, .inl ((hexact n).1.mp h)⟩, ?_⟩
      constructor
      · intro hin
        by_contra hout
        exact htouched ⟨n, hn, .inr ⟨(hexact n).2.mp hin, by simpa using hout⟩⟩
      · intro hin
        exact (heffect.does.left n m hin).resolve_right
          fun h => htouched ⟨n, hn, .inl ((hexact n).1.mp h)⟩

/-- One step that fits. -/
theorem Follows.next {step : Step} (h : Follows c base t) (hfits : StepFits c base t step) :
    Follows c base (stepTables t step) := by
  obtain ⟨E, hok⟩ := h.sound.ok
  obtain ⟨Eb, E', hokb, hok', hagree⟩ := h.messages
  by_cases hprune : ∃ w age, step = .call (.change w (.prune age))
  · obtain ⟨w, age, rfl⟩ := hprune
    have hundisturbed := undisturbed_prune t w age
    have hrooms : ∀ n m, messageInRoom (stepTables t (.call (.change w (.prune age)))).store n m =
        messageInRoom t.store n m := by
      intro n m
      have hpointers := pruneTombstones_roomMsgs w t.store age
      exact congrArg (fun pointers => decide ((⟨n, m⟩ : Pointer) ∈ pointers)) hpointers
    have hsees := sees_undisturbed (c := c) hundisturbed
    have hvisible : ∀ m, Visible c (stepTables t (.call (.change w (.prune age)))) m ↔
        Visible c t m := by
      intro m
      refine exists_congr fun n => ?_
      rw [hsees, hrooms]
    have hsame : ∀ m, SameObject (emailGet c t m)
        (emailGet c (stepTables t (.call (.change w (.prune age)))) m) := by
      intro m
      refine sameObject_of hok (hok.prune w age) hundisturbed (fun _ => rfl)
        (fun n _ => by rw [hrooms]) fun _ k => ?_
      have hkeywords : keywordsFor (stepTables t (.call (.change w (.prune age)))).server c.username
          m = keywordsFor t.server c.username m := keywordsFor_congr rfl c.username m
      rw [hkeywords]
    refine ⟨h.sound.step _, ⟨Eb, E', hokb, hok'.prune w age, hagree⟩, ?_,
      h.undisturbed.trans hundisturbed, fun m => ?_, fun m hunseen hseen => ?_⟩
    · refine Nat.le_trans h.seq (Nat.le_of_eq ?_)
      have hseq : (pruneTombstones w t.store age).seq = t.store.seq := by
        unfold pruneTombstones
        split
        · rfl
        · rfl
      exact hseq.symm
    · cases h.named m with
      | inr hold => exact .inr (hold.trans (hsame m))
      | inl hnamed =>
        obtain ⟨n, hn, hwhy⟩ := hnamed
        cases hwhy with
        | inl hadded => exact .inl ⟨n, (hsees n).mpr hn, .inl ⟨by rw [hrooms]; exact hadded.1, hadded.2⟩⟩
        | inr hgone =>
          rcases hfits m ⟨n, hn, hgone⟩ with ⟨k, hk, hstays⟩ | ⟨hnew, k, hk, hin⟩ | hbase
          · exact .inl ⟨k, (hsees k).mpr hk, .inr hstays⟩
          · exact .inl ⟨k, (hsees k).mpr hk, .inl ⟨by rw [hrooms]; exact hin, hnew⟩⟩
          · exact .inr (hbase.trans (hsame m))
    · obtain ⟨hnew, hheralded⟩ := h.heralded m hunseen ((hvisible m).mp hseen)
      rw [mailboxNums_congr hundisturbed]
      simp only [hrooms]
      refine ⟨hnew, heralded_of_fewer hheralded fun n => ?_⟩
      rintro ⟨tomb, htomb, hrest⟩
      exact ⟨tomb, (mem_pruneTombstones.mp htomb).1, hrest⟩
  · have hall : ∀ m, MessageFits c base t m (takesOf t · m step) (holdsOf t · m step)
        (rekeys c.username t m step) := by
      unfold StepFits at hfits
      split at hfits
      · exact absurd ⟨_, _, rfl⟩ hprune
      · exact hfits
    obtain ⟨takes, heffect⟩ := step_effect c.username hok' h.sound.keyed
      h.sound.bigint (fun w age heq => hprune ⟨w, age, heq⟩)
    obtain ⟨E'', hagree', hok''⟩ := heffect.does.ok E' hok'
    refine ⟨h.sound.step step, ⟨Eb, E'', hokb, hok'', fun n hn => ?_⟩,
      Nat.le_trans h.seq heffect.does.seq, h.undisturbed.trans heffect.undisturbed,
      h.named_effect heffect hall, fun m => h.heralded_effect heffect hall⟩
    rw [hagree' n (Nat.lt_of_lt_of_le hn h.seq), hagree n hn]

/-- A run whose steps fit. -/
theorem Follows.steps {steps : List Step} (h : Follows c base t) (hfits : StepsFit c base t steps) :
    Follows c base (steps.foldl stepTables t) := by
  induction steps generalizing t with
  | nil => exact h
  | cons step steps ih => exact ih (h.next hfits.1) hfits.2

theorem Follows.run {events : List Event} (h : Follows c base t) (hfits : RunFits c base t events)
    (k : Nat) : Follows c base (runEvents t (events.take k)) := by
  induction events generalizing t k with
  | nil => rw [List.take_nil]; exact h
  | cons event events ih =>
    cases k with
    | zero => exact h
    | succ k =>
      have hnext : Follows c base (eventTables t event) := by
        rw [eventTables_eq]
        exact h.steps hfits.1
      exact ih hnext hfits.2 k

/-! ## What the client is told -/

/-- Tables that follow the base track every email. -/
theorem Follows.tracks (h : Follows c base t) (hseq : base.store.seq ≤ 0x8000000000000000) :
    Tracks account c base t := by
  intro m hdiffers
  obtain ⟨Eb, E, hokb, hok, hagree⟩ := h.messages
  have hbase : accountHigh c base < base.store.seq := accountHigh_lt_seq hokb
  have hnamed := (h.named m).resolve_right hdiffers
  have hstate : accountState c t ≠ accountState c base := by
    intro heq
    have hhigh : accountHigh c t = accountHigh c base := idOf_inj heq
    exact absurd hnamed.lt_accountHigh (by rw [hhigh]; exact Nat.lt_irrefl _)
  have hsince : accountStateValue (accountState c base) = some (accountHigh c base) :=
    idNum_idOf (by omega)
  refine ⟨hstate, ?_, ?_⟩
  · obtain ⟨ch, hch⟩ := Option.isSome_iff_exists.mp ((firstMention_isSome_iff hok).mpr hnamed)
    obtain ⟨hcount, hlisted⟩ := listed_of_firstMention hch
    have hnum : ch.msgnum = m := by simpa using List.find?_some hch
    refine ⟨⟨num (accountHigh c base), accountState c t, changesSince c t (accountHigh c base)⟩,
      ?_, hcount, ?_⟩
    · rw [emailChanges, if_neg fun hother => hother.2 rfl, hsince]
      simp only
      rw [if_neg fun hmany => absurd hmany.1 (by decide)]
    · have hseen : (loadEmailFor c t m).isSome = (emailGet c t m).isSome := by
        rw [emailGet, Option.isSome_map]
      have hclass : classOf c t ch =
          classBetween (emailGet c base m).isSome (emailGet c t m).isSome := by
        rw [classOf, hnum, hseen, classBetween]
        cases hnow : (emailGet c t m).isSome with
        | false => rfl
        | true =>
          rw [if_neg (by simp), if_pos rfl]
          cases hbefore : (emailGet c base m).isSome with
          | true =>
            -- it was in a mailbox before, so its number is not above the state
            obtain ⟨n, hn, hin⟩ := (emailGet_isSome_iff hokb).mp hbefore
            rw [if_pos rfl, if_pos (firstMention_deleted hok (le_accountHigh hn hin) hch)]
          | false =>
            have hunseen : ¬Visible c base m := by
              rw [← emailGet_isSome_iff hokb, hbefore]
              exact Bool.false_ne_true
            have hvisible : Visible c t m := (emailGet_isSome_iff hok).mp hnow
            obtain ⟨hnew, hheralded⟩ := h.heralded m hunseen hvisible
            obtain ⟨n, hn, hin⟩ := hvisible
            obtain ⟨first, hfirst, hadded⟩ := firstMention_added hok h.sound.late hnew hheralded
              ⟨n, mem_mailboxNums.mpr hn, hin⟩
            have heq : ch = first := Option.some.inj (hch.symm.trans hfirst)
            rw [heq, hadded, if_neg Bool.false_ne_true]
      rw [← hclass]
      exact hlisted
  · intro o args hargs
    have hne : accountState c base ≠ [] := num_ne_nil _
    have hrefused : ∃ err, setRefusal account c args t = some err := by
      unfold setRefusal
      simp only [hargs]
      split
      · exact ⟨_, rfl⟩
      · rw [if_pos ⟨hne, fun heq => hstate heq.symm⟩]
        exact ⟨_, rfl⟩
    obtain ⟨err, herr⟩ := hrefused
    rw [emailSet, herr]
    exact ⟨rfl, err, rfl⟩

end Steps

/-! ## Runs -/

/-- No message was stored yet, and the rooms are as the schema keeps them. -/
structure Unused (t : Tables) : Prop where
  messages : t.store.messages = []
  roomMsgs : t.store.roomMsgs = []
  tombstones : t.store.tombstones = []
  seq : 0 < t.store.seq
  keyed : (roomNums t.store).Nodup
  bigint : BigintRooms t

theorem Unused.sound {t : Tables} (h : Unused t) : Sound t := by
  refine ⟨⟨fun _ => .blank, h.seq, ?_, ?_, ?_, ?_, ?_, ?_⟩, ?_, h.keyed, h.bigint⟩
  · rw [h.messages]; exact fun _ hr => nomatch hr
  · rw [h.messages]; exact List.nodup_nil
  · rw [h.messages]; exact fun _ hr => nomatch hr
  · rw [h.roomMsgs]; exact fun _ hp => nomatch hp
  · rw [h.tombstones]; exact fun _ ht => nomatch ht
  · rw [h.tombstones]; exact fun _ ht => nomatch ht
  · rw [TombstonesLate, h.tombstones]; exact fun _ ht => nomatch ht

/-- Whatever requests and calls come, an entry of a mailbox is one email, and the number of a
    removal is above the email's. -/
theorem entries_run {start : Tables} (hunused : Unused start) (events : List Event) :
    let s := (runEvents start events).store
    (∀ p ∈ s.roomMsgs, ∃! r, r ∈ s.messages ∧ r.msg.msgnum = p.msgnum) ∧
      (∀ t ∈ s.tombstones, t.msgnum < t.seq ∧ t.seq < s.seq) ∧ (roomNums s).Nodup := by
  intro s
  have hsound := hunused.sound.run events
  obtain ⟨E, hok⟩ := hsound.ok
  exact ⟨fun p hp => hok.exists_unique hp,
    fun t ht => ⟨hsound.late t ht, (hok.tombs t ht).1⟩, hsound.keyed⟩

/-- For every account and any past: from then on every state of a run whose steps fit tracks
    every email. -/
theorem email_changes_tracked (account : Bytes) (c : Ctx) (start : Tables) (hunused : Unused start)
    (past events : List Event)
    (hseq : (runEvents start past).store.seq ≤ 0x8000000000000000)
    (hfits : RunFits c (runEvents start past) (runEvents start past) events) (k : Nat) :
    Tracks account c (runEvents start past)
      (runEvents (runEvents start past) (events.take k)) :=
  ((Follows.refl (hunused.sound.run past)).run hfits k).tracks hseq

/-! ### A desk with one message -/

/-- Alice's rooms before any message. -/
def emptyDesk : Tables :=
  desk.withStore { desk.store with messages := [], roomMsgs := [], seq := 1 }

/-- The message 1 comes into her room 4. -/
def firstMail : List Event :=
  [.call (.change idle (.op (.insert { Message.blank with formatType := 4 } [4])))]

/-- An update of the message 1. -/
def updateOf (patch : Json) : Event :=
  .emailSet (bytes "alice") alice (fun _ => ⟨idle, fun _ => false, none⟩)
    (.object [(bytes "update", .object [(bytes "1", patch)])])

theorem unused_emptyDesk : Unused emptyDesk :=
  ⟨rfl, rfl, rfl, Nat.one_pos, by decide, by decide⟩

/-- A second message comes, the first one is moved, and the second one removed. -/
def moveAndRemove : List Event :=
  [.call (.change idle (.op (.insert { Message.blank with formatType := 4 } [4]))),
    .call (.change idle (.op (.move 4 5 1 false))), .call (.change idle (.op (.delete 4 2)))]

theorem entries_run_moved :
    let s := (runEvents emptyDesk (firstMail ++ moveAndRemove)).store
    (s.roomMsgs.length = 1 ∧ s.tombstones.length = 2) ∧
      (∀ p ∈ s.roomMsgs, ∃! r, r ∈ s.messages ∧ r.msg.msgnum = p.msgnum) ∧
        (∀ t ∈ s.tombstones, t.msgnum < t.seq ∧ t.seq < s.seq) ∧ (roomNums s).Nodup :=
  ⟨by decide +kernel, entries_run unused_emptyDesk (firstMail ++ moveAndRemove)⟩

/-- A move is told by the tombstone it leaves, and the keyword that is set with it. -/
theorem email_changes_tracked_move :
    let base := runEvents emptyDesk firstMail
    let t := runEvents base ([updateOf movePatch].take 1)
    (emailGet alice t 1).map Email.mailboxIds = some [idOf 5] ∧
      Tracks (bytes "alice") alice base t := by
  intro base t
  refine ⟨by decide +kernel, email_changes_tracked (bytes "alice") alice emptyDesk unused_emptyDesk
    firstMail [updateOf movePatch] (by decide +kernel) ⟨?_, trivial⟩ 1⟩
  have hsteps : stepsOfEvent base (updateOf movePatch) =
      [.item alice ⟨idle, fun _ => false, none⟩ (.update (bytes "1") movePatch)] := by
    rfl
  refine ⟨fun m => ?_, trivial⟩
  have hid : idNum (bytes "1") = some 1 := by decide +kernel
  by_cases hm : m = 1
  · subst hm
    refine ⟨fun _ => .inr ⟨4, by decide +kernel, .inr ⟨hid, by decide +kernel, by decide +kernel⟩⟩,
      fun _ hunseen => absurd ⟨4, by decide +kernel, by decide +kernel⟩ hunseen⟩
  · -- no other message is touched
    have hne : idNum (bytes "1") ≠ some m := by
      exact fun h => hm (Option.some.inj h).symm
    have hholds : ∀ n, holdsOf base n m
        (.item alice ⟨idle, fun _ => false, none⟩ (.update (bytes "1") movePatch)) ↔
          messageInRoom base.store n m = true := by
      intro n
      rw [holdsOf, if_neg fun h => hne h.1]
    refine ⟨?_, ?_⟩
    · rintro (⟨n, -, hin, hout⟩ | ⟨hrekeyed, -⟩)
      · rw [(hholds n).mp hin] at hout
        cases hout
      · exact absurd hrekeyed.1 hne
    · rintro ⟨n, -, htaken | ⟨hin, hout⟩⟩
      · exact absurd htaken.1 hne
      · rw [(hholds n).mp hin] at hout
        cases hout

/-- A keyword that is set is in no state string. -/
theorem keyword_change_untold :
    ¬∀ (account : Bytes) (c : Ctx) (start : Tables), Unused start →
      ∀ (past events : List Event), (runEvents start past).store.seq ≤ 0x8000000000000000 →
        ∀ k : Nat, Tracks account c (runEvents start past)
          (runEvents (runEvents start past) (events.take k)) := by
  intro h
  have htracks := h (bytes "alice") alice emptyDesk unused_emptyDesk firstMail
    [updateOf (.object [(bytes "keywords/$seen", .boolean true)])] (by decide +kernel) 1 1
  have hdiffers : ∀ a b : Option Email, a.map Email.keywords = some [] →
      b.map Email.keywords = some [bytes "$seen"] → ¬SameObject a b := by
    intro a b ha hb hsame
    cases a with
    | none => cases ha
    | some a =>
      cases b with
      | none => cases hb
      | some b =>
        have hkeywords := (hsame.2.2.2 (bytes "$seen")).mpr
        rw [Option.some.inj ha, Option.some.inj hb] at hkeywords
        exact absurd (hkeywords List.mem_cons_self) List.not_mem_nil
  exact (htracks (hdiffers _ _ (by decide +kernel) (by decide +kernel))).1 (by decide +kernel)

end QuackMail.Jmap
