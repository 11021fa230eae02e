import QuackMail.Pop3.Maildrop

/-! # Whole sessions

In a run where every login loads messages whose lines end in CRLF, and a `PASS` in a session that
is logged in finds the snapshot it has, the numbers, the user, the sizes and the marks mean what
RFC 1939 says, and `QUIT` removes what is marked.
-/

namespace QuackMail.Pop3

open Citadel Net

variable {cfg : Config}

/-! ## One command -/

/-- A reply that leaves the session as it is. -/
inductive Answer (cfg : Config) (rest : Bytes) (st : State) : Reply → Prop
  | say (line : Bytes) : Answer cfg rest st (.say line)
  | capa (version : Bytes) : Answer cfg rest st (.capa version)
  | stat : Answer cfg rest st (statReply st.session.drop)
  | list (uidl : Bool) : Answer cfg rest st (listReply uidl rest st.session.drop)
  | text (top : Bool) : Answer cfg rest st (textReply cfg top rest st)

/-- What a command can do. -/
inductive Outcome (cfg : Config) (env : Env) (verb rest : Bytes) (st : State) :
    State × Reply → Prop
  | quit : verb = bytes "QUIT" → Outcome cfg env verb rest st (quitCommand cfg env st)
  | named (name line : Bytes) : verb = bytes "USER" → st.session.authed = false →
      Outcome cfg env verb rest st
        ({ st with session := { st.session with pendingUser := name } }, .say line)
  | login (line : Bytes) : verb = bytes "PASS" → st.session.pendingUser ≠ [] →
      env.verify st.session.pendingUser rest = true →
      Outcome cfg env verb rest st
        ({ st with session :=
            { st.session with
              user := st.session.pendingUser
              authed := true
              drop := loadMaildrop cfg st.db st.session.pendingUser } }, .say line)
  | transport (tls ended : Bool) (line : Bytes) : verb = bytes "STLS" →
      Outcome cfg env verb rest st
        ({ st with session := { st.session with tls := tls, ended := ended } }, .say line)
  | mark (e : Entry) (line : Bytes) : verb = bytes "DELE" → st.session.authed = true →
      entryAt st.session.drop (strtoll rest) = some e → e.deleted = false →
      Outcome cfg env verb rest st
        ({ st with session := { st.session with drop := st.session.drop.mark (strtoll rest) } },
          .say line)
  | reset (line : Bytes) : verb = bytes "RSET" → st.session.authed = true →
      Outcome cfg env verb rest st
        ({ st with session := { st.session with drop := st.session.drop.reset } }, .say line)
  | answered (r : Reply) : Answer cfg rest st r →
      (verb = bytes "RSET" → st.session.authed = false) → verb ≠ bytes "QUIT" →
      (verb = bytes "DELE" → st.session.authed = true →
        ∀ e, entryAt st.session.drop (strtoll rest) = some e → e.deleted = true) →
      Outcome cfg env verb rest st (st, r)

variable {st : State} {E E' : Nat → Message} {e : Event}

theorem authedCommand_outcome (env : Env) {verb rest : Bytes}
    (hquit : verb ≠ bytes "QUIT") (hauthed : st.session.authed = true) :
    Outcome cfg env verb rest st (authedCommand cfg verb rest st) := by
  have hanswer {r : Reply} (hr : Answer cfg rest st r) (hreset : verb ≠ bytes "RSET")
      (hdele : verb ≠ bytes "DELE") : Outcome cfg env verb rest st (st, r) :=
    .answered r hr (fun h => absurd h hreset) hquit (fun h => absurd h hdele)
  rw [authedCommand]
  split
  · next hverb => exact hanswer .stat (by rw [hverb]; decide) (by rw [hverb]; decide)
  split
  · next hverb => exact hanswer (.list _) (by rw [hverb]; decide) (by rw [hverb]; decide)
  split
  · next hverb => exact hanswer (.list _) (by rw [hverb]; decide) (by rw [hverb]; decide)
  split
  · next hverb => exact hanswer (.text _) (by rw [hverb]; decide) (by rw [hverb]; decide)
  split
  · next hverb => exact hanswer (.text _) (by rw [hverb]; decide) (by rw [hverb]; decide)
  split
  · next hverb =>
    have hreset : verb = bytes "RSET" → st.session.authed = false := by
      intro h
      rw [hverb] at h
      exact absurd h (by decide)
    rw [deleCommand]
    split
    · next hnone =>
      exact .answered _ (.say _) hreset hquit fun _ _ e he => by rw [hnone] at he; cases he
    · next e he =>
      split
      · next hdeleted =>
        refine .answered _ (.say _) hreset hquit fun _ _ e' he' => ?_
        rw [he, Option.some.injEq] at he'
        rw [← he']
        exact hdeleted
      · next hkept => exact .mark e _ hverb hauthed he (by simpa using hkept)
  split
  · next hverb => exact .reset _ hverb hauthed
  split
  · next hreset hverb =>
    exact hanswer (.say _) (by rw [hverb]; decide) (by rw [hverb]; decide)
  · next hdele hreset _ => exact hanswer (.say _) hreset hdele

theorem handle_outcome (env : Env) (line : Bytes) (st : State) :
    Outcome cfg env (splitLine line).1 (splitLine line).2 st (handle cfg env line st) := by
  generalize hsplit : splitLine line = parts
  obtain ⟨verb, rest⟩ := parts
  have hanswer {r : Reply} (hr : Answer cfg rest st r) (hreset : verb ≠ bytes "RSET")
      (hquit : verb ≠ bytes "QUIT") (hdele : verb ≠ bytes "DELE") :
      Outcome cfg env verb rest st (st, r) :=
    .answered r hr (fun h => absurd h hreset) hquit (fun h => absurd h hdele)
  rw [handle, hsplit]
  dsimp only
  split
  · next hverb =>
    exact hanswer (.say _) (by rw [hverb]; decide) (by rw [hverb]; decide) (by rw [hverb]; decide)
  split
  · next hverb =>
    exact hanswer (.capa _) (by rw [hverb]; decide) (by rw [hverb]; decide) (by rw [hverb]; decide)
  split
  · next hverb => exact .quit hverb
  split
  · next hquit hverb =>
    have hsay (line : Bytes) : Outcome cfg env verb rest st (st, .say line) :=
      hanswer (.say line) (by rw [hverb]; decide) hquit (by rw [hverb]; decide)
    rw [userCommand]
    split
    · exact hsay _
    · next hauthed =>
      split
      · exact hsay _
      · exact .named _ _ hverb (by simpa using hauthed)
  split
  · next hquit _ hverb =>
    have hsay (line : Bytes) : Outcome cfg env verb rest st (st, .say line) :=
      hanswer (.say line) (by rw [hverb]; decide) hquit (by rw [hverb]; decide)
    rw [passCommand]
    split
    · exact hsay _
    · next hpending =>
      split
      · exact hsay _
      · next hverify => exact .login _ hverb hpending (by simpa using hverify)
  split
  · next hquit _ _ hverb =>
    rw [stlsCommand]
    split
    · exact hanswer (.say _) (by rw [hverb]; decide) hquit (by rw [hverb]; decide)
    · exact .transport _ _ _ hverb
  split
  · next hquit _ _ _ hauthed =>
    refine .answered _ (.say _) (fun _ => hauthed) hquit fun _ h => ?_
    rw [hauthed] at h
    cases h
  · next hquit _ _ _ hauthed => exact authedCommand_outcome env hquit (by simpa using hauthed)

/-! ## What a session keeps -/

/-- The numbers of the messages of the snapshot. -/
def numbers (st : State) : List Nat := st.session.drop.msgs.map Entry.msgnum

/-- The entry has the size of its message, whose lines end in CRLF. -/
structure Sound (cfg : Config) (E : Nat → Message) (bound : Nat) (e : Entry) : Prop where
  number : e.msgnum < bound
  canonical : Canonical (cfg.renderRfc822 (E e.msgnum))
  size : e.size = (cfg.renderRfc822 (E e.msgnum)).length

theorem Sound.octets {bound : Nat} {e : Entry} (h : Sound cfg E bound e) :
    e.size = octets (cfg.renderRfc822 (E e.msgnum)) := by
  rw [octets_of_canonical h.canonical, h.size]

theorem Sound.mono {bound bound' : Nat} {e : Entry}
    (h : Sound cfg E bound e) (hsame : ∀ n < bound, E' n = E n) (hle : bound ≤ bound') :
    Sound cfg E' bound' e := by
  refine ⟨Nat.lt_of_lt_of_le h.number hle, ?_, ?_⟩
  · rw [hsame _ h.number]
    exact h.canonical
  · rw [hsame _ h.number]
    exact h.size

/-- What is known of a state: messages are those of `E`, and so are the sizes of the snapshot. -/
structure Seen (cfg : Config) (E : Nat → Message) (bound : Nat) (st : State) : Prop where
  messages : ∀ m msg, loadMessage st.db.store m = some msg → msg = E m ∧ m < bound
  entries : st.session.authed = true → ∀ e ∈ st.session.drop.msgs, Sound cfg E bound e

theorem Seen.mono {bound bound' : Nat}
    (h : Seen cfg E bound st) (hsame : ∀ n < bound, E' n = E n) (hle : bound ≤ bound') :
    Seen cfg E' bound' st := by
  refine ⟨fun m msg hmsg => ?_, fun hauthed e he => (h.entries hauthed e he).mono hsame hle⟩
  obtain ⟨hlabel, hlt⟩ := h.messages m msg hmsg
  rw [hsame m hlt]
  exact ⟨hlabel, by omega⟩

/-- The invariant of a session. -/
structure Inv (cfg : Config) (E : Nat → Message) (st : State) : Prop where
  ok : Ok E st.db.store
  user : st.session.authed = true → st.session.user = st.session.pendingUser
  entries : st.session.authed = true → ∀ e ∈ st.session.drop.msgs,
    Sound cfg E st.db.store.seq e

theorem Inv.seen (h : Inv cfg E st) : Seen cfg E st.db.store.seq st :=
  ⟨fun _ _ hmsg => loadMessage_label h.ok hmsg, h.entries⟩

theorem Inv.extends {st' : State} (h : Inv cfg E st) (hext : Extends E st.db.store E' st'.db.store)
    (hauthed : st'.session.authed = st.session.authed)
    (huser : st'.session.user = st.session.user)
    (hpending : st'.session.authed = true → st'.session.pendingUser = st.session.pendingUser)
    (hentries : ∀ e ∈ st'.session.drop.msgs, ∃ old ∈ st.session.drop.msgs,
      e.msgnum = old.msgnum ∧ e.size = old.size) : Inv cfg E' st' := by
  refine ⟨hext.2.1, fun hat => ?_, fun hat e he => ?_⟩
  · rw [huser, hpending hat]
    exact h.user (hauthed ▸ hat)
  · obtain ⟨old, hold, hnum, hsize⟩ := hentries e he
    have hsound := (h.entries (hauthed ▸ hat) old hold).mono hext.1 hext.2.2
    refine ⟨?_, ?_, ?_⟩
    · rw [hnum]
      exact hsound.number
    · rw [hnum]
      exact hsound.canonical
    · rw [hnum, hsize]
      exact hsound.size

/-- A `PASS` that succeeds finds texts whose lines end in CRLF; in a session that is logged in,
    it finds the messages of the snapshot, and none of them marked. -/
def Harmless (cfg : Config) (st : State) : Event → Prop
  | .other _ => True
  | .command env line =>
    st.session.ended = false → (splitLine line).1 = bytes "PASS" →
      st.session.pendingUser ≠ [] →
      env.verify st.session.pendingUser (splitLine line).2 = true →
      (st.session.authed = true → (∀ e ∈ st.session.drop.msgs, e.deleted = false) ∧
        (mailMessages cfg st.db.store st.session.pendingUser).filter
          (fun m => (loadMessage st.db.store m).isSome) = numbers st) ∧
      (st.session.authed = false →
        ∀ m ∈ mailMessages cfg st.db.store st.session.pendingUser, ∀ msg,
          loadMessage st.db.store m = some msg → Canonical (cfg.renderRfc822 msg))

def AllHarmless (cfg : Config) (st : State) (events : List Event) : Prop :=
  ∀ pre e post, events = pre ++ e :: post → Harmless cfg (run cfg st pre) e

theorem run_concat (st : State) (events : List Event) (e : Event) :
    run cfg st (events ++ [e]) = (step cfg (run cfg st events) e).1 := by
  simp [run]

theorem AllHarmless.init {events : List Event}
    (h : AllHarmless cfg st (events ++ [e])) : AllHarmless cfg st events :=
  fun pre e' post hevents => h pre e' (post ++ [e]) (by rw [hevents]; simp)

theorem AllHarmless.last {st : State} {events : List Event} {e : Event}
    (h : AllHarmless cfg st (events ++ [e])) : Harmless cfg (run cfg st events) e :=
  h events e [] rfl

/-- A snapshot that finds the same messages is the same. -/
theorem reload_msgs (h : Inv cfg E st) (hauthed : st.session.authed = true)
    (hfound : (∀ e ∈ st.session.drop.msgs, e.deleted = false) ∧
      (mailMessages cfg st.db.store st.session.pendingUser).filter
        (fun m => (loadMessage st.db.store m).isSome) = numbers st) :
    (loadMaildrop cfg st.db st.session.pendingUser).msgs = st.session.drop.msgs := by
  have hload : ∀ m, loadEntry cfg st.db.store m =
      if (loadMessage st.db.store m).isSome then
        some ⟨m, (cfg.renderRfc822 (E m)).length, false⟩ else none := by
    intro m
    rw [loadEntry]
    cases hmsg : loadMessage st.db.store m with
    | none => rfl
    | some msg =>
      rw [(loadMessage_label h.ok hmsg).1]
      rfl
  have hreload : (loadMaildrop cfg st.db st.session.pendingUser).msgs =
      (numbers st).map fun m => ⟨m, (cfg.renderRfc822 (E m)).length, false⟩ := by
    rw [loadMaildrop_msgs, ← hfound.2]
    generalize mailMessages cfg st.db.store st.session.pendingUser = ms
    induction ms with
    | nil => rfl
    | cons m ms ih =>
      rw [List.filterMap_cons, List.filter_cons, hload]
      cases (loadMessage st.db.store m).isSome with
      | true => simp [ih]
      | false => simp [ih]
  rw [hreload, numbers, List.map_map]
  refine (List.map_congr_left fun e he => ?_).trans (List.map_id _)
  have hsize := (h.entries hauthed e he).size
  have hkept := hfound.1 e he
  obtain ⟨m, size, deleted⟩ := e
  simp only at hsize hkept
  rw [hsize, hkept]
  rfl

theorem modify_entries (msgs : List Entry) (i : Nat) :
    ∀ e ∈ msgs.modify i (fun e => { e with deleted := true }), ∃ old ∈ msgs,
      e.msgnum = old.msgnum ∧ e.size = old.size := by
  intro e he
  obtain ⟨j, hj⟩ := List.mem_iff_getElem?.mp he
  rw [List.getElem?_modify] at hj
  obtain ⟨old, hold, rfl⟩ := Option.map_eq_some_iff.mp hj
  refine ⟨old, List.mem_of_getElem? hold, ?_, ?_⟩
  · split <;> rfl
  · split <;> rfl

theorem inv_step (h : Inv cfg E st) (hharmless : Harmless cfg st e) :
    ∃ E', Extends E st.db.store E' (step cfg st e).1.db.store ∧ Inv cfg E' (step cfg st e).1 := by
  have hsame : ∀ e ∈ st.session.drop.msgs, ∃ old ∈ st.session.drop.msgs,
      e.msgnum = old.msgnum ∧ e.size = old.size := fun e he => ⟨e, he, rfl, rfl⟩
  cases e with
  | other o =>
    obtain ⟨E', hext⟩ := extends_other h.ok o
    exact ⟨E', hext, h.extends hext rfl rfl (fun _ => rfl) hsame⟩
  | command env line =>
    rw [step]
    split
    · exact ⟨E, .refl h.ok, h⟩
    next hopen =>
      have hopen : st.session.ended = false := by simpa using hopen
      have houtcome := @handle_outcome cfg env line st
      generalize handle cfg env line st = result at houtcome
      cases houtcome with
      | quit hverb =>
        rw [quitCommand]
        dsimp only
        cases hauthed : st.session.authed with
        | false =>
          exact ⟨E, .refl h.ok, h.extends (.refl h.ok) hauthed.symm rfl (fun _ => rfl) hsame⟩
        | true =>
          obtain ⟨E', hext⟩ := @extends_applyUpdate cfg _ _ h.ok env.world st.session.user
            st.session.drop
          exact ⟨E', hext, h.extends hext hauthed.symm rfl (fun _ => rfl) hsame⟩
      | named name reply hverb hauthed =>
        refine ⟨E, .refl h.ok, h.extends (.refl h.ok) rfl rfl (fun hat => ?_) hsame⟩
        rw [hauthed] at hat
        cases hat
      | login reply hverb hpending hverify =>
        refine ⟨E, .refl h.ok, h.ok, fun _ => rfl, fun _ e he => ?_⟩
        obtain ⟨hrepeat, hfirst⟩ := hharmless hopen hverb hpending hverify
        cases hauthed : st.session.authed with
        | true =>
          rw [reload_msgs h hauthed (hrepeat hauthed)] at he
          exact h.entries hauthed e he
        | false =>
          obtain ⟨⟨-, msg, hmsg, hsize⟩, hin⟩ := loadMaildrop_loaded e he
          obtain ⟨hlabel, hlt⟩ := loadMessage_label h.ok hmsg
          have hcanonical := hfirst hauthed e.msgnum hin msg hmsg
          rw [hlabel] at hsize hcanonical
          exact ⟨hlt, hcanonical, hsize⟩
      | transport tls ended reply hverb =>
        exact ⟨E, .refl h.ok, h.extends (.refl h.ok) rfl rfl (fun _ => rfl) hsame⟩
      | mark e reply hverb hauthed he hkept =>
        exact ⟨E, .refl h.ok, h.extends (.refl h.ok) rfl rfl (fun _ => rfl) (modify_entries _ _)⟩
      | reset reply hverb hauthed =>
        refine ⟨E, .refl h.ok, h.extends (.refl h.ok) rfl rfl (fun _ => rfl) fun e he => ?_⟩
        obtain ⟨old, hold, rfl⟩ := List.mem_map.mp he
        exact ⟨old, hold, rfl, rfl⟩
      | answered r hr hreset hquit hdele =>
        exact ⟨E, .refl h.ok, h⟩

/-- In a run the messages have one meaning, and every state knows it. -/
theorem inv_run (h : Inv cfg E st) {events : List Event} (hharmless : AllHarmless cfg st events) :
    ∃ E', Inv cfg E' (run cfg st events) ∧ ∀ pre post, events = pre ++ post →
      Seen cfg E' (run cfg st events).db.store.seq (run cfg st pre) := by
  induction events using List.reverseRecOn with
  | nil =>
    refine ⟨E, h, fun pre post hnil => ?_⟩
    rw [(List.append_eq_nil_iff.mp hnil.symm).1]
    exact h.seen
  | append_singleton events e ih =>
    obtain ⟨E₁, hinv, hseen⟩ := ih hharmless.init
    obtain ⟨E₂, hext, hinv'⟩ := inv_step hinv hharmless.last
    rw [run_concat]
    refine ⟨E₂, hinv', fun pre post hsplit => ?_⟩
    cases List.eq_nil_or_concat post with
    | inl hnil =>
      rw [hnil, List.append_nil] at hsplit
      rw [← hsplit, run_concat]
      exact hinv'.seen
    | inr hconcat =>
      obtain ⟨init, last, rfl⟩ := hconcat
      rw [List.concat_eq_append, ← List.append_assoc] at hsplit
      exact (hseen pre init (List.append_inj' hsplit rfl).1).mono hext.1 hext.2.2

/-! ## Numbers, user and marks -/

/-- A session that is logged in stays so, with its user and its numbers. -/
theorem authed_step (h : Inv cfg E st)
    (hharmless : Harmless cfg st e) (hauthed : st.session.authed = true) :
    (step cfg st e).1.session.authed = true ∧
      (step cfg st e).1.session.user = st.session.user ∧
      numbers (step cfg st e).1 = numbers st := by
  cases e with
  | other o => exact ⟨hauthed, rfl, rfl⟩
  | command env line =>
    rw [step]
    split
    · exact ⟨hauthed, rfl, rfl⟩
    next hopen =>
      have hopen : st.session.ended = false := by simpa using hopen
      have houtcome := @handle_outcome cfg env line st
      generalize handle cfg env line st = result at houtcome
      cases houtcome with
      | quit hverb => exact ⟨hauthed, rfl, rfl⟩
      | named name reply hverb hnot =>
        rw [hauthed] at hnot
        cases hnot
      | login reply hverb hpending hverify =>
        refine ⟨rfl, (h.user hauthed).symm, ?_⟩
        exact congrArg (List.map Entry.msgnum)
          (reload_msgs h hauthed ((hharmless hopen hverb hpending hverify).1 hauthed))
      | transport tls ended reply hverb => exact ⟨hauthed, rfl, rfl⟩
      | mark e reply hverb _ he hkept =>
        refine ⟨hauthed, rfl, List.ext_getElem? fun i => ?_⟩
        simp only [numbers, Maildrop.mark, List.getElem?_map, List.getElem?_modify]
        cases st.session.drop.msgs[i]? with
        | none => rfl
        | some old =>
          split <;> rfl
      | reset reply hverb _ =>
        refine ⟨hauthed, rfl, ?_⟩
        simp only [numbers, Maildrop.reset, List.map_map]
        rfl
      | answered r hr hreset hquit hdele => exact ⟨hauthed, rfl, rfl⟩

/-- The event is a `RSET`. -/
def IsReset : Event → Prop
  | .other _ => False
  | .command _ line => (splitLine line).1 = bytes "RSET"

/-- The event is a `DELE` of the message with this index. -/
def IsDele (i : Nat) : Event → Prop
  | .other _ => False
  | .command _ line => (splitLine line).1 = bytes "DELE" ∧ strtoll (splitLine line).2 = i + 1

/-- A `DELE` of the run named the message, in a session that was logged in, and no `RSET` came
    after it. -/
def Marked (cfg : Config) (st : State) (events : List Event) (i : Nat) : Prop :=
  ∃ pre e post, events = pre ++ e :: post ∧ (run cfg st pre).session.authed = true ∧ IsDele i e ∧
    ∀ e' ∈ post, ¬IsReset e'

theorem marked_concat {events : List Event} {i : Nat} : Marked cfg st (events ++ [e]) i ↔
      (Marked cfg st events i ∧ ¬IsReset e) ∨
        ((run cfg st events).session.authed = true ∧ IsDele i e) := by
  constructor
  · rintro ⟨pre, e', post, hsplit, hauthed, hdele, hno⟩
    cases List.eq_nil_or_concat post with
    | inl hnil =>
      rw [hnil] at hsplit
      obtain ⟨hpre, hlast⟩ := List.append_inj' hsplit rfl
      rw [hpre, (List.cons.inj hlast).1]
      exact Or.inr ⟨hauthed, hdele⟩
    | inr hconcat =>
      obtain ⟨init, last, rfl⟩ := hconcat
      rw [List.concat_eq_append, ← List.cons_append, ← List.append_assoc] at hsplit
      obtain ⟨hpre, hlast⟩ := List.append_inj' hsplit rfl
      refine Or.inl ⟨⟨pre, e', init, hpre, hauthed, hdele, fun x hx => hno x (by simp [hx])⟩, ?_⟩
      rw [(List.cons.inj hlast).1]
      exact hno last (by simp)
  · intro h
    cases h with
    | inl h =>
      obtain ⟨⟨pre, e', post, rfl, hauthed, hdele, hno⟩, hlast⟩ := h
      refine ⟨pre, e', post ++ [e], by simp, hauthed, hdele, fun x hx => ?_⟩
      cases List.mem_append.mp hx with
      | inl hx => exact hno x hx
      | inr hx => rw [List.mem_singleton.mp hx]; exact hlast
    | inr h => exact ⟨events, e, [], rfl, h.1, h.2, by simp⟩

/-- The entries that are marked are those of the history. -/
def MarksAgree (cfg : Config) (start : State) (events : List Event) : Prop :=
  ∀ i e, (run cfg start events).session.drop.msgs[i]? = some e →
    (e.deleted = true ↔ Marked cfg start events i)

theorem entryAt_succ (drop : Maildrop) (i : Nat) :
    entryAt drop ((i : Int) + 1) = drop.msgs[i]? := by
  have hidx : ¬(i : Int) + 1 < 1 := by omega
  have hnat : ((i : Int) + 1 - 1).toNat = i := by omega
  rw [entryAt, if_neg hidx, hnat]

theorem entryAt_some {drop : Maildrop} {idx : Int} {e : Entry} (h : entryAt drop idx = some e) :
    ∃ i : Nat, idx = i + 1 ∧ drop.msgs[i]? = some e := by
  rw [entryAt] at h
  split at h
  · cases h
  · exact ⟨(idx - 1).toNat, by omega, h⟩

theorem ended_step (h : (step cfg st e).1.session.ended = false) : st.session.ended = false := by
  cases e with
  | other o => exact h
  | command env line =>
    rw [step] at h
    split at h
    · exact h
    · next hopen => simpa using hopen

/-- A mark is of a session that is logged in. -/
theorem authed_of_marked {E : Nat → Message} {st : State} (h : Inv cfg E st) {events : List Event}
    (hharmless : AllHarmless cfg st events) {i : Nat} (hmarked : Marked cfg st events i) :
    (run cfg st events).session.authed = true := by
  obtain ⟨pre, e, post, rfl, hauthed, -, -⟩ := hmarked
  -- by induction on the events behind the `DELE`
  suffices hstays : ∀ post, AllHarmless cfg st (pre ++ post) →
      (run cfg st (pre ++ post)).session.authed = true from hstays (e :: post) hharmless
  intro post
  induction post using List.reverseRecOn with
  | nil => intro _; rwa [List.append_nil]
  | append_singleton post e' ih =>
    intro hall
    rw [← List.append_assoc] at hall ⊢
    obtain ⟨E', hinv, -⟩ := inv_run h hall.init
    rw [run_concat]
    exact (authed_step hinv hall.last (ih hall.init)).1

theorem marks_run (h : Inv cfg E st) (hstart : st.session.authed = false) {events : List Event}
    (hharmless : AllHarmless cfg st events)
    (hopen : (run cfg st events).session.ended = false)
    (hauthed : (run cfg st events).session.authed = true) : MarksAgree cfg st events := by
  induction events using List.reverseRecOn with
  | nil =>
    have hnot : st.session.authed = true := hauthed
    rw [hstart] at hnot
    cases hnot
  | append_singleton events e ih =>
    rw [run_concat] at hopen hauthed
    have hopen₀ := ended_step hopen
    have ih : (run cfg st events).session.authed = true → ∀ i e,
        (run cfg st events).session.drop.msgs[i]? = some e →
          (e.deleted = true ↔ Marked cfg st events i) := ih hharmless.init hopen₀
    obtain ⟨E', hinv, -⟩ := inv_run h hharmless.init
    have hlast := hharmless.last
    have hnomark := fun i => @authed_of_marked cfg E st h events hharmless.init i
    intro i entry hentry
    rw [run_concat] at hentry
    rw [marked_concat]
    generalize run cfg st events = s at *
    -- where the snapshot stays, only the history counts
    have hkeep (hat : s.session.authed = true) (hdrop : s.session.drop.msgs[i]? = some entry)
        (hreset : ¬IsReset e) (hdele : IsDele i e → entry.deleted = true) :
        entry.deleted = true ↔ (Marked cfg st events i ∧ ¬IsReset e) ∨
          (s.session.authed = true ∧ IsDele i e) := by
      have hagree := ih hat i entry hdrop
      rw [hagree]
      constructor
      · exact fun hmarked => Or.inl ⟨hmarked, hreset⟩
      · intro hmarked
        cases hmarked with
        | inl hmarked => exact hmarked.1
        | inr hmarked => exact hagree.mp (hdele hmarked.2)
    cases e with
    | other o => exact hkeep hauthed hentry id (fun hdele => hdele.elim)
    | command env line =>
      rw [step, if_neg (by simp [hopen₀])] at hopen hauthed hentry
      have houtcome := @handle_outcome cfg env line s
      generalize handle cfg env line s = result at houtcome hopen hauthed hentry
      have hverbs {verb : Bytes} (hverb : (splitLine line).1 = verb)
          (hreset : verb ≠ bytes "RSET") (hdele : verb ≠ bytes "DELE") :
          ¬IsReset (.command env line) ∧ ¬IsDele i (.command env line) := by
        rw [← hverb] at hreset hdele
        exact ⟨hreset, fun h => hdele h.1⟩
      cases houtcome with
      | quit hverb => exact absurd hopen (by simp [quitCommand])
      | named name reply hverb hnot =>
        have hat : s.session.authed = true := hauthed
        rw [hnot] at hat
        cases hat
      | login reply hverb hpending hverify =>
        obtain ⟨hreset, hdele⟩ := hverbs hverb (by decide) (by decide)
        obtain ⟨hrepeat, -⟩ := hlast hopen₀ hverb hpending hverify
        have hkept : entry.deleted = false :=
          (loadMaildrop_loaded entry (List.mem_of_getElem? hentry)).1.1
        rw [hkept]
        refine iff_of_false (by decide) fun hmarked => ?_
        cases hmarked with
        | inl hmarked =>
          have hat := hnomark i hmarked.1
          rw [reload_msgs hinv hat (hrepeat hat)] at hentry
          have hdeleted := (ih hat i entry hentry).mpr hmarked.1
          rw [hkept] at hdeleted
          cases hdeleted
        | inr hmarked => exact hdele hmarked.2
      | transport tls ended reply hverb =>
        obtain ⟨hreset, hdele⟩ := hverbs hverb (by decide) (by decide)
        exact hkeep hauthed hentry hreset (fun h => absurd h hdele)
      | mark old reply hverb hat hold hkept =>
        obtain ⟨j, hidx, hj⟩ := entryAt_some hold
        have hreset : ¬IsReset (.command env line) := by
          intro hreset
          rw [IsReset, hverb] at hreset
          exact absurd hreset (by decide)
        have hnat : (strtoll (splitLine line).2 - 1).toNat = j := by omega
        have hentry : (s.session.drop.msgs.modify j fun e => { e with deleted := true })[i]? =
            some entry := by rw [← hnat]; exact hentry
        rw [List.getElem?_modify] at hentry
        obtain ⟨before, hbefore, rfl⟩ := Option.map_eq_some_iff.mp hentry
        by_cases hij : j = i
        · rw [if_pos hij]
          exact iff_of_true rfl (Or.inr ⟨hat, hverb, by rw [hidx, hij]⟩)
        · refine hkeep hat (by rw [if_neg hij]; exact hbefore) hreset fun hdele => ?_
          have hsame := hdele.2
          exact absurd (by omega) hij
      | reset reply hverb hat =>
        have hreset : IsReset (.command env line) := hverb
        have hentry : (s.session.drop.msgs.map fun e => { e with deleted := false })[i]? =
            some entry := hentry
        rw [List.getElem?_map] at hentry
        obtain ⟨before, -, rfl⟩ := Option.map_eq_some_iff.mp hentry
        refine iff_of_false (by simp) fun hmarked => ?_
        cases hmarked with
        | inl hmarked => exact hmarked.2 hreset
        | inr hmarked =>
          have hdele := hmarked.2.1
          rw [hverb] at hdele
          exact absurd hdele (by decide)
      | answered r hr hreset hquit hdele =>
        refine hkeep hauthed hentry (fun h => ?_) fun h => ?_
        · have hnot := hreset h
          rw [hauthed] at hnot
          cases hnot
        · refine hdele h.1 hauthed entry ?_
          rw [h.2, entryAt_succ]
          exact hentry

/-! ## Replies -/

/-- The message with this number of the session. -/
def Numbered (st : State) (which m : Nat) : Prop :=
  1 ≤ which ∧ (numbers st)[which - 1]? = some m

/-- What a reply says of a message is its number and the octets `RETR` sends of it. -/
def Sized (cfg : Config) (E : Nat → Message) (st : State) (which : Nat) (e : Entry) : Prop :=
  e.deleted = false ∧ Numbered st which e.msgnum ∧
    e.size = octets (cfg.renderRfc822 (E e.msgnum))

/-- A reply is about the messages of the session. -/
def Tells (cfg : Config) (E : Nat → Message) (st : State) : Reply → Prop
  | .say _ => True
  | .capa _ => True
  | .stat count total => count = (unmarked st.session.drop).length ∧
      total = ((unmarked st.session.drop).map fun p =>
        octets (cfg.renderRfc822 (E p.2.msgnum))).sum
  | .scan _ which e => Sized cfg E st which e
  | .listing _ entries => entries = unmarked st.session.drop ∧
      ∀ p ∈ entries, Sized cfg E st p.1 p.2
  | .text which raw _ => ∃ m, Numbered st which m ∧ raw = cfg.renderRfc822 (E m)

theorem mem_unmarked {drop : Maildrop} {which : Nat} {e : Entry} : (which, e) ∈ unmarked drop ↔
      1 ≤ which ∧ drop.msgs[which - 1]? = some e ∧ e.deleted = false := by
  rw [unmarked, List.mem_filterMap]
  constructor
  · rintro ⟨⟨e', i⟩, hmem, hentry⟩
    obtain ⟨hle, hget⟩ := List.mk_mem_zipIdx_iff_le_and_getElem?_sub.mp hmem
    split at hentry
    · cases hentry
    · next hkept =>
      obtain ⟨rfl, rfl⟩ := Prod.mk.inj (Option.some.inj hentry)
      exact ⟨hle, hget, by simpa using hkept⟩
  · rintro ⟨hle, hget, hkept⟩
    exact ⟨(e, which), List.mk_mem_zipIdx_iff_le_and_getElem?_sub.mpr ⟨hle, hget⟩, by simp [hkept]⟩

theorem numbered_of_getElem? {which : Nat} {e : Entry} (hle : 1 ≤ which)
    (h : st.session.drop.msgs[which - 1]? = some e) : Numbered st which e.msgnum :=
  ⟨hle, by rw [numbers, List.getElem?_map, h]; rfl⟩

theorem sized_unmarked {bound : Nat} (h : Seen cfg E bound st)
    (hauthed : st.session.authed = true) {p : Nat × Entry}
    (hp : p ∈ unmarked st.session.drop) : Sized cfg E st p.1 p.2 := by
  obtain ⟨hle, hget, hkept⟩ := mem_unmarked.mp hp
  exact ⟨hkept, numbered_of_getElem? hle hget,
    (h.entries hauthed _ (List.mem_of_getElem? hget)).octets⟩

theorem tells_answer {bound : Nat} (h : Seen cfg E bound st)
    (hauthed : st.session.authed = true) {rest : Bytes} {r : Reply} (hr : Answer cfg rest st r) :
    Tells cfg E st r := by
  cases hr with
  | say line => trivial
  | capa version => trivial
  | stat =>
    refine ⟨rfl, ?_⟩
    rw [List.map_congr_left fun p hp => (sized_unmarked h hauthed hp).2.2]
  | list uidl =>
    rw [listReply]
    split
    · next hwhich =>
      split
      · trivial
      · next e he =>
        split
        · trivial
        · next hkept =>
          obtain ⟨i, hidx, hget⟩ := entryAt_some he
          have hnat : (strtoll rest).toNat = i + 1 := by omega
          rw [hnat]
          exact ⟨by simpa using hkept, numbered_of_getElem? (Nat.le_add_left 1 i) hget,
            (h.entries hauthed _ (List.mem_of_getElem? hget)).octets⟩
    · exact ⟨rfl, fun p hp => sized_unmarked h hauthed hp⟩
  | text top =>
    rw [textReply]
    generalize textArgs top rest = args
    obtain ⟨whichArg, lines⟩ := args
    dsimp only
    split
    · trivial
    · next e he =>
      split
      · trivial
      · split
        · trivial
        · next msg hmsg =>
          obtain ⟨i, hidx, hget⟩ := entryAt_some he
          have hnat : (strtoll whichArg).toNat = i + 1 := by omega
          rw [hnat]
          exact ⟨e.msgnum, numbered_of_getElem? (Nat.le_add_left 1 i) hget,
            congrArg cfg.renderRfc822 (h.messages _ _ hmsg).1⟩

/-! ## The session -/

/-- What RFC 1939 asks of a run, for the messages `E` by their numbers. -/
structure Rfc1939 (cfg : Config) (start : State) (E : Nat → Message) (events : List Event) :
    Prop where
  messages : ∀ pre post, events = pre ++ post → ∀ m msg,
    loadMessage (run cfg start pre).db.store m = some msg → msg = E m
  same : ∀ pre mid post, events = pre ++ mid ++ post →
    (run cfg start pre).session.authed = true →
      (run cfg start (pre ++ mid)).session.authed = true ∧
      (run cfg start (pre ++ mid)).session.user = (run cfg start pre).session.user ∧
      numbers (run cfg start (pre ++ mid)) = numbers (run cfg start pre)
  replies : ∀ pre e post, events = pre ++ e :: post →
    (run cfg start pre).session.authed = true →
      ∀ r ∈ (step cfg (run cfg start pre) e).2, Tells cfg E (run cfg start pre) r
  marks : ∀ pre post, events = pre ++ post → (run cfg start pre).session.ended = false →
    (run cfg start pre).session.authed = true → MarksAgree cfg start pre
  keeps : ∀ pre env line post, events = pre ++ .command env line :: post →
    (splitLine line).1 ≠ bytes "QUIT" ∨ (run cfg start pre).session.authed = false →
      (step cfg (run cfg start pre) (.command env line)).1.db.store =
        (run cfg start pre).db.store
  quit : ∀ pre env line post, events = pre ++ .command env line :: post →
    (splitLine line).1 = bytes "QUIT" → (run cfg start pre).session.ended = false →
    (run cfg start pre).session.authed = true → ∀ room m,
      messageInRoom (step cfg (run cfg start pre) (.command env line)).1.db.store room m = true ↔
        messageInRoom (run cfg start pre).db.store room m = true ∧
        ¬(cfg.mailRoom (run cfg start pre).session.user = some room ∧
          ∃ i, (numbers (run cfg start pre))[i]? = some m ∧ Marked cfg start pre i)

theorem step_keeps {env : Env} {line : Bytes}
    (h : (splitLine line).1 ≠ bytes "QUIT" ∨ st.session.authed = false) :
    (step cfg st (.command env line)).1.db.store = st.db.store := by
  rw [step]
  split
  · rfl
  · have houtcome := @handle_outcome cfg env line st
    generalize handle cfg env line st = result at houtcome
    cases houtcome with
    | quit hverb =>
      cases h with
      | inl hnot => exact absurd hverb hnot
      | inr hnot =>
        rw [quitCommand, hnot]
        rfl
    | named name reply hverb hnot => rfl
    | login reply hverb hpending hverify => rfl
    | transport tls ended reply hverb => rfl
    | mark e reply hverb hat he hkept => rfl
    | reset reply hverb hat => rfl
    | answered r hr hreset hquit hdele => rfl

theorem step_replies {bound : Nat} (h : Seen cfg E bound st) (hauthed : st.session.authed = true) :
    ∀ r ∈ (step cfg st e).2, Tells cfg E st r := by
  intro r hr
  cases e with
  | other o => cases hr
  | command env line =>
    rw [step] at hr
    split at hr
    · cases hr
    · have houtcome := @handle_outcome cfg env line st
      generalize handle cfg env line st = result at houtcome hr
      rw [List.mem_singleton.mp hr]
      cases houtcome with
      | quit hverb => trivial
      | named name reply hverb hnot => trivial
      | login reply hverb hpending hverify => trivial
      | transport tls ended reply hverb => trivial
      | mark e reply hverb hat he hkept => trivial
      | reset reply hverb hat => trivial
      | answered r hanswer hreset hquit hdele => exact tells_answer h hauthed hanswer

theorem step_quit {env : Env} {line : Bytes}
    (hverb : (splitLine line).1 = bytes "QUIT") (hopen : st.session.ended = false)
    (hauthed : st.session.authed = true) (room m : Nat) :
    messageInRoom (step cfg st (.command env line)).1.db.store room m = true ↔
      messageInRoom st.db.store room m = true ∧ ¬(cfg.mailRoom st.session.user = some room ∧
        ∃ e ∈ st.session.drop.msgs, e.deleted = true ∧ e.msgnum = m) := by
  have hstore : (step cfg st (.command env line)).1.db.store =
      (applyUpdate cfg env.world st.session.user st.session.drop st.db).store := by
    rw [step, if_neg (by simp [hopen]), handle]
    simp only [hverb]
    rw [if_neg (by decide), if_neg (by decide), if_pos trivial, quitCommand, if_pos hauthed]
  rw [hstore, messageInRoom_applyUpdate]

/-- A session whose logins are harmless is one of RFC 1939. -/
theorem session_rfc1939 (cfg : Config) (start : State) (tls : Bool)
    (hfresh : start.session = Session.fresh tls) (E : Nat → Message)
    (hok : Ok E start.db.store) (events : List Event)
    (hharmless : AllHarmless cfg start events) : ∃ E', Rfc1939 cfg start E' events := by
  have hstart : start.session.authed = false := by rw [hfresh]; rfl
  have hinv : Inv cfg E start := by
    refine ⟨hok, fun hat => ?_, fun hat => ?_⟩
    · rw [hstart] at hat
      cases hat
    · rw [hstart] at hat
      cases hat
  have hbefore : ∀ pre post, events = pre ++ post → AllHarmless cfg start pre := by
    intro pre post hevents front e back hpre
    exact hharmless front e (back ++ post) (by rw [hevents, hpre]; simp)
  obtain ⟨E', hlast, hseen⟩ := inv_run hinv hharmless
  refine ⟨E', ?_, ?_, ?_, ?_, ?_, ?_⟩
  · intro pre post hevents m msg hmsg
    exact ((hseen pre post hevents).messages m msg hmsg).1
  · intro pre mid post hevents hauthed
    induction mid using List.reverseRecOn generalizing post with
    | nil =>
      rw [List.append_nil]
      exact ⟨hauthed, rfl, rfl⟩
    | append_singleton mid e ih =>
      obtain ⟨hat, huser, hnumbers⟩ := ih (e :: post) (by rw [hevents]; simp)
      have hall := hbefore (pre ++ (mid ++ [e])) post hevents
      rw [← List.append_assoc] at hall ⊢
      obtain ⟨E₁, hmid, -⟩ := inv_run hinv hall.init
      obtain ⟨hat', huser', hnumbers'⟩ := authed_step hmid hall.last hat
      rw [run_concat]
      exact ⟨hat', huser'.trans huser, hnumbers'.trans hnumbers⟩
  · intro pre e post hevents hauthed
    exact step_replies (hseen pre (e :: post) hevents) hauthed
  · intro pre post hevents hopen hauthed
    exact marks_run hinv hstart (hbefore pre post hevents) hopen hauthed
  · intro pre env line post hevents hnot
    exact step_keeps hnot
  · intro pre env line post hevents hverb hopen hauthed room m
    rw [step_quit hverb hopen hauthed]
    refine and_congr_right fun _ => not_congr (and_congr_right fun _ => ?_)
    have hmarks := marks_run hinv hstart (hbefore pre _ hevents) hopen hauthed
    constructor
    · rintro ⟨e, he, hdeleted, hnum⟩
      obtain ⟨i, hi⟩ := List.mem_iff_getElem?.mp he
      refine ⟨i, ?_, (hmarks i e hi).mp hdeleted⟩
      rw [numbers, List.getElem?_map, hi, Option.map_some, hnum]
    · rintro ⟨i, hi, hmarked⟩
      rw [numbers, List.getElem?_map] at hi
      obtain ⟨e, he, hnum⟩ := Option.map_eq_some_iff.mp hi
      exact ⟨e, List.mem_of_getElem? he, (hmarks i e he).mpr hmarked, hnum⟩

/-- Two messages in the mail room of a user. -/
def twoMessages : Store where
  messages := [⟨{ Message.blank with msgnum := 1, formatType := 4, raw := bytes "A: b\r\n" }, 6⟩,
    ⟨{ Message.blank with msgnum := 2, formatType := 4, raw := bytes "A: c\r\n" }, 6⟩]
  roomMsgs := [⟨100, 1⟩, ⟨100, 2⟩]
  tombstones := []
  rooms := [⟨100, 0, 0, 0, 1, 2⟩]
  seq := 3
  config := []
  users := []
  credentials := []
  quotas := []

theorem twoMessages_ok :
    Ok (fun n => (loadMessage twoMessages n).getD Message.blank) twoMessages := by
  refine ⟨by decide, by decide, by decide, ?_, by decide, by decide, by decide⟩
  intro r hr
  simp only [twoMessages, List.mem_cons, List.not_mem_nil, or_false] at hr
  rcases hr with rfl | rfl
  · rfl
  · rfl

def oneRoom : Config :=
  { node := bytes "n", version := bytes "v", startTlsEnabled := true
    renderNative := fun _ _ => [], mailRoom := fun _ => some 100 }

def anyPassword : Env :=
  { userNum := fun _ => 1, verify := fun _ _ => true, handshake := true
    world := ⟨0, [], [], fun _ => none, fun _ _ => []⟩ }

/-- A connection to that mailbox. -/
def connected (s : Store) : State := ⟨⟨s, fun _ _ => 0⟩, Session.fresh false⟩

/-- One message is deleted at the end. -/
def oneDeleted : List Event :=
  [.command anyPassword (bytes "USER u"), .command anyPassword (bytes "PASS p"),
   .command anyPassword (bytes "DELE 1"), .command anyPassword (bytes "QUIT")]

theorem session_rfc1939_oneDeleted : ∃ E, Rfc1939 oneRoom (connected twoMessages) E oneDeleted := by
  refine session_rfc1939 oneRoom (connected twoMessages) false rfl _ twoMessages_ok oneDeleted ?_
  intro pre e post hsplit
  -- only the second command is a `PASS`
  match pre, hsplit with
  | [], h =>
    cases h
    exact fun _ hverb => absurd hverb (by decide +kernel)
  | [_], h =>
    cases h
    refine fun _ _ _ _ => ⟨fun hauthed => absurd hauthed (by decide +kernel), ?_⟩
    intro _ m hm msg hmsg
    have hmem : m ∈ [1, 2] := by
      have hall : mailMessages oneRoom (run oneRoom (connected twoMessages)
          [.command anyPassword (bytes "USER u")]).db.store (bytes "u") = [1, 2] := by
        decide +kernel
      exact hm
    have hload : loadMessage twoMessages m = some msg := hmsg
    simp only [List.mem_cons, List.not_mem_nil, or_false] at hmem
    rcases hmem with rfl | rfl
    · rw [← Option.some.inj hload]
      exact ⟨[bytes "A: b"], by decide +kernel, by decide +kernel⟩
    · rw [← Option.some.inj hload]
      exact ⟨[bytes "A: c"], by decide +kernel, by decide +kernel⟩
  | [_, _], h =>
    cases h
    exact fun _ hverb => absurd hverb (by decide +kernel)
  | [_, _, _], h =>
    cases h
    exact fun _ hverb => absurd hverb (by decide +kernel)
  | _ :: _ :: _ :: _ :: _, h => simp [oneDeleted] at h

/-- Another session deletes a message, and the password is given again. -/
def passTwice : List Event :=
  [.command anyPassword (bytes "USER u"), .command anyPassword (bytes "PASS p"),
   .other (.delete anyPassword.world 100 1), .command anyPassword (bytes "PASS p")]

/-- The numbers of the session change. -/
theorem second_pass_renumbers : ¬∃ E, Rfc1939 oneRoom (connected twoMessages) E passTwice := by
  rintro ⟨E, h⟩
  obtain ⟨-, -, hsame⟩ := h.same (passTwice.take 2) (passTwice.drop 2) [] rfl (by decide +kernel)
  revert hsame
  decide +kernel

end QuackMail.Pop3
