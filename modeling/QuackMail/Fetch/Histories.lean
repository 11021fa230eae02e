import QuackMail.Fetch.Once

/-! # Steady histories

The invariant of a feed over a history, by the kind of its source, and that a change of the source
and a steady run keep it.
-/

namespace QuackMail.Fetch

/-! ## The invariant -/

/-- Of an IMAP mailbox: what was posted has a name in some mailbox of the past; of the present one
    it is under the recorded uid, which is the uid of some message; and what is under the recorded
    uid was posted or is too long. -/
structure KeptImap (feed : Feed) (st : State) (past : List Source) (box : Mailbox) : Prop where
  kind : ∀ source ∈ past, ∃ old, source = .imap old
  named : ∀ key ∈ st.posted, ∃ old, .imap old ∈ past ∧
    ∃ m ∈ old.messages, key = imapKey old.uidvalidity m.1
  under : ∀ m ∈ box.messages, imapKey box.uidvalidity m.1 ∈ st.posted →
    box.uidvalidity = st.uidvalidity ∧ m.1 ≤ st.lastUid
  fresh : st.uidvalidity = 0 → st.lastUid = 0
  reached : st.lastUid = 0 ∨ ∃ old, .imap old ∈ past ∧ old.uidvalidity = st.uidvalidity ∧
    ∃ m ∈ old.messages, m.1 = st.lastUid
  complete : box.uidvalidity = st.uidvalidity → ∀ m ∈ box.messages, m.1 ≤ st.lastUid →
    imapKey box.uidvalidity m.1 ∈ st.posted ∨ TooLong feed m.2

/-- Of a document: the validators tell the documents of the past apart, and the items of the one
    whose validators are recorded were posted. -/
structure KeptRss (st : State) (past : List Source) : Prop where
  kind : ∀ source ∈ past, ∃ old, source = .rss old
  versions : ∀ doc doc', .rss doc ∈ past → .rss doc' ∈ past → doc.etag = doc'.etag →
    doc.lastModified = doc'.lastModified → (doc.etag ≠ [] ∨ doc.lastModified ≠ []) →
    doc.items = doc'.items
  recorded : (st.etag ≠ [] ∨ st.lastModified ≠ []) →
    ∃ doc, .rss doc ∈ past ∧ doc.etag = st.etag ∧ doc.lastModified = st.lastModified
  complete : ∀ doc, .rss doc ∈ past → doc.etag = st.etag → doc.lastModified = st.lastModified →
    (doc.etag ≠ [] ∨ doc.lastModified ≠ []) → ∀ items, doc.items = some items →
    ∀ e ∈ items, e.guid ∈ st.posted

def KeptSource (feed : Feed) (st : State) (past : List Source) : Source → Prop
  | .pop3 _ => ∀ source ∈ past, ∃ old, source = .pop3 old
  | .imap box => KeptImap feed st past box
  | .rss _ => KeptRss st past

structure Kept (feed : Feed) (sys : System) : Prop where
  table : Table sys.state
  here : sys.source ∈ sys.past
  source : KeptSource feed sys.state sys.past sys.source

theorem kept_start (feed : Feed) (source : Source) : Kept feed (.start source) where
  table := Table.new
  here := List.mem_singleton_self source
  source := by
    cases source with
    | pop3 drop =>
      intro s hs
      exact ⟨drop, List.mem_singleton.mp hs⟩
    | imap box =>
      refine ⟨fun s hs => ⟨box, List.mem_singleton.mp hs⟩, by simp [System.start, State.new],
        by simp [System.start, State.new], fun _ => rfl, Or.inl rfl, ?_⟩
      intro _ m hm hle
      have hpos := box.uids_pos m hm
      simp only [System.start, State.new] at hle
      omega
    | rss doc =>
      refine ⟨fun s hs => ⟨doc, List.mem_singleton.mp hs⟩, ?_, by simp [System.start, State.new],
        ?_⟩
      · intro a b ha hb _ _ _
        simp only [System.start, List.mem_singleton, Source.rss.injEq] at ha hb
        rw [ha, hb]
      · intro a _ hetag hmodified hsome
        simp only [System.start, State.new] at hetag hmodified
        exact absurd hsome (by simp [hetag, hmodified])

/-! ## Changes -/

variable {box : Mailbox} {feed : Feed} {past : List Source} {st : State} {doc : Document}
   {sys : System} {conn : Conn}

theorem KeptImap.change {box' : Mailbox}
    (h : KeptImap feed st past box) (hfollows : Follows past (.imap box) (.imap box')) :
    KeptImap feed st (past ++ [.imap box']) box' where
  kind := by
    intro source hsource
    cases List.mem_append.mp hsource with
    | inl hold => exact h.kind source hold
    | inr hnew => exact ⟨box', List.mem_singleton.mp hnew⟩
  named := by
    intro key hkey
    obtain ⟨old, hold, hm⟩ := h.named key hkey
    exact ⟨old, List.mem_append_left _ hold, hm⟩
  under := by
    intro m hm hposted
    cases hfollows m hm with
    | inl hstays =>
      obtain ⟨hvalidity, hmem⟩ := hstays
      rw [← hvalidity] at hposted ⊢
      exact h.under m hmem hposted
    | inr hnew =>
      -- a new uid is larger than all that were posted
      obtain ⟨old, hold, m', hm', hkey⟩ := h.named _ hposted
      obtain ⟨hvalidity, huid⟩ := imapKey_injective hkey
      have hlt := hnew old hold hvalidity.symm m' hm'
      omega
  fresh := h.fresh
  reached := by
    cases h.reached with
    | inl hzero => exact Or.inl hzero
    | inr hsome =>
      obtain ⟨old, hold, hrest⟩ := hsome
      exact Or.inr ⟨old, List.mem_append_left _ hold, hrest⟩
  complete := by
    intro hvalidity m hm hle
    cases hfollows m hm with
    | inl hstays =>
      obtain ⟨hsame, hmem⟩ := hstays
      rw [← hsame] at hvalidity ⊢
      exact h.complete hvalidity m hmem hle
    | inr hnew =>
      -- a new uid is larger than the recorded one
      cases h.reached with
      | inl hzero =>
        have hpos := box'.uids_pos m hm
        omega
      | inr hsome =>
        obtain ⟨old, hold, hcurrent, m', hm', huid⟩ := hsome
        have hlt := hnew old hold (hcurrent.trans hvalidity.symm) m' hm'
        omega

/-- The server takes the validators of the document for current. -/
theorem current_of_same {etag lastModified : Bytes} (hetag : etag = doc.etag)
    (hmodified : lastModified = doc.lastModified) (hsome : etag ≠ [] ∨ lastModified ≠ []) :
    doc.current etag lastModified = true := by
  unfold Document.current
  by_cases hnone : etag = []
  · have hdate : lastModified ≠ [] := hsome.resolve_left (not_not.mpr hnone)
    rw [if_neg (not_not.mpr hnone), if_pos hdate, decide_eq_true hmodified]
  · rw [if_pos hnone, decide_eq_true hetag]

theorem KeptRss.change {doc' : Document}
    (h : KeptRss st past) (hfollows : Follows past (.rss doc) (.rss doc')) :
    KeptRss st (past ++ [.rss doc']) := by
  have hversions : ∀ a b, Source.rss a ∈ past ++ [.rss doc'] → Source.rss b ∈ past ++ [.rss doc'] →
      a.etag = b.etag → a.lastModified = b.lastModified → (a.etag ≠ [] ∨ a.lastModified ≠ []) →
      a.items = b.items := by
    intro a b ha hb hetag hmodified hsome
    simp only [List.mem_append, List.mem_singleton, Source.rss.injEq] at ha hb
    cases ha with
    | inl haold =>
      cases hb with
      | inl hbold => exact h.versions a b haold hbold hetag hmodified hsome
      | inr hbnew =>
        subst hbnew
        exact hfollows a haold (current_of_same hetag hmodified hsome)
    | inr hanew =>
      subst hanew
      cases hb with
      | inl hbold =>
        rw [hetag, hmodified] at hsome
        exact (hfollows b hbold (current_of_same hetag.symm hmodified.symm hsome)).symm
      | inr hbnew => rw [hbnew]
  refine ⟨?_, hversions, ?_, ?_⟩
  · intro source hsource
    cases List.mem_append.mp hsource with
    | inl hold => exact h.kind source hold
    | inr hnew => exact ⟨doc', List.mem_singleton.mp hnew⟩
  · intro hsome
    obtain ⟨old, hold, hvalidators⟩ := h.recorded hsome
    exact ⟨old, List.mem_append_left _ hold, hvalidators⟩
  · intro a ha hetag hmodified hsome items hitems
    -- the recorded validators are those of some document before, which has the same items
    obtain ⟨old, hold, hetag', hmodified'⟩ := h.recorded (by rw [← hetag, ← hmodified]; exact hsome)
    have hsame := hversions a old ha (List.mem_append_left _ hold) (hetag.trans hetag'.symm)
      (hmodified.trans hmodified'.symm) hsome
    rw [hetag, hmodified, ← hetag', ← hmodified'] at hsome
    exact h.complete old hold hetag' hmodified' hsome items (hsame ▸ hitems)

theorem Kept.change (h : Kept feed sys) {source : Source}
    (hfollows : Follows sys.past sys.source source) :
    Kept feed (step feed sys (.change source)) where
  table := h.table
  here := List.mem_append_right _ (List.mem_singleton_self source)
  source := by
    have hkind := h.source
    cases hold : sys.source with
    | pop3 drop =>
      rw [hold] at hkind hfollows
      cases source with
      | pop3 drop' =>
        intro s hs
        cases List.mem_append.mp hs with
        | inl hpast => exact hkind s hpast
        | inr hnew => exact ⟨drop', List.mem_singleton.mp hnew⟩
      | imap box => exact hfollows.elim
      | rss doc => exact hfollows.elim
    | imap box =>
      rw [hold] at hkind hfollows
      cases source with
      | pop3 drop => exact hfollows.elim
      | imap box' => exact KeptImap.change hkind hfollows
      | rss doc => exact hfollows.elim
    | rss doc =>
      rw [hold] at hkind hfollows
      cases source with
      | pop3 drop => exact hfollows.elim
      | imap box => exact hfollows.elim
      | rss doc' => exact KeptRss.change hkind hfollows

/-! ## Runs -/

theorem bytesOf_mem {m : Nat × Bytes} (hm : m ∈ box.messages) : box.bytesOf m.1 = m.2 := by
  unfold Mailbox.bytesOf
  cases hfind : box.messages.find? fun m' => decide (m'.1 = m.1) with
  | none =>
    have hnone := List.find?_eq_none.mp hfind m hm
    simp at hnone
  | some found =>
    have huid := List.find?_some hfind
    have hmem := List.mem_of_find?_eq_some hfind
    have heq : found = m :=
      List.inj_on_of_nodup_map box.distinct hmem hm (by simpa using huid)
    simp [heq]

/-- The table after a run over a mailbox, from the table after the loop. -/
theorem table_finish {r : Result} {uidvalidity lastUid : Nat} {s : State × RunResult}
    (h : Table s.1) : Table (finishMailbox r uidvalidity lastUid s).1 := by
  exact (h.recorded _ _ _ _ _).prune

theorem pop3_table {drop : Maildrop} (h : Table st)
    (hsteady : Steady feed conn st (.pop3 drop)) : Table (runPop3 feed conn drop st).1 := by
  unfold runPop3
  cases hrefusal : conn.refusal with
  | some err => exact h.recorded _ _ _ _ _
  | none =>
    obtain ⟨keys, hposts, hfrom⟩ := pop3_posts feed.maxPerRun feed.maxBytes conn
      (drop.uids.zipIdx.map fun m => (m.2 + 1, m.1)) (st, RunResult.new)
      ⟨(drop.uids.zipIdx.map fun m => (m.2 + 1, m.1)).length, 0, 0, 0, []⟩
    refine table_finish (h.posts hposts ?_)
    intro key hkey
    obtain ⟨number, hmem⟩ := hfrom key hkey
    obtain ⟨m, hm, hpair⟩ := List.mem_map.mp hmem
    have huid : key ∈ drop.uids := by
      have hfst : m.1 = key := congrArg Prod.snd hpair
      rw [← hfst]
      exact List.fst_mem_of_mem_zipIdx hm
    exact h.not_posted (hposts.fresh key hkey) (hsteady hrefusal key huid)

theorem resumeUid_same (uidvalidity sinceUid : Nat) :
    resumeUid uidvalidity sinceUid uidvalidity = sinceUid := by
  simp [resumeUid]

/-- A mailbox of another validity is read from its beginning. -/
theorem resumeUid_other
    (h : KeptImap feed st past box) (hother : box.uidvalidity ≠ st.uidvalidity) :
    resumeUid st.uidvalidity st.lastUid box.uidvalidity = 0 := by
  by_cases hzero : st.uidvalidity = 0
  · simp [resumeUid, h.fresh hzero]
  · have hpos : box.uidvalidity ≠ 0 := Nat.ne_of_gt box.validity_pos
    simp [resumeUid, hzero, hpos, hother]

theorem imap_kept (htable : Table st) (h : KeptImap feed st past box) (hhere : .imap box ∈ past)
    (hsteady : Steady feed conn st (.imap box)) :
    Table (runImap feed conn box st).1 ∧ KeptImap feed (runImap feed conn box st).1 past box := by
  unfold runImap
  cases hrefusal : conn.refusal with
  | some err =>
    exact ⟨htable.recorded _ _ _ _ _, h.kind, h.named, h.under, h.fresh, h.reached, h.complete⟩
  | none =>
    simp only [fetchImap]
    generalize hfrom : resumeUid st.uidvalidity st.lastUid box.uidvalidity = fromUid
    have hsame : box.uidvalidity = st.uidvalidity → fromUid = st.lastUid := by
      intro hvalidity
      rw [← hfrom, hvalidity, resumeUid_same]
    have hother : box.uidvalidity ≠ st.uidvalidity → fromUid = 0 :=
      fun hvalidity => hfrom ▸ resumeUid_other h hvalidity
    have hrunSteady := hsteady hrefusal
    rw [hfrom] at hrunSteady
    generalize hinfo : (if st.uidvalidity ≠ 0 ∧ box.uidvalidity ≠ 0 ∧
        box.uidvalidity ≠ st.uidvalidity then
      bytes "UIDVALIDITY changed; starting from the beginning of the mailbox" else []) = info
    obtain ⟨out, res', hrun, hvalidity, hloop⟩ := @imap_run feed conn box st _
      (newUids_ascending box.distinct fromUid) (st, RunResult.new)
      ⟨(newUids fromUid (box.messages.map Prod.fst)).length, 0, box.uidvalidity, fromUid, info⟩
      (fun uid huid => (mem_newUids.mp huid).2) rfl (fun _ _ => rfl)
    rw [hrun]
    obtain ⟨keys, hposts, hkeys⟩ := hloop.posts
    have hlow := hloop.low_le
    dsimp only at hlow hposts
    -- what is posted now was not posted before
    have hnew : ∀ key ∈ keys, key ∉ st.posted := by
      intro key hkey hold
      obtain ⟨uid, huid, hname, -⟩ := hkeys key hkey
      obtain ⟨hmem, hlt⟩ := mem_newUids.mp huid
      obtain ⟨m, hm, hmuid⟩ := List.mem_map.mp hmem
      rw [hname, ← hmuid] at hold
      obtain ⟨hvalid, hle⟩ := h.under m hm hold
      omega
    have hout := htable.posts hposts hnew
    refine ⟨table_finish hout, ?_⟩
    have hposted : (finishMailbox res' res'.uidvalidity res'.highestUid out).1.posted =
        st.posted ++ keys := hposts.posted
    have hstate : (finishMailbox res' res'.uidvalidity res'.highestUid out).1.uidvalidity =
        box.uidvalidity := hvalidity
    have hlast : (finishMailbox res' res'.uidvalidity res'.highestUid out).1.lastUid =
        res'.highestUid := rfl
    refine ⟨h.kind, ?_, ?_, ?_, ?_, ?_⟩
    · -- named
      intro key hkey
      rw [hposted] at hkey
      cases List.mem_append.mp hkey with
      | inl hold => exact h.named key hold
      | inr hmem =>
        obtain ⟨uid, huid, hname, -⟩ := hkeys key hmem
        obtain ⟨m, hm, hmuid⟩ := List.mem_map.mp (mem_newUids.mp huid).1
        exact ⟨box, hhere, m, hm, by rw [hname, hmuid]⟩
    · -- under
      intro m hm hmem
      rw [hposted] at hmem
      rw [hstate, hlast]
      refine ⟨rfl, ?_⟩
      cases List.mem_append.mp hmem with
      | inl hold =>
        obtain ⟨hvalid, hle⟩ := h.under m hm hold
        omega
      | inr hkey =>
        obtain ⟨uid, -, hname, hle⟩ := hkeys _ hkey
        rw [(imapKey_injective hname).2]
        exact hle
    · -- fresh
      intro hzero
      rw [hstate] at hzero
      exact absurd hzero (Nat.ne_of_gt box.validity_pos)
    · -- reached
      rw [hstate, hlast]
      cases hloop.high_mem with
      | inl hstays =>
        by_cases hvalid : box.uidvalidity = st.uidvalidity
        · rw [hstays, hsame hvalid, hvalid]
          exact h.reached
        · exact Or.inl (hstays.trans (hother hvalid))
      | inr hmem =>
        obtain ⟨m, hm, hmuid⟩ := List.mem_map.mp (mem_newUids.mp hmem).1
        exact Or.inr ⟨box, hhere, rfl, m, hm, hmuid⟩
    · -- complete
      intro _ m hm hle
      rw [hposted]
      by_cases habove : fromUid < m.1
      · have huid : m.1 ∈ newUids fromUid (box.messages.map Prod.fst) :=
          mem_newUids.mpr ⟨List.mem_map_of_mem hm, habove⟩
        cases hloop.complete hrunSteady m.1 huid hle with
        | inl hseen => exact Or.inl (hposts.posted ▸ hout.seen_posted _ hseen)
        | inr hlong => exact Or.inr (bytesOf_mem hm ▸ hlong)
      · by_cases hvalid : box.uidvalidity = st.uidvalidity
        · have hbelow : m.1 ≤ st.lastUid := by
            omega
          exact (h.complete hvalid m hm hbelow).imp (List.mem_append_left _) id
        · have hpos := box.uids_pos m hm
          omega

/-- The validators of the document are recorded, and its items were posted where they tell it from
    others. -/
theorem KeptRss.record {st' : State} (h : KeptRss st past)
    (hhere : .rss doc ∈ past) (hetag : st'.etag = doc.etag)
    (hmodified : st'.lastModified = doc.lastModified)
    (hposted : (doc.etag ≠ [] ∨ doc.lastModified ≠ []) → ∀ items, doc.items = some items →
      ∀ e ∈ items, e.guid ∈ st'.posted) : KeptRss st' past where
  kind := h.kind
  versions := h.versions
  recorded := fun _ => ⟨doc, hhere, hetag.symm, hmodified.symm⟩
  complete := by
    intro a ha haetag hamodified hsome items hitems
    rw [hetag] at haetag
    rw [hmodified] at hamodified
    have hsame := h.versions a doc ha hhere haetag hamodified hsome
    rw [haetag, hamodified] at hsome
    exact hposted hsome items (hsame ▸ hitems)

theorem rss_kept (htable : Table st) (h : KeptRss st past) (hhere : .rss doc ∈ past)
    (hsteady : Steady feed conn st (.rss doc)) :
    Table (runRss feed conn doc st).1 ∧ KeptRss (runRss feed conn doc st).1 past := by
  unfold runRss
  cases hrefusal : conn.refusal with
  | some err =>
    exact ⟨htable.recorded _ _ _ _ _, h.kind, h.versions, h.recorded, h.complete⟩
  | none =>
    cases hcurrent : doc.current st.etag st.lastModified with
    | true => exact ⟨htable.recorded _ _ _ _ _, h.kind, h.versions, h.recorded, h.complete⟩
    | false =>
      cases hitems : doc.items with
      | none =>
        refine ⟨htable.recorded _ _ _ _ _, h.record hhere rfl rfl ?_⟩
        intro _ items hsome
        rw [hitems] at hsome
        cases hsome
      | some items =>
        obtain ⟨hoffered, hstored⟩ := hsteady hrefusal hcurrent items hitems
        obtain ⟨keys, hposts, hkeys⟩ := rss_posts feed conn items.reverse st RunResult.new
        have hout := htable.posts hposts fun key hkey => by
          obtain ⟨e, he, hguid⟩ := hkeys key hkey
          exact htable.not_posted (hposts.fresh key hkey)
            (hguid ▸ hoffered e (List.mem_reverse.mp he))
        -- where the document has validators, the loop ends with its items posted
        have hall : (doc.etag ≠ [] ∨ doc.lastModified ≠ []) →
            ∀ e ∈ items, e.guid ∈ (rssLoop feed conn items.reverse st RunResult.new).1.posted := by
          intro hsome e he
          obtain ⟨hmany, hnone⟩ := hstored hsome
          have hsub : ∀ guid ∈ unseen st items.reverse, guid ∈ unseen st items := by
            intro guid hguid
            obtain ⟨⟨e', he', hname⟩, hnot⟩ := mem_unseen.mp hguid
            exact mem_unseen.mpr ⟨⟨e', List.mem_reverse.mp he', hname⟩, hnot⟩
          have hle := (List.subperm_of_subset (nodup_unseen st items.reverse) hsub).length_le
          have hdone := (@rss_complete feed conn items.reverse st RunResult.new
            (Nat.le_trans (by simpa [RunResult.new] using hle) hmany)
            fun guid hguid => hnone guid (hsub guid hguid)).2
          exact hout.seen_posted _ (hdone e (List.mem_reverse.mpr he))
        have hsame : ∀ items', doc.items = some items' → items' = items := by
          intro items' hitems'
          rw [hitems] at hitems'
          exact (Option.some.inj hitems').symm
        cases hloop : rssLoop feed conn items.reverse st RunResult.new with
        | mk st' rest =>
          obtain ⟨res, done⟩ := rest
          rw [hloop] at hout hall
          cases done with
          | false =>
            simp only [hloop]
            refine ⟨hout.recorded _ _ _ _ _, h.record hhere rfl rfl ?_⟩
            intro hsome items' hitems'
            rw [hsame items' hitems']
            exact hall hsome
          | true =>
            simp only [hloop]
            refine ⟨(hout.recorded _ _ _ _ _).prune, h.record hhere rfl rfl ?_⟩
            intro hsome items' hitems'
            rw [hsame items' hitems']
            exact hall hsome

theorem Kept.poll (h : Kept feed sys) (hsteady : Steady feed conn sys.state sys.source) :
    Kept feed (step feed sys (.poll conn)) := by
  have hhere := h.here
  have hkind := h.source
  suffices hrun : Table (runFeed feed conn sys.source sys.state).1 ∧
      KeptSource feed (runFeed feed conn sys.source sys.state).1 sys.past sys.source from
    ⟨hrun.1, hhere, hrun.2⟩
  cases hsource : sys.source with
  | pop3 drop =>
    rw [hsource] at hkind hsteady
    exact ⟨pop3_table h.table hsteady, hkind⟩
  | imap box =>
    rw [hsource] at hkind hsteady hhere
    exact imap_kept h.table hkind hhere hsteady
  | rss doc =>
    rw [hsource] at hkind hsteady hhere
    exact rss_kept h.table hkind hhere hsteady

theorem kept_run (h : Kept feed sys) {events : List Event}
    (hhistory : History feed sys events) (hsteady : SteadyRuns feed sys events) :
    Kept feed (events.foldl (step feed) sys) := by
  induction events generalizing sys with
  | nil => exact h
  | cons e events ih =>
    refine ih ?_ hhistory.2 hsteady.2
    cases e with
    | change source => exact h.change (hhistory.1 source rfl)
    | poll conn => exact h.poll (hsteady.1 conn rfl)

theorem Kept.promise (h : Kept feed sys) : Once feed sys where
  once := h.table.once
  imap := by
    intro box hbox hvalidity m hm hle
    have hkind := h.source
    rw [hbox] at hkind
    cases hkind.complete hvalidity m hm hle with
    | inl hposted => exact Or.inl hposted
    | inr hlong => exact Or.inr (Or.inr hlong)
  rss := by
    intro doc hdoc hetag hmodified hsome items hitems e he
    have hkind := h.source
    cases hsource : sys.source with
    | pop3 drop =>
      rw [hsource] at hkind
      obtain ⟨old, hold⟩ := hkind _ hdoc
      cases hold
    | imap box =>
      rw [hsource] at hkind
      obtain ⟨old, hold⟩ := hkind.kind _ hdoc
      cases hold
    | rss current =>
      rw [hsource] at hkind
      exact Or.inl (hkind.complete doc hdoc hetag hmodified hsome items hitems e he)

/-- In a history whose runs are steady, polling posts every item once. -/
theorem once_of_steady (feed : Feed) (source : Source) (events : List Event)
    (hhistory : History feed (.start source) events)
    (hsteady : SteadyRuns feed (.start source) events) : Once feed (run feed source events) :=
  (kept_run (kept_start feed source) hhistory hsteady).promise

/-- Two messages, of which nothing was fetched yet. -/
def twoMessages : Mailbox where
  uidvalidity := 1
  messages := [(1, bytes "a"), (2, bytes "b")]
  validity_pos := by decide
  uids_pos := by decide
  distinct := by decide

/-- A run in which every download succeeds, and `Store` as given. -/
def onePoll (storeFails : Bytes → Option Bytes) : Conn :=
  ⟨0, none, fun _ => none, fun _ => .body (bytes ")"), storeFails⟩

theorem once_twoMessages :
    SteadyRuns ⟨50, 1000⟩ (.start (.imap twoMessages)) [.poll (onePoll fun _ => none)] ∧
      Once ⟨50, 1000⟩ (run ⟨50, 1000⟩ (.imap twoMessages) [.poll (onePoll fun _ => none)]) := by
  have hsteady : SteadyRuns ⟨50, 1000⟩ (.start (.imap twoMessages))
      [.poll (onePoll fun _ => none)] := by
    refine ⟨?_, trivial⟩
    intro conn hconn _
    injection hconn with hconn
    subst hconn
    have huids : newUids (resumeUid State.new.uidvalidity State.new.lastUid
        twoMessages.uidvalidity) (twoMessages.messages.map Prod.fst) = [1, 2] := by decide
    have hfirst : turn ⟨50, 1000⟩ (onePoll fun _ => none) twoMessages .new 1 = .posted := by decide
    have hsecond : turn ⟨50, 1000⟩ (onePoll fun _ => none) twoMessages .new 2 = .posted := by
      decide
    simp only [System.start, huids, SteadyUids, hfirst, hsecond, or_true]
  refine ⟨hsteady, once_of_steady _ _ _ ⟨?_, trivial⟩ hsteady⟩
  intro source hchange
  cases hchange

/-- The first message is not stored, and the second moves the recorded uid past it. -/
theorem failed_message_skipped : ¬ ∀ feed source events, History feed (.start source) events →
      Once feed (run feed source events) := by
  intro h
  let conn := onePoll fun uid => if uid = bytes "1.1" then some (bytes "disk full") else none
  have honce := h ⟨50, 1000⟩ (.imap twoMessages) [.poll conn]
    ⟨fun source hchange => (by cases hchange), trivial⟩
  have hlost := honce.imap twoMessages rfl (by decide) (1, bytes "a") (by decide) (by decide)
  revert hlost
  simp only [TooLong]
  decide

end QuackMail.Fetch
