import QuackMail.Fetch.RunFeed

/-! # What the loops of a run post

Each of the three loops posts some of the messages it is offered, each once, and none that the
table has; and it marks what it posts.
-/

namespace QuackMail.Fetch

/-! ## The table -/

variable {st : State} {uid : Bytes}

theorem seen_iff : seen uid st = true ↔ ∃ row ∈ st.seen, row.uid = uid := by
  simp [seen]

theorem seen_markSeen (now : Nat) (uid key : Bytes) (st : State) :
    seen key (markSeen now uid st) = true ↔ seen key st = true ∨ key = uid := by
  unfold markSeen
  split
  case isTrue hseen =>
    constructor
    · exact Or.inl
    · intro h
      cases h with
      | inl hkey => exact hkey
      | inr heq => exact heq ▸ hseen
  case isFalse _ =>
    simp only [seen_iff, List.mem_append, List.mem_singleton]
    constructor
    · rintro ⟨row, hold | hnew, hrow⟩
      · exact Or.inl ⟨row, hold, hrow⟩
      · exact Or.inr (by rw [← hrow, hnew])
    · rintro (⟨row, hold, hrow⟩ | heq)
      · exact ⟨row, Or.inl hold, hrow⟩
      · exact ⟨⟨uid, now⟩, Or.inr rfl, heq.symm⟩

theorem seen_of_pruneSeen {key : Bytes} (h : seen key (pruneSeen st) = true) :
    seen key st = true := by
  obtain ⟨row, hrow, hkey⟩ := seen_iff.mp h
  exact seen_iff.mpr ⟨row, (List.mem_filter.mp hrow).1, hkey⟩

/-- What was seen is kept, or among the pruned rows. -/
theorem pruneSeen_keeps {key : Bytes} (h : seen key st = true) :
    seen key (pruneSeen st) = true ∨ key ∈ (pruneSeen st).pruned := by
  obtain ⟨row, hrow, hkey⟩ := seen_iff.mp h
  by_cases hkept : row ∈ latest st.seen
  · exact Or.inl (seen_iff.mpr ⟨row, List.mem_filter.mpr ⟨hrow, by simp [hkept]⟩, hkey⟩)
  · refine Or.inr (List.mem_append_right _ (List.mem_map.mpr ⟨row, ?_, hkey⟩))
    exact List.mem_filter.mpr ⟨hrow, by simp [hkept]⟩

theorem pruned_pruneSeen {key : Bytes} (h : key ∈ st.pruned) : key ∈ (pruneSeen st).pruned :=
  List.mem_append_left _ h

/-! ## Posts -/

/-- From `st` to `st'` the keys were posted and marked, none of them seen before. -/
structure Posts (st st' : State) (keys : List Bytes) : Prop where
  posted : st'.posted = st.posted ++ keys
  marked : ∀ key, seen key st' = true ↔ seen key st = true ∨ key ∈ keys
  fresh : ∀ key ∈ keys, seen key st = false
  distinct : keys.Nodup
  pruned : st'.pruned = st.pruned

theorem Posts.refl (st : State) : Posts st st [] :=
  ⟨by simp, by simp, by simp, List.nodup_nil, rfl⟩

theorem Posts.trans {a b c : State} {xs ys : List Bytes} (h : Posts a b xs) (h' : Posts b c ys) :
    Posts a c (xs ++ ys) where
  posted := by rw [h'.posted, h.posted, List.append_assoc]
  marked := by
    intro key
    rw [h'.marked, h.marked, List.mem_append, or_assoc]
  fresh := by
    intro key hkey
    cases List.mem_append.mp hkey with
    | inl hx => exact h.fresh key hx
    | inr hy =>
      have hnot := h'.fresh key hy
      by_contra hseen
      rw [Bool.not_eq_false] at hseen
      rw [(h.marked key).mpr (Or.inl hseen)] at hnot
      cases hnot
  distinct := by
    refine List.nodup_append.mpr ⟨h.distinct, h'.distinct, ?_⟩
    rintro x hx y hy rfl
    have hnot := h'.fresh x hy
    rw [(h.marked x).mpr (Or.inr hx)] at hnot
    cases hnot
  pruned := by rw [h'.pruned, h.pruned]

/-- A message that is stored and marked. -/
theorem posts_single {now : Nat} (h : seen uid st = false) :
    Posts st (markSeen now uid { st with posted := st.posted ++ [uid] }) [uid] where
  posted := by
    unfold markSeen
    split <;> rfl
  marked := by
    intro key
    rw [seen_markSeen, List.mem_singleton]
    exact Iff.rfl
  fresh := by
    intro key hkey
    rw [List.mem_singleton.mp hkey]
    exact h
  distinct := List.nodup_singleton uid
  pruned := by
    unfold markSeen
    split <;> rfl

theorem not_seen_of_want {s : State × RunResult} (h : ¬want s uid = false) :
    seen uid s.1 = false := by
  simpa [want] using h

/-- The callback posts the message, or leaves the state. -/
theorem onMessage_cases {conn : Conn} {s : State × RunResult} {m : Fetched}
    (h : seen m.uid s.1 = false) :
    ((onMessage conn s m).2 = true ∧ conn.storeFails m.uid = none ∧
      Posts s.1 (onMessage conn s m).1.1 [m.uid]) ∨
    ((onMessage conn s m).2 = false ∧ conn.storeFails m.uid ≠ none ∧
      (onMessage conn s m).1.1 = s.1) := by
  cases hstore : conn.storeFails m.uid with
  | none =>
    have hout : onMessage conn s m =
        ((markSeen conn.now m.uid { s.1 with posted := s.1.posted ++ [m.uid] },
          { s.2 with stored := s.2.stored + 1 }), true) := by
      simp only [onMessage, store, hstore]
    rw [hout]
    exact Or.inl ⟨rfl, rfl, posts_single h⟩
  | some err =>
    have hout : onMessage conn s m = ((s.1, { s.2 with error := err }), false) := by
      simp only [onMessage, store, hstore]
    rw [hout]
    exact Or.inr ⟨rfl, by simp, rfl⟩

/-- The POP3 loop posts messages of the mailbox. -/
theorem pop3_posts (maxMessages maxBytes : Nat) (conn : Conn)
    (messages : List (Nat × Bytes)) (s : State × RunResult) (res : Result) :
    ∃ keys, Posts s.1 (fetchPop3Loop maxMessages maxBytes want (onMessage conn) conn.retr messages
      s res).1.1 keys ∧ ∀ key ∈ keys, ∃ number, (number, key) ∈ messages := by
  induction messages generalizing s res with
  | nil => exact ⟨[], Posts.refl _, by simp⟩
  | cons message messages ih =>
    obtain ⟨number, uid⟩ := message
    have hlater : ∀ s' res', (∃ keys, Posts s.1 s'.1 keys ∧ ∀ key ∈ keys, key = uid) →
        ∃ keys, Posts s.1 (fetchPop3Loop maxMessages maxBytes want (onMessage conn) conn.retr
          messages s' res').1.1 keys ∧
          ∀ key ∈ keys, ∃ number', (number', key) ∈ (number, uid) :: messages := by
      rintro s' res' ⟨now, hnow, huid⟩
      obtain ⟨keys, hposts, hfrom⟩ := ih s' res'
      refine ⟨now ++ keys, hnow.trans hposts, ?_⟩
      intro key hkey
      cases List.mem_append.mp hkey with
      | inl hhead => exact ⟨number, huid key hhead ▸ List.mem_cons_self⟩
      | inr htail =>
        obtain ⟨number', hmem⟩ := hfrom key htail
        exact ⟨number', List.mem_cons_of_mem _ hmem⟩
    have hsame : ∃ keys, Posts s.1 s.1 keys ∧ ∀ key ∈ keys, key = uid :=
      ⟨[], Posts.refl _, by simp⟩
    rw [fetchPop3Loop]
    split
    · exact ⟨[], Posts.refl _, by simp⟩
    · split
      · exact hlater s res hsame
      · next hwant =>
        split
        · exact hlater s res hsame
        · next body _ =>
          have hfresh := not_seen_of_want hwant
          rcases @onMessage_cases conn s ⟨uid, Net.joinLines body⟩ hfresh with
            ⟨htaken, -, hposts⟩ | ⟨htaken, -, hstate⟩
          · split
            · next hout => simp [hout] at htaken
            · next s' hout =>
              rw [hout] at hposts
              exact hlater s' _ ⟨[uid], hposts, by simp⟩
          · split
            · next s' hout =>
              rw [hout] at hstate
              exact hlater s' _ ⟨[], hstate ▸ Posts.refl _, by simp⟩
            · next hout => simp [hout] at htaken

/-- The loop over the items of a document posts items of it. -/
theorem rss_posts (feed : Feed) (conn : Conn) (items : List Entry) (st : State) (res : RunResult) :
    ∃ keys, Posts st (rssLoop feed conn items st res).1 keys ∧
      ∀ key ∈ keys, ∃ e ∈ items, e.guid = key := by
  induction items generalizing st res with
  | nil => exact ⟨[], Posts.refl _, by simp⟩
  | cons item items ih =>
    rw [rssLoop]
    split
    · exact ⟨[], Posts.refl _, by simp⟩
    · rw [if_neg item.guid_ne]
      split
      · obtain ⟨keys, hposts, hfrom⟩ := ih st { res with skipped := res.skipped + 1 }
        refine ⟨keys, hposts, fun key hkey => ?_⟩
        obtain ⟨e, he, hguid⟩ := hfrom key hkey
        exact ⟨e, List.mem_cons_of_mem _ he, hguid⟩
      · next hseen =>
        have hfresh : seen item.guid st = false := by simpa using hseen
        cases hstore : conn.storeFails item.guid with
        | some err =>
          simp only [store, hstore]
          exact ⟨[], Posts.refl _, by simp⟩
        | none =>
          simp only [store, hstore]
          obtain ⟨keys, hposts, hfrom⟩ := ih
            (markSeen conn.now item.guid { st with posted := st.posted ++ [item.guid] })
            { res with fetched := res.fetched + 1, stored := res.stored + 1 }
          refine ⟨[item.guid] ++ keys, (posts_single hfresh).trans hposts, ?_⟩
          intro key hkey
          cases List.mem_append.mp hkey with
          | inl hhead => exact ⟨item, List.mem_cons_self, (List.mem_singleton.mp hhead).symm⟩
          | inr htail =>
            obtain ⟨e, he, hguid⟩ := hfrom key htail
            exact ⟨e, List.mem_cons_of_mem _ he, hguid⟩

end QuackMail.Fetch
