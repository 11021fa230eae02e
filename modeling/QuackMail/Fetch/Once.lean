import QuackMail.Fetch.Polls

/-! # Every item once

What a steady history keeps: the table and the pruned rows hold what was posted, the recorded uid
stands over what was posted of the mailbox and under what was not, and the items of the document
with the recorded validators were posted.
-/

namespace QuackMail.Fetch

/-! ## Keys -/

theorem imapKey_injective {v u v' u' : Nat} (h : imapKey v u = imapKey v' u') :
    v = v' ∧ u = u' := by
  have hdot : ∀ w : Nat, ch '.' ∉ num w := by
    intro w hmem
    have hdigit := isDigit_of_mem_num hmem
    revert hdigit
    decide
  have hfirst : ∀ w x : Nat, findChar (ch '.') (imapKey w x) = some (num w).length := by
    intro w x
    have hkey : imapKey w x = num w ++ ch '.' :: num x := by
      simp [imapKey, bytes]
    rw [hkey, findChar_append (hdot w)]
  have hlength : (num v).length = (num v').length := by
    have hsame := hfirst v u
    rw [h, hfirst v' u'] at hsame
    exact (Option.some.inj hsame).symm
  unfold imapKey at h
  rw [List.append_assoc, List.append_assoc] at h
  obtain ⟨hv, hrest⟩ := List.append_inj h hlength
  exact ⟨num_injective hv, num_injective (List.append_cancel_left hrest)⟩

theorem imapKey_ne {v u u' : Nat} (h : u ≠ u') : imapKey v u ≠ imapKey v u' :=
  fun hkey => h (imapKey_injective hkey).2

/-! ## The uids of a run -/

theorem mem_newUids {fromUid uid : Nat} {uids : List Nat} :
    uid ∈ newUids fromUid uids ↔ uid ∈ uids ∧ fromUid < uid := by
  simp only [newUids, List.mem_insertionSort, uidSearch, List.mem_filter, Bool.or_eq_true,
    decide_eq_true_eq]
  constructor
  · rintro ⟨⟨hmem, -⟩, hlt⟩
    exact ⟨hmem, hlt⟩
  · rintro ⟨hmem, hlt⟩
    exact ⟨⟨hmem, Or.inl hlt⟩, hlt⟩

theorem newUids_ascending {uids : List Nat} (h : uids.Nodup) (fromUid : Nat) :
    (newUids fromUid uids).Pairwise (· < ·) := by
  have hnodup : (newUids fromUid uids).Nodup :=
    (List.perm_insertionSort _ _).nodup_iff.mpr ((h.filter _).filter _)
  have hsorted : (newUids fromUid uids).Pairwise (· ≤ ·) := List.pairwise_insertionSort _ _
  exact (hsorted.and hnodup).imp fun hle => Nat.lt_of_le_of_ne hle.1 hle.2

/-- What the loop over the uids comes to, from `low` to `high`. -/
structure ImapRun (feed : Feed) (conn : Conn) (box : Mailbox) (st : State) (fetched : Nat)
    (uids : List Nat) (s out : State × RunResult) (low high : Nat) : Prop where
  posts : ∃ keys, Posts s.1 out.1 keys ∧
    ∀ key ∈ keys, ∃ uid ∈ uids, key = imapKey box.uidvalidity uid ∧ uid ≤ high
  low_le : low ≤ high
  high_mem : high = low ∨ high ∈ uids
  stuck : (∀ uid ∈ uids, turn feed conn box st uid = .failed) → high = low
  complete : SteadyUids feed conn box st fetched uids → ∀ uid ∈ uids, uid ≤ high →
    seen (imapKey box.uidvalidity uid) out.1 = true ∨ TooLong feed (box.bytesOf uid)

namespace ImapRun

variable {feed : Feed} {conn : Conn} {box : Mailbox} {st : State} {fetched fetched' : Nat}
  {uid : Nat} {uids : List Nat} {s s' out : State × RunResult} {low high : Nat}

/-- No uid is looked at. -/
theorem halt (hlow : ∀ uid ∈ uids, low < uid) :
    ImapRun feed conn box st fetched uids s s low low where
  posts := ⟨[], Posts.refl _, by simp⟩
  low_le := Nat.le_refl _
  high_mem := Or.inl rfl
  stuck := fun _ => rfl
  complete := by
    intro _ uid huid hle
    have hlt := hlow uid huid
    omega

/-- The head is done with: it was posted or seen, or is too long where the run is steady. -/
theorem advance (hlow : low < uid) (hturn : turn feed conn box st uid ≠ .failed)
    (hstart : ∃ keys, Posts s.1 s'.1 keys ∧ ∀ key ∈ keys, key = imapKey box.uidvalidity uid)
    (hsteady : SteadyUids feed conn box st fetched (uid :: uids) →
      SteadyUids feed conn box st fetched' uids ∧
        (seen (imapKey box.uidvalidity uid) s'.1 = true ∨ TooLong feed (box.bytesOf uid)))
    (h : ImapRun feed conn box st fetched' uids s' out (max low uid) high) :
    ImapRun feed conn box st fetched (uid :: uids) s out low high := by
  have hmax : max low uid = uid := Nat.max_eq_right (Nat.le_of_lt hlow)
  rw [hmax] at h
  have hhigh := h.low_le
  obtain ⟨later, hlater, hfrom⟩ := h.posts
  refine ⟨?_, by omega, ?_, ?_, ?_⟩
  · -- posts
    obtain ⟨now, hnow, hkey⟩ := hstart
    refine ⟨now ++ later, hnow.trans hlater, fun key hmem => ?_⟩
    cases List.mem_append.mp hmem with
    | inl hhead => exact ⟨uid, List.mem_cons_self, hkey key hhead, hhigh⟩
    | inr htail =>
      obtain ⟨u, hu, hsame, hle⟩ := hfrom key htail
      exact ⟨u, List.mem_cons_of_mem _ hu, hsame, hle⟩
  · -- high_mem
    cases h.high_mem with
    | inl heq => exact Or.inr (heq ▸ List.mem_cons_self)
    | inr hmem => exact Or.inr (List.mem_cons_of_mem _ hmem)
  · -- stuck
    intro hall
    exact absurd (hall uid List.mem_cons_self) hturn
  · -- complete
    intro hrun u hu hle
    obtain ⟨hrest, hdone⟩ := hsteady hrun
    cases List.mem_cons.mp hu with
    | inl heq =>
      rw [heq]
      cases hdone with
      | inl hseen => exact Or.inl ((hlater.marked _).mpr (Or.inl hseen))
      | inr hlong => exact Or.inr hlong
    | inr htail => exact h.complete hrest u htail hle

/-- The head fails; where the run is steady, all that follows fails. -/
theorem fail (hlow : ∀ u ∈ uid :: uids, low < u)
    (hsteady : SteadyUids feed conn box st fetched (uid :: uids) →
      ∀ later ∈ uids, turn feed conn box st later = .failed)
    (hstart : s'.1 = s.1) (h : ImapRun feed conn box st fetched uids s' out low high) :
    ImapRun feed conn box st fetched (uid :: uids) s out low high where
  posts := by
    obtain ⟨keys, hposts, hfrom⟩ := h.posts
    refine ⟨keys, hstart ▸ hposts, fun key hmem => ?_⟩
    obtain ⟨u, hu, hsame⟩ := hfrom key hmem
    exact ⟨u, List.mem_cons_of_mem _ hu, hsame⟩
  low_le := h.low_le
  high_mem := by
    cases h.high_mem with
    | inl heq => exact Or.inl heq
    | inr hmem => exact Or.inr (List.mem_cons_of_mem _ hmem)
  stuck := fun hall => h.stuck fun u hu => hall u (List.mem_cons_of_mem _ hu)
  complete := by
    intro hrun u hu hle
    have hhigh := h.stuck (hsteady hrun)
    have hlt := hlow u hu
    omega

end ImapRun

/-- The loop of `FetchImap` from a table that agrees with the one before the run. -/
theorem imap_run {feed : Feed} {conn : Conn} {box : Mailbox} {st : State} {uids : List Nat}
    (hascending : uids.Pairwise (· < ·)) {s : State × RunResult} {res : Result}
    (hlow : ∀ uid ∈ uids, res.highestUid < uid) (hvalidity : res.uidvalidity = box.uidvalidity)
    (hsame : ∀ uid ∈ uids, seen (imapKey box.uidvalidity uid) s.1 =
      seen (imapKey box.uidvalidity uid) st) :
    ∃ out res', fetchImapLoop feed.maxPerRun feed.maxBytes want (onMessage conn)
        (rawOf box conn.fetch) uids s res = (out, res') ∧
      res'.uidvalidity = box.uidvalidity ∧
      ImapRun feed conn box st res.fetched uids s out res.highestUid res'.highestUid := by
  induction uids generalizing s res with
  | nil => exact ⟨s, res, rfl, hvalidity, ImapRun.halt hlow⟩
  | cons uid uids ih =>
    obtain ⟨hhead, htail⟩ := List.pairwise_cons.mp hascending
    have huid := hlow uid List.mem_cons_self
    have hlater : ∀ u ∈ uids, res.highestUid < u :=
      fun u hu => hlow u (List.mem_cons_of_mem _ hu)
    have hadvanced : ∀ u ∈ uids, max res.highestUid uid < u := by
      intro u hu
      have := hhead u hu
      omega
    have hkept := hsame uid List.mem_cons_self
    have hrest : ∀ u ∈ uids, seen (imapKey box.uidvalidity u) s.1 =
        seen (imapKey box.uidvalidity u) st :=
      fun u hu => hsame u (List.mem_cons_of_mem _ hu)
    rw [fetchImapLoop]
    by_cases hlimit : 0 < feed.maxPerRun ∧ feed.maxPerRun ≤ res.fetched
    · rw [if_pos hlimit]
      exact ⟨s, _, rfl, hvalidity, ImapRun.halt hlow⟩
    rw [if_neg hlimit]
    rw [hvalidity]
    by_cases hwant : want s (imapKey box.uidvalidity uid) = false
    · -- the table has the uid
      rw [if_pos hwant]
      have hseen : seen (imapKey box.uidvalidity uid) s.1 = true := by simpa [want] using hwant
      have hturn : turn feed conn box st uid = .known := by
        simp [turn, ← hkept, hseen]
      obtain ⟨out, res', hrun, hres, hloop⟩ :=
        @ih htail s (res.advance uid) hadvanced hvalidity hrest
      refine ⟨out, res', hrun, hres, hloop.advance huid (by simp [hturn])
        ⟨[], Posts.refl _, by simp⟩ ?_⟩
      intro hsteady
      simp only [SteadyUids, hlimit, hturn, false_or] at hsteady
      exact ⟨hsteady, Or.inl hseen⟩
    rw [if_neg hwant]
    have hfresh := not_seen_of_want hwant
    cases hfetch : rawOf box conn.fetch uid with
    | none =>
      -- the download fails
      have hturn : turn feed conn box st uid = .failed := by
        simp [turn, ← hkept, hfresh, hfetch]
      obtain ⟨out, res', hrun, hres, hloop⟩ := ih htail hlater hvalidity hrest
      refine ⟨out, res', hrun, hres, hloop.fail hlow ?_ rfl⟩
      intro hsteady
      simpa only [SteadyUids, hlimit, hturn, false_or] using hsteady
    | some raw =>
      dsimp only
      by_cases hskip : raw = [] ∨ (0 < feed.maxBytes ∧ feed.maxBytes < raw.length)
      · -- the response is passed over
        rw [if_pos hskip]
        have hturn : turn feed conn box st uid = .passed := by
          simp only [turn, ← hkept, hfresh, hfetch, if_pos hskip, Bool.false_eq_true, if_false]
        obtain ⟨out, res', hrun, hres, hloop⟩ :=
          @ih htail s (res.advance uid) hadvanced hvalidity hrest
        refine ⟨out, res', hrun, hres, hloop.advance huid (by simp [hturn])
          ⟨[], Posts.refl _, by simp⟩ ?_⟩
        intro hsteady
        simp only [SteadyUids, hlimit, hturn, false_or] at hsteady
        exact ⟨hsteady.2, Or.inr hsteady.1⟩
      · rw [if_neg hskip]
        have hcases := @onMessage_cases conn s ⟨imapKey box.uidvalidity uid, raw⟩ hfresh
        cases hout : onMessage conn s ⟨imapKey box.uidvalidity uid, raw⟩ with
        | mk s' taken =>
          rw [hout] at hcases
          cases hcases with
          | inl hposted =>
            obtain ⟨htaken, hstore, hposts⟩ := hposted
            subst htaken
            have hturn : turn feed conn box st uid = .posted := by
              simp only [turn, ← hkept, hfresh, hfetch, if_neg hskip, hstore, Bool.false_eq_true,
                if_false, if_true]
            have hrest' : ∀ u ∈ uids, seen (imapKey box.uidvalidity u) s'.1 =
                seen (imapKey box.uidvalidity u) st := by
              intro u hu
              rw [← hrest u hu, Bool.eq_iff_iff, hposts.marked, List.mem_singleton]
              have hne : imapKey box.uidvalidity u ≠ imapKey box.uidvalidity uid :=
                imapKey_ne (Nat.ne_of_gt (hhead u hu))
              simp [hne]
            obtain ⟨out, res', hrun, hres, hloop⟩ :=
              @ih htail s' ({ res with
                fetched := res.fetched + 1
                uidvalidity := box.uidvalidity }.advance uid) hadvanced rfl hrest'
            refine ⟨out, res', hrun, hres, hloop.advance huid (by simp [hturn])
              ⟨_, hposts, by simp⟩ ?_⟩
            intro hsteady
            simp only [SteadyUids, hlimit, hturn, false_or] at hsteady
            refine ⟨hsteady, Or.inl ((hposts.marked _).mpr (Or.inr ?_))⟩
            exact List.mem_singleton_self _
          | inr hrefused =>
            obtain ⟨htaken, hstore, hstate⟩ := hrefused
            subst htaken
            have hturn : turn feed conn box st uid = .failed := by
              simp only [turn, ← hkept, hfresh, hfetch, if_neg hskip, hstore, Bool.false_eq_true,
                if_false]
            obtain ⟨out, res', hrun, hres, hloop⟩ := @ih htail s' res hlater hvalidity
              (by rw [hstate]; exact hrest)
            refine ⟨out, res', hrun, hres, hloop.fail hlow ?_ hstate⟩
            intro hsteady
            simpa only [SteadyUids, hlimit, hturn, false_or] using hsteady

/-! ## The items of a document -/

theorem mem_unseen {st : State} {items : List Entry} {guid : Bytes} :
    guid ∈ unseen st items ↔ (∃ e ∈ items, e.guid = guid) ∧ seen guid st = false := by
  simp [unseen]

theorem nodup_unseen (st : State) (items : List Entry) : (unseen st items).Nodup :=
  (List.nodup_dedup _).filter _

/-- Where every new item is stored, within the limit, the loop ends with all of them marked. -/
theorem rss_complete {feed : Feed} {conn : Conn} {items : List Entry} {st : State}
    {res : RunResult} (hlimit : (unseen st items).length + res.stored ≤ feed.maxPerRun)
    (hstore : ∀ guid ∈ unseen st items, conn.storeFails guid = none) :
    (rssLoop feed conn items st res).2.2 = true ∧
      ∀ e ∈ items, seen e.guid (rssLoop feed conn items st res).1 = true := by
  induction items generalizing st res with
  | nil => exact ⟨rfl, by simp⟩
  | cons item items ih =>
    rw [rssLoop]
    by_cases hfull : feed.maxPerRun ≤ res.stored
    · -- nothing is left to store
      rw [if_pos hfull]
      have hnone : unseen st (item :: items) = [] := List.length_eq_zero_iff.mp (by omega)
      refine ⟨rfl, fun e he => ?_⟩
      by_contra hnot
      have hmem : e.guid ∈ unseen st (item :: items) :=
        mem_unseen.mpr ⟨⟨e, he, rfl⟩, by simpa using hnot⟩
      rw [hnone] at hmem
      cases hmem
    · rw [if_neg hfull, if_neg item.guid_ne]
      have hsub : ∀ guid ∈ unseen st items, guid ∈ unseen st (item :: items) := by
        intro guid hguid
        obtain ⟨⟨e, he, hname⟩, hnot⟩ := mem_unseen.mp hguid
        exact mem_unseen.mpr ⟨⟨e, List.mem_cons_of_mem _ he, hname⟩, hnot⟩
      by_cases hseen : seen item.guid st = true
      · rw [if_pos hseen]
        have hle := (List.subperm_of_subset (nodup_unseen st items) hsub).length_le
        obtain ⟨hdone, hall⟩ := @ih st { res with skipped := res.skipped + 1 }
          (by dsimp only; omega) fun guid hguid => hstore guid (hsub guid hguid)
        refine ⟨hdone, fun e he => ?_⟩
        cases List.mem_cons.mp he with
        | inl heq =>
          obtain ⟨keys, hposts, -⟩ :=
            rss_posts feed conn items st { res with skipped := res.skipped + 1 }
          rw [heq]
          exact (hposts.marked _).mpr (Or.inl hseen)
        | inr htail => exact hall e htail
      · rw [if_neg hseen]
        have hfresh : seen item.guid st = false := by simpa using hseen
        have hnew : item.guid ∈ unseen st (item :: items) :=
          mem_unseen.mpr ⟨⟨item, List.mem_cons_self, rfl⟩, hfresh⟩
        simp only [store, hstore _ hnew]
        -- the marked item is not among those left
        let st' := markSeen conn.now item.guid { st with posted := st.posted ++ [item.guid] }
        have hposted : Posts st st' [item.guid] := posts_single hfresh
        have hleft : ∀ guid ∈ unseen st' items, guid ∈ unseen st items ∧ guid ≠ item.guid := by
          intro guid hguid
          obtain ⟨he, hnot⟩ := mem_unseen.mp hguid
          have hmarked := hposted.marked guid
          rw [hnot] at hmarked
          simp only [Bool.false_eq_true, false_iff, not_or, Bool.not_eq_true,
            List.mem_singleton] at hmarked
          exact ⟨mem_unseen.mpr ⟨he, hmarked.1⟩, hmarked.2⟩
        have hnodup : (item.guid :: unseen st' items).Nodup :=
          List.nodup_cons.mpr ⟨fun hmem => (hleft _ hmem).2 rfl, nodup_unseen st' items⟩
        have hsub' : ∀ guid ∈ item.guid :: unseen st' items,
            guid ∈ unseen st (item :: items) := by
          intro guid hguid
          cases List.mem_cons.mp hguid with
          | inl heq => exact heq ▸ hnew
          | inr htail => exact hsub guid (hleft guid htail).1
        have hle := (List.subperm_of_subset hnodup hsub').length_le
        rw [List.length_cons] at hle
        obtain ⟨hdone, hall⟩ := @ih st'
          { res with fetched := res.fetched + 1, stored := res.stored + 1 }
          (by dsimp only; omega) fun guid hguid => hstore guid (hsub guid (hleft guid hguid).1)
        refine ⟨hdone, fun e he => ?_⟩
        cases List.mem_cons.mp he with
        | inl heq =>
          obtain ⟨keys, hposts, -⟩ := rss_posts feed conn items st'
            { res with fetched := res.fetched + 1, stored := res.stored + 1 }
          rw [heq]
          exact (hposts.marked _).mpr
            (Or.inl ((hposted.marked _).mpr (Or.inr (List.mem_singleton_self _))))
        | inr htail => exact hall e htail

/-! ## The table over a run -/

/-- The table and the pruned rows hold what was posted, once. -/
structure Table (st : State) : Prop where
  once : st.posted.Nodup
  seen_posted : ∀ key, seen key st = true → key ∈ st.posted
  posted_known : ∀ key ∈ st.posted, seen key st = true ∨ key ∈ st.pruned

namespace Table

theorem new : Table .new :=
  ⟨List.nodup_nil, fun _ hkey => (by cases hkey), fun _ hkey => (by cases hkey)⟩

theorem posts {st st' : State} {keys : List Bytes} (h : Table st) (hposts : Posts st st' keys)
    (hnew : ∀ key ∈ keys, key ∉ st.posted) : Table st' where
  once := by
    rw [hposts.posted]
    refine List.nodup_append.mpr ⟨h.once, hposts.distinct, ?_⟩
    rintro x hx y hy rfl
    exact hnew x hy hx
  seen_posted := by
    intro key hkey
    rw [hposts.posted, List.mem_append]
    exact ((hposts.marked key).mp hkey).imp (h.seen_posted key) id
  posted_known := by
    intro key hkey
    rw [hposts.posted] at hkey
    rw [hposts.marked, hposts.pruned]
    cases List.mem_append.mp hkey with
    | inl hold => exact (h.posted_known key hold).imp Or.inl id
    | inr hmem => exact Or.inl (Or.inr hmem)

theorem recorded {st : State} (h : Table st) (res : RunResult) (uidvalidity lastUid : Nat)
    (etag lastModified : Bytes) :
    Table (recordRun res uidvalidity lastUid etag lastModified st) :=
  ⟨h.once, h.seen_posted, h.posted_known⟩

theorem prune {st : State} (h : Table st) : Table (pruneSeen st) where
  once := h.once
  seen_posted := fun key hkey => h.seen_posted key (seen_of_pruneSeen hkey)
  posted_known := by
    intro key hkey
    cases h.posted_known key hkey with
    | inl hseen => exact pruneSeen_keeps hseen
    | inr hpruned => exact Or.inr (pruned_pruneSeen hpruned)

/-- An item that is not in the table, nor among the pruned rows, is new. -/
theorem not_posted {st : State} (h : Table st) {key : Bytes} (hseen : seen key st = false)
    (hpruned : key ∉ st.pruned) : key ∉ st.posted := by
  intro hkey
  cases h.posted_known key hkey with
  | inl hmem =>
    rw [hseen] at hmem
    cases hmem
  | inr hmem => exact hpruned hmem

end Table

end QuackMail.Fetch
