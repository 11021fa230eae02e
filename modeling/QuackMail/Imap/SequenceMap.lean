import QuackMail.Imap.Append
import Mathlib.Data.List.Perm.Subperm

/-! # Sequence maps

A client numbers the messages of the selected mailbox by the untagged responses alone.
`Follows` says that its list is the session's own map; `Fits` is what a command needs of
the state it starts in to keep that.
-/

namespace QuackMail.Imap

open Citadel

inductive Event where
  | command (o : Outside) (r : Request)
  | others (change : Change)

/-- A command of this session, while its connection lasts, or a change by others. -/
def act (c : Conn) : Event → Conn
  | .command o r => if c.live then perform o c r else c
  | .others change => applyChanges c [change]

def acts (c : Conn) (events : List Event) : Conn := events.foldl act c

/-- A session that has just selected a mailbox. -/
def selectedConn (v : Server) (user : Bytes) (examine : Bool) (room : Nat) : Conn :=
  ⟨v, ⟨user, true, examine, room, roomUids v.store room⟩, roomUids v.store room, true⟩

/-! ## What a command needs -/

/-- What the map lacks is larger than what it keeps. -/
def ReportFits (c : Conn) : Prop :=
  ∀ m ∈ c.now, m ∉ c.session.uids → ∀ k ∈ c.session.uids, k ∈ c.now → k < m

/-- Every poll of an IDLE that reports. -/
def IdleFits : List (List Change) → Nat → Conn → Prop
  | [], _, _ => True
  | changes :: rounds, token, c =>
    let c := applyChanges c changes
    let fresh := roomChangeToken c.server.store c.session.room
    if c.session.selected = false ∨ fresh = token then IdleFits rounds token c
    else ReportFits c ∧ IdleFits rounds fresh (report c)

/-- A MOVE finds the room as the map has it, and moves nothing out of it. -/
def MoveFits (o : Outside) (isUid isMove : Bool) (body : Bytes) (c : Conn) : Prop :=
  c.session.selected = true → isMove = true →
    ∀ droom, o.resolve (unquoted (splitWord body).2) = some droom →
      c.now = c.session.uids ∧
        (droom = c.session.room ∨ getRoomByNum c.server.store droom = none ∨
          parseSet (splitWord body).1 c.session.uids isUid = [])

/-- An APPEND into the selected room is refused. -/
def AppendFits (o : Outside) (args raw : Bytes) (c : Conn) : Prop :=
  ∀ droom, o.resolve (appendArgs args).mailbox = some droom →
    wouldExceed c.server.store c.session.user (appendArgs args).count = false →
    0 ≤ (appendArgs args).count → c.session.selected = true → c.session.room = droom →
    quotaRefusal c.server.store [droom] ≠ none ∨
      o.world.fault (appendMessage o c.server c.session.user (appendArgs args).mailbox raw) ≠ none

/-- The message is flagged for EXPUNGE by the user of the session. -/
def Flagged (c : Conn) (uid : Nat) : Prop :=
  deletedFlag ∈ loadFlags c.server uid c.session.user

instance (c : Conn) (uid : Nat) : Decidable (Flagged c uid) :=
  inferInstanceAs (Decidable (_ ∈ _))

/-- An EXPUNGE finds nothing new in the room, and misses only what it expunges. -/
def ExpungeFits (c : Conn) : Prop :=
  c.session.selected = true → (∀ m ∈ c.now, m ∈ c.session.uids) ∧
    ∀ m ∈ c.session.uids, ¬Flagged c m → m ∈ c.now

def Fits (c : Conn) : Event → Prop
  | .others _ => True
  | .command o r =>
    match r with
    | .noop => c.session.selected = true → ReportFits c
    | .idle rounds =>
      IdleFits rounds (if c.session.selected then roomChangeToken c.server.store c.session.room else 0) c
    | .transfer isUid isMove body => MoveFits o isUid isMove body c
    | .append args raw => AppendFits o args raw c
    | .expunge => ExpungeFits c
    | .fetch _ _ => True
    | .store _ _ => True
    | .search _ _ => True
    | .select _ _ => True
    | .close => True

/-- Every event of a run fits the state it meets. -/
def EachFits : Conn → List Event → Prop
  | _, [] => True
  | c, e :: events => (c.live = true → Fits c e) ∧ EachFits (act c e) events

/-! ## Lists -/

/-- Ascending lists with the same members. -/
theorem ascending_ext {xs ys : List Nat} (hx : xs.Pairwise (· < ·)) (hy : ys.Pairwise (· < ·))
    (h : ∀ m, m ∈ xs ↔ m ∈ ys) : xs = ys := by
  have hperm : xs.Perm ys :=
    (List.perm_ext_iff_of_nodup (hx.imp fun h => Nat.ne_of_lt h) (hy.imp fun h => Nat.ne_of_lt h)).mpr h
  exact @List.Perm.eq_of_pairwise _ (· < ·) _ _
    (fun a b _ _ hab hba => absurd hab (Nat.lt_asymm hba)) hx hy hperm

/-- Expunges from the largest position down leave what does not satisfy `p`. -/
theorem clientApplyAll_descending (p : Nat → Bool) (now : List Nat) :
    ∀ uids kept : List Nat,
      clientApplyAll now (kept ++ uids) ((descending p uids (kept.length + 1)).map .expunge) =
        kept ++ uids.filter (fun uid => !p uid) := by
  intro uids
  induction uids with
  | nil => exact fun kept => by simp [descending, clientApplyAll]
  | cons uid uids ih =>
    intro kept
    have hrest := ih (kept ++ [uid])
    rw [List.length_append, List.length_singleton, List.append_assoc, List.append_assoc] at hrest
    rw [descending, List.map_append, clientApplyAll, List.foldl_append]
    rw [clientApplyAll] at hrest
    rw [List.singleton_append] at hrest
    rw [hrest]
    cases hp : p uid with
    | true =>
      rw [if_pos rfl, List.map_singleton, List.foldl_cons, List.foldl_nil, clientApply,
        List.filter_cons_of_neg (by simp [hp]), Nat.add_sub_cancel,
        List.eraseIdx_append_of_length_le (Nat.le_refl _), Nat.sub_self]
      rfl
    | false =>
      rw [if_neg (by simp), List.map_nil, List.foldl_nil, List.filter_cons_of_pos (by simp [hp])]
      rfl

theorem length_descending (p : Nat → Bool) (uids : List Nat) (first : Nat) :
    (descending p uids first).length = (uids.filter p).length := by
  induction uids generalizing first with
  | nil => rfl
  | cons uid uids ih =>
    rw [descending, List.length_append, ih]
    cases hp : p uid with
    | true => simp [hp]
    | false => simp [hp]

/-- A client that follows the map is brought to what the room holds exactly when what is new
    is larger than what is kept. -/
theorem report_eq_iff {uids now : List Nat} (huids : uids.Pairwise (· < ·))
    (hnow : now.Pairwise (· < ·)) :
    clientApplyAll now uids (reportOf uids now) = now ↔
      ∀ m ∈ now, m ∉ uids → ∀ k ∈ uids, k ∈ now → k < m := by
  have hexpunged := clientApplyAll_descending (fun uid => decide (uid ∉ now)) now uids []
  have hlength := length_descending (fun uid => decide (uid ∉ now)) uids 1
  simp only [List.nil_append, List.length_nil, Nat.zero_add, decide_not, Bool.not_not] at hexpunged hlength
  have hsum : (uids.filter (fun uid => decide (uid ∈ now))).length +
      (uids.filter (fun uid => !decide (uid ∈ now))).length = uids.length :=
    (List.length_eq_length_filter_add _).symm
  have hkept : (uids.filter (fun uid => decide (uid ∈ now))).Pairwise (· < ·) := huids.filter _
  have hsub : uids.filter (fun uid => decide (uid ∈ now)) ⊆ now := by
    intro m hm
    simpa using (List.mem_filter.mp hm).2
  rw [reportOf]
  simp only [decide_not]
  rw [hlength, clientApplyAll, List.foldl_append, ← clientApplyAll, ← clientApplyAll, hexpunged]
  by_cases hcount : now.length = uids.length -
      (uids.filter (fun uid => !decide (uid ∈ now))).length
  · -- nothing is new
    rw [if_neg (by simpa using hcount)]
    have hall : uids.filter (fun uid => decide (uid ∈ now)) = now := by
      have hnodup : (uids.filter (fun uid => decide (uid ∈ now))).Nodup :=
        hkept.imp fun h => Nat.ne_of_lt h
      have hperm := (hnodup.subperm hsub).perm_of_length_le (by omega)
      exact @List.Perm.eq_of_pairwise _ (· < ·) _ _
        (fun a b _ _ hab hba => absurd hab (Nat.lt_asymm hba)) hkept hnow hperm
    refine ⟨fun _ m hm hnew => ?_, fun _ => hall⟩
    rw [← hall] at hm
    exact absurd (List.mem_of_mem_filter hm) hnew
  · rw [if_pos (by simpa using hcount)]
    have hnew : now.filter (· ∉ uids.filter (fun uid => decide (uid ∈ now))) =
        now.filter (· ∉ uids) := by
      refine List.filter_congr fun m hm => ?_
      simp [hm]
    rw [clientApplyAll, List.foldl_cons, List.foldl_nil, clientApply, hnew]
    constructor
    · intro heq m hm hout k hk hkin
      rw [← heq, List.pairwise_append] at hnow
      exact hnow.2.2 k (List.mem_filter.mpr ⟨hk, by simpa using hkin⟩) m
        (List.mem_filter.mpr ⟨hm, by simpa using hout⟩)
    · intro hlarger
      refine ascending_ext ?_ hnow ?_
      · rw [List.pairwise_append]
        refine ⟨hkept, hnow.filter _, fun k hk m hm => ?_⟩
        rw [List.mem_filter, decide_eq_true_eq] at hk hm
        exact hlarger m hm.1 hm.2 k hk.1 hk.2
      · intro m
        simp only [List.mem_append, List.mem_filter, decide_eq_true_eq]
        tauto

/-! ## Steps -/

/-- The client numbers the messages as the session does. -/
structure Follows (c : Conn) : Prop where
  ok : ∃ E, Ok E c.server.store
  ascending : c.session.uids.Pairwise (· < ·)
  same : c.client = c.session.uids

theorem now_ascending {c : Conn} (h : ∃ E, Ok E c.server.store) : c.now.Pairwise (· < ·) :=
  h.elim fun _ hok => roomUids_sorted hok

theorem mem_now {c : Conn} {E : Nat → Message} (hok : Ok E c.server.store) {m : Nat} :
    m ∈ c.now ↔ ⟨c.session.room, m⟩ ∈ c.server.store.roomMsgs := mem_roomUids hok

theorem ok_of_step {s : Store} (h : ∃ E, Ok E s) (c : World × Op) : ∃ E, Ok E (step s c) := by
  obtain ⟨E, hok⟩ := h
  obtain ⟨E', -, hok', -⟩ := ok_step hok c
  exact ⟨E', hok'⟩

section Steps

variable {c : Conn}

theorem follows_changes (h : Follows c) (changes : List Change) : Follows (applyChanges c changes) := by
  have hstore : ∀ (changes : List Change) (v : Server), (∃ E, Ok E v.store) →
      ∃ E, Ok E (changes.foldl applyChange v).store := by
    intro changes
    induction changes with
    | nil => exact fun _ hok => hok
    | cons change changes ih =>
      intro v hok
      refine ih _ ?_
      cases change with
      | op w o => exact ok_of_step hok (w, o)
      | addFlag msgnum user flag =>
        unfold applyChange addFlag
        simp only
        split <;> exact hok
      | removeFlag msgnum user flag => exact hok
  exact ⟨hstore changes _ h.ok, h.ascending, h.same⟩

theorem follows_report_iff (h : Follows c) : Follows (report c) ↔ ReportFits c := by
  have hnow := now_ascending h.ok
  have hiff := report_eq_iff h.ascending hnow
  constructor
  · rintro ⟨-, -, hsame⟩
    rw [report, h.same] at hsame
    exact hiff.mp hsame
  · intro hfits
    refine ⟨h.ok, hnow, ?_⟩
    rw [report, h.same]
    exact hiff.mpr hfits

theorem follows_idle (rounds : List (List Change)) :
    ∀ (token : Nat) {c : Conn}, Follows c → IdleFits rounds token c →
      Follows (idleLoop rounds token c) := by
  induction rounds with
  | nil => exact fun _ _ h _ => h
  | cons changes rounds ih =>
    intro token c h hfits
    have hchanged := follows_changes h changes
    rw [IdleFits] at hfits
    rw [idleLoop]
    split
    · next hquiet =>
      rw [if_pos hquiet] at hfits
      exact ih token hchanged hfits
    · next hmoved =>
      rw [if_neg hmoved] at hfits
      exact ih _ ((follows_report_iff hchanged).mpr hfits.1) hfits.2

/-- A command that leaves the map and the store's messages alone. -/
theorem follows_of_store {v : Server} (h : Follows c) (hstore : v.store = c.server.store) :
    Follows { c with server := v } := ⟨by simpa only [hstore] using h.ok, h.ascending, h.same⟩

theorem addFlag_store (v : Server) (msgnum : Nat) (user flag : Bytes) :
    (addFlag v msgnum user flag).store = v.store := by
  unfold addFlag
  split <;> rfl

theorem fetchAll_store (user items : Bytes) (uids : List Nat) (set : List Nat) (v : Server) :
    (set.foldl (fetchOne user items uids) v).store = v.store := by
  induction set generalizing v with
  | nil => rfl
  | cons pos set ih =>
    rw [List.foldl_cons, ih, fetchOne]
    split
    · rfl
    · split
      · rfl
      · split
        · rfl
        · exact addFlag_store _ _ _ _

theorem storeOne_store (user : Bytes) (removes : Bool) (flags : List Bytes) (uids : List Nat)
    (v : Server) (pos : Nat) : (storeOne user removes flags uids v pos).store = v.store := by
  unfold storeOne
  induction flags generalizing v with
  | nil => rfl
  | cons flag flags ih =>
    rw [List.foldl_cons, ih]
    split
    · rfl
    · exact addFlag_store _ _ _ _

theorem storeAll_store (user : Bytes) (removes : Bool) (flags : List Bytes) (uids : List Nat)
    (set : List Nat) (v : Server) :
    (set.foldl (storeOne user removes flags uids) v).store = v.store := by
  induction set generalizing v with
  | nil => rfl
  | cons pos set ih => rw [List.foldl_cons, ih, storeOne_store]

theorem ok_transferAll (w : World) (fromRoom toRoom : Nat) (isCopy : Bool) (uids set : List Nat) :
    ∀ s : Store, (∃ E, Ok E s) → ∃ E, Ok E (transferAll w fromRoom toRoom isCopy uids s set) := by
  induction set with
  | nil => exact fun _ hok => hok
  | cons pos set ih =>
    exact fun s hok => ih _ (ok_of_step hok (w, .move fromRoom toRoom (uidAt uids pos) isCopy))

/-- A MOVE that moves nothing. -/
theorem transferAll_self (w : World) {fromRoom toRoom : Nat} (isCopy : Bool) (uids : List Nat)
    {s : Store} (h : toRoom = fromRoom ∨ getRoomByNum s toRoom = none) (set : List Nat) :
    transferAll w fromRoom toRoom isCopy uids s set = s := by
  have hmove : ∀ m, (moveMessage w s fromRoom toRoom m isCopy).1 = s := by
    intro m
    unfold moveMessage
    split
    · rcases h with rfl | hnone
      · split
        · rfl
        · rw [if_pos rfl]
      · rw [hnone]
    · rfl
  induction set with
  | nil => rfl
  | cons pos set ih =>
    rw [transferAll, List.foldl_cons, hmove]
    exact ih

theorem follows_transfer {o : Outside} {isUid isMove : Bool} {body : Bytes} (h : Follows c)
    (hfits : MoveFits o isUid isMove body c) : Follows (transfer o isUid isMove body c) := by
  rw [transfer]
  simp only
  split
  · next hselected =>
    cases hresolve : o.resolve (unquoted (splitWord body).2) with
    | none => exact h
    | some droom =>
      simp only
      have hok := ok_transferAll o.world c.session.room droom (!isMove) c.session.uids
        (parseSet (splitWord body).1 c.session.uids isUid) c.server.store h.ok
      cases isMove with
      | false => exact ⟨hok, h.ascending, h.same⟩
      | true =>
        obtain ⟨hnow, hnone⟩ := hfits hselected rfl droom hresolve
        have hstore : transferAll o.world c.session.room droom (!true) c.session.uids
            c.server.store (parseSet (splitWord body).1 c.session.uids isUid) = c.server.store := by
          rcases hnone with hsame | hmissing | hempty
          · exact transferAll_self _ _ _ (.inl hsame) _
          · exact transferAll_self _ _ _ (.inr hmissing) _
          · rw [hempty]
            rfl
        rw [if_pos rfl, hstore]
        refine ⟨h.ok, now_ascending h.ok, ?_⟩
        simp only [h.same, ← hnow]
        rfl
  · exact h

theorem follows_append {o : Outside} {args raw : Bytes} (h : Follows c)
    (hfits : AppendFits o args raw c) : Follows (append o args raw c) := by
  rw [append]
  cases hresolve : o.resolve (appendArgs args).mailbox with
  | none => exact h
  | some droom =>
    simp only
    split
    · exact h
    next hquota =>
    split
    · exact ⟨h.ok, h.ascending, h.same⟩
    next hcount =>
    have hok := ok_of_step h.ok (o.world,
      .insert (appendMessage o c.server c.session.user (appendArgs args).mailbox raw) [droom])
    rw [appendStored]
    simp only
    split
    · exact ⟨hok, h.ascending, h.same⟩
    · next msgnum hinsert =>
      have hflags := addFlags_store msgnum c.session.user (appendArgs args).flags
        { c.server with store := (insertMessage o.world c.server.store
          (appendMessage o c.server c.session.user (appendArgs args).mailbox raw) [droom]).1 }
      split
      · -- the message is stored in the selected room
        next hsame =>
        exfalso
        have hrefused := hfits droom hresolve (by simpa using hquota) (by omega) hsame.1 hsame.2
        obtain ⟨hquota', hfault', -⟩ := insertMessage_accepted (Prod.ext rfl hinsert)
        exact hrefused.elim (fun hover => hover hquota') fun hfault => hfault hfault'
      · exact ⟨by simp only [hflags]; exact hok, h.ascending, h.same⟩

theorem expungeAll_eq (w : World) (room : Nat) (doomed : List Nat) (s : Store) :
    expungeAll w room doomed s = (deleteAll w room doomed s).1 := by
  induction doomed generalizing s with
  | nil => rfl
  | cons m doomed ih =>
    rw [expungeAll, List.foldl_cons, deleteAll]
    cases deleteMessage w s room m with
    | mk s' r => cases r <;> exact ih s'

theorem ok_expungeAll (w : World) (room : Nat) (doomed : List Nat) :
    ∀ s : Store, (∃ E, Ok E s) → ∃ E, Ok E (expungeAll w room doomed s) := by
  induction doomed with
  | nil => exact fun _ hok => hok
  | cons m doomed ih => exact fun s hok => ih _ (ok_of_step hok (w, .delete room m))

theorem mem_expungeAll {w : World} {room : Nat} {doomed : List Nat} {s : Store} {m : Nat} :
    (⟨room, m⟩ : Pointer) ∈ (expungeAll w room doomed s).roomMsgs ↔
      (⟨room, m⟩ : Pointer) ∈ s.roomMsgs ∧ m ∉ doomed := by
  rw [expungeAll_eq, (deleteAll_frame w room doomed s).2, List.mem_filter]
  simp

theorem follows_expunge {o : Outside} (h : Follows c) (hfits : ExpungeFits c) :
    Follows (expunge o c) := by
  unfold expunge
  split
  · next hselected =>
    obtain ⟨hnew, hkept⟩ := hfits hselected
    have hok := ok_expungeAll o.world c.session.room (c.session.uids.reverse.filter
      (fun uid => decide (deletedFlag ∈ loadFlags c.server uid c.session.user))) c.server.store h.ok
    obtain ⟨E, hok₀⟩ := h.ok
    obtain ⟨E', hok'⟩ := hok
    have hexpunged := clientApplyAll_descending
      (fun uid => decide (deletedFlag ∈ loadFlags c.server uid c.session.user))
    refine ⟨⟨E', hok'⟩, roomUids_sorted hok', ?_⟩
    rw [h.same]
    have hclient := hexpunged (roomUids (expungeAll o.world c.session.room
      (c.session.uids.reverse.filter
        (fun uid => decide (deletedFlag ∈ loadFlags c.server uid c.session.user)))
      c.server.store) c.session.room) c.session.uids []
    simp only [List.nil_append, List.length_nil, Nat.zero_add] at hclient
    simp only [Conn.now]
    rw [hclient]
    refine ascending_ext (h.ascending.filter _) (roomUids_sorted hok') fun m => ?_
    rw [mem_roomUids hok', List.mem_filter]
    refine Iff.trans ?_ mem_expungeAll.symm
    rw [← mem_now hok₀]
    simp only [List.mem_filter, List.mem_reverse, decide_eq_true_eq, Bool.not_eq_true',
      decide_eq_false_iff_not, not_and]
    constructor
    · rintro ⟨hm, hflag⟩
      exact ⟨hkept m hm hflag, fun _ => hflag⟩
    · rintro ⟨hm, hflag⟩
      exact ⟨hnew m hm, hflag (hnew m hm)⟩
  · exact h

theorem follows_act {e : Event} (h : Follows c) (hfits : c.live = true → Fits c e) :
    Follows (act c e) := by
  cases e with
  | others change => exact follows_changes h [change]
  | command o r =>
    rw [act]
    split
    · next hlive =>
      have hfits := hfits hlive
      cases r with
      | noop =>
        rw [perform, noop]
        split
        · next hselected => exact (follows_report_iff h).mpr (hfits hselected)
        · exact h
      | idle rounds => exact follows_idle rounds _ h hfits
      | fetch isUid args =>
        rw [perform, fetch]
        split
        · exact follows_of_store h (fetchAll_store _ _ _ _ _)
        · exact h
      | store isUid args =>
        rw [perform, storeCommand]
        split
        · exact follows_of_store h (storeAll_store _ _ _ _ _ _)
        · exact h
      | search isUid args => exact h
      | transfer isUid isMove body => exact follows_transfer h hfits
      | append args raw => exact follows_append h hfits
      | expunge => exact follows_expunge h hfits
      | select examine args =>
        rw [perform, select]
        cases o.resolve (unquoted args) with
        | none => exact h
        | some room => exact ⟨h.ok, h.ok.elim fun _ hok => roomUids_sorted hok, rfl⟩
      | close => exact ⟨h.ok, h.ascending, h.same⟩
    · exact h

theorem follows_acts (events : List Event) :
    ∀ {c : Conn}, Follows c → EachFits c events → Follows (acts c events) := by
  induction events with
  | nil => exact fun h _ => h
  | cons e events ih => exact fun h hfits => ih (follows_act h hfits.1) hfits.2

end Steps

theorem eachFits_append (pre post : List Event) (c : Conn) :
    EachFits c (pre ++ post) ↔ EachFits c pre ∧ EachFits (acts c pre) post := by
  induction pre generalizing c with
  | nil => simp [EachFits, acts]
  | cons e pre ih => simp only [List.cons_append, EachFits, ih, acts, List.foldl_cons, and_assoc]

/-- In every run whose commands fit the states they meet the client's list is the session's
    map, position by position. -/
theorem client_follows (rooms : List Room) (config : List (Bytes × Bytes))
    (users : List (Bytes × Int)) (credentials : List Bytes) (quotas : List Limit)
    (past : List (World × Op)) (flags : List FlagRow) (user : Bytes) (examine : Bool) (room : Nat)
    (events : List Event)
    (hfits : EachFits (selectedConn ⟨run (fresh rooms config users credentials quotas) past, flags⟩
      user examine room) events) (pre post : List Event) (hsplit : events = pre ++ post) :
    let c := acts (selectedConn ⟨run (fresh rooms config users credentials quotas) past, flags⟩
      user examine room) pre
    c.client = c.session.uids := by
  intro c
  obtain ⟨E, hok⟩ := ok_run rooms config users credentials quotas past
  have hstart : Follows (selectedConn
      ⟨run (fresh rooms config users credentials quotas) past, flags⟩ user examine room) :=
    ⟨⟨E, hok⟩, roomUids_sorted hok, rfl⟩
  rw [hsplit, eachFits_append] at hfits
  exact (follows_acts pre hstart hfits.1).same

/-- Somebody stores a message in the selected room, and NOOP reports it. -/
theorem client_follows_insert :
    let room : Room := ⟨100, 0, 0, 0, 0, 0⟩
    let o : Outside := ⟨⟨0, [], [], fun _ => none, fun _ _ => []⟩, fun _ => none, fun _ => []⟩
    let events := [.others (.op o.world (.insert .blank [100])), .command o .noop]
    let c := acts (selectedConn ⟨run (fresh [room] [] [] [] []) [], []⟩ (bytes "u") false 100) events
    c.client = c.session.uids := by
  refine client_follows _ _ _ _ _ _ _ _ _ _ _ ?_ _ [] (List.append_nil _).symm
  refine ⟨fun _ => trivial, fun _ _ => ?_, trivial⟩
  unfold ReportFits
  decide

/-- Messages 1 and 2 in two rooms, the session in the room of 2.  When somebody moves 1 in,
    the client appends it and the session sorts it in front; when the session moves 2 out,
    the client is told nothing. -/
theorem client_misnumbers :
    let room : Nat → Room := fun n => ⟨n, 0, 0, 0, 0, 0⟩
    let o : Outside := ⟨⟨0, [], [], fun _ => none, fun _ _ => []⟩, fun _ => some 101, fun _ => []⟩
    let store := run (fresh [room 100, room 101] [] [] [] [])
      [(o.world, .insert .blank [101]), (o.world, .insert .blank [100])]
    let c := selectedConn ⟨store, []⟩ (bytes "u") false 100
    let moved := acts c [.others (.op o.world (.move 101 100 1 false)), .command o .noop]
    let left := acts c [.command o (.transfer false true (bytes "1 x"))]
    moved.session.uids = [1, 2] ∧ moved.client = [2, 1] ∧ left.session.uids = [] ∧
      left.client = [2] := by
  decide

end QuackMail.Imap
