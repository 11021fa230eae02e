import QuackMail.Calendar
import QuackMail.Jmap.EmailSet
import QuackMail.Lib.Paging
import QuackMail.Mime.Entity
import QuackMail.Store.Retention
import Mathlib.Data.PNat.Defs
import Mathlib.Data.Set.Card

/-! # Email/query

`ParseUtc8601`, `ListEmails`, `MatchesFilter` and `EmailQuery` of `jmap_mail.cpp`, and
`FlattenParts` and `BodyText`, which the filter reads.  The listing has a row for every mailbox
that points at a message, so a message found in two mailboxes is listed twice; the pages list
each message once if no message is (`emailQuery_partitions_iff`).
-/

namespace QuackMail.Jmap

open Citadel Imap Mime Calendar Paging

/-! ## Filters -/

def Json.has (v : Json) (name : Bytes) : Bool := v.members.any (fun m => m.1 = name)

/-- `operator[]`. -/
def Json.field (v : Json) (name : Bytes) : Json := member v.members name

/-- `timegm`: what lies outside the range of a field carries over. -/
def timegm (year mon mday hour min sec : Int) : Int :=
  daysFromCivil year mon mday * 86400 + hour * 3600 + min * 60 + sec

/-- `ParseUtc8601`. -/
def parseUtc8601 (v : Bytes) : Option Int :=
  if v.length < 20 ∨ v[4]? ≠ some (ch '-') ∨ v[7]? ≠ some (ch '-') ∨ v[10]? ≠ some (ch 'T') ∨
      v[13]? ≠ some (ch ':') ∨ v[16]? ≠ some (ch ':') then none
  else
    let field := fun start len => strtoll ((v.drop start).take len)
    let mon := field 5 2 - 1
    let mday := field 8 2
    if mon < 0 ∨ mon > 11 ∨ mday < 1 ∨ mday > 31 then none
    else some (timegm (field 0 4) (mon + 1) mday (field 11 2) (field 14 2) (field 17 2))

/-- `MimePart`, of which a filter reads the type and the content. -/
structure MimePart where
  contentType : Bytes
  content : Bytes

/-- `ContentType::Mime`. -/
def mimeType (ct : ContentType) : Bytes :=
  if ct.type = [] then [] else ct.type ++ [ch '/'] ++ ct.subtype

mutual

/-- `Walk`: a part, and what is below it. -/
def walk : MimeEntity → List MimePart
  | ⟨_, ct, _, _, _, _, _, _, decoded, children⟩ =>
    ⟨mimeType ct, if ct.type = bytes "multipart" then [] else decoded⟩ :: walkAll children

def walkAll : List MimeEntity → List MimePart
  | [] => []
  | child :: rest => walk child ++ walkAll rest

end

/-- `FlattenParts`: the container itself is no part. -/
def flattenParts (root : MimeEntity) : List MimePart :=
  if root.children = [] then walk root else walkAll root.children

/-- `BodyText`: plain text if there is any, else the first text with something in it. -/
def bodyText (msg : Message) : Bytes :=
  if msg.formatType ≠ 4 then msg.raw
  else
    let root := parseEntity msg.raw
    if root.contentType.type ≠ bytes "multipart" ∧ root.contentType.type = bytes "text" then
      root.bodyDecoded
    else
      let parts := flattenParts root
      match parts.find? (fun part => (bytes "text/plain").isPrefixOf part.contentType) with
      | some part => part.content
      | none =>
        match parts.find? (fun part =>
          (bytes "text/").isPrefixOf part.contentType && decide (part.content ≠ [])) with
        | some part => part.content
        | none => []

/-- `contains`: whatever the case of the letters. -/
def contains (hay needle : Bytes) : Bool := (lower hay).tails.any (lower needle).isPrefixOf

def hasKeyword (c : Ctx) (t : Tables) (msgnum : Nat) (kw : Bytes) : Bool :=
  (keywordsFor t.server c.username msgnum).any (fun k => lower k = lower kw)

/-- `MatchesFilter`: an unknown condition matches. -/
def matchesFilter (c : Ctx) (t : Tables) (msg : Message) (filter : Json) (roomNum : Nat) : Bool :=
  let text := fun name => (filter.field (bytes name)).asString
  let holds := fun name (condition : Bool) => !filter.has (bytes name) || condition
  !filter.isObject ||
    (holds "inMailbox" ((idNum (text "inMailbox")).any fun want =>
        decide (want = roomNum) || messageInRoom t.store want msg.msgnum) &&
      holds "before" ((parseUtc8601 (text "before")).all fun time => msg.msgtime < time) &&
      holds "after" ((parseUtc8601 (text "after")).all fun time => time ≤ msg.msgtime) &&
      holds "hasKeyword" (hasKeyword c t msg.msgnum (text "hasKeyword")) &&
      holds "notKeyword" (!hasKeyword c t msg.msgnum (text "notKeyword")) &&
      holds "subject" (contains msg.subject (text "subject")) &&
      holds "from" (contains msg.author (text "from")) &&
      holds "to" (contains msg.recipient (text "to")) &&
      (!(filter.has (bytes "text") || filter.has (bytes "body")) ||
        contains (msg.subject ++ [ch '\n'] ++ msg.author ++ [ch '\n'] ++ bodyText msg)
          (if filter.has (bytes "text") then text "text" else text "body")))

/-! ## The listing -/

structure JmapEmail where
  msgnum : Nat
  roomNum : Nat
  received : Int

/-- `ORDER BY m.msgtime DESC, m.msgnum DESC`. -/
def listedBefore (a b : JmapEmail) : Prop :=
  b.received < a.received ∨ (b.received = a.received ∧ b.msgnum ≤ a.msgnum)

instance : DecidableRel listedBefore := fun a b =>
  inferInstanceAs (Decidable (b.received < a.received ∨ _))

/-- `ListEmails`; without `onlyRoom` all mailboxes are listed. -/
def listEmails (c : Ctx) (t : Tables) (onlyRoom : Option Nat) : List JmapEmail :=
  let rooms := ((jmapMailboxes c t).map Room.roomNum).filter (fun n => onlyRoom.all (n = ·))
  let rows := (t.store.roomMsgs.filter (fun p => p.roomNum ∈ rooms)).filterMap fun p =>
    (loadMessage t.store p.msgnum).map fun msg => ⟨p.msgnum, p.roomNum, msg.msgtime⟩
  rows.insertionSort listedBefore

/-! ## The method -/

/-- The arguments that the method reads: numbers as `AsInt` gives them. -/
structure QueryArgs where
  accountId : Bytes
  filter : Json
  position : Int
  limit : Int
  calculateTotal : Bool

structure QueryAnswer where
  accountId : Bytes
  queryState : Bytes
  canCalculateChanges : Bool
  position : Int
  ids : List Bytes
  total : Option Nat

/-- The mailbox that a filter names, or none; the outer `none` is a mailbox that the user does
    not see. -/
def onlyRoomOf (c : Ctx) (t : Tables) (filter : Json) : Option (Option Nat) :=
  if filter.has (bytes "inMailbox") then
    (resolveMailbox c t (filter.field (bytes "inMailbox")).asString).map fun room =>
      some room.roomNum
  else some none

/-- The rows that match. -/
def matched (c : Ctx) (t : Tables) (filter : Json) (onlyRoom : Option Nat) : List JmapEmail :=
  (listEmails c t onlyRoom).filter fun e =>
    (loadMessage t.store e.msgnum).any fun msg => matchesFilter c t msg filter e.roomNum

/-- The page size: 4096 stands in for what is out of range. -/
def pageLimit (limit : Int) : Int := if limit < 0 ∨ limit > 4096 then 4096 else limit

/-- `EmailQuery`. -/
def emailQuery (account : Bytes) (c : Ctx) (t : Tables) (args : QueryArgs) :
    Except Bytes QueryAnswer :=
  if args.accountId ≠ [] ∧ args.accountId ≠ account then .error (bytes "accountNotFound")
  else
    match onlyRoomOf c t args.filter with
    | none => .ok ⟨account, accountState c t, false, 0, [], some 0⟩
    | some onlyRoom =>
      let position := if args.position < 0 then 0 else args.position
      let ids := (matched c t args.filter onlyRoom).map fun e => idOf e.msgnum
      .ok ⟨account, accountState c t, false, position,
        page ids position.toNat (pageLimit args.limit).toNat,
        if args.calculateTotal then some ids.length else none⟩

/-! ## What the pages are to give -/

/-- Tables whose primary keys hold. -/
structure KeyedTables extends Tables where
  keyed : Keyed toTables.store

section Spec

variable (account : Bytes) (c : Ctx) (t : Tables) (filter : Json)

/-- The user sees the message in the room, and it satisfies the filter there: a mailbox that
    the filter names is this room. -/
structure Found (n roomNum : Nat) : Prop where
  sees : Sees c t roomNum
  held : messageInRoom t.store roomNum n = true
  named : filter.has (bytes "inMailbox") = true →
    (resolveMailbox c t (filter.field (bytes "inMailbox")).asString).map Room.roomNum =
      some roomNum
  satisfied : ∃ msg, loadMessage t.store n = some msg ∧ matchesFilter c t msg filter roomNum = true

def Wanted (n : Nat) : Prop := ∃ roomNum, Found c t filter n roomNum

/-- The wanted messages, each once, newest first. -/
structure Listing (ns : List Nat) : Prop where
  nodup : ns.Nodup
  complete : ∀ n, n ∈ ns ↔ Wanted c t filter n
  newestFirst : ns.Pairwise fun m n => ∀ a b, loadMessage t.store m = some a →
    loadMessage t.store n = some b → b.msgtime ≤ a.msgtime

/-- A query for the page at a position, with the total. -/
def queryAt (limit : ℕ+) (position : Nat) : Except Bytes QueryAnswer :=
  emailQuery account c t ⟨[], filter, position, (limit : ℕ), true⟩

/-- The ids of the first `k` pages, at the positions 0, `limit`, … -/
def queryPages (limit : ℕ+) (k : Nat) : List Bytes :=
  (List.range k).flatMap fun i =>
    match queryAt account c t filter limit (i * limit) with
    | .ok answer => answer.ids
    | .error _ => []

/-- From some number of pages on, the pages are the wanted messages, and so is the total. -/
def Partitions (limit : ℕ+) : Prop :=
  ∃ ns, Listing c t filter ns ∧
    (∃ enough, ∀ k ≥ enough, queryPages account c t filter limit k = ns.map idOf) ∧
    (queryAt account c t filter limit 0).toOption.map QueryAnswer.total = some (some ns.length)

end Spec

/-! ## The rows -/

section Rows

variable {c : Ctx} {t : Tables} {filter : Json} {onlyRoom : Option Nat}

theorem mem_listEmails {e : JmapEmail} :
    e ∈ listEmails c t onlyRoom ↔
      Sees c t e.roomNum ∧ onlyRoom.all (e.roomNum = ·) = true ∧
        messageInRoom t.store e.roomNum e.msgnum = true ∧
        ∃ msg, loadMessage t.store e.msgnum = some msg ∧ msg.msgtime = e.received := by
  obtain ⟨n, roomNum, received⟩ := e
  simp only [listEmails, List.mem_insertionSort, List.mem_filterMap, List.mem_filter,
    List.mem_map, decide_eq_true_eq, Option.map_eq_some_iff, JmapEmail.mk.injEq, messageInRoom,
    Sees]
  constructor
  · rintro ⟨⟨_, _⟩, ⟨hp, hseen, honly⟩, msg, hload, rfl, rfl, rfl⟩
    exact ⟨hseen, honly, hp, msg, hload, rfl⟩
  · rintro ⟨hseen, honly, hp, msg, hload, rfl⟩
    exact ⟨⟨roomNum, n⟩, ⟨hp, hseen, honly⟩, msg, hload, rfl, rfl, rfl⟩

/-- Where the filter's mailbox is seen, the rows that match are the places a wanted message is
    found in. -/
theorem mem_matched (honly : onlyRoomOf c t filter = some onlyRoom) {e : JmapEmail} :
    e ∈ matched c t filter onlyRoom ↔
      Found c t filter e.msgnum e.roomNum ∧
        ∃ msg, loadMessage t.store e.msgnum = some msg ∧ msg.msgtime = e.received := by
  have hnamed : onlyRoom.all (e.roomNum = ·) = true ↔
      (filter.has (bytes "inMailbox") = true →
        (resolveMailbox c t (filter.field (bytes "inMailbox")).asString).map Room.roomNum =
          some e.roomNum) := by
    unfold onlyRoomOf at honly
    by_cases hhas : filter.has (bytes "inMailbox") = true
    · rw [if_pos hhas, Option.map_eq_some_iff] at honly
      obtain ⟨room, hroom, rfl⟩ := honly
      simp [hhas, hroom, eq_comm]
    · rw [if_neg hhas, Option.some.injEq] at honly
      simp [hhas, ← honly]
  rw [matched, List.mem_filter, mem_listEmails, Option.any_eq_true]
  constructor
  · rintro ⟨⟨hsees, hroom, hheld, hmsg⟩, hmatches⟩
    exact ⟨⟨hsees, hheld, hnamed.mp hroom, hmatches⟩, hmsg⟩
  · rintro ⟨hfound, hmsg⟩
    exact ⟨⟨hfound.sees, hnamed.mpr hfound.named, hfound.held, hmsg⟩, hfound.satisfied⟩

theorem nodup_listEmails (hkeyed : t.store.roomMsgs.Nodup) : (listEmails c t onlyRoom).Nodup := by
  rw [listEmails, (List.perm_insertionSort _ _).nodup_iff]
  apply (hkeyed.filter _).filterMap
  intro p q e hp hq
  simp only [Option.mem_def, Option.map_eq_some_iff] at hp hq
  obtain ⟨a, -, rfl⟩ := hp
  obtain ⟨b, -, heq⟩ := hq
  cases p
  cases q
  simp_all

theorem listedBefore_total (a b : JmapEmail) : listedBefore a b ∨ listedBefore b a := by
  unfold listedBefore
  omega

theorem listedBefore_trans (a b d : JmapEmail) (hab : listedBefore a b) (hbd : listedBefore b d) :
    listedBefore a d := by
  unfold listedBefore at *
  omega

theorem pairwise_matched :
    (matched c t filter onlyRoom).Pairwise fun a b => b.received ≤ a.received := by
  have hsorted : (listEmails c t onlyRoom).Pairwise listedBefore :=
    @List.pairwise_insertionSort _ listedBefore _ ⟨listedBefore_total⟩ ⟨listedBefore_trans⟩ _
  apply (hsorted.filter _).imp
  intro a b hab
  unfold listedBefore at hab
  omega

/-- The places a message is found in have a row each. -/
theorem row_of_found (honly : onlyRoomOf c t filter = some onlyRoom) {n roomNum : Nat}
    (hfound : Found c t filter n roomNum) :
    ∃ e ∈ matched c t filter onlyRoom, e.msgnum = n ∧ e.roomNum = roomNum := by
  obtain ⟨msg, hload, -⟩ := hfound.satisfied
  exact ⟨⟨n, roomNum, msg.msgtime⟩, (mem_matched honly).mpr ⟨hfound, msg, hload, rfl⟩, rfl, rfl⟩

/-- No message is listed twice if none is found in two mailboxes, and only then. -/
theorem nodup_matched_iff (hkeyed : t.store.roomMsgs.Nodup)
    (honly : onlyRoomOf c t filter = some onlyRoom) :
    ((matched c t filter onlyRoom).map JmapEmail.msgnum).Nodup ↔
      ∀ n r r', Found c t filter n r → Found c t filter n r' → r = r' := by
  constructor
  · intro hnodup n r r' hr hr'
    obtain ⟨e, he, hn, rfl⟩ := row_of_found honly hr
    obtain ⟨e', he', hn', rfl⟩ := row_of_found honly hr'
    rw [List.inj_on_of_nodup_map hnodup he he' (hn.trans hn'.symm)]
  · intro honce
    apply ((nodup_listEmails hkeyed).filter _).map_on
    intro e he e' he' hn
    obtain ⟨hfound, a, hload, ha⟩ := (mem_matched honly).mp he
    obtain ⟨hfound', b, hload', hb⟩ := (mem_matched honly).mp he'
    rw [← hn] at hfound' hload'
    have hroom : e.roomNum = e'.roomNum := honce _ _ _ hfound hfound'
    cases e
    cases e'
    simp_all

/-- What is listed is what is wanted, newest first, if nothing is listed twice. -/
theorem listing_matched (honly : onlyRoomOf c t filter = some onlyRoom)
    (hnodup : ((matched c t filter onlyRoom).map JmapEmail.msgnum).Nodup) :
    Listing c t filter ((matched c t filter onlyRoom).map JmapEmail.msgnum) where
  nodup := hnodup
  complete := by
    intro n
    rw [List.mem_map]
    constructor
    · rintro ⟨e, he, rfl⟩
      exact ⟨e.roomNum, ((mem_matched honly).mp he).1⟩
    · rintro ⟨roomNum, hfound⟩
      obtain ⟨e, he, hn, -⟩ := row_of_found honly hfound
      exact ⟨e, he, hn⟩
  newestFirst := by
    rw [List.pairwise_map]
    apply pairwise_matched.imp_of_mem
    intro e e' he he' hle a b ha hb
    obtain ⟨-, msg, hload, hreceived⟩ := (mem_matched honly).mp he
    obtain ⟨-, msg', hload', hreceived'⟩ := (mem_matched honly).mp he'
    rw [Option.some.inj (ha.symm.trans hload), Option.some.inj (hb.symm.trans hload')]
    omega

theorem ncard_wanted (honly : onlyRoomOf c t filter = some onlyRoom)
    (hnodup : ((matched c t filter onlyRoom).map JmapEmail.msgnum).Nodup) :
    {n | Wanted c t filter n}.ncard = (matched c t filter onlyRoom).length := by
  have hset : {n | Wanted c t filter n} =
      (((matched c t filter onlyRoom).map JmapEmail.msgnum).toFinset : Set Nat) := by
    ext n
    simp [← (listing_matched honly hnodup).complete n]
  rw [hset, Set.ncard_coe_finset, List.toFinset_card_of_nodup hnodup, List.length_map]

end Rows

/-! ## The pages -/

section Pages

variable {account : Bytes} {c : Ctx} {t : Tables} {filter : Json} {limit : ℕ+}

theorem pageLimit_toNat : (pageLimit (limit : ℕ)).toNat = min (limit : ℕ) 4096 := by
  unfold pageLimit
  split
  · omega
  · omega

/-- The pages are those of the list of rows. -/
theorem queryPages_eq {onlyRoom : Option Nat} (honly : onlyRoomOf c t filter = some onlyRoom)
    (k : Nat) :
    queryPages account c t filter limit k =
      pages ((matched c t filter onlyRoom).map fun e => idOf e.msgnum) limit
        (min (limit : ℕ) 4096) k := by
  induction k with
  | zero => rfl
  | succ k ih =>
    have hnonneg : ¬((k : Int) * ((limit : ℕ) : Int) < 0) :=
      Int.not_lt.mpr (Int.mul_nonneg (Int.natCast_nonneg k) (Int.natCast_nonneg _))
    have hposition : ((k : Int) * ((limit : ℕ) : Int)).toNat = k * limit := by
      rw [← Nat.cast_mul, Int.toNat_natCast]
    have hanswer : queryAt account c t filter limit (k * limit) =
        .ok ⟨account, accountState c t, false, (k * (limit : ℕ) : ℕ),
          page ((matched c t filter onlyRoom).map fun e => idOf e.msgnum) (k * limit)
            (min (limit : ℕ) 4096), some (matched c t filter onlyRoom).length⟩ := by
      rw [queryAt, emailQuery, if_neg (by simp), honly]
      simp [hnonneg, hposition, pageLimit_toNat]
    rw [queryPages, List.range_succ, List.flatMap_append, ← queryPages, ih, pages,
      List.flatMap_singleton, hanswer]

theorem queryTotal_eq {onlyRoom : Option Nat} (honly : onlyRoomOf c t filter = some onlyRoom) :
    (queryAt account c t filter limit 0).toOption.map QueryAnswer.total =
      some (some (matched c t filter onlyRoom).length) := by
  rw [queryAt, emailQuery, if_neg (by simp), honly]
  simp [Except.toOption]

/-- A mailbox that is not seen holds nothing that is wanted. -/
theorem not_wanted (honly : onlyRoomOf c t filter = none) (n : Nat) : ¬Wanted c t filter n := by
  rintro ⟨roomNum, hfound⟩
  unfold onlyRoomOf at honly
  split at honly
  · rename_i hhas
    rw [Option.map_eq_none_iff] at honly
    have hnamed := hfound.named hhas
    rw [honly] at hnamed
    cases hnamed
  · cases honly

/-- The pages partition what is wanted if the rows are without repetition and fit. -/
theorem partitions_iff_rows {onlyRoom : Option Nat}
    (honly : onlyRoomOf c t filter = some onlyRoom) :
    Partitions account c t filter limit ↔
      ((matched c t filter onlyRoom).map JmapEmail.msgnum).Nodup ∧
        ((limit : ℕ) ≤ 4096 ∨ (matched c t filter onlyRoom).length ≤ 4096) := by
  -- the ids of the rows, repetitions included
  have hids : (matched c t filter onlyRoom).map (fun e => idOf e.msgnum) =
      ((matched c t filter onlyRoom).map JmapEmail.msgnum).map idOf := by simp
  constructor
  · rintro ⟨ns, hlisting, ⟨enough, hpages⟩, htotal⟩
    have hlength : (matched c t filter onlyRoom).length = ns.length := by
      simpa [queryTotal_eq honly] using htotal
    have hall := hpages enough (Nat.le_refl _)
    rw [queryPages_eq honly] at hall
    obtain ⟨hlist, hsize⟩ := eq_of_length_pages (by rw [hall]; simp [hlength])
    have hns : (matched c t filter onlyRoom).map JmapEmail.msgnum = ns := by
      apply List.map_injective_iff.mpr (fun _ _ => idOf_inj)
      rw [← hids, ← hall, hlist]
    exact ⟨hns ▸ hlisting.nodup, by simpa using hsize⟩
  · rintro ⟨hnodup, hsize⟩
    refine ⟨_, listing_matched honly hnodup, ?_, ?_⟩
    · refine ⟨(matched c t filter onlyRoom).length + 1, fun k hk => ?_⟩
      rw [queryPages_eq honly, ← hids]
      exact pages_capped limit.pos (by simpa using hsize) (by simpa using hk)
    · rw [queryTotal_eq honly, List.length_map]

/-- A query that names a mailbox out of sight has empty pages, and nothing is wanted. -/
theorem partitions_unseen (honly : onlyRoomOf c t filter = none) :
    Partitions account c t filter limit := by
  have hanswer : ∀ position, queryAt account c t filter limit position =
      .ok ⟨account, accountState c t, false, 0, [], some 0⟩ := by
    intro position
    rw [queryAt, emailQuery, if_neg (by simp), honly]
  refine ⟨[], ⟨List.nodup_nil, fun n => ?_, List.Pairwise.nil⟩, ⟨0, fun k _ => ?_⟩, ?_⟩
  · simp [not_wanted honly n]
  · simp [queryPages, hanswer]
  · simp [hanswer, Except.toOption]

end Pages

/-- The pages of a query give every wanted message once, newest first, and the total counts
    them, exactly if no message is found in two mailboxes and the page size is within the cap
    or what is wanted is. -/
theorem emailQuery_partitions_iff (account : Bytes) (c : Ctx) (t : KeyedTables) (filter : Json)
    (limit : ℕ+) :
    Partitions account c t.toTables filter limit ↔
      (∀ n r r', Found c t.toTables filter n r → Found c t.toTables filter n r' → r = r') ∧
        ((limit : ℕ) ≤ 4096 ∨ {n | Wanted c t.toTables filter n}.ncard ≤ 4096) := by
  cases honly : onlyRoomOf c t.toTables filter with
  | none =>
    have hset : {n | Wanted c t.toTables filter n} = ∅ := by
      ext n
      simp [not_wanted honly n]
    have honce : ∀ n r r', Found c t.toTables filter n r → Found c t.toTables filter n r' →
        r = r' := fun n r _ hr _ => (not_wanted honly n ⟨r, hr⟩).elim
    exact ⟨fun _ => ⟨honce, by simp [hset]⟩, fun _ => partitions_unseen honly⟩
  | some onlyRoom =>
    rw [partitions_iff_rows honly, ← nodup_matched_iff t.keyed.pointers honly]
    constructor
    · rintro ⟨hnodup, hsize⟩
      exact ⟨hnodup, by rwa [ncard_wanted honly hnodup]⟩
    · rintro ⟨hnodup, hsize⟩
      exact ⟨hnodup, by rwa [ncard_wanted honly hnodup] at hsize⟩

/-- The message 1 is in both of Alice's rooms. -/
def sharedStore : Store := { desk.store with roomMsgs := [⟨4, 1⟩, ⟨5, 1⟩] }

theorem keyed_sharedStore : Keyed sharedStore := ⟨by decide, by decide⟩

def sharedDesk : KeyedTables := ⟨desk.withStore sharedStore, keyed_sharedStore⟩

/-- A message in two mailboxes is on the first page and on the second. -/
theorem not_partitions_shared :
    ¬∀ (account : Bytes) (c : Ctx) (t : KeyedTables) (filter : Json) (limit : ℕ+),
      Partitions account c t.toTables filter limit := by
  intro h
  have hrows := ((partitions_iff_rows rfl).mp (h (bytes "alice") alice sharedDesk .null 1)).1
  have htwice : (matched alice sharedDesk.toTables .null none).map JmapEmail.msgnum = [1, 1] := by
    decide +kernel
  revert hrows
  decide

end QuackMail.Jmap
