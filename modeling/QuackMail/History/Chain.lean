import QuackMail.History.Object
import QuackMail.History.Replay

/-! # Saving and walking back

Every save puts one patch in front of the history.  A revision that could be
reconstructed before still can be afterwards, as long as the history text gives the
patch back and the page is not refused once its patch is recorded.
-/

namespace QuackMail.Wiki

open Citadel Diff

/-! ## Reading revisions -/

/-- An entry as a revision. -/
def Entry.revision (e : Entry) : Revision := ⟨e.rev, e.timestamp, e.author, e.patch⟩

variable {page raw boundary : Bytes} {rev : Int} {roomNum : Nat} {s s' : Store} {es : List Entry}
   {E : Nat → Message} {old msg : Message} {w : World}

theorem revisionRaw_ok_iff : revisionRaw s roomNum page rev = .ok raw ↔
      ∃ cur, object s roomNum page = some cur ∧
        (if rev = 0 ∨ rev = cur.msgnum then cur.raw = raw
          else walk rev cur.raw (revisionsOf (oldHistory s roomNum page)) = .ok raw) := by
  constructor
  · intro h
    unfold revisionRaw at h
    cases hfind : (findByEuid s roomNum page).filter (0 < ·) with
    | none => simp [hfind] at h
    | some n =>
      cases hload : loadMessage s n with
      | none => simp [hfind, hload] at h
      | some cur =>
        have hobject : object s roomNum page = some cur := by
          rw [object, hfind, Option.bind_some, hload]
        have hnum : n = cur.msgnum := by
          have hsame := (object_eq_some hobject).1
          rw [Option.filter_eq_some_iff, hsame] at hfind
          exact (Option.some.inj hfind.1).symm
        subst hnum
        refine ⟨cur, hobject, ?_⟩
        simp only [hfind, hload] at h
        split
        · next hrev =>
          rw [if_pos hrev] at h
          exact Except.ok.inj h
        · next hrev =>
          rw [if_neg hrev] at h
          exact h
  · rintro ⟨cur, hobject, h⟩
    obtain ⟨hfind, hpos, hload⟩ := object_eq_some hobject
    rw [revisionRaw, hfind, Option.filter_some, if_pos (by simpa using hpos)]
    simp only [hload]
    split
    · next hrev =>
      rw [if_pos hrev] at h
      rw [h]
    · next hrev =>
      rw [if_neg hrev] at h
      exact h

/-- Only the numbers and the patches matter to the walk. -/
theorem walk_congr : ∀ {revs revs' : List Revision} (raw : Bytes),
      revs.map (fun r => (r.rev, r.diff)) = revs'.map (fun r => (r.rev, r.diff)) →
      walk rev raw revs = walk rev raw revs' := by
  intro revs
  induction revs with
  | nil =>
    intro revs' raw h
    rw [List.map_eq_nil_iff.mp h.symm]
  | cons r revs ih =>
    intro revs' raw h
    cases revs' with
    | nil => simp at h
    | cons r' revs' =>
      simp only [List.map_cons, List.cons.injEq, Prod.mk.injEq] at h
      obtain ⟨⟨hrev, hdiff⟩, hrest⟩ := h
      rw [walk, walk, hdiff, hrev]
      cases Diff.apply raw r'.diff with
      | error e => rfl
      | ok patched =>
        simp only
        rw [ih patched hrest]

/-- The last newline of a patch does not matter to the walk. -/
theorem walk_dropLast : ∀ {es : List Entry} (raw : Bytes), (∀ e ∈ es, IsPatch e.patch) →
      walk rev raw (es.map (fun e => { e.revision with diff := e.patch.dropLast })) =
        walk rev raw (es.map Entry.revision) := by
  intro es
  induction es with
  | nil => exact fun _ _ => rfl
  | cons e es ih =>
    intro raw h
    rw [List.map_cons, List.map_cons, walk, walk]
    rw [apply_dropLast (h e List.mem_cons_self), show e.revision.diff = e.patch from rfl]
    cases Diff.apply raw e.patch with
    | error e => rfl
    | ok patched =>
      simp only
      rw [ih patched fun e' he' => h e' (List.mem_cons_of_mem _ he')]

/-- A history as `RecordRevision` writes it; a page without one has no entries. -/
structure Recorded (s : Store) (roomNum : Nat) (page boundary : Bytes) (es : List Entry) : Prop where
  isBoundary : es ≠ [] → IsBoundary boundary
  text : oldHistory s roomNum page = if es = [] then [] else historyText boundary es
  kept : ∀ e ∈ es, e.Kept boundary
  numbers : ∀ e ∈ es, e.rev < s.seq

theorem Recorded.walk
    (h : Recorded s roomNum page boundary es) (hlen : es.length ≤ maxRevisions) (rev : Int)
    (raw : Bytes) :
    walk rev raw (revisionsOf (oldHistory s roomNum page)) = walk rev raw (es.map Entry.revision) := by
  by_cases hne : es = []
  · subst hne
    rw [h.text, if_pos rfl]
    rfl
  · rw [h.text, if_neg hne, ← walk_dropLast raw fun e he => (h.kept e he).isPatch]
    apply walk_congr
    rw [revisionsOf_historyText (h.isBoundary hne) h.kept, List.take_of_length_le (by simpa using hlen),
      List.map_map]
    rfl

/-! ## What a save does -/

theorem historyEuid_ne (page : Bytes) : historyEuid page ≠ page ∧ historyEuid page ≠ [] := by
  have hne : historySuffix ≠ [] := by decide
  simp [historyEuid, hne]

theorem object_lt (hok : Ok E s) {euid : Bytes}
    {m : Message} (h : object s roomNum euid = some m) : m.msgnum < s.seq := by
  obtain ⟨-, -, hload⟩ := object_eq_some h
  obtain ⟨r, hrow, hr⟩ := Option.map_eq_some_iff.mp hload
  obtain ⟨hmem, hnum⟩ := findRow_msgnum hrow
  have hlt := (hok.rows r hmem).2
  omega

/-- The patch that saving `newRaw` over `old` records. -/
def newPatch (newRaw : Bytes) (old : Message) : Bytes := unifiedDefault newRaw old.raw

/-- What `RecordRevision` does for a page that has an object: nothing anyone sees, or a
    history message with the patch. -/
inductive RecordOutcome (w : World) (s : Store) (roomNum : Nat) (page newRaw : Bytes)
    (old : Message) : Store → RecordResult → Prop
  | unchanged : RecordOutcome w s roomNum page newRaw old s .unchanged
  | refused {s' : Store} {err : Bytes}
      (seq : s.seq ≤ s'.seq)
      (objects : ∀ euid, object s' roomNum euid = object s roomNum euid)
      (views : ∀ r, defaultViewOf s' r = defaultViewOf s r) :
      RecordOutcome w s roomNum page newRaw old s' (.error err)
  | recorded {s' : Store}
      (changed : old.raw ≠ newRaw) (patch : newPatch newRaw old ≠ [])
      (seq : s.seq < s'.seq)
      (written : object s' roomNum (historyEuid page) =
        some (Message.under (recordMessage w s roomNum page old (newPatch newRaw old)) s.seq))
      (others : ∀ euid, euid ≠ [] → euid ≠ historyEuid page →
        object s' roomNum euid = object s roomNum euid)
      (views : ∀ r, defaultViewOf s' r = defaultViewOf s r) :
      RecordOutcome w s roomNum page newRaw old s' .recorded

theorem recordRevision_outcome (hok : Ok E s) (w : World)
    (hpage : isHistoryEuid page = false) (newRaw : Bytes)
    (hold : object s roomNum page = some old) (hne : page ≠ []) :
    RecordOutcome w s roomNum page newRaw old (recordRevision w s roomNum page newRaw).1
      (recordRevision w s roomNum page newRaw).2 := by
  obtain ⟨hfind, hpos, hload⟩ := object_eq_some hold
  have hguard : ¬(page = [] ∨ isHistoryEuid page = true) := by simp [hne, hpage]
  rw [recordRevision, if_neg hguard, hfind, Option.filter_some, if_pos (by simpa using hpos)]
  simp only [hload]
  by_cases hsame : old.raw = newRaw
  · rw [if_pos hsame]
    exact .unchanged
  rw [if_neg hsame]
  by_cases hpatch : unifiedDefault newRaw old.raw = []
  · rw [if_pos hpatch]
    exact .unchanged
  rw [if_neg hpatch]
  have heuid : (recordMessage w s roomNum page old (unifiedDefault newRaw old.raw)).euid =
      historyEuid page := rfl
  rw [upsertHistory, if_neg (by rw [heuid]; exact (historyEuid_ne page).2)]
  cases hrep : replaceByEuid w s (recordMessage w s roomNum page old (unifiedDefault newRaw old.raw))
      roomNum (findByEuid s roomNum
        (recordMessage w s roomNum page old (unifiedDefault newRaw old.raw)).euid) with
  | mk s' r =>
    cases r with
    | error err =>
      obtain ⟨-, hseq, hobjects, hviews⟩ := insertMessage_error (replaceByEuid_error hrep)
      exact .refused hseq (hobjects roomNum) hviews
    | ok n =>
      obtain ⟨-, hseq, hthis, hothers, hviews⟩ :=
        replaceByEuid_ok hok (by rw [heuid]; exact (historyEuid_ne page).2) hrep
      exact .recorded hsame hpatch hseq hthis hothers hviews

/-- A save that changes a page goes through: its patch is recorded, and neither the quota nor a
    statement refuses the page behind it. -/
structure GoesThrough (roomNum : Nat) (w : World) (s : Store) (msg : Message) : Prop where
  isRecorded : (recordRevision w s roomNum msg.euid msg.raw).2 = .recorded
  quota : quotaRefusal (recordRevision w s roomNum msg.euid msg.raw).1 [roomNum] = none
  fault : w.fault msg = none

/-- What saving a page does. -/
inductive SaveOutcome (w : World) (s : Store) (roomNum : Nat) (msg : Message) :
    Store → Except Bytes Nat → Prop
  | refused {s' : Store} {err : Bytes}
      (objects : ∀ euid, object s' roomNum euid = object s roomNum euid) :
      SaveOutcome w s roomNum msg s' (.error err)
  | first {s' : Store} {n : Nat}
      (absent : object s roomNum msg.euid = none)
      (number : s.seq ≤ n)
      (object' : object s' roomNum msg.euid = some (Message.under msg n))
      (others : ∀ euid, euid ≠ [] → euid ≠ msg.euid →
        object s' roomNum euid = object s roomNum euid) :
      SaveOutcome w s roomNum msg s' (.ok n)
  | abandoned {s' : Store} {err : Bytes} {old : Message}
      (present : object s roomNum msg.euid = some old)
      (changed : old.raw ≠ msg.raw) (patch : newPatch msg.raw old ≠ [])
      (written : (object s' roomNum (historyEuid msg.euid)).map Message.raw =
        some (recordMessage w s roomNum msg.euid old (newPatch msg.raw old)).raw)
      (object' : object s' roomNum msg.euid = some old)
      (isRecorded : (recordRevision w s roomNum msg.euid msg.raw).2 = .recorded)
      (refusal : ¬GoesThrough roomNum w s msg) :
      SaveOutcome w s roomNum msg s' (.error err)
  | replaced {s' : Store} {n : Nat} {old : Message}
      (present : object s roomNum msg.euid = some old)
      (changed : old.raw ≠ msg.raw) (patch : newPatch msg.raw old ≠ [])
      (written : (object s' roomNum (historyEuid msg.euid)).map Message.raw =
        some (recordMessage w s roomNum msg.euid old (newPatch msg.raw old)).raw)
      (number : s.seq ≤ n)
      (object' : object s' roomNum msg.euid = some (Message.under msg n))
      (through : GoesThrough roomNum w s msg) :
      SaveOutcome w s roomNum msg s' (.ok n)

/-- A message that is stored was refused by nothing. -/
theorem accepted_of_replaceByEuid {old : Option Nat} {n : Nat}
    (h : replaceByEuid w s msg roomNum old = (s', .ok n)) :
    quotaRefusal s [roomNum] = none ∧ w.fault msg = none := by
  unfold replaceByEuid at h
  split at h
  · cases h
  · next hins =>
    obtain ⟨hquota, hfault, -⟩ := insertMessage_accepted hins
    exact ⟨hquota, hfault⟩

theorem hooked_iff (hok : Ok E s)
    (hwiki : (defaultViewOf s roomNum).any isWikiView = true) (hpage : isHistoryEuid page = false) :
    hooked s roomNum page = (object s roomNum page).isSome := by
  have hroom : (getRoomByNum s roomNum).any (fun r => isWikiView r.defaultView) = true := by
    rw [← hwiki, defaultViewOf]
    cases getRoomByNum s roomNum <;> rfl
  rw [hooked, hpage, hroom]
  cases hobject : object s roomNum page with
  | none => rw [find_none_of_object hok hobject]; rfl
  | some m => rw [(object_eq_some hobject).1]; rfl

theorem upsertByEuid_outcome (hok : Ok E s) (w : World)
    (hwiki : (defaultViewOf s roomNum).any isWikiView = true)
    (hpage : isHistoryEuid msg.euid = false) :
    SaveOutcome w s roomNum msg (upsertByEuid w s msg roomNum).1 (upsertByEuid w s msg roomNum).2 ∧
      s.seq ≤ (upsertByEuid w s msg roomNum).1.seq ∧
      ∀ r, defaultViewOf (upsertByEuid w s msg roomNum).1 r = defaultViewOf s r := by
  rw [upsertByEuid]
  by_cases hne : msg.euid = []
  · rw [if_pos hne]
    exact ⟨.refused fun _ => rfl, Nat.le_refl _, fun _ => rfl⟩
  rw [if_neg hne]
  simp only [hooked_iff hok hwiki hpage]
  cases hobject : object s roomNum msg.euid with
  | none =>
    cases hrep : replaceByEuid w s msg roomNum (findByEuid s roomNum msg.euid) with
    | mk s' r =>
      cases r with
      | error err =>
        obtain ⟨-, hseq, hobjects, hviews⟩ := insertMessage_error (replaceByEuid_error hrep)
        exact ⟨.refused (hobjects roomNum), hseq, hviews⟩
      | ok n =>
        obtain ⟨rfl, hseq, hthis, hothers, hviews⟩ := replaceByEuid_ok hok hne hrep
        exact ⟨.first hobject (Nat.le_refl _) hthis hothers, hseq.le, hviews⟩
  | some old =>
    rw [if_pos (by rfl)]
    have hout := recordRevision_outcome hok w hpage msg.raw hobject hne
    obtain ⟨E₁, -, hok₁, -, -⟩ :=
      evolves_recordRevision 0 0 w s roomNum msg.euid msg.raw E hok hok.seqPos
    cases hrec : recordRevision w s roomNum msg.euid msg.raw with
    | mk s₁ result =>
      rw [hrec] at hout hok₁
      simp only at hout hok₁
      cases hout with
      | unchanged => exact ⟨.refused fun _ => rfl, Nat.le_refl _, fun _ => rfl⟩
      | refused hseq hobjects hviews => exact ⟨.refused hobjects, hseq, hviews⟩
      | recorded hchanged hpatch hseq hwritten hothers hviews =>
        have hpage_ne : msg.euid ≠ historyEuid msg.euid := (historyEuid_ne msg.euid).1.symm
        have hkeep : object s₁ roomNum msg.euid = some old := by
          rw [hothers _ hne hpage_ne, hobject]
        have hfind : findByEuid s roomNum msg.euid = findByEuid s₁ roomNum msg.euid := by
          rw [(object_eq_some hobject).1, (object_eq_some hkeep).1]
        simp only [hfind]
        cases hrep : replaceByEuid w s₁ msg roomNum (findByEuid s₁ roomNum msg.euid) with
        | mk s' r =>
          cases r with
          | error err =>
            obtain ⟨hrefusal, hseq', hobjects, hviews'⟩ :=
              insertMessage_error (replaceByEuid_error hrep)
            refine ⟨.abandoned hobject hchanged hpatch ?_ ?_ (by rw [hrec]) ?_,
              by simp only; omega, fun r => by rw [hviews', hviews]⟩
            · rw [hobjects, hwritten]
              rfl
            · rw [hobjects, hkeep]
            · rintro ⟨-, hquota, hfault⟩
              rw [hrec] at hquota
              cases hrefusal with
              | inl hrefused => exact hrefused hquota
              | inr hfaulty => exact hfaulty hfault
          | ok n =>
            obtain ⟨hquota, hfault⟩ := accepted_of_replaceByEuid hrep
            obtain ⟨rfl, hseq', hthis, hothers', hviews'⟩ := replaceByEuid_ok hok₁ hne hrep
            refine ⟨.replaced hobject hchanged hpatch ?_ (by omega) hthis
                ⟨by rw [hrec], by rw [hrec]; exact hquota, hfault⟩, by simp only; omega,
              fun r => by rw [hviews', hviews]⟩
            rw [hothers' _ (historyEuid_ne _).2 (historyEuid_ne _).1, hwritten]
            rfl

/-! ## Recording a revision -/

/-- The history text gives back the patch that is recorded for `old`: it does not end in
    CRLF and has no line that begins with the delimiter, the line numbers are within what
    the applier reads, and the number is an `int64`. -/
structure PatchKept (w : World) (s : Store) (roomNum : Nat) (page newRaw : Bytes) (old : Message) :
    Prop where
  ending : ¬bytes "\r\n" <:+ newPatch newRaw old
  quiet : ∀ line ∈ (split (newPatch newRaw old)).v,
    ¬opener (historyTail w (oldHistory s roomNum page)).1 <+: line
  newLines : (split newRaw).v.length < 10995116277770
  oldLines : (split old.raw).v.length < 10995116277770
  number : old.msgnum ≤ 0x7fffffffffffffff

theorem apply_unifiedDefault {newRaw oldRaw : Bytes} (hnew : (split newRaw).v.length < 10995116277770)
    (hold : (split oldRaw).v.length < 10995116277770) :
    Diff.apply newRaw (unifiedDefault newRaw oldRaw) = .ok oldRaw := by
  refine apply_emitted _ ⟨hnew, hold, fun hsrc hdst => ?_⟩
  have hle : maxD newRaw oldRaw 2000 ≤ 2000 := Nat.min_le_left _ _
  omega

def newEntry (newRaw : Bytes) (old : Message) : Entry :=
  ⟨old.msgnum, old.msgtime, old.author, newPatch newRaw old⟩

/-- The boundary a history is continued with is its own, or a fresh one where it has none. -/
theorem historyTail_recorded (h : Recorded s roomNum page boundary es) (w : World) :
    ∃ b, IsBoundary b ∧ historyTail w (oldHistory s roomNum page) = (b, partsOf b es) ∧
      ∀ e ∈ es, e.Kept b := by
  by_cases hne : es = []
  · subst hne
    rw [h.text, if_pos rfl]
    exact ⟨_, isBoundary_new w, historyTail_empty w, by simp⟩
  · rw [h.text, if_neg hne]
    exact ⟨boundary, h.isBoundary hne, historyTail_historyText (h.isBoundary hne) w es, h.kept⟩

/-- A recorded revision is one more entry at the front. -/
theorem Recorded.push {newRaw : Bytes} (hok : Ok E s)
    (h : Recorded s roomNum page boundary es) (hle : s.seq ≤ s'.seq) (hold : object s roomNum page = some old)
    (hpatch : newPatch newRaw old ≠ [])
    (hkept : PatchKept w s roomNum page newRaw old)
    (hwritten : (object s' roomNum (historyEuid page)).map Message.raw =
      some (recordMessage w s roomNum page old (newPatch newRaw old)).raw) :
    ∃ b, Recorded s' roomNum page b (newEntry newRaw old :: es) := by
  obtain ⟨b, hb, htail, hes⟩ := historyTail_recorded h w
  have hlt := object_lt hok hold
  have hisPatch : IsPatch (newPatch newRaw old) := isPatch_unified _ _ _ _ _
  refine ⟨b, fun _ => hb, ?_, ?_, ?_⟩
  · rw [oldHistory_eq, hwritten, if_neg (List.cons_ne_nil _ _),
      ← historyBody_eq (e := newEntry newRaw old) hisPatch hpatch es]
    simp only [recordMessage, htail]
    rfl
  · intro e he
    rcases List.mem_cons.mp he with rfl | he
    · have hquiet := hkept.quiet
      rw [htail] at hquiet
      exact ⟨hkept.number, hisPatch, hpatch, hkept.ending, hquiet⟩
    · exact hes e he
  · intro e he
    rcases List.mem_cons.mp he with rfl | he
    · simp only [newEntry]
      omega
    · have := h.numbers e he
      omega

/-- Without a new entry the history stays as it is. -/
theorem Recorded.keep (h : Recorded s roomNum page boundary es) (hle : s.seq ≤ s'.seq)
    (hsame : object s' roomNum (historyEuid page) = object s roomNum (historyEuid page)) :
    Recorded s' roomNum page boundary es := by
  refine ⟨h.isBoundary, ?_, h.kept, fun e he => ?_⟩
  · rw [oldHistory_eq, hsame, ← oldHistory_eq, h.text]
  · have := h.numbers e he
    omega

/-! ## Revisions that stay -/

theorem walk_mem {out : Bytes} :
    ∀ {revs : List Revision} {raw : Bytes}, walk rev raw revs = .ok out →
      ∃ r ∈ revs, r.rev = rev := by
  intro revs
  induction revs with
  | nil => exact fun h => by simp [walk] at h
  | cons r revs ih =>
    intro raw h
    rw [walk] at h
    cases hpatched : Diff.apply raw r.diff with
    | error e => simp [hpatched] at h
    | ok patched =>
      simp only [hpatched] at h
      by_cases hrev : r.rev = rev
      · exact ⟨r, List.mem_cons_self, hrev⟩
      · rw [if_neg hrev] at h
        obtain ⟨r', hr', hrev'⟩ := ih h
        exact ⟨r', List.mem_cons_of_mem _ hr', hrev'⟩

/-- `RevisionRaw` looks at the page and at its history. -/
theorem revisionRaw_congr (hpage : object s' roomNum page = object s roomNum page)
    (hhistory : object s' roomNum (historyEuid page) = object s roomNum (historyEuid page))
    (h : revisionRaw s roomNum page rev = .ok raw) :
    revisionRaw s' roomNum page rev = .ok raw := by
  rw [revisionRaw_ok_iff] at h ⊢
  rw [hpage, oldHistory_eq, hhistory, ← oldHistory_eq]
  exact h

/-- After a save that was recorded every older revision is one patch further away. -/
theorem revisionRaw_replaced {n : Nat} (hok : Ok E s)
    (hrec : Recorded s roomNum page boundary es) (hlen : es.length < maxRevisions)
    (hkept : PatchKept w s roomNum page msg.raw old)
    (hold : object s roomNum page = some old) (hnumber : s.seq ≤ n)
    (hnew : object s' roomNum page = some (Message.under msg n))
    {b : Bytes} (hpush : Recorded s' roomNum page b (newEntry msg.raw old :: es))
    (hrev : rev ≠ 0) (h : revisionRaw s roomNum page rev = .ok raw) :
    revisionRaw s' roomNum page rev = .ok raw := by
  have hlt := object_lt hok hold
  obtain ⟨cur, hcur, hraw⟩ := revisionRaw_ok_iff.mp h
  obtain rfl : old = cur := Option.some.inj (hold.symm.trans hcur)
  have happly : Diff.apply msg.raw (newEntry msg.raw old).revision.diff = .ok old.raw :=
    apply_unifiedDefault hkept.newLines hkept.oldLines
  refine revisionRaw_ok_iff.mpr ⟨_, hnew, ?_⟩
  rw [hpush.walk (by simpa using Nat.succ_le_of_lt hlen), List.map_cons, Wiki.walk,
    show (Message.under msg n).raw = msg.raw from rfl, happly]
  have hfirst : (newEntry msg.raw old).revision.rev = old.msgnum := rfl
  have hnum : (Message.under msg n).msgnum = n := rfl
  by_cases hsame : rev = old.msgnum
  · rw [if_pos (.inr hsame)] at hraw
    rw [if_neg (by omega), hfirst]
    simp only [hsame, if_true]
    rw [hraw]
  · rw [if_neg (by omega), hrec.walk hlen.le] at hraw
    -- the revision is one of the entries, all of them older than the new number
    obtain ⟨r, hr, rfl⟩ := walk_mem hraw
    obtain ⟨e, he, rfl⟩ := List.mem_map.mp hr
    have hentry : e.revision.rev = e.rev := rfl
    have hbound := hrec.numbers e he
    rw [if_neg (by omega), hfirst]
    simp only [Ne.symm hsame, if_false]
    exact hraw

/-! ## Calls of a page -/

/-- The calls of `UpsertByEuid` in turn, whatever each of them answers. -/
def saves (roomNum : Nat) (s : Store) (calls : List (World × Message)) : Store :=
  calls.foldl (fun s c => (upsertByEuid c.1 s c.2 roomNum).1) s

/-- `C` holds of every call and the state it is made in. -/
def EverySave (C : World → Store → Message → Prop) (roomNum : Nat) :
    Store → List (World × Message) → Prop
  | _, [] => True
  | s, c :: calls => C c.1 s c.2 ∧ EverySave C roomNum (upsertByEuid c.1 s c.2 roomNum).1 calls

/-- No revision but the current one can be reconstructed. -/
def OnlyCurrent (s : Store) (roomNum : Nat) (page : Bytes) : Prop :=
  ∀ rev raw, revisionRaw s roomNum page rev = .ok raw →
    rev = 0 ∨ (findByEuid s roomNum page).map Int.ofNat = some rev

/-- A call that hurts no revision: where it goes through, its patch goes into a history that
    gives it back and has room for it; and nothing refuses the page once its patch is recorded,
    unless there is no older revision to lose. -/
structure SaveKept (roomNum : Nat) (w : World) (s : Store) (msg : Message) : Prop where
  recording : GoesThrough roomNum w s msg → ∀ old, object s roomNum msg.euid = some old →
    PatchKept w s roomNum msg.euid msg.raw old ∧
      ∃ boundary es, Recorded s roomNum msg.euid boundary es ∧ es.length < maxRevisions
  accepted : (recordRevision w s roomNum msg.euid msg.raw).2 = .recorded →
    GoesThrough roomNum w s msg ∨ OnlyCurrent s roomNum msg.euid

section Calls

variable {E : Nat → Message} {s : Store} {roomNum : Nat} {w : World} {msg : Message}

/-- One call keeps every numbered revision, and a failed one also revision 0. -/
theorem revisionRaw_upsert (hok : Ok E s) (hwiki : (defaultViewOf s roomNum).any isWikiView = true)
    (hpage : isHistoryEuid msg.euid = false) (hkept : SaveKept roomNum w s msg) {rev : Int}
    (hrev : rev ≠ 0 ∨ ∃ err, (upsertByEuid w s msg roomNum).2 = .error err) {raw : Bytes}
    (h : revisionRaw s roomNum msg.euid rev = .ok raw) :
    revisionRaw (upsertByEuid w s msg roomNum).1 roomNum msg.euid rev = .ok raw := by
  obtain ⟨hout, hseq, -⟩ := upsertByEuid_outcome hok w hwiki hpage
  cases hcall : upsertByEuid w s msg roomNum with
  | mk s' r =>
    rw [hcall] at hout hrev hseq
    cases hout with
    | refused hobjects => exact revisionRaw_congr (hobjects _) (hobjects _) h
    | first habsent =>
      obtain ⟨cur, hcur, -⟩ := revisionRaw_ok_iff.mp h
      rw [habsent] at hcur
      simp at hcur
    | @abandoned _ old hold _ _ _ hsame hrecorded hrefusal =>
      -- only the current revision could be read, and the page is what it was
      rcases hkept.accepted hrecorded with hthrough | honly
      · exact absurd hthrough hrefusal
      · obtain ⟨cur, hcur, hraw⟩ := revisionRaw_ok_iff.mp h
        obtain rfl : old = cur := Option.some.inj (hold.symm.trans hcur)
        have hcurrent : rev = 0 ∨ rev = old.msgnum := by
          rcases honly rev raw h with h0 | hnum
          · exact .inl h0
          · rw [(object_eq_some hold).1] at hnum
            exact .inr (Option.some.inj hnum).symm
        rw [if_pos hcurrent] at hraw
        exact revisionRaw_ok_iff.mpr ⟨old, hsame, by rw [if_pos hcurrent, hraw]⟩
    | @replaced n old hold hchanged hpatch hwritten hnumber hnew hthrough =>
      obtain ⟨hpatchKept, boundary, es, hrec, hlen⟩ := hkept.recording hthrough old hold
      obtain ⟨b, hpush⟩ := hrec.push hok hseq hold hpatch hpatchKept hwritten
      have hne : rev ≠ 0 := by simpa using hrev
      exact revisionRaw_replaced hok hrec hlen hpatchKept hold hnumber hnew hpush hne h

end Calls

theorem revisionRaw_saves (hok : Ok E s) (hwiki : (defaultViewOf s roomNum).any isWikiView = true)
    (hpage : isHistoryEuid page = false) {calls : List (World × Message)}
    (heuid : ∀ c ∈ calls, c.2.euid = page) (hkept : EverySave (SaveKept roomNum) roomNum s calls)
    (hrev : rev ≠ 0) (h : revisionRaw s roomNum page rev = .ok raw) :
    revisionRaw (saves roomNum s calls) roomNum page rev = .ok raw := by
  induction calls generalizing E s with
  | nil => exact h
  | cons c calls ih =>
    obtain ⟨hthis, hrest⟩ := hkept
    have hc := heuid c List.mem_cons_self
    subst hc
    obtain ⟨E', -, hok', -⟩ := ok_step hok (c.1, .upsert c.2 roomNum)
    obtain ⟨-, -, hviews⟩ := upsertByEuid_outcome hok c.1 hwiki hpage
    refine ih hok' ?_ (fun c' hc' => heuid c' (List.mem_cons_of_mem _ hc')) hrest ?_
    · rw [← hwiki]
      exact congrArg (Option.any isWikiView) (hviews roomNum)
    · exact revisionRaw_upsert hok hwiki hpage hthis (.inl hrev) h

/-- A save that goes through is one more entry at the front. -/
theorem Recorded.saved {n : Nat} (hok : Ok E s)
    (hwiki : (defaultViewOf s roomNum).any isWikiView = true)
    (hpage : isHistoryEuid msg.euid = false) (h : Recorded s roomNum msg.euid boundary es)
    (hold : object s roomNum msg.euid = some old)
    (hkept : PatchKept w s roomNum msg.euid msg.raw old)
    (hcall : upsertByEuid w s msg roomNum = (s', .ok n)) :
    ∃ b, Recorded s' roomNum msg.euid b (newEntry msg.raw old :: es) := by
  obtain ⟨hout, hseq, -⟩ := upsertByEuid_outcome hok w hwiki hpage
  rw [hcall] at hout hseq
  cases hout with
  | first habsent =>
    rw [habsent] at hold
    simp at hold
  | replaced hpresent hchanged hpatch hwritten =>
    obtain rfl := Option.some.inj (hold.symm.trans hpresent)
    exact h.push hok hseq hold hpatch hkept hwritten

/-- Saving a page as it is leaves its history. -/
theorem Recorded.unchanged (hok : Ok E s) (w : World)
    (hwiki : (defaultViewOf s roomNum).any isWikiView = true)
    (hpage : isHistoryEuid msg.euid = false) (h : Recorded s roomNum msg.euid boundary es)
    (hold : object s roomNum msg.euid = some old) (hsame : old.raw = msg.raw) :
    Recorded (upsertByEuid w s msg roomNum).1 roomNum msg.euid boundary es := by
  obtain ⟨hout, hseq, -⟩ := upsertByEuid_outcome hok w hwiki hpage
  cases hcall : upsertByEuid w s msg roomNum with
  | mk s' r =>
    rw [hcall] at hout hseq
    cases hout with
    | refused hobjects => exact h.keep hseq (hobjects _)
    | first habsent =>
      rw [habsent] at hold
      simp at hold
    | abandoned hpresent hchanged =>
      obtain rfl := Option.some.inj (hold.symm.trans hpresent)
      exact absurd hsame hchanged
    | replaced hpresent hchanged =>
      obtain rfl := Option.some.inj (hold.symm.trans hpresent)
      exact absurd hsame hchanged

/-- What could be reconstructed before a failed save can be afterwards, and after any
    further calls as well. -/
theorem revisionRaw_failed_save (rooms : List Room) (config : List (Bytes × Bytes))
    (users : List (Bytes × Int)) (credentials : List Bytes) (quotas : List Limit)
    (past : List (World × Op)) (roomNum : Nat) (page : Bytes) (call : World × Message)
    (later : List (World × Message)) (rev : Int) (raw : Bytes)
    (hwiki : (defaultViewOf (run (fresh rooms config users credentials quotas) past) roomNum).any
      isWikiView = true)
    (hpage : isHistoryEuid page = false) (heuid : ∀ c ∈ call :: later, c.2.euid = page)
    (hkept : EverySave (SaveKept roomNum) roomNum
      (run (fresh rooms config users credentials quotas) past) (call :: later))
    (hfail : ∃ err, (upsertByEuid call.1 (run (fresh rooms config users credentials quotas) past)
      call.2 roomNum).2 = .error err)
    (h : revisionRaw (run (fresh rooms config users credentials quotas) past) roomNum page rev =
      .ok raw) :
    revisionRaw (saves roomNum (run (fresh rooms config users credentials quotas) past) [call])
        roomNum page rev = .ok raw ∧
      (rev ≠ 0 →
        revisionRaw (saves roomNum (run (fresh rooms config users credentials quotas) past)
          (call :: later)) roomNum page rev = .ok raw) := by
  obtain ⟨E, hok⟩ := ok_run rooms config users credentials quotas past
  have hc := heuid call List.mem_cons_self
  refine ⟨?_, fun hrev => revisionRaw_saves hok hwiki hpage heuid hkept hrev h⟩
  subst hc
  exact revisionRaw_upsert hok hwiki hpage hkept.1 (.inr hfail) h

/-- Two saves of a page under a quota: a third that comes to the same text is refused and
    harmless, and a fourth goes through; the first version is there throughout. -/
theorem revisionRaw_failed_save_unchanged :
    let w : World := ⟨0, [], [], fun _ => none, fun _ _ => []⟩
    let page : Bytes → Message :=
      fun raw => { Message.blank with euid := bytes "p", formatType := 4, raw := raw }
    let base := run (fresh [⟨10, 0, 0, 6, 0, 0⟩] [] [] [] [])
      [(w, .upsert (page (bytes "a\n")) 10), (w, .upsert (page (bytes "b\n")) 10)]
    revisionRaw (saves 10 base [(w, page (bytes "b\n"))]) 10 (bytes "p") 1 = .ok (bytes "a\n") ∧
      revisionRaw (saves 10 base [(w, page (bytes "b\n")), (w, page (bytes "c\n"))]) 10 (bytes "p")
        1 = .ok (bytes "a\n") := by
  intro w page base
  have hfirst : object base 10 (bytes "p") = some (Message.under (page (bytes "b\n")) 3) := by
    decide +kernel
  have hsecond : object (upsertByEuid w base (page (bytes "b\n")) 10).1 10 (bytes "p") =
      some (Message.under (page (bytes "b\n")) 3) := by
    decide +kernel
  -- the history is the one entry the second save put there, and the refused save leaves it
  let start := run (fresh [⟨10, 0, 0, 6, 0, 0⟩] [] [] [] []) [(w, .upsert (page (bytes "a\n")) 10)]
  obtain ⟨E, hok⟩ := ok_run [⟨10, 0, 0, 6, 0, 0⟩] [] [] [] [] [(w, .upsert (page (bytes "a\n")) 10)]
  obtain ⟨E', hok'⟩ := ok_run [⟨10, 0, 0, 6, 0, 0⟩] [] [] [] []
    [(w, .upsert (page (bytes "a\n")) 10), (w, .upsert (page (bytes "b\n")) 10)]
  have hold : object start 10 (bytes "p") = some (Message.under (page (bytes "a\n")) 1) := by
    decide +kernel
  have hempty : Recorded start 10 (page (bytes "b\n")).euid (newBoundary w) [] :=
    ⟨by simp, by decide +kernel, by simp, by simp⟩
  have hcall : upsertByEuid w start (page (bytes "b\n")) 10 = (base, .ok 3) :=
    Prod.ext (by simp only [base, start, run, List.foldl_cons, List.foldl_nil, step])
      (by decide +kernel)
  obtain ⟨boundary, hrecorded⟩ := hempty.saved hok (by decide +kernel) (by decide +kernel) hold
    ⟨by decide +kernel, by decide +kernel, by decide +kernel, by decide +kernel, by decide⟩ hcall
  have hrefused := hrecorded.unchanged hok' w (by decide +kernel) (by decide +kernel) hfirst rfl
  have hread : revisionRaw base 10 (bytes "p") 1 = .ok (bytes "a\n") := by
    refine revisionRaw_ok_iff.mpr ⟨_, hfirst, ?_⟩
    decide +kernel
  have hkept : EverySave (SaveKept 10) 10 base
      [(w, page (bytes "b\n")), (w, page (bytes "c\n"))] := by
    refine ⟨⟨?_, ?_⟩, ⟨?_, ?_⟩, trivial⟩
    · intro hthrough
      exact absurd hthrough.isRecorded (by decide +kernel)
    · intro hrec
      exact absurd hrec (by decide +kernel)
    · intro _ old hold
      rw [show (page (bytes "c\n")).euid = bytes "p" from rfl, hsecond, Option.some.injEq] at hold
      subst hold
      exact ⟨⟨by decide +kernel, by decide +kernel, by decide +kernel, by decide +kernel, by decide⟩,
        _, _, hrefused, by decide⟩
    · exact fun hrecorded => .inl ⟨hrecorded, by decide +kernel, by decide +kernel⟩
  have hkeep := revisionRaw_failed_save [⟨10, 0, 0, 6, 0, 0⟩] [] [] [] []
    [(w, .upsert (page (bytes "a\n")) 10), (w, .upsert (page (bytes "b\n")) 10)] 10 (bytes "p")
    (w, page (bytes "b\n")) [(w, page (bytes "c\n"))] 1 (bytes "a\n") (by decide +kernel)
    (by decide +kernel) (by decide +kernel) hkept ⟨bytes "no changes", by decide +kernel⟩ hread
  exact ⟨hkeep.1, hkeep.2 (by decide)⟩

/-- A mailbox whose quota the history message alone exhausts: the third save is refused
    with its patch recorded, and the first version is lost. -/
theorem refused_save_loses_revision : let w : World := ⟨0, [], [], fun _ => none, fun _ _ => []⟩
    let page : Bytes → Message :=
      fun raw => { Message.blank with euid := bytes "p", formatType := 4, raw := raw }
    let base := run (fresh [⟨10, 0, 0, 6, 1, 0⟩] [] [(bytes "u", 1)] [bytes "u"]
        [⟨bytes "u", 400, true⟩])
      [(w, .upsert (page (bytes "a\n")) 10), (w, .upsert (page (bytes "b\n")) 10)]
    revisionRaw base 10 (bytes "p") 1 = .ok (bytes "a\n") ∧
      (upsertByEuid w base (page (bytes "c\n")) 10).2 =
        .error (bytes "mailbox is over its storage quota: u") ∧
      revisionRaw (upsertByEuid w base (page (bytes "c\n")) 10).1 10 (bytes "p") 1 ≠
        .ok (bytes "a\n") := by
  decide +kernel

/-! ## The saves of a new page -/

/-- What the saves so far left: the page as it was saved last, and a history with at most
    as many entries as there were saves before. -/
structure Chain (s : Store) (roomNum : Nat) (page : Bytes) (count : Nat) : Prop where
  ok : ∃ E, Ok E s
  isWiki : (defaultViewOf s roomNum).any isWikiView = true
  recorded : ∃ boundary es, Recorded s roomNum page boundary es ∧ es.length ≤ count ∧
    (object s roomNum page = none → es = [])

/-- One successful save extends the chain, can itself be read, and keeps what could be
    read before. -/
theorem Chain.save {count n : Nat}
    (h : Chain s roomNum msg.euid count) (hcount : count < maxRevisions)
    (hpage : isHistoryEuid msg.euid = false)
    (hkept : ∀ old, object s roomNum msg.euid = some old →
      PatchKept w s roomNum msg.euid msg.raw old)
    (hcall : upsertByEuid w s msg roomNum = (s', .ok n)) :
    Chain s' roomNum msg.euid
        (if object s roomNum msg.euid = none then 0 else count + 1) ∧
      0 < n ∧ revisionRaw s' roomNum msg.euid n = .ok msg.raw ∧
      ∀ rev raw, rev ≠ 0 → revisionRaw s roomNum msg.euid rev = .ok raw →
        revisionRaw s' roomNum msg.euid rev = .ok raw := by
  obtain ⟨⟨E, hok⟩, hwiki, boundary, es, hrec, hlen, hnone⟩ := h
  obtain ⟨hout, hseq, hviews⟩ := upsertByEuid_outcome hok w hwiki hpage
  obtain ⟨E', -, hstep, -⟩ := ok_step hok (w, .upsert msg roomNum)
  have hok' : Ok E' (upsertByEuid w s msg roomNum).1 := hstep
  rw [hcall] at hout hseq hviews hok'
  have hwiki' : (defaultViewOf s' roomNum).any isWikiView = true := by rw [hviews, hwiki]
  have hcurrent : object s' roomNum msg.euid = some (Message.under msg n) →
      revisionRaw s' roomNum msg.euid n = .ok msg.raw := by
    intro hnew
    refine revisionRaw_ok_iff.mpr ⟨_, hnew, ?_⟩
    rw [if_pos (.inr rfl)]
    rfl
  cases hout with
  | first habsent hnumber hnew hothers =>
    have hes := hnone habsent
    subst hes
    have hhistory := hothers _ (historyEuid_ne msg.euid).2 (historyEuid_ne msg.euid).1
    refine ⟨⟨⟨E', hok'⟩, hwiki', boundary, [], hrec.keep hseq hhistory, Nat.zero_le _, fun _ => rfl⟩,
      ?_, hcurrent hnew, ?_⟩
    · have := hok.seqPos
      omega
    · intro rev raw _ hraw
      obtain ⟨cur, hcur, -⟩ := revisionRaw_ok_iff.mp hraw
      rw [habsent] at hcur
      simp at hcur
  | @replaced _ old hold hchanged hpatch hwritten hnumber hnew =>
    obtain ⟨b, hpush⟩ := hrec.push hok hseq hold hpatch (hkept old hold) hwritten
    refine ⟨⟨⟨E', hok'⟩, hwiki', b, _, hpush, ?_, ?_⟩, ?_, hcurrent hnew, ?_⟩
    · rw [if_neg (by simp [hold])]
      simpa using hlen
    · intro habsent
      rw [hnew] at habsent
      simp at habsent
    · have := hok.seqPos
      omega
    · intro rev raw hrev hraw
      exact revisionRaw_replaced hok hrec (by omega) (hkept old hold) hold hnumber hnew hpush hrev
        hraw

/-- Successful saves in turn, each with the number it got; `none` where one fails. -/
def saveAll (roomNum : Nat) : Store → List (World × Message) → Option (Store × List (Nat × Bytes))
  | s, [] => some (s, [])
  | s, c :: calls =>
    match upsertByEuid c.1 s c.2 roomNum with
    | (_, .error _) => none
    | (s', .ok n) => (saveAll roomNum s' calls).map (fun r => (r.1, (n, c.2.raw) :: r.2))

/-- After the saves everything saved can be read, and so can what could be before. -/
theorem revisionRaw_saveAll (hpage : isHistoryEuid page = false) :
    ∀ {calls : List (World × Message)} {s final : Store} {saved : List (Nat × Bytes)} {count : Nat},
      Chain s roomNum page count → (object s roomNum page = none → count = 0) →
      (object s roomNum page = none ∧ calls.length ≤ maxRevisions + 1 ∨
        count + calls.length ≤ maxRevisions) →
      (∀ c ∈ calls, c.2.euid = page) →
      EverySave (fun w s msg => ∀ old, object s roomNum msg.euid = some old →
        PatchKept w s roomNum msg.euid msg.raw old) roomNum s calls →
      saveAll roomNum s calls = some (final, saved) →
      (∀ p ∈ saved, revisionRaw final roomNum page p.1 = .ok p.2) ∧
        ∀ rev raw, rev ≠ 0 → revisionRaw s roomNum page rev = .ok raw →
          revisionRaw final roomNum page rev = .ok raw := by
  intro calls
  induction calls with
  | nil =>
    intro s final saved count _ _ _ _ _ h
    obtain ⟨rfl, rfl⟩ := h
    exact ⟨by simp, fun _ _ _ h => h⟩
  | cons c calls ih =>
    intro s final saved count hchain hzero hroom heuid hkept h
    obtain ⟨hthis, hrest⟩ := hkept
    have hc := heuid c List.mem_cons_self
    subst hc
    rw [saveAll] at h
    cases hcall : upsertByEuid c.1 s c.2 roomNum with
    | mk s' r =>
      cases r with
      | error err => simp [hcall] at h
      | ok n =>
        simp only [hcall, Option.map_eq_some_iff, Prod.mk.injEq] at h
        obtain ⟨⟨final', saved'⟩, hrun, rfl, rfl⟩ := h
        rw [hcall] at hrest
        simp only [List.length_cons] at hroom
        have hcount : count < maxRevisions := by
          rcases hroom with ⟨hnone, -⟩ | hroom
          · rw [hzero hnone]
            decide
          · omega
        obtain ⟨hchain', hpos, hnow, hkeep⟩ := hchain.save hcount hpage hthis hcall
        have hsome : object s' roomNum c.2.euid ≠ none := by
          obtain ⟨cur, hcur, -⟩ := revisionRaw_ok_iff.mp hnow
          simp [hcur]
        obtain ⟨hall, holder⟩ := ih hchain' (fun hnone => absurd hnone hsome)
          (.inr (by
            split
            · next hnone =>
              rcases hroom with ⟨-, hlen⟩ | hroom
              · omega
              · omega
            · next hnone =>
              rcases hroom with ⟨habsent, -⟩ | hroom
              · exact absurd habsent hnone
              · omega))
          (fun c' hc' => heuid c' (List.mem_cons_of_mem _ hc')) hrest hrun
        refine ⟨?_, fun rev raw hrev hraw => holder rev raw hrev (hkeep rev raw hrev hraw)⟩
        intro p hp
        rcases List.mem_cons.mp hp with rfl | hp
        · exact holder _ _ (by simp only [ne_eq, Nat.cast_eq_zero]; omega) hnow
        · exact hall p hp

/-- Every version of a new page, up to 2000 behind the current one, is read back as it
    was saved. -/
theorem revisionRaw_saved (rooms : List Room) (config : List (Bytes × Bytes))
    (users : List (Bytes × Int)) (credentials : List Bytes) (quotas : List Limit)
    (past : List (World × Op)) (roomNum : Nat) (page : Bytes) (calls : List (World × Message))
    (final : Store) (saved : List (Nat × Bytes))
    (hwiki : (defaultViewOf (run (fresh rooms config users credentials quotas) past) roomNum).any
      isWikiView = true)
    (hpage : isHistoryEuid page = false)
    (hnew : findByEuid (run (fresh rooms config users credentials quotas) past) roomNum page = none)
    (hhistory : findByEuid (run (fresh rooms config users credentials quotas) past) roomNum
      (historyEuid page) = none)
    (heuid : ∀ c ∈ calls, c.2.euid = page) (hlen : calls.length ≤ maxRevisions + 1)
    (hkept : EverySave (fun w s msg => ∀ old, object s roomNum msg.euid = some old →
      PatchKept w s roomNum msg.euid msg.raw old) roomNum
      (run (fresh rooms config users credentials quotas) past) calls)
    (hsaved : saveAll roomNum (run (fresh rooms config users credentials quotas) past) calls =
      some (final, saved)) :
    ∀ p ∈ saved, revisionRaw final roomNum page p.1 = .ok p.2 := by
  have hchain : Chain (run (fresh rooms config users credentials quotas) past) roomNum page 0 := by
    refine ⟨ok_run rooms config users credentials quotas past, hwiki, [], [], ?_, Nat.le_refl _,
      fun _ => rfl⟩
    refine ⟨fun hne => absurd rfl hne, ?_, by simp, by simp⟩
    rw [oldHistory, hhistory]
    rfl
  have hobject : object (run (fresh rooms config users credentials quotas) past) roomNum page =
      none := by
    rw [object, hnew]
    rfl
  exact (revisionRaw_saveAll hpage hchain (fun _ => rfl) (.inl ⟨hobject, hlen⟩) heuid hkept hsaved).1

/-- Two saves of a page in a wiki room. -/
theorem revisionRaw_saved_two : let w : World := ⟨0, [], [], fun _ => none, fun _ _ => []⟩
    let page : Bytes → Message :=
      fun raw => { Message.blank with euid := bytes "p", formatType := 4, raw := raw }
    let base := run (fresh [⟨10, 0, 0, 6, 0, 0⟩] [] [] [] []) []
    ∃ final, saveAll 10 base [(w, page (bytes "a\n")), (w, page (bytes "b"))] =
        some (final, [(1, bytes "a\n"), (3, bytes "b")]) ∧
      revisionRaw final 10 (bytes "p") 1 = .ok (bytes "a\n") ∧
      revisionRaw final 10 (bytes "p") 3 = .ok (bytes "b") := by
  intro w page base
  have hfirst : object (upsertByEuid w base (page (bytes "a\n")) 10).1 10 (bytes "p") =
      some (Message.under (page (bytes "a\n")) 1) := by
    decide +kernel
  have hrun : (saveAll 10 base [(w, page (bytes "a\n")), (w, page (bytes "b"))]).map Prod.snd =
      some [(1, bytes "a\n"), (3, bytes "b")] := by
    decide +kernel
  obtain ⟨⟨final, saved⟩, hsaved, rfl⟩ := Option.map_eq_some_iff.mp hrun
  have hread := revisionRaw_saved [⟨10, 0, 0, 6, 0, 0⟩] [] [] [] [] [] 10 (bytes "p")
    [(w, page (bytes "a\n")), (w, page (bytes "b"))] final _ (by decide +kernel) (by decide +kernel)
    (by decide) (by decide) (by decide) (by decide)
    (by
      refine ⟨?_, ?_, trivial⟩
      · intro old hold
        have hnone : object base 10 (bytes "p") = none := by decide +kernel
        exact absurd (hold.symm.trans hnone) (Option.some_ne_none old)
      · intro old hold
        rw [show (page (bytes "b")).euid = bytes "p" from rfl, hfirst, Option.some.injEq] at hold
        subst hold
        exact ⟨by decide +kernel, by decide +kernel, by decide +kernel, by decide +kernel, by decide⟩)
    hsaved
  exact ⟨final, hsaved, hread (1, bytes "a\n") (by simp), hread (3, bytes "b") (by simp)⟩

/-- The patch of a text of CRLF lines ends in CRLF, and the parser takes both bytes for
    the line ending of the part. -/
theorem crlf_revision_changed : let w : World := ⟨0, [], [], fun _ => none, fun _ _ => []⟩
    let page : Bytes → Message :=
      fun raw => { Message.blank with euid := bytes "p", formatType := 4, raw := raw }
    let base := run (fresh [⟨10, 0, 0, 6, 0, 0⟩] [] [] [] []) []
    let done := saveAll 10 base [(w, page (bytes "a\r\n")), (w, page (bytes "b\r\n"))]
    done.map (fun r => r.2) = some [(1, bytes "a\r\n"), (3, bytes "b\r\n")] ∧
      done.map (fun r => revisionRaw r.1 10 (bytes "p") 1) = some (.ok (bytes "a\n")) := by
  decide +kernel

end QuackMail.Wiki
