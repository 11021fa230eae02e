import QuackMail.Jmap.Keywords
import QuackMail.Jmap.Mailboxes

/-! # Patches of an email

`ApplyEmailPatch` and `ApplyMailboxWants` of `jmap_mail.cpp`.  The members of a patch are read
one after the other: keywords are set on the way, mailboxes are collected and filed at the
end, additions before removals.  Any call of `MoveMessage` or `DeleteMessage` may fail, and
nobody looks.
-/

namespace QuackMail.Jmap

open Citadel Imap LastWrite

/-! ## JSON -/

/-- `json::Value`; nothing here reads a number. -/
inductive Json where
  | null
  | boolean (b : Bool)
  | number
  | string (s : Bytes)
  | array (items : List Json)
  | object (members : List (Bytes × Json))

/-- `AsBool(false)`. -/
def Json.asBool : Json → Bool
  | .boolean b => b
  | _ => false

def Json.isObject : Json → Bool
  | .object _ => true
  | _ => false

def Json.members : Json → List (Bytes × Json)
  | .object members => members
  | _ => []

/-- `operator[]`: the first member of the name, or null. -/
def member (members : List (Bytes × Json)) (name : Bytes) : Json :=
  match members.find? (fun m => m.1 = name) with
  | some m => m.2
  | none => .null

/-! ## The members of a patch -/

/-- Which of the branches of `ApplyEmailPatch` takes a member. -/
inductive Kind where
  | keywords (members : List (Bytes × Json))
  | keyword (name : Bytes)
  | mailbox (id : Bytes)
  | mailboxes (members : List (Bytes × Json))
  | unknown

def kindOf (m : Bytes × Json) : Kind :=
  if m.1 = bytes "keywords" ∧ m.2.isObject = true then .keywords m.2.members
  else if (bytes "keywords/").isPrefixOf m.1 then .keyword (m.1.drop 9)
  else if (bytes "mailboxIds/").isPrefixOf m.1 then .mailbox (m.1.drop 11)
  else if m.1 = bytes "mailboxIds" ∧ m.2.isObject = true then .mailboxes m.2.members
  else .unknown

/-- A wholesale replacement: in everything named, out of everything not. -/
def replacement (c : Ctx) (t : Tables) (msgnum : Nat) (members : List (Bytes × Json)) :
    List (Nat × Bool) :=
  (jmapMailboxes c t).filterMap (fun room =>
    let want := (member members (idOf room.roomNum)).asBool
    if want ≠ messageInRoom t.store room.roomNum msgnum then some (room.roomNum, want) else none)

/-- The loop of `ApplyEmailPatch`, up to the mailboxes that are wanted. -/
def readMembers (c : Ctx) (msgnum : Nat) :
    List (Bytes × Json) → Tables → List (Nat × Bool) →
      Tables × Except Bytes (List (Nat × Bool))
  | [], t, wants => (t, .ok wants)
  | m :: rest, t, wants =>
    match kindOf m with
    | .keywords members =>
      let cleared := clearKeywords t.server c.username msgnum
      let set := members.foldl (fun v kv => setKeyword v c.username msgnum kv.1 kv.2.asBool) cleared
      readMembers c msgnum rest (t.withFlags set.flags) wants
    | .keyword name =>
      let set := setKeyword t.server c.username msgnum name m.2.asBool
      readMembers c msgnum rest (t.withFlags set.flags) wants
    | .mailbox id =>
      match idNum id with
      | none => (t, .error (bytes "no such mailbox"))
      | some n => readMembers c msgnum rest t (wants ++ [(n, m.2.asBool)])
    | .mailboxes members => readMembers c msgnum rest t (wants ++ replacement c t msgnum members)
    | .unknown => (t, .error (bytes "cannot set " ++ m.1))

/-- One pass of `ApplyMailboxWants`.  Every want carries its position, by which `fails` says
    whether its store call fails. -/
def wantsPass (c : Ctx) (w : World) (fails : Nat → Bool) (msgnum : Nat) (adding : Bool) :
    List ((Nat × Bool) × Nat) → Tables → Tables × Except Bytes Unit
  | [], t => (t, .ok ())
  | ((n, b), i) :: rest, t =>
    if b ≠ adding then wantsPass c w fails msgnum adding rest t
    else
      match resolveMailbox c t (idOf n) with
      | none => (t, .error (bytes "no such mailbox"))
      | some room =>
        if canPost t.realm c.username room = false then
          (t, .error (bytes "you cannot change that mailbox"))
        else if messageInRoom t.store room.roomNum msgnum = adding then
          wantsPass c w fails msgnum adding rest t
        else if adding then
          match loadEmailFor c t msgnum with
          | none => (t, .error (bytes "no such email"))
          | some (_, fromRoom) =>
            let moved := (moveMessage w t.store fromRoom room.roomNum msgnum true).1
            wantsPass c w fails msgnum adding rest (if fails i then t else t.withStore moved)
        else
          let deleted := (deleteMessage w t.store room.roomNum msgnum).1
          wantsPass c w fails msgnum adding rest (if fails i then t else t.withStore deleted)

/-- `ApplyMailboxWants`. -/
def applyMailboxWants (c : Ctx) (w : World) (fails : Nat → Bool) (msgnum : Nat)
    (wants : List (Nat × Bool)) (t : Tables) : Tables × Except Bytes Unit :=
  match wantsPass c w fails msgnum true wants.zipIdx t with
  | (t', .error why) => (t', .error why)
  | (t', .ok ()) => wantsPass c w fails msgnum false wants.zipIdx t'

/-- `ApplyEmailPatch`. -/
def applyEmailPatch (c : Ctx) (w : World) (fails : Nat → Bool) (msgnum : Nat) (patch : Json)
    (t : Tables) : Tables × Except Bytes Unit :=
  match readMembers c msgnum patch.members t [] with
  | (t', .error why) => (t', .error why)
  | (t', .ok wants) => applyMailboxWants c w fails msgnum wants t'

/-! ## Reading a patch -/

/-- A member that the loop does not stop at. -/
def readable (m : Bytes × Json) : Bool :=
  match kindOf m with
  | .mailbox id => (idNum id).isSome
  | .unknown => false
  | _ => true

/-- What a member does to the keywords. -/
def instrsOf (m : Bytes × Json) : List Instr :=
  match kindOf m with
  | .keywords members => .clear :: members.map (fun kv => .set kv.1 kv.2.asBool)
  | .keyword name => [.set name m.2.asBool]
  | _ => []

/-- The mailboxes a member makes wanted. -/
def wantsOf (c : Ctx) (t : Tables) (msgnum : Nat) (m : Bytes × Json) : List (Nat × Bool) :=
  match kindOf m with
  | .mailbox id => ((idNum id).map (fun n => (n, m.2.asBool))).toList
  | .mailboxes members => replacement c t msgnum members
  | _ => []

theorem withFlags_server {t : Tables} {v : Server} (h : v.store = t.store) :
    (t.withFlags v.flags).server = v := by
  obtain ⟨s, flags⟩ := v
  subst h
  rfl

theorem runAll_append (username : Bytes) (msgnum : Nat) (v : Server) (ops ops' : List Instr) :
    runAll username msgnum (runAll username msgnum v ops) ops' =
      runAll username msgnum v (ops ++ ops') := by
  rw [runAll, runAll, runAll, List.foldl_append]

/-- A `keywords` member clears the keywords and sets those it names. -/
theorem runAll_keywords (username : Bytes) (msgnum : Nat) (v : Server)
    (members : List (Bytes × Json)) :
    members.foldl (fun v kv => setKeyword v username msgnum kv.1 kv.2.asBool)
        (clearKeywords v username msgnum) =
      runAll username msgnum v (.clear :: members.map (fun kv => .set kv.1 kv.2.asBool)) := by
  rw [runAll, List.foldl_cons, List.foldl_map]
  rfl

/-- What the loop leaves: the keywords of the members before the first it stops at, and the
    wants of all of them if there is none. -/
theorem readMembers_eq (c : Ctx) (msgnum : Nat) (members : List (Bytes × Json)) (t : Tables)
    (wants : List (Nat × Bool)) :
    (readMembers c msgnum members t wants).1 =
        t.withFlags (runAll c.username msgnum t.server
          ((members.takeWhile readable).flatMap instrsOf)).flags ∧
      if members.all readable = true then
        (readMembers c msgnum members t wants).2 =
          .ok (wants ++ members.flatMap (wantsOf c t msgnum))
      else ∃ why, (readMembers c msgnum members t wants).2 = .error why := by
  induction members generalizing t wants with
  | nil =>
    refine ⟨rfl, ?_⟩
    rw [List.all_nil, if_pos rfl, List.flatMap_nil, List.append_nil]
    rfl
  | cons m rest ih =>
    -- a member that is read is carried out, and the rest is read in the tables it leaves
    have hread : readable m = true →
        readMembers c msgnum (m :: rest) t wants =
          readMembers c msgnum rest
            (t.withFlags (runAll c.username msgnum t.server (instrsOf m)).flags)
            (wants ++ wantsOf c t msgnum m) := by
      intro hreadable
      rw [readMembers]
      unfold readable at hreadable
      unfold instrsOf wantsOf
      cases hkind : kindOf m with
      | keywords members => simp only [runAll_keywords, List.append_nil]
      | keyword name => simp only [List.append_nil, runAll, List.foldl_cons, List.foldl_nil, Instr.run]
      | mailbox id =>
        rw [hkind] at hreadable
        obtain ⟨n, hn⟩ := Option.isSome_iff_exists.mp hreadable
        simp only [hn, Option.map_some, Option.toList_some]
        rfl
      | mailboxes members => rfl
      | unknown =>
        rw [hkind] at hreadable
        cases hreadable
    cases hreadable : readable m with
    | true =>
      have hserver : (t.withFlags (runAll c.username msgnum t.server (instrsOf m)).flags).server =
          runAll c.username msgnum t.server (instrsOf m) := withFlags_server store_runAll
      obtain ⟨htables, hwants⟩ := ih
        (t.withFlags (runAll c.username msgnum t.server (instrsOf m)).flags)
        (wants ++ wantsOf c t msgnum m)
      rw [hread hreadable]
      rw [hserver, runAll_append] at htables
      refine ⟨?_, ?_⟩
      · rw [htables, List.takeWhile_cons_of_pos hreadable, List.flatMap_cons]
        rfl
      · rw [List.all_cons, hreadable, Bool.true_and, List.flatMap_cons, ← List.append_assoc]
        exact hwants
    | false =>
      have hstop : ∃ why, readMembers c msgnum (m :: rest) t wants = (t, .error why) := by
        rw [readMembers]
        unfold readable at hreadable
        cases hkind : kindOf m with
        | keywords members => rw [hkind] at hreadable; cases hreadable
        | keyword name => rw [hkind] at hreadable; cases hreadable
        | mailbox id =>
          rw [hkind] at hreadable
          simp only at hreadable ⊢
          cases hid : idNum id with
          | some n => rw [hid] at hreadable; cases hreadable
          | none => exact ⟨_, rfl⟩
        | mailboxes members => rw [hkind] at hreadable; cases hreadable
        | unknown => exact ⟨_, rfl⟩
      obtain ⟨why, hstop⟩ := hstop
      rw [hstop, List.takeWhile_cons_of_neg (by simp [hreadable]), List.all_cons, hreadable]
      exact ⟨rfl, why, rfl⟩

/-! ## Filing -/

theorem takeWhile_congr {α : Type} {p q : α → Bool} {xs : List α} (h : ∀ x ∈ xs, p x = q x) :
    xs.takeWhile p = xs.takeWhile q := by
  induction xs with
  | nil => rfl
  | cons x xs ih =>
    rw [List.takeWhile_cons, List.takeWhile_cons, h x List.mem_cons_self,
      ih fun y hy => h y (List.mem_cons_of_mem _ hy)]

section Filing

variable {c : Ctx} {w : World} {fails : Nat → Bool} {msgnum : Nat} {t t' : Tables}

/-- The want of a step is not refused. -/
def Passes (c : Ctx) (t : Tables) (msgnum : Nat) (step : (Nat × Bool) × Nat) : Prop :=
  Writable c t step.1.1 ∧
    (step.1.2 = true → messageInRoom t.store step.1.1 msgnum = true ∨
      (loadEmailFor c t msgnum).isSome = true)

instance (c : Ctx) (t : Tables) (msgnum : Nat) : DecidablePred (Passes c t msgnum) :=
  fun _ => inferInstanceAs (Decidable (_ ∧ _))

/-- What a step does to the link of the message to a room: nothing if its call fails. -/
def files (fails : Nat → Bool) (n : Nat) (step : (Nat × Bool) × Nat) : Option Bool :=
  if step.1.1 = n ∧ fails step.2 = false then some step.1.2 else none

/-- What a step leaves that is not refused. -/
def filed (w : World) (fails : Nat → Bool) (msgnum : Nat) (t : Tables)
    (step : (Nat × Bool) × Nat) : Tables :=
  if messageInRoom t.store step.1.1 msgnum = step.1.2 ∨ fails step.2 = true then t
  else if step.1.2 then t.withStore (link t.store step.1.1 msgnum)
  else t.withStore (unlink w t.store step.1.1 msgnum)

theorem sameAccess_filed (step : (Nat × Bool) × Nat) :
    SameAccess t (filed w fails msgnum t step) := by
  unfold filed
  split
  · exact .refl t
  · split
    · exact .link t _ _
    · exact .unlink w t _ _

theorem flags_filed (step : (Nat × Bool) × Nat) :
    (filed w fails msgnum t step).flags = t.flags := by
  unfold filed
  split
  · rfl
  · split <;> rfl

theorem messageInRoom_filed (step : (Nat × Bool) × Nat) (n : Nat) :
    messageInRoom (filed w fails msgnum t step).store n msgnum =
      (files fails n step).getD (messageInRoom t.store n msgnum) := by
  obtain ⟨⟨room, b⟩, i⟩ := step
  unfold filed files
  by_cases hfails : fails i = true
  · rw [if_pos (.inr hfails), if_neg (by simp [hfails]), Option.getD_none]
  by_cases hin : messageInRoom t.store room msgnum = b
  · rw [if_pos (.inl hin)]
    split
    · next h => rw [Option.getD_some, ← h.1, hin]
    · rw [Option.getD_none]
  rw [if_neg (by simp [hin, hfails])]
  have hsuccess : fails i = false := by simpa using hfails
  cases b with
  | true =>
    rw [if_pos rfl]
    have hmem : (⟨n, msgnum⟩ : Pointer) ∈ (link t.store room msgnum).roomMsgs ↔
        ⟨n, msgnum⟩ ∈ t.store.roomMsgs ∨ room = n := by
      rw [mem_link, Pointer.mk.injEq, and_iff_left rfl, eq_comm (a := n)]
    by_cases hroom : room = n
    · rw [if_pos ⟨hroom, hsuccess⟩, Option.getD_some]
      exact decide_eq_true (hmem.mpr (.inr hroom))
    · rw [if_neg (by simp [hroom]), Option.getD_none]
      exact decide_eq_decide.mpr (hmem.trans (or_iff_left hroom))
  | false =>
    rw [if_neg Bool.false_ne_true]
    have hmem : (⟨n, msgnum⟩ : Pointer) ∈ (unlink w t.store room msgnum).roomMsgs ↔
        ⟨n, msgnum⟩ ∈ t.store.roomMsgs ∧ room ≠ n := by
      rw [mem_unlink, ne_eq, Pointer.mk.injEq, and_iff_left rfl, eq_comm (a := n)]
    by_cases hroom : room = n
    · rw [if_pos ⟨hroom, hsuccess⟩, Option.getD_some]
      exact decide_eq_false fun h => (hmem.mp h).2 hroom
    · rw [if_neg (by simp [hroom]), Option.getD_none]
      exact decide_eq_decide.mpr (hmem.trans (and_iff_left hroom))

/-- After a step of the same pass the same wants are refused. -/
theorem passes_filed {step next : (Nat × Bool) × Nat} (hsame : next.1.2 = step.1.2)
    (hpasses : Passes c t msgnum step) :
    Passes c (filed w fails msgnum t step) msgnum next ↔ Passes c t msgnum next := by
  have haccess : SameAccess t (filed w fails msgnum t step) := sameAccess_filed step
  unfold Passes
  rw [writable_congr haccess]
  refine and_congr_right fun _ => forall_congr' fun hadding => ?_
  by_cases hstill : messageInRoom t.store step.1.1 msgnum = step.1.2 ∨ fails step.2 = true
  · rw [filed, if_pos hstill]
  -- an addition that took effect was loaded from somewhere, and still can be
  rw [hsame] at hadding
  have hload : (loadEmailFor c t msgnum).isSome = true := by
    cases hpasses.2 hadding with
    | inl hin => exact absurd (.inl (hin.trans hadding.symm)) hstill
    | inr hload => exact hload
  refine iff_of_true (.inr ?_) (.inr hload)
  obtain ⟨⟨n, hsees, hin⟩, hrow⟩ := loadEmailFor_isSome.mp hload
  refine loadEmailFor_isSome.mpr ⟨⟨n, hsees.congr haccess, ?_⟩, ?_⟩
  · rw [messageInRoom_filed, files, hadding]
    split
    · rfl
    · exact hin
  · rw [loadMessage, findRow, haccess.messages]
    exact hrow

/-- A removal is refused after other steps exactly where it was refused before. -/
theorem passes_congr (h : SameAccess t t') {step : (Nat × Bool) × Nat} (hremoval : step.1.2 = false) :
    Passes c t' msgnum step ↔ Passes c t msgnum step := by
  unfold Passes
  rw [writable_congr h, hremoval]
  simp

theorem wantsPass_skip {adding : Bool} {step : (Nat × Bool) × Nat} {rest : List ((Nat × Bool) × Nat)}
    (h : step.1.2 ≠ adding) :
    wantsPass c w fails msgnum adding (step :: rest) t = wantsPass c w fails msgnum adding rest t := by
  rw [wantsPass, if_pos h]

/-- A want that passes is filed, one that does not stops the pass. -/
theorem wantsPass_cons (c : Ctx) (w : World) (fails : Nat → Bool) (msgnum : Nat) (t : Tables)
    (rest : List ((Nat × Bool) × Nat)) {step : (Nat × Bool) × Nat}
    (hbound : step.1.1 ≤ 0x7fffffffffffffff) :
    (Passes c t msgnum step →
      wantsPass c w fails msgnum step.1.2 (step :: rest) t =
        wantsPass c w fails msgnum step.1.2 rest (filed w fails msgnum t step)) ∧
    (¬Passes c t msgnum step →
      ∃ why, wantsPass c w fails msgnum step.1.2 (step :: rest) t = (t, .error why)) := by
  obtain ⟨⟨n, b⟩, i⟩ := step
  rw [wantsPass, if_neg (by simp)]
  unfold Passes Writable filed
  cases hresolve : resolveMailbox c t (idOf n) with
  | none =>
    exact ⟨fun h => (nomatch h.1), fun _ => ⟨_, rfl⟩⟩
  | some room =>
    obtain ⟨hid, hrow⟩ := resolveMailbox_roomNum hresolve
    rw [idNum_idOf hbound, Option.some.injEq] at hid
    subst hid
    simp only
    by_cases hpost : canPost t.realm c.username room = true
    swap
    · have hrefused : canPost t.realm c.username room = false := by simpa using hpost
      rw [if_pos hrefused]
      exact ⟨fun h => absurd h.1 hpost, fun _ => ⟨_, rfl⟩⟩
    rw [if_neg (by simp [hpost])]
    by_cases hin : messageInRoom t.store room.roomNum msgnum = b
    · rw [if_pos hin, if_pos (.inl hin)]
      refine ⟨fun _ => rfl, fun h => absurd ⟨hpost, fun hb => .inl (hin.trans hb)⟩ h⟩
    rw [if_neg hin]
    cases b with
    | false =>
      rw [if_neg Bool.false_ne_true]
      refine ⟨fun _ => ?_, fun h => absurd ⟨hpost, fun hb => nomatch hb⟩ h⟩
      have hmember : messageInRoom t.store room.roomNum msgnum = true := by simpa using hin
      by_cases hfails : fails i = true
      · rw [if_pos hfails, if_pos (.inr hfails)]
      · rw [if_neg hfails, if_neg (by simp [hmember, hfails]), if_neg Bool.false_ne_true,
          deleteMessage, if_pos hmember]
    | true =>
      rw [if_pos rfl]
      cases hload : loadEmailFor c t msgnum with
      | none =>
        refine ⟨fun h => ?_, fun _ => ⟨_, rfl⟩⟩
        cases h.2 rfl with
        | inl hmember => exact absurd hmember hin
        | inr hsome => cases hsome
      | some found =>
        obtain ⟨msg, fromRoom⟩ := found
        refine ⟨fun _ => ?_, fun h => absurd ⟨hpost, fun _ => .inr rfl⟩ h⟩
        simp only
        by_cases hfails : fails i = true
        · rw [if_pos hfails, if_pos (.inr hfails)]
        · -- the copy goes through: the message is in the room it was found in, and not here
          have hfrom := loadEmailFor_room hload
          have hdifferent : fromRoom ≠ room.roomNum := by
            rintro rfl
            exact hin hfrom
          rw [if_neg hfails, if_neg (by simp [hin, hfails]), if_pos trivial, moveMessage,
            if_pos hfrom, hrow]
          simp only
          rw [if_neg hdifferent, if_pos trivial]

/-- A pass files the wants that are its own, up to the first it refuses. -/
theorem wantsPass_eq (c : Ctx) (w : World) (fails : Nat → Bool) (msgnum : Nat) (adding : Bool)
    (all : List ((Nat × Bool) × Nat)) (t : Tables)
    (hbound : ∀ step ∈ all, step.1.1 ≤ 0x7fffffffffffffff) :
    (wantsPass c w fails msgnum adding all t).1 =
        ((all.filter (fun step => step.1.2 == adding)).takeWhile
          (fun step => decide (Passes c t msgnum step))).foldl (filed w fails msgnum) t ∧
      if (all.filter (fun step => step.1.2 == adding)).all
          (fun step => decide (Passes c t msgnum step)) = true then
        (wantsPass c w fails msgnum adding all t).2 = .ok ()
      else ∃ why, (wantsPass c w fails msgnum adding all t).2 = .error why := by
  induction all generalizing t with
  | nil =>
    refine ⟨rfl, ?_⟩
    rfl
  | cons step rest ih =>
    have hrest : ∀ s ∈ rest, s.1.1 ≤ 0x7fffffffffffffff :=
      fun s hs => hbound s (List.mem_cons_of_mem _ hs)
    by_cases hmine : step.1.2 = adding
    swap
    · rw [wantsPass_skip hmine, List.filter_cons_of_neg (by simpa using hmine)]
      exact ih t hrest
    subst hmine
    obtain ⟨hgo, hstop⟩ := wantsPass_cons c w fails msgnum t rest (hbound step List.mem_cons_self)
    rw [List.filter_cons_of_pos (by simp)]
    by_cases hpasses : Passes c t msgnum step
    · obtain ⟨htables, hresult⟩ := ih (filed w fails msgnum t step) hrest
      -- the rest of the pass is refused where it would have been refused at the start
      have hsame : ∀ s ∈ rest.filter (fun s => s.1.2 == step.1.2),
          (Passes c (filed w fails msgnum t step) msgnum s ↔ Passes c t msgnum s) :=
        fun s hs => passes_filed (by simpa using (List.mem_filter.mp hs).2) hpasses
      rw [hgo hpasses, List.takeWhile_cons_of_pos (by simpa using hpasses), List.foldl_cons]
      refine ⟨?_, ?_⟩
      · rw [htables]
        congr 1
        refine takeWhile_congr fun s hs => ?_
        exact decide_eq_decide.mpr (hsame s hs)
      · have hall : (rest.filter (fun s => s.1.2 == step.1.2)).all
              (fun s => decide (Passes c (filed w fails msgnum t step) msgnum s)) =
            (rest.filter (fun s => s.1.2 == step.1.2)).all
              (fun s => decide (Passes c t msgnum s)) := by
          rw [Bool.eq_iff_iff, List.all_eq_true, List.all_eq_true]
          refine forall₂_congr fun s hs => ?_
          rw [decide_eq_true_eq, decide_eq_true_eq, hsame s hs]
        rw [List.all_cons, decide_eq_true hpasses, Bool.true_and, ← hall]
        exact hresult
    · obtain ⟨why, hrefused⟩ := hstop hpasses
      rw [hrefused, List.takeWhile_cons_of_neg (by simpa using hpasses), List.foldl_nil,
        List.all_cons, decide_eq_false hpasses, Bool.false_and, if_neg Bool.false_ne_true]
      exact ⟨rfl, why, rfl⟩

/-- The wants in the order in which they are filed. -/
def stepsOf (wants : List (Nat × Bool)) : List ((Nat × Bool) × Nat) :=
  wants.zipIdx.filter (fun step => step.1.2 == true) ++
    wants.zipIdx.filter (fun step => step.1.2 == false)

/-- The wants that are carried out: those before the first that is refused. -/
def carried (c : Ctx) (t : Tables) (msgnum : Nat) (wants : List (Nat × Bool)) :
    List ((Nat × Bool) × Nat) :=
  (stepsOf wants).takeWhile (fun step => decide (Passes c t msgnum step))

/-- Every want passes. -/
def allPass (c : Ctx) (t : Tables) (msgnum : Nat) (wants : List (Nat × Bool)) : Bool :=
  (stepsOf wants).all (fun step => decide (Passes c t msgnum step))

theorem sameAccess_foldl (steps : List ((Nat × Bool) × Nat)) (t : Tables) :
    SameAccess t (steps.foldl (filed w fails msgnum) t) := by
  induction steps generalizing t with
  | nil => exact .refl t
  | cons step steps ih => exact (sameAccess_filed step).trans (ih _)

theorem flags_foldl (steps : List ((Nat × Bool) × Nat)) (t : Tables) :
    (steps.foldl (filed w fails msgnum) t).flags = t.flags := by
  induction steps generalizing t with
  | nil => rfl
  | cons step steps ih => rw [List.foldl_cons, ih, flags_filed]

theorem applyMailboxWants_eq (c : Ctx) (w : World) (fails : Nat → Bool) (msgnum : Nat)
    (wants : List (Nat × Bool)) (t : Tables)
    (hbound : ∀ want ∈ wants, want.1 ≤ 0x7fffffffffffffff) :
    (applyMailboxWants c w fails msgnum wants t).1 =
        (carried c t msgnum wants).foldl (filed w fails msgnum) t ∧
      if allPass c t msgnum wants = true then
        (applyMailboxWants c w fails msgnum wants t).2 = .ok ()
      else ∃ why, (applyMailboxWants c w fails msgnum wants t).2 = .error why := by
  have hsteps : ∀ step ∈ wants.zipIdx, step.1.1 ≤ 0x7fffffffffffffff :=
    fun step hstep => hbound step.1 (List.fst_mem_of_mem_zipIdx hstep)
  obtain ⟨hadded, hadding⟩ := wantsPass_eq c w fails msgnum true wants.zipIdx t hsteps
  unfold carried allPass stepsOf
  rw [List.all_append]
  cases hadds : (wants.zipIdx.filter (fun step => step.1.2 == true)).all
      (fun step => decide (Passes c t msgnum step)) with
  | false =>
    -- an addition is refused: the removals are not reached
    rw [hadds, if_neg Bool.false_ne_true] at hadding
    obtain ⟨why, hrefused⟩ := hadding
    have hpass : wantsPass c w fails msgnum true wants.zipIdx t =
        ((wantsPass c w fails msgnum true wants.zipIdx t).1, .error why) := Prod.ext rfl hrefused
    rw [applyMailboxWants, hpass, Bool.false_and, if_neg Bool.false_ne_true]
    refine ⟨?_, why, rfl⟩
    rw [hadded, List.takeWhile_append, if_neg]
    intro hlength
    have heq := List.takeWhile_eq_self_iff.mp
      ((List.takeWhile_sublist _).eq_of_length hlength)
    have hevery := List.all_eq_true.mpr heq
    rw [hadds] at hevery
    cases hevery
  | true =>
    rw [hadds, if_pos rfl] at hadding
    have hself := List.takeWhile_eq_self_iff.mpr (List.all_eq_true.mp hadds)
    have hpass : wantsPass c w fails msgnum true wants.zipIdx t =
        ((wantsPass c w fails msgnum true wants.zipIdx t).1, .ok ()) := Prod.ext rfl hadding
    rw [applyMailboxWants, hpass]
    obtain ⟨hremoved, hremoving⟩ := wantsPass_eq c w fails msgnum false wants.zipIdx
      (wantsPass c w fails msgnum true wants.zipIdx t).1 hsteps
    have haccess : SameAccess t (wantsPass c w fails msgnum true wants.zipIdx t).1 :=
      hadded ▸ sameAccess_foldl _ t
    have hsame : ∀ step ∈ wants.zipIdx.filter (fun step => step.1.2 == false),
        decide (Passes c (wantsPass c w fails msgnum true wants.zipIdx t).1 msgnum step) =
          decide (Passes c t msgnum step) := by
      intro step hstep
      exact decide_eq_decide.mpr (passes_congr haccess (by simpa using (List.mem_filter.mp hstep).2))
    have hall : (wants.zipIdx.filter (fun step => step.1.2 == false)).all (fun step =>
          decide (Passes c (wantsPass c w fails msgnum true wants.zipIdx t).1 msgnum step)) =
        (wants.zipIdx.filter (fun step => step.1.2 == false)).all (fun step =>
          decide (Passes c t msgnum step)) := by
      rw [Bool.eq_iff_iff, List.all_eq_true, List.all_eq_true]
      exact forall₂_congr fun step hstep => by rw [hsame step hstep]
    rw [hall] at hremoving
    refine ⟨?_, by rw [Bool.true_and]; exact hremoving⟩
    rw [hremoved, takeWhile_congr hsame, hadded, List.takeWhile_append, hself, if_pos rfl,
      List.foldl_append]

/-- The link to a room after the wants that are carried out. -/
theorem messageInRoom_foldl (steps : List ((Nat × Bool) × Nat)) (t : Tables) (n : Nat) :
    messageInRoom (steps.foldl (filed w fails msgnum) t).store n msgnum =
      (last (files fails n) steps).getD (messageInRoom t.store n msgnum) :=
  read_foldl (fun t : Tables => messageInRoom t.store n msgnum)
    (fun _ step => messageInRoom_filed step n) steps t

end Filing

/-! ## The whole patch -/

section Patch

variable {c : Ctx} {msgnum : Nat} {t : Tables}

/-- What the members that are read do to the keywords. -/
def instrs (patch : Json) : List Instr := (patch.members.takeWhile readable).flatMap instrsOf

/-- The mailboxes the patch makes wanted. -/
def wantsOfAll (c : Ctx) (t : Tables) (msgnum : Nat) (patch : Json) : List (Nat × Bool) :=
  patch.members.flatMap (wantsOf c t msgnum)

/-- `ApplyEmailPatch` refuses nothing. -/
def accepted (c : Ctx) (t : Tables) (msgnum : Nat) (patch : Json) : Bool :=
  patch.members.all readable && allPass c t msgnum (wantsOfAll c t msgnum patch)

/-- The wants that are carried out: none where a member is refused. -/
def carriedOut (c : Ctx) (t : Tables) (msgnum : Nat) (patch : Json) : List ((Nat × Bool) × Nat) :=
  if patch.members.all readable then carried c t msgnum (wantsOfAll c t msgnum patch) else []

/-- The numbers of the rooms fit into their column. -/
def BigintRooms (t : Tables) : Prop := ∀ room ∈ t.store.rooms, room.roomNum ≤ 0x7fffffffffffffff

instance (t : Tables) : Decidable (BigintRooms t) := List.decidableBAll _ _

theorem wantsOf_le (hrooms : BigintRooms t) {m : Bytes × Json} {want : Nat × Bool}
    (hwant : want ∈ wantsOf c t msgnum m) : want.1 ≤ 0x7fffffffffffffff := by
  unfold wantsOf at hwant
  cases hkind : kindOf m with
  | mailbox id =>
    rw [hkind, Option.mem_toList, Option.map_eq_some_iff] at hwant
    obtain ⟨n, hn, rfl⟩ := hwant
    exact idNum_eq_some hn
  | mailboxes members =>
    rw [hkind] at hwant
    obtain ⟨room, hroom, hwant⟩ := List.mem_filterMap.mp hwant
    simp only at hwant
    split at hwant
    · rw [← Option.some.inj hwant]
      exact hrooms room (mem_jmapMailboxes.mp hroom).1
    · cases hwant
  | keywords members => rw [hkind] at hwant; cases hwant
  | keyword name => rw [hkind] at hwant; cases hwant
  | unknown => rw [hkind] at hwant; cases hwant

/-- What `ApplyEmailPatch` does: the instructions of the members it reads, then the wants
    that are carried out. -/
theorem applyEmailPatch_tables (c : Ctx) (w : World) (fails : Nat → Bool) (msgnum : Nat)
    (patch : Json) {t : Tables} (hrooms : BigintRooms t) :
    (applyEmailPatch c w fails msgnum patch t).1 =
        (carriedOut c t msgnum patch).foldl (filed w fails msgnum)
          (t.withFlags (runAll c.username msgnum t.server (instrs patch)).flags) ∧
      if accepted c t msgnum patch = true then
        (applyEmailPatch c w fails msgnum patch t).2 = .ok ()
      else ∃ why, (applyEmailPatch c w fails msgnum patch t).2 = .error why := by
  obtain ⟨htables, hread⟩ := readMembers_eq c msgnum patch.members t []
  unfold accepted carriedOut
  cases hall : patch.members.all readable with
  | false =>
    rw [hall, if_neg Bool.false_ne_true] at hread
    obtain ⟨why, hwhy⟩ := hread
    have heq : readMembers c msgnum patch.members t [] =
        ((readMembers c msgnum patch.members t []).1, .error why) := Prod.ext rfl hwhy
    rw [applyEmailPatch, heq, Bool.false_and, if_neg Bool.false_ne_true, if_neg Bool.false_ne_true]
    rw [htables]
    exact ⟨rfl, why, rfl⟩
  | true =>
    rw [hall, if_pos rfl, List.nil_append] at hread
    have heq : readMembers c msgnum patch.members t [] =
        ((readMembers c msgnum patch.members t []).1, .ok (wantsOfAll c t msgnum patch)) :=
      Prod.ext rfl hread
    rw [applyEmailPatch, heq, Bool.true_and, if_pos rfl]
    rw [htables]
    -- the flags that were set are no table that the wants are decided on
    exact applyMailboxWants_eq c w fails msgnum (wantsOfAll c t msgnum patch)
      (t.withFlags (runAll c.username msgnum t.server (instrs patch)).flags) (by
        intro want hwant
        obtain ⟨m, -, hm⟩ := List.mem_flatMap.mp hwant
        exact wantsOf_le hrooms hm)

end Patch

end QuackMail.Jmap
