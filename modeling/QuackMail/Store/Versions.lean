import QuackMail.History.Object

/-! # One object, many savers

`UpsertByEuid` asks `FindByEuid` for the version it replaces, commits the new one and then
unlinks the one it was told of; whoever deletes an object asks `FindByEuid` too and then
calls `DeleteMessage`.  Each of these is a step of its own here, and any number of calls
take them in any order.
-/

namespace QuackMail.Versions

open Citadel Wiki

/-! ## Calls -/

/-- A call for one euid, by how far it has come. -/
inductive Call (euid : Bytes) where
  /-- `UpsertByEuid` was called -/
  | save (msg : Message) (about : msg.euid = euid)
  /-- `FindByEuid` has answered -/
  | found (msg : Message) (about : msg.euid = euid) (old : Option Nat)
  /-- the insert is committed -/
  | stored (created : Nat) (old : Option Nat)
  /-- the object is to be deleted -/
  | erase
  /-- `FindByEuid` has named the message to delete -/
  | erasing (msgnum : Nat)
  | done
  deriving DecidableEq

/-- The next step of a call for `euid` in the room. -/
def Call.advance (w : World) (room : Nat) {euid : Bytes} (s : Store) :
    Call euid → Store × Call euid
  | .save msg about =>
    if msg.euid = [] then (s, .done) else (s, .found msg about (findByEuid s room msg.euid))
  | .found msg _ old =>
    match insertMessage w s msg [room] with
    | (s', .error _) => (s', .done)
    | (s', .ok created) => (s', .stored created old)
  | .stored created old =>
    match old with
    | none => (s, .done)
    | some n => if n = created then (s, .done) else ((deleteMessage w s room n).1, .done)
  | .erase =>
    match findByEuid s room euid with
    | none => (s, .done)
    | some n => (s, .erasing n)
  | .erasing n => ((deleteMessage w s room n).1, .done)
  | .done => (s, .done)

/-- A save that nothing interrupts is `UpsertByEuid` where there is no history to write. -/
theorem advance_alone (w : World) (room : Nat) (s : Store) {msg : Message}
    (hplain : hooked s room msg.euid = false) :
    let asked := Call.advance w room s (.save msg rfl)
    let committed := Call.advance w room asked.1 asked.2
    let unlinked := Call.advance w room committed.1 committed.2
    unlinked = ((upsertByEuid w s msg room).1, .done) := by
  unfold upsertByEuid
  simp only [hplain, Call.advance, Bool.false_eq_true, if_false]
  by_cases heuid : msg.euid = []
  · simp only [heuid, if_true]
  · simp only [if_neg heuid, replaceByEuid]
    cases hins : insertMessage w s msg [room] with
    | mk s' r =>
      cases r with
      | error err => rfl
      | ok created =>
        cases findByEuid s room msg.euid with
        | none => rfl
        | some n => by_cases hn : n = created <;> simp [hn]

/-- What a call that has come this far still unlinks. -/
def Call.Unlinks {euid : Bytes} : Call euid → Nat → Prop
  | .stored created old, m => old = some m ∧ m ≠ created
  | .erasing n, m => n = m
  | _, _ => False

/-! ## Schedules -/

/-- The store, the calls, and the version stored last. -/
structure Office (euid : Bytes) where
  store : Store
  calls : Nat → Call euid
  last : Option Nat

/-- The number under which a call has just stored its message. -/
def Call.created {euid : Bytes} : Call euid → Option Nat
  | .stored created _ => some created
  | _ => none

/-- Call `k` takes a step. -/
def Office.step (room : Nat) {euid : Bytes} (y : Office euid) (a : World × Nat) : Office euid :=
  let r := (y.calls a.2).advance a.1 room y.store
  ⟨r.1, Function.update y.calls a.2 r.2, r.2.created.or y.last⟩

def Office.run (room : Nat) {euid : Bytes} (y : Office euid) (acts : List (World × Nat)) :
    Office euid :=
  acts.foldl (Office.step room) y

/-- The calls before any of them has taken a step. -/
def Office.opening (room : Nat) {euid : Bytes} (s : Store) (calls : Nat → Call euid) :
    Office euid :=
  ⟨s, calls, findByEuid s room euid⟩

/-- No version is left beside the one that call `k` is about to store: every version that is
    linked is the one it was told of, or another call is about to unlink it. -/
def Sole (room : Nat) {euid : Bytes} (y : Office euid) (a : World × Nat) : Prop :=
  match y.calls a.2 with
  | .found msg _ old =>
    quotaRefusal y.store [room] = none → a.1.fault msg = none →
      ∀ m ∈ rowsByEuid y.store room euid, old = some m ∨ ∃ k ≠ a.2, (y.calls k).Unlinks m
  | _ => True

/-- Every commit of a schedule keeps to that. -/
def AllSole (room : Nat) {euid : Bytes} : Office euid → List (World × Nat) → Prop
  | _, [] => True
  | y, a :: acts => Sole room y a ∧ AllSole room (y.step room a) acts

/-- At most one version is linked, it is the one stored last, and once it is deleted there
    is none. -/
def OneObject (room : Nat) {euid : Bytes} (y : Office euid) : Prop :=
  (rowsByEuid y.store room euid = [] ∨
      ∃ m, y.last = some m ∧ rowsByEuid y.store room euid = [m]) ∧
    ∀ w n, findByEuid y.store room euid = some n →
      findByEuid (deleteMessage w y.store room n).1 room euid = none

/-! ## One step -/

section Rows

variable {E : Nat → Message} {w : World} {s s' : Store} {room : Nat} {euid : Bytes}

theorem nodup_rowsByEuid (hok : Ok E s) : (rowsByEuid s room euid).Nodup :=
  hok.rowsNodup.sublist (List.filter_sublist.map _)

/-- A deletion takes one version and leaves the others. -/
theorem mem_rowsByEuid_delete {n m : Nat} : m ∈ rowsByEuid (deleteMessage w s room n).1 room euid ↔
      m ∈ rowsByEuid s room euid ∧ m ≠ n := by
  unfold deleteMessage
  by_cases hin : messageInRoom s room n = true
  · rw [if_pos hin]
    simp only [rowsByEuid, unlink_messages, mem_unlink, List.mem_map, List.mem_filter,
      decide_eq_true_eq, ne_eq, Pointer.mk.injEq, true_and]
    constructor
    · rintro ⟨r, ⟨hr, heuid, hp, hne⟩, rfl⟩
      exact ⟨⟨r, ⟨hr, heuid, hp⟩, rfl⟩, hne⟩
    · rintro ⟨⟨r, ⟨hr, heuid, hp⟩, rfl⟩, hne⟩
      exact ⟨r, ⟨hr, heuid, hp, hne⟩, rfl⟩
  · rw [if_neg hin]
    refine ⟨fun h => ⟨h, ?_⟩, And.left⟩
    -- what is not in the room is not among its versions
    rintro rfl
    simp only [rowsByEuid, List.mem_map, List.mem_filter, decide_eq_true_eq] at h
    obtain ⟨r, ⟨-, -, hp⟩, rfl⟩ := h
    exact hin (by simpa [messageInRoom] using hp)

/-- A refused insert links nothing. -/
theorem rowsByEuid_insert_error {msg : Message} {rooms : List Nat} {err : Bytes}
    (h : insertMessage w s msg rooms = (s', .error err)) :
    rowsByEuid s' room euid = rowsByEuid s room euid := by
  obtain ⟨-, rfl⟩ | ⟨-, rfl⟩ := insertMessage_refused h
  · rfl
  · rfl

/-- An accepted insert adds a version of its euid and no other. -/
theorem mem_rowsByEuid_insert {msg : Message} {created m : Nat} (hok : Ok E s)
    (h : insertMessage w s msg [room] = (s', .ok created)) :
    m ∈ rowsByEuid s' room euid ↔
      m = created ∧ msg.euid = euid ∨ m ∈ rowsByEuid s room euid ∧ m < created := by
  obtain ⟨rfl, -, hmembers, -, E', heq, hnew, hok'⟩ := insertMessage_ok hok h
  rw [mem_rowsByEuid hok', mem_rowsByEuid hok, hmembers, Set.mem_insert_iff]
  constructor
  · rintro ⟨hin | hin, heuid⟩
    · rw [hin, hnew] at heuid
      exact .inl ⟨hin, heuid⟩
    · have hlt := member_lt hok hin
      rw [heq m hlt] at heuid
      exact .inr ⟨⟨hin, heuid⟩, hlt⟩
  · rintro (⟨rfl, heuid⟩ | ⟨⟨hin, heuid⟩, hlt⟩)
    · refine ⟨.inl rfl, ?_⟩
      rw [hnew]
      exact heuid
    · rw [heq m hlt]
      exact ⟨.inr hin, heuid⟩

theorem ok_advance (hok : Ok E s) (c : Call euid) : ∃ E', Ok E' (c.advance w room s).1 := by
  have hdelete : ∀ n, ∃ E', Ok E' (deleteMessage w s room n).1 := fun n =>
    let ⟨E', _, hok', _⟩ := ok_step hok (w, .delete room n)
    ⟨E', hok'⟩
  cases c with
  | save msg about =>
    refine ⟨E, ?_⟩
    rw [Call.advance]
    split
    · exact hok
    · exact hok
  | found msg about old =>
    obtain ⟨E', -, hok', -⟩ := ok_step hok (w, .insert msg [room])
    refine ⟨E', ?_⟩
    simp only [step] at hok'
    simp only [Call.advance]
    cases hins : insertMessage w s msg [room] with
    | mk t r =>
      rw [hins] at hok'
      cases r with
      | error err => exact hok'
      | ok created => exact hok'
  | stored created old =>
    simp only [Call.advance]
    cases old with
    | none => exact ⟨E, hok⟩
    | some n =>
      simp only
      split
      · exact ⟨E, hok⟩
      · exact hdelete n
  | erase =>
    refine ⟨E, ?_⟩
    rw [Call.advance]
    cases findByEuid s room euid with
    | none => exact hok
    | some n => exact hok
  | erasing n => exact hdelete n
  | done => exact ⟨E, hok⟩

/-- A version appears only when it is committed. -/
theorem advance_created {c : Call euid} {n : Nat} (h : (c.advance w room s).2.created = some n) :
    ∃ msg about old, c = .found msg about old ∧
      insertMessage w s msg [room] = ((c.advance w room s).1, .ok n) ∧
      (c.advance w room s).2 = .stored n old := by
  cases c with
  | save msg about =>
    rw [Call.advance] at h
    split at h <;> cases h
  | found msg about old =>
    refine ⟨msg, about, old, rfl, ?_⟩
    simp only [Call.advance] at h ⊢
    cases hins : insertMessage w s msg [room] with
    | mk t r =>
      rw [hins] at h
      cases r with
      | error err => cases h
      | ok created =>
        obtain rfl := Option.some.inj h
        exact ⟨rfl, rfl⟩
  | stored created old =>
    simp only [Call.advance] at h
    cases old with
    | none => cases h
    | some m =>
      simp only at h
      split at h <;> cases h
  | erase =>
    rw [Call.advance] at h
    cases hfind : findByEuid s room euid with
    | none => rw [hfind] at h; cases h
    | some m => rw [hfind] at h; cases h
  | erasing m => cases h
  | done => cases h

/-- What is linked after a step was linked before it and not for that call to unlink, or has
    just been committed. -/
theorem rows_advance {c : Call euid} {m : Nat} (hok : Ok E s)
    (hm : m ∈ rowsByEuid (c.advance w room s).1 room euid) :
    (c.advance w room s).2.created = some m ∨
      m ∈ rowsByEuid s room euid ∧ ¬c.Unlinks m := by
  cases c with
  | save msg about =>
    rw [Call.advance] at hm
    split at hm
    · exact .inr ⟨hm, not_false⟩
    · exact .inr ⟨hm, not_false⟩
  | found msg about old =>
    simp only [Call.advance] at hm ⊢
    cases hins : insertMessage w s msg [room] with
    | mk t r =>
      rw [hins] at hm
      cases r with
      | error err => exact .inr ⟨rowsByEuid_insert_error hins ▸ hm, not_false⟩
      | ok created =>
        cases (mem_rowsByEuid_insert hok hins).mp hm with
        | inl hnew => exact .inl (congrArg some hnew.1.symm)
        | inr hold => exact .inr ⟨hold.1, not_false⟩
  | stored created old =>
    right
    simp only [Call.advance] at hm
    cases old with
    | none => exact ⟨hm, fun h => nomatch h.1⟩
    | some n =>
      simp only at hm
      split at hm
      case isTrue hn =>
        refine ⟨hm, fun h => h.2 ?_⟩
        rw [← hn]
        exact (Option.some.inj h.1).symm
      case isFalse hn =>
        obtain ⟨hin, hne⟩ := mem_rowsByEuid_delete.mp hm
        exact ⟨hin, fun h => hne (Option.some.inj h.1).symm⟩
  | erase =>
    rw [Call.advance] at hm
    cases hfind : findByEuid s room euid with
    | none => rw [hfind] at hm; exact .inr ⟨hm, not_false⟩
    | some n => rw [hfind] at hm; exact .inr ⟨hm, not_false⟩
  | erasing n =>
    obtain ⟨hin, hne⟩ := mem_rowsByEuid_delete.mp hm
    exact .inr ⟨hin, fun h => hne h.symm⟩
  | done => exact .inr ⟨hm, not_false⟩

end Rows

/-! ## Whole schedules -/

/-- What holds between steps: a version that is linked is the one stored last or is still
    to be unlinked by a call that knows of it. -/
structure Settling (room : Nat) {euid : Bytes} (y : Office euid) : Prop where
  ok : ∃ E, Ok E y.store
  pending : ∀ m ∈ rowsByEuid y.store room euid, y.last = some m ∨ ∃ k, (y.calls k).Unlinks m

variable {euid : Bytes} {room : Nat}

theorem settling_step {y : Office euid} (h : Settling room y)
    {a : World × Nat} (hsole : Sole room y a) :
    Settling room (y.step room a) := by
  obtain ⟨w, k⟩ := a
  obtain ⟨E, hok⟩ := h.ok
  refine ⟨ok_advance hok _, fun m hm => ?_⟩
  -- the calls that wait to unlink something wait for it after the step too
  have hother : ∀ j ≠ k, (y.calls j).Unlinks m →
      ∃ j, ((y.step room (w, k)).calls j).Unlinks m := by
    intro j hj hunlinks
    refine ⟨j, ?_⟩
    have hcalls : (y.step room (w, k)).calls j = y.calls j := Function.update_of_ne hj _ _
    rw [hcalls]
    exact hunlinks
  cases hcreated : ((y.calls k).advance w room y.store).2.created with
  | none =>
    -- nothing was committed, so the version stored last is the one it was
    have hlast : (y.step room (w, k)).last = y.last := by
      rw [Office.step, hcreated]
      rfl
    have hold := rows_advance hok hm
    rw [hcreated] at hold
    cases hold with
    | inl hnew => cases hnew
    | inr hold =>
      cases h.pending m hold.1 with
      | inl heq => exact .inl (hlast.trans heq)
      | inr hwait =>
        obtain ⟨j, hj⟩ := hwait
        refine .inr (hother j ?_ hj)
        rintro rfl
        exact hold.2 hj
  | some created =>
    obtain ⟨msg, about, old, hcall, hins, hnext⟩ := advance_created hcreated
    obtain ⟨hquota, hfault, -⟩ := insertMessage_accepted hins
    have hlast : (y.step room (w, k)).last = some created := by
      rw [Office.step, hcreated]
      rfl
    cases (mem_rowsByEuid_insert hok hins).mp hm with
    | inl hnew => exact .inl (by rw [hlast, hnew.1])
    | inr hold =>
      right
      unfold Sole at hsole
      simp only [hcall] at hsole
      cases hsole hquota hfault m hold.1 with
      | inl hknown =>
        -- the saver was told of this version and unlinks it next
        refine ⟨k, ?_⟩
        rw [Office.step]
        simp only [Function.update_self, hnext]
        exact ⟨hknown, Nat.ne_of_lt hold.2⟩
      | inr hwait =>
        obtain ⟨j, hj, hunlinks⟩ := hwait
        exact hother j hj hunlinks

/-- And only so: a commit that leaves a version behind leaves it to nobody. -/
theorem sole_of_settling {y : Office euid} (h : Settling room y)
    {a : World × Nat} (hnext : Settling room (y.step room a)) : Sole room y a := by
  obtain ⟨w, k⟩ := a
  obtain ⟨E, hok⟩ := h.ok
  unfold Sole
  cases hcall : y.calls k with
  | found msg about old =>
    intro hquota hfault m hm
    simp only at hfault
    have hins : insertMessage w y.store msg [room] =
        ((insertMessage w y.store msg [room]).1, .ok y.store.seq) := by
      simp [insertMessage, hquota, hfault]
    have hadvance : (y.calls k).advance w room y.store =
        ((insertMessage w y.store msg [room]).1, .stored y.store.seq old) := by
      rw [hcall]
      simp only [Call.advance]
      rw [hins]
    have hstep : (y.step room (w, k)).store = (insertMessage w y.store msg [room]).1 ∧
        (y.step room (w, k)).last = some y.store.seq ∧
        (y.step room (w, k)).calls = Function.update y.calls k (.stored y.store.seq old) := by
      rw [Office.step, hadvance]
      exact ⟨rfl, rfl, rfl⟩
    obtain ⟨hin, heuid⟩ := (mem_rowsByEuid hok).mp hm
    have hlt := member_lt hok hin
    have hstill : m ∈ rowsByEuid (y.step room (w, k)).store room euid := by
      rw [hstep.1]
      exact (mem_rowsByEuid_insert hok hins).mpr (.inr ⟨hm, hlt⟩)
    cases hnext.pending m hstill with
    | inl hlast =>
      rw [hstep.2.1] at hlast
      exact absurd (Option.some.inj hlast) hlt.ne'
    | inr hwait =>
      obtain ⟨j, hj⟩ := hwait
      rw [hstep.2.2] at hj
      by_cases hjk : j = k
      · rw [hjk, Function.update_self] at hj
        exact .inl hj.1
      · rw [Function.update_of_ne hjk] at hj
        exact .inr ⟨j, hjk, hj⟩
  | save msg about => trivial
  | stored created old => trivial
  | erase => trivial
  | erasing n => trivial
  | done => trivial

theorem settling_run : ∀ (acts : List (World × Nat)) {y : Office euid}, Settling room y →
      AllSole room y acts → Settling room (y.run room acts) := by
  intro acts
  induction acts with
  | nil => intro y h _; exact h
  | cons a acts ih => intro y h hsole; exact ih (settling_step h hsole.1) hsole.2

/-- Once nobody has anything left to unlink, the version stored last is alone. -/
theorem oneObject_of_settling {y : Office euid}
    (h : Settling room y) (hdone : ∀ k, y.calls k = .done) : OneObject room y := by
  obtain ⟨E, hok⟩ := h.ok
  have hlast : ∀ m ∈ rowsByEuid y.store room euid, y.last = some m := by
    intro m hm
    cases h.pending m hm with
    | inl heq => exact heq
    | inr hwait =>
      obtain ⟨k, hk⟩ := hwait
      rw [hdone k] at hk
      exact False.elim hk
  constructor
  · cases hrows : rowsByEuid y.store room euid with
    | nil => exact .inl rfl
    | cons m ms =>
      have hnodup : (rowsByEuid y.store room euid).Nodup := nodup_rowsByEuid hok
      rw [hrows] at hnodup hlast
      have hm := hlast m List.mem_cons_self
      refine .inr ⟨m, hm, ?_⟩
      cases ms with
      | nil => rfl
      | cons n ns =>
        have hn := hlast n (List.mem_cons_of_mem _ List.mem_cons_self)
        rw [hm] at hn
        rw [Option.some.inj hn] at hnodup
        exact absurd List.mem_cons_self (List.nodup_cons.mp hnodup).1
  · intro w n hfind
    have hne : euid ≠ [] := by
      rintro rfl
      cases hfind
    have hn := hlast n (by
      rw [findByEuid, if_neg hne] at hfind
      exact (List.max?_eq_some_iff.mp hfind).1)
    rw [findByEuid, if_neg hne, List.max?_eq_none_iff, List.eq_nil_iff_forall_not_mem]
    intro m hm
    obtain ⟨hin, hother⟩ := mem_rowsByEuid_delete.mp hm
    have heq := hlast m hin
    rw [hn] at heq
    exact hother (Option.some.inj heq).symm

/-- From any store the operations lead to that links at most one version: after every
    schedule whose commits leave no version behind, the calls that have all finished leave
    one object. -/
theorem one_object_of_sole (rooms : List Room) (config : List (Bytes × Bytes))
    (users : List (Bytes × Int)) (credentials : List Bytes) (quotas : List Limit)
    (past : List (World × Op)) (room : Nat) (euid : Bytes) (calls : Nat → Call euid)
    (acts : List (World × Nat)) :
    let start := Office.opening room (run (fresh rooms config users credentials quotas) past) calls
    (∀ m ∈ rowsByEuid start.store room euid, findByEuid start.store room euid = some m) →
    AllSole room start acts →
    (∀ k, (start.run room acts).calls k = .done) →
    OneObject room (start.run room acts) := by
  intro start hone hsole hdone
  obtain ⟨E, hok⟩ := ok_run rooms config users credentials quotas past
  have hstart : Settling room start := ⟨⟨E, hok⟩, fun m hm => .inl (hone m hm)⟩
  exact oneObject_of_settling (settling_run acts hstart hsole) hdone

/-- The object of two savers and a deleter. -/
def draft : Message := { Message.blank with euid := bytes "a", formatType := 4 }

def still : World := ⟨0, [], [], fun _ => none, fun _ _ => []⟩

def twoSavers : Nat → Call (bytes "a")
  | 0 => .save draft rfl
  | 1 => .save draft rfl
  | _ => .done

/-- A saver that was told of the first version stores a second one, and unlinks the first next. -/
theorem sole_of_settling_replacing :
    let start := Office.opening 7 (run (fresh [⟨7, 0, 0, 0, 0, 0⟩] [] [] [] [])
      [(still, .insert draft [7])]) twoSavers
    Sole 7 (start.step 7 (still, 0)) (still, 0) := by
  intro start
  obtain ⟨E, hok⟩ := ok_run [⟨7, 0, 0, 0, 0, 0⟩] [] [] [] [] [(still, .insert draft [7])]
  have hstart : Settling 7 start := ⟨⟨E, hok⟩, fun m hm => .inl (by revert m; decide +kernel)⟩
  have hfound : Settling 7 (start.step 7 (still, 0)) := settling_step hstart trivial
  obtain ⟨E', hok'⟩ := hfound.ok
  have hrows : rowsByEuid ((start.step 7 (still, 0)).step 7 (still, 0)).store 7 (bytes "a") =
      [1, 2] := by decide +kernel
  have hstored : ((start.step 7 (still, 0)).step 7 (still, 0)).calls 0 =
      .stored 2 (some 1) := by rfl
  refine sole_of_settling hfound ⟨ok_advance hok' _, fun m hm => ?_⟩
  rw [hrows, List.mem_cons, List.mem_singleton] at hm
  obtain rfl | rfl := hm
  · refine .inr ⟨0, ?_⟩
    rw [hstored]
    exact ⟨rfl, by decide⟩
  · exact .inl (by decide +kernel)

def twoSaversAndDeleter : Nat → Call (bytes "a")
  | 0 => .save draft rfl
  | 1 => .erase
  | 2 => .save draft rfl
  | _ => .done

/-- A deleter is told of the version that a saver replaces meanwhile; a second saver comes
    when the first has committed. -/
theorem one_object_of_sole_overlap :
    let start := Office.opening 7 (run (fresh [⟨7, 0, 0, 0, 0, 0⟩] [] [] [] [])
      [(still, .insert draft [7])]) twoSaversAndDeleter
    let finish := start.run 7 [(still, 0), (still, 1), (still, 0), (still, 2), (still, 1),
      (still, 2), (still, 0), (still, 2)]
    OneObject 7 finish ∧ finish.last = some 4 ∧ rowsByEuid finish.store 7 (bytes "a") = [4] := by
  refine ⟨one_object_of_sole [⟨7, 0, 0, 0, 0, 0⟩] [] [] [] [] [(still, .insert draft [7])] 7
    (bytes "a") twoSaversAndDeleter _ (by decide +kernel) ?_ ?_, by decide +kernel,
    by decide +kernel⟩
  · refine ⟨trivial, trivial, ?_, trivial, trivial, ?_, trivial, trivial, trivial⟩
    · intro _ _ m hm
      left
      revert m
      decide +kernel
    · intro _ _ m hm
      left
      revert m
      decide +kernel
  · intro k
    rcases k with _ | _ | _ | k
    · decide +kernel
    · decide +kernel
    · decide +kernel
    · rfl

/-- Two savers that find no version store one each: both stay linked, and once the newer one
    is deleted the older one is back. -/
theorem two_savers_two_versions :
    ¬∀ (rooms : List Room) (config : List (Bytes × Bytes)) (users : List (Bytes × Int))
      (credentials : List Bytes) (quotas : List Limit) (past : List (World × Op)) (room : Nat)
      (euid : Bytes) (calls : Nat → Call euid) (acts : List (World × Nat)),
      let start := Office.opening room
        (run (fresh rooms config users credentials quotas) past) calls
      (∀ m ∈ rowsByEuid start.store room euid, findByEuid start.store room euid = some m) →
      (∀ k, (start.run room acts).calls k = .done) →
      OneObject room (start.run room acts) := by
  intro h
  have hone := h [⟨7, 0, 0, 0, 0, 0⟩] [] [] [] [] [] 7 (bytes "a") twoSavers
    [(still, 0), (still, 1), (still, 0), (still, 1), (still, 0), (still, 1)] (by decide +kernel)
    (by
      intro k
      rcases k with _ | _ | k
      · decide +kernel
      · decide +kernel
      · rfl)
  have hback := hone.2 still 2 (by decide +kernel)
  revert hback
  decide +kernel

end QuackMail.Versions
