import QuackMail.Jmap.Patch

/-! # What a patch leaves

A patch files its additions before its removals, so that a message that is moved belongs to some
room all the time; but nobody looks whether an addition went through.  `patch_keeps_iff` says when
the message still belongs to a room in the end.
-/

namespace QuackMail.Jmap

open Citadel Imap LastWrite

variable {c : Ctx} {w : World} {fails : Nat → Bool} {msgnum : Nat} {patch : Json} {t : Tables}

/-! ## What a patch asks for -/

/-- The wants in the order in which they are filed: additions before removals. -/
def FiledBefore (a b : (Nat × Bool) × Nat) : Prop :=
  (a.1.2 = true ∧ b.1.2 = false) ∨ (a.1.2 = b.1.2 ∧ a.2 < b.2)

/-- Every member can be read, and no want that is filed up to this one is refused. -/
def Reached (c : Ctx) (t : Tables) (msgnum : Nat) (patch : Json) (step : (Nat × Bool) × Nat) :
    Prop :=
  (∀ m ∈ patch.members, readable m = true) ∧
    ∀ other ∈ (wantsOfAll c t msgnum patch).zipIdx, ¬FiledBefore step other →
      Passes c t msgnum other

theorem kept_iff {n : Nat} {steps : List ((Nat × Bool) × Nat)}
    (horder : steps.Pairwise (fun a b => a.1.2 = false → b.1.2 = false)) (before : Bool) :
    (last (files fails n) steps).getD before = true ↔
      (before = true ∨ ∃ step ∈ steps, step.1 = (n, true) ∧ fails step.2 = false) ∧
        ∀ step ∈ steps, step.1 = (n, false) → fails step.2 = true := by
  induction steps generalizing before with
  | nil => simp
  | cons step steps ih =>
    obtain ⟨hfirst, hrest⟩ := List.pairwise_cons.mp horder
    have hstep : (last (files fails n) (step :: steps)).getD before =
        (last (files fails n) steps).getD ((files fails n step).getD before) := by
      rw [last_cons]
      cases last (files fails n) steps with
      | none => rfl
      | some b => rfl
    rw [hstep, ih hrest]
    obtain ⟨⟨room, b⟩, i⟩ := step
    by_cases hfiles : room = n ∧ fails i = false
    · obtain ⟨rfl, hsuccess⟩ := hfiles
      simp only [files, hsuccess, List.mem_cons, forall_eq_or_imp, exists_eq_or_imp,
        Prod.mk.injEq, true_and, and_true]
      cases b with
      | true => simp
      | false =>
        -- a removal that succeeds is followed by removals only
        refine iff_of_false ?_ (by simp)
        rintro ⟨hadded | ⟨s, hs, hadds, -⟩, -⟩
        · cases hadded
        · have hremoval := hfirst s hs rfl
          rw [hadds] at hremoval
          cases hremoval
    · have hnothing : files fails n ((room, b), i) = none := if_neg hfiles
      rw [hnothing, Option.getD_none]
      simp only [List.mem_cons, forall_eq_or_imp, exists_eq_or_imp, Prod.mk.injEq]
      have hnoAddition : ¬((room = n ∧ b = true) ∧ fails i = false) :=
        fun h => hfiles ⟨h.1.1, h.2⟩
      have hnoRemoval : room = n ∧ b = false → fails i = true := by
        intro h
        by_contra hsuccess
        exact hfiles ⟨h.1, by simpa using hsuccess⟩
      rw [or_iff_right hnoAddition, and_iff_right hnoRemoval]

theorem keywordsFor_congr {v v' : Server} (h : v'.flags = v.flags) (username : Bytes)
    (msgnum : Nat) : keywordsFor v' username msgnum = keywordsFor v username msgnum := by
  rw [keywordsFor, keywordsFor, loadFlags, loadFlags, h]

/-! ### A desk with one message -/

def alice : Ctx := ⟨bytes "alice", 4⟩

/-- The message 1 in Alice's room 4, and her room 5 without it. -/
def desk : Tables where
  realm :=
    { dir :=
        { store :=
            { messages := [⟨{ Message.blank with msgnum := 1, formatType := 4 }, 0⟩]
              roomMsgs := [⟨4, 1⟩]
              tombstones := []
              rooms := [⟨4, 0, mailboxFlags, 0, 1, 1⟩, ⟨5, 0, mailboxFlags, 0, 1, 0⟩]
              seq := 2
              config := []
              users := [(bytes "alice", 1)]
              credentials := [bytes "alice"]
              quotas := [] }
          labels :=
            [⟨4, bytes "0000000001.Mail", bytes "Mail", []⟩,
              ⟨5, bytes "0000000001.Archive", bytes "Archive", []⟩]
          userSeq := 2
          roomSeq := 100 }
      acl := []
      levels := []
      unlocked := [] }
  flags := []
  zapped := []

def idle : World := ⟨0, [], [], fun _ => none, fun _ _ => []⟩

/-- Read, and moved from room 4 to room 5. -/
def movePatch : Json :=
  .object [(bytes "keywords/$seen", .boolean true), (bytes "mailboxIds/4", .null),
    (bytes "mailboxIds/5", .boolean true)]

end QuackMail.Jmap
