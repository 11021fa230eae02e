import QuackMail.Imap.Mailboxes

/-! # What a grant is worth

A grant is stored under the identifier as it was spelled, and read and revoked under the
identifier up to case.  As long as every identifier is spelled one way, a call of `SetRights`
and a SETACL do what they say; the first grant in another spelling leaves two rows, of which
one is read.  SETACL looks for what it edits up to ASCII case only.
-/

namespace QuackMail.Citadel

open Imap

/-! ## Calls -/

/-- The calls that change the access list of a room. -/
inductive AccessCall where
  | setRights (room : Room) (identifier rights : Bytes)
  | setAcl (user : Bytes) (room : Room) (args : List Bytes)

def callStep (m : Realm) : AccessCall → Realm
  | .setRights room identifier rights => (setRights m room identifier rights).1
  | .setAcl user room args => (aclRoom m user room .setAcl args).1

/-- What `EffectiveRights` adds to the derived rights. -/
def storedPart (m : Realm) (username : Bytes) (room : Room) : Bytes :=
  let everybody := storedRights m room.roomNum anyone
  if anonymous username then everybody
  else unionRights everybody (storedRights m room.roomNum username)

/-- Every room lists an identifier once, whatever its spelling. -/
def ListedOnce (m : Realm) : Prop :=
  ∀ room, ((listRights m room).map (fun e => m.dir.sqlLower e.1)).Nodup

/-- The call does what it says: the stored part is the rights that were set, for every
    spelling of the identifier; a sign changes the letters that are named. -/
def TakesEffect (m : Realm) : AccessCall → Prop
  | .setRights room identifier rights =>
    (setRights m room identifier rights).2 = .ok () → m.dir.sqlLower identifier ≠ anyone →
      ∀ spelled, m.dir.sqlLower spelled = m.dir.sqlLower identifier →
        storedPart (setRights m room identifier rights).1 spelled room =
          unionRights rights (storedRights (setRights m room identifier rights).1 room.roomNum anyone)
  | .setAcl user room args =>
    ch 'a' ∈ effectiveRights m user room → 3 ≤ args.length → args.getD 1 [] ≠ [] →
      ∀ sign named, args.getD 2 [] = sign :: named → sign = ch '+' ∨ sign = ch '-' →
        ∀ spelled, m.dir.sqlLower spelled = m.dir.sqlLower (args.getD 1 []) → ∀ right ∈ kAclRights,
          right ∈ storedRights (aclRoom m user room .setAcl args).1 room.roomNum spelled ↔
            if sign = ch '+' then
              right ∈ storedRights m room.roomNum spelled ∨ right ∈ named
            else right ∈ storedRights m room.roomNum spelled ∧ right ∉ named

/-- In every state of the run identifiers are listed once, and every call takes effect. -/
def Effective : Realm → List AccessCall → Prop
  | m, [] => ListedOnce m
  | m, call :: calls => ListedOnce m ∧ TakesEffect m call ∧ Effective (callStep m call) calls

/-- No row of the room has the identifier in another spelling. -/
def SpelledAlike (m : Realm) (room : Room) (identifier : Bytes) : Prop :=
  ∀ g ∈ m.acl, g.roomNum = room.roomNum →
    m.dir.sqlLower g.identifier = m.dir.sqlLower identifier → g.identifier = identifier

/-- What a row holds that SETACL does not find, as its spelling differs in more than ASCII
    letters, is taken away by name. -/
def TakesAll (m : Realm) (room : Room) (identifier : Bytes) (sign : Byte) (named : Bytes) : Prop :=
  ∀ g ∈ m.acl, g.roomNum = room.roomNum →
    m.dir.sqlLower g.identifier = m.dir.sqlLower identifier →
      upper g.identifier ≠ upper identifier →
        ∀ right ∈ kAclRights, right ∈ g.rights → sign = ch '-' ∧ right ∈ named

/-- `SetRights` knows every letter. -/
def KnownRights (rights : Bytes) : Prop := ∀ c ∈ rights, c ∈ kAclRights ∨ c = 0

/-- The call grants nothing, or under the spelling that is there; an edit that leaves nothing
    takes all there is. -/
def GrantsAlike (m : Realm) : AccessCall → Prop
  | .setRights room identifier rights =>
    identifier ≠ [] → KnownRights rights → rights ≠ [] → SpelledAlike m room identifier
  | .setAcl user room args =>
    ch 'a' ∈ effectiveRights m user room → 3 ≤ args.length → args.getD 1 [] ≠ [] →
      (KnownRights (wantedRights m room (args.getD 1 []) (args.getD 2 [])) →
        wantedRights m room (args.getD 1 []) (args.getD 2 []) ≠ [] →
          SpelledAlike m room (args.getD 1 [])) ∧
      (wantedRights m room (args.getD 1 []) (args.getD 2 []) = [] →
        ∀ sign named, args.getD 2 [] = sign :: named → sign = ch '+' ∨ sign = ch '-' →
          TakesAll m room (args.getD 1 []) sign named)

def EachCall (C : Realm → AccessCall → Prop) : Realm → List AccessCall → Prop
  | _, [] => True
  | m, call :: calls => C m call ∧ EachCall C (callStep m call) calls

variable {m : Realm} {room : Room} {identifier rights : Bytes}

/-! ## Letter case -/

theorem upper_eq_iff (a b : Bytes) : upper a = upper b ↔ lower a = lower b := by
  have hup : ∀ c, toUpper (toLower c) = toUpper c := forall_byte (by decide +kernel)
  have hlow : ∀ c, toLower (toUpper c) = toLower c := forall_byte (by decide +kernel)
  have hupper : ∀ s, upper (lower s) = upper s := fun s => by
    rw [upper, lower, List.map_map, upper]
    exact List.map_congr_left fun c _ => hup c
  have hlower : ∀ s, lower (upper s) = lower s := fun s => by
    rw [upper, lower, List.map_map, lower]
    exact List.map_congr_left fun c _ => hlow c
  constructor
  · intro h
    rw [← hlower a, h, hlower]
  · intro h
    rw [← hupper a, h, hupper]

/-! ## The rows of an identifier -/

/-- The row is one of the identifier's, in whatever spelling. -/
def Matches (sql : SqlLower) (room : Room) (identifier : Bytes) (g : Grant) : Prop :=
  g.roomNum = room.roomNum ∧ sql g.identifier = sql identifier

theorem storedRights_none (h : ∀ g ∈ m.acl, ¬Matches m.dir.sqlLower room identifier g) :
    storedRights m room.roomNum identifier = [] := by
  rw [storedRights, List.find?_eq_none.mpr fun g hg => by simpa [Matches] using h g hg]

theorem storedRights_of {g : Grant} (hg : g ∈ m.acl) (hmatch : Matches m.dir.sqlLower room identifier g)
    (h : ∀ g' ∈ m.acl, Matches m.dir.sqlLower room identifier g' → g'.rights = g.rights) :
    storedRights m room.roomNum identifier = g.rights := by
  rw [storedRights]
  cases hfind : m.acl.find? (fun g => g.roomNum = room.roomNum ∧
      m.dir.sqlLower g.identifier = m.dir.sqlLower identifier) with
  | none => exact absurd (List.find?_eq_none.mp hfind g hg) (by simpa [Matches] using hmatch)
  | some g' =>
    have hmatch' : Matches m.dir.sqlLower room identifier g' := by simpa [Matches] using List.find?_some hfind
    exact h g' (List.mem_of_find?_eq_some hfind) hmatch'

/-- Listing identifiers once is a key of the table. -/
theorem listedOnce_iff : ListedOnce m ↔
    (m.acl.map (fun g => (g.roomNum, m.dir.sqlLower g.identifier))).Nodup := by
  have hroom : ∀ room : Room, ((listRights m room).map (fun e => m.dir.sqlLower e.1)).Nodup ↔
      ((m.acl.filter (fun g => g.roomNum = room.roomNum)).map
        (fun g => m.dir.sqlLower g.identifier)).Nodup := by
    intro room
    rw [listRights, ((List.perm_insertionSort _ _).map _).nodup_iff, List.map_map]
    rfl
  simp only [ListedOnce, hroom]
  rw [List.nodup_iff_pairwise_ne, List.pairwise_map]
  constructor
  · intro h
    refine List.pairwise_iff_forall_sublist.mpr fun {g g'} hsub heq => ?_
    rw [Prod.mk.injEq] at heq
    have hnodup := h ⟨g.roomNum, 0, 0, 0, 0, 0⟩
    have hpair := hsub.filter (fun k : Grant => decide (k.roomNum = g.roomNum))
    rw [List.filter_cons_of_pos (by simp), List.filter_cons_of_pos (by simp [heq.1]),
      List.filter_nil] at hpair
    have hboth := hnodup.sublist (hpair.map (fun k : Grant => m.dir.sqlLower k.identifier))
    simp [heq.2] at hboth
  · intro h room
    rw [List.nodup_iff_pairwise_ne, List.pairwise_map, List.pairwise_filter]
    refine h.imp fun {g g'} hne hg hg' heq => hne ?_
    rw [decide_eq_true_eq] at hg hg'
    rw [Prod.mk.injEq]
    exact ⟨hg.trans hg'.symm, heq⟩

/-- One row of an identifier is the only one. -/
theorem ListedOnce.unique (h : ListedOnce m) {g g' : Grant} (hg : g ∈ m.acl) (hg' : g' ∈ m.acl)
    (hmatch : Matches m.dir.sqlLower room identifier g)
    (hmatch' : Matches m.dir.sqlLower room identifier g') : g' = g := by
  refine List.inj_on_of_nodup_map (listedOnce_iff.mp h) hg' hg ?_
  rw [Prod.mk.injEq]
  exact ⟨hmatch'.1.trans hmatch.1.symm, hmatch'.2.trans hmatch.2.symm⟩

/-! ## Setting rights -/

theorem setRights_refused (h : identifier = [] ∨ ¬KnownRights rights) :
    (setRights m room identifier rights).1 = m ∧ (setRights m room identifier rights).2 ≠ .ok () := by
  rw [setRights]
  by_cases hid : identifier = []
  · rw [if_pos hid]
    exact ⟨rfl, by simp⟩
  · rw [if_neg hid]
    cases hfind : rights.find? (fun c => c ∉ kAclRights ∧ c ≠ 0) with
    | none =>
      refine absurd (fun c hc => ?_) (h.resolve_left hid)
      have hknown := List.find?_eq_none.mp hfind c hc
      simp only [decide_eq_true_eq, not_and, not_not] at hknown
      by_cases hin : c ∈ kAclRights
      · exact .inl hin
      · exact .inr (hknown hin)
    | some c => exact ⟨rfl, by simp⟩

theorem setRights_known (hid : identifier ≠ []) (hknown : KnownRights rights) :
    setRights m room identifier rights =
      if rights = [] then
        ({ m with acl := m.acl.filter (fun g =>
            ¬(g.roomNum = room.roomNum ∧
              m.dir.sqlLower g.identifier = m.dir.sqlLower identifier)) }, .ok ())
      else
        ({ m with acl :=
            if m.acl.any (fun g => decide (g.roomNum = room.roomNum ∧ g.identifier = identifier)) then
              m.acl.map (fun g =>
                if decide (g.roomNum = room.roomNum ∧ g.identifier = identifier) then
                  ⟨room.roomNum, identifier, unionRights rights []⟩ else g)
            else m.acl ++ [⟨room.roomNum, identifier, unionRights rights []⟩] }, .ok ()) := by
  have hfind : rights.find? (fun c => c ∉ kAclRights ∧ c ≠ 0) = none := by
    refine List.find?_eq_none.mpr fun c hc => ?_
    simp only [decide_eq_true_eq, not_and, not_not]
    exact fun hout => (hknown c hc).resolve_left hout
  rw [setRights, if_neg hid, hfind]

@[simp] theorem setRights_dir (m : Realm) (room : Room) (identifier rights : Bytes) :
    (setRights m room identifier rights).1.dir = m.dir := by
  rw [setRights]
  split
  · rfl
  · cases rights.find? (fun c => c ∉ kAclRights ∧ c ≠ 0) with
    | some c => rfl
    | none =>
      dsimp only
      split
      · rfl
      · rfl

/-- A grant in the spelling that is there is the row of the identifier, and its only one. -/
theorem setRights_granted (hid : identifier ≠ []) (hknown : KnownRights rights) (hne : rights ≠ [])
    (halike : SpelledAlike m room identifier) :
    (⟨room.roomNum, identifier, unionRights rights []⟩ ∈ (setRights m room identifier rights).1.acl) ∧
      ∀ g ∈ (setRights m room identifier rights).1.acl, Matches m.dir.sqlLower room identifier g →
        g = ⟨room.roomNum, identifier, unionRights rights []⟩ := by
  rw [setRights_known hid hknown, if_neg hne]
  by_cases hany : m.acl.any (fun g => decide (g.roomNum = room.roomNum ∧ g.identifier = identifier)) = true
  · simp only [if_pos hany]
    constructor
    · obtain ⟨g, hg, hsame⟩ := List.any_eq_true.mp hany
      exact List.mem_map.mpr ⟨g, hg, if_pos hsame⟩
    · intro g hg hmatch
      obtain ⟨g', hg', rfl⟩ := List.mem_map.mp hg
      split
      · rfl
      · next hother =>
        -- a row that was not replaced would be spelled otherwise
        rw [if_neg hother] at hmatch
        exact absurd (decide_eq_true ⟨hmatch.1, halike g' hg' hmatch.1 hmatch.2⟩) hother
  · simp only [if_neg hany]
    constructor
    · simp
    · intro g hg hmatch
      cases List.mem_append.mp hg with
      | inl hold =>
        refine absurd (List.any_eq_true.mpr ⟨g, hold, ?_⟩) hany
        exact decide_eq_true ⟨hmatch.1, halike g hold hmatch.1 hmatch.2⟩
      | inr hnew => exact List.mem_singleton.mp hnew

/-- What is read afterwards, under every spelling. -/
theorem storedRights_setRights (hid : identifier ≠ []) (hknown : KnownRights rights)
    (halike : rights ≠ [] → SpelledAlike m room identifier) {spelled : Bytes}
    (hspelled : m.dir.sqlLower spelled = m.dir.sqlLower identifier) :
    storedRights (setRights m room identifier rights).1 room.roomNum spelled =
      unionRights rights [] := by
  by_cases hne : rights = []
  · have hnone : ∀ g ∈ (setRights m room identifier rights).1.acl,
        ¬Matches (setRights m room identifier rights).1.dir.sqlLower room spelled g := by
      rw [setRights_dir, setRights_known hid hknown, if_pos hne]
      intro g hg hmatch
      have hkept := (List.mem_filter.mp hg).2
      rw [decide_eq_true_eq] at hkept
      exact hkept ⟨hmatch.1, hmatch.2.trans hspelled⟩
    rw [storedRights_none hnone, hne]
    rfl
  · obtain ⟨hmem, honly⟩ := setRights_granted hid hknown hne (halike hne)
    refine storedRights_of hmem ⟨rfl, ?_⟩ fun g hg hg' => ?_
    · rw [setRights_dir]
      exact hspelled.symm
    · rw [setRights_dir] at hg'
      rw [honly g hg ⟨hg'.1, hg'.2.trans hspelled⟩]

theorem listedOnce_setRights (h : ListedOnce m)
    (halike : identifier ≠ [] → KnownRights rights → rights ≠ [] → SpelledAlike m room identifier) :
    ListedOnce (setRights m room identifier rights).1 := by
  by_cases hrefused : identifier = [] ∨ ¬KnownRights rights
  · rw [(setRights_refused hrefused).1]
    exact h
  rw [not_or, not_not] at hrefused
  obtain ⟨hid, hknown⟩ := hrefused
  rw [listedOnce_iff] at h ⊢
  rw [setRights_known hid hknown]
  by_cases hne : rights = []
  · rw [if_pos hne]
    exact h.sublist (List.filter_sublist.map _)
  · rw [if_neg hne]
    split
    · -- a row is replaced by one with the same key
      rw [List.map_map, List.map_congr_left (g := fun g => (g.roomNum, m.dir.sqlLower g.identifier))]
      · exact h
      · intro g _
        simp only [Function.comp]
        split
        · next hsame =>
          rw [decide_eq_true_eq] at hsame
          rw [hsame.1, hsame.2]
        · rfl
    · next hnone =>
      rw [List.map_append, List.nodup_append]
      refine ⟨h, by simp, ?_⟩
      intro key hkey key' hkey' heq
      obtain ⟨g, hg, rfl⟩ := List.mem_map.mp hkey
      rw [List.map_singleton, List.mem_singleton] at hkey'
      rw [hkey', Prod.mk.injEq] at heq
      refine hnone (List.any_eq_true.mpr ⟨g, hg, ?_⟩)
      exact decide_eq_true ⟨heq.1, halike hid hknown hne g hg heq.1 heq.2⟩

/-- A grant in another spelling leaves two rows of the identifier. -/
theorem not_listedOnce_setRights (h : ListedOnce m) (hid : identifier ≠ [])
    (hknown : KnownRights rights) (hne : rights ≠ []) (halike : ¬SpelledAlike m room identifier) :
    ¬ListedOnce (setRights m room identifier rights).1 := by
  simp only [SpelledAlike, Classical.not_forall] at halike
  obtain ⟨g, hg, hnum, hcase, hother⟩ := halike
  have hnone : ¬m.acl.any (fun g => decide (g.roomNum = room.roomNum ∧ g.identifier = identifier)) =
      true := by
    intro hany
    obtain ⟨g', hg', hsame⟩ := List.any_eq_true.mp hany
    rw [decide_eq_true_eq] at hsame
    have hmatch : Matches m.dir.sqlLower room identifier g' := ⟨hsame.1, by rw [hsame.2]⟩
    have heq := h.unique hg' hg hmatch ⟨hnum, hcase⟩
    exact hother (heq ▸ hsame.2)
  rw [listedOnce_iff, setRights_known hid hknown, if_neg hne]
  simp only [if_neg hnone]
  intro hnodup
  rw [List.map_append, List.nodup_append] at hnodup
  refine hnodup.2.2 _ (List.mem_map_of_mem hg) (room.roomNum, m.dir.sqlLower identifier) (by simp) ?_
  rw [hnum, hcase]

/-! ## SETACL -/

/-- Whoever asks is numbered first, which is nothing to the access lists. -/
def numbered (m : Realm) (user : Bytes) : Realm :=
  if anonymous user then m else { m with dir := (getOrAssignUserNum m.dir user).1 }

theorem numbered_acl (m : Realm) (user : Bytes) : (numbered m user).acl = m.acl := by
  rw [numbered]
  split
  · rfl
  · rfl

@[simp] theorem numbered_sqlLower (m : Realm) (user : Bytes) :
    (numbered m user).dir.sqlLower = m.dir.sqlLower := by
  rw [numbered]
  split
  · rfl
  · exact sqlLower_number m.dir user

theorem wantedRights_numbered (m : Realm) (user : Bytes) (room : Room) (identifier change : Bytes) :
    wantedRights (numbered m user) room identifier change = wantedRights m room identifier change := by
  rw [wantedRights.eq_def, wantedRights.eq_def, listRights, listRights, numbered_acl]

theorem aclRoom_setAcl (user : Bytes) {args : List Bytes}
    (hadmin : ch 'a' ∈ effectiveRights m user room) (hargs : 3 ≤ args.length) :
    (aclRoom m user room .setAcl args).1 = (setRights (numbered m user) room (args.getD 1 [])
      (wantedRights m room (args.getD 1 []) (args.getD 2 []))).1 := by
  rw [← wantedRights_numbered m user, aclRoom]
  simp only [if_neg (not_not.mpr hadmin), if_neg (Nat.not_lt.mpr hargs)]
  rw [numbered]
  generalize setRights _ room (args.getD 1 []) _ = set
  obtain ⟨m', result⟩ := set
  cases result with
  | ok _ => rfl
  | error err => rfl

theorem aclRoom_setAcl_refused (user : Bytes) {args : List Bytes}
    (h : ¬(ch 'a' ∈ effectiveRights m user room ∧ 3 ≤ args.length)) :
    (aclRoom m user room .setAcl args).1 = numbered m user := by
  rw [aclRoom, numbered]
  by_cases hadmin : ch 'a' ∈ effectiveRights m user room
  · have hargs : args.length < 3 := Nat.not_le.mp fun hargs => h ⟨hadmin, hargs⟩
    simp only [if_neg (not_not.mpr hadmin), if_pos hargs]
    rfl
  · simp only [if_pos hadmin]
    rfl

/-- The rows of the identifier are those SETACL takes for them. -/
def Recognised (m : Realm) (room : Room) (identifier : Bytes) : Prop :=
  ∀ g ∈ m.acl, Matches m.dir.sqlLower room identifier g → upper g.identifier = upper identifier

theorem SpelledAlike.recognised (h : SpelledAlike m room identifier) :
    Recognised m room identifier :=
  fun g hg hmatch => by rw [h g hg hmatch.1 hmatch.2]

/-- What SETACL finds to edit is what the identifier has. -/
theorem current_eq (h : ListedOnce m) (hrec : Recognised m room identifier) :
    (listRights m room).foldl
        (fun cur e => if upper e.1 = upper identifier then e.2 else cur) [] =
      storedRights m room.roomNum identifier := by
  -- the last entry of the identifier wins, and all of them are the same
  have hlast : ∀ (r : Bytes) (entries : List (Bytes × Bytes)) (cur : Bytes),
      (∀ e ∈ entries, upper e.1 = upper identifier → e.2 = r) →
      (cur = r ∨ ∃ e ∈ entries, upper e.1 = upper identifier) →
      entries.foldl (fun cur e => if upper e.1 = upper identifier then e.2 else cur) cur = r := by
    intro r entries
    induction entries with
    | nil =>
      intro cur _ hcur
      exact hcur.resolve_right (by simp)
    | cons e entries ih =>
      intro cur hall hcur
      refine ih _ (fun e' he' => hall e' (List.mem_cons_of_mem e he')) ?_
      simp only
      by_cases hmatch : upper e.1 = upper identifier
      · rw [if_pos hmatch]
        exact .inl (hall e List.mem_cons_self hmatch)
      · rw [if_neg hmatch]
        refine hcur.imp_right ?_
        rintro ⟨e', he', hmatch'⟩
        cases List.mem_cons.mp he' with
        | inl heq => exact absurd (heq ▸ hmatch') hmatch
        | inr hin => exact ⟨e', hin, hmatch'⟩
  have hlisted : ∀ e, e ∈ listRights m room ↔
      ∃ g ∈ m.acl, g.roomNum = room.roomNum ∧ (g.identifier, g.rights) = e := by
    intro e
    rw [listRights, List.mem_insertionSort, List.mem_map]
    simp [and_assoc]
  have hsql : ∀ a, upper a = upper identifier → m.dir.sqlLower a = m.dir.sqlLower identifier :=
    fun a ha => m.dir.sqlLower.congr ((upper_eq_iff _ _).mp ha)
  by_cases hsome : ∃ g ∈ m.acl, Matches m.dir.sqlLower room identifier g
  · obtain ⟨g, hg, hmatch⟩ := hsome
    rw [storedRights_of hg hmatch fun g' hg' hmatch' => by rw [h.unique hg hg' hmatch hmatch']]
    refine hlast g.rights _ [] ?_ (.inr ⟨(g.identifier, g.rights), ?_, ?_⟩)
    · intro e he hcase
      obtain ⟨g', hg', hnum, rfl⟩ := (hlisted e).mp he
      rw [h.unique hg hg' hmatch ⟨hnum, hsql _ hcase⟩]
    · exact (hlisted _).mpr ⟨g, hg, hmatch.1, rfl⟩
    · exact hrec g hg hmatch
  · simp only [not_exists, not_and] at hsome
    rw [storedRights_none hsome]
    refine hlast [] _ [] ?_ (.inl rfl)
    intro e he hcase
    obtain ⟨g', hg', hnum, rfl⟩ := (hlisted e).mp he
    exact absurd ⟨hnum, hsql _ hcase⟩ (hsome g' hg')

/-- The letters a signed change asks for are letters of rights. -/
theorem mem_wantedRights (h : ListedOnce m) (hrec : Recognised m room identifier)
    {sign right : Byte} {named : Bytes} (hsign : sign = ch '+' ∨ sign = ch '-') :
    right ∈ wantedRights m room identifier (sign :: named) ↔ right ∈ kAclRights ∧
      if sign = ch '+' then right ∈ storedRights m room.roomNum identifier ∨ right ∈ named
      else right ∈ storedRights m room.roomNum identifier ∧ right ∉ named := by
  rw [wantedRights, if_pos hsign]
  simp only [current_eq h hrec]
  rw [List.mem_filter]
  split
  · rw [decide_eq_true_eq]
  · rw [decide_eq_true_eq]

theorem storedRights_spelled (m : Realm) (n : Nat) {a b : Bytes}
    (h : m.dir.sqlLower a = m.dir.sqlLower b) :
    storedRights m n a = storedRights m n b := by
  rw [storedRights, storedRights, h]

theorem wantedRights_known {sign : Byte} {named : Bytes} (hsign : sign = ch '+' ∨ sign = ch '-') :
    KnownRights (wantedRights m room identifier (sign :: named)) := by
  intro c hc
  rw [wantedRights, if_pos hsign] at hc
  exact .inl (List.mem_filter.mp hc).1

theorem spelledAlike_numbered (user : Bytes) :
    SpelledAlike (numbered m user) room identifier ↔ SpelledAlike m room identifier := by
  rw [SpelledAlike, numbered_acl, numbered_sqlLower, SpelledAlike]

/-- An edit that leaves nothing to store, and all there was was to go. -/
theorem wantedRights_nil (h : ListedOnce m) {sign right : Byte} {named : Bytes}
    (hsign : sign = ch '+' ∨ sign = ch '-')
    (hnone : wantedRights m room identifier (sign :: named) = []) (hright : right ∈ kAclRights)
    (htakes : TakesAll m room identifier sign named) :
    ¬if sign = ch '+' then right ∈ storedRights m room.roomNum identifier ∨ right ∈ named
      else right ∈ storedRights m room.roomNum identifier ∧ right ∉ named := by
  by_cases hrec : Recognised m room identifier
  · intro hwanted
    have hmem := (mem_wantedRights h hrec hsign).mpr ⟨hright, hwanted⟩
    rw [hnone] at hmem
    cases hmem
  · -- the one row of the identifier is spelled so that SETACL does not find it
    simp only [Recognised, Classical.not_forall] at hrec
    obtain ⟨g, hg, hmatch, hother⟩ := hrec
    have hstored : storedRights m room.roomNum identifier = g.rights :=
      storedRights_of hg hmatch fun g' hg' hmatch' => by rw [h.unique hg hg' hmatch hmatch']
    have hall := htakes g hg hmatch.1 hmatch.2 hother right hright
    have hunnamed : sign = ch '+' → right ∉ named := by
      intro hplus hnamed
      have hmem : right ∈ wantedRights m room identifier (sign :: named) := by
        rw [wantedRights, if_pos hsign]
        simp [hright, hplus, hnamed]
      rw [hnone] at hmem
      cases hmem
    rw [hstored]
    split
    · next hplus =>
      rintro (hheld | hnamed)
      · rw [hplus] at hall
        exact absurd (hall hheld).1 (by decide)
      · exact hunnamed hplus hnamed
    · exact fun hheld => hheld.2 (hall hheld.1).2

/-! ## Steps and runs -/

/-- SETACL with a sign changes the letters that are named. -/
theorem setAcl_edits (h : ListedOnce m) {user : Bytes} {args : List Bytes}
    (hadmin : ch 'a' ∈ effectiveRights m user room) (hargs : 3 ≤ args.length)
    (hid : args.getD 1 [] ≠ []) {sign right : Byte} {named : Bytes}
    (hchange : args.getD 2 [] = sign :: named) (hsign : sign = ch '+' ∨ sign = ch '-')
    (hgrants : KnownRights (wantedRights m room (args.getD 1 []) (args.getD 2 [])) →
      wantedRights m room (args.getD 1 []) (args.getD 2 []) ≠ [] →
        SpelledAlike m room (args.getD 1 []))
    (htakes : wantedRights m room (args.getD 1 []) (args.getD 2 []) = [] →
      TakesAll m room (args.getD 1 []) sign named)
    {spelled : Bytes} (hspelled : m.dir.sqlLower spelled = m.dir.sqlLower (args.getD 1 []))
    (hright : right ∈ kAclRights) :
    right ∈ storedRights (aclRoom m user room .setAcl args).1 room.roomNum spelled ↔
      if sign = ch '+' then right ∈ storedRights m room.roomNum spelled ∨ right ∈ named
      else right ∈ storedRights m room.roomNum spelled ∧ right ∉ named := by
  rw [hchange] at hgrants htakes
  have hknown := @wantedRights_known m room (args.getD 1 []) sign named hsign
  have hcase : (numbered m user).dir.sqlLower spelled =
      (numbered m user).dir.sqlLower (args.getD 1 []) := by rwa [numbered_sqlLower]
  have hread := storedRights_setRights (m := numbered m user) hid hknown
    (fun hne => (spelledAlike_numbered user).mpr (hgrants hknown hne)) hcase
  rw [aclRoom_setAcl user hadmin hargs, hchange, hread, mem_unionRights,
    storedRights_spelled m room.roomNum hspelled]
  by_cases hnone : wantedRights m room (args.getD 1 []) (sign :: named) = []
  · rw [hnone]
    exact iff_of_false (by simp) (wantedRights_nil h hsign hnone hright (htakes hnone))
  · rw [mem_wantedRights h (hgrants hknown hnone).recognised hsign]
    simp [hright]


theorem takesEffect_of_alike (h : ListedOnce m) (call : AccessCall) (halike : GrantsAlike m call) :
    TakesEffect m call := by
  cases call with
  | setRights room identifier rights =>
    intro hok hsomeone spelled hspelled
    have haccepted : ¬(identifier = [] ∨ ¬KnownRights rights) :=
      fun hrefused => (setRights_refused hrefused).2 hok
    rw [not_or, not_not] at haccepted
    obtain ⟨hid, hknown⟩ := haccepted
    have hread := storedRights_setRights hid hknown (halike hid hknown) hspelled
    have hnamed : anonymous spelled = false := by
      rw [anonymous, Bool.or_eq_false_iff, decide_eq_false_iff_not]
      constructor
      · rintro rfl
        rw [(m.dir.sqlLower.nil_iff []).mpr rfl] at hspelled
        exact hid ((m.dir.sqlLower.nil_iff identifier).mp hspelled.symm)
      · rw [isAnyone, decide_eq_false_iff_not]
        intro hanyone
        rw [← hspelled, ← m.dir.sqlLower.fold_lower, hanyone] at hsomeone
        exact hsomeone (m.dir.sqlLower.of_ascii (by decide +kernel))
    rw [storedPart, hnamed]
    simp only [Bool.false_eq_true, if_false, hread]
    refine List.filter_congr fun c hc => ?_
    rw [decide_eq_decide, mem_unionRights]
    simp only [hc, true_and, List.not_mem_nil, or_false]
    exact or_comm
  | setAcl user room args =>
    intro hadmin hargs hid sign named hchange hsign spelled hspelled right hright
    obtain ⟨hgrants, htakes⟩ := halike hadmin hargs hid
    exact setAcl_edits h hadmin hargs hid hchange hsign hgrants
      (fun hnone => htakes hnone sign named hchange hsign) hspelled hright

theorem listedOnce_numbered (user : Bytes) : ListedOnce (numbered m user) ↔ ListedOnce m := by
  rw [listedOnce_iff, listedOnce_iff, numbered_acl, numbered_sqlLower]

/-- An edit that leaves nothing takes effect only if it takes all there was. -/
theorem takesAll_of_takesEffect (h : ListedOnce m) {user : Bytes} {args : List Bytes}
    (hadmin : ch 'a' ∈ effectiveRights m user room) (hargs : 3 ≤ args.length)
    (hid : args.getD 1 [] ≠ []) (heffect : TakesEffect m (.setAcl user room args))
    (hnone : wantedRights m room (args.getD 1 []) (args.getD 2 []) = []) {sign : Byte}
    {named : Bytes} (hchange : args.getD 2 [] = sign :: named)
    (hsign : sign = ch '+' ∨ sign = ch '-') : TakesAll m room (args.getD 1 []) sign named := by
  intro g hg hroom hcase _ right hright hheld
  have hstored : storedRights m room.roomNum (args.getD 1 []) = g.rights :=
    storedRights_of hg ⟨hroom, hcase⟩ fun g' hg' hmatch' => by
      rw [h.unique hg hg' ⟨hroom, hcase⟩ hmatch']
  have hread : storedRights (aclRoom m user room .setAcl args).1 room.roomNum (args.getD 1 []) =
      unionRights [] [] := by
    rw [aclRoom_setAcl user hadmin hargs, hnone]
    exact storedRights_setRights hid (fun c hc => by cases hc) (fun hne => absurd rfl hne) rfl
  have hiff := heffect hadmin hargs hid sign named hchange hsign (args.getD 1 []) rfl right hright
  rw [hread, hstored] at hiff
  have hleft : ¬right ∈ unionRights [] [] := by simp [unionRights]
  have hnot := fun hwanted => hleft (hiff.mpr hwanted)
  split at hnot
  · exact absurd (.inl hheld) hnot
  · next hplus => exact ⟨hsign.resolve_left hplus, by_contra fun hout => hnot ⟨hheld, hout⟩⟩

/-- A call keeps identifiers listed once and takes effect exactly when it grants under the
    spelling that is there. -/
theorem callStep_iff (h : ListedOnce m) (call : AccessCall) :
    TakesEffect m call ∧ ListedOnce (callStep m call) ↔ GrantsAlike m call := by
  cases call with
  | setRights room identifier rights =>
    constructor
    · intro ⟨_, hstep⟩ hid hknown hne
      by_contra halike
      exact not_listedOnce_setRights h hid hknown hne halike hstep
    · exact fun halike => ⟨takesEffect_of_alike h _ halike, listedOnce_setRights h halike⟩
  | setAcl user room args =>
    by_cases hallowed : ch 'a' ∈ effectiveRights m user room ∧ 3 ≤ args.length
    · constructor
      · intro ⟨heffect, hstep⟩ _ _ hid
        rw [callStep, aclRoom_setAcl user hallowed.1 hallowed.2] at hstep
        constructor
        · intro hknown hne
          by_contra halike
          exact not_listedOnce_setRights ((listedOnce_numbered user).mpr h) hid hknown hne
            (fun h => halike ((spelledAlike_numbered user).mp h)) hstep
        · intro hnone sign named hchange hsign
          exact takesAll_of_takesEffect h hallowed.1 hallowed.2 hid heffect hnone hchange hsign
      · intro halike
        refine ⟨takesEffect_of_alike h _ halike, ?_⟩
        rw [callStep, aclRoom_setAcl user hallowed.1 hallowed.2]
        exact listedOnce_setRights ((listedOnce_numbered user).mpr h) fun hid hknown hne =>
          (spelledAlike_numbered user).mpr ((halike hallowed.1 hallowed.2 hid).1 hknown hne)
    · have hrefused : GrantsAlike m (.setAcl user room args) :=
        fun hadmin hargs => absurd ⟨hadmin, hargs⟩ hallowed
      refine iff_of_true ⟨takesEffect_of_alike h _ hrefused, ?_⟩ hrefused
      rw [callStep, aclRoom_setAcl_refused user hallowed, listedOnce_numbered]
      exact h

/-- Grants take effect throughout a run exactly when none of them is spelled differently from
    what is there. -/
theorem effective_iff (m : Realm) (h : ListedOnce m) (calls : List AccessCall) :
    Effective m calls ↔ EachCall GrantsAlike m calls := by
  induction calls generalizing m with
  | nil => exact iff_of_true h trivial
  | cons call calls ih =>
    constructor
    · rintro ⟨-, heffect, hrest⟩
      have hnext : ListedOnce (callStep m call) := by
        cases calls with
        | nil => exact hrest
        | cons _ _ => exact hrest.1
      exact ⟨(callStep_iff h call).mp ⟨heffect, hnext⟩, (ih _ hnext).mp hrest⟩
    · rintro ⟨halike, hrest⟩
      obtain ⟨heffect, hnext⟩ := (callStep_iff h call).mpr halike
      exact ⟨h, heffect, (ih _ hnext).mpr hrest⟩

/-- A realm without grants. -/
def ungranted : Realm :=
  ⟨⟨⟨[], [], [], [], 1, [], [], [bytes "alice"], []⟩, [], 1, 100, .ofAscii⟩, [], [], []⟩

def loungeRoom : Room := ⟨100, 0, 0, 0, 0, 0⟩

theorem effective_iff_revoked :
    Effective ungranted [.setRights loungeRoom (bytes "Alice") (bytes "sl"),
      .setRights loungeRoom (bytes "ALICE") []] := by
  refine (effective_iff ungranted (fun _ => List.nodup_nil) _).mpr ⟨?_, ?_, trivial⟩
  · intro _ _ _ g hg
    cases hg
  · exact fun _ _ hne => absurd rfl hne

/-- Alice's grant is cut down under another spelling, and she keeps all of it. -/
theorem grant_in_other_spelling :
    ¬Effective ungranted [.setRights loungeRoom (bytes "Alice") (bytes "lrswi"),
      .setRights loungeRoom (bytes "alice") (bytes "l")] := by
  rintro ⟨-, -, -, hcut, -⟩
  have hkept := hcut (by decide) (by decide) (bytes "alice") rfl
  exact absurd hkept (by decide)

end QuackMail.Citadel
