import QuackMail.Imap.Mailboxes

/-! # Room names

A room is found by its display name and keyed by an internal name that is derived from it.
`Resolvable` says that the two agree and that no two rooms of one kind have display names
equal up to case, so that every room a user may name is found by its name.  The calls keep
that up unless RENAME changes a display name, which leaves the key behind, or a room is made
or renamed beside one whose name differs in case only.
-/

namespace QuackMail.Citadel

open Imap

/-! ## Rows -/

/-- The two halves of a row of `citadel_rooms`. -/
def IsRow (d : Directory) (r : Room) (l : RoomLabel) : Prop :=
  r ∈ d.store.rooms ∧ l ∈ d.labels ∧ l.roomNum = r.roomNum

/-- The internal name that belongs to a display name. -/
def keyOf (owner : Int) (displayName : Bytes) : Bytes :=
  if owner > 0 then mailboxRoomName owner.toNat displayName else displayName

/-- What the keys of the table and the sequence of the room numbers keep up. -/
structure Tabled (d : Directory) : Prop where
  aligned : d.labels.map RoomLabel.roomNum = d.store.rooms.map Room.roomNum
  unique : (d.store.rooms.map Room.roomNum).Nodup
  below : ∀ r ∈ d.store.rooms, r.roomNum < d.roomSeq
  owners : ∀ r ∈ d.store.rooms, 0 ≤ r.mailboxOwner
  seq : 1 < d.roomSeq

/-- Keys are derived, and rooms of one kind have names that differ in more than case. -/
structure Consistent (d : Directory) : Prop where
  keyed : ∀ r l, IsRow d r l → l.name = keyOf r.mailboxOwner l.displayName
  distinct : ∀ r l r' l', IsRow d r l → IsRow d r' l' → r.mailboxOwner = r'.mailboxOwner →
    d.sqlLower l.displayName = d.sqlLower l'.displayName → r = r'

/-- A public room, or one of the user's own. -/
def Visible (d : Directory) (username : Bytes) (r : Room) : Prop :=
  r.mailboxOwner = 0 ∨
    username ≠ [] ∧ 0 < r.mailboxOwner ∧ r.mailboxOwner = userNum d.store username

/-- A room that is visible is found by its display name, or a public room of that name is
    found instead of a personal one. -/
def Resolves (d : Directory) : Prop :=
  ∀ username r l, IsRow d r l → Visible d username r →
    ∃ found, (resolveRoom d username l.displayName).2 = some found ∧
      (found = r ∨ 0 < r.mailboxOwner ∧ found.mailboxOwner = 0 ∧
        isNamed d found l.displayName = true)

structure Resolvable (d : Directory) : Prop extends Consistent d where
  resolves : Resolves d

/-- `GetOrCreateUserRoom` returns no room of another name. -/
def AnswersNamed (d : Directory) (username displayName : Bytes) : Prop :=
  0 ≤ (getOrCreateUserRoom d username displayName).2 →
    ∃ r l, IsRow (getOrCreateUserRoom d username displayName).1 r l ∧
      (r.roomNum : Int) = (getOrCreateUserRoom d username displayName).2 ∧
      l.displayName = displayName

variable {d d' : Directory}

theorem Consistent.of_rows (h : Consistent d) (hsql : d'.sqlLower = d.sqlLower)
    (hrows : ∀ r l, IsRow d' r l → IsRow d r l) : Consistent d' :=
  ⟨fun r l hrow => h.keyed r l (hrows r l hrow), fun r l r' l' hrow hrow' howner hcase =>
    h.distinct r l r' l' (hrows r l hrow) (hrows r' l' hrow') howner (hsql ▸ hcase)⟩

theorem Tabled.room_eq (h : Tabled d) {r r' : Room} (hr : r ∈ d.store.rooms)
    (hr' : r' ∈ d.store.rooms) (hnum : r.roomNum = r'.roomNum) : r = r' :=
  List.inj_on_of_nodup_map h.unique hr hr' hnum

theorem Tabled.row_of_label (h : Tabled d) {l : RoomLabel} (hl : l ∈ d.labels) :
    ∃ r, IsRow d r l := by
  have hmem : l.roomNum ∈ d.store.rooms.map Room.roomNum := h.aligned ▸ List.mem_map_of_mem hl
  obtain ⟨r, hr, hnum⟩ := List.mem_map.mp hmem
  exact ⟨r, hr, hl, hnum.symm⟩

variable {name : Bytes}

theorem isNamed_iff {r : Room} (hr : r ∈ d.store.rooms) :
    isNamed d r name = true ↔
      ∃ l, IsRow d r l ∧ d.sqlLower l.displayName = d.sqlLower name := by
  rw [isNamed, List.any_eq_true]
  simp only [decide_eq_true_eq]
  constructor
  · rintro ⟨l, hl, hnum, hname⟩
    exact ⟨l, ⟨hr, hl, hnum⟩, hname⟩
  · rintro ⟨l, ⟨-, hl, hnum⟩, hname⟩
    exact ⟨l, hl, hnum, hname⟩

/-! ## Finding rooms -/

/-- A user that has a number keeps it. -/
theorem getOrAssignUserNum_of_pos {username : Bytes} (h : 0 < userNum d.store username) :
    getOrAssignUserNum d username = (d, userNum d.store username) := by
  rw [userNum] at h ⊢
  rw [getOrAssignUserNum]
  split
  · next hcred =>
    rw [if_pos hcred] at h
    cases hfind : d.store.users.find? (fun u => u.1 = username) with
    | none => rw [hfind] at h; exact absurd h (lt_irrefl 0)
    | some u => rfl
  · rfl

theorem resolves_of_consistent (h : Consistent d) : Resolves d := by
  intro username r l hrow hvisible
  have hself : isNamed d r l.displayName = true := (isNamed_iff hrow.1).mpr ⟨l, hrow, rfl⟩
  -- a room of the same kind that has the name is the room
  have hsame : ∀ found ∈ d.store.rooms, found.mailboxOwner = r.mailboxOwner →
      isNamed d found l.displayName = true → found = r := by
    intro found hfound howner hnamed
    obtain ⟨l', hrow', hname⟩ := (isNamed_iff hfound).mp hnamed
    exact h.distinct found l' r l hrow' hrow howner hname
  rw [resolveRoom]
  cases hpublic : d.store.rooms.find? (fun r => r.mailboxOwner = 0 ∧
      isNamed d r l.displayName = true) with
  | some found =>
    have hfound := List.find?_some hpublic
    simp only [decide_eq_true_eq] at hfound
    refine ⟨found, rfl, ?_⟩
    cases hvisible with
    | inl howner =>
      exact .inl (hsame found (List.mem_of_find?_eq_some hpublic) (hfound.1.trans howner.symm)
        hfound.2)
    | inr hown => exact .inr ⟨hown.2.1, hfound.1, hfound.2⟩
  | none =>
    have hnone := List.find?_eq_none.mp hpublic r hrow.1
    simp only [hself, and_true, decide_eq_true_eq] at hnone
    obtain ⟨huser, hpos, howner⟩ := hvisible.resolve_left hnone
    simp only [if_neg huser, getOrAssignUserNum_of_pos (howner ▸ hpos), ← howner,
      if_neg (Int.not_le.mpr hpos)]
    cases hown : d.store.rooms.find? (fun room => room.mailboxOwner = r.mailboxOwner ∧
        isNamed d room l.displayName = true) with
    | none =>
      refine absurd (List.find?_eq_none.mp hown r hrow.1) ?_
      simp [hself]
    | some found =>
      have hfound := List.find?_some hown
      simp only [decide_eq_true_eq] at hfound
      exact ⟨found, rfl, .inl (hsame found (List.mem_of_find?_eq_some hown) hfound.1 hfound.2)⟩

theorem Consistent.resolvable (h : Consistent d) : Resolvable d := ⟨h, resolves_of_consistent h⟩

/-! ## What the calls do to the table -/

/-- No room of the same kind has the name up to case. -/
def NoNamesake (d : Directory) (owner : Int) (name : Bytes) : Prop :=
  ∀ r l, IsRow d r l → r.mailboxOwner = owner → d.sqlLower l.displayName ≠ d.sqlLower name

/-- No room has the key. -/
def KeyFree (d : Directory) (key : Bytes) : Prop := ∀ l ∈ d.labels, l.name ≠ key

theorem numbering_rows (d : Directory) (username : Bytes) :
    (getOrAssignUserNum d username).1.store.rooms = d.store.rooms ∧
      (getOrAssignUserNum d username).1.labels = d.labels ∧
      (getOrAssignUserNum d username).1.roomSeq = d.roomSeq := by
  obtain ⟨hrooms, hlabels, -⟩ := getOrAssignUserNum_frame d username
  refine ⟨hrooms, hlabels, ?_⟩
  rw [getOrAssignUserNum]
  split
  · split
    · rfl
    · rfl
  · rfl

theorem isRow_congr (hrooms : d'.store.rooms = d.store.rooms) (hlabels : d'.labels = d.labels)
    (r : Room) (l : RoomLabel) : IsRow d' r l ↔ IsRow d r l := by
  rw [IsRow, IsRow, hrooms, hlabels]

theorem Tabled.congr (h : Tabled d) (hrooms : d'.store.rooms = d.store.rooms)
    (hlabels : d'.labels = d.labels) (hseq : d.roomSeq ≤ d'.roomSeq) : Tabled d' where
  aligned := by rw [hrooms, hlabels]; exact h.aligned
  unique := by rw [hrooms]; exact h.unique
  below := fun r hr => Nat.lt_of_lt_of_le (h.below r (hrooms ▸ hr)) hseq
  owners := fun r hr => h.owners r (hrooms ▸ hr)
  seq := Nat.lt_of_lt_of_le h.seq hseq

/-- A room is made: it has the next number, and the rows that were there stay. -/
theorem createRoom_rows (h : Tabled d) (name : Bytes) (floor : Int) (qrFlags : Nat)
    (password : Bytes) (owner : Nat) :
    Tabled (createRoom d name floor qrFlags password owner).1 ∧
      ((createRoom d name floor qrFlags password owner).1.store.rooms = d.store.rooms ∧
          (createRoom d name floor qrFlags password owner).1.labels = d.labels ∧
          (∃ err, (createRoom d name floor qrFlags password owner).2 = .error err) ∨
        name ≠ [] ∧ ¬(owner = 0 ∧ isReservedRoomName name) ∧ KeyFree d (keyOf owner name) ∧
          (createRoom d name floor qrFlags password owner).2 = .ok d.roomSeq ∧
          ∀ r l, IsRow (createRoom d name floor qrFlags password owner).1 r l ↔
            IsRow d r l ∨ r = ⟨d.roomSeq, floor, qrFlags, 0, owner, 0⟩ ∧
              l = ⟨d.roomSeq, keyOf owner name, name, password⟩) := by
  rw [createRoom]
  split
  · exact ⟨h, .inl ⟨rfl, rfl, _, rfl⟩⟩
  next hname =>
  split
  · exact ⟨h, .inl ⟨rfl, rfl, _, rfl⟩⟩
  next hreserved =>
  have hkey : (if owner > 0 then mailboxRoomName owner name else name) = keyOf owner name := by
    rw [keyOf]
    simp
  simp only [hkey]
  split
  · exact ⟨h.congr rfl rfl (Nat.le_succ _), .inl ⟨rfl, rfl, _, rfl⟩⟩
  next htaken =>
  have hfree : KeyFree d (keyOf owner name) := fun l hl heq =>
    htaken (List.any_eq_true.mpr ⟨l, hl, decide_eq_true heq⟩)
  refine ⟨⟨?_, ?_, ?_, ?_, Nat.lt_succ_of_lt h.seq⟩, .inr ⟨hname, hreserved, hfree, rfl, ?_⟩⟩
  · rw [List.map_append, List.map_append, h.aligned]
    rfl
  · rw [List.map_append, List.nodup_append]
    refine ⟨h.unique, by simp, ?_⟩
    intro n hn n' hn' heq
    obtain ⟨r, hr, rfl⟩ := List.mem_map.mp hn
    rw [List.map_singleton, List.mem_singleton] at hn'
    exact absurd (h.below r hr) (by rw [heq, hn']; exact Nat.lt_irrefl _)
  · intro r hr
    cases List.mem_append.mp hr with
    | inl hr => exact Nat.lt_succ_of_lt (h.below r hr)
    | inr hr => rw [List.mem_singleton.mp hr]; exact Nat.lt_succ_self _
  · intro r hr
    cases List.mem_append.mp hr with
    | inl hr => exact h.owners r hr
    | inr hr => rw [List.mem_singleton.mp hr]; exact Int.natCast_nonneg owner
  · intro r l
    simp only [IsRow, List.mem_append, List.mem_singleton]
    constructor
    · rintro ⟨hr | rfl, hl | rfl, hnum⟩
      · exact .inl ⟨hr, hl, hnum⟩
      · exact absurd (h.below r hr) (by rw [← hnum]; exact Nat.lt_irrefl _)
      · obtain ⟨r', hr', -, hnum'⟩ := h.row_of_label hl
        exact absurd (h.below r' hr') (by rw [← hnum', hnum]; exact Nat.lt_irrefl _)
      · exact .inr ⟨rfl, rfl⟩
    · rintro (⟨hr, hl, hnum⟩ | ⟨rfl, rfl⟩)
      · exact ⟨.inl hr, .inl hl, hnum⟩
      · exact ⟨.inr rfl, .inr rfl, rfl⟩

/-- A room that is made beside no namesake. -/
theorem consistent_createRoom (h : Tabled d) (hd : Consistent d) (floor : Int)
    (qrFlags : Nat) (password : Bytes) {owner : Nat}
    (hfits : name ≠ [] → ¬(owner = 0 ∧ isReservedRoomName name) → KeyFree d (keyOf owner name) →
      NoNamesake d owner name) :
    Consistent (createRoom d name floor qrFlags password owner).1 := by
  cases (createRoom_rows h name floor qrFlags password owner).2 with
  | inl hsame => exact hd.of_rows (by simp) fun r l hrow => (isRow_congr hsame.1 hsame.2.1 r l).mp hrow
  | inr hmade =>
    obtain ⟨hname, hreserved, hfree, -, hrows⟩ := hmade
    have hnone := hfits hname hreserved hfree
    constructor
    · intro r l hrow
      cases (hrows r l).mp hrow with
      | inl hold => exact hd.keyed r l hold
      | inr hnew => rw [hnew.1, hnew.2]
    · intro r l r' l' hrow hrow' howner hcase
      rw [sqlLower_createRoom] at hcase
      cases (hrows r l).mp hrow with
      | inl hold =>
        cases (hrows r' l').mp hrow' with
        | inl hold' => exact hd.distinct r l r' l' hold hold' howner hcase
        | inr hnew =>
          rw [hnew.1] at howner
          rw [hnew.2] at hcase
          exact absurd hcase (hnone r l hold howner)
      | inr hnew =>
        cases (hrows r' l').mp hrow' with
        | inl hold =>
          rw [hnew.1] at howner
          rw [hnew.2] at hcase
          exact absurd hcase.symm (hnone r' l' hold howner.symm)
        | inr hnew' => rw [hnew.1, hnew'.1]

/-- The key the user's room of that name has is not the name of a public room. -/
def KeyNotPublic (d : Directory) (username name : Bytes) : Prop :=
  0 < (getOrAssignUserNum d username).2 → ∀ r l, IsRow d r l → r.mailboxOwner = 0 →
    l.displayName ≠ mailboxRoomName (getOrAssignUserNum d username).2.toNat name

/-- Where the user's room is made, the user has no other one whose name differs in case only. -/
def UserRoomFits (d : Directory) (username name : Bytes) : Prop :=
  KeyNotPublic d username name ∧
    (0 < (getOrAssignUserNum d username).2 → name ≠ [] →
      KeyFree d (mailboxRoomName (getOrAssignUserNum d username).2.toNat name) →
        NoNamesake d (getOrAssignUserNum d username).2 name)

/-- What `GetOrCreateUserRoom` does: nothing, or it finds the key, or it makes the room. -/
theorem getOrCreateUserRoom_cases (d : Directory) (username name : Bytes) :
    let r := getOrAssignUserNum d username
    let made := createRoom r.1 name 0 mailboxFlags [] r.2.toNat
    (r.2 ≤ 0 ∧ getOrCreateUserRoom d username name = (r.1, -1)) ∨
    (0 < r.2 ∧ ∃ l ∈ d.labels, l.name = mailboxRoomName r.2.toNat name ∧
      getOrCreateUserRoom d username name = (r.1, (l.roomNum : Int))) ∨
    (0 < r.2 ∧ KeyFree d (mailboxRoomName r.2.toNat name) ∧
      (getOrCreateUserRoom d username name).1 = made.1 ∧
      (∀ n, made.2 = .ok n → (getOrCreateUserRoom d username name).2 = n) ∧
      ∀ err, made.2 = .error err → (getOrCreateUserRoom d username name).2 = -1) := by
  intro r made
  obtain ⟨-, hlabels, -⟩ := numbering_rows d username
  rw [getOrCreateUserRoom]
  by_cases hnone : r.2 ≤ 0
  · exact .inl ⟨hnone, if_pos hnone⟩
  · right
    rw [if_neg hnone]
    cases hfind : r.1.labels.find? (fun l => l.name = mailboxRoomName r.2.toNat name) with
    | some l =>
      have hname : l.name = mailboxRoomName r.2.toNat name := by simpa using List.find?_some hfind
      exact .inl ⟨Int.not_le.mp hnone, l, hlabels ▸ List.mem_of_find?_eq_some hfind, hname, rfl⟩
    | none =>
      refine .inr ⟨Int.not_le.mp hnone, ?_, ?_⟩
      · intro l hl heq
        exact List.find?_eq_none.mp hfind l (hlabels ▸ hl) (decide_eq_true heq)
      · have hmade : made = createRoom (getOrAssignUserNum d username).1 name 0 mailboxFlags []
          (getOrAssignUserNum d username).2.toNat := rfl
        simp only [hmade]
        cases createRoom (getOrAssignUserNum d username).1 name 0 mailboxFlags []
          (getOrAssignUserNum d username).2.toNat with
        | mk d' result =>
          cases result with
          | ok n => exact ⟨rfl, fun _ h => by cases h; rfl, fun _ h => by cases h⟩
          | error err => exact ⟨rfl, fun _ h => (by cases h), fun _ _ => rfl⟩

theorem tabled_number (h : Tabled d) (username : Bytes) :
    Tabled (getOrAssignUserNum d username).1 := by
  obtain ⟨hrooms, hlabels, hseq⟩ := numbering_rows d username
  exact h.congr hrooms hlabels (Nat.le_of_eq hseq.symm)

theorem isRow_number (username : Bytes) (r : Room) (l : RoomLabel) :
    IsRow (getOrAssignUserNum d username).1 r l ↔ IsRow d r l := by
  obtain ⟨hrooms, hlabels, -⟩ := numbering_rows d username
  exact isRow_congr hrooms hlabels r l

/-- The rows are those that were there and, at most, the new room that is returned. -/
theorem getOrCreateUserRoom_rows (h : Tabled d) (username name : Bytes) :
    Tabled (getOrCreateUserRoom d username name).1 ∧
      ∀ r l, IsRow (getOrCreateUserRoom d username name).1 r l → IsRow d r l ∨
        d.roomSeq ≤ r.roomNum ∧ (r.roomNum : Int) = (getOrCreateUserRoom d username name).2 := by
  have hnumber := tabled_number h username
  rcases getOrCreateUserRoom_cases d username name with
    ⟨-, heq⟩ | ⟨-, l, -, -, heq⟩ | ⟨-, -, hdir, hok, -⟩
  · rw [heq]
    exact ⟨hnumber, fun r l hrow => .inl ((isRow_number username r l).mp hrow)⟩
  · rw [heq]
    exact ⟨hnumber, fun r l hrow => .inl ((isRow_number username r l).mp hrow)⟩
  · obtain ⟨htabled, hcases⟩ := createRoom_rows hnumber name 0 mailboxFlags []
      (getOrAssignUserNum d username).2.toNat
    rw [hdir]
    refine ⟨htabled, fun r l hrow => ?_⟩
    cases hcases with
    | inl hsame =>
      exact .inl ((isRow_number username r l).mp ((isRow_congr hsame.1 hsame.2.1 r l).mp hrow))
    | inr hmade =>
      obtain ⟨-, -, -, hnum, hrows⟩ := hmade
      cases (hrows r l).mp hrow with
      | inl hold => exact .inl ((isRow_number username r l).mp hold)
      | inr hnew =>
        rw [hok _ hnum, hnew.1]
        exact .inr ⟨Nat.le_of_eq (numbering_rows d username).2.2.symm, rfl⟩

theorem consistent_number (hd : Consistent d) (username : Bytes) :
    Consistent (getOrAssignUserNum d username).1 :=
  hd.of_rows (by simp) fun r l hrow => (isRow_number username r l).mp hrow

theorem consistent_getOrCreateUserRoom (h : Tabled d) (hd : Consistent d) {username : Bytes}
    (hfits : UserRoomFits d username name) :
    Consistent (getOrCreateUserRoom d username name).1 := by
  rcases getOrCreateUserRoom_cases d username name with
    ⟨-, heq⟩ | ⟨-, l, -, -, heq⟩ | ⟨hpos, hfree, hdir, -, -⟩
  · rw [heq]
    exact consistent_number hd username
  · rw [heq]
    exact consistent_number hd username
  · rw [hdir]
    refine consistent_createRoom (tabled_number h username) (consistent_number hd username) 0
      mailboxFlags [] ?_
    intro hname _ _ r l hrow howner
    rw [Int.toNat_of_nonneg (Int.le_of_lt hpos)] at howner
    rw [sqlLower_number]
    exact hfits.2 hpos hname hfree r l ((isRow_number username r l).mp hrow) howner

/-- The name of a room follows from its key. -/
theorem mailboxRoomName_right {n : Nat} {x y : Bytes}
    (h : mailboxRoomName n x = mailboxRoomName n y) : x = y := by
  exact (List.cons.inj (List.append_cancel_left h)).2

theorem answersNamed_of (h : Tabled d) (hd : Consistent d) {username : Bytes}
    (hfree : KeyNotPublic d username name) : AnswersNamed d username name := by
  intro hanswer
  rcases getOrCreateUserRoom_cases d username name with
    ⟨-, heq⟩ | ⟨hpos, l, hl, hkey, heq⟩ | ⟨hpos, -, hdir, hok, herror⟩
  · rw [heq] at hanswer
    omega
  · obtain ⟨r, hrow⟩ := h.row_of_label hl
    rw [heq]
    refine ⟨r, l, (isRow_number username r l).mpr hrow, by rw [hrow.2.2], ?_⟩
    have hname := hd.keyed r l hrow
    rw [hkey, keyOf] at hname
    split at hname
    · rw [mailboxRoomName_inj hname] at hname
      exact (mailboxRoomName_right hname).symm
    · next howner =>
      -- a public room that has the key as its name
      have hpublic : r.mailboxOwner = 0 :=
        Int.le_antisymm (Int.not_lt.mp howner) (h.owners r hrow.1)
      exact absurd hname.symm (hfree hpos r l hrow hpublic)
  · cases (createRoom_rows (tabled_number h username) name 0 mailboxFlags []
      (getOrAssignUserNum d username).2.toNat).2 with
    | inl hsame =>
      obtain ⟨err, herr⟩ := hsame.2.2
      rw [herror err herr] at hanswer
      exact absurd hanswer (by decide)
    | inr hmade =>
      obtain ⟨-, -, -, hnum, hrows⟩ := hmade
      rw [hdir, hok _ hnum]
      exact ⟨_, _, (hrows _ _).mpr (.inr ⟨rfl, rfl⟩), rfl, rfl⟩

/-! ## Updating, deleting and renaming -/

/-- Where the room is renamed, no other room of its kind has the name up to case. -/
def UpdateFits (floors : List Int) (d : Directory) (room : Room) (name : Bytes) : Prop :=
  ∀ existing, getRoomByNum d.store room.roomNum = some existing → name ≠ [] →
    ¬(existing.mailboxOwner = 0 ∧ isReservedRoomName name) →
    ¬(room.floorNum ≠ existing.floorNum ∧ room.floorNum ∉ floors) →
    (∀ l ∈ d.labels, l.name = keyOf existing.mailboxOwner name → l.roomNum = room.roomNum) →
      ∀ r l, IsRow d r l → r.mailboxOwner = existing.mailboxOwner → r.roomNum ≠ room.roomNum →
        d.sqlLower l.displayName ≠ d.sqlLower name

theorem updateRoom_keeps (floors : List Int) (h : Tabled d) (hd : Consistent d) (room : Room)
    (password : Bytes) (hfits : UpdateFits floors d room name) :
    Tabled (updateRoom floors d room name password).1 ∧
      Consistent (updateRoom floors d room name password).1 := by
  rw [updateRoom]
  cases hroom : getRoomByNum d.store room.roomNum with
  | none => exact ⟨h, hd⟩
  | some existing =>
    simp only
    split
    · exact ⟨h, hd⟩
    next hname =>
    split
    · exact ⟨h, hd⟩
    next hreserved =>
    split
    · exact ⟨h, hd⟩
    next hfloor =>
    rw [show (if existing.mailboxOwner > 0 then mailboxRoomName existing.mailboxOwner.toNat name
      else name) = keyOf existing.mailboxOwner name from rfl]
    split
    · exact ⟨h, hd⟩
    next htaken =>
    have hexisting : existing ∈ d.store.rooms ∧ existing.roomNum = room.roomNum := by
      exact ⟨List.mem_of_find?_eq_some hroom, by simpa using List.find?_some hroom⟩
    have hother := hfits existing hroom hname hreserved hfloor fun l hl hkey => by
      by_contra hne
      exact htaken (List.any_eq_true.mpr ⟨l, hl, decide_eq_true ⟨hkey, hne⟩⟩)
    generalize hd' : ({ d with store := _, labels := _ } : Directory) = d'
    have hlabels : d'.labels = d.labels.map (fun l =>
        if l.roomNum = room.roomNum then
          { l with name := keyOf existing.mailboxOwner name, displayName := name,
                   password := password }
        else l) := by rw [← hd']
    have hrooms : d'.store.rooms = d.store.rooms.map (fun r =>
        if r.roomNum = room.roomNum then
          { r with floorNum := room.floorNum, qrFlags := room.qrFlags,
                   defaultView := room.defaultView }
        else r) := by rw [← hd']
    have hroomNums : d'.store.rooms.map Room.roomNum = d.store.rooms.map Room.roomNum := by
      rw [hrooms, List.map_map]
      refine List.map_congr_left fun r _ => ?_
      simp only [Function.comp]
      split
      · rfl
      · rfl
    have hlabelNums : d'.labels.map RoomLabel.roomNum = d.labels.map RoomLabel.roomNum := by
      rw [hlabels, List.map_map]
      refine List.map_congr_left fun l _ => ?_
      simp only [Function.comp]
      split
      · rfl
      · rfl
    have hback : ∀ r' ∈ d'.store.rooms, ∃ r ∈ d.store.rooms, r'.roomNum = r.roomNum ∧
        r'.mailboxOwner = r.mailboxOwner := by
      intro r' hr'
      rw [hrooms] at hr'
      obtain ⟨r, hr, rfl⟩ := List.mem_map.mp hr'
      refine ⟨r, hr, ?_⟩
      split
      · exact ⟨rfl, rfl⟩
      · exact ⟨rfl, rfl⟩
    have htabled : Tabled d' := by
      refine ⟨by rw [hroomNums, hlabelNums]; exact h.aligned, by rw [hroomNums]; exact h.unique,
        ?_, ?_, by rw [← hd']; exact h.seq⟩
      · intro r' hr'
        obtain ⟨r, hr, hnum, -⟩ := hback r' hr'
        rw [hnum, ← hd']
        exact h.below r hr
      · intro r' hr'
        obtain ⟨r, hr, -, howner⟩ := hback r' hr'
        rw [howner]
        exact h.owners r hr
    -- a row of the new table is a row of the old one, with the new name if it is the room's
    have hrow : ∀ r' l', IsRow d' r' l' → ∃ r l, IsRow d r l ∧ r'.roomNum = r.roomNum ∧
        r'.mailboxOwner = r.mailboxOwner ∧
        (r.roomNum = room.roomNum ∧ r = existing ∧ l'.displayName = name ∧
            l'.name = keyOf existing.mailboxOwner name ∨
          r.roomNum ≠ room.roomNum ∧ l' = l) := by
      rintro r' l' ⟨hr', hl', hnum'⟩
      obtain ⟨r, hr, hnum, howner⟩ := hback r' hr'
      rw [hlabels] at hl'
      obtain ⟨l, hl, rfl⟩ := List.mem_map.mp hl'
      have hlnum : l.roomNum = r.roomNum := by
        rw [← hnum, ← hnum']
        split
        · rfl
        · rfl
      refine ⟨r, l, ⟨hr, hl, hlnum⟩, hnum, howner, ?_⟩
      by_cases hthis : l.roomNum = room.roomNum
      · rw [if_pos hthis]
        have hrnum := hlnum.symm.trans hthis
        exact .inl ⟨hrnum, h.room_eq hr hexisting.1 (hrnum.trans hexisting.2.symm), rfl, rfl⟩
      · rw [if_neg hthis]
        exact .inr ⟨fun heq => hthis (hlnum.trans heq), rfl⟩
    refine ⟨htabled, ?_, ?_⟩
    · intro r' l' hrow'
      obtain ⟨r, l, hold, -, howner, hthis | hthat⟩ := hrow r' l' hrow'
      · obtain ⟨-, rfl, hdisplay, hkey⟩ := hthis
        rw [hkey, hdisplay, howner]
      · rw [hthat.2, howner]
        exact hd.keyed r l hold
    · intro r₁ l₁ r₂ l₂ hrow₁ hrow₂ howner hcase
      have hsql : d'.sqlLower = d.sqlLower := by rw [← hd']
      dsimp only at hcase
      rw [hsql] at hcase
      obtain ⟨r, l, hold, hnum, howner', hcases⟩ := hrow r₁ l₁ hrow₁
      obtain ⟨r', l', hold', hnum', howner'', hcases'⟩ := hrow r₂ l₂ hrow₂
      have howners : r.mailboxOwner = r'.mailboxOwner := by rw [← howner', howner, howner'']
      refine htabled.room_eq hrow₁.1 hrow₂.1 ?_
      rw [hnum, hnum']
      cases hcases with
      | inl hthis =>
        cases hcases' with
        | inl hthis' => rw [hthis.1, hthis'.1]
        | inr hthat' =>
          rw [hthis.2.2.1, hthat'.2] at hcase
          rw [hthis.2.1] at howners
          exact absurd hcase.symm (hother r' l' hold' howners.symm hthat'.1)
      | inr hthat =>
        cases hcases' with
        | inl hthis' =>
          rw [hthis'.2.2.1, hthat.2] at hcase
          rw [hthis'.2.1] at howners
          exact absurd hcase (hother r l hold howners hthat.1)
        | inr hthat' =>
          rw [hthat.2, hthat'.2] at hcase
          rw [hd.distinct r l r' l' hold hold' howners hcase]

theorem killRoom_keeps (m : Realm) (h : Tabled m.dir) (roomNum : Nat) :
    Tabled (killRoom m roomNum).1.dir ∧
      (∀ r l, IsRow (killRoom m roomNum).1.dir r l → IsRow m.dir r l) ∧
      (1 < roomNum → ∀ r l, IsRow (killRoom m roomNum).1.dir r l → r.roomNum ≠ roomNum) := by
  rw [killRoom]
  split
  · next hlobby => exact ⟨h, fun _ _ hrow => hrow, fun hlt => absurd hlt (by rw [hlobby]; decide)⟩
  next hlobby =>
  split
  · next haide => exact ⟨h, fun _ _ hrow => hrow, fun hlt => absurd hlt (by rw [haide]; decide)⟩
  · have hrooms : (m.dir.store.rooms.filter (fun r => r.roomNum ≠ roomNum)).map Room.roomNum =
        (m.dir.store.rooms.map Room.roomNum).filter (· ≠ roomNum) := by
      rw [List.filter_map]
      rfl
    have hlabels : (m.dir.labels.filter (fun l => l.roomNum ≠ roomNum)).map RoomLabel.roomNum =
        (m.dir.labels.map RoomLabel.roomNum).filter (· ≠ roomNum) := by
      rw [List.filter_map]
      rfl
    refine ⟨⟨?_, ?_, ?_, ?_, h.seq⟩, ?_, ?_⟩
    · simp only [hrooms, hlabels, h.aligned]
    · simp only [hrooms]
      exact h.unique.filter _
    · exact fun r hr => h.below r (List.mem_of_mem_filter hr)
    · exact fun r hr => h.owners r (List.mem_of_mem_filter hr)
    · exact fun r l hrow =>
        ⟨List.mem_of_mem_filter hrow.1, List.mem_of_mem_filter hrow.2.1, hrow.2.2⟩
    · exact fun _ r l hrow => by simpa using (List.mem_filter.mp hrow.1).2

/-- To rename a room to what it is called changes nothing. -/
theorem renameRoom_self {roomNum : Nat}
    (h : ∀ l ∈ d.labels, l.roomNum = roomNum → l.displayName = name) :
    renameRoom d roomNum name = d := by
  have hlabels : d.labels.map (fun l =>
      if l.roomNum = roomNum then { l with displayName := name } else l) = d.labels := by
    conv_rhs => rw [← List.map_id d.labels]
    refine List.map_congr_left fun l hl => ?_
    split
    · next hnum => rw [← h l hl hnum]; rfl
    · rfl
  rw [renameRoom, hlabels]

/-! ## Mailboxes -/

def IsInbox (name : Bytes) : Prop :=
  upper name = bytes "INBOX" ∨ upper (leafOf name) = bytes "INBOX"

instance (name : Bytes) : Decidable (IsInbox name) := inferInstanceAs (Decidable (_ ∨ _))

theorem resolveMailbox_inbox {user : Bytes} (h : IsInbox name) :
    resolveMailbox d user name = ((getOrCreateUserRoom d user (bytes "Mail")).1,
      answered (getOrCreateUserRoom d user (bytes "Mail")).2) := if_pos h

theorem resolveMailbox_named {user : Bytes} (h : ¬IsInbox name) :
    resolveMailbox d user name = ((resolveRoom d user (leafOf name)).1,
      (resolveRoom d user (leafOf name)).2.map Room.roomNum) := if_neg h

@[simp] theorem sqlLower_resolveMailbox (d : Directory) (user name : Bytes) :
    (resolveMailbox d user name).1.sqlLower = d.sqlLower := by
  rw [resolveMailbox]
  split
  · exact sqlLower_getOrCreateUserRoom d user (bytes "Mail")
  · exact sqlLower_resolveRoom d user (leafOf name)

theorem resolveRoom_keeps (h : Tabled d) (user name : Bytes) : Tabled (resolveRoom d user name).1 ∧
      ∀ r l, IsRow (resolveRoom d user name).1 r l ↔ IsRow d r l := by
  rw [resolveRoom]
  split
  · exact ⟨h, fun _ _ => Iff.rfl⟩
  split
  · exact ⟨h, fun _ _ => Iff.rfl⟩
  simp only
  split
  · exact ⟨tabled_number h user, isRow_number user⟩
  · exact ⟨tabled_number h user, isRow_number user⟩

theorem resolveMailbox_tabled (h : Tabled d) (user name : Bytes) :
    Tabled (resolveMailbox d user name).1 := by
  by_cases hinbox : IsInbox name
  · rw [resolveMailbox_inbox hinbox]
    exact (getOrCreateUserRoom_rows h user (bytes "Mail")).1
  · rw [resolveMailbox_named hinbox]
    exact (resolveRoom_keeps h user (leafOf name)).1

theorem resolveMailbox_consistent (h : Tabled d) (hd : Consistent d) {user : Bytes}
    (hfits : IsInbox name → UserRoomFits d user (bytes "Mail")) :
    Consistent (resolveMailbox d user name).1 := by
  by_cases hinbox : IsInbox name
  · rw [resolveMailbox_inbox hinbox]
    exact consistent_getOrCreateUserRoom h hd (hfits hinbox)
  · rw [resolveMailbox_named hinbox]
    exact hd.of_rows (sqlLower_resolveRoom d user (leafOf name)) fun r l hrow =>
      ((resolveRoom_keeps h user (leafOf name)).2 r l).mp hrow

/-! ## Calls and runs -/

inductive FolderCommand where
  | create (args : Bytes)
  | delete (args : Bytes)
  | rename (args : Bytes)

def FolderCommand.mailbox : FolderCommand → MailboxCommand
  | .create args => .create args
  | .delete args => .delete args
  | .rename args => .rename args

/-- The calls that make, name and remove rooms. -/
inductive NameCall where
  | create (name : Bytes) (floor : Int) (qrFlags : Nat) (password : Bytes) (owner : Nat)
  | update (floors : List Int) (room : Room) (name password : Bytes)
  | userRoom (username name : Bytes)
  | kill (roomNum : Nat)
  | imap (w : World) (subject : Bytes → Bytes) (s : Imap.Session) (cmd : FolderCommand)

def nameStep (h : Host) : NameCall → Host
  | .create name floor qrFlags password owner =>
    h.withDir (createRoom h.realm.dir name floor qrFlags password owner).1
  | .update floors room name password =>
    h.withDir (updateRoom floors h.realm.dir room name password).1
  | .userRoom username name => h.withDir (getOrCreateUserRoom h.realm.dir username name).1
  | .kill roomNum => { h with realm := (killRoom h.realm roomNum).1 }
  | .imap w subject s cmd => (handle w subject h s cmd.mailbox).host

/-- The user and the name a call gives to `GetOrCreateUserRoom`. -/
def asked : NameCall → Option (Bytes × Bytes)
  | .userRoom username name => some (username, name)
  | .imap _ _ s (.create args) => some (s.user, leafOf (unquoted args))
  | .imap _ _ s (.delete args) =>
    if IsInbox (unquoted args) then some (s.user, bytes "Mail") else none
  | .imap _ _ s (.rename args) =>
    if IsInbox (unquoted (splitWord args).1) then some (s.user, bytes "Mail") else none
  | _ => none

/-- Rooms are keyed and found by their names in every state of the run, and no call is
    answered with a room of another name. -/
def NamesKept : Host → List NameCall → Prop
  | h, [] => Resolvable h.realm.dir
  | h, call :: calls => Resolvable h.realm.dir ∧
      (∀ a, asked call = some a → AnswersNamed h.realm.dir a.1 a.2) ∧
      NamesKept (nameStep h call) calls

/-- No room comes to stand beside a namesake, RENAME names the room what it is called, and no
    public room is named like the key that is looked for. -/
def CallFits (d : Directory) : NameCall → Prop
  | .create name _ _ _ owner =>
    name ≠ [] → ¬(owner = 0 ∧ isReservedRoomName name) → KeyFree d (keyOf owner name) →
      NoNamesake d owner name
  | .update floors room name _ => UpdateFits floors d room name
  | .userRoom username name => UserRoomFits d username name
  | .kill _ => True
  | .imap _ _ s (.create args) => UserRoomFits d s.user (leafOf (unquoted args))
  | .imap _ _ s (.delete args) => IsInbox (unquoted args) → KeyNotPublic d s.user (bytes "Mail")
  | .imap _ _ s (.rename args) =>
    let wanted := unquoted (splitWord args).1
    (IsInbox wanted → UserRoomFits d s.user (bytes "Mail")) ∧
      ∀ room ∈ (resolveMailbox d s.user wanted).2, ∀ l ∈ (resolveMailbox d s.user wanted).1.labels,
        l.roomNum = room → l.displayName = leafOf (unquoted (splitWord args).2)

def EachNameCall (C : Directory → NameCall → Prop) : Host → List NameCall → Prop
  | _, [] => True
  | h, call :: calls => C h.realm.dir call ∧ EachNameCall C (nameStep h call) calls

/-- DELETE leaves no row that was not there, even where it made the inbox it removes. -/
theorem delete_keeps (w : World) (subject : Bytes → Bytes) (h : Host) (s : Imap.Session) (args : Bytes)
    (ht : Tabled h.realm.dir) :
    Tabled (handle w subject h s (.delete args)).host.realm.dir ∧
      ∀ r l, IsRow (handle w subject h s (.delete args)).host.realm.dir r l →
        IsRow h.realm.dir r l := by
  have htabled := resolveMailbox_tabled ht s.user (unquoted args)
  -- the one row that may be new is that of the room that was found
  have hrows : ∀ r l, IsRow (resolveMailbox h.realm.dir s.user (unquoted args)).1 r l →
      IsRow h.realm.dir r l ∨ 1 < r.roomNum ∧
        (resolveMailbox h.realm.dir s.user (unquoted args)).2 = some r.roomNum := by
    intro r l hrow
    by_cases hinbox : IsInbox (unquoted args)
    · rw [resolveMailbox_inbox hinbox] at hrow ⊢
      cases (getOrCreateUserRoom_rows ht s.user (bytes "Mail")).2 r l hrow with
      | inl hold => exact .inl hold
      | inr hnew =>
        refine .inr ⟨Nat.lt_of_lt_of_le ht.seq hnew.1, ?_⟩
        rw [← hnew.2, answered, if_neg (Int.not_lt.mpr (Int.natCast_nonneg _)), Int.toNat_natCast]
    · rw [resolveMailbox_named hinbox] at hrow
      exact .inl (((resolveRoom_keeps ht s.user (leafOf (unquoted args))).2 r l).mp hrow)
  rw [handle]
  cases hfound : (resolveMailbox h.realm.dir s.user (unquoted args)).2 with
  | none =>
    refine ⟨htabled, fun r l hrow => ?_⟩
    refine (hrows r l hrow).resolve_right fun hnew => ?_
    rw [hfound] at hnew
    cases hnew.2
  | some room =>
    simp only
    obtain ⟨hkilled, hsub, hgone⟩ := killRoom_keeps
      (h.withDir (resolveMailbox h.realm.dir s.user (unquoted args)).1).realm htabled room
    have hdir : ∀ r l, IsRow (killRoom
        (h.withDir (resolveMailbox h.realm.dir s.user (unquoted args)).1).realm room).1.dir r l →
        IsRow h.realm.dir r l := by
      intro r l hrow
      refine (hrows r l (hsub r l hrow)).resolve_right fun hnew => ?_
      rw [hfound, Option.some.injEq] at hnew
      exact hgone (hnew.2 ▸ hnew.1) r l hrow hnew.2.symm
    cases hkill : killRoom
        (h.withDir (resolveMailbox h.realm.dir s.user (unquoted args)).1).realm room with
    | mk m result =>
      rw [hkill] at hkilled hdir
      cases result with
      | ok _ => exact ⟨hkilled, hdir⟩
      | error err => exact ⟨hkilled, hdir⟩

theorem sqlLower_delete (w : World) (subject : Bytes → Bytes) (h : Host) (s : Imap.Session)
    (args : Bytes) :
    (handle w subject h s (.delete args)).host.realm.dir.sqlLower = h.realm.dir.sqlLower := by
  have hresolved := sqlLower_resolveMailbox h.realm.dir s.user (unquoted args)
  rw [handle]
  cases (resolveMailbox h.realm.dir s.user (unquoted args)).2 with
  | none => exact hresolved
  | some room =>
    have hkilled := sqlLower_killRoom
      (h.withDir (resolveMailbox h.realm.dir s.user (unquoted args)).1).realm room
    simp only
    cases hkill : killRoom
        (h.withDir (resolveMailbox h.realm.dir s.user (unquoted args)).1).realm room with
    | mk m result =>
      rw [hkill] at hkilled
      cases result with
      | ok _ => exact hkilled.trans hresolved
      | error err => exact hkilled.trans hresolved

/-- One call that fits. -/
theorem nameStep_keeps (h : Host) (ht : Tabled h.realm.dir) (hd : Consistent h.realm.dir)
    (call : NameCall) (hfits : CallFits h.realm.dir call) :
    Tabled (nameStep h call).realm.dir ∧ Consistent (nameStep h call).realm.dir ∧
      ∀ a, asked call = some a → AnswersNamed h.realm.dir a.1 a.2 := by
  cases call with
  | create name floor qrFlags password owner =>
    exact ⟨(createRoom_rows ht name floor qrFlags password owner).1,
      consistent_createRoom ht hd floor qrFlags password hfits, fun a ha => by cases ha⟩
  | update floors room name password =>
    obtain ⟨htabled, hcons⟩ := updateRoom_keeps floors ht hd room password hfits
    exact ⟨htabled, hcons, fun a ha => by cases ha⟩
  | userRoom username name =>
    refine ⟨(getOrCreateUserRoom_rows ht username name).1,
      consistent_getOrCreateUserRoom ht hd hfits, ?_⟩
    rintro a ⟨⟩
    exact answersNamed_of ht hd hfits.1
  | kill roomNum =>
    obtain ⟨htabled, hsub, -⟩ := killRoom_keeps h.realm ht roomNum
    exact ⟨htabled, hd.of_rows (sqlLower_killRoom h.realm roomNum) hsub, fun a ha => by cases ha⟩
  | imap w subject s cmd =>
    cases cmd with
    | create args =>
      refine ⟨(getOrCreateUserRoom_rows ht s.user (leafOf (unquoted args))).1,
        consistent_getOrCreateUserRoom ht hd hfits, ?_⟩
      rintro a ⟨⟩
      exact answersNamed_of ht hd hfits.1
    | delete args =>
      obtain ⟨htabled, hrows⟩ := delete_keeps w subject h s args ht
      refine ⟨htabled, hd.of_rows (sqlLower_delete w subject h s args) hrows, fun a ha => ?_⟩
      rw [asked] at ha
      split at ha
      · next hinbox =>
        obtain rfl := Option.some.inj ha
        exact answersNamed_of ht hd (hfits hinbox)
      · cases ha
    | rename args =>
      obtain ⟨hinbox, hname⟩ := hfits
      have htabled := resolveMailbox_tabled ht s.user (unquoted (splitWord args).1)
      have hcons := resolveMailbox_consistent ht hd hinbox
      have hdir : (nameStep h (.imap w subject s (.rename args))).realm.dir =
          (resolveMailbox h.realm.dir s.user (unquoted (splitWord args).1)).1 := by
        rw [nameStep, FolderCommand.mailbox, handle]
        cases hfound : (resolveMailbox h.realm.dir s.user (unquoted (splitWord args).1)).2 with
        | none => rfl
        | some room => exact renameRoom_self (hname room hfound)
      rw [hdir]
      refine ⟨htabled, hcons, fun a ha => ?_⟩
      rw [asked] at ha
      split at ha
      · next hmail =>
        obtain rfl := Option.some.inj ha
        exact answersNamed_of ht hd (hinbox hmail).1
      · cases ha

/-- In every run of calls that fit, every room stays keyed and found by its name. -/
theorem names_kept (h : Host) (ht : Tabled h.realm.dir) (hd : Consistent h.realm.dir)
    (calls : List NameCall) (hfits : EachNameCall CallFits h calls) : NamesKept h calls := by
  induction calls generalizing h with
  | nil => exact hd.resolvable
  | cons call calls ih =>
    obtain ⟨htabled, hcons, hanswer⟩ := nameStep_keeps h ht hd call hfits.1
    exact ⟨hd.resolvable, hanswer, ih _ htabled hcons hfits.2⟩

/-- A site with the user alice and no room yet. -/
def aliceHost : Host where
  realm :=
    { dir := ⟨⟨[], [], [], [], 1, [], [(bytes "alice", 1)], [bytes "alice"], []⟩, [], 2, 100, .ofAscii⟩
      acl := []
      levels := []
      unlocked := [] }
  flags := []

def aliceSession : Imap.Session := ⟨bytes "alice", false, false, 0, []⟩

/-- A world whose clock stands still and which is not asked for anything. -/
def quietWorld : World := ⟨0, [], [], fun _ => none, fun _ _ => []⟩

theorem aliceHost_tabled : Tabled aliceHost.realm.dir :=
  ⟨rfl, List.nodup_nil, fun _ hr => (by cases hr), fun _ hr => (by cases hr), by decide⟩

theorem aliceHost_consistent : Consistent aliceHost.realm.dir :=
  ⟨fun _ _ hrow => (by cases hrow.1), fun _ _ _ _ hrow => (by cases hrow.1)⟩

theorem names_kept_create :
    NamesKept aliceHost [.imap quietWorld id aliceSession (.create (bytes "\"INBOX/Work\"")),
      .kill 100] := by
  refine names_kept aliceHost aliceHost_tabled aliceHost_consistent _ ⟨⟨?_, ?_⟩, trivial, trivial⟩
  · intro _ r l hrow
    cases hrow.1
  · intro _ _ _ r l hrow
    cases hrow.1

/-- Alice makes a folder and renames it: the key stays behind. -/
theorem rename_leaves_key :
    ¬∀ (h : Host) (calls : List NameCall), Tabled h.realm.dir → Consistent h.realm.dir →
      NamesKept h calls := by
  intro hall
  obtain ⟨-, -, -, -, hlast⟩ := hall aliceHost
    [.imap quietWorld id aliceSession (.create (bytes "Work")),
      .imap quietWorld id aliceSession (.rename (bytes "Work Play"))]
    aliceHost_tabled aliceHost_consistent
  have hkey := hlast.keyed ⟨100, 0, mailboxFlags, 0, 1, 0⟩
    ⟨100, bytes "0000000001.Work", bytes "Play", []⟩
    ⟨by decide +kernel, by decide +kernel, rfl⟩
  exact absurd hkey (by decide +kernel)

end QuackMail.Citadel
