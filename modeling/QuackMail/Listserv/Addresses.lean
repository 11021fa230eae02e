import QuackMail.Listserv.Lists

/-! # The addresses of mailing lists

The addresses of the lists share one namespace: `ResolveAddress` splits a local part at a
reserved suffix or at the first `-confirm-`, and which split wins depends on the lists there
are.  `SetList` reserves the suffixes but not `-confirm-`.
-/

namespace QuackMail.Listserv

open Citadel

/-! ## What `SetList` keeps -/

/-- What every table of lists that `SetList` has written satisfies. -/
structure Tidy (lists : List MailList) : Prop where
  nonempty : ∀ l ∈ lists, l.address ≠ []
  folded : ∀ l ∈ lists, lower l.address = l.address
  unreserved : ∀ l ∈ lists, ∀ s ∈ reservedSuffixes, endsIn l.address s = false
  rooms : (lists.map MailList.roomNum).Nodup
  addresses : ∀ l ∈ lists, ∀ m ∈ lists, l.address = m.address → l.roomNum = m.roomNum

theorem tidy_nil : Tidy [] := ⟨by simp, by simp, by simp, by simp, by simp⟩

variable {t : Tables} {l : MailList} {k : Nat} {s a u p : Bytes}

theorem listRefusal_none {row : MailList} (h : listRefusal t row = none) :
    (∀ s ∈ reservedSuffixes, endsIn row.address s = false) ∧
      ∀ l ∈ t.lists, l.address = row.address → l.roomNum = row.roomNum := by
  unfold listRefusal at h
  split at h
  · simp at h
  · split at h
    · simp at h
    · next hnone =>
      split at h
      · simp at h
      · next hclash =>
        refine ⟨fun s hs => by simpa using List.find?_eq_none.mp hnone s hs, ?_⟩
        intro l hl haddress
        by_contra hne
        exact hclash (List.any_eq_true.mpr ⟨l, hl, by simp [haddress, hne]⟩)

theorem settled_nonempty (t : Tables) (list : MailList) : (settled t list).address ≠ [] := by
  simp only [settled, lower]
  split_ifs with hempty
  · simp [defaultAddress, bytes]
  · simpa using hempty

theorem settled_folded (t : Tables) (list : MailList) :
    lower (settled t list).address = (settled t list).address := by
  simp [settled]

theorem tidy_updateRow {lists : List MailList} {row : MailList} (h : Tidy lists)
    (hnonempty : row.address ≠ []) (hfolded : lower row.address = row.address)
    (hunreserved : ∀ s ∈ reservedSuffixes, endsIn row.address s = false)
    (hclash : ∀ l ∈ lists, l.address = row.address → l.roomNum = row.roomNum) :
    Tidy (lists.map (updateRow row)) := by
  have hroom : ∀ l, (updateRow row l).roomNum = l.roomNum := by
    intro l
    rw [updateRow]
    split_ifs with hl
    · exact hl.symm
    · rfl
  -- a row of the new table has the address of the new row or is an old row
  have haddress : ∀ l, (updateRow row l).address =
      if l.roomNum = row.roomNum then row.address else l.address := by
    intro l
    rw [updateRow]
    split_ifs with hl
    · rfl
    · rfl
  refine ⟨?_, ?_, ?_, ?_, ?_⟩
  · intro m hm
    obtain ⟨l, hl, rfl⟩ := List.mem_map.mp hm
    rw [haddress]
    split_ifs
    · exact hnonempty
    · exact h.nonempty l hl
  · intro m hm
    obtain ⟨l, hl, rfl⟩ := List.mem_map.mp hm
    rw [haddress]
    split_ifs
    · exact hfolded
    · exact h.folded l hl
  · intro m hm
    obtain ⟨l, hl, rfl⟩ := List.mem_map.mp hm
    rw [haddress]
    split_ifs
    · exact hunreserved
    · exact h.unreserved l hl
  · rw [List.map_map]
    have hcomp : MailList.roomNum ∘ updateRow row = MailList.roomNum := funext hroom
    rw [hcomp]
    exact h.rooms
  · intro m hm n hn heq
    obtain ⟨l, hl, rfl⟩ := List.mem_map.mp hm
    obtain ⟨k, hk, rfl⟩ := List.mem_map.mp hn
    rw [haddress, haddress] at heq
    rw [hroom, hroom]
    split_ifs at heq with hlrow hkrow hkrow
    · rw [hlrow, hkrow]
    · exact hlrow.trans (hclash k hk heq.symm).symm
    · exact (hclash l hl heq).trans hkrow.symm
    · exact h.addresses l hl k hk heq

theorem tidy_append {lists : List MailList} {row : MailList} (h : Tidy lists)
    (hnonempty : row.address ≠ []) (hfolded : lower row.address = row.address)
    (hunreserved : ∀ s ∈ reservedSuffixes, endsIn row.address s = false)
    (hclash : ∀ l ∈ lists, l.address = row.address → l.roomNum = row.roomNum)
    (hnew : ∀ l ∈ lists, l.roomNum ≠ row.roomNum) : Tidy (lists ++ [row]) := by
  refine ⟨?_, ?_, ?_, ?_, ?_⟩
  · intro l hl
    cases List.mem_append.mp hl with
    | inl hl => exact h.nonempty l hl
    | inr hl => rw [List.mem_singleton.mp hl]; exact hnonempty
  · intro l hl
    cases List.mem_append.mp hl with
    | inl hl => exact h.folded l hl
    | inr hl => rw [List.mem_singleton.mp hl]; exact hfolded
  · intro l hl
    cases List.mem_append.mp hl with
    | inl hl => exact h.unreserved l hl
    | inr hl => rw [List.mem_singleton.mp hl]; exact hunreserved
  · rw [List.map_append, List.nodup_append]
    refine ⟨h.rooms, by simp, ?_⟩
    intro n hn m hm
    obtain ⟨l, hl, rfl⟩ := List.mem_map.mp hn
    rw [List.map_singleton, List.mem_singleton] at hm
    rw [hm]
    exact hnew l hl
  · intro l hl m hm heq
    cases List.mem_append.mp hl with
    | inl hl =>
      cases List.mem_append.mp hm with
      | inl hm => exact h.addresses l hl m hm heq
      | inr hm =>
        rw [List.mem_singleton.mp hm] at heq ⊢
        exact hclash l hl heq
    | inr hl =>
      rw [List.mem_singleton.mp hl] at heq ⊢
      cases List.mem_append.mp hm with
      | inl hm => exact (hclash m hm heq.symm).symm
      | inr hm => rw [List.mem_singleton.mp hm]

theorem tidy_setList (h : Tidy t.lists) (list : MailList) (saves : Bool) :
    Tidy (setList t list saves).1.lists := by
  unfold setList
  split
  · exact h
  · next room hroom =>
    split
    · exact h
    · simp only
      split
      · exact h
      · next hnone =>
        obtain ⟨hunreserved, hclash⟩ := listRefusal_none hnone
        have hnonempty := settled_nonempty t list
        have hfolded := settled_folded t list
        split
        · split
          · exact tidy_updateRow h hnonempty hfolded hunreserved hclash
          · exact h
        · next hnew =>
          split
          · refine tidy_append h hnonempty hfolded hunreserved hclash ?_
            intro l hl heq
            exact hnew (List.any_eq_true.mpr ⟨l, hl, by simpa using heq⟩)
          · exact h

theorem tidy_removeList (h : Tidy t.lists) (roomNum : Nat) : Tidy (removeList t roomNum).lists := by
  have hsub : ∀ l ∈ (removeList t roomNum).lists, l ∈ t.lists := fun l hl =>
    List.mem_of_mem_filter hl
  exact ⟨fun l hl => h.nonempty l (hsub l hl), fun l hl => h.folded l (hsub l hl),
    fun l hl => h.unreserved l (hsub l hl), h.rooms.sublist (List.filter_sublist.map _),
    fun l hl m hm => h.addresses l (hsub l hl) m (hsub m hm)⟩

/-- The tables that calls of `SetList` and `RemoveList` can lead to, while rooms and users
    change as they will. -/
inductive Accepted : Tables → Prop where
  | empty (dir : Directory) : Accepted ⟨dir, []⟩
  | set {t : Tables} (h : Accepted t) (list : MailList) (saves : Bool) :
      Accepted (setList t list saves).1
  | remove {t : Tables} (h : Accepted t) (roomNum : Nat) : Accepted (removeList t roomNum)
  | meanwhile {t : Tables} (h : Accepted t) (dir : Directory) : Accepted ⟨dir, t.lists⟩

theorem Accepted.tidy (h : Accepted t) : Tidy t.lists := by
  induction h with
  | empty dir => exact tidy_nil
  | set h list saves ih => exact tidy_setList ih list saves
  | remove h roomNum ih => exact tidy_removeList ih roomNum
  | meanwhile h dir ih => exact ih

/-! ## Looking up a list -/

/-- A list as a caller gets it. -/
def named (t : Tables) (l : MailList) : MailList :=
  { l with displayName := displayNameOf t.dir l.roomNum }

theorem Tidy.room_unique {lists : List MailList} (h : Tidy lists) {m : MailList} (hl : l ∈ lists)
    (hm : m ∈ lists) (heq : l.roomNum = m.roomNum) : l = m :=
  List.inj_on_of_nodup_map h.rooms hl hm heq

theorem getList_of_mem (h : Tidy t.lists) (hl : l ∈ t.lists) :
    getList t l.roomNum = some (named t l) := by
  cases hfind : t.lists.find? fun m => m.roomNum = l.roomNum with
  | none => simpa using List.find?_eq_none.mp hfind l hl
  | some m =>
    have hroom : m.roomNum = l.roomNum := by simpa using List.find?_some hfind
    rw [getList, hfind, h.room_unique (List.mem_of_find?_eq_some hfind) hl hroom]
    rfl

theorem load_of_mem (h : Tidy t.lists) (hl : l ∈ t.lists)
    (henabled : l.enabled = true) : load t l.address = some (named t l) := by
  cases hfind : t.lists.find? fun m => m.address = l.address ∧ m.enabled = true with
  | none => simpa [henabled] using List.find?_eq_none.mp hfind l hl
  | some m =>
    have hm := List.mem_of_find?_eq_some hfind
    have hsame : m.address = l.address ∧ m.enabled = true := by simpa using List.find?_some hfind
    have hroom := h.addresses m hm l hl hsame.1
    rw [load, hfind, Option.bind_some, getList_of_mem h hm, h.room_unique hm hl hroom]

theorem exists_of_load (h : Tidy t.lists) {address : Bytes} {m : MailList}
    (hload : load t address = some m) :
    ∃ l ∈ t.lists, l.address = address ∧ l.enabled = true ∧ m = named t l := by
  obtain ⟨l, hfind, hget⟩ := Option.bind_eq_some_iff.mp hload
  have hl := List.mem_of_find?_eq_some hfind
  have hsame : l.address = address ∧ l.enabled = true := by simpa using List.find?_some hfind
  rw [getList_of_mem h hl, Option.some.injEq] at hget
  exact ⟨l, hl, hsame.1, hsame.2, hget.symm⟩

theorem load_eq_none (h : Tidy t.lists) {address : Bytes}
    (hnone : ∀ l ∈ t.lists, l.enabled = true → l.address ≠ address) : load t address = none := by
  cases hload : load t address with
  | none => rfl
  | some m =>
    obtain ⟨l, hl, haddress, henabled, -⟩ := exists_of_load h hload
    exact absurd haddress (hnone l hl henabled)

/-- A disabled list is not found at its address, and no other list is. -/
theorem load_disabled (h : Tidy t.lists) (hl : l ∈ t.lists)
    (hdisabled : l.enabled = false) : load t l.address = none := by
  refine load_eq_none h fun m hm henabled haddress => ?_
  rw [h.room_unique hm hl (h.addresses m hm l hl haddress), hdisabled] at henabled
  simp at henabled

/-! ## Where `-confirm-` stands -/

def confirmInfix : Bytes := bytes "-confirm-"

theorem find_unique {needle : Bytes} (hat : needle <+: s.drop k)
    (hbefore : ∀ q < k, ¬needle <+: s.drop q) : find needle s = some k := by
  obtain ⟨q, hq, hfind⟩ := exists_find_le hat
  cases Nat.lt_or_eq_of_le hq with
  | inl hlt => exact absurd (find_spec hfind).1 (hbefore q hlt)
  | inr heq => rw [hfind, heq]

/-- An infix that starts before a `-` ends at it at the latest, since no letter of it is a
    `-`. -/
theorem confirm_before (hk : k < a.length) (hat : confirmInfix <+: (a ++ ch '-' :: u).drop k) :
    confirmInfix <+: (a ++ [ch '-']).drop k := by
  have hdash : (a ++ ch '-' :: u).drop k = (a.drop k ++ [ch '-']) ++ u := by
    rw [List.drop_append_of_le_length (by omega)]
    simp
  have hgoal : (a ++ [ch '-']).drop k = a.drop k ++ [ch '-'] :=
    List.drop_append_of_le_length (by omega)
  rw [hdash] at hat
  rw [hgoal]
  by_cases hlong : confirmInfix.length ≤ (a.drop k ++ [ch '-']).length
  · exact List.prefix_of_prefix_length_le hat (List.prefix_append _ _) hlong
  -- the `-` after `a` would be a letter of `confirm`
  · have hd : (a.drop k).length < confirmInfix.length := by
      simp only [List.length_append, List.length_singleton] at hlong
      omega
    have hpos : 0 < (a.drop k).length := by
      rw [List.length_drop]
      omega
    have hget : confirmInfix[(a.drop k).length]? = some (ch '-') := by
      obtain ⟨r, hr⟩ := hat
      have hleft : (confirmInfix ++ r)[(a.drop k).length]? = confirmInfix[(a.drop k).length]? :=
        List.getElem?_append_left hd
      rw [← hleft, hr, List.append_assoc, List.getElem?_append_right (Nat.le_refl _)]
      simp
    have hletters : ∀ n < confirmInfix.length, 0 < n → confirmInfix[n]? = some (ch '-') →
        confirmInfix.length ≤ n + 1 := by decide
    have := hletters _ hd hpos hget
    simp only [List.length_append, List.length_singleton] at hlong
    omega

theorem confirm_extends (hk : k ≤ a.length) (hat : confirmInfix <+: (a ++ [ch '-']).drop k) :
    confirmInfix <+: (a ++ ch '-' :: u).drop k := by
  have hdash : (a ++ ch '-' :: u).drop k = (a ++ [ch '-']).drop k ++ u := by
    rw [← List.drop_append_of_le_length (by simp; omega)]
    simp
  rw [hdash]
  exact hat.trans (List.prefix_append _ _)

/-- The first infix of `a-` is the first infix of every text that goes on from there. -/
theorem find_confirm_lt (hk : k < a.length) : find confirmInfix (a ++ ch '-' :: u) = some k ↔
      find confirmInfix (a ++ [ch '-']) = some k := by
  constructor
  · intro h
    obtain ⟨hat, hbefore⟩ := find_spec h
    exact find_unique (confirm_before hk hat)
      fun q hq hat' => hbefore q hq (confirm_extends (by omega) hat')
  · intro h
    obtain ⟨hat, hbefore⟩ := find_spec h
    exact find_unique (confirm_extends (by omega) hat)
      fun q hq hat' => hbefore q hq (confirm_before (by omega) hat')

theorem find_confirm_bound (h : find confirmInfix (a ++ [ch '-']) = some k) : k < a.length := by
  have hlen := (find_spec h).1.length_le
  simp only [List.length_drop, List.length_append, List.length_singleton] at hlen
  have : confirmInfix.length = 9 := by decide
  omega

/-- In a confirmation address whose list has no infix of its own, the split is right after
    the list. -/
theorem find_confirm_at (h : find confirmInfix (a ++ [ch '-']) = none) :
    find confirmInfix (a ++ confirmInfix ++ u) = some a.length := by
  refine find_unique ?_ ?_
  · rw [List.append_assoc, List.drop_left]
    exact List.prefix_append _ _
  · intro q hq hat
    rw [List.append_assoc, show confirmInfix ++ u = ch '-' :: (bytes "confirm-" ++ u) from rfl] at hat
    obtain ⟨r, -, hr⟩ := exists_find_le (confirm_before hq hat)
    rw [h] at hr
    simp at hr

/-! ## The suffixes -/

theorem suffix_head (hs : s ∈ reservedSuffixes) : ∃ u, s = ch '-' :: u := by
  have h : ∀ s ∈ reservedSuffixes, s.head? = some (ch '-') := by decide
  exact ⟨s.tail, (List.cons_head?_tail (h s hs)).symm⟩

theorem confirm_not_in_suffix (hs : s ∈ reservedSuffixes) (k : Nat) :
    ¬confirmInfix <+: s.drop k := by
  have h : ∀ s ∈ reservedSuffixes, find confirmInfix s = none := by decide
  intro hat
  obtain ⟨q, -, hq⟩ := exists_find_le hat
  rw [h s hs] at hq
  simp at hq

/-- An infix in front of a reserved suffix is an infix of the name and a `-`. -/
theorem confirm_before_suffix (hs : s ∈ reservedSuffixes) (hat : confirmInfix <+: (a ++ s).drop k) :
    k < a.length ∧ confirmInfix <+: (a ++ [ch '-']).drop k := by
  obtain ⟨u, hu⟩ := suffix_head hs
  by_cases hk : k < a.length
  · rw [hu] at hat
    exact ⟨hk, confirm_before hk hat⟩
  · rw [List.drop_append, List.drop_eq_nil_of_le (by omega), List.nil_append] at hat
    exact absurd hat (confirm_not_in_suffix hs _)

theorem find_confirm_suffix (hs : s ∈ reservedSuffixes) :
    find confirmInfix (a ++ s) = find confirmInfix (a ++ [ch '-']) := by
  obtain ⟨u, hu⟩ := suffix_head hs
  cases hfind : find confirmInfix (a ++ [ch '-']) with
  | some k =>
    rw [hu]
    exact (find_confirm_lt (find_confirm_bound hfind)).mpr hfind
  | none =>
    cases hall : find confirmInfix (a ++ s) with
    | none => rfl
    | some k =>
      obtain ⟨-, hat⟩ := confirm_before_suffix hs (find_spec hall).1
      obtain ⟨q, -, hq⟩ := exists_find_le hat
      rw [hfind] at hq
      simp at hq

theorem endsIn_append {s' : Bytes} (ha : a ≠ []) (hs : s ∈ reservedSuffixes)
    (hs' : s' ∈ reservedSuffixes) : endsIn (a ++ s) s' = decide (s' = s) := by
  have hapart : ∀ s ∈ reservedSuffixes, ∀ s' ∈ reservedSuffixes, s' <:+ s → s' = s := by decide
  have hpos : 0 < a.length := List.length_pos_iff.mpr ha
  by_cases heq : s' = s
  · subst heq
    rw [endsIn, decide_eq_true (by simpa using hpos)]
    simp
  · rw [decide_eq_false heq, endsIn, Bool.and_eq_false_iff]
    right
    rw [← Bool.not_eq_true, List.isSuffixOf_iff_suffix]
    intro hsuffix
    cases List.suffix_or_suffix_of_suffix hsuffix (List.suffix_append a s) with
    | inl h => exact heq (hapart s hs s' hs' h)
    | inr h => exact heq (hapart s' hs' s hs h).symm

theorem suffix_mem {s : Bytes × CommandKind} (hs : s ∈ kSuffixes) : s.1 ∈ reservedSuffixes := by
  have h : ∀ s ∈ kSuffixes, s.1 ∈ reservedSuffixes := by decide
  exact h s hs

/-- A name that ends in no suffix is not split at one. -/
theorem suffixes_none {name : Bytes} (h : ∀ s ∈ reservedSuffixes, endsIn name s = true →
      load t (name.take (name.length - s.length)) = none) :
    kSuffixes.findSome? (trySuffix t name) = none := by
  rw [List.findSome?_eq_none_iff]
  intro s hs
  rw [trySuffix]
  split_ifs with hends
  · rw [h s.1 (suffix_mem hs) hends]
    rfl
  · rfl

theorem trySuffix_append (ha : a ≠ []) {s s' : Bytes × CommandKind}
    (hs : s ∈ kSuffixes) (hs' : s' ∈ kSuffixes) :
    trySuffix t (a ++ s.1) s' =
      if s'.1 = s.1 then (load t a).map fun l => (l, ⟨s'.2, l.roomNum, []⟩) else none := by
  rw [trySuffix, endsIn_append ha (suffix_mem hs) (suffix_mem hs')]
  by_cases heq : s'.1 = s.1
  · rw [if_pos heq, decide_eq_true heq, if_pos rfl, heq, List.length_append, Nat.add_sub_cancel,
      List.take_left]
  · rw [if_neg heq, decide_eq_false heq, if_neg Bool.false_ne_true]

/-- A list's name with a reserved suffix is split there. -/
theorem suffixes_append (ha : a ≠ []) {s : Bytes × CommandKind} (hs : s ∈ kSuffixes) :
    kSuffixes.findSome? (trySuffix t (a ++ s.1)) =
      (load t a).map fun l => (l, ⟨s.2, l.roomNum, []⟩) := by
  have hone : ∀ s ∈ kSuffixes, ∀ s' ∈ kSuffixes, s'.1 = s.1 → s' = s := by decide
  cases hload : load t a with
  | none =>
    rw [Option.map_none, List.findSome?_eq_none_iff]
    intro s' hs'
    rw [trySuffix_append ha hs hs', hload]
    simp
  | some l =>
    have htry : trySuffix t (a ++ s.1) s = some (l, ⟨s.2, l.roomNum, []⟩) := by
      rw [trySuffix_append ha hs hs, if_pos rfl, hload]
      rfl
    cases hfind : kSuffixes.findSome? (trySuffix t (a ++ s.1)) with
    | none =>
      have := List.findSome?_eq_none_iff.mp hfind s hs
      rw [htry] at this
      simp at this
    | some r =>
      obtain ⟨s', hs', hr⟩ := List.exists_of_findSome?_eq_some hfind
      have heq : s'.1 = s.1 := by
        rw [trySuffix_append ha hs hs'] at hr
        by_contra hne
        rw [if_neg hne] at hr
        simp at hr
      rw [hone s hs s' hs' heq, htry] at hr
      rw [← hr]
      rfl

/-! ## The addresses of a list -/

def isBase64Url (c : Byte) : Bool := isAlnum c || c == ch '-' || c == ch '_'

/-- The addresses of a list, in any letter case of the list's part, with what each is for. -/
inductive AddressOf (l : MailList) : Bytes → CommandKind → Bytes → Prop where
  | post {p : Bytes} (hp : lower p = l.address) : AddressOf l p .post []
  | command {p : Bytes} (hp : lower p = l.address) {s : Bytes × CommandKind}
      (hs : s ∈ kSuffixes) : AddressOf l (p ++ s.1) s.2 []
  | confirm {p token : Bytes} (hp : lower p = l.address)
      (htoken : ∀ c ∈ token, isBase64Url c = true) :
      AddressOf l (p ++ bytes "-confirm-" ++ token) .confirm token

/-- Every address of an enabled list reaches it for what it is for, and an address of a list
    is never one of another list. -/
structure Unambiguous (t : Tables) : Prop where
  reaches : ∀ l ∈ t.lists, l.enabled = true → ∀ {p kind token}, AddressOf l p kind token →
    resolveAddress t p = some (named t l, ⟨kind, l.roomNum, token⟩)
  own : ∀ l ∈ t.lists, ∀ {p kind token}, AddressOf l p kind token →
    ∀ {r}, resolveAddress t p = some r → r.2.roomNum = l.roomNum

/-- No enabled list has `-confirm-` in its address and a `-`, and no list has it there after
    the address of an enabled list. -/
def NoConfirmNames (t : Tables) : Prop :=
  ∀ l ∈ t.lists, ∀ k, find (bytes "-confirm-") (l.address ++ bytes "-") = some k →
    l.enabled = false ∧ ∀ m ∈ t.lists, m.enabled = true → m.address ≠ l.address.take k

theorem NoConfirmNames.enabled (h : NoConfirmNames t)
    (hl : l ∈ t.lists) (henabled : l.enabled = true) :
    find confirmInfix (l.address ++ [ch '-']) = none := by
  cases hfind : find confirmInfix (l.address ++ [ch '-']) with
  | none => rfl
  | some k =>
    have := (h l hl k hfind).1
    rw [henabled] at this
    simp at this

/-- No enabled list has a name with an infix in it. -/
theorem NoConfirmNames.load_split (ht : Tidy t.lists) (h : NoConfirmNames t)
    {name : Bytes} (hat : confirmInfix <+: (name ++ [ch '-']).drop k) : load t name = none := by
  refine load_eq_none ht fun m hm henabled haddress => ?_
  obtain ⟨q, -, hq⟩ := exists_find_le hat
  rw [← haddress, h.enabled hm henabled] at hq
  simp at hq

/-- The list that is found at a name, in the rows of the table. -/
theorem lookup_own (ht : Tidy t.lists) (hl : l ∈ t.lists) :
    load t l.address = if l.enabled = true then some (named t l) else none := by
  split_ifs with henabled
  · exact load_of_mem ht hl henabled
  · exact load_disabled ht hl (by simpa using henabled)

theorem tryConfirm_none (hp : lower p = a)
    (h : ∀ k, find confirmInfix a = some k → load t (a.take k) = none) : tryConfirm t p = none := by
  subst hp
  unfold tryConfirm
  split
  · next k hk => rw [h k hk]; rfl
  · rfl

/-- A split inside the name of a list finds no list. -/
theorem NoConfirmNames.load_take (ht : Tidy t.lists) (h : NoConfirmNames t) (hl : l ∈ t.lists)
    (hk : find confirmInfix (l.address ++ [ch '-']) = some k) :
    load t (l.address.take k) = none :=
  load_eq_none ht fun m hm henabled => (h l hl k hk).2 m hm henabled

theorem resolve_post (ht : Tidy t.lists) (h : NoConfirmNames t)
    (hl : l ∈ t.lists) (hp : lower p = l.address) :
    resolveAddress t p =
      if l.enabled = true then some (named t l, ⟨.post, l.roomNum, []⟩) else none := by
  have hsuffixes : kSuffixes.findSome? (trySuffix t (lower p)) = none := by
    refine suffixes_none fun s hs hends => ?_
    rw [hp, ht.unreserved l hl s hs] at hends
    simp at hends
  have hconfirm : tryConfirm t p = none := by
    refine tryConfirm_none hp fun k hk => ?_
    refine h.load_take ht hl (k := k) ?_
    obtain ⟨hat, hbefore⟩ := find_spec hk
    have hlen := hat.length_le
    rw [List.length_drop] at hlen
    have h9 : confirmInfix.length = 9 := by decide
    refine find_unique ?_ fun q hq hat' => ?_
    · rw [List.drop_append_of_le_length (by omega)]
      exact hat.trans (List.prefix_append _ _)
    · rw [List.drop_append_of_le_length (by omega)] at hat'
      refine hbefore q hq (List.prefix_of_prefix_length_le hat' (List.prefix_append _ _) ?_)
      rw [List.length_drop]
      omega
  rw [resolveAddress, hsuffixes, hconfirm, hp, lookup_own ht hl]
  split_ifs
  · rfl
  · rfl

theorem resolve_command (ht : Tidy t.lists) (h : NoConfirmNames t)
    (hl : l ∈ t.lists) (hp : lower p = l.address) {s : Bytes × CommandKind}
    (hs : s ∈ kSuffixes) :
    resolveAddress t (p ++ s.1) =
      if l.enabled = true then some (named t l, ⟨s.2, l.roomNum, []⟩) else none := by
  have hlower : ∀ s ∈ kSuffixes, lower s.1 = s.1 := by decide
  have hname : lower (p ++ s.1) = l.address ++ s.1 := by
    rw [lower_append, hp, hlower s hs]
  have hsuffixes : kSuffixes.findSome? (trySuffix t (lower (p ++ s.1))) =
      (load t l.address).map fun m => (m, ⟨s.2, m.roomNum, []⟩) := by
    rw [hname]
    exact suffixes_append (ht.nonempty l hl) hs
  rw [lookup_own ht hl] at hsuffixes
  split_ifs at hsuffixes ⊢
  · rw [resolveAddress, hsuffixes]
    rfl
  -- the list is disabled: nothing else answers for it
  · have hconfirm : tryConfirm t (p ++ s.1) = none := by
      refine tryConfirm_none hname fun k hk => ?_
      rw [find_confirm_suffix (suffix_mem hs)] at hk
      have hbound := find_confirm_bound hk
      rw [List.take_append_of_le_length (by omega)]
      exact h.load_take ht hl hk
    have hload : load t (l.address ++ s.1) = none := by
      refine load_eq_none ht fun m hm _ haddress => ?_
      have := ht.unreserved m hm s.1 (suffix_mem hs)
      rw [haddress, endsIn_append (ht.nonempty l hl) (suffix_mem hs) (suffix_mem hs)] at this
      simp at this
    rw [resolveAddress, hsuffixes, hconfirm, hname, hload]
    rfl

theorem resolve_confirm (ht : Tidy t.lists) (h : NoConfirmNames t)
    (hl : l ∈ t.lists) {token : Bytes} (hp : lower p = l.address) :
    resolveAddress t (p ++ bytes "-confirm-" ++ token) =
      if l.enabled = true then some (named t l, ⟨.confirm, l.roomNum, token⟩) else none := by
  have hplen : p.length = l.address.length := by rw [← hp, length_lower]
  have hname : lower (p ++ bytes "-confirm-" ++ token) =
      l.address ++ confirmInfix ++ lower token := by
    rw [lower_append, lower_append, hp]
    rfl
  have hdash : l.address ++ confirmInfix ++ lower token =
      l.address ++ ch '-' :: (bytes "confirm-" ++ lower token) := by
    rw [List.append_assoc]
    rfl
  have hat : confirmInfix <+:
      (l.address ++ confirmInfix ++ lower token).drop l.address.length := by
    rw [List.append_assoc, List.drop_left]
    exact List.prefix_append _ _
  -- a suffix of the token would leave a name with the infix in it
  have hsuffixes : kSuffixes.findSome?
      (trySuffix t (lower (p ++ bytes "-confirm-" ++ token))) = none := by
    rw [hname]
    refine suffixes_none fun s hs hends => ?_
    rw [endsIn, Bool.and_eq_true, List.isSuffixOf_iff_suffix] at hends
    obtain ⟨x, hx⟩ := hends.2
    rw [← hx] at hat ⊢
    rw [List.length_append, Nat.add_sub_cancel, List.take_left]
    obtain ⟨-, hin⟩ := confirm_before_suffix hs hat
    exact h.load_split ht hin
  have hwhole : load t (l.address ++ confirmInfix ++ lower token) = none := by
    refine h.load_split ht (k := l.address.length) ?_
    rw [List.drop_append_of_le_length (by simp)]
    exact hat.trans (List.prefix_append _ _)
  cases hfind : find confirmInfix (l.address ++ [ch '-']) with
  | none =>
    have hsplit : tryConfirm t (p ++ bytes "-confirm-" ++ token) =
        (load t l.address).map fun m => (m, ⟨.confirm, m.roomNum, token⟩) := by
      have hpos := find_confirm_at (u := lower token) hfind
      have hrest : (p ++ bytes "-confirm-" ++ token).drop (l.address.length + 9) = token := by
        rw [List.drop_append, List.drop_eq_nil_of_le (by simp [hplen, bytes]), List.nil_append]
        simp [hplen, bytes]
      have htake : (l.address ++ confirmInfix ++ lower token).take l.address.length = l.address := by
        rw [List.append_assoc, List.take_left]
      unfold tryConfirm
      rw [hname, show find (bytes "-confirm-") (l.address ++ confirmInfix ++ lower token) =
        some l.address.length from hpos]
      simp only
      rw [htake, hrest]
    rw [resolveAddress, hsuffixes, hsplit, lookup_own ht hl]
    split_ifs
    · rfl
    · rw [hname, Option.map_none]
      rw [hwhole]
      rfl
  | some k =>
    have hdisabled := (h l hl k hfind).1
    have hbound := find_confirm_bound hfind
    have hsplit : tryConfirm t (p ++ bytes "-confirm-" ++ token) = none := by
      refine tryConfirm_none hname fun q hq => ?_
      have hqk : q = k := by
        rw [hdash, (find_confirm_lt hbound).mpr hfind, Option.some.injEq] at hq
        exact hq.symm
      rw [hqk, hdash, List.take_append_of_le_length (by omega)]
      exact h.load_take ht hl hfind
    rw [resolveAddress, hsuffixes, hsplit, hname, if_neg (by simp [hdisabled])]
    rw [hwhole]
    rfl

theorem resolve_address (ht : Tidy t.lists) (h : NoConfirmNames t)
    (hl : l ∈ t.lists) {token : Bytes} {kind : CommandKind} (hp : AddressOf l p kind token) :
    resolveAddress t p =
      if l.enabled = true then some (named t l, ⟨kind, l.roomNum, token⟩) else none := by
  cases hp with
  | post hp => exact resolve_post ht h hl hp
  | command hp hs => exact resolve_command ht h hl hp hs
  | confirm hp _ => exact resolve_confirm ht h hl hp

theorem NoConfirmNames.unambiguous (ht : Tidy t.lists) (h : NoConfirmNames t) : Unambiguous t := by
  constructor
  · intro l hl henabled p kind token hp
    rw [resolve_address ht h hl hp, if_pos henabled]
  · intro l hl p kind token hp r hr
    rw [resolve_address ht h hl hp] at hr
    split_ifs at hr
    rw [Option.some.injEq] at hr
    rw [← hr]

/-- What the confirmation address with the token `A` resolves to where the list's name has an
    infix: the list before it, or no confirmation. -/
theorem resolve_shadowed (hfolded : lower l.address = l.address)
    (hk : find confirmInfix (l.address ++ [ch '-']) = some k) :
    resolveAddress t (l.address ++ bytes "-confirm-" ++ bytes "A") =
      match load t (l.address.take k) with
      | some m =>
        some (m, ⟨.confirm, m.roomNum,
          (l.address ++ bytes "-confirm-" ++ bytes "A").drop (k + 9)⟩)
      | none =>
        (load t (l.address ++ bytes "-confirm-" ++ bytes "a")).map fun m =>
          (m, ⟨.post, m.roomNum, []⟩) := by
  have hbound := find_confirm_bound hk
  have hname : lower (l.address ++ bytes "-confirm-" ++ bytes "A") =
      l.address ++ bytes "-confirm-" ++ bytes "a" := by
    rw [lower_append, lower_append, hfolded]
    rfl
  have hfirst : find (bytes "-confirm-") (l.address ++ bytes "-confirm-" ++ bytes "a") = some k := by
    rw [List.append_assoc]
    exact (find_confirm_lt (u := bytes "confirm-a") hbound).mpr hk
  have htake : (l.address ++ bytes "-confirm-" ++ bytes "a").take k = l.address.take k := by
    rw [List.append_assoc, List.take_append_of_le_length (by omega)]
  have hsuffixes : kSuffixes.findSome?
      (trySuffix t (l.address ++ bytes "-confirm-" ++ bytes "a")) = none := by
    refine suffixes_none fun s hs hends => ?_
    have hlast : ∀ s ∈ reservedSuffixes, s.getLast? ≠ some (ch 'a') := by decide
    rw [endsIn, Bool.and_eq_true, List.isSuffixOf_iff_suffix] at hends
    obtain ⟨x, hx⟩ := hends.2
    obtain ⟨u, hu⟩ := suffix_head hs
    have hsame : (x ++ s).getLast? = some (ch 'a') := by
      rw [hx]
      simp [bytes]
    rw [List.getLast?_append_of_ne_nil x (by simp [hu])] at hsame
    exact absurd hsame (hlast s hs)
  rw [resolveAddress, hname, hsuffixes, tryConfirm, hname, hfirst]
  simp only
  rw [htake]
  cases load t (l.address.take k) with
  | none => rfl
  | some m => rfl

theorem Unambiguous.noConfirmNames (ht : Tidy t.lists) (h : Unambiguous t) : NoConfirmNames t := by
  intro l hl k hk
  have hbound := find_confirm_bound hk
  have hresolve := resolve_shadowed (t := t) (ht.folded l hl) hk
  have hp : AddressOf l (l.address ++ bytes "-confirm-" ++ bytes "A") .confirm (bytes "A") :=
    .confirm (ht.folded l hl) (by decide +kernel)
  -- the split is before the end of the name, so the token would be longer
  have htoken : (l.address ++ bytes "-confirm-" ++ bytes "A").drop (k + 9) ≠ bytes "A" := by
    intro heq
    have hlen := congrArg List.length heq
    rw [List.length_drop] at hlen
    simp [bytes] at hlen
    omega
  have hdisabled : l.enabled = false := by
    by_contra hne
    have hreach := h.reaches l hl (by simpa using hne) hp
    rw [hresolve] at hreach
    cases hload : load t (l.address.take k) with
    | some m =>
      simp only [hload, Option.some.injEq, Prod.mk.injEq, Command.mk.injEq] at hreach
      exact htoken hreach.2.2.2
    | none =>
      simp only [hload, Option.map_eq_some_iff, Prod.mk.injEq, Command.mk.injEq] at hreach
      obtain ⟨m, -, -, hkind, -⟩ := hreach
      exact absurd hkind (by decide)
  refine ⟨hdisabled, fun m hm henabled haddress => ?_⟩
  have hload := load_of_mem ht hm henabled
  rw [haddress] at hload
  rw [hload] at hresolve
  have hroom := h.own l hl hp hresolve
  have hsame := ht.room_unique hm hl hroom
  rw [hsame, hdisabled] at henabled
  simp at henabled

/-- The addresses of the accepted lists are unambiguous exactly where no name has a
    `-confirm-` to be split at. -/
theorem addresses_unambiguous_iff {t : Tables} (h : Accepted t) :
    Unambiguous t ↔ NoConfirmNames t :=
  ⟨fun hu => hu.noConfirmNames h.tidy, fun hn => hn.unambiguous h.tidy⟩

/-! ## A list named like a confirmation -/

/-- A public room. -/
def publicRoom (roomNum : Nat) : Room := ⟨roomNum, 0, 0, 0, 0, 0⟩

def twoRooms : Directory :=
  { store :=
      { messages := [], roomMsgs := [], tombstones := [], rooms := [publicRoom 5, publicRoom 6],
        seq := 1, config := [], users := [], credentials := [], quotas := [] }
    labels := []
    userSeq := 1
    roomSeq := 7 }

def listAt (roomNum : Nat) (address : Bytes) : MailList :=
  { roomNum := roomNum, address := address, displayName := [], enabled := true, mode := .post,
    postPolicy := .subscribers, replyToList := false, subjectTag := [], footer := [],
    digestIntervalSecs := 86400, digestMax := 50, lastSent := 0, lastDigest := 0,
    lastDigestAt := 0 }

/-- `SetList` of `staff` and then of `staff-confirm-south`. -/
def shadowed : Tables :=
  (setList (setList ⟨twoRooms, []⟩ (listAt 5 (bytes "staff")) true).1
    (listAt 6 (bytes "staff-confirm-south")) true).1

theorem shadowed_accepted : Accepted shadowed := .set (.set (.empty twoRooms) _ _) _ _

/-- A post to `staff-confirm-south` is taken for a confirmation at `staff`. -/
theorem post_taken_for_confirm : shadowed.lists.length = 2 ∧
      (resolveAddress shadowed (bytes "staff-confirm-south")).map Prod.snd =
        some ⟨.confirm, 5, bytes "south"⟩ ∧
      ¬∀ t, Accepted t → Unambiguous t := by
  have hresolve : (resolveAddress shadowed (bytes "staff-confirm-south")).map Prod.snd =
      some ⟨.confirm, 5, bytes "south"⟩ := by decide +kernel
  refine ⟨by decide +kernel, hresolve, fun hall => ?_⟩
  have hmem : listAt 6 (bytes "staff-confirm-south") ∈ shadowed.lists := by decide +kernel
  have hfolded : lower (bytes "staff-confirm-south") = bytes "staff-confirm-south" := by
    decide +kernel
  have hreach := (hall shadowed shadowed_accepted).reaches _ hmem rfl (.post hfolded)
  rw [hreach] at hresolve
  exact absurd hresolve (by decide)

/-- With `staff` alone every address is clear. -/
theorem staff_unambiguous :
    Unambiguous (setList ⟨twoRooms, []⟩ (listAt 5 (bytes "staff")) true).1 := by
  refine (addresses_unambiguous_iff (.set (.empty twoRooms) _ _)).mpr ?_
  have hnone : ∀ l ∈ (setList ⟨twoRooms, []⟩ (listAt 5 (bytes "staff")) true).1.lists,
      find (bytes "-confirm-") (l.address ++ bytes "-") = none := by decide +kernel
  intro l hl k hk
  rw [hnone l hl] at hk
  simp at hk

end QuackMail.Listserv
