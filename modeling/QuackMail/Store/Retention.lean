import QuackMail.Imap.Uids

/-! # What expiry removes

A policy is stored as text at one of four levels and read back by the sweep.  `Designated`
says which messages the effective policy names, with the cutoff of an age computed in
full; the sweep computes it in 64 bits.  `runExpiry_exact_iff` says that the two differ
only where the product of an age leaves the type and the cutoff that comes out is later
than some message.
-/

namespace QuackMail.Citadel

open Imap

/-! ## Policies -/

/-- A policy as `SetExpirePolicy` accepts it. -/
def ExpirePolicy.Accepted (p : ExpirePolicy) : Prop :=
  p.mode = .numMsgs ∨ p.mode = .age → 1 ≤ p.value

/-- Every level of every room holds an accepted policy. -/
def PoliciesAccepted (s : Store) : Prop :=
  ∀ which room, (readPolicy s (expireKey which room)).Accepted

/-- A call of `SetExpirePolicy`; both numbers are of the type `int64_t`. -/
structure Assignment where
  which : Bytes
  room : Room
  mode : Int
  value : Int
  valueMin : -0x8000000000000000 ≤ value
  valueMax : value ≤ 0x7fffffffffffffff

def assign (s : Store) (calls : List Assignment) : Store :=
  calls.foldl (fun s a => (setExpirePolicy s a.which a.room a.mode a.value).1) s

theorem getConfig_setConfig (s : Store) (name value key dflt : Bytes) :
    getConfig (setConfig s name value) key dflt =
      if key = name then value else getConfig s key dflt := by
  have hmap : ∀ kvs : List (Bytes × Bytes),
      (kvs.map fun kv => if kv.1 = name then (kv.1, value) else kv).find? (fun kv => kv.1 = key) =
        (kvs.find? fun kv => kv.1 = key).map fun kv =>
          if kv.1 = name then (kv.1, value) else kv := by
    intro kvs
    rw [List.find?_map]
    congr 2
    funext kv
    by_cases hname : kv.1 = name
    · simp [hname]
    · simp [hname]
  rw [getConfig, setConfig, getConfig]
  by_cases hany : s.config.any (fun kv => kv.1 = name) = true
  · rw [if_pos hany]
    simp only [hmap]
    cases hfind : s.config.find? (fun kv => kv.1 = key) with
    | none =>
      by_cases hkey : key = name
      · -- a row of that name is there
        subst hkey
        obtain ⟨kv, hmem, heq⟩ := List.any_eq_true.mp hany
        exact absurd heq (List.find?_eq_none.mp hfind kv hmem)
      · rw [if_neg hkey]
        rfl
    | some kv =>
      have hkv : kv.1 = key := by simpa using List.find?_some hfind
      by_cases hkey : key = name
      · simp [hkv, hkey]
      · simp [hkv, hkey]
  · rw [if_neg hany, List.find?_append]
    cases hfind : s.config.find? (fun kv => kv.1 = key) with
    | none =>
      by_cases hkey : key = name
      · simp [hkey]
      · simp [hkey, Ne.symm hkey]
    | some kv =>
      have hkv : kv.1 = key := by simpa using List.find?_some hfind
      have hkey : key ≠ name := fun heq =>
        hany (List.any_eq_true.mpr ⟨kv, List.mem_of_find?_eq_some hfind, by simp [hkv, heq]⟩)
      simp [hkey]

theorem bar_not_mem_numInt (i : Int) : ch '|' ∉ numInt i := by
  have hdigits : ∀ n, ch '|' ∉ num n := fun n hmem => absurd (isDigit_of_mem_num hmem) (by decide)
  rw [numInt]
  split
  · rw [List.mem_cons, not_or]
    exact ⟨by decide, hdigits _⟩
  · exact hdigits _

/-- A number of the type is read back. -/
theorem strtoll_numInt {i : Int} (hmin : -0x8000000000000000 ≤ i) (hmax : i ≤ 0x7fffffffffffffff) :
    strtoll (numInt i) = i := by
  rw [numInt]
  by_cases hneg : i < 0
  · rw [if_pos hneg, strtoll, List.dropWhile_cons_of_neg (by decide)]
    simp only [if_pos, digitsFrom_num]
    omega
  · rw [if_neg hneg, strtoll_num (by omega)]
    omega

/-- What `SetExpirePolicy` stores is what `ReadPolicy` reads there. -/
theorem readPolicy_setConfig (s : Store) (name key : Bytes) {mode value : Int} {m : ExpireMode}
    (hmode : expireMode mode = some m) (hrange : 0 ≤ mode ∧ mode ≤ 3)
    (hmin : -0x8000000000000000 ≤ value) (hmax : value ≤ 0x7fffffffffffffff) :
    readPolicy (setConfig s name (numInt mode ++ ch '|' :: numInt value)) key =
      if key = name then ⟨m, value⟩ else readPolicy s key := by
  rw [readPolicy, readPolicy, getConfig_setConfig]
  by_cases hkey : key = name
  · have hdrop : (numInt mode ++ ch '|' :: numInt value).drop ((numInt mode).length + 1) =
        numInt value := by
      rw [← List.drop_drop, List.drop_left]
      rfl
    have hmodeText : strtoll (numInt mode) = mode := strtoll_numInt (by omega) (by omega)
    rw [if_pos hkey, if_pos hkey]
    simp only [findChar_append (bar_not_mem_numInt mode), List.take_left, hdrop,
      hmodeText, strtoll_numInt hmin hmax, hmode]
  · rw [if_neg hkey, if_neg hkey]

/-- The calls leave accepted policies and every table but the configuration. -/
theorem assign_spec (calls : List Assignment) : ∀ s : Store, PoliciesAccepted s →
    PoliciesAccepted (assign s calls) ∧ (assign s calls).rooms = s.rooms ∧
      (assign s calls).roomMsgs = s.roomMsgs ∧ (assign s calls).messages = s.messages := by
  induction calls with
  | nil => exact fun s hacc => ⟨hacc, rfl, rfl, rfl⟩
  | cons a calls ih =>
    intro s hacc
    have hcall : PoliciesAccepted (setExpirePolicy s a.which a.room a.mode a.value).1 ∧
        (setExpirePolicy s a.which a.room a.mode a.value).1.rooms = s.rooms ∧
        (setExpirePolicy s a.which a.room a.mode a.value).1.roomMsgs = s.roomMsgs ∧
        (setExpirePolicy s a.which a.room a.mode a.value).1.messages = s.messages := by
      rw [setExpirePolicy]
      split
      · exact ⟨hacc, rfl, rfl, rfl⟩
      split
      · exact ⟨hacc, rfl, rfl, rfl⟩
      next hrange =>
      split
      · exact ⟨hacc, rfl, rfl, rfl⟩
      next hvalue =>
      refine ⟨?_, ?_⟩
      · intro which room
        obtain ⟨m, hm, haccepted⟩ : ∃ m, expireMode a.mode = some m ∧
            (m = .numMsgs ∨ m = .age → 1 ≤ a.value) := by
          rw [expireMode]
          split
          · exact ⟨_, rfl, by simp⟩
          split
          · exact ⟨_, rfl, by simp⟩
          split
          · exact ⟨_, rfl, fun _ => by omega⟩
          · rw [if_pos (by omega)]
            exact ⟨_, rfl, fun _ => by omega⟩
        rw [readPolicy_setConfig s _ _ hm (by omega) a.valueMin a.valueMax]
        split
        · exact haccepted
        · exact hacc which room
      · rw [setConfig]
        split
        · exact ⟨rfl, rfl, rfl⟩
        · exact ⟨rfl, rfl, rfl⟩
    obtain ⟨hacc', hrooms, hmsgs, hrows⟩ := hcall
    obtain ⟨hacc'', hrooms', hmsgs', hrows'⟩ := ih _ hacc'
    exact ⟨hacc'', hrooms'.trans hrooms, hmsgs'.trans hmsgs, hrows'.trans hrows⟩

/-- The policy in effect is one that was accepted at some level, or manual. -/
theorem effective_accepted {s : Store} (h : PoliciesAccepted s) (room : Room) :
    (effectiveExpirePolicy s room).Accepted := by
  have hroom : (readPolicy s (roomPolicyKey room)).Accepted := h (bytes "roompolicy") room
  have hfloor : (readPolicy s (floorPolicyKey room)).Accepted := h (bytes "floorpolicy") room
  have hboxes : (readPolicy s (bytes "c_ep_mailboxes")).Accepted := h (bytes "mailboxespolicy") room
  have hsite : (readPolicy s (bytes "c_ep_site")).Accepted := h (bytes "sitepolicy") room
  have hlevel : (readPolicy s (if room.qrFlags &&& qrMailbox ≠ 0 then bytes "c_ep_mailboxes"
      else floorPolicyKey room)).Accepted := by
    split
    · exact hboxes
    · exact hfloor
  rw [effectiveExpirePolicy]
  by_cases hset : (readPolicy s (roomPolicyKey room)).mode ≠ .nextLevel
  · rw [if_pos hset]
    exact hroom
  rw [if_neg hset]
  by_cases hset : (readPolicy s (if room.qrFlags &&& qrMailbox ≠ 0 then bytes "c_ep_mailboxes"
      else floorPolicyKey room)).mode ≠ .nextLevel
  · rw [if_pos hset]
    exact hlevel
  rw [if_neg hset]
  by_cases hset : (readPolicy s (bytes "c_ep_site")).mode = .nextLevel
  · rw [if_pos hset]
    simp [ExpirePolicy.Accepted]
  · rw [if_neg hset]
    exact hsite

/-! ## What a policy names -/

/-- The primary keys of the two tables the sweep walks. -/
structure Keyed (s : Store) : Prop where
  rooms : (roomNums s).Nodup
  pointers : s.roomMsgs.Nodup

/-- The effective policy of the room names the message: too old, or not among the newest. -/
def Designated (w : World) (s : Store) (room : Room) (m : Nat) : Prop :=
  room.qrFlags &&& qrPermanent = 0 ∧
    match (effectiveExpirePolicy s room).mode with
    | .nextLevel => False
    | .manual => False
    | .numMsgs => m ∈ roomMessages s room.roomNum ∧
        (effectiveExpirePolicy s room).value ≤
          ((roomMessages s room.roomNum).filter (m < ·)).length
    | .age => m ∈ roomMessages s room.roomNum ∧ ∃ msg, loadMessage s m = some msg ∧
        0 < msg.msgtime ∧ msg.msgtime < w.now - (effectiveExpirePolicy s room).value * 86400

/-- The sweep removes from each room what is designated there, keeps the rows that are
    still linked, and has nothing left to do. -/
structure ExpiresExactly (w : World) (s : Store) : Prop where
  rooms : ∀ room ∈ s.rooms, ∀ m, messageInRoom (runExpiry w s).1 room.roomNum m = true ↔
    messageInRoom s room.roomNum m = true ∧ ¬Designated w s room m
  others : ∀ n ∉ roomNums s, ∀ m,
    messageInRoom (runExpiry w s).1 n m = true ↔ messageInRoom s n m = true
  rows : ∀ row ∈ s.messages, (∃ p ∈ (runExpiry w s).1.roomMsgs, p.msgnum = row.msg.msgnum) →
    row ∈ (runExpiry w s).1.messages
  again : runExpiry w (runExpiry w s).1 = ((runExpiry w s).1, 0)

/-- Where the cutoff of an age leaves the 64 bits, what comes out of it is not later than
    any message of the room. -/
def CutoffHarmless (w : World) (s : Store) (room : Room) : Prop :=
  (effectiveExpirePolicy s room).mode = .age →
    w.now - (effectiveExpirePolicy s room).value * 86400 < -0x8000000000000000 →
      ∀ m ∈ roomMessages s room.roomNum, ∀ msg, loadMessage s m = some msg → 0 < msg.msgtime →
        wrap64 (w.now - (effectiveExpirePolicy s room).value * 86400) ≤ msg.msgtime

variable {w : World} {s : Store} {room : Room}

theorem roomMessages_sorted (hkeyed : Keyed s) (n : Nat) :
    (roomMessages s n).Pairwise (· < ·) := by
  have hnodup : (roomMessages s n).Nodup := by
    rw [roomMessages, (List.perm_insertionSort _ _).nodup_iff]
    refine List.Nodup.map_on ?_ (hkeyed.pointers.filter _)
    rintro ⟨r, m⟩ hp ⟨r', m'⟩ hp' hm
    have hr := (List.mem_filter.mp hp).2
    have hr' := (List.mem_filter.mp hp').2
    simp only [decide_eq_true_eq] at hr hr' hm
    rw [hr, hr', hm]
  have hsorted : (roomMessages s n).Pairwise (· ≤ ·) := List.pairwise_insertionSort _ _
  exact (hsorted.and hnodup).imp fun h => lt_of_le_of_ne h.1 h.2

/-- In an ascending list, what stands before the last `v` has `v` larger ones. -/
theorem mem_take_iff {v m : Nat} {nums : List Nat} (h : nums.Pairwise (· < ·)) :
    m ∈ nums.take (nums.length - v) ↔ m ∈ nums ∧ v ≤ (nums.filter (m < ·)).length := by
  induction nums with
  | nil => simp
  | cons a nums ih =>
    have hhead : ∀ b ∈ nums, a < b := fun b hb => List.rel_of_pairwise_cons h hb
    have hcount : (nums.filter (m < ·)).length ≤ nums.length := List.length_filter_le _ _
    have hself : nums.filter (a < ·) = nums :=
      List.filter_eq_self.mpr fun b hb => decide_eq_true (hhead b hb)
    by_cases hv : v ≤ nums.length
    · rw [List.length_cons, Nat.succ_sub hv, List.take_succ_cons, List.mem_cons, List.mem_cons,
        ih h.of_cons]
      by_cases hm : m = a
      · subst hm
        simp [hself, hv]
      · simp only [hm, false_or]
        refine and_congr_right fun hmem => ?_
        rw [List.filter_cons_of_neg]
        simpa using Nat.le_of_lt (hhead m hmem)
    · have hzero : (a :: nums).length - v = 0 := by rw [List.length_cons]; omega
      rw [hzero, List.take_zero]
      refine iff_of_false List.not_mem_nil ?_
      rintro ⟨hmem, hle⟩
      cases List.mem_cons.mp hmem with
      | inl heq =>
        subst heq
        rw [List.filter_cons_of_neg (by simp), hself] at hle
        exact hv hle
      | inr hin =>
        rw [List.filter_cons_of_neg (by simpa using Nat.le_of_lt (hhead m hin))] at hle
        exact hv (Nat.le_trans hle hcount)

theorem wrap64_of_range {n : Int} (hmin : -0x8000000000000000 ≤ n) (hmax : n ≤ 0x7fffffffffffffff) :
    wrap64 n = n := by
  rw [wrap64, Int.bmod_eq_of_le (by omega) (by omega)]

/-- Wrapping the product first changes nothing. -/
theorem wrap64_sub (a b : Int) : wrap64 (a - wrap64 b) = wrap64 (a - b) := by
  rw [wrap64, wrap64, wrap64, Int.sub_bmod_bmod]

/-- The messages the sweep takes from a room, by the mode of its policy. -/
theorem mem_doomed {m : Nat} : m ∈ doomed w s room ↔
    match (effectiveExpirePolicy s room).mode with
    | .nextLevel => False
    | .manual => False
    | .numMsgs => m ∈ (roomMessages s room.roomNum).take
        ((roomMessages s room.roomNum).length - (effectiveExpirePolicy s room).value.toNat) ∧
        (effectiveExpirePolicy s room).value < (roomMessages s room.roomNum).length
    | .age => m ∈ roomMessages s room.roomNum ∧ ∃ msg, loadMessage s m = some msg ∧
        0 < msg.msgtime ∧
          msg.msgtime < wrap64 (w.now - (effectiveExpirePolicy s room).value * 86400) := by
  rw [doomed]
  cases hmode : (effectiveExpirePolicy s room).mode with
  | nextLevel => simp
  | manual => simp
  | numMsgs =>
    simp only
    split
    · next hmany => exact ⟨fun hm => ⟨hm, hmany⟩, fun h => h.1⟩
    · next hfew => exact iff_of_false List.not_mem_nil (fun h => hfew h.2)
  | age =>
    simp only [wrap64_sub]
    rw [List.mem_filter]
    cases loadMessage s m with
    | none => simp
    | some msg => simp

/-- What the sweep takes from a room is what its policy names exactly when the cutoff is
    harmless there. -/
theorem doomed_iff (hkeyed : Keyed s) (hnow : w.now ≤ 0x7fffffffffffffff)
    (hacc : PoliciesAccepted s) (hperm : room.qrFlags &&& qrPermanent = 0) :
    (∀ m, m ∈ doomed w s room ↔ Designated w s room m) ↔ CutoffHarmless w s room := by
  have haccepted := effective_accepted hacc room
  simp only [mem_doomed, Designated, hperm, true_and, CutoffHarmless]
  cases hmode : (effectiveExpirePolicy s room).mode with
  | nextLevel => simp
  | manual => simp
  | numMsgs =>
    have hpos : 1 ≤ (effectiveExpirePolicy s room).value := haccepted (.inl hmode)
    obtain ⟨v, hv⟩ := Int.eq_ofNat_of_zero_le (a := (effectiveExpirePolicy s room).value) (by omega)
    refine iff_of_true (fun m => ?_) (fun h => by cases h)
    simp only [hv, Int.toNat_natCast, Nat.cast_le, Nat.cast_lt]
    rw [← mem_take_iff (roomMessages_sorted hkeyed room.roomNum), and_iff_left_of_imp]
    intro hmem
    by_contra hfew
    rw [Nat.sub_eq_zero_of_le (Nat.not_lt.mp hfew), List.take_zero] at hmem
    cases hmem
  | age =>
    have hpos : 1 ≤ (effectiveExpirePolicy s room).value := haccepted (.inr hmode)
    simp only [forall_const]
    generalize (effectiveExpirePolicy s room).value = v at hpos
    by_cases hfits : -0x8000000000000000 ≤ w.now - v * 86400
    · rw [wrap64_of_range hfits (by omega)]
      exact iff_of_true (fun _ => Iff.rfl) (fun hout => absurd hfits (by omega))
    · -- the true cutoff is before every time
      constructor
      · intro hsame _ m hm msg hload htime
        by_contra hlate
        obtain ⟨-, msg', -, htime', hearly⟩ := (hsame m).mp ⟨hm, msg, hload, htime, by omega⟩
        omega
      · intro hharmless m
        refine iff_of_false ?_ ?_
        · rintro ⟨hm, msg, hload, htime, hlate⟩
          have hle := hharmless (by omega) m hm msg hload htime
          omega
        · rintro ⟨-, msg, -, htime, hearly⟩
          omega

/-! ## The sweep -/

theorem mem_doomed_room {m : Nat} (h : m ∈ doomed w s room) : m ∈ roomMessages s room.roomNum := by
  rw [mem_doomed] at h
  cases hmode : (effectiveExpirePolicy s room).mode with
  | nextLevel => rw [hmode] at h; exact h.elim
  | manual => rw [hmode] at h; exact h.elim
  | numMsgs => rw [hmode] at h; exact List.mem_of_mem_take h.1
  | age => rw [hmode] at h; exact h.1

theorem mem_roomMessages_iff {n m : Nat} :
    m ∈ roomMessages s n ↔ messageInRoom s n m = true := by
  rw [mem_roomMessages, mem_view_iff]

/-- Dropping rows nothing points at leaves every other row, and what is found under its number. -/
theorem dropRow_rows (nums : List Nat) : ∀ (s : Store) (m : Nat),
    (∃ p ∈ s.roomMsgs, p.msgnum = m) →
      (∀ row ∈ s.messages, row.msg.msgnum = m → row ∈ (nums.foldl dropRow s).messages) ∧
        findRow (nums.foldl dropRow s) m = findRow s m := by
  induction nums with
  | nil => exact fun s m _ => ⟨fun row hrow _ => hrow, rfl⟩
  | cons n nums ih =>
    intro s m hlinked
    have hmsgs : (dropRow s n).roomMsgs = s.roomMsgs := (dropRow_frame s [n]).1
    obtain ⟨hrows, hfind⟩ := ih (dropRow s n) m (by rw [hmsgs]; exact hlinked)
    have hdrop : (∀ row ∈ s.messages, row.msg.msgnum = m → row ∈ (dropRow s n).messages) ∧
        findRow (dropRow s n) m = findRow s m := by
      rw [dropRow]
      split
      · exact ⟨fun row hrow _ => hrow, rfl⟩
      · next hfree =>
        have hne : m ≠ n := by
          rintro rfl
          obtain ⟨p, hp, hnum⟩ := hlinked
          exact hfree (List.any_eq_true.mpr ⟨p, hp, by simpa using hnum⟩)
        refine ⟨fun row hrow hnum => List.mem_filter.mpr ⟨hrow, ?_⟩, ?_⟩
        · simpa [hnum] using hne
        · rw [findRow, findRow, List.find?_filter]
          congr 1
          funext row
          by_cases hnum : row.msg.msgnum = m
          · simp [hnum, hne]
          · simp [hnum]
    exact ⟨fun row hrow hnum => hrows row (hdrop.1 row hrow hnum) hnum, hfind.trans hdrop.2⟩

theorem dropRow_config (nums : List Nat) (s : Store) : (nums.foldl dropRow s).config = s.config := by
  induction nums generalizing s with
  | nil => rfl
  | cons n nums ih =>
    rw [List.foldl_cons, ih, dropRow]
    split
    · rfl
    · rfl

theorem expireRooms_sublist (rooms : List Room) (s : Store) :
    (expireRooms w rooms s).1.roomMsgs.Sublist s.roomMsgs := by
  induction rooms generalizing s with
  | nil => exact .refl _
  | cons room rooms ih =>
    rw [expireRooms]
    split
    · exact ih s
    · refine (ih _).trans ?_
      rw [(deleteAll_frame w room.roomNum (doomed w s room) s).2]
      exact List.filter_sublist

theorem expireRooms_idle {rooms : List Room}
    (h : ∀ room ∈ rooms, room.qrFlags &&& qrPermanent = 0 → doomed w s room = []) :
    expireRooms w rooms s = (s, []) := by
  induction rooms with
  | nil => rfl
  | cons room rooms ih =>
    have hrest := ih fun r hr => h r (List.mem_cons_of_mem room hr)
    rw [expireRooms]
    by_cases hperm : room.qrFlags &&& qrPermanent = 0
    · rw [if_neg (by simpa using hperm), h room List.mem_cons_self hperm, deleteAll]
      simp [hrest]
    · rw [if_pos hperm, hrest]

/-- What the sweep leaves as it is, and which messages stay linked. -/
theorem runExpiry_frame (hkeyed : Keyed s) :
    (runExpiry w s).1.config = s.config ∧ (runExpiry w s).1.rooms = s.rooms ∧
      Keyed (runExpiry w s).1 ∧
      (∀ n m, messageInRoom (runExpiry w s).1 n m = true ↔
        messageInRoom s n m = true ∧ ¬Swept n w s.rooms s m) ∧
      ∀ m, (∃ p ∈ (runExpiry w s).1.roomMsgs, p.msgnum = m) →
        (∀ row ∈ s.messages, row.msg.msgnum = m → row ∈ (runExpiry w s).1.messages) ∧
          loadMessage (runExpiry w s).1 m = loadMessage s m := by
  obtain ⟨hsame, -⟩ := expireRooms_frame 0 w _ s (nodup_inOrder hkeyed.rooms)
  have hmsgs : (runExpiry w s).1.roomMsgs =
      (expireRooms w (s.rooms.insertionSort (fun a b => a.roomNum ≤ b.roomNum)) s).1.roomMsgs :=
    (dropRow_frame _ _).1
  have hrooms : (runExpiry w s).1.rooms = s.rooms := ((dropRow_frame _ _).2).trans hsame.rooms
  refine ⟨(dropRow_config _ _).trans hsame.config, hrooms, ⟨?_, ?_⟩, ?_, ?_⟩
  · rw [roomNums, hrooms]
    exact hkeyed.rooms
  · rw [hmsgs]
    exact hkeyed.pointers.sublist (expireRooms_sublist _ _)
  · intro n m
    rw [← mem_view_iff, ← mem_view_iff, runExpiry_members n w hkeyed.rooms]
  · intro m hlinked
    rw [hmsgs] at hlinked
    obtain ⟨hrows, hfind⟩ := dropRow_rows _ _ m hlinked
    rw [hsame.messages] at hrows
    refine ⟨hrows, ?_⟩
    rw [loadMessage, loadMessage, runExpiry, hfind, findRow, findRow, hsame.messages]

/-- After the sweep no policy names anything any more. -/
theorem doomed_runExpiry (hkeyed : Keyed s) (hacc : PoliciesAccepted s) (hroom : room ∈ s.rooms)
    (hperm : room.qrFlags &&& qrPermanent = 0) : doomed w (runExpiry w s).1 room = [] := by
  obtain ⟨hconfig, -, hkeyed', hmembers, hloads⟩ := runExpiry_frame (w := w) hkeyed
  have hstayed : ∀ m ∈ roomMessages (runExpiry w s).1 room.roomNum,
      m ∈ roomMessages s room.roomNum ∧ m ∉ doomed w s room := by
    intro m hm
    obtain ⟨hin, hkept⟩ := (hmembers room.roomNum m).mp (mem_roomMessages_iff.mp hm)
    exact ⟨mem_roomMessages_iff.mpr hin, fun hdoomed => hkept ⟨room, hroom, rfl, hperm, hdoomed⟩⟩
  rw [List.eq_nil_iff_forall_not_mem]
  intro m hm
  obtain ⟨-, hkept⟩ := hstayed m (mem_doomed_room hm)
  have hpolicy := effectiveExpirePolicy_congr hconfig room
  rw [mem_doomed] at hm hkept
  rw [hpolicy] at hm
  cases hmode : (effectiveExpirePolicy s room).mode with
  | nextLevel => rw [hmode] at hm; exact hm
  | manual => rw [hmode] at hm; exact hm
  | numMsgs =>
    simp only [hmode] at hm
    -- the messages that stayed are among the newest, and there are not more of these
    have hsub : roomMessages (runExpiry w s).1 room.roomNum ⊆ (roomMessages s room.roomNum).drop
        ((roomMessages s room.roomNum).length - (effectiveExpirePolicy s room).value.toNat) := by
      intro k hk
      obtain ⟨hin, hout⟩ := hstayed k hk
      rw [← List.take_append_drop ((roomMessages s room.roomNum).length -
        (effectiveExpirePolicy s room).value.toNat) (roomMessages s room.roomNum)] at hin
      cases List.mem_append.mp hin with
      | inl htake =>
        exfalso
        refine hout (mem_doomed.mpr ?_)
        simp only [hmode]
        refine ⟨htake, ?_⟩
        have hpos := List.length_pos_of_mem htake
        rw [List.length_take] at hpos
        omega
      | inr hdrop => exact hdrop
    have hnodup : (roomMessages (runExpiry w s).1 room.roomNum).Nodup :=
      (roomMessages_sorted hkeyed' room.roomNum).imp Nat.ne_of_lt
    have hlength := (List.subperm_of_subset hnodup hsub).length_le
    rw [List.length_drop] at hlength
    have hpos : 1 ≤ (effectiveExpirePolicy s room).value := effective_accepted hacc room (.inl hmode)
    omega
  | age =>
    simp only [hmode] at hm hkept
    obtain ⟨hin, msg, hload, htime, hearly⟩ := hm
    have hlinked : ∃ p ∈ (runExpiry w s).1.roomMsgs, p.msgnum = m :=
      ⟨⟨room.roomNum, m⟩, by simpa [messageInRoom] using mem_roomMessages_iff.mp hin, rfl⟩
    rw [(hloads m hlinked).2] at hload
    exact hkept ⟨(hstayed m hin).1, msg, hload, htime, hearly⟩

/-- Expiry removes exactly what the policies name when no wrapped cutoff is later than some
    message of its room, and only then. -/
theorem expiresExactly_iff (hkeyed : Keyed s) (hnow : w.now ≤ 0x7fffffffffffffff)
    (hacc : PoliciesAccepted s) : ExpiresExactly w s ↔
      ∀ room ∈ s.rooms, room.qrFlags &&& qrPermanent = 0 → CutoffHarmless w s room := by
  obtain ⟨-, hrooms, -, hmembers, hloads⟩ := runExpiry_frame (w := w) hkeyed
  -- a number stands for one room
  have hswept : ∀ room ∈ s.rooms, ∀ m, Swept room.roomNum w s.rooms s m ↔
      room.qrFlags &&& qrPermanent = 0 ∧ m ∈ doomed w s room := by
    intro room hroom m
    constructor
    · rintro ⟨r, hr, hnum, hperm, hdoomed⟩
      obtain rfl := List.inj_on_of_nodup_map hkeyed.rooms hr hroom hnum
      exact ⟨hperm, hdoomed⟩
    · rintro ⟨hperm, hdoomed⟩
      exact ⟨room, hroom, rfl, hperm, hdoomed⟩
  have hexact : (∀ room ∈ s.rooms, ∀ m, messageInRoom (runExpiry w s).1 room.roomNum m = true ↔
      messageInRoom s room.roomNum m = true ∧ ¬Designated w s room m) ↔
      ∀ room ∈ s.rooms, room.qrFlags &&& qrPermanent = 0 → CutoffHarmless w s room := by
    refine forall₂_congr fun room hroom => ?_
    by_cases hperm : room.qrFlags &&& qrPermanent = 0
    · rw [← doomed_iff hkeyed hnow hacc hperm]
      simp only [hmembers, hswept room hroom, hperm, true_and, forall_const]
      refine forall_congr' fun m => ?_
      have hdoomed : m ∈ doomed w s room → messageInRoom s room.roomNum m = true :=
        fun h => mem_roomMessages_iff.mp (mem_doomed_room h)
      have hnamed : Designated w s room m → messageInRoom s room.roomNum m = true := by
        intro h
        have hcases := h.2
        cases hmode : (effectiveExpirePolicy s room).mode with
        | nextLevel => rw [hmode] at hcases; exact hcases.elim
        | manual => rw [hmode] at hcases; exact hcases.elim
        | numMsgs => rw [hmode] at hcases; exact mem_roomMessages_iff.mp hcases.1
        | age => rw [hmode] at hcases; exact mem_roomMessages_iff.mp hcases.1
      tauto
    · simp [hmembers, hswept room hroom, Designated, hperm]
  rw [← hexact]
  constructor
  · exact fun h => h.rooms
  · intro h
    refine ⟨h, ?_, fun row hrow hlinked => (hloads _ hlinked).1 row hrow rfl, ?_⟩
    · intro n hn m
      rw [hmembers, and_iff_left]
      rintro ⟨r, hr, rfl, -⟩
      exact hn (List.mem_map_of_mem hr)
    · have hidle : expireRooms w ((runExpiry w s).1.rooms.insertionSort
          (fun a b => a.roomNum ≤ b.roomNum)) (runExpiry w s).1 = ((runExpiry w s).1, []) := by
        refine expireRooms_idle fun room hroom hperm => ?_
        rw [List.mem_insertionSort, hrooms] at hroom
        exact doomed_runExpiry hkeyed hacc hroom hperm
      rw [runExpiry]
      simp only [hidle]
      rfl

/-- The sweep after any calls of `SetExpirePolicy`. -/
theorem runExpiry_exact_iff (w : World) (hnow : w.now ≤ 0x7fffffffffffffff) (base : Store)
    (hkeyed : Keyed base) (hacc : PoliciesAccepted base) (calls : List Assignment) :
    ExpiresExactly w (assign base calls) ↔
      ∀ room ∈ base.rooms, room.qrFlags &&& qrPermanent = 0 →
        CutoffHarmless w (assign base calls) room := by
  obtain ⟨hacc', hrooms, hmsgs, -⟩ := assign_spec calls base hacc
  have hkeyed' : Keyed (assign base calls) :=
    ⟨by rw [roomNums, hrooms]; exact hkeyed.rooms, by rw [hmsgs]; exact hkeyed.pointers⟩
  rw [expiresExactly_iff hkeyed' hnow hacc', hrooms]

/-- A database with one room and one message of the time 1000. -/
def oneMessage : Store where
  messages := [⟨{ Message.blank with msgnum := 1, msgtime := 1000 }, 0⟩]
  roomMsgs := [⟨100, 1⟩]
  tombstones := []
  rooms := [⟨100, 0, 0, 0, 0, 1⟩]
  seq := 2
  config := []
  users := []
  credentials := []
  quotas := []

theorem oneMessage_keyed : Keyed oneMessage := ⟨by decide, by decide⟩

theorem oneMessage_accepted : PoliciesAccepted oneMessage := by
  intro which room hmode
  have hread : readPolicy oneMessage (expireKey which room) = ⟨.nextLevel, 0⟩ := rfl
  cases hmode with
  | inl h => cases h
  | inr h => cases h

theorem runExpiry_exact_iff_oneMessage :
    ExpiresExactly ⟨1000000, [], [], fun _ => none, fun _ _ => []⟩
      (assign oneMessage [⟨bytes "roompolicy", ⟨100, 0, 0, 0, 0, 1⟩, 3, 1, by decide, by decide⟩]) := by
  refine (runExpiry_exact_iff _ (by decide) oneMessage oneMessage_keyed oneMessage_accepted _).mpr ?_
  intro room hroom _ _ hout
  rw [List.mem_singleton.mp hroom] at hout
  exact absurd hout (by decide)

/-- With the largest age the type has, a message is removed although none is to be. -/
theorem largest_age_removes_all :
    ¬ExpiresExactly ⟨1000000, [], [], fun _ => none, fun _ _ => []⟩
      (assign oneMessage [⟨bytes "roompolicy", ⟨100, 0, 0, 0, 0, 1⟩, 3, 0x7fffffffffffffff,
        by decide, by decide⟩]) := by
  intro h
  have hkept := (h.rooms ⟨100, 0, 0, 0, 0, 1⟩ (by decide) 1).mpr ⟨by decide, ?_⟩
  · exact absurd hkept (by decide)
  · intro hnamed
    have hpolicy : effectiveExpirePolicy (assign oneMessage [⟨bytes "roompolicy",
        ⟨100, 0, 0, 0, 0, 1⟩, 3, 0x7fffffffffffffff, by decide, by decide⟩])
        ⟨100, 0, 0, 0, 0, 1⟩ = ⟨.age, 0x7fffffffffffffff⟩ := by decide
    have hcases := hnamed.2
    rw [hpolicy] at hcases
    obtain ⟨-, msg, -, htime, hearly⟩ := hcases
    simp only at hearly
    omega

end QuackMail.Citadel
