import Mathlib.Algebra.BigOperators.Group.Finset.Piecewise
import Mathlib.Algebra.Order.BigOperators.Group.Finset
import QuackMail.Store.Expiry

/-! # Quotas

`WouldExceed` and `SetQuota` of `quota.cpp` in the 64 bits they compute in, where a message that
is larger than what is left of an `int64_t` makes the sum wrap, and a quota of 2^53 KiB the
product.  Below that both are exact.  Messages of more than an `int64_t` count as none.
-/

namespace QuackMail.Quota

open Citadel

/-! ## The code -/

/-- `SetQuota`, none where it refuses. -/
def setQuota (s : Store) (username : Bytes) (limit : Int) : Option Store :=
  if limit < 0 then none
  else
    let row : Limit := ⟨username, limit, true⟩
    some { s with quotas :=
      if s.quotas.any (fun l => l.username = username) then
        s.quotas.map fun l => if l.username = username then row else l
      else s.quotas ++ [row] }

/-- What SETQUOTA does with the argument of `STORAGE`. -/
def setStorage (s : Store) (user arg : Bytes) : Option Store :=
  setQuota s user (wrap64 (strtoll arg * 1024))

/-! ## What is meant -/

/-- The messages some room of the user points at. -/
def linked (s : Store) (usernum : Int) : Finset Nat :=
  ((s.roomMsgs.map Pointer.msgnum).filter (keptBy s usernum ·)).toFinset

/-- The size of a message, 0 where it is not computed yet. -/
def sizeOf (rows : List Row) (msgnum : Nat) : Int :=
  match rows.find? (fun r => r.msg.msgnum = msgnum) with
  | some r => max r.sizeBytes 0
  | none => 0

/-- The bytes of the distinct messages in the user's rooms; another name has no rooms. -/
def used (s : Store) (username : Bytes) : Int :=
  if 0 < userNum s username then
    ∑ m ∈ linked s (userNum s username), sizeOf s.messages m
  else 0

/-- The columns: message numbers are a key, and a limit is an `int64_t`. -/
structure Columns (s : Store) : Prop where
  keyed : (s.messages.map fun r => r.msg.msgnum).Nodup
  limits : ∀ l ∈ s.quotas, l.limitBytes ≤ int64Max

/-- The comparison is the one of unbounded integers. -/
def ExceedExact (s : Store) (username : Bytes) (extra : Int) : Prop :=
  wouldExceed s username extra = decide (0 < limitBytes s username ∧
    limitBytes s username < used s username + max extra 0)

/-- The text of an integer. -/
inductive Numeral : Bytes → Int → Prop where
  | plus {s : Bytes} : s ≠ [] → (∀ c ∈ s, isDigit c = true) → Numeral s (digitsFrom 0 s)
  | minus {s : Bytes} : s ≠ [] → (∀ c ∈ s, isDigit c = true) →
      Numeral (ch '-' :: s) (-digitsFrom 0 s)

/-- SETQUOTA refuses, or stores 1024 times the number. -/
def StoreExact (s : Store) (user arg : Bytes) (i : Int) : Prop :=
  ∀ s', setStorage s user arg = some s' → limitBytes s' user = 1024 * i

/-! ## The usage -/

theorem mem_linked {s : Store} {usernum : Int} {m : Nat} :
    m ∈ linked s usernum ↔ keptBy s usernum m = true := by
  simp only [linked, List.mem_toFinset, List.mem_filter, and_iff_right_iff_imp, List.mem_map]
  intro h
  obtain ⟨p, hp, hkept⟩ := List.any_eq_true.mp h
  simp only [Bool.and_eq_true, beq_iff_eq] at hkept
  exact ⟨p, hp, hkept.1⟩

/-- The sizes of the rows of some messages, counted once each. -/
theorem sum_sizes {rows : List Row} (h : (rows.map fun r => r.msg.msgnum).Nodup)
    (kept : Nat → Bool) (F : Finset Nat) (hF : ∀ m, m ∈ F ↔ kept m = true) :
    ((rows.filter fun r => r.sizeBytes > 0 && kept r.msg.msgnum).map Row.sizeBytes).sum =
      ∑ m ∈ F, sizeOf rows m := by
  induction rows with
  | nil => simp [sizeOf]
  | cons r rows ih =>
    rw [List.map_cons, List.nodup_cons] at h
    have hnone : sizeOf rows r.msg.msgnum = 0 := by
      have hfind : rows.find? (fun q => q.msg.msgnum = r.msg.msgnum) = none := by
        apply List.find?_eq_none.mpr
        intro q hq heq
        exact h.1 (List.mem_map.mpr ⟨q, hq, by simpa using heq⟩)
      rw [sizeOf, hfind]
    have hsplit : ∀ m, sizeOf (r :: rows) m =
        sizeOf rows m + if m = r.msg.msgnum then max r.sizeBytes 0 else 0 := by
      intro m
      by_cases hm : m = r.msg.msgnum
      · rw [hm, hnone, if_pos rfl, sizeOf, List.find?_cons_of_pos (by simp)]
        simp
      · rw [if_neg hm, add_zero, sizeOf, List.find?_cons_of_neg (by simpa using Ne.symm hm), sizeOf]
    have hF' := hF r.msg.msgnum
    simp only [hsplit, Finset.sum_add_distrib, ← ih h.2, Finset.sum_ite_eq']
    by_cases hkept : kept r.msg.msgnum = true
    · by_cases hsize : r.sizeBytes > 0
      · simp [hkept, hsize, hF'.mpr hkept]
        omega
      · simp [hsize]
        omega
    · simp [hkept, hF']

theorem computeUsage_eq {s : Store} (h : Columns s) (username : Bytes) :
    computeUsage s username = toBigint (used s username) := by
  rw [computeUsage, used]
  by_cases hpos : 0 < userNum s username
  · simp only [if_neg (not_le.mpr hpos), if_pos hpos]
    exact congrArg toBigint (sum_sizes h.keyed _ _ fun m => mem_linked)
  · simp only [if_pos (not_lt.mp hpos), if_neg hpos]
    rfl

theorem limitBytes_le {s : Store} (h : Columns s) (username : Bytes) :
    limitBytes s username ≤ int64Max := by
  have hfor : (limitFor s username).limitBytes ≤ int64Max := by
    rw [limitFor]
    split
    · next l hl => exact h.limits l (List.mem_of_find?_eq_some hl)
    · split
      · next l hl => exact h.limits l (List.mem_of_find?_eq_some hl)
      · exact (by decide : (0 : Int) ≤ int64Max)
  unfold limitBytes
  dsimp only
  split
  · exact hfor
  · decide

theorem used_nonneg (s : Store) (username : Bytes) : 0 ≤ used s username := by
  rw [used]
  split
  · apply Finset.sum_nonneg
    intro m _
    rw [sizeOf]
    split
    · exact le_max_right _ _
    · exact le_refl 0
  · exact le_refl 0

/-! ## Sums and products in 64 bits -/

theorem wrap64_eq (n : Int) : wrap64 n =
    if n % 18446744073709551616 < 9223372036854775808 then n % 18446744073709551616
    else n % 18446744073709551616 - 18446744073709551616 :=
  Int.bmod_def n 18446744073709551616

/-- A user without a limit, or a sum that is an `int64_t`; or the messages alone are more than
    one, and the extra bytes exceed the limit by themselves. -/
def Fits (s : Store) (username : Bytes) (extra : Int) : Prop :=
  limitBytes s username ≤ 0 ∨ used s username + max extra 0 ≤ int64Max ∨
    (int64Max < used s username ∧ limitBytes s username < max extra 0)

theorem exceed_iff {s : Store} (h : Columns s) (username : Bytes) {extra : Int}
    (hextra : extra ≤ int64Max) : ExceedExact s username extra ↔ Fits s username extra := by
  have hlimit := limitBytes_le h username
  have hused := used_nonneg s username
  have hmax : (if extra < 0 then 0 else extra) = max extra 0 := by
    split
    · omega
    · omega
  rw [ExceedExact, wouldExceed, computeUsage_eq h, Fits, hmax]
  generalize limitBytes s username = limit at *
  generalize used s username = used at *
  rw [← Bool.decide_and, decide_eq_decide, toBigint]
  unfold int64Max at *
  by_cases hsum : used + max extra 0 ≤ 0x7fffffffffffffff
  · have hwrap : wrap64 (used + max extra 0) = used + max extra 0 :=
      Int.bmod_eq_of_le (by omega) (by omega)
    rw [if_pos (by omega), hwrap]
    omega
  · by_cases hfits : used ≤ 0x7fffffffffffffff
    · -- the sum is above every limit, and below all of them once it has wrapped
      have hwrap : wrap64 (used + max extra 0) = used + max extra 0 - 0x10000000000000000 := by
        rw [wrap64_eq]
        omega
      rw [if_pos hfits, hwrap]
      omega
    · -- the messages count as none
      have hwrap : wrap64 (0 + max extra 0) = max extra 0 := by
        rw [zero_add]
        exact Int.bmod_eq_of_le (by omega) (by omega)
      rw [if_neg hfits, hwrap]
      omega

/-- The numbers whose product is stored as it is, and those whose product is negative once it
has wrapped. -/
def Storable (i : Int) : Prop :=
  (0 ≤ i ∧ i < 2 ^ 53) ∨ 2 ^ 63 ≤ i ∨ (-2 ^ 63 ≤ i ∧ 2 ^ 53 ≤ i % 2 ^ 54)

theorem strtoll_numeral {arg : Bytes} {i : Int} (h : Numeral arg i) :
    strtoll arg = max (-0x8000000000000000) (min i 0x7fffffffffffffff) := by
  cases h with
  | plus hne hdigits =>
    obtain ⟨c, s, rfl⟩ := List.exists_cons_of_ne_nil hne
    obtain ⟨hspace, hminus, hplus⟩ := isDigit_plain (hdigits c List.mem_cons_self)
    rw [strtoll, List.dropWhile_cons_of_neg (by simp [hspace])]
    simp only [if_neg hminus, if_neg hplus]
    omega
  | @minus s hne hdigits =>
    rw [strtoll, List.dropWhile_cons_of_neg (by decide)]
    simp only [if_true]
    omega

theorem setQuota_eq (s : Store) (username : Bytes) (limit : Int) :
    if limit < 0 then setQuota s username limit = none
    else ∃ s', setQuota s username limit = some s' ∧ limitBytes s' username = limit := by
  split
  · next hneg => rw [setQuota, if_pos hneg]
  · next hpos =>
    rw [setQuota, if_neg hpos]
    refine ⟨_, rfl, ?_⟩
    have hfind : (if s.quotas.any (fun l => l.username = username) then
        s.quotas.map fun l => if l.username = username then ⟨username, limit, true⟩ else l
        else s.quotas ++ [⟨username, limit, true⟩]).find? (fun l => l.username = username) =
        some ⟨username, limit, true⟩ := by
      induction s.quotas with
      | nil => simp
      | cons l quotas ih =>
        by_cases hl : l.username = username
        · simp [hl]
        · simp only [List.any_cons, hl, decide_false, Bool.false_or, List.map_cons, if_false,
            List.cons_append] at ih ⊢
          split
          · next hany =>
            rw [if_pos hany] at ih
            rw [List.find?_cons_of_neg (by simpa using hl), ih]
          · next hany =>
            rw [if_neg hany] at ih
            rw [List.find?_cons_of_neg (by simpa using hl), ih]
    simp only [limitBytes, limitFor, hfind, if_true]

theorem store_iff (s : Store) (user : Bytes) {arg : Bytes} {i : Int} (h : Numeral arg i) :
    StoreExact s user arg i ↔ Storable i := by
  have hquota : ∀ p, (∀ s', setQuota s user p = some s' → limitBytes s' user = 1024 * i) ↔
      p < 0 ∨ p = 1024 * i := by
    intro p
    have hspec := setQuota_eq s user p
    split at hspec
    · next hneg => simp [hspec, hneg]
    · next hpos =>
      obtain ⟨s', hs', hlimit⟩ := hspec
      simp [hs', hlimit, hpos]
  rw [StoreExact, setStorage, strtoll_numeral h, hquota, Storable]
  by_cases hbig : 2 ^ 63 ≤ i
  · have hclamp : max (-0x8000000000000000) (min i 0x7fffffffffffffff) = 0x7fffffffffffffff := by
      omega
    rw [hclamp]
    exact iff_of_true (Or.inl (by decide)) (Or.inr (Or.inl hbig))
  by_cases hsmall : i < -2 ^ 63
  · have hclamp : max (-0x8000000000000000) (min i 0x7fffffffffffffff) = -0x8000000000000000 := by
      omega
    have hzero : wrap64 (-0x8000000000000000 * 1024) = 0 := by decide
    rw [hclamp, hzero]
    omega
  · have hclamp : max (-0x8000000000000000) (min i 0x7fffffffffffffff) = i := by omega
    have hmod : i * 1024 % 18446744073709551616 = 1024 * (i % 18014398509481984) := by
      rw [Int.mul_comm]
      exact Int.mul_emod_mul_of_pos i 18014398509481984 (by omega)
    rw [hclamp, wrap64_eq, hmod]
    omega

/-! ## Both -/

/-- The check of a literal and the limit that SETQUOTA stores are exact if and only if the sum
is an `int64_t` for a user with a limit, and the number is below 2^53 or its product is negative
once it has wrapped. -/
theorem quota_exact {s : Store} (h : Columns s) (username user : Bytes) (extra : Int64)
    {arg : Bytes} {i : Int} (harg : Numeral arg i) :
    (ExceedExact s username extra.toInt ↔ Fits s username extra.toInt) ∧
      (StoreExact s user arg i ↔ Storable i) := by
  have hextra : extra.toInt ≤ int64Max := by
    have := extra.toInt_lt
    unfold int64Max
    omega
  exact ⟨exceed_iff h username hextra, store_iff s user harg⟩

/-- A site default of 100 bytes, and a message of 60 that two rooms of a user point at; a message
    in a room of nobody's is not counted. -/
def small : Store :=
  { messages := [⟨{ Message.blank with msgnum := 1 }, 60⟩, ⟨{ Message.blank with msgnum := 2 }, 90⟩]
    roomMsgs := [⟨100, 1⟩, ⟨101, 1⟩, ⟨102, 2⟩], tombstones := []
    rooms := [⟨100, 0, 0, 0, 1, 1⟩, ⟨101, 0, 0, 0, 1, 1⟩, ⟨102, 0, 0, 0, 0, 2⟩], seq := 3, config := []
    users := [(bytes "a", 1)], credentials := [bytes "a"], quotas := [⟨[], 100, true⟩] }

theorem columns_small : Columns small := ⟨by decide, by decide⟩

/-- The shared message leaves 40 bytes. -/
example : wouldExceed small (bytes "a") 40 = false ∧ wouldExceed small (bytes "a") 41 = true := by
  decide +kernel

theorem quota_exact_small :
    (ExceedExact small (bytes "a") (Int64.ofNat 41).toInt ↔
      Fits small (bytes "a") (Int64.ofNat 41).toInt) ∧
      (StoreExact small (bytes "a") (bytes "10") 10 ↔ Storable 10) :=
  quota_exact columns_small (bytes "a") (bytes "a") (Int64.ofNat 41)
    (Numeral.plus (s := bytes "10") (by decide) (forall_mem_bytes (by decide +kernel)))

/-- A quota of 2^54 KiB is stored as none. -/
theorem product_wraps : ¬∀ (s : Store), Columns s → ∀ (username user : Bytes)
    (extra : Int64) (arg : Bytes) (i : Int), Numeral arg i →
    ExceedExact s username extra.toInt ∧ StoreExact s user arg i := by
  intro h
  have hdigits : digitsFrom 0 (bytes "18014398509481984") = 2 ^ 54 := by decide +kernel
  have harg := Numeral.plus (s := bytes "18014398509481984") (by decide +kernel)
    (forall_mem_bytes (by decide +kernel))
  have hstore := (h small columns_small (bytes "a") (bytes "a") 0 _ _ harg).2
  rw [store_iff small (bytes "a") harg, Storable] at hstore
  revert hstore
  decide

end QuackMail.Quota
