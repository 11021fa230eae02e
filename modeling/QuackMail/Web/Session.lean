import QuackMail.Bytes

/-! # Web sessions

The table `quackmail_web_sessions` and the functions of `websession.cpp` that act on it.  A row
is found by the hash of its token; it lives for a sliding window that lookups move, under an
absolute cap, and on the transport it was created over.
-/

namespace QuackMail.Web

/-- `kIdleSeconds`. -/
def idleSeconds : Nat := 12 * 3600

/-- `kMaxLifetimeSeconds`. -/
def maxLifetimeSeconds : Nat := 7 * 24 * 3600

/-- `kRefreshSlackSeconds`. -/
def refreshSlackSeconds : Nat := 60

/-- A row of `quackmail_web_sessions`. -/
structure Row where
  username : Bytes
  createdAt : Nat
  lastSeen : Nat
  expiresAt : Nat
  tls : Bool
  revoked : Bool
  deriving DecidableEq

/-- The rows by their primary key, the hash of the token. -/
abbrev Table := Bytes → Option Row

/-- Insert, update or delete the row of a key. -/
def Table.set (t : Table) (h : Bytes) (row : Option Row) : Table :=
  fun k => if k = h then row else t k

@[simp] theorem Table.set_self (t : Table) (h : Bytes) (row : Option Row) : t.set h row h = row :=
  if_pos rfl

variable {h token : Bytes} {now : Nat}

theorem Table.set_of_ne (t : Table) {k : Bytes} (row : Option Row) (hk : k ≠ h) :
    t.set h row k = t k :=
  if_neg hk

/-- `DELETE FROM quackmail_web_sessions WHERE` the condition. -/
def Table.deleteWhere (t : Table) (p : Bytes → Row → Bool) : Table :=
  fun h => (t h).filter fun row => !p h row

variable (sha256Hex : Bytes → Bytes)

/-- `CreateSession` with the token the random number generator gave, none if it failed. -/
def createSession (now : Nat) (username : Bytes) (tls : Bool) (token : Bytes) (t : Table) :
    Table × Bool :=
  if token = [] then (t, false)
  else
    match t (sha256Hex token) with
    | some _ => (t, false)
    | none =>
      (t.set (sha256Hex token) (some
        { username := username, createdAt := now, lastSeen := now,
          expiresAt := now + idleSeconds, tls := tls, revoked := false }), true)

/-- The row is neither revoked nor expired. -/
def Row.current (row : Row) (now : Nat) : Bool :=
  !row.revoked && decide (now < row.expiresAt) && decide (now < row.createdAt + maxLifetimeSeconds)

/-- The expiry a lookup would move to. -/
def Row.newExpiry (row : Row) (now : Nat) : Nat :=
  min (now + idleSeconds) (row.createdAt + maxLifetimeSeconds)

/-- The expiry moves by more than the slack. -/
def Row.refreshes (row : Row) (now : Nat) : Bool :=
  decide (row.expiresAt + refreshSlackSeconds < row.newExpiry now)

/-- `LookupSession`: the table, and the user it authenticates. -/
def lookupSession (now : Nat) (token : Bytes) (tls : Bool) (t : Table) : Table × Option Bytes :=
  if token = [] then (t, none)
  else
    match t (sha256Hex token) with
    | none => (t, none)
    | some row =>
      if row.current now = false then (t, none)
      else if row.tls ≠ tls then
        if row.tls then (t.set (sha256Hex token) (some { row with revoked := true }), none)
        else (t, none)
      else if row.refreshes now then
        (t.set (sha256Hex token)
          (some { row with lastSeen := now, expiresAt := row.newExpiry now }), some row.username)
      else (t.set (sha256Hex token) (some { row with lastSeen := now }), some row.username)

/-- `RevokeSession`. -/
def revokeSession (token : Bytes) (t : Table) : Table :=
  if token = [] then t else t.set (sha256Hex token) none

/-- `RevokeByHash`. -/
def revokeByHash (tokenHash username : Bytes) (t : Table) : Table :=
  if tokenHash = [] then t
  else if username = [] then t.deleteWhere fun h _ => h == tokenHash
  else t.deleteWhere fun h row => h == tokenHash && row.username == username

/-- `RevokeAllForUser`. -/
def revokeAllForUser (username : Bytes) (t : Table) : Table :=
  t.deleteWhere fun _ row => row.username == username

/-- `PruneSessions`. -/
def pruneSessions (now : Nat) (t : Table) : Table :=
  t.deleteWhere fun _ row => row.revoked || decide (row.expiresAt ≤ now)

/-! ## Runs -/

inductive Op
  | create (username : Bytes) (tls : Bool) (token : Bytes)
  | lookup (token : Bytes) (tls : Bool)
  | revoke (token : Bytes)
  | revokeHash (tokenHash username : Bytes)
  | revokeAll (username : Bytes)
  | prune

/-- A call at a time. -/
def step (t : Table) : Nat × Op → Table
  | (now, .create username tls token) => (createSession sha256Hex now username tls token t).1
  | (now, .lookup token tls) => (lookupSession sha256Hex now token tls t).1
  | (_, .revoke token) => revokeSession sha256Hex token t
  | (_, .revokeHash tokenHash username) => revokeByHash tokenHash username t
  | (_, .revokeAll username) => revokeAllForUser username t
  | (now, .prune) => pruneSessions now t

/-- The table after a run from an empty one. -/
def run (events : List (Nat × Op)) : Table := events.foldl (step sha256Hex) fun _ => none

@[simp] theorem run_concat (events : List (Nat × Op)) (e : Nat × Op) :
    run sha256Hex (events ++ [e]) = step sha256Hex (run sha256Hex events) e := by
  simp [run]

/-- `LookupSession` returns true after this run. -/
def authenticates (events : List (Nat × Op)) (now : Nat) (token : Bytes) (tls : Bool) : Bool :=
  (lookupSession sha256Hex now token tls (run sha256Hex events)).2.isSome

/-- A call that ends the sessions of this hash and user, whatever the time. -/
def Revokes (h username : Bytes) : Op → Prop
  | .revoke token => token ≠ [] ∧ sha256Hex token = h
  | .revokeHash tokenHash name => tokenHash ≠ [] ∧ tokenHash = h ∧ (name = [] ∨ name = username)
  | .revokeAll name => name = username
  | _ => False

/-- The call presents a token of this hash in clear. -/
def InClear (h : Bytes) (op : Op) : Prop :=
  ∃ token, op = .lookup token false ∧ token ≠ [] ∧ sha256Hex token = h

variable {sha256Hex}

variable {t : Table}

theorem lookupSession_some {tls : Bool} {user : Bytes}
    (h : (lookupSession sha256Hex now token tls t).2 = some user) :
    ∃ row, token ≠ [] ∧ t (sha256Hex token) = some row ∧ row.current now = true ∧ row.tls = tls ∧
      user = row.username := by
  unfold lookupSession at h
  split at h
  · cases h
  · next hne =>
    split at h
    · cases h
    · next row hrow =>
      split at h
      · cases h
      · next hcurrent =>
        split at h
        · split at h <;> cases h
        · next htls =>
          refine ⟨row, hne, hrow, by simpa using hcurrent, not_not.mp htls, ?_⟩
          split at h <;> exact (Option.some.inj h).symm

/-- The row after a lookup that authenticates. -/
def Row.looked (row : Row) (now : Nat) : Row :=
  { row with
    lastSeen := now
    expiresAt := if row.refreshes now then row.newExpiry now else row.expiresAt }

theorem Row.looked_expiresAt (row : Row) (now : Nat) : (row.looked now).expiresAt =
    if row.refreshes now then row.newExpiry now else row.expiresAt := by
  rw [Row.looked]

theorem Row.looked_createdAt (row : Row) (now : Nat) : (row.looked now).createdAt = row.createdAt :=
  rfl

theorem Row.looked_revoked (row : Row) (now : Nat) : (row.looked now).revoked = row.revoked :=
  rfl

variable {row : Row}

/-- The row is current later on if the expiry the lookup left is. -/
theorem Row.looked_current {now' : Nat} (hcurrent : row.current now' = true)
    (hexpires : now < if row.refreshes now' then row.newExpiry now' else row.expiresAt)
    (hcap : now < row.createdAt + maxLifetimeSeconds) : (row.looked now').current now = true := by
  have hkept : row.revoked = false := by
    simp only [Row.current, Bool.and_eq_true, Bool.not_eq_true'] at hcurrent
    exact hcurrent.1.1
  rw [Row.current, Bool.and_eq_true, Bool.and_eq_true, decide_eq_true_eq, decide_eq_true_eq,
    Bool.not_eq_true', Row.looked_revoked, Row.looked_expiresAt, Row.looked_createdAt]
  exact ⟨⟨hkept, hexpires⟩, hcap⟩

theorem lookupSession_current
    (hne : token ≠ []) (hrow : t (sha256Hex token) = some row) (hcurrent : row.current now = true) :
    (lookupSession sha256Hex now token row.tls t).2 = some row.username ∧
      (lookupSession sha256Hex now token row.tls t).1 =
        t.set (sha256Hex token) (some (row.looked now)) := by
  unfold lookupSession Row.looked
  rw [if_neg hne, hrow]
  simp only [hcurrent, Bool.true_eq_false, if_false, ne_eq, not_true_eq_false]
  split
  · exact ⟨rfl, rfl⟩
  · exact ⟨rfl, rfl⟩

theorem deleteWhere_some {p : Bytes → Row → Bool}
    (hrow : t.deleteWhere p h = some row) : t h = some row ∧ p h row = false := by
  obtain ⟨hmem, hkeep⟩ := Option.filter_eq_some_iff.mp hrow
  exact ⟨hmem, by simpa using hkeep⟩

/-- A row and what a call leaves of it.  A call moves the expiry only where it authenticates,
    and a row that is presented in clear after its creation over TLS is revoked if it is
    current. -/
structure Kept (sha256Hex : Bytes → Bytes) (h : Bytes) (now : Nat) (op : Op) (row row' : Row) :
    Prop where
  username : row'.username = row.username
  createdAt : row'.createdAt = row.createdAt
  tls : row'.tls = row.tls
  ends : ¬Revokes sha256Hex h row.username op
  revoked : row'.revoked = false → row.revoked = false
  inClear : row'.revoked = false → row.tls = true → InClear sha256Hex h op → row.current now = false
  expires : row'.expiresAt = row.expiresAt ∨
    ∃ token, op = .lookup token row.tls ∧ token ≠ [] ∧ sha256Hex token = h ∧
      row.current now = true ∧ row'.expiresAt = row.newExpiry now

variable {op : Op}

/-- A row the call does not touch. -/
theorem Kept.same (hends : ¬Revokes sha256Hex h row.username op)
    (hclear : row.tls = true → InClear sha256Hex h op → row.current now = false) :
    Kept sha256Hex h now op row row :=
  ⟨rfl, rfl, rfl, hends, id, fun _ => hclear, Or.inl rfl⟩

theorem not_inClear_of_not_lookup
    (hop : ∀ token tls, op ≠ .lookup token tls) : ¬InClear sha256Hex h op := by
  rintro ⟨token, rfl, -⟩
  exact hop token false rfl

/-- A row that was created by the call, for the user and the transport it names. -/
structure Fresh (sha256Hex : Bytes → Bytes) (t : Table) (h : Bytes) (now : Nat) (op : Op)
    (row : Row) : Prop where
  call : ∃ token, op = .create row.username row.tls token ∧ token ≠ [] ∧ sha256Hex token = h
  free : t h = none
  createdAt : row.createdAt = now
  expiresAt : row.expiresAt = now + idleSeconds

theorem createSession_row {username : Bytes} {tls : Bool}
    {row' : Row} (hrow' : (createSession sha256Hex now username tls token t).1 h = some row') :
    t h = some row' ∨ Fresh sha256Hex t h now (.create username tls token) row' := by
  unfold createSession at hrow'
  split at hrow'
  · exact Or.inl hrow'
  · next hne =>
    split at hrow'
    · exact Or.inl hrow'
    · next hfree =>
      by_cases hh : h = sha256Hex token
      · subst hh
        simp only [Table.set_self, Option.some.injEq] at hrow'
        subst hrow'
        exact Or.inr ⟨⟨token, rfl, hne, rfl⟩, hfree, rfl, rfl⟩
      · simp only [Table.set_of_ne _ _ hh] at hrow'
        exact Or.inl hrow'

theorem lookupSession_row {tls : Bool} {row' : Row}
    (hrow' : (lookupSession sha256Hex now token tls t).1 h = some row') :
    ∃ row, t h = some row ∧ Kept sha256Hex h now (.lookup token tls) row row' := by
  have hends (row : Row) : ¬Revokes sha256Hex h row.username (.lookup token tls) := id
  -- the call does not present the row of `h` in clear, or the row is not current
  have hsame (row : Row) (hclear : tls = false → token ≠ [] → sha256Hex token = h →
      row.tls = true → row.current now = false) :
      Kept sha256Hex h now (.lookup token tls) row row := by
    refine .same (hends row) fun htls hinClear => ?_
    obtain ⟨token', hop, hne, hh⟩ := hinClear
    obtain ⟨rfl, rfl⟩ := Op.lookup.inj hop
    exact hclear rfl hne hh htls
  unfold lookupSession at hrow'
  split at hrow'
  · next hnil => exact ⟨row', hrow', hsame row' fun _ hne => absurd hnil hne⟩
  · next hne =>
    split at hrow'
    · next hfree =>
      refine ⟨row', hrow', hsame row' fun _ _ hh => ?_⟩
      simp only at hrow'
      rw [hh, hrow'] at hfree
      cases hfree
    · next row hrow =>
      by_cases hh : h = sha256Hex token
      swap
      · -- another row
        refine ⟨row', ?_, hsame row' fun _ _ heq => absurd heq.symm hh⟩
        revert hrow'
        split
        · exact id
        · split
          · split
            · simp only [Table.set_of_ne _ _ hh]; exact id
            · exact id
          · split
            · simp only [Table.set_of_ne _ _ hh]; exact id
            · simp only [Table.set_of_ne _ _ hh]; exact id
      · subst hh
        refine ⟨row, hrow, ?_⟩
        split at hrow'
        · next hcurrent =>
          simp only [hrow, Option.some.injEq] at hrow'
          subst hrow'
          exact hsame row fun _ _ _ _ => hcurrent
        · next hcurrent =>
          split at hrow'
          · next htls =>
            split at hrow'
            · simp only [Table.set_self, Option.some.injEq] at hrow'
              subst hrow'
              exact ⟨rfl, rfl, rfl, hends row, fun hr => absurd hr (by simp),
                fun hr => absurd hr (by simp), Or.inl rfl⟩
            · next hplain =>
              simp only [hrow, Option.some.injEq] at hrow'
              subst hrow'
              exact hsame row fun _ _ _ htls' => absurd htls' hplain
          · next htls =>
            have htls : row.tls = tls := not_not.mp htls
            have hnotclear : row.tls = true → ¬InClear sha256Hex (sha256Hex token)
                (.lookup token tls) := by
              rintro htrue ⟨token', hop, -⟩
              rw [htls] at htrue
              rw [(Op.lookup.inj hop).2] at htrue
              cases htrue
            split at hrow'
            · simp only [Table.set_self, Option.some.injEq] at hrow'
              subst hrow'
              refine ⟨rfl, rfl, rfl, hends row, id, fun _ h hc => absurd hc (hnotclear h),
                Or.inr ?_⟩
              exact ⟨token, by rw [htls], hne, rfl, by simpa using hcurrent, rfl⟩
            · simp only [Table.set_self, Option.some.injEq] at hrow'
              subst hrow'
              exact ⟨rfl, rfl, rfl, hends row, id, fun _ h hc => absurd hc (hnotclear h),
                Or.inl rfl⟩

/-- What a call leaves at a hash: a row it created, or what it keeps of the row that was there. -/
theorem step_row {row' : Row} (hrow' : step sha256Hex t (now, op) h = some row') :
    Fresh sha256Hex t h now op row' ∨
      ∃ row, t h = some row ∧ Kept sha256Hex h now op row row' := by
  cases op with
  | create username tls token =>
    cases createSession_row hrow' with
    | inl hrow =>
      have hclear : ¬InClear sha256Hex h (.create username tls token) :=
        not_inClear_of_not_lookup (by simp)
      exact Or.inr ⟨row', hrow, .same id fun _ hc => absurd hc hclear⟩
    | inr hfresh => exact Or.inl hfresh
  | lookup token tls => exact Or.inr (lookupSession_row hrow')
  | revoke token =>
    have hclear : ¬InClear sha256Hex h (.revoke token) := not_inClear_of_not_lookup (by simp)
    rw [step, revokeSession] at hrow'
    split at hrow'
    · next hnil =>
      exact Or.inr ⟨row', hrow', .same (fun h => h.1 hnil) fun _ hc => absurd hc hclear⟩
    · next hne =>
      by_cases hh : h = sha256Hex token
      · simp [hh] at hrow'
      · rw [Table.set_of_ne _ _ hh] at hrow'
        exact Or.inr ⟨row', hrow', .same (fun h => hh h.2.symm) fun _ hc => absurd hc hclear⟩
  | revokeHash tokenHash username =>
    have hclear : ¬InClear sha256Hex h (.revokeHash tokenHash username) :=
      not_inClear_of_not_lookup (by simp)
    rw [step, revokeByHash] at hrow'
    split at hrow'
    · next hnil =>
      exact Or.inr ⟨row', hrow', .same (fun h => h.1 hnil) fun _ hc => absurd hc hclear⟩
    · next hne =>
      split at hrow'
      · obtain ⟨hrow, hkeep⟩ := deleteWhere_some hrow'
        refine Or.inr ⟨row', hrow, .same ?_ fun _ hc => absurd hc hclear⟩
        rintro ⟨-, rfl, -⟩
        simp at hkeep
      · next hname =>
        obtain ⟨hrow, hkeep⟩ := deleteWhere_some hrow'
        refine Or.inr ⟨row', hrow, .same ?_ fun _ hc => absurd hc hclear⟩
        rintro ⟨-, rfl, hnames⟩
        simp [hnames.resolve_left hname] at hkeep
  | revokeAll username =>
    have hclear : ¬InClear sha256Hex h (.revokeAll username) := not_inClear_of_not_lookup (by simp)
    rw [step, revokeAllForUser] at hrow'
    obtain ⟨hrow, hkeep⟩ := deleteWhere_some hrow'
    refine Or.inr ⟨row', hrow, .same ?_ fun _ hc => absurd hc hclear⟩
    intro heq
    have heq : username = row'.username := heq
    simp [heq] at hkeep
  | prune =>
    have hclear : ¬InClear sha256Hex h .prune := not_inClear_of_not_lookup (by simp)
    rw [step, pruneSessions] at hrow'
    exact Or.inr ⟨row', (deleteWhere_some hrow').1, .same id fun _ hc => absurd hc hclear⟩

/-- A row that is current and that the call does not end is still there after it, over the same
    transport, and expires no sooner. -/
theorem step_keeps (hrow : t h = some row)
    (hcurrent : row.current now = true) (hends : ¬Revokes sha256Hex h row.username op)
    (hclear : row.tls = true → ¬InClear sha256Hex h op) :
    ∃ row', step sha256Hex t (now, op) h = some row' ∧ row'.username = row.username ∧
      row'.createdAt = row.createdAt ∧ row'.tls = row.tls ∧ row'.revoked = row.revoked ∧
      row.expiresAt ≤ row'.expiresAt := by
  have hsame : ∃ row', t h = some row' ∧ row'.username = row.username ∧
      row'.createdAt = row.createdAt ∧ row'.tls = row.tls ∧ row'.revoked = row.revoked ∧
      row.expiresAt ≤ row'.expiresAt := ⟨row, hrow, rfl, rfl, rfl, rfl, Nat.le_refl _⟩
  cases op with
  | create username tls token =>
    rw [step, createSession]
    split
    · exact hsame
    · split
      · exact hsame
      · next hfree =>
        by_cases hh : h = sha256Hex token
        · rw [← hh, hrow] at hfree
          cases hfree
        · simp only [Table.set_of_ne _ _ hh]
          exact hsame
  | lookup token tls =>
    rw [step]
    by_cases hne : token = []
    · rw [lookupSession, if_pos hne]
      exact hsame
    · by_cases hh : h = sha256Hex token
      · subst hh
        by_cases htls : row.tls = tls
        · subst htls
          rw [(lookupSession_current hne hrow hcurrent).2, Table.set_self]
          refine ⟨_, rfl, rfl, rfl, rfl, rfl, ?_⟩
          rw [Row.looked]
          simp only
          split
          · next hrefresh =>
            rw [Row.refreshes, decide_eq_true_eq] at hrefresh
            omega
          · exact Nat.le_refl _
        · have hplain : ¬row.tls = true := by
            intro htrue
            refine hclear htrue ⟨token, ?_, hne, rfl⟩
            cases tls with
            | true => exact absurd htrue htls
            | false => rfl
          simp only [lookupSession, if_neg hne, hrow, hcurrent, Bool.true_eq_false, if_false,
            if_pos htls, if_neg hplain]
          exact ⟨row, rfl, rfl, rfl, rfl, rfl, Nat.le_refl _⟩
      · -- another row
        have hother : (lookupSession sha256Hex now token tls t).1 h = t h := by
          unfold lookupSession
          rw [if_neg hne]
          split
          · rfl
          · split
            · rfl
            · split
              · split
                · exact Table.set_of_ne _ _ hh
                · rfl
              · split
                · exact Table.set_of_ne _ _ hh
                · exact Table.set_of_ne _ _ hh
        rw [hother]
        exact hsame
  | revoke token =>
    rw [step, revokeSession]
    split
    · exact hsame
    · next hne =>
      have hh : h ≠ sha256Hex token := fun hh => hends ⟨hne, hh.symm⟩
      rw [Table.set_of_ne _ _ hh]
      exact hsame
  | revokeHash tokenHash username =>
    have hkeep {p : Bytes → Row → Bool} (hp : p h row = false) : t.deleteWhere p h = some row :=
      Option.filter_eq_some_iff.mpr ⟨hrow, by simp [hp]⟩
    refine ⟨row, ?_, rfl, rfl, rfl, rfl, Nat.le_refl _⟩
    rw [step, revokeByHash]
    split
    · exact hrow
    · next hne =>
      split
      · next hname =>
        refine hkeep ?_
        simp only [beq_eq_false_iff_ne, ne_eq]
        exact fun hh => hends ⟨hne, hh.symm, Or.inl hname⟩
      · refine hkeep ?_
        simp only [Bool.and_eq_false_iff, beq_eq_false_iff_ne, ne_eq]
        by_cases hh : h = tokenHash
        · exact Or.inr fun hname => hends ⟨hne, hh.symm, Or.inr hname.symm⟩
        · exact Or.inl hh
  | revokeAll username =>
    refine ⟨row, Option.filter_eq_some_iff.mpr ⟨hrow, ?_⟩, rfl, rfl, rfl, rfl, Nat.le_refl _⟩
    simp only [Bool.not_eq_true', beq_eq_false_iff_ne, ne_eq]
    exact fun hname => hends hname.symm
  | prune =>
    refine ⟨row, Option.filter_eq_some_iff.mpr ⟨hrow, ?_⟩, rfl, rfl, rfl, rfl, Nat.le_refl _⟩
    rw [Row.current, Bool.and_eq_true, Bool.and_eq_true, decide_eq_true_eq] at hcurrent
    have hexpires : ¬row.expiresAt ≤ now := Nat.not_le.mpr hcurrent.1.2
    have hrevoked : row.revoked = false := by simpa using hcurrent.1.1
    simp [hexpires, hrevoked]

end QuackMail.Web
