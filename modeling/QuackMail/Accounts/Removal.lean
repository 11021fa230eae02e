import QuackMail.Accounts.Credentials
import QuackMail.Web.Lifetime

/-! # Removing a user

`RemoveUser` ends the password and the SSH keys of a user, since its comment asks that recreating
the name does not hand the new account the old one's logins.  It leaves the sessions, so a run
ends every credential exactly when no session of the user is alive where the user is removed.
-/

namespace QuackMail.Accounts

variable {crypto : Crypto}

/-! ## Passwords -/

variable {s : Tables} {username : Bytes} {acts : List (Nat × Act)} {now : Nat}

/-- A row that `Verify` leaves of a current one is the same. -/
theorem verify_users {password salt name : Bytes} {user : User}
    (hrow : (verify crypto username password salt s).1.users name = some user) :
    s.users name = some user ∨
      ∃ old, name = username ∧ s.users name = some old ∧ needsRehash old.stored.algo = true := by
  rw [verify] at hrow
  split at hrow
  · exact Or.inl hrow
  · next old hold =>
    split at hrow
    · exact Or.inl hrow
    · split at hrow
      · exact Or.inl hrow
      · split at hrow
        · exact Or.inl hrow
        · next hrehash =>
          by_cases hname : name = username
          · subst hname
            exact Or.inr ⟨old, rfl, hold, by simpa using hrehash⟩
          · dsimp only at hrow
            split at hrow
            · exact Or.inl hrow
            · simp only [assign_of_ne _ _ hname] at hrow
              exact Or.inl hrow

/-- Where a user's row comes from: a call that sets the password, an older hash that is made
    anew, or what was there. -/
theorem step_users {e : Nat × Act} {name : Bytes} {user : User}
    (hrow : (step crypto s e).users name = some user) :
    (∃ password salt, e.2 = .addUser name password salt ∧
      user = ⟨hashPassword crypto password salt, true⟩) ∨
    (∃ old, s.users name = some old ∧ needsRehash old.stored.algo = true) ∨
    (s.users name = some user ∧ e.2 ≠ .removeUser name) := by
  obtain ⟨now, act⟩ := e
  cases act with
  | addUser username password salt =>
    rw [step, addUser] at hrow
    split at hrow
    · exact Or.inr (Or.inr ⟨hrow, by simp⟩)
    · by_cases hname : name = username
      · subst hname
        simp only [assign_self, Option.some.injEq] at hrow
        exact Or.inl ⟨password, salt, rfl, hrow.symm⟩
      · simp only [assign_of_ne _ _ hname] at hrow
        exact Or.inr (Or.inr ⟨hrow, by simp⟩)
  | removeUser username =>
    have hrow : assign s.users username none name = some user := hrow
    by_cases hname : name = username
    · rw [hname, assign_self] at hrow
      cases hrow
    · rw [assign_of_ne _ _ hname] at hrow
      exact Or.inr (Or.inr ⟨hrow, fun heq => hname (Act.removeUser.inj heq).symm⟩)
  | verify username password salt =>
    cases verify_users hrow with
    | inl hsame => exact Or.inr (Or.inr ⟨hsame, by simp⟩)
    | inr hrehash =>
      obtain ⟨old, -, hold, halgo⟩ := hrehash
      exact Or.inr (Or.inl ⟨old, hold, halgo⟩)
  | addKey username line =>
    refine Or.inr (Or.inr ⟨?_, by simp⟩)
    rw [step, addKey] at hrow
    split at hrow
    · exact hrow
    · split at hrow
      · exact hrow
      · exact hrow
  | removeKey username fp => exact Or.inr (Or.inr ⟨hrow, by simp⟩)
  | useKey username blob touch =>
    refine Or.inr (Or.inr ⟨?_, by simp⟩)
    rw [step, userHasKey] at hrow
    split at hrow
    · exact hrow
    · split at hrow
      · exact hrow
      · split at hrow
        · exact hrow
        · exact hrow
  | web op => exact Or.inr (Or.inr ⟨hrow, by simp⟩)

/-- After a removal, the row of the user is that of a later call that sets the password. -/
theorem users_after {name : Bytes} (hgone : s.users name = none) {user : User}
    (hrow : (acts.foldl (step crypto) s).users name = some user) :
    ∃ e ∈ acts, ∃ password salt, e.2 = .addUser name password salt ∧
      user = ⟨hashPassword crypto password salt, true⟩ := by
  induction acts using List.reverseRecOn generalizing user with
  | nil =>
    rw [List.foldl_nil, hgone] at hrow
    cases hrow
  | append_singleton acts e ih =>
    rw [List.foldl_append, List.foldl_cons, List.foldl_nil] at hrow
    cases step_users hrow with
    | inl hadded => exact ⟨e, by simp, hadded⟩
    | inr hold =>
      cases hold with
      | inl hrehash =>
        -- a row made in the run is never hashed again
        obtain ⟨old, hold, halgo⟩ := hrehash
        obtain ⟨-, -, password, salt, -, rfl⟩ := ih hold
        have hcurrent : needsRehash (hashPassword crypto password salt).algo = false :=
          needsRehash_currentAlgo
        cases halgo
      | inr hsame =>
        obtain ⟨e', he', hadded⟩ := ih hsame.1
        exact ⟨e', List.mem_append_left _ he', hadded⟩

/-- What a password must hash to for a row made now. -/
theorem checkPassword_hashPassword {password other salt : Bytes}
    (h : checkPassword crypto password (hashPassword crypto other salt) = true) :
    crypto.scryptHex password salt scryptN scryptR scryptP =
        crypto.scryptHex other salt scryptN scryptR scryptP ∧
      crypto.scryptHex other salt scryptN scryptR scryptP ≠ [] := by
  have hcomputed : computedHash crypto password (hashPassword crypto other salt) =
      some (crypto.scryptHex password salt scryptN scryptR scryptP) := by
    simp only [computedHash, hashPassword, parseScrypt_currentAlgo]
  simp only [checkPassword, hcomputed, Bool.and_eq_true, bne_iff_ne, ne_eq, beq_iff_eq] at h
  have hhash : crypto.scryptHex password salt scryptN scryptR scryptP =
      crypto.scryptHex other salt scryptN scryptR scryptP := h.2
  rw [← hhash]
  exact ⟨rfl, h.1⟩

theorem verify_true {password salt : Bytes}
    (h : (verify crypto username password salt s).2 = true) :
    ∃ user, s.users username = some user ∧ checkPassword crypto password user.stored = true := by
  rw [verify] at h
  split at h
  · cases h
  · next user huser =>
    split at h
    · cases h
    · split at h
      · cases h
      · next hcheck => exact ⟨user, huser, by simpa using hcheck⟩

/-! ## Keys -/

/-- The call registers a key of this fingerprint for the user. -/
def Registers (crypto : Crypto) (fp username : Bytes) (act : Act) : Prop :=
  ∃ name line blob, act = .addKey name line ∧ crypto.sqlLower name = crypto.sqlLower username ∧
    crypto.parseAuthorizedKey line = .ok blob ∧ crypto.fingerprint blob = fp

theorem step_keys {e : Nat × Act} {fp : Bytes} {key : Key}
    (hrow : (step crypto s e).keys fp = some key) :
    Registers crypto fp key.username e.2 ∨
      ∃ old, s.keys fp = some old ∧ old.username = key.username := by
  obtain ⟨now, act⟩ := e
  cases act with
  | addUser username password salt =>
    rw [step, addUser] at hrow
    split at hrow
    · exact Or.inr ⟨key, hrow, rfl⟩
    · exact Or.inr ⟨key, hrow, rfl⟩
  | removeUser username =>
    exact Or.inr ⟨key, (Option.filter_eq_some_iff.mp hrow).1, rfl⟩
  | verify username password salt =>
    refine Or.inr ⟨key, ?_, rfl⟩
    rw [step, verify] at hrow
    split at hrow
    · exact hrow
    · split at hrow
      · exact hrow
      · split at hrow
        · exact hrow
        · split at hrow
          · exact hrow
          · dsimp only at hrow
            split at hrow
            · exact hrow
            · exact hrow
  | addKey username line =>
    rw [step, addKey] at hrow
    split at hrow
    · exact Or.inr ⟨key, hrow, rfl⟩
    · next blob hblob =>
      split at hrow
      · exact Or.inr ⟨key, hrow, rfl⟩
      · by_cases hfp : fp = crypto.fingerprint blob
        · subst hfp
          simp only [assign_self, Option.some.injEq] at hrow
          subst hrow
          exact Or.inl ⟨username, line, blob, rfl, rfl, hblob, rfl⟩
        · simp only [assign_of_ne _ _ hfp] at hrow
          exact Or.inr ⟨key, hrow, rfl⟩
  | removeKey username fp' => exact Or.inr ⟨key, (Option.filter_eq_some_iff.mp hrow).1, rfl⟩
  | useKey username blob touch =>
    rw [step, userHasKey] at hrow
    split at hrow
    · exact Or.inr ⟨key, hrow, rfl⟩
    · next old hold =>
      split at hrow
      · exact Or.inr ⟨key, hrow, rfl⟩
      · split at hrow
        · by_cases hfp : fp = crypto.fingerprint blob
          · subst hfp
            simp only [assign_self, Option.some.injEq] at hrow
            subst hrow
            exact Or.inr ⟨old, hold, rfl⟩
          · simp only [assign_of_ne _ _ hfp] at hrow
            exact Or.inr ⟨key, hrow, rfl⟩
        · exact Or.inr ⟨key, hrow, rfl⟩
  | web op => exact Or.inr ⟨key, hrow, rfl⟩

/-- A key of the user after a removal was registered since. -/
theorem keys_after {fp : Bytes}
    (hgone : ∀ key, s.keys fp = some key → key.owned crypto username = false)
    (hnot : ∀ e ∈ acts, ¬Registers crypto fp username e.2) {key : Key}
    (hrow : (acts.foldl (step crypto) s).keys fp = some key) :
    key.owned crypto username = false := by
  induction acts using List.reverseRecOn generalizing key with
  | nil => exact hgone key hrow
  | append_singleton acts e ih =>
    rw [List.foldl_append, List.foldl_cons, List.foldl_nil] at hrow
    cases step_keys hrow with
    | inl hregisters =>
      rw [Key.owned, beq_eq_false_iff_ne, ne_eq]
      intro hlower
      obtain ⟨name, line, blob, hact, hname, hparse, hfp⟩ := hregisters
      exact hnot e (by simp) ⟨name, line, blob, hact, hname.trans hlower, hparse, hfp⟩
    | inr hold =>
      obtain ⟨old, hold, hname⟩ := hold
      have hother := ih (fun e' he' => hnot e' (List.mem_append_left _ he')) hold
      rw [Key.owned, hname] at hother
      exact hother

theorem userHasKey_false {blob : Bytes} {touch : Bool}
    (h : ∀ key, s.keys (crypto.fingerprint blob) = some key → key.owned crypto username = false) :
    (userHasKey crypto now username blob touch s).2 = false := by
  rw [userHasKey]
  split
  · rfl
  · next key hkey => rw [if_pos (h key hkey)]

/-! ## Sessions -/

/-- Every session of the user is over when the user is removed. -/
def SessionsOver (s : Tables) (time : Nat) (username : Bytes) : Prop :=
  ∀ h row, s.sessions h = some row → row.username = username → row.current time = false

/-- A session that was created before a removal and not since does not authenticate after it. -/
theorem sessions_after {calls before after : List (Nat × Web.Op)} {time : Nat}
    (hcalls : calls = before ++ after) (htimed : Web.Timed calls now)
    (hbefore : ∀ e ∈ after, time ≤ e.1) (hnow : time ≤ now)
    (hover : ∀ h row, Web.run crypto.sha256Hex before h = some row → row.username = username →
      row.current time = false) {token : Bytes}
    (hcollision : Web.NoCollision crypto.sha256Hex calls token) {tls : Bool}
    {front back : List (Nat × Web.Op)} {created : Nat}
    (hissued : Web.Issued crypto.sha256Hex calls token username tls front created (back ++ after))
    (transport : Bool) :
    (Web.lookupSession crypto.sha256Hex now token transport
      (Web.run crypto.sha256Hex calls)).2 = none := by
  rw [Option.eq_none_iff_forall_ne_some]
  intro user huser
  obtain ⟨row, hne, hrow, hcurrent, -, -⟩ := Web.lookupSession_some huser
  -- the row is that of the creation
  obtain ⟨front', op, back', htraced⟩ := Web.traced_of_current htimed hrow hcurrent
  obtain ⟨-, hname, -⟩ := hissued.unique (htraced.issued hne hcollision)
  have hrun : Web.run crypto.sha256Hex calls =
      after.foldl (Web.step crypto.sha256Hex) (Web.run crypto.sha256Hex before) := by
    rw [hcalls, Web.run, List.foldl_append]
    rfl
  have hafter : Web.Timed after now := by
    rw [hcalls] at htimed
    exact ⟨(List.pairwise_append.mp htimed.1).2.1,
      fun e he => htimed.2 e (List.mem_append_right _ he)⟩
  have hcreated : calls = front ++ (created, .create username tls token) :: back ++ after := by
    rw [hissued.events]
    simp
  have hfront : before = front ++ (created, .create username tls token) :: back := by
    rw [hcalls] at hcreated
    exact List.append_cancel_right hcreated
  -- no later call creates it again
  rw [hrun] at hrow
  obtain ⟨old, hold, huser', hat⟩ := Web.current_before hafter hbefore hnow hrow hcurrent <| by
    intro ahead e rest name tls' other hahead he hother hnil
    have hin : e ∈ calls := by
      rw [hcalls, hahead]
      simp
    have hsame : other = token := hcollision e hin other (by rw [he]; rfl) hother
    subst hsame
    have hfails := hissued.last (back ++ ahead) e rest name tls' (by rw [hahead]; simp) he
    rw [Bool.eq_false_iff, ne_eq, Web.createSession_iff] at hfails
    intro hfree
    refine hfails ⟨hnil, ?_⟩
    have hahead' : front ++ (created, .create username tls other) :: (back ++ ahead) =
        before ++ ahead := by
      rw [hfront]
      simp
    rw [hahead', Web.run, List.foldl_append]
    exact hfree
  have hover := hover _ _ hold (huser'.trans hname.symm)
  rw [hat] at hover
  cases hover

/-! ## Every credential -/

/-- The password a call names. -/
def Act.password? : Act → Option Bytes
  | .addUser _ password _ => some password
  | .verify _ password _ => some password
  | _ => none

/-- No two tokens, and no two passwords, of the run have one hash. -/
structure Collisionless (crypto : Crypto) (acts : List (Nat × Act)) : Prop where
  tokens : ∀ e ∈ webCalls acts, ∀ token, e.2.token? = some token →
    Web.NoCollision crypto.sha256Hex (webCalls acts) token
  passwords : ∀ e ∈ acts, ∀ password, e.2.password? = some password →
    ∀ e' ∈ acts, ∀ username other salt, e'.2 = .addUser username other salt →
      crypto.scryptHex other salt scryptN scryptR scryptP ≠ [] →
      crypto.scryptHex password salt scryptN scryptR scryptP =
        crypto.scryptHex other salt scryptN scryptR scryptP → password = other

/-- No session, key or password that the user had before a removal, and was not given again
    since, authenticates. -/
structure Ended (crypto : Crypto) (username : Bytes) (before after : List (Nat × Act)) (now : Nat)
    (s : Tables) : Prop where
  sessions : ∀ token tls front created back,
    Web.Issued crypto.sha256Hex (webCalls before ++ webCalls after) token username tls front created
      (back ++ webCalls after) →
    ∀ transport, (Web.lookupSession crypto.sha256Hex now token transport s.sessions).2 = none
  keys : ∀ fp, (∀ e ∈ after, ¬Registers crypto fp username e.2) →
    ∀ key, s.keys fp = some key → key.owned crypto username = false
  logins : ∀ blob, (∀ e ∈ after, ¬Registers crypto (crypto.fingerprint blob) username e.2) →
    ∀ touch, (userHasKey crypto now username blob touch s).2 = false
  passwords : ∀ e ∈ before, ∀ password, e.2.password? = some password →
    (∀ e' ∈ after, ∀ salt, e'.2 ≠ .addUser username password salt) →
    ∀ salt, (verify crypto username password salt s).2 = false

/-- Each removal of the run has ended the credentials of its user. -/
def RemovalsEnd (crypto : Crypto) (users : Bytes → Option User) (keys : Bytes → Option Key)
    (acts : List (Nat × Act)) (now : Nat) : Prop :=
  ∀ before time username after, acts = before ++ (time, .removeUser username) :: after →
    Ended crypto username before after now (run crypto users keys acts)

theorem webCalls_append (front back : List (Nat × Act)) :
    webCalls (front ++ back) = webCalls front ++ webCalls back :=
  List.filterMap_append

theorem mem_webCalls {e : Nat × Web.Op} (h : e ∈ webCalls acts) : (e.1, .web e.2) ∈ acts := by
  obtain ⟨a, ha, hop⟩ := List.mem_filterMap.mp h
  obtain ⟨now, act⟩ := a
  cases act with
  | web op =>
    rw [← Option.some.inj hop]
    exact ha
  | addUser _ _ _ => cases hop
  | removeUser _ => cases hop
  | verify _ _ _ => cases hop
  | addKey _ _ => cases hop
  | removeKey _ _ => cases hop
  | useKey _ _ _ => cases hop

theorem timed_webCalls (htimed : acts.Pairwise (·.1 ≤ ·.1))
    (hnow : ∀ e ∈ acts, e.1 ≤ now) : Web.Timed (webCalls acts) now := by
  refine ⟨?_, fun e he => hnow _ (mem_webCalls he)⟩
  rw [webCalls, List.pairwise_filterMap]
  refine htimed.imp fun {a b} hab c hc d hd => ?_
  obtain ⟨t, act⟩ := a
  obtain ⟨t', act'⟩ := b
  cases act with
  | web op =>
    cases act' with
    | web op' =>
      rw [← Option.some.inj hc, ← Option.some.inj hd]
      exact hab
    | addUser _ _ _ => cases hd
    | removeUser _ => cases hd
    | verify _ _ _ => cases hd
    | addKey _ _ => cases hd
    | removeKey _ _ => cases hd
    | useKey _ _ _ => cases hd
  | addUser _ _ _ => cases hc
  | removeUser _ => cases hc
  | verify _ _ _ => cases hc
  | addKey _ _ => cases hc
  | removeKey _ _ => cases hc
  | useKey _ _ _ => cases hc

theorem Collisionless.left {front back : List (Nat × Act)}
    (h : Collisionless crypto (front ++ back)) : Collisionless crypto front := by
  have hweb : ∀ e ∈ webCalls front, e ∈ webCalls (front ++ back) := by
    intro e he
    rw [webCalls_append]
    exact List.mem_append_left _ he
  refine ⟨?_, ?_⟩
  · intro e he token htoken e' he' other hother hhash
    exact h.tokens e (hweb e he) token htoken e' (hweb e' he') other hother hhash
  · intro e he password hpassword e' he'
    exact h.passwords e (List.mem_append_left _ he) password hpassword e'
      (List.mem_append_left _ he')

theorem run_append (users : Bytes → Option User) (keys : Bytes → Option Key)
    (before : List (Nat × Act)) (e : Nat × Act) (after : List (Nat × Act)) :
    run crypto users keys (before ++ e :: after) =
      after.foldl (step crypto) (step crypto (run crypto users keys before) e) := by
  rw [run, List.foldl_append]
  rfl

/-- A removal ends the credentials of the user if the sessions are over. -/
theorem ended_of_over {users : Bytes → Option User} {keys : Bytes → Option Key}
    {before after : List (Nat × Act)} {time : Nat}
    (hacts : acts = before ++ (time, .removeUser username) :: after)
    (htimed : acts.Pairwise (·.1 ≤ ·.1)) (hnow : ∀ e ∈ acts, e.1 ≤ now)
    (hcollision : Collisionless crypto acts)
    (hover : SessionsOver (run crypto users keys before) time username) :
    Ended crypto username before after now (run crypto users keys acts) := by
  have hweb : webCalls acts = webCalls before ++ webCalls after := by
    rw [hacts, webCalls_append]
    rfl
  have hlater : ∀ e ∈ after, time ≤ e.1 := by
    rw [hacts] at htimed
    exact (List.pairwise_cons.mp (List.pairwise_append.mp htimed).2.1).1
  have hkeys : ∀ fp, (∀ e ∈ after, ¬Registers crypto fp username e.2) →
      ∀ key, (run crypto users keys acts).keys fp = some key →
        key.owned crypto username = false := by
    intro fp hnot key hkey
    rw [hacts, run_append] at hkey
    refine keys_after (fun key hkey => ?_) hnot hkey
    have hkept := (Option.filter_eq_some_iff.mp hkey).2
    simpa using hkept
  refine ⟨?_, hkeys, fun blob hnot touch => userHasKey_false (hkeys _ hnot), ?_⟩
  · intro token tls front created back hissued transport
    rw [run_sessions, hweb]
    rw [← hweb] at hissued ⊢
    have hin : (created, Web.Op.create username tls token) ∈ webCalls acts := by
      rw [hissued.events]
      simp
    have hcalls : ∀ e ∈ webCalls after, time ≤ e.1 := fun e he => hlater _ (mem_webCalls he)
    refine sessions_after hweb (timed_webCalls htimed hnow) hcalls ?_ ?_
      (hcollision.tokens _ hin token rfl) hissued transport
    · exact hnow (time, .removeUser username) (by rw [hacts]; simp)
    · intro h row hrow
      rw [← run_sessions users keys] at hrow
      exact hover h row hrow
  · intro e he password hpassword hnew salt
    rw [Bool.eq_false_iff]
    intro hverify
    obtain ⟨user, huser, hcheck⟩ := verify_true hverify
    rw [hacts, run_append] at huser
    have hgone : (step crypto (run crypto users keys before)
        (time, .removeUser username)).users username = none :=
      assign_self _ _ _
    obtain ⟨e', he', other, salt', hadd, rfl⟩ := users_after hgone huser
    obtain ⟨hhash, hne⟩ := checkPassword_hashPassword hcheck
    have hbefore : e ∈ acts := by
      rw [hacts]
      simp [he]
    have hafter : e' ∈ acts := by
      rw [hacts]
      simp [he']
    have hsame : password = other :=
      hcollision.passwords e hbefore password hpassword e' hafter username other salt' hadd hne
        hhash
    rw [← hsame] at hadd
    exact hnew e' he' salt' hadd

/-- A session that is alive where its user is removed still authenticates. -/
theorem over_of_ended {users : Bytes → Option User} {keys : Bytes → Option Key}
    {before : List (Nat × Act)} {time : Nat}
    (htimed : (before ++ [(time, Act.removeUser username)]).Pairwise (·.1 ≤ ·.1))
    (hcollision : Collisionless crypto before)
    (hended : Ended crypto username before [] time
      (run crypto users keys (before ++ [(time, .removeUser username)]))) :
    SessionsOver (run crypto users keys before) time username := by
  intro h row hrow hname
  rw [Bool.eq_false_iff]
  intro hcurrent
  have hpairs := List.pairwise_append.mp htimed
  have hcalls : Web.Timed (webCalls before) time :=
    timed_webCalls hpairs.1 fun e he => hpairs.2.2 e he _ (List.mem_singleton_self _)
  have hsessions : (run crypto users keys (before ++ [(time, .removeUser username)])).sessions =
      (run crypto users keys before).sessions := by
    rw [run_append]
    rfl
  rw [run_sessions] at hrow hsessions
  obtain ⟨front, op, back, htraced⟩ := Web.traced_of_current hcalls hrow hcurrent
  obtain ⟨-, token, hop, hne, hhash⟩ := htraced.creates
  subst hhash
  have hin : (row.createdAt, Web.Op.create row.username row.tls token) ∈ webCalls before := by
    rw [htraced.events, hop]
    simp
  have hissued := htraced.issued hne (hcollision.tokens _ hin token rfl)
  rw [hname] at hissued
  have hnone := hended.sessions token row.tls front row.createdAt back
    (by simpa [webCalls] using hissued) row.tls
  rw [run_sessions, hsessions, run_sessions] at hnone
  rw [(Web.lookupSession_current hne hrow hcurrent).1] at hnone
  cases hnone

/-- In every state a run reaches, each removal has ended the credentials of its user, exactly when
    no session of the user is alive at any removal. -/
theorem removals_end_iff (crypto : Crypto) (users : Bytes → Option User)
    (keys : Bytes → Option Key) (acts : List (Nat × Act)) (htimed : acts.Pairwise (·.1 ≤ ·.1))
    (hcollision : Collisionless crypto acts) :
    (∀ reached rest, acts = reached ++ rest → ∀ now, (∀ e ∈ reached, e.1 ≤ now) →
      RemovalsEnd crypto users keys reached now) ↔
    ∀ before time username after, acts = before ++ (time, .removeUser username) :: after →
      SessionsOver (run crypto users keys before) time username := by
  constructor
  · intro hend before time username after hacts
    have hreached : acts = before ++ [(time, .removeUser username)] ++ after := by
      rw [hacts]
      simp
    rw [hreached] at htimed hcollision
    have hpairs := (List.pairwise_append.mp htimed).1
    have hlast : ∀ e ∈ before ++ [(time, Act.removeUser username)], e.1 ≤ time := by
      intro e he
      cases List.mem_append.mp he with
      | inl he => exact (List.pairwise_append.mp hpairs).2.2 e he _ (List.mem_singleton_self _)
      | inr he => rw [List.mem_singleton.mp he]
    exact over_of_ended hpairs hcollision.left.left
      (hend _ after hreached time hlast before time username [] rfl)
  · intro hover reached rest hacts now hnow before time username after hreached
    rw [hacts] at htimed hcollision
    refine ended_of_over hreached (List.pairwise_append.mp htimed).1 hnow hcollision.left ?_
    exact hover before time username (after ++ rest) (by rw [hacts, hreached]; simp)

/-- Functions that tell short inputs apart. -/
def plainCrypto : Crypto :=
  { scryptHex := fun password salt _ _ _ => password ++ salt
    sha256Hex := id
    parseAuthorizedKey := fun line => .ok line
    fingerprint := id
    sqlLower := lower }

/-- The user is removed while a browser is signed in. -/
def signedIn : List (Nat × Act) :=
  [(0, .addUser (bytes "ann") (bytes "old") []),
   (1, .web (.create (bytes "ann") true (bytes "t"))),
   (2, .removeUser (bytes "ann")),
   (3, .addUser (bytes "ann") (bytes "new") [])]

/-- The session is that of the account with the new password. -/
theorem session_survives_removal :
    ¬RemovalsEnd plainCrypto (fun _ => none) (fun _ => none) signedIn 4 := by
  intro hend
  have hissued : Web.Issued plainCrypto.sha256Hex
      [(1, .create (bytes "ann") true (bytes "t"))] (bytes "t") (bytes "ann") true [] 1 [] :=
    ⟨rfl, by decide +kernel, by simp⟩
  have hnone := (hend [_, _] 2 (bytes "ann") [_] rfl).sessions (bytes "t") true [] 1 [] hissued true
  revert hnone
  decide +kernel

/-- The user is removed after signing out everywhere. -/
def signedOut : List (Nat × Act) :=
  [(0, .addUser (bytes "ann") (bytes "old") []),
   (1, .web (.create (bytes "ann") true (bytes "t"))),
   (1, .web (.revokeAll (bytes "ann"))),
   (2, .removeUser (bytes "ann")),
   (3, .addUser (bytes "ann") (bytes "new") [])]

/-- Her credentials are over. -/
theorem removals_end_signed_out :
    RemovalsEnd plainCrypto (fun _ => none) (fun _ => none) signedOut 4 := by
  have hcollision : Collisionless plainCrypto signedOut := by
    refine ⟨fun _ _ _ _ _ _ _ _ h => h, ?_⟩
    intro _ _ password _ _ _ _ other salt _ _ hhash
    exact List.append_cancel_right hhash
  refine (removals_end_iff plainCrypto (fun _ => none) (fun _ => none) signedOut (by decide)
    hcollision).mpr ?_ signedOut [] (by simp) 4 (by decide)
  intro before time username after hsplit
  -- the one removal comes after the sign-out
  have hbefore : before = signedOut.take 3 ∧ username = bytes "ann" := by
    match before, hsplit with
    | [], h => cases h
    | [_], h => cases h
    | [_, _], h => cases h
    | [_, _, _], h => cases h; exact ⟨rfl, rfl⟩
    | [_, _, _, _], h => cases h
    | _ :: _ :: _ :: _ :: _ :: _, h => simp [signedOut] at h
  obtain ⟨rfl, rfl⟩ := hbefore
  intro h row hrow hname
  have hrow : (Web.run plainCrypto.sha256Hex
      [(1, .create (bytes "ann") true (bytes "t"))]).deleteWhere
        (fun _ row => row.username == bytes "ann") h = some row := hrow
  have hgone := (Web.deleteWhere_some hrow).2
  rw [hname, beq_self_eq_true] at hgone
  cases hgone

end QuackMail.Accounts
