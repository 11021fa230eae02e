import QuackMail.Web.Session

/-! # How long a session lives

What a run must contain for a token to authenticate after it, and what is enough: the token was
created over the same transport within the absolute cap, was used within the idle window, and
has not been revoked or presented in clear after a creation over TLS.
-/

namespace QuackMail.Web

variable {sha256Hex : Bytes → Bytes}

/-- The calls of a run are made at times that do not decrease, the last at `now` at most. -/
def Timed (events : List (Nat × Op)) (now : Nat) : Prop :=
  events.Pairwise (·.1 ≤ ·.1) ∧ ∀ e ∈ events, e.1 ≤ now

theorem timed_concat {events : List (Nat × Op)} {e : Nat × Op} {now : Nat} :
    Timed (events ++ [e]) now ↔ Timed events e.1 ∧ e.1 ≤ now := by
  unfold Timed
  rw [List.pairwise_append]
  constructor
  · rintro ⟨⟨hpairs, -, hlast⟩, hall⟩
    exact ⟨⟨hpairs, fun a ha => hlast a ha e (by simp)⟩, hall e (by simp)⟩
  · rintro ⟨⟨hpairs, hlast⟩, hnow⟩
    refine ⟨⟨hpairs, by simp, fun a ha b hb => ?_⟩, fun a ha => ?_⟩
    · rw [List.mem_singleton] at hb
      rw [hb]
      exact hlast a ha
    · cases List.mem_append.mp ha with
      | inl ha => exact (hlast a ha).trans hnow
      | inr ha => rw [List.mem_singleton] at ha; rwa [ha]

/-- The call at time `at'` creates a session of this hash, and succeeds. -/
def Creates (sha256Hex : Bytes → Bytes) (before : List (Nat × Op)) (h username : Bytes) (tls : Bool)
    (op : Op) : Prop :=
  run sha256Hex before h = none ∧
    ∃ token, op = .create username tls token ∧ token ≠ [] ∧ sha256Hex token = h

/-- The call after these authenticates a token of this hash over this transport. -/
def Uses (sha256Hex : Bytes → Bytes) (before : List (Nat × Op)) (h : Bytes) (tls : Bool)
    (e : Nat × Op) : Prop :=
  ∃ token, e.2 = .lookup token tls ∧ token ≠ [] ∧ sha256Hex token = h ∧
    authenticates sha256Hex before e.1 token tls = true

/-- A call of `after`, together with the calls before it, that meets the condition. -/
def Within (before after : List (Nat × Op)) (p : List (Nat × Op) → Nat × Op → Prop) : Prop :=
  ∃ front e back, after = front ++ e :: back ∧ p (before ++ front) e

theorem Within.concat {before after : List (Nat × Op)} {p : List (Nat × Op) → Nat × Op → Prop}
    (h : Within before after p) (e : Nat × Op) : Within before (after ++ [e]) p := by
  obtain ⟨front, e', back, rfl, hp⟩ := h
  exact ⟨front, e', back ++ [e], by simp, hp⟩

theorem Within.last {before after : List (Nat × Op)} {p : List (Nat × Op) → Nat × Op → Prop}
    {e : Nat × Op} (h : p (before ++ after) e) : Within before (after ++ [e]) p :=
  ⟨after, e, [], rfl, h⟩

/-- What is known of a row that is current: it was created in the run, nothing has ended it
    since, and it expires within the idle window of its creation or of its last use. -/
structure Traced (sha256Hex : Bytes → Bytes) (events : List (Nat × Op)) (h : Bytes) (row : Row)
    (before : List (Nat × Op)) (op : Op) (after : List (Nat × Op)) : Prop where
  events : events = before ++ (row.createdAt, op) :: after
  creates : Creates sha256Hex before h row.username row.tls op
  ends : ∀ e ∈ after, ¬Revokes sha256Hex h row.username e.2
  inClear : row.tls = true → ∀ e ∈ after, ¬InClear sha256Hex h e.2
  stays : ∀ front e back, after = front ++ e :: back →
    run sha256Hex (before ++ (row.createdAt, op) :: front) h ≠ none
  used : row.expiresAt ≤ row.createdAt + idleSeconds ∨
    Within (before ++ [(row.createdAt, op)]) after fun calls e =>
      Uses sha256Hex calls h row.tls e ∧ row.expiresAt ≤ e.1 + idleSeconds

theorem current_mono {row : Row} {t now : Nat} (h : row.current now = true) (ht : t ≤ now) :
    row.current t = true := by
  simp only [Row.current, Bool.and_eq_true, decide_eq_true_eq] at h ⊢
  exact ⟨⟨h.1.1, by omega⟩, by omega⟩

variable {h username : Bytes} {time : Nat} {t : Table} {tls : Bool}

/-- A row that is current after a call was current when the call was made. -/
theorem Kept.was_current {now : Nat} {op : Op} {row row' : Row}
    (hkept : Kept sha256Hex h time op row row') (hcurrent : row'.current now = true)
    (hnow : time ≤ now) : row.current time = true := by
  simp only [Row.current, Bool.and_eq_true, Bool.not_eq_true', decide_eq_true_eq] at hcurrent
  have hrevoked := hkept.revoked hcurrent.1.1
  cases hkept.expires with
  | inl hexpires =>
    have hcap := hcurrent.2
    have hidle := hcurrent.1.2
    rw [hkept.createdAt] at hcap
    rw [hexpires] at hidle
    have hat : row.current now = true := by
      simp only [Row.current, hrevoked, Bool.not_false, Bool.true_and, Bool.and_eq_true,
        decide_eq_true_eq]
      exact ⟨hidle, hcap⟩
    exact current_mono hat hnow
  | inr huse =>
    obtain ⟨-, -, -, -, hat, -⟩ := huse
    exact hat

theorem traced_of_current {events : List (Nat × Op)} {now : Nat} (htimed : Timed events now)
    {row : Row} (hrow : run sha256Hex events h = some row)
    (hcurrent : row.current now = true) :
    ∃ before op after, Traced sha256Hex events h row before op after := by
  induction events using List.reverseRecOn generalizing row now with
  | nil => cases hrow
  | append_singleton events e ih =>
    obtain ⟨time, op⟩ := e
    rw [run_concat] at hrow
    obtain ⟨htimed, hnow⟩ := timed_concat.mp htimed
    cases step_row hrow with
    | inl hfresh =>
      refine ⟨events, op, [], ?_, ⟨hfresh.free, hfresh.call⟩, by simp, by simp, by simp,
        Or.inl ?_⟩
      · rw [hfresh.createdAt]
      · rw [hfresh.expiresAt, hfresh.createdAt]
    | inr hkept =>
      obtain ⟨old, hold, hkept⟩ := hkept
      have hcurrent' := hcurrent
      simp only [Row.current, Bool.and_eq_true, Bool.not_eq_true', decide_eq_true_eq] at hcurrent'
      have holdcurrent : old.current time = true := hkept.was_current hcurrent hnow
      obtain ⟨before, create, after, htraced⟩ := ih htimed hold holdcurrent
      refine ⟨before, create, after ++ [(time, op)], ?_, ?_, ?_, ?_, ?_, ?_⟩
      · rw [hkept.createdAt, htraced.events]
        simp
      · rw [hkept.username, hkept.tls]
        exact htraced.creates
      · rw [hkept.username]
        intro e he
        cases List.mem_append.mp he with
        | inl he => exact htraced.ends e he
        | inr he => rw [List.mem_singleton.mp he]; exact hkept.ends
      · rw [hkept.tls]
        intro htls e he
        cases List.mem_append.mp he with
        | inl he => exact htraced.inClear htls e he
        | inr he =>
          rw [List.mem_singleton.mp he]
          intro hclear
          have hnot := hkept.inClear hcurrent'.1.1 htls hclear
          rw [holdcurrent] at hnot
          cases hnot
      · rw [hkept.createdAt]
        intro front e back hafter
        cases List.eq_nil_or_concat back with
        | inl hnil =>
          rw [hnil] at hafter
          rw [← (List.append_inj' hafter rfl).1, ← htraced.events, hold]
          simp
        | inr hconcat =>
          obtain ⟨init, last, rfl⟩ := hconcat
          rw [List.concat_eq_append, ← List.cons_append, ← List.append_assoc] at hafter
          exact htraced.stays front e init (List.append_inj' hafter rfl).1
      · rw [hkept.createdAt, hkept.tls]
        cases hkept.expires with
        | inl hexpires =>
          rw [hexpires]
          cases htraced.used with
          | inl hcreated => exact Or.inl hcreated
          | inr hused => exact Or.inr (hused.concat _)
        | inr huse =>
          obtain ⟨token, rfl, hne, hh, hat, hexpires⟩ := huse
          refine Or.inr (Within.last ⟨⟨token, rfl, hne, hh, ?_⟩, ?_⟩)
          · have hall : before ++ [(old.createdAt, create)] ++ after = events := by
              rw [htraced.events]
              simp
            subst hh
            rw [hall, authenticates, (lookupSession_current hne hold holdcurrent).1]
            rfl
          · rw [hexpires]
            exact Nat.min_le_left _ _

/-- A current row that no call ends stays, as long as it is current. -/
theorem run_keeps {row : Row} (hrow : t h = some row)
    {calls : List (Nat × Op)} {now : Nat} (htimes : ∀ e ∈ calls, e.1 ≤ now)
    (hcurrent : row.current now = true)
    (hends : ∀ e ∈ calls, ¬Revokes sha256Hex h row.username e.2)
    (hclear : row.tls = true → ∀ e ∈ calls, ¬InClear sha256Hex h e.2) :
    ∃ row', calls.foldl (step sha256Hex) t h = some row' ∧ row'.username = row.username ∧
      row'.createdAt = row.createdAt ∧ row'.tls = row.tls ∧ row'.current now = true := by
  induction calls generalizing t row with
  | nil => exact ⟨row, hrow, rfl, rfl, rfl, hcurrent⟩
  | cons e calls ih =>
    obtain ⟨mid, hmid, huser, hcreated, htls, hrevoked, hexpires⟩ := step_keeps hrow
      (current_mono hcurrent (htimes _ List.mem_cons_self)) (hends _ List.mem_cons_self)
      (fun h => hclear h _ List.mem_cons_self)
    have hmidcurrent : mid.current now = true := by
      simp only [Row.current, Bool.and_eq_true, decide_eq_true_eq, hrevoked, hcreated] at hcurrent ⊢
      exact ⟨⟨hcurrent.1.1, by omega⟩, hcurrent.2⟩
    obtain ⟨row', hrow', huser', hcreated', htls', hcurrent'⟩ := ih hmid
      (fun e he => htimes e (List.mem_cons_of_mem _ he)) hmidcurrent
      (fun e he => by rw [huser]; exact hends e (List.mem_cons_of_mem _ he))
      (fun h e he => hclear (by rw [← htls]; exact h) e (List.mem_cons_of_mem _ he))
    exact ⟨row', hrow', huser'.trans huser, hcreated'.trans hcreated, htls'.trans htls, hcurrent'⟩

/-! ## In terms of tokens -/

/-- The token a call names. -/
def Op.token? : Op → Option Bytes
  | .create _ _ token => some token
  | .lookup token _ => some token
  | .revoke token => some token
  | _ => none

/-- No other token of the run has the token's hash. -/
def NoCollision (sha256Hex : Bytes → Bytes) (events : List (Nat × Op)) (token : Bytes) : Prop :=
  ∀ e ∈ events, ∀ other, e.2.token? = some other → sha256Hex other = sha256Hex token →
    other = token

/-- The call revokes the token, by itself, by its hash or with all of the user's. -/
def Covers (sha256Hex : Bytes → Bytes) (token username : Bytes) : Op → Prop
  | .revoke other => other = token
  | .revokeHash tokenHash name =>
    tokenHash ≠ [] ∧ tokenHash = sha256Hex token ∧ (name = [] ∨ name = username)
  | .revokeAll name => name = username
  | _ => False

/-- `CreateSession` made the token at this time, and did not make it again. -/
structure Issued (sha256Hex : Bytes → Bytes) (events : List (Nat × Op)) (token username : Bytes)
    (tls : Bool) (before : List (Nat × Op)) (time : Nat) (after : List (Nat × Op)) : Prop where
  events : events = before ++ (time, .create username tls token) :: after
  created : (createSession sha256Hex time username tls token (run sha256Hex before)).2 = true
  last : ∀ front e back name transport, after = front ++ e :: back →
    e.2 = .create name transport token →
      (createSession sha256Hex e.1 name transport token
        (run sha256Hex (before ++ (time, .create username tls token) :: front))).2 = false

/-- Since then it was not revoked, nor presented in clear after a creation over TLS. -/
def Undisturbed (sha256Hex : Bytes → Bytes) (token username : Bytes) (tls : Bool)
    (after : List (Nat × Op)) : Prop :=
  (∀ e ∈ after, ¬Covers sha256Hex token username e.2) ∧
    (tls = true → ∀ e ∈ after, e.2 ≠ .lookup token false)

/-- The call is a lookup of the token over this transport that returns true. -/
def LooksUp (sha256Hex : Bytes → Bytes) (token : Bytes) (tls : Bool) (calls : List (Nat × Op))
    (e : Nat × Op) : Prop :=
  e.2 = .lookup token tls ∧ authenticates sha256Hex calls e.1 token tls = true

/-- It moves the expiry, too. -/
def Moves (sha256Hex : Bytes → Bytes) (token : Bytes) (tls : Bool) (calls : List (Nat × Op))
    (e : Nat × Op) : Prop :=
  LooksUp sha256Hex token tls calls e ∧
    ∀ row, run sha256Hex calls (sha256Hex token) = some row → row.refreshes e.1 = true

theorem createSession_iff {now : Nat} {token : Bytes} :
    (createSession sha256Hex now username tls token t).2 = true ↔
      token ≠ [] ∧ t (sha256Hex token) = none := by
  unfold createSession
  split
  · next h => simp [h]
  · next h =>
    split
    · next hrow => simp [hrow]
    · next hfree => simp [h, hfree]

/-- The creation of a row, as one of its token. -/
theorem Traced.issued {events : List (Nat × Op)} {token : Bytes} {row : Row}
    {before after : List (Nat × Op)} {op : Op}
    (h : Traced sha256Hex events (sha256Hex token) row before op after) (hne : token ≠ [])
    (hcollision : NoCollision sha256Hex events token) :
    Issued sha256Hex events token row.username row.tls before row.createdAt after := by
  obtain ⟨hfree, other, rfl, -, hhash⟩ := h.creates
  have hin : (row.createdAt, Op.create row.username row.tls other) ∈ events := by
    rw [h.events]
    simp
  have hsame : other = token := hcollision _ hin other rfl hhash
  subst hsame
  refine ⟨h.events, createSession_iff.mpr ⟨hne, hfree⟩, ?_⟩
  intro front e back name transport hafter he
  rw [Bool.eq_false_iff]
  intro hcreated
  exact h.stays front e back hafter (createSession_iff.mp hcreated).2

/-- Why a token authenticates. -/
theorem authenticates_only {events : List (Nat × Op)} {now : Nat} (htimed : Timed events now)
    {token : Bytes} (hcollision : NoCollision sha256Hex events token)
    (h : authenticates sha256Hex events now token tls = true) :
    ∃ before time username after, Issued sha256Hex events token username tls before time after ∧
      now < time + maxLifetimeSeconds ∧ Undisturbed sha256Hex token username tls after ∧
      (now < time + idleSeconds ∨
        Within (before ++ [(time, .create username tls token)]) after fun calls e =>
          LooksUp sha256Hex token tls calls e ∧ now < e.1 + idleSeconds) := by
  obtain ⟨user, huser⟩ := Option.isSome_iff_exists.mp h
  obtain ⟨row, hne, hrow, hcurrent, rfl, -⟩ := lookupSession_some huser
  obtain ⟨before, op, after, htraced⟩ := traced_of_current htimed hrow hcurrent
  have hissued := htraced.issued hne hcollision
  have hop : op = .create row.username row.tls token := by
    have hboth := htraced.events.symm.trans hissued.events
    exact (Prod.mk.inj (List.cons.inj (List.append_cancel_left hboth)).1).2
  subst hop
  have hevents := hissued.events
  simp only [Row.current, Bool.and_eq_true, decide_eq_true_eq] at hcurrent
  refine ⟨before, row.createdAt, row.username, after, hissued, hcurrent.2, ⟨?_, ?_⟩, ?_⟩
  · intro e he hcovers
    refine htraced.ends e he ?_
    cases hop : e.2 with
    | revoke o =>
      rw [hop] at hcovers
      exact ⟨by rw [hcovers]; exact hne, by rw [hcovers]⟩
    | revokeHash tokenHash name =>
      rw [hop] at hcovers
      exact hcovers
    | revokeAll name =>
      rw [hop] at hcovers
      exact hcovers
    | create name transport o => rw [hop] at hcovers; exact hcovers
    | lookup o transport => rw [hop] at hcovers; exact hcovers
    | prune => rw [hop] at hcovers; exact hcovers
  · intro htls e he hop
    exact htraced.inClear htls e he ⟨token, hop, hne, rfl⟩
  · cases htraced.used with
    | inl hidle => exact Or.inl (Nat.lt_of_lt_of_le hcurrent.1.2 hidle)
    | inr hused =>
      obtain ⟨front, e, back, hafter, ⟨o, hop, -, ho, hauth⟩, hidle⟩ := hused
      have hin : e ∈ events := by
        rw [hevents, hafter]
        simp
      have hsame : o = token := hcollision e hin o (by rw [hop]; rfl) ho
      subst hsame
      exact Or.inr ⟨front, e, back, hafter, ⟨hop, hauth⟩, Nat.lt_of_lt_of_le hcurrent.1.2 hidle⟩

/-- A row at the hash of a token that is not created again is the one of its creation. -/
theorem run_origin
    (ht : ∀ row, t h = some row → row.username = username ∧ row.tls = tls ∧ row.createdAt = time)
    {calls : List (Nat × Op)}
    (hlast : ∀ front e back name transport other, calls = front ++ e :: back →
      e.2 = .create name transport other → sha256Hex other = h → other ≠ [] →
        front.foldl (step sha256Hex) t h ≠ none) :
    ∀ row, calls.foldl (step sha256Hex) t h = some row →
      row.username = username ∧ row.tls = tls ∧ row.createdAt = time := by
  induction calls using List.reverseRecOn with
  | nil => exact ht
  | append_singleton calls e ih =>
    intro row hrow
    rw [List.foldl_append, List.foldl_cons, List.foldl_nil] at hrow
    have hold := ih fun front e' back name transport other hcalls =>
      hlast front e' (back ++ [e]) name transport other (by rw [hcalls]; simp)
    cases step_row hrow with
    | inl hfresh =>
      obtain ⟨other, hop, hne, hh⟩ := hfresh.call
      exact absurd hfresh.free (hlast calls e [] _ _ other rfl hop hh hne)
    | inr hkept =>
      obtain ⟨old, hrow', hkept⟩ := hkept
      obtain ⟨huser, htls, hcreated⟩ := hold old hrow'
      exact ⟨hkept.username.trans huser, hkept.tls.trans htls, hkept.createdAt.trans hcreated⟩

/-- The token was made once last: two such creations are one. -/
theorem Issued.unique {events : List (Nat × Op)} {token : Bytes} {name name' : Bytes}
    {tls' : Bool} {before before' after after' : List (Nat × Op)} {time' : Nat}
    (h : Issued sha256Hex events token name tls before time after)
    (h' : Issued sha256Hex events token name' tls' before' time' after') :
    before = before' ∧ name = name' ∧ after = after' := by
  -- the creation of `y` is not behind that of `x`
  have hnot {b a b' a' : List (Nat × Op)} {x y : Bytes} {u v : Bool} {t t' : Nat}
      (hx : Issued sha256Hex events token x u b t a)
      (hy : Issued sha256Hex events token y v b' t' a')
      (c : List (Nat × Op)) (e : Nat × Op) : b' ≠ b ++ e :: c := by
    intro hb
    have hsame := hx.events.symm.trans hy.events
    rw [hb, List.append_assoc, List.cons_append] at hsame
    obtain ⟨rfl, hafter⟩ := List.cons.inj (List.append_cancel_left hsame)
    have hfails := hx.last c _ a' y v hafter rfl
    have hmakes := hy.created
    rw [hb] at hmakes
    rw [hmakes] at hfails
    cases hfails
  have hsame := h.events.symm.trans h'.events
  have hbefore : before = before' := by
    cases List.append_eq_append_iff.mp hsame with
    | inl hlonger =>
      obtain ⟨c, hb, hafter⟩ := hlonger
      cases c with
      | nil => rw [hb, List.append_nil]
      | cons e c => exact absurd hb (hnot h h' c e)
    | inr hlonger =>
      obtain ⟨c, hb, hafter⟩ := hlonger
      cases c with
      | nil => rw [hb, List.append_nil]
      | cons e c => exact absurd hb (hnot h' h c e)
  subst hbefore
  have hcons := List.cons.inj (List.append_cancel_left hsame)
  exact ⟨rfl, (Op.create.inj (Prod.mk.inj hcons.1).2).1, hcons.2⟩

/-- A current row that the calls did not create was there, and current, before them. -/
theorem current_before {calls : List (Nat × Op)} {start now : Nat}
    (htimed : Timed calls now) (hstart : ∀ e ∈ calls, start ≤ e.1) (hle : start ≤ now)
    {row : Row} (hrow : calls.foldl (step sha256Hex) t h = some row)
    (hcurrent : row.current now = true)
    (hold : ∀ front e back name transport other, calls = front ++ e :: back →
      e.2 = .create name transport other → sha256Hex other = h → other ≠ [] →
        front.foldl (step sha256Hex) t h ≠ none) :
    ∃ old, t h = some old ∧ old.username = row.username ∧ old.current start = true := by
  induction calls using List.reverseRecOn generalizing row now with
  | nil => exact ⟨row, hrow, rfl, current_mono hcurrent hle⟩
  | append_singleton calls e ih =>
    rw [List.foldl_append, List.foldl_cons, List.foldl_nil] at hrow
    obtain ⟨htimed, hnow⟩ := timed_concat.mp htimed
    cases step_row hrow with
    | inl hfresh =>
      obtain ⟨other, hop, hne, hh⟩ := hfresh.call
      exact absurd hfresh.free (hold calls e [] _ _ other rfl hop hh hne)
    | inr hkept =>
      obtain ⟨mid, hmid, hkept⟩ := hkept
      obtain ⟨old, hold', huser, hat⟩ := ih htimed
        (fun e' he' => hstart e' (List.mem_append_left _ he')) (hstart e (by simp)) hmid
        (hkept.was_current hcurrent hnow)
        (fun front e' back name transport other hcalls =>
          hold front e' (back ++ [e]) name transport other (by rw [hcalls]; simp))
      exact ⟨old, hold', huser.trans hkept.username.symm, hat⟩

/-- A current row that nothing ends authenticates. -/
theorem authenticates_of_row {token : Bytes} {row : Row}
    (hrow : t (sha256Hex token) = some row) {calls : List (Nat × Op)} {now : Nat}
    (htimes : ∀ e ∈ calls, e.1 ≤ now) (hcurrent : row.current now = true) (hne : token ≠ [])
    (hcollision : NoCollision sha256Hex calls token)
    (hcalm : Undisturbed sha256Hex token row.username row.tls calls) :
    (lookupSession sha256Hex now token row.tls
      (calls.foldl (step sha256Hex) t)).2.isSome = true := by
  have hends : ∀ e ∈ calls, ¬Revokes sha256Hex (sha256Hex token) row.username e.2 := by
    intro e he hrevokes
    refine hcalm.1 e he ?_
    cases hop : e.2 with
    | revoke o =>
      rw [hop] at hrevokes
      exact hcollision e he o (by rw [hop]; rfl) hrevokes.2
    | revokeHash tokenHash name => rw [hop] at hrevokes; exact hrevokes
    | revokeAll name => rw [hop] at hrevokes; exact hrevokes
    | create name transport o => rw [hop] at hrevokes; exact hrevokes
    | lookup o transport => rw [hop] at hrevokes; exact hrevokes
    | prune => rw [hop] at hrevokes; exact hrevokes
  have hclear : row.tls = true → ∀ e ∈ calls, ¬InClear sha256Hex (sha256Hex token) e.2 := by
    rintro htls e he ⟨o, hop, -, ho⟩
    have hsame := hcollision e he o (by rw [hop]; rfl) ho
    subst hsame
    exact hcalm.2 htls e he hop
  obtain ⟨row', hrow', -, -, htls', hcurrent'⟩ := run_keeps hrow htimes hcurrent hends hclear
  rw [← htls', (lookupSession_current hne hrow' hcurrent').1]
  rfl

theorem run_append (sha256Hex : Bytes → Bytes) (before : List (Nat × Op)) (e : Nat × Op)
    (after : List (Nat × Op)) : run sha256Hex (before ++ e :: after) =
      after.foldl (step sha256Hex) (run sha256Hex (before ++ [e])) := by
  simp [run]

/-- A row that is current for long enough after one of the calls authenticates after the rest. -/
theorem authenticates_after {before front back : List (Nat × Op)} {e : Nat × Op} {now : Nat}
    {token : Bytes} {row : Row}
    (hrow : run sha256Hex (before ++ [e]) (sha256Hex token) = some row)
    (hevents : front = before ++ e :: back) (htimes : ∀ e' ∈ front, e'.1 ≤ now)
    (hcurrent : row.current now = true) (hne : token ≠ [])
    (hcollision : NoCollision sha256Hex front token)
    (hcalm : Undisturbed sha256Hex token row.username row.tls back) :
    authenticates sha256Hex front now token row.tls = true := by
  have hback : ∀ e' ∈ back, e' ∈ front := by
    intro e' he'
    rw [hevents]
    simp [he']
  rw [authenticates, hevents, run_append]
  exact authenticates_of_row hrow (fun e' he' => htimes e' (hback e' he')) hcurrent hne
    (fun e' he' => hcollision e' (hback e' he')) hcalm

/-- The row a creation leaves. -/
theorem Issued.row {events before after : List (Nat × Op)} {token : Bytes}
    (h : Issued sha256Hex events token username tls before time after) :
    run sha256Hex (before ++ [(time, .create username tls token)]) (sha256Hex token) = some
      { username := username, createdAt := time, lastSeen := time,
        expiresAt := time + idleSeconds, tls := tls, revoked := false } := by
  obtain ⟨hne, hfree⟩ := createSession_iff.mp h.created
  rw [run_concat, step, createSession, if_neg hne, hfree]
  exact Table.set_self _ _ _

/-- What is enough for a token to authenticate. -/
theorem authenticates_if {events : List (Nat × Op)} {now : Nat} (htimed : Timed events now)
    {token : Bytes} (hcollision : NoCollision sha256Hex events token)
    {before after : List (Nat × Op)}
    (hissued : Issued sha256Hex events token username tls before time after)
    (hcap : now < time + maxLifetimeSeconds)
    (hcalm : Undisturbed sha256Hex token username tls after) :
    (now < time + idleSeconds → authenticates sha256Hex events now token tls = true) ∧
    ∀ front e back, after = front ++ e :: back →
      LooksUp sha256Hex token tls (before ++ [(time, .create username tls token)] ++ front) e →
      (∀ row, run sha256Hex (before ++ [(time, .create username tls token)] ++ front)
          (sha256Hex token) = some row → row.createdAt = time → row.current e.1 = true →
            now < if row.refreshes e.1 then row.newExpiry e.1 else row.expiresAt) →
      authenticates sha256Hex events now token tls = true := by
  have hne := (createSession_iff.mp hissued.created).1
  refine ⟨fun hidle => ?_, fun front e back hafter hlook hexpires => ?_⟩
  · refine authenticates_after hissued.row hissued.events htimed.2 ?_ hne hcollision hcalm
    simp [Row.current, hidle, hcap]
  · obtain ⟨hop, hauth⟩ := hlook
    obtain ⟨user, huser⟩ := Option.isSome_iff_exists.mp hauth
    obtain ⟨row, -, hrow, hcurrent, htls, -⟩ := lookupSession_some huser
    -- the row that is looked up is the one of the creation
    have horigin : row.username = username ∧ row.tls = tls ∧ row.createdAt = time := by
      have hcalls := run_append sha256Hex before (time, .create username tls token) front
      rw [List.append_assoc, List.singleton_append, hcalls] at hrow
      refine run_origin (fun r hr => ?_) ?_ row hrow
      · rw [hissued.row, Option.some.injEq] at hr
        rw [← hr]
        exact ⟨rfl, rfl, rfl⟩
      · intro front' e' back' name transport other hfront he' hother hnil
        have hin : e' ∈ events := by
          rw [hissued.events, hafter, hfront]
          simp
        have hsame := hcollision e' hin other (by rw [he']; rfl) hother
        subst hsame
        have hfails := hissued.last front' e' (back' ++ e :: back) name transport
          (by rw [hafter, hfront]; simp) he'
        rw [Bool.eq_false_iff, ne_eq, createSession_iff, run_append] at hfails
        exact fun hnone => hfails ⟨hnil, hnone⟩
    obtain ⟨rfl, rfl, hcreated⟩ := horigin
    obtain ⟨now', op⟩ := e
    subst hop
    have hmoved := (lookupSession_current hne hrow hcurrent).2
    have hafterRow : run sha256Hex (before ++ [(time, .create row.username row.tls token)] ++
        front ++ [(now', .lookup token row.tls)]) (sha256Hex token) = some (row.looked now') := by
      rw [run_concat, step, hmoved, Table.set_self]
    have hlater := hexpires row hrow hcreated hcurrent
    have hcap' : now < row.createdAt + maxLifetimeSeconds := by rw [hcreated]; exact hcap
    have hcurrent' : (row.looked now').current now = true :=
      Row.looked_current hcurrent hlater hcap'
    have hrest : Undisturbed sha256Hex token (row.looked now').username (row.looked now').tls
        back := by
      refine ⟨fun e' he' => hcalm.1 e' ?_, fun htrue e' he' => hcalm.2 htrue e' ?_⟩
      · rw [hafter]; simp [he']
      · rw [hafter]; simp [he']
    have hsplit : events = before ++ [(time, .create row.username row.tls token)] ++ front ++
        (now', .lookup token row.tls) :: back := by
      rw [hissued.events, hafter]
      simp
    have hdone : authenticates sha256Hex events now token (row.looked now').tls = true :=
      authenticates_after hafterRow hsplit htimed.2 hcurrent' hne hcollision hrest
    exact hdone

/-- A token authenticates only if it was created over the same transport less than seven days
    ago, was created or used within the last twelve hours, and has not been revoked, nor
    presented in clear after a creation over TLS; and it does if, besides, it was created, or
    its expiry was moved, less than twelve hours less the slack ago. -/
theorem session_lifetime (events : List (Nat × Op)) (now : Nat) (token : Bytes) (tls : Bool)
    (htimed : Timed events now) (hcollision : NoCollision sha256Hex events token) :
    (authenticates sha256Hex events now token tls = true →
      ∃ before time username after, Issued sha256Hex events token username tls before time after ∧
        now < time + maxLifetimeSeconds ∧ Undisturbed sha256Hex token username tls after ∧
        (now < time + idleSeconds ∨
          Within (before ++ [(time, .create username tls token)]) after fun calls e =>
            LooksUp sha256Hex token tls calls e ∧ now < e.1 + idleSeconds)) ∧
    ∀ before time username after, Issued sha256Hex events token username tls before time after →
      now < time + maxLifetimeSeconds → Undisturbed sha256Hex token username tls after →
      (now + refreshSlackSeconds < time + idleSeconds ∨
        Within (before ++ [(time, .create username tls token)]) after fun calls e =>
          Moves sha256Hex token tls calls e ∧ now + refreshSlackSeconds < e.1 + idleSeconds) →
      authenticates sha256Hex events now token tls = true := by
  refine ⟨authenticates_only htimed hcollision, ?_⟩
  intro before time username after hissued hcap hcalm hrecent
  obtain ⟨hcreated, hmoved⟩ := authenticates_if htimed hcollision hissued hcap hcalm
  cases hrecent with
  | inl hidle => exact hcreated (by omega)
  | inr hwithin =>
    obtain ⟨front, e, back, hafter, ⟨hlook, hrefresh⟩, hidle⟩ := hwithin
    refine hmoved front e back hafter hlook fun row hrow hat _ => ?_
    rw [if_pos (hrefresh row hrow), Row.newExpiry, hat]
    omega

/-- A session created over TLS and used eleven hours later. -/
def usedOnce : List (Nat × Op) :=
  [(0, .create (bytes "u") true (bytes "t")), (39600, .lookup (bytes "t") true)]

/-- It authenticates another eleven hours after that. -/
theorem session_lifetime_used : authenticates id usedOnce 79200 (bytes "t") true = true := by
  have htimed : Timed usedOnce 79200 := ⟨by decide, by decide⟩
  have hissued : Issued id usedOnce (bytes "t") (bytes "u") true [] 0
      [(39600, .lookup (bytes "t") true)] := by
    refine ⟨rfl, by decide +kernel, ?_⟩
    intro front e back name transport hafter he
    have hmem : e ∈ [(39600, Op.lookup (bytes "t") true)] := by
      rw [hafter]
      simp
    rw [List.mem_singleton.mp hmem] at he
    cases he
  have hmoves : Moves id (bytes "t") true [(0, .create (bytes "u") true (bytes "t"))]
      (39600, .lookup (bytes "t") true) := by
    refine ⟨⟨rfl, by decide +kernel⟩, fun row hrow => ?_⟩
    have hat : run id [(0, .create (bytes "u") true (bytes "t"))] (id (bytes "t")) = some
        { username := bytes "u", createdAt := 0, lastSeen := 0, expiresAt := 43200, tls := true,
          revoked := false } := by decide +kernel
    rw [hat, Option.some.injEq] at hrow
    rw [← hrow]
    decide
  exact (session_lifetime usedOnce 79200 (bytes "t") true htimed (fun _ _ _ _ h => h)).2
    [] 0 (bytes "u") _ hissued (by decide) ⟨by simp [Covers], by simp⟩
    (Or.inr ⟨[], _, [], rfl, hmoves, by decide⟩)

end QuackMail.Web
