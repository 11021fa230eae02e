import Mathlib.Data.List.Basic

/-! # Incremental readers

A reader is fed its input in pieces and gives, on demand, the next event or nothing.  It is
patient when an event it gives is the one it would have given had more input been there
already, and when giving nothing changes none of its later events.  A patient reader's events
depend on the input alone: on no account on the pieces it arrived in.
-/

namespace Incremental

/-- A reader with states `σ`, fed lists of `β`, that gives events `ε`. -/
structure Reader (σ β ε : Type) where
  feed : σ → List β → σ
  next : σ → Option ε × σ
  /-- what is left to give events from. -/
  weight : σ → Nat
  weight_next : ∀ s e, (next s).1 = some e → weight (next s).2 < weight s
  feed_feed : ∀ s a b, feed (feed s a) b = feed s (a ++ b)
  /-- an event given stands, and the input that comes later goes behind it. -/
  next_event : ∀ s c e, (next s).1 = some e → next (feed s c) = (some e, feed (next s).2 c)
  /-- a call that gives nothing loses nothing. -/
  next_nothing : ∀ s c, (next s).1 = none → next (feed s c) = next (feed (next s).2 c)

namespace Reader

variable {σ β ε : Type} (R : Reader σ β ε)

/-- Ask for events until there is none. -/
def drain (s : σ) : List ε × σ :=
  match _h : (R.next s).1 with
  | none => ([], (R.next s).2)
  | some e => (e :: (drain (R.next s).2).1, (drain (R.next s).2).2)
termination_by R.weight s
decreasing_by all_goals exact R.weight_next s e _h

/-- Feed one piece after the other, and ask for every event after each. -/
def run (s : σ) : List (List β) → List ε × σ
  | [] => ([], s)
  | c :: cs =>
    ((R.drain (R.feed s c)).1 ++ (run (R.drain (R.feed s c)).2 cs).1,
      (run (R.drain (R.feed s c)).2 cs).2)

variable {R}

theorem drain_nothing {s : σ} (h : (R.next s).1 = none) : R.drain s = ([], (R.next s).2) := by
  rw [drain]
  split
  · rfl
  · next e he =>
    rw [h] at he
    cases he

theorem drain_event {s s' : σ} {e : ε} (h : R.next s = (some e, s')) :
    R.drain s = (e :: (R.drain s').1, (R.drain s').2) := by
  rw [drain]
  split
  · next hnone =>
    rw [h] at hnone
    cases hnone
  · next e' he =>
    rw [h] at he
    cases he
    rw [h]

/-- Two states whose next call is the same drain alike. -/
theorem drain_congr {s t : σ} (h : R.next s = R.next t) : R.drain s = R.drain t := by
  cases hnext : (R.next t).1 with
  | none => rw [drain_nothing hnext, drain_nothing (by rw [h, hnext]), h]
  | some e =>
    have ht : R.next t = (some e, (R.next t).2) := Prod.ext hnext rfl
    rw [drain_event ht, drain_event (h.trans ht)]

/-- What is fed to a drained reader comes behind the events it has given. -/
theorem drain_feed (s : σ) (c : List β) :
    R.drain (R.feed s c) = ((R.drain s).1 ++ (R.drain (R.feed (R.drain s).2 c)).1,
      (R.drain (R.feed (R.drain s).2 c)).2) := by
  -- along the calls that drain `s`: each event stands, the last call loses nothing
  induction hn : R.weight s using Nat.strongRecOn generalizing s with
  | ind n ih =>
    cases hnext : (R.next s).1 with
    | none =>
      rw [drain_nothing hnext, List.nil_append]
      exact drain_congr (R.next_nothing s c hnext)
    | some e =>
      have hs : R.next s = (some e, (R.next s).2) := Prod.ext hnext rfl
      have hlt := R.weight_next s e hnext
      rw [drain_event hs, drain_event (R.next_event s c e hnext), ih _ (hn ▸ hlt) _ rfl]
      rfl

/-- A reader fed in pieces gives what it gives when fed the whole at once. -/
theorem run_eq_drain (s : σ) (c : List β) (cs : List (List β)) :
    R.run s (c :: cs) = R.drain (R.feed s (c ++ cs.flatten)) := by
  induction cs generalizing s c with
  | nil => simp [run]
  | cons d cs ih =>
    rw [run, ih, List.flatten_cons, ← R.feed_feed s c, drain_feed (R.feed s c)]

/-- The events and the state left depend on the input alone. -/
theorem run_split (s : σ) (c : List β) (cs : List (List β)) :
    R.run s (c :: cs) = R.run s [c ++ cs.flatten] := by
  rw [run_eq_drain, run_eq_drain, List.flatten_nil, List.append_nil]

end Reader

end Incremental
