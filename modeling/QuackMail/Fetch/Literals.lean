import Mathlib.Algebra.Ring.Nat
import QuackMail.Net.Reads

/-! # Messages fetched over IMAP

`ImapClient::Command` puts the literals of a response into its line, and `FetchImap` takes for the
message what follows the marker on that line: what the server sends after the literal too, and of
the last line that has the marker.
-/

namespace QuackMail.ImapClient

open Net

/-! ## The client -/

def maxLine : Nat := 65536

/-- `NextTag`. -/
def nextTag (n : Nat) : Bytes :=
  ch 'a' :: (List.replicate (3 - (num n).length) (ch '0') ++ num n)

/-- Where the announcement `{n}` at the very end of a line stands, and the count. -/
def announced (line : Bytes) : Option (Nat × Nat) :=
  if line.getLast? = some (ch '}') then
    match rfindChar (ch '{') line with
    | none => none
    | some brace =>
      let count := (line.drop (brace + 1)).dropLast
      if count = [] ∨ !count.all isDigit then none
      else some (brace, min (digitsFrom 0 count) 0xFFFFFFFFFFFFFFFF)
  else none

/-- The literals of a line: nothing comes of a short one. -/
def splice : Nat → Bytes → ClientStream → ClientStream × Option Bytes
  | 0, line, s => (s, some line)
  | fuel + 1, line, s =>
    match announced line with
    | none => (s, some line)
    | some (brace, n) =>
      let (s, whole, blob) := readN n s
      if !whole then (s, none)
      else
        match readLine maxLine s with
        | (s, none) => (s, some (line.take brace ++ blob))
        | (s, some more) => splice fuel (line.take brace ++ blob ++ more) s

/-- `Command`, from the first response on: does it succeed, and the untagged responses. -/
def command (tag : Bytes) : Nat → List Bytes → ClientStream → ClientStream × Bool × List Bytes
  | 0, untagged, s => (s, false, untagged)
  | fuel + 1, untagged, s =>
    match readLine maxLine s with
    | (s, none) => (s, false, untagged)
    | (s, some line) =>
      match splice fuel line s with
      | (s, none) => (s, false, untagged)
      | (s, some line) =>
        if (tag ++ bytes " ").isPrefixOf line then
          (s, (bytes "OK").isPrefixOf (line.drop (tag.length + 1)), untagged)
        else command tag fuel (untagged ++ [line]) s

/-- What follows the marker on a line. -/
def marked (l : Bytes) : Option Bytes := do
  let pos ← find (bytes "BODY[]") l
  let start ← findCharFrom (ch ' ') l pos
  some (l.drop (start + 1))

/-- The loop of `FetchImap` over the responses. -/
def rawOf (untagged : List Bytes) : Bytes :=
  untagged.foldl (fun raw l => (marked l).getD raw) []

/-- What `on_message` gets of one message; a limit of 0 is none. -/
def fetch (tag : Bytes) (maxBytes : Nat) (s : ClientStream) : ClientStream × Option Bytes :=
  let (s, ok, untagged) := command tag ((rest s).length + 1) [] s
  let raw := rawOf untagged
  (s, if !ok ∨ raw = [] ∨ (0 < maxBytes ∧ maxBytes < raw.length) then none else some raw)

/-! ## The server

A response is a line with literals in it: each text in front of one ends in its announcement. -/

def crlf : Bytes := [ch '\r', ch '\n']

def announcement (n : Nat) : Bytes := ch '{' :: (num n ++ [ch '}'])

/-- The first line of a response. -/
def lineOf (last : Bytes) : List (Bytes × Bytes) → Bytes
  | [] => last
  | (text, literal) :: _ => text ++ announcement literal.length

/-- What follows that line. -/
def moreOf (last : Bytes) : List (Bytes × Bytes) → Bytes
  | [] => []
  | (_, literal) :: parts => literal ++ lineOf last parts ++ crlf ++ moreOf last parts

/-- The response with its literals in place. -/
def joined (last : Bytes) (parts : List (Bytes × Bytes)) : Bytes :=
  parts.flatMap (fun p => p.1 ++ p.2) ++ last

/-- A line of text that the client reads as one. -/
def Text (x : Bytes) : Prop := ch '\n' ∉ x ∧ x.length < maxLine

structure Response where
  parts : List (Bytes × Bytes)
  last : Bytes
  untagged : (joined last parts).head? = some (ch '*')
  texts : ∀ p ∈ parts, Text (p.1 ++ announcement p.2.length) ∧ p.2.length < 2 ^ 64
  ends : Text last

/-- The line of the response, as the client puts it together. -/
def Response.line (r : Response) : Bytes := joined r.last r.parts

def Response.wire (r : Response) : Bytes := lineOf r.last r.parts ++ crlf ++ moreOf r.last r.parts

/-- Once its literals are in place, the line announces none. -/
def Response.Plain (r : Response) : Prop := announced r.line = none

/-- A reply to `UID FETCH`: the message in one response, with other items around it, and other
    responses around that. -/
structure Reply where
  tag : Nat
  body : Bytes
  before : List Response
  /-- The items in front of the message, and those behind it. -/
  items : List (Bytes × Bytes)
  text : Bytes
  later : List (Bytes × Bytes)
  fetched : Response
  parts_eq : fetched.parts = items ++ (text ++ bytes "BODY[] ", body) :: later
  closed : fetched.last.getLast? = some (ch ')')
  after : List Response
  done : Bytes
  done_text : Text (nextTag tag ++ bytes " OK" ++ done)
  done_plain : announced (nextTag tag ++ bytes " OK" ++ done) = none

def Reply.responses (r : Reply) : List Response := r.before ++ r.fetched :: r.after

def Reply.wire (r : Reply) : Bytes :=
  r.responses.flatMap Response.wire ++ (nextTag r.tag ++ bytes " OK" ++ r.done ++ crlf)

/-- What the last of the later responses that repeat the marker has behind it. -/
def Reply.imitated (r : Reply) : Option Bytes :=
  (r.after.filterMap fun x => marked x.line).getLast?

/-- The message is handed on as it is, and the client has read the reply and no more. -/
def Exact (r : Reply) (maxBytes : Nat) (s : ClientStream) (more : Bytes) : Prop :=
  (fetch (nextTag r.tag) maxBytes s).2 = some r.body ∧
    rest (fetch (nextTag r.tag) maxBytes s).1 = more

/-! ## Lines -/

variable {n : Nat} {more : Bytes} {s : ClientStream}

theorem announced_announcement (x : Bytes) (h : n < 2 ^ 64) :
    announced (x ++ announcement n) = some (x.length, n) := by
  have hdigits : ∀ c ∈ num n, isDigit c = true := fun c hc => isDigit_of_mem_num hc
  have hbrace : ch '{' ∉ (num n ++ [ch '}']).reverse := by
    intro hmem
    rw [List.mem_reverse, List.mem_append, List.mem_singleton] at hmem
    cases hmem with
    | inl hmem => exact absurd (hdigits _ hmem) (by decide)
    | inr heq => exact absurd heq (by decide)
  have hfind : rfindChar (ch '{') (x ++ announcement n) = some x.length := by
    have hrev : (x ++ announcement n).reverse =
        (num n ++ [ch '}']).reverse ++ ch '{' :: x.reverse := by
      simp [announcement]
    rw [rfindChar, hrev, findChar_append hbrace]
    simp [announcement]
  have hlast : (x ++ announcement n).getLast? = some (ch '}') := by
    rw [announcement, ← List.cons_append, ← List.append_assoc, List.getLast?_concat]
  have hcount : ((x ++ announcement n).drop (x.length + 1)).dropLast = num n := by
    simp [announcement]
  have hmin : min (digitsFrom 0 (num n)) 0xFFFFFFFFFFFFFFFF = n := by
    rw [digitsFrom_num]
    omega
  have hall : (num n).all isDigit = true := List.all_eq_true.mpr hdigits
  rw [announced, if_pos hlast, hfind]
  simp only [hcount, hmin, hall]
  rw [if_neg (by simp [num_ne_nil])]

/-- A line of text is read as it is. -/
theorem readLine_text {x more : Bytes} {s : ClientStream} (h : Steady s) (hx : Text x)
    (hrest : rest s = x ++ crlf ++ more) :
    ∃ s', readLine maxLine s = (s', some x) ∧ rest s' = more ∧ Steady s' := by
  have hline : FirstLine (rest s) (x ++ [ch '\r']) more := by
    refine ⟨by rw [hrest]; simp [crlf], ?_⟩
    rw [List.mem_append, List.mem_singleton, not_or]
    exact ⟨hx.1, by decide⟩
  obtain ⟨hread, hsteady⟩ := readLine_spec maxLine h
  refine ⟨(readLine maxLine s).1, ?_⟩
  generalize readLine maxLine s = r at hread hsteady
  obtain ⟨s', answer⟩ := r
  cases hread with
  | line first short =>
    obtain ⟨rfl, hmore⟩ := first.unique hline
    exact ⟨by simp [stripCr], hmore, hsteady⟩
  | refused same long =>
    have hlong := long _ _ hline
    have hshort := hx.2
    rw [List.length_append, List.length_singleton] at hlong
    omega

/-! ## Responses -/

/-- The literals are put in place one after the other. -/
theorem splice_parts {last : Bytes} (hends : Text last) :
    ∀ (parts : List (Bytes × Bytes)) (acc more : Bytes) (fuel : Nat) (s : ClientStream),
      (∀ p ∈ parts, Text (p.1 ++ announcement p.2.length) ∧ p.2.length < 2 ^ 64) →
      announced (acc ++ joined last parts) = none → parts.length < fuel → Steady s →
      rest s = moreOf last parts ++ more →
      ∃ s', splice fuel (acc ++ lineOf last parts) s = (s', some (acc ++ joined last parts)) ∧
        rest s' = more ∧ Steady s' := by
  intro parts
  induction parts with
  | nil =>
    intro acc more fuel s _ hplain hfuel hs hrest
    obtain ⟨fuel, rfl⟩ : ∃ f, fuel = f + 1 := ⟨fuel - 1, by simp at hfuel; omega⟩
    refine ⟨s, ?_, hrest, hs⟩
    rw [splice]
    simp only [lineOf]
    rw [show acc ++ joined last [] = acc ++ last from rfl] at hplain ⊢
    rw [hplain]
  | cons p parts ih =>
    obtain ⟨text, literal⟩ := p
    intro acc more fuel s htexts hplain hfuel hs hrest
    obtain ⟨fuel, rfl⟩ : ∃ f, fuel = f + 1 := ⟨fuel - 1, by omega⟩
    have hshort := (htexts _ List.mem_cons_self).2
    have hann := announced_announcement (acc ++ text) hshort
    obtain ⟨hblob, hafter, hs'⟩ := readN_spec literal.length hs
    rw [hrest] at hblob hafter
    simp only [moreOf, List.append_assoc] at hblob hafter
    rw [List.take_left] at hblob
    rw [List.drop_left] at hafter
    have hnext : Text (lineOf last parts) := by
      cases parts with
      | nil => exact hends
      | cons q parts => exact (htexts q (by simp)).1
    obtain ⟨s'', hread, hmore, hs''⟩ := @readLine_text _ (moreOf last parts ++ more) _ hs' hnext
      (by rw [hafter, List.append_assoc])
    have hjoin : acc ++ joined last ((text, literal) :: parts) =
        acc ++ text ++ literal ++ joined last parts := by simp [joined]
    rw [hjoin] at hplain ⊢
    obtain ⟨s3, hdone, hend, hsteady⟩ := ih (acc ++ text ++ literal) more fuel s''
      (fun q hq => htexts q (List.mem_cons_of_mem _ hq)) hplain (by simpa using hfuel) hs'' hmore
    refine ⟨s3, ?_, hend, hsteady⟩
    rw [splice, lineOf, ← List.append_assoc, hann]
    simp only [hblob]
    rw [if_neg (by simp), hread, List.take_left]
    exact hdone

theorem length_moreOf (last : Bytes) (parts : List (Bytes × Bytes)) :
    parts.length ≤ (moreOf last parts).length := by
  induction parts with
  | nil => simp
  | cons p parts ih =>
    simp only [moreOf, crlf, List.length_append, List.length_cons, List.length_nil]
    omega

theorem Response.not_tagged (r : Response) (n : Nat) :
    (nextTag n ++ bytes " ").isPrefixOf r.line = false := by
  rw [Bool.eq_false_iff, ne_eq, List.isPrefixOf_iff_prefix]
  intro hprefix
  have hhead := r.untagged
  obtain ⟨tail, htail⟩ := hprefix
  rw [Response.line] at htail
  rw [← htail, nextTag, List.cons_append, List.cons_append, List.head?_cons] at hhead
  exact absurd hhead (by decide)

/-- A response is read as its line, and no more. -/
theorem command_response {r : Response} (hplain : r.Plain) {fuel : Nat} {untagged : List Bytes}
    (hs : Steady s) (hrest : rest s = r.wire ++ more)
    (hfuel : (rest s).length < fuel) :
    ∃ fuel' s', command (nextTag n) fuel untagged s =
        command (nextTag n) fuel' (untagged ++ [r.line]) s' ∧
      rest s' = more ∧ Steady s' ∧ more.length < fuel' := by
  obtain ⟨fuel, rfl⟩ : ∃ f, fuel = f + 1 := ⟨fuel - 1, by omega⟩
  have hline : Text (lineOf r.last r.parts) := by
    cases hparts : r.parts with
    | nil => exact r.ends
    | cons p parts => exact (r.texts p (by simp [hparts])).1
  have hlen := length_moreOf r.last r.parts
  rw [hrest, Response.wire] at hfuel
  simp only [crlf, List.length_append, List.length_cons, List.length_nil] at hfuel
  obtain ⟨s', hread, hmore, hs'⟩ := readLine_text hs hline (by
    rw [hrest, Response.wire, List.append_assoc])
  obtain ⟨s'', hsplice, hend, hs''⟩ := splice_parts r.ends r.parts [] more fuel s' r.texts hplain
    (by omega) hs' hmore
  refine ⟨fuel, s'', ?_, hend, hs'', by omega⟩
  rw [command, hread]
  simp only [List.nil_append] at hsplice
  simp only [hsplice]
  rw [if_neg (by rw [← Response.line, r.not_tagged]; decide)]
  rfl

theorem command_responses :
    ∀ (rs : List Response) (untagged : List Bytes) (fuel : Nat) (s : ClientStream),
      (∀ r ∈ rs, r.Plain) → Steady s → rest s = rs.flatMap Response.wire ++ more →
      (rest s).length < fuel →
      ∃ fuel' s', command (nextTag n) fuel untagged s =
          command (nextTag n) fuel' (untagged ++ rs.map Response.line) s' ∧
        rest s' = more ∧ Steady s' ∧ more.length < fuel' := by
  intro rs
  induction rs with
  | nil =>
    intro untagged fuel s _ hs hrest hfuel
    refine ⟨fuel, s, by simp, hrest, hs, ?_⟩
    rwa [hrest] at hfuel
  | cons r rs ih =>
    intro untagged fuel s hplain hs hrest hfuel
    rw [List.flatMap_cons, List.append_assoc] at hrest
    obtain ⟨fuel', s', hstep, hmore, hs', hfuel'⟩ :=
      command_response (hplain r List.mem_cons_self) hs hrest hfuel
    obtain ⟨fuel'', s'', hrun, hend⟩ := ih (untagged ++ [r.line]) fuel' s'
      (fun x hx => hplain x (List.mem_cons_of_mem _ hx)) hs' hmore (by rwa [hmore])
    refine ⟨fuel'', s'', ?_, hend⟩
    rw [hstep, hrun, List.map_cons, List.append_assoc, List.singleton_append]

/-- The reply is read to its end. -/
theorem command_reply (r : Reply) (hs : Steady s)
    (hrest : rest s = r.wire ++ more) (hplain : ∀ x ∈ r.responses, x.Plain) :
    ∃ s', command (nextTag r.tag) ((rest s).length + 1) [] s =
      (s', true, r.responses.map Response.line) ∧ rest s' = more := by
  rw [Reply.wire, List.append_assoc] at hrest
  obtain ⟨fuel, s', hrun, hdone, hs', hfuel⟩ := command_responses r.responses []
    ((rest s).length + 1) s hplain hs hrest (Nat.lt_succ_self _)
  obtain ⟨fuel, rfl⟩ : ∃ f, fuel = f + 1 := ⟨fuel - 1, by omega⟩
  obtain ⟨s'', hread, hmore, -⟩ := readLine_text hs' r.done_text hdone
  refine ⟨s'', ?_, hmore⟩
  obtain ⟨fuel, rfl⟩ : ∃ f, fuel = f + 1 := ⟨fuel - 1, by simp [crlf] at hfuel; omega⟩
  have htag : (nextTag r.tag ++ bytes " ").isPrefixOf (nextTag r.tag ++ bytes " OK" ++ r.done) =
      true := by
    rw [List.isPrefixOf_iff_prefix]
    exact ⟨bytes "OK" ++ r.done, by simp [bytes]⟩
  have hok : (nextTag r.tag ++ bytes " OK" ++ r.done).drop ((nextTag r.tag).length + 1) =
      bytes "OK" ++ r.done := by
    rw [List.append_assoc, ← List.drop_drop, List.drop_left]
    rfl
  rw [hrun, command, hread]
  simp only [splice, r.done_plain]
  rw [if_pos htag, hok, List.nil_append, List.isPrefixOf_iff_prefix.mpr ⟨r.done, rfl⟩]

/-! ## The message -/

theorem announced_closed {line : Bytes} (h : line.getLast? = some (ch ')')) :
    announced line = none := by
  rw [announced, h, if_neg (by decide)]

theorem findChar_append_le (c : Byte) (u x : Bytes) :
    ∃ p ≤ u.length, findChar c (u ++ c :: x) = some p := by
  induction u with
  | nil => exact ⟨0, le_refl _, by simp [findChar]⟩
  | cons d u ih =>
    by_cases hd : d = c
    · exact ⟨0, Nat.zero_le _, by simp [findChar, hd]⟩
    · obtain ⟨p, hp, hfind⟩ := ih
      exact ⟨p + 1, by simpa using hp, by simp [findChar, hd, hfind]⟩

/-- The marker is found where the server has it, or before. -/
theorem marked_text (before x : Bytes) :
    ∃ raw, marked (before ++ bytes "BODY[] " ++ x) = some raw ∧ x.length ≤ raw.length := by
  have hsplit : before ++ bytes "BODY[] " ++ x = before ++ bytes "BODY[]" ++ ch ' ' :: x := by
    simp [bytes]
  rw [hsplit]
  obtain ⟨at', hle, hfind⟩ := @exists_find_le (bytes "BODY[]")
    (before ++ bytes "BODY[]" ++ ch ' ' :: x) before.length
    ⟨ch ' ' :: x, by rw [List.append_assoc, List.drop_left]⟩
  have hdrop : (before ++ bytes "BODY[]" ++ ch ' ' :: x).drop at' =
      (before ++ bytes "BODY[]").drop at' ++ ch ' ' :: x :=
    List.drop_append_of_le_length (by rw [List.length_append]; omega)
  obtain ⟨p, hp, hblank⟩ :=
    findChar_append_le (ch ' ') ((before ++ bytes "BODY[]").drop at') x
  have hstart : findCharFrom (ch ' ') (before ++ bytes "BODY[]" ++ ch ' ' :: x) at' =
      some (p + at') := by
    rw [findCharFrom, hdrop, hblank]
    rfl
  refine ⟨_, by rw [marked, hfind, Option.bind_eq_bind, Option.bind_some, hstart,
    Option.bind_some], ?_⟩
  rw [List.length_drop, List.length_append] at hp
  simp only [List.length_drop, List.length_append, List.length_cons]
  omega

/-- The last line that has the marker decides. -/
theorem foldl_marked (ls : List Bytes) (raw : Bytes) :
    ls.foldl (fun raw l => (marked l).getD raw) raw =
      ((ls.filterMap marked).getLast?).getD raw := by
  induction ls generalizing raw with
  | nil => rfl
  | cons l ls ih =>
    rw [List.foldl_cons, ih]
    cases hl : marked l with
    | none => rw [List.filterMap_cons_none hl, Option.getD_none]
    | some x => rw [List.filterMap_cons_some hl, List.getLast?_cons, Option.getD_some, Option.getD_some]

theorem Reply.fetched_line (r : Reply) : ∃ before, r.fetched.line =
    before ++ bytes "BODY[] " ++ (r.body ++ joined r.fetched.last r.later) := by
  refine ⟨r.items.flatMap (fun p => p.1 ++ p.2) ++ r.text, ?_⟩
  simp [Response.line, joined, r.parts_eq]

theorem Reply.fetched_plain (r : Reply) : r.fetched.Plain := by
  apply announced_closed
  rw [Response.line, joined, List.getLast?_append, r.closed, Option.some_or]

/-- What the FETCH response itself gives has more in it than the message. -/
theorem Reply.rawOf_responses (r : Reply) : ∃ raw, raw ≠ r.body ∧
    rawOf (r.responses.map Response.line) = r.imitated.getD raw := by
  obtain ⟨before, hline⟩ := r.fetched_line
  obtain ⟨raw, hmarked, hlen⟩ := marked_text before (r.body ++ joined r.fetched.last r.later)
  refine ⟨raw, ?_, ?_⟩
  · rintro rfl
    have hclosed := r.closed
    simp only [joined, List.length_append] at hlen
    rw [List.length_eq_zero_iff.mp (show r.fetched.last.length = 0 by omega)] at hclosed
    exact nomatch hclosed
  · rw [← hline] at hmarked
    rw [Reply.responses, List.map_append, List.map_cons, rawOf, List.foldl_append,
      List.foldl_cons, hmarked, Option.getD_some, foldl_marked, List.filterMap_map]
    rfl

/-- The message is handed on as it is just where a later response repeats the marker with the
    message behind it. -/
theorem fetched_exact_iff (r : Reply) (maxBytes : Nat) (hs : Steady s)
    (hrest : rest s = r.wire ++ more) (hplain : ∀ x ∈ r.before ++ r.after, x.Plain) :
    Exact r maxBytes s more ↔
      r.imitated = some r.body ∧ r.body ≠ [] ∧ (maxBytes = 0 ∨ r.body.length ≤ maxBytes) := by
  have hall : ∀ x ∈ r.responses, x.Plain := by
    intro x hx
    rw [Reply.responses, List.mem_append, List.mem_cons] at hx
    obtain hx | rfl | hx := hx
    · exact hplain x (List.mem_append_left _ hx)
    · exact r.fetched_plain
    · exact hplain x (List.mem_append_right _ hx)
  obtain ⟨s', hrun, hmore⟩ := command_reply r hs hrest hall
  obtain ⟨raw, hne, hraw⟩ := r.rawOf_responses
  have hout : fetch (nextTag r.tag) maxBytes s = (s',
      if r.imitated.getD raw = [] ∨ (0 < maxBytes ∧ maxBytes < (r.imitated.getD raw).length)
      then none else some (r.imitated.getD raw)) := by
    rw [fetch, hrun]
    simp [hraw]
  rw [Exact, hout]
  cases himitated : r.imitated with
  | none => simp [hne]
  | some y =>
    by_cases hy : y = r.body
    · grind
    · simp [hy]

/-- A response in one line. -/
def said (x : Bytes) (hhead : x.head? = some (ch '*')) (htext : Text x) : Response where
  parts := []
  last := x
  untagged := hhead
  texts := nofun
  ends := htext

/-- The message "hi" as the first one, and what the server says after it. -/
def hiReply (after : List Response) : Reply where
  tag := 1
  body := bytes "hi"
  before := []
  items := []
  text := bytes "* 1 FETCH ("
  later := []
  fetched :=
    { parts := [(bytes "* 1 FETCH (BODY[] ", bytes "hi")]
      last := bytes ")"
      untagged := by decide +kernel
      texts := by unfold Text; decide +kernel
      ends := by unfold Text; decide +kernel }
  parts_eq := by decide +kernel
  closed := by decide +kernel
  after := after
  done := bytes " done"
  done_text := by unfold Text; decide +kernel
  done_plain := by decide +kernel

/-- After the message, the server says the marker again, with the message behind it. -/
def imitating : Reply :=
  hiReply [said (bytes "* OK BODY[] hi") (by decide +kernel) (by unfold Text; decide +kernel)]

theorem fetched_exact_iff_imitating : Exact imitating 0 (connect [imitating.wire]) [] :=
  (fetched_exact_iff imitating 0 (steady_connect (by unfold Received; decide +kernel)) (by simp)
    (by unfold Response.Plain; decide +kernel)).mpr (by decide +kernel)

/-- The parenthesis that closes the response becomes a part of the message. -/
theorem not_exact_hi : ¬Exact (hiReply []) 0 (connect [(hiReply []).wire]) [] := by
  unfold Exact
  decide +kernel

end QuackMail.ImapClient
