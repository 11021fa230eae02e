import QuackMail.Imap.Literal
import QuackMail.Imap.Session

/-! # APPEND

The command with its literal on the stream.  The literal is taken octet for octet exactly
where every line feed in it closes a CRLF and no line is longer than a command line may be.
-/

namespace QuackMail.Imap

open Citadel Net

/-- APPEND: the literal is read only when the mailbox exists and the quota has room. -/
def handleAppend (o : Outside) (args : Bytes) (s : ClientStream) (c : Conn) : ClientStream × Conn :=
  let a := appendArgs args
  match o.resolve a.mailbox with
  | none => (s, c)
  | some droom =>
    if wouldExceed c.server.store c.session.user a.count then (s, c)
    else
      match readLiteral a.count s with
      | (s', none) => (s', { c with live := false })
      | (s', some raw) => (s', appendStored o a droom raw c)

/-- The literal is asked for. -/
structure Accepted (o : Outside) (args : Bytes) (c : Conn) (droom : Nat) : Prop where
  resolves : o.resolve (appendArgs args).mailbox = some droom
  within : wouldExceed c.server.store c.session.user (appendArgs args).count = false

/-! ## Reading -/

theorem readLiteral_neg {count : Int} (h : count < 0) (s : ClientStream) :
    readLiteral count s = (s, none) := by
  rw [readLiteral, literalLoop, if_neg (by simp; omega)]
  simp only [List.length_nil]
  rw [if_pos (by omega), if_pos h]

theorem readLiteral_spec {count : Int} {s : ClientStream} (hsteady : Steady s) (h : 0 ≤ count) :
    ∃ bodies s', readLiteral count s =
        (s', some (((bodies.map restored).flatten).take count.toNat)) ∧
      Assembles count s' [] s bodies := by
  obtain ⟨bodies, hruns, hraw⟩ := @literalLoop_assembles count (count.toNat + 1) [] s
    hsteady (by simp only [List.length_nil]; omega)
  refine ⟨bodies, (literalLoop count (count.toNat + 1) [] s).1, ?_, hruns⟩
  rw [List.nil_append] at hraw
  rw [readLiteral]
  simp only [hraw]
  split
  · rw [if_neg (by omega)]
  · rw [List.take_of_length_le (by omega)]

theorem appendStored_live (o : Outside) (a : AppendArgs) (droom : Nat) (raw : Bytes) (c : Conn) :
    (appendStored o a droom raw c).live = c.live := by
  unfold appendStored
  simp only
  split
  · rfl
  · split <;> rfl

theorem addFlags_store (msgnum : Nat) (user : Bytes) (flags : List Bytes) (v : Server) :
    (flags.foldl (fun v flag => addFlag v msgnum user flag) v).store = v.store := by
  induction flags generalizing v with
  | nil => rfl
  | cons flag flags ih =>
    rw [List.foldl_cons, ih, addFlag]
    split <;> rfl

theorem appendStored_store (o : Outside) (a : AppendArgs) (droom : Nat) (raw : Bytes) (c : Conn) :
    (appendStored o a droom raw c).server.store =
      (insertMessage o.world c.server.store
        (appendMessage o c.server c.session.user a.mailbox raw) [droom]).1 := by
  unfold appendStored
  simp only
  split
  · rfl
  · split <;> exact addFlags_store _ _ _ _

/-- What is stored has the octets of the literal. -/
theorem appendStored_raw {o : Outside} {a : AppendArgs} {droom : Nat} {raw : Bytes} {c : Conn}
    {E : Nat → Message} (hok : Ok E c.server.store) {msgnum : Nat}
    (h : (insertMessage o.world c.server.store
      (appendMessage o c.server c.session.user a.mailbox raw) [droom]).2 = .ok msgnum) :
    (loadMessage (appendStored o a droom raw c).server.store msgnum).map Message.raw = some raw := by
  have hcall : insertMessage o.world c.server.store
      (appendMessage o c.server c.session.user a.mailbox raw) [droom] =
      ((appendStored o a droom raw c).server.store, .ok msgnum) := by
    rw [appendStored_store, ← h]
  obtain ⟨rfl, -, hmembers, -, E', -, hnew, hok'⟩ := Wiki.insertMessage_ok hok hcall
  have hmem : c.server.store.seq ∈ (view (appendStored o a droom raw c).server.store droom).members :=
    hmembers ▸ Set.mem_insert _ _
  rw [Wiki.loadMessage_member hok' hmem, Option.map_some, hnew]
  rfl

/-! ## Exactly the literal -/

/-- The session goes on with `more`, behind at most an empty line, which is skipped. -/
def Behind (s : ClientStream) (more : Bytes) : Prop :=
  rest s = more ∨ ∃ s', readLine maxLine s = (s', some []) ∧ rest s' = more

/-- The literal is stored octet for octet and the session goes on behind it, in every
    segmentation. -/
def ConsumesExactly (literal : Bytes) : Prop :=
  ∀ (o : Outside) (args : Bytes) (c : Conn) (droom : Nat) (s : ClientStream) (more : Bytes)
    (E : Nat → Message), (appendArgs args).count = literal.length → Accepted o args c droom →
    Ok E c.server.store → Steady s → rest s = literal ++ crlf ++ more →
    (∀ msgnum, (insertMessage o.world c.server.store
        (appendMessage o c.server c.session.user (appendArgs args).mailbox literal) [droom]).2 =
          .ok msgnum →
      (loadMessage (handleAppend o args s c).2.server.store msgnum).map Message.raw =
        some literal) ∧
    Behind (handleAppend o args s c).1 more

/-- Every line feed closes a CRLF, and no line is too long. -/
def Plain (literal : Bytes) : Prop :=
  ∀ body ∈ linesOf (literal ++ crlf), body.getLast? = some (ch '\r') ∧ body.length ≤ maxLine

theorem restored_of_cr {body : Bytes} (h : body.getLast? = some (ch '\r')) :
    restored body = body ++ [ch '\n'] := by
  obtain ⟨front, rfl⟩ : ∃ front, body = front ++ [ch '\r'] :=
    ⟨body.dropLast, (List.dropLast_append_getLast? _ h).symm⟩
  rw [restored, stripCr, if_pos h]
  simp [crlf, bytes]

theorem restored_octets {bodies : List Bytes}
    (h : ∀ body ∈ bodies, body.getLast? = some (ch '\r')) :
    (bodies.map restored).flatten = octets bodies := by
  induction bodies with
  | nil => rfl
  | cons body bodies ih =>
    rw [List.map_cons, List.flatten_cons, restored_of_cr (h body List.mem_cons_self),
      ih fun b hb => h b (List.mem_cons_of_mem _ hb), octets_cons, List.append_assoc]
    rfl

section Sufficient

variable {literal more : Bytes} {s s' : ClientStream} {bodies : List Bytes}

/-- A plain literal is what the loop puts together. -/
theorem assembles_plain (hplain : Plain literal) (hsteady' : Steady s')
    (hrest : rest s = literal ++ crlf ++ more)
    (h : Assembles literal.length s' [] s bodies) :
    ((bodies.map restored).flatten).take literal.length = literal ∧ Behind s' more := by
  have hclosed := octets_linesOf_closed literal
  have htotal : (octets (linesOf (literal ++ crlf))).length = literal.length + 2 := by
    rw [hclosed, List.length_append]
    rfl
  have hclean : ∀ body ∈ linesOf (literal ++ crlf), ch '\n' ∉ body :=
    fun body hbody => clean_of_mem_linesOf hbody
  rw [← hclosed] at hrest
  have hlines := h.linesOf_eq
  have hoctets := h.rest_eq
  rw [hrest, linesOf_octets hclean] at hlines
  rw [hrest] at hoctets
  have hplain' : ∀ front back, linesOf (literal ++ crlf) = front ++ back →
      (front.map restored).flatten = octets front := by
    intro front back hsplit
    refine restored_octets fun body hbody => (hplain body ?_).1
    rw [hsplit]
    exact List.mem_append_left _ hbody
  rcases List.append_eq_append_iff.mp hlines with ⟨x, hx, -⟩ | ⟨x, hx, hx'⟩
  · -- all lines of the literal are read: there is no more to read
    have hall : x = [] := by
      cases x with
      | nil => rfl
      | cons body back =>
        have hshort := h.short _ _ _ hx
        rw [List.nil_append, hplain' _ [] (List.append_nil _).symm, htotal] at hshort
        omega
    subst hall
    rw [List.append_nil] at hx
    subst hx
    rw [hplain' _ [] (List.append_nil _).symm, hclosed, List.take_left' rfl]
    exact ⟨rfl, .inl (List.append_cancel_left hoctets).symm⟩
  · -- the lines read are the front of the literal, and the rest is its line ending at most
    rw [hplain' _ _ hx]
    have hrest' : rest s' = octets x ++ more := by
      rw [hx, octets_append, List.append_assoc] at hoctets
      exact (List.append_cancel_left hoctets).symm
    have hsum : (octets bodies).length + (octets x).length = literal.length + 2 := by
      rw [← htotal, hx, octets_append, List.length_append]
    cases x with
    | nil =>
      have hbodies : octets bodies = literal ++ crlf := by
        rw [← hclosed, hx, List.append_nil]
      rw [hbodies, List.take_left' rfl]
      exact ⟨rfl, .inl hrest'⟩
    | cons body back =>
      have hbody := hplain body (by rw [hx]; simp)
      have hfirst : FirstLine (rest s') body (octets back ++ more) := by
        refine ⟨?_, hclean body (by rw [hx]; simp)⟩
        rw [hrest', octets_cons, List.append_assoc]
        rfl
      obtain ⟨front, rfl⟩ : ∃ front, body = front ++ [ch '\r'] :=
        ⟨body.dropLast, (List.dropLast_append_getLast? _ hbody.1).symm⟩
      have hfull : literal.length ≤ (octets bodies).length := by
        rcases h.ends with hfull | hlong
        · rw [List.nil_append, hplain' _ _ hx] at hfull
          exact_mod_cast hfull
        · have := hlong _ _ hfirst
          omega
      have hlen : (octets ((front ++ [ch '\r']) :: back)).length =
          front.length + 2 + (octets back).length := by
        rw [octets_cons]
        simp only [List.length_append, List.length_cons, List.length_nil]
        omega
      obtain rfl : front = [] := List.eq_nil_of_length_eq_zero (by omega)
      have hback : octets back = [] := List.eq_nil_of_length_eq_zero (by
        omega)
      have hliteral : octets bodies = literal := by
        have hsplit : octets bodies ++ crlf = literal ++ crlf := by
          rw [← hclosed, hx, octets_append, octets_cons, hback]
          rfl
        exact List.append_cancel_right hsplit
      rw [hliteral, List.take_length]
      refine ⟨rfl, .inr ?_⟩
      obtain ⟨hread, -⟩ := readLine_spec maxLine hsteady'
      cases hcall : readLine maxLine s' with
      | mk s₁ answer =>
        rw [hcall] at hread
        cases hread with
        | refused _ hlong =>
          have := hlong _ _ hfirst
          omega
        | line hfirst' _ =>
          obtain ⟨rfl, hmore⟩ := hfirst'.unique hfirst
          refine ⟨s₁, by simp [stripCr], ?_⟩
          rw [hmore, hback, List.nil_append]

end Sufficient

section Necessary

/-- The first of the members that fail `p`. -/
theorem exists_first {α : Type*} {p : α → Prop} {xs : List α} (h : ¬∀ x ∈ xs, p x) :
    ∃ front x back, xs = front ++ x :: back ∧ (∀ y ∈ front, p y) ∧ ¬p x := by
  induction xs with
  | nil => simp at h
  | cons x xs ih =>
    by_cases hx : p x
    · have hxs : ¬∀ y ∈ xs, p y := by
        intro hall
        refine h fun y hy => ?_
        rcases List.mem_cons.mp hy with rfl | hy
        · exact hx
        · exact hall y hy
      obtain ⟨front, y, back, rfl, hfront, hy⟩ := ih hxs
      refine ⟨x :: front, y, back, rfl, ?_, hy⟩
      intro z hz
      rcases List.mem_cons.mp hz with rfl | hz
      · exact hx
      · exact hfront z hz
    · exact ⟨[], x, xs, rfl, by simp, hx⟩

/-- The last line of a closed text ends in a carriage return. -/
theorem last_line_cr {literal body : Bytes} {front : List Bytes}
    (h : linesOf (literal ++ crlf) = front ++ [body]) : body.getLast? = some (ch '\r') := by
  have hclosed := octets_linesOf_closed literal
  rw [h, octets_append, octets_cons, octets_nil] at hclosed
  have hcr : (octets front ++ body) ++ [ch '\n'] = (literal ++ [ch '\r']) ++ [ch '\n'] := by
    simpa [crlf, bytes] using hclosed
  have hline := List.append_cancel_right hcr
  have hlast : (octets front ++ body).getLast? = some (ch '\r') := by
    rw [hline, List.getLast?_concat]
  rcases List.eq_nil_or_concat body with rfl | ⟨u, c, rfl⟩
  · rw [List.append_nil] at hlast
    rcases List.eq_nil_or_concat front with rfl | ⟨bodies, b, rfl⟩
    · simp at hlast
    · rw [List.concat_eq_append, octets_append, octets_cons, octets_nil] at hlast
      have hlf : (octets bodies ++ (b ++ [ch '\n'])).getLast? = some (ch '\n') := by
        rw [← List.append_assoc, List.getLast?_concat]
      simp [ch] at hlast
  · rw [List.concat_eq_append] at hlast ⊢
    rw [← List.append_assoc, List.getLast?_concat] at hlast
    rw [List.getLast?_concat, hlast]

/-- From single octets a literal that is not plain is not put together. -/
theorem assembles_not_plain {literal : Bytes} {s s' : ClientStream} {bodies : List Bytes}
    (hsingles : Singles s) (hrest : rest s = literal ++ crlf) (hplain : ¬Plain literal)
    (h : Assembles literal.length s' [] s bodies) :
    ((bodies.map restored).flatten).take literal.length ≠ literal := by
  obtain ⟨good, bad, back, hlines, hgood, hbad⟩ := exists_first hplain
  have hclosed := octets_linesOf_closed literal
  have hread := h.linesOf_eq
  rw [hrest, hlines] at hread
  have hlead : bodies <+: good ++ bad :: back := ⟨_, hread.symm⟩
  have hgood' : (good.map restored).flatten = octets good :=
    restored_octets fun b hb => (hgood b hb).1
  have htotal : (octets good).length + bad.length + 1 + (octets back).length =
      literal.length + 2 := by
    have := congrArg List.length hclosed
    rw [hlines, octets_append, octets_cons] at this
    simp only [List.length_append, List.length_cons, crlf, bytes, List.length_map] at this
    rw [show "\r\n".toList.length = 2 from rfl] at this
    omega
  -- a bad line within the limit is not the last one, and two octets follow it
  have hinner : bad.length ≤ maxLine →
      bad.getLast? ≠ some (ch '\r') ∧ (octets good).length + bad.length < literal.length := by
    intro hshort
    have hcr : bad.getLast? ≠ some (ch '\r') := fun hcr => hbad ⟨hcr, hshort⟩
    refine ⟨hcr, ?_⟩
    rcases List.eq_nil_or_concat back with rfl | ⟨front, last, rfl⟩
    · exact absurd (last_line_cr hlines) hcr
    · rw [List.concat_eq_append] at hlines htotal
      have hlast := @last_line_cr _ last (good ++ bad :: front)
        (by rw [hlines]; simp)
      have hne : 0 < last.length := by
        rw [List.length_pos_iff]
        rintro rfl
        simp at hlast
      rw [octets_append, octets_cons, octets_nil] at htotal
      simp only [List.length_append, List.length_cons, List.length_nil] at htotal
      omega
  intro heq
  by_cases hmem : good ++ [bad] <+: bodies
  · -- the bad line is read: its bare line feed has become a CRLF
    obtain ⟨more, rfl⟩ := hmem
    obtain ⟨hcr, hlt⟩ := hinner (h.singles hsingles bad (by simp))
    have hbare : restored bad = bad ++ crlf := by
      rw [restored, stripCr, if_neg hcr]
    have hput : octets good ++ bad ++ [ch '\r'] <+: literal := by
      rw [← heq, List.prefix_take_iff]
      refine ⟨⟨[ch '\n'] ++ (more.map restored).flatten, ?_⟩, ?_⟩
      · simp [hgood', hbare, crlf, bytes]
      · simp only [List.length_append, List.length_singleton]
        omega
    have hwas : octets good ++ bad ++ [ch '\n'] <+: literal := by
      refine @List.prefix_of_prefix_length_le _ _ _ (literal ++ crlf) ⟨octets back, ?_⟩
        (List.prefix_append _ _) ?_
      · rw [← hclosed, hlines, octets_append, octets_cons]
        simp
      · simp only [List.length_append, List.length_singleton]
        omega
    obtain ⟨u, hu⟩ := hput
    obtain ⟨v, hv⟩ := hwas
    rw [← hu] at hv
    have := (List.append_inj hv (by simp)).1
    simp [ch] at this
  · -- the loop has stopped before the bad line, short of the literal
    have hfront : bodies <+: good := by
      have hwhole : good ++ [bad] <+: good ++ bad :: back := ⟨back, by simp⟩
      have hnot : ¬(good ++ [bad]).length ≤ bodies.length := fun hle =>
        hmem (List.prefix_of_prefix_length_le hwhole hlead hle)
      refine List.prefix_of_prefix_length_le hlead (List.prefix_append _ _) ?_
      simp only [List.length_append, List.length_singleton] at hnot
      omega
    obtain ⟨unread, hsplit⟩ := hfront
    have hlen : ((bodies.map restored).flatten).length ≤ (octets good).length := by
      rw [← hgood', ← hsplit, List.map_append, List.flatten_append, List.length_append]
      omega
    have hlt : (octets good).length < literal.length := by
      by_cases hshort : bad.length ≤ maxLine
      · omega
      · have hmax : maxLine = 65536 := rfl
        omega
    have := congrArg List.length heq
    rw [List.length_take] at this
    omega

end Necessary

/-! ## The count -/

/-- Not more than the count is taken, or the literal and the line ending behind it. -/
def WithinLiteral (count : Int) (taken : Bytes) : Prop :=
  (taken.length : Int) ≤ count ∨
    ∃ literal : Bytes, (literal.length : Int) = count ∧ taken = literal ++ crlf

/-- The command ends without an exception and takes not more than its literal, in every
    segmentation. -/
def EndsWithin (args stream : Bytes) : Prop :=
  ∀ (o : Outside) (c : Conn) (droom : Nat) (s : ClientStream), Accepted o args c droom →
    c.live = true → Steady s → rest s = stream →
    (handleAppend o args s c).2.live = true ∧
      ∃ taken, stream = taken ++ rest (handleAppend o args s c).1 ∧
        WithinLiteral (appendArgs args).count taken

/-- The count is not negative, and the line in which it is used up ends with it or with the
    line ending behind it. -/
def CountFits (count : Int) (stream : Bytes) : Prop :=
  0 ≤ count ∧ ∀ front body back, linesOf stream = front ++ body :: back →
    (∀ b ∈ front ++ [body], b.length < maxLine + chunkSize) →
    (((front.map restored).flatten).length : Int) < count →
    WithinLiteral count (octets (front ++ [body]))

theorem octets_length_le (bodies : List Bytes) :
    (octets bodies).length ≤ ((bodies.map restored).flatten).length := by
  induction bodies with
  | nil => exact Nat.le_refl _
  | cons body bodies ih =>
    have hbody : body.length + 1 ≤ (restored body).length := by
      rw [restored, stripCr, List.length_append]
      have hcrlf : crlf.length = 2 := rfl
      split
      · rw [List.length_dropLast]
        omega
      · omega
    rw [octets_cons, List.map_cons, List.flatten_cons, List.length_append, List.length_append,
      List.length_cons]
    omega

/-- An empty server. -/
def freshConn : Conn := ⟨⟨fresh [] [] [] [] [], []⟩, ⟨[], false, false, 0, []⟩, [], true⟩

/-- Every name is a mailbox and no statement fails. -/
def acceptAll : Outside := ⟨⟨0, [], [], fun _ => none, fun _ _ => []⟩, fun _ => some 0, fun _ => []⟩

theorem accepted_fresh (args : Bytes) : Accepted acceptAll args freshConn 0 := ⟨rfl, rfl⟩

theorem insert_fresh (msg : Message) :
    (insertMessage acceptAll.world freshConn.server.store msg [0]).2 = .ok 1 := by
  have hquota : quotaRefusal freshConn.server.store [0] = none := by decide
  rfl

theorem handleAppend_accepted {o : Outside} {args : Bytes} {c : Conn} {droom : Nat}
    (h : Accepted o args c droom) (s : ClientStream) :
    handleAppend o args s c =
      match readLiteral (appendArgs args).count s with
      | (s', none) => (s', { c with live := false })
      | (s', some raw) => (s', appendStored o (appendArgs args) droom raw c) := by
  rw [handleAppend, h.resolves]
  simp only [h.within, Bool.false_eq_true, if_false]

theorem received_singles (stream : Bytes) : Received (stream.map (fun c => [c])) := by
  intro chunk hchunk
  obtain ⟨c, -, rfl⟩ := List.mem_map.mp hchunk
  exact ⟨by simp, by simp [chunkSize]⟩

theorem singles_connect (stream : Bytes) : Singles (connect (stream.map (fun c => [c]))) :=
  ⟨rfl, by rw [rest_connect, flatten_singles]; rfl⟩

theorem literalCount_num {n : Nat} (h : n ≤ 0x7fffffffffffffff) :
    (appendArgs (bytes "x \x7b" ++ num n ++ bytes "\x7d")).count = n := by
  have hdigits : ∀ c ∈ num n, isDigit c = true := fun c hc => isDigit_of_mem_num hc
  have hword : splitWord (bytes "x \x7b" ++ num n ++ bytes "\x7d") =
      (bytes "x", ch '{' :: (num n ++ bytes "\x7d")) := rfl
  have hbrace : ∀ c ∈ (num n ++ bytes "\x7d").reverse, (c != ch '{') = true := by
    intro c hc
    rw [List.mem_reverse, List.mem_append] at hc
    rcases hc with hc | hc
    · have hdigit := hdigits c hc
      rw [bne_iff_ne]
      rintro rfl
      exact absurd hdigit (by decide)
    · obtain rfl : c = ch '}' := by simpa [bytes] using hc
      decide
  rw [appendArgs, hword]
  rw [literalCount, if_pos List.mem_cons_self, List.reverse_cons, List.takeWhile_append_of_pos hbrace,
    List.takeWhile_cons_of_neg (by simp), List.append_nil, List.reverse_reverse]
  exact strtoll_num_append h (by simp [bytes]; decide)

theorem consumesExactly_iff {literal : Bytes} (hlen : literal.length ≤ 0x7fffffffffffffff) :
    ConsumesExactly literal ↔ Plain literal := by
  constructor
  · intro h
    by_contra hplain
    obtain ⟨E, hok⟩ := ok_run [] [] [] [] [] []
    have hcount := literalCount_num hlen
    have hsingles := singles_connect (literal ++ crlf)
    have hrest : rest (connect ((literal ++ crlf).map (fun c => [c]))) = literal ++ crlf := by
      rw [rest_connect, flatten_singles]
    obtain ⟨hstored, -⟩ := h acceptAll (bytes "x \x7b" ++ num literal.length ++ bytes "\x7d") freshConn 0
      (connect ((literal ++ crlf).map (fun c => [c]))) [] E hcount (accepted_fresh _) hok
      (steady_connect (received_singles _)) (by rw [hrest, List.append_nil])
    have hraw := hstored 1 (insert_fresh _)
    obtain ⟨bodies, s', hread, hruns⟩ := @readLiteral_spec literal.length _
      (steady_connect (received_singles (literal ++ crlf))) (by omega)
    rw [handleAppend_accepted (accepted_fresh _), hcount, hread] at hraw
    rw [appendStored_raw hok (insert_fresh _), Option.some.injEq] at hraw
    exact assembles_not_plain hsingles hrest hplain hruns hraw
  · intro hplain o args c droom s more E hcount haccepted hok hsteady hrest
    obtain ⟨bodies, s', hread, hruns⟩ := @readLiteral_spec literal.length _ hsteady (by omega)
    have hsteady' : Steady s' := by
      have := @literalLoop_steady literal.length ((literal.length : Int).toNat + 1) [] s hsteady
      rw [readLiteral] at hread
      simp only [Prod.mk.injEq] at hread
      rwa [hread.1] at this
    obtain ⟨hraw, hbehind⟩ := assembles_plain hplain hsteady' hrest hruns
    rw [handleAppend_accepted haccepted, hcount, hread]
    simp only [Int.toNat_natCast, hraw]
    exact ⟨fun msgnum hinsert => appendStored_raw hok hinsert, hbehind⟩

/-- From its pieces the loop reads at least the lines before the count is used up. -/
theorem pieces_read {count : Int} {s s' : ClientStream} {front bodies : List Bytes} {body : Bytes}
    {tail : List Bytes} (h : Assembles count s' [] s bodies) (hempty : unread s = [])
    (hpending : s.pending = ((front ++ [body]).map pieces).flatten ++ tail)
    (hbodies : ∀ b ∈ front ++ [body], ch '\n' ∉ b ∧ b.length < maxLine + chunkSize)
    (hlines : front ++ [body] <+: linesOf (rest s))
    (hshort : (((front.map restored).flatten).length : Int) < count) :
    front ++ [body] <+: bodies := by
  rcases h.pieces _ hempty hpending hbodies with hlead | hfull
  · exact hlead
  · have hread : bodies <+: linesOf (rest s) := ⟨_, h.linesOf_eq.symm⟩
    by_cases hle : (front ++ [body]).length ≤ bodies.length
    · exact List.prefix_of_prefix_length_le hlines hread hle
    · -- the loop would be full within `front`
      have hfront : bodies <+: front := by
        refine List.prefix_of_prefix_length_le hread ((List.prefix_append _ _).trans hlines) ?_
        simp only [List.length_append, List.length_singleton] at hle
        omega
      obtain ⟨more, rfl⟩ := hfront
      rw [List.map_append, List.flatten_append, List.length_append] at hshort
      rw [List.nil_append] at hfull
      omega

theorem endsWithin_iff (args stream : Bytes) :
    EndsWithin args stream ↔ CountFits (appendArgs args).count stream := by
  constructor
  · intro h
    have hcount : 0 ≤ (appendArgs args).count := by
      by_contra hneg
      obtain ⟨hlive, -⟩ := h acceptAll freshConn 0 (connect (stream.map (fun c => [c])))
        (accepted_fresh _) rfl (steady_connect (received_singles _))
        (by rw [rest_connect, flatten_singles])
      rw [handleAppend_accepted (accepted_fresh _), readLiteral_neg (Int.not_le.mp hneg)] at hlive
      simp at hlive
    refine ⟨hcount, fun front body back hlines hlimit hshort => ?_⟩
    obtain ⟨tail, hstream, -⟩ := octets_linesOf stream
    have hstream' : stream = octets (front ++ [body]) ++ (octets back ++ tail) := by
      conv_lhs => rw [hstream, hlines]
      simp
    have hflat : ∀ bodies : List Bytes, ((bodies.map pieces).flatten).flatten = octets bodies := by
      intro bodies
      induction bodies with
      | nil => rfl
      | cons b bodies ih =>
        rw [List.map_cons, List.flatten_cons, List.flatten_append, ih, flatten_pieces, octets_cons,
          List.append_assoc]
        rfl
    have hreceived : Received (((front ++ [body]).map pieces).flatten ++
        (octets back ++ tail).map (fun c => [c])) := by
      intro chunk hchunk
      rcases List.mem_append.mp hchunk with hchunk | hchunk
      · obtain ⟨segments, hsegments, hchunk⟩ := List.mem_flatten.mp hchunk
        obtain ⟨b, hb, rfl⟩ := List.mem_map.mp hsegments
        exact received_pieces (hlimit b hb) chunk hchunk
      · exact received_singles _ chunk hchunk
    have hrest : rest (connect (((front ++ [body]).map pieces).flatten ++
        (octets back ++ tail).map (fun c => [c]))) = stream := by
      rw [rest_connect, List.flatten_append, hflat, flatten_singles, ← hstream']
    obtain ⟨bodies, s', hread, hruns⟩ := readLiteral_spec (steady_connect hreceived) hcount
    obtain ⟨-, taken, htaken, hwithin⟩ := h acceptAll freshConn 0 _ (accepted_fresh _) rfl
      (steady_connect hreceived) hrest
    rw [handleAppend_accepted (accepted_fresh _), hread] at htaken
    have hoctets := hruns.rest_eq
    rw [hrest, htaken] at hoctets
    obtain rfl := List.append_cancel_right hoctets
    have hlead := pieces_read hruns rfl rfl
      (fun b hb => ⟨clean_of_mem_linesOf (s := stream) (by
        rw [hlines]
        rcases List.mem_append.mp hb with hb | hb
        · exact List.mem_append_left _ hb
        · exact List.mem_append_right _ (by simpa using .inl (List.mem_singleton.mp hb))),
        hlimit b hb⟩)
      (by rw [hrest, hlines]; exact ⟨back, by simp⟩) hshort
    obtain ⟨more, rfl⟩ := hlead
    cases more with
    | nil => simpa using hwithin
    | cons next more =>
      -- the loop went on behind these lines, so they do not use the count up
      have hgoes := hruns.short (front ++ [body]) next more rfl
      have hle := octets_length_le (front ++ [body])
      rw [List.nil_append] at hgoes
      exact .inl (by omega)
  · rintro ⟨hcount, hfits⟩ o c droom s haccepted hlive hsteady rfl
    obtain ⟨bodies, s', hread, hruns⟩ := readLiteral_spec hsteady hcount
    rw [handleAppend_accepted haccepted, hread]
    refine ⟨by simp only [appendStored_live, hlive], octets bodies, hruns.rest_eq, ?_⟩
    rcases List.eq_nil_or_concat bodies with rfl | ⟨front, body, rfl⟩
    · exact .inl (by simpa using hcount)
    · rw [List.concat_eq_append] at hruns ⊢
      refine hfits front body (linesOf (rest s')) ?_ hruns.limit ?_
      · rw [hruns.linesOf_eq]
        simp
      · simpa using hruns.short front body [] rfl

/-- APPEND takes its literal octet for octet exactly where it is plain, and the count text is
    served without an exception or too many octets exactly where it fits the stream. -/
theorem append_literal_iff (literal args stream : Bytes)
    (hlen : literal.length ≤ 0x7fffffffffffffff) :
    (ConsumesExactly literal ↔ Plain literal) ∧
      (EndsWithin args stream ↔ CountFits (appendArgs args).count stream) :=
  ⟨consumesExactly_iff hlen, endsWithin_iff args stream⟩

theorem append_literal_crlf :
    (ConsumesExactly (bytes "a\r\nb") ↔ Plain (bytes "a\r\nb")) ∧
      (EndsWithin (bytes "x {4}") (bytes "a\r\nb\r\n") ↔
        CountFits (appendArgs (bytes "x {4}")).count (bytes "a\r\nb\r\n")) :=
  append_literal_iff (bytes "a\r\nb") (bytes "x {4}") (bytes "a\r\nb\r\n") (by decide)

/-- The literal `a LF b` is stored as `a CR LF` and its last octet is run as a command; a
    negative count ends in an exception. -/
theorem append_bare_lf :
    let r := handleAppend acceptAll (bytes "x {3}") (connect [bytes "a\nb\r\nz NOOP\r\n"]) freshConn
    (appendArgs (bytes "x {3}")).count = (bytes "a\nb").length ∧
      (loadMessage r.2.server.store 1).map Message.raw = some (bytes "a\r\n") ∧
      (readLine maxLine r.1).2 = some (bytes "b") ∧
      (handleAppend acceptAll (bytes "x {-1}") (connect [bytes "z NOOP\r\n"])
        freshConn).2.live = false ∧
      ¬ConsumesExactly (bytes "a\nb") := by
  refine ⟨by decide, by decide, by decide, by decide, fun h => ?_⟩
  obtain ⟨E, hok⟩ := ok_run [] [] [] [] [] []
  obtain ⟨hraw, -⟩ := h acceptAll (bytes "x {3}") freshConn 0
    (connect [bytes "a\nb\r\nz NOOP\r\n"]) (bytes "z NOOP\r\n") E (by decide) (accepted_fresh _) hok
    (steady_connect (by unfold Received; decide)) (by decide)
  exact absurd (hraw 1 (insert_fresh _)) (by decide)

end QuackMail.Imap
