import QuackMail.Ical.RoundTrip
import QuackMail.Ical.Scheduling

/-! # Receiving scheduling messages

`Receive` works on the text of the object that is filed.  On objects that survive on their
lines, the texts it files are read as what the messages make of the object, so what holds of
objects holds of every calendar that is reached.
-/

namespace QuackMail.Itip

open Ical Contentline Confluence

/-! ## What is read is a calendar -/

theorem finish_name {st : ParseState} (h : ∀ c, st.root = some c → c.name = bytes "VCALENDAR") :
    ∀ c, st.finish.root = some c → c.name = bytes "VCALENDAR" := by
  obtain ⟨stack, root⟩ := st
  match stack with
  | [] => exact h
  | [done] =>
    intro c hc
    unfold ParseState.finish at hc
    dsimp only at hc
    split at hc
    · next hname =>
      cases hc
      exact hname
    · exact h c hc
  | done :: parent :: stack => exact h

theorem parseLine_name {st : ParseState} (h : ∀ c, st.root = some c → c.name = bytes "VCALENDAR")
    (line : Bytes) : ∀ c, (parseLine st line).root = some c → c.name = bytes "VCALENDAR" := by
  have hprop (p : Property) : (st.property p).root = st.root := by
    obtain ⟨stack, root⟩ := st
    cases stack with
    | nil => rfl
    | cons c stack => rfl
  unfold parseLine
  dsimp only
  split
  · exact h
  · split
    · exact h
    · split
      · exact h
      · split
        · exact finish_name h
        · rw [hprop]
          exact h

/-- What `Parse` yields is a `VCALENDAR`. -/
theorem parse_name {text : Bytes} {c : Component} (h : parse text = some c) :
    c.name = bytes "VCALENDAR" := by
  have hfold : ∀ (lines : List Bytes) (st : ParseState),
      (∀ c, st.root = some c → c.name = bytes "VCALENDAR") →
      ∀ c, (lines.foldl parseLine st).root = some c → c.name = bytes "VCALENDAR" := by
    intro lines
    induction lines with
    | nil => exact fun st hst => hst
    | cons line lines ih => exact fun st hst => ih _ (parseLine_name hst line)
  exact hfold _ {} (by simp) c h

theorem parse_nil : parse [] = none := rfl

/-! ## What is written survives -/

/-- A property that is given the value `CANCELLED`. -/
theorem writable_cancelled {p : Property} (h : p.name = bytes "STATUS")
    (hparams : ∀ kv ∈ p.params, WritableParam kv) :
    Property.Writable { p with value := bytes "CANCELLED" } where
  nonempty := by rw [h]; decide
  name_trim := by rw [h]; decide
  name_upper := by rw [h]; decide
  name_bytes := by rw [h]; decide +kernel
  not_begin := by rw [h]; decide
  not_end := by rw [h]; decide
  params := hparams
  value_bytes := by
    rw [h]
    show ∀ c ∈ bytes "CANCELLED", if isRule (bytes "STATUS") then c ≠ ch '\n' else c ≠ ch '\r'
    decide +kernel
  value_last := by
    rw [Property.text, h]
    intro c hc
    cases hc
    decide

theorem writable_setIn {props : List Property} (h : ∀ p ∈ props, p.Writable) :
    ∀ p ∈ Component.setIn (bytes "STATUS") (bytes "CANCELLED") props, p.Writable := by
  induction props with
  | nil =>
    intro p hp
    rw [List.mem_singleton.mp hp]
    exact writable_cancelled (p := { name := bytes "STATUS" }) rfl (by simp)
  | cons q props ih =>
    intro p hp
    rw [Component.setIn] at hp
    have hq := h q List.mem_cons_self
    split at hp
    · next hstatus =>
      rw [List.mem_cons] at hp
      cases hp with
      | inl hp => exact hp ▸ writable_cancelled hstatus hq.params
      | inr hp => exact h p (List.mem_cons_of_mem _ hp)
    · rw [List.mem_cons] at hp
      cases hp with
      | inl hp => exact hp ▸ hq
      | inr hp => exact ih (fun r hr => h r (List.mem_cons_of_mem _ hr)) p hp

theorem writable_cancelOne {c : Component} (h : c.Writable) : (cancelOne c).Writable := by
  obtain ⟨h1, h2, h3, h4, h5⟩ := h.parts
  unfold cancelOne
  split
  · exact .mk h1 h2 h3 (writable_setIn h4) h5
  · exact h

/-- A text that can stand as a parameter's value. -/
def WritableValue (v : Bytes) : Prop := trim v = v ∧ ∀ c ∈ v, c ≠ ch '"' ∧ c ≠ ch '\n'

theorem writableValue_upper {v : Bytes} (h : WritableValue v) : WritableValue (upper v) := by
  have hspace : ∀ c, isTrimmed (toUpper c) = isTrimmed c := forall_byte (by decide +kernel)
  have hbyte : ∀ c, (toUpper c = ch '"' → c = ch '"') ∧ (toUpper c = ch '\n' → c = ch '\n') :=
    forall_byte (by decide +kernel)
  constructor
  · refine trim_of_ends (fun c hc => ?_) fun c hc => ?_
    · rw [upper, List.head?_map, Option.map_eq_some_iff] at hc
      obtain ⟨d, hd, rfl⟩ := hc
      rw [hspace]
      exact head_of_trim h.1 hd
    · rw [upper, List.getLast?_map, Option.map_eq_some_iff] at hc
      obtain ⟨d, hd, rfl⟩ := hc
      rw [hspace]
      exact last_of_trim h.1 hd
  · intro c hc
    obtain ⟨d, hd, rfl⟩ := List.mem_map.mp hc
    exact ⟨fun heq => (h.2 d hd).1 ((hbyte d).1 heq), fun heq => (h.2 d hd).2 ((hbyte d).2 heq)⟩

theorem writable_setKey {name value : Bytes} (hname : WritableParam (name, value))
    {params : List (Bytes × Bytes)} (h : ∀ kv ∈ params, WritableParam kv) :
    ∀ kv ∈ setKey name value params, WritableParam kv := by
  induction params with
  | nil =>
    intro kv hkv
    rw [List.mem_singleton.mp hkv]
    exact hname
  | cons q params ih =>
    intro kv hkv
    rw [setKey] at hkv
    have hq := h q List.mem_cons_self
    split at hkv
    · rw [List.mem_cons] at hkv
      cases hkv with
      | inl hkv =>
        rw [hkv]
        exact ⟨hq.key_trim, hq.key_upper, hq.key_bytes, hname.value_trim, hname.value_bytes⟩
      | inr hkv => exact h kv (List.mem_cons_of_mem _ hkv)
    · rw [List.mem_cons] at hkv
      cases hkv with
      | inl hkv => exact hkv ▸ hq
      | inr hkv => exact ih (fun r hr => h r (List.mem_cons_of_mem _ hr)) kv hkv

/-- An answer is written where its text can stand. -/
theorem writable_answer {v : Bytes} (hv : WritableValue v) {hp : Property} (h : hp.Writable) :
    (answer v hp).Writable where
  nonempty := h.nonempty
  name_trim := h.name_trim
  name_upper := h.name_upper
  name_bytes := h.name_bytes
  not_begin := h.not_begin
  not_end := h.not_end
  params := by
    have hpart : WritableParam (bytes "PARTSTAT", v) :=
      ⟨show trim (bytes "PARTSTAT") = bytes "PARTSTAT" by decide, partstat_upper,
        show ∀ c ∈ bytes "PARTSTAT", _ by decide +kernel, hv.1, hv.2⟩
    have hrsvp : WritableParam (bytes "RSVP", bytes "FALSE") :=
      ⟨by decide, by decide, by decide +kernel, by decide, by decide +kernel⟩
    exact writable_setKey hrsvp (writable_setKey hpart h.params)
  value_bytes := h.value_bytes
  value_last := h.value_last

/-- The answers of a reply can be written. -/
theorem writable_verdicts {rps : List Property} (h : ∀ rp ∈ rps, rp.Writable) (who : Bytes) :
    ∀ v ∈ verdicts rps who, WritableValue v := by
  intro v hv
  obtain ⟨rp, hrp, hv⟩ := List.mem_filterMap.mp hv
  split at hv
  · cases hv
    refine writableValue_upper ?_
    unfold Property.param
    cases hfind : rp.params.find? fun kv => kv.1 == upper (bytes "PARTSTAT") with
    | none => exact ⟨rfl, by simp⟩
    | some kv =>
      have hkv := (h rp hrp).params kv (List.mem_of_find?_eq_some hfind)
      exact ⟨hkv.value_trim, hkv.value_bytes⟩
  · cases hv

theorem writable_answered {said hc : Component} (hsaid : said.Writable) (h : hc.Writable) :
    (answered said.children hc).Writable := by
  obtain ⟨h1, h2, h3, h4, h5⟩ := h.parts
  refine .mk h1 h2 h3 ?_ h5
  intro p hp
  obtain ⟨q, hq, rfl⟩ := List.mem_map.mp hp
  have hverdicts : ∀ v ∈ allVerdicts said.children hc q, WritableValue v := by
    intro v hv
    obtain ⟨rc, hrc, hv⟩ := List.mem_flatMap.mp hv
    split at hv
    · exact writable_verdicts (hsaid.parts.2.2.2.2 rc hrc).parts.2.2.2.1 _ v hv
    · cases hv
  cases hat : isAttendee q with
  | false =>
    rw [answers_of_not hat]
    exact h4 q hq
  | true =>
    rw [answers_eq_last _ hat]
    cases hlast : (allVerdicts said.children hc q).getLast? with
    | none => exact h4 q hq
    | some v => exact writable_answer (hverdicts v (List.mem_of_getLast? hlast)) (h4 q hq)

variable {kept : Component} {cal : Calendar}

/-- What a writable message makes of a writable object is writable. -/
theorem writable_apply {m : Parsed} (hm : m.2.Writable) (h : kept.Writable) :
    (apply kept m).Writable := by
  obtain ⟨method, incoming⟩ := m
  obtain ⟨h1, h2, h3, h4, h5⟩ := h.parts
  cases method with
  | request => exact hm
  | cancel =>
    refine .mk h1 h2 h3 h4 ?_
    intro c hc
    obtain ⟨d, hd, rfl⟩ := List.mem_map.mp hc
    exact writable_cancelOne (h5 d hd)
  | reply =>
    refine .mk h1 h2 h3 h4 ?_
    intro c hc
    obtain ⟨d, hd, rfl⟩ := List.mem_map.mp hc
    exact writable_answered hm (h5 d hd)

/-! ## Messages and calendars -/

/-- The text of a calendar object that survives on its lines. -/
structure CalendarText where
  text : Bytes
  root : Component
  parsed : parse text = some root
  writable : root.Writable

/-- A scheduling message for the object with a UID. -/
structure Message (uid : Bytes) extends CalendarText where
  /-- the method as the message has it, in any case. -/
  methodText : Bytes
  method : Method
  method_eq : upper methodText = method.text
  first : Component
  first_eq : firstScheduled root = some first
  uid_eq : first.get (bytes "UID") = uid
  uid_ne : uid ≠ []

variable {uid : Bytes}

def Message.apart (m : Message uid) : Parsed := (m.method, m.root)

/-- The object filed under a UID. -/
def Calendar.object (cal : Calendar) (uid : Bytes) : Option Component := (cal uid).bind parse

/-- Messages received one after the other. -/
def receiveAll (cal : Calendar) (ms : List (Message uid)) : Calendar :=
  ms.foldl (fun cal m => (receive cal m.methodText m.text).1) cal

/-- An object that survives on its lines is filed. -/
def Filed (cal : Calendar) (uid : Bytes) (kept : Component) : Prop :=
  ∃ body, cal uid = some body ∧ parse body = some kept ∧ kept.Writable

theorem Filed.object (h : Filed cal uid kept) : cal.object uid = some kept := by
  obtain ⟨body, hbody, hparse, -⟩ := h
  rw [Calendar.object, hbody]
  exact hparse

theorem method_text_known (method : Method) :
    ¬(method.text ≠ bytes "REQUEST" ∧ method.text ≠ bytes "REPLY" ∧
      method.text ≠ bytes "CANCEL") := by
  cases method <;> decide

/-- `Receive` files what the message makes of the object. -/
theorem receive_filed (h : Filed cal uid kept)
    (m : Message uid) : Filed (receive cal m.methodText m.text).1 uid (apply kept m.apart) := by
  obtain ⟨body, hbody, hparse, hwrite⟩ := h
  have hbodyne : body ≠ [] := by
    intro hnil
    rw [hnil, parse_nil] at hparse
    cases hparse
  have hafter : (apply kept m.apart).Writable := writable_apply (m := m.apart) m.writable hwrite
  have hfile {new : Bytes} (hnew : parse new = some (apply kept m.apart)) :
      Filed (if new = [] then (cal, false) else (cal.file uid new, true)).1 uid
        (apply kept m.apart) := by
    have hne : new ≠ [] := by
      intro hnil
      rw [hnil, parse_nil] at hnew
      cases hnew
    rw [if_neg hne]
    exact ⟨new, if_pos rfl, hnew, hafter⟩
  have hemit (hname : (apply kept m.apart).name = bytes "VCALENDAR") :
      parse (emit (apply kept m.apart)) = some (apply kept m.apart) := parse_emit hafter hname
  unfold receive
  rw [m.method_eq, if_neg (method_text_known m.method), m.parsed]
  dsimp only
  rw [m.first_eq]
  dsimp only
  rw [m.uid_eq, if_neg m.uid_ne, hbody]
  cases hmethod : m.method with
  | request =>
    have hafter_eq : apply kept m.apart = m.root := by
      rw [apply, Message.apart, hmethod]
      rfl
    exact hfile (hafter_eq ▸ m.parsed)
  | cancel =>
    have hafter_eq : apply kept m.apart = cancelled kept := by
      rw [apply, Message.apart, hmethod]
      rfl
    have hnew : newBody (Method.cancel.text) m.text (some body) =
        if kept.children.any isScheduled then some (emit (cancelled kept)) else none := by
      unfold newBody
      rw [if_neg (by decide), if_pos (by decide)]
      dsimp only
      rw [if_neg hbodyne, hparse]
    rw [hnew]
    split
    · next hnone =>
      split at hnone
      · cases hnone
      · next hany =>
        rw [hafter_eq, cancelled_eq_self_iff.mpr]
        · exact ⟨body, hbody, hparse, hwrite⟩
        · intro c hc hs
          exact absurd (List.any_eq_true.mpr ⟨c, hc, hs⟩) hany
    · next new hsome =>
      split at hsome
      · cases hsome
        rw [← hafter_eq]
        exact hfile (hemit (by rw [hafter_eq]; exact parse_name (c := kept) hparse))
      · cases hsome
  | reply =>
    have hafter_eq : apply kept m.apart = answeredObject m.root kept := by
      rw [apply, Message.apart, hmethod]
      rfl
    have hnew : newBody (Method.reply.text) m.text (some body) = applyReply body m.text := by
      unfold newBody
      exact if_neg hbodyne
    rw [hnew]
    cases applyReply_eq hparse m.parsed with
    | inl hsome =>
      rw [hsome]
      rw [← hafter_eq]
      exact hfile (hemit (by rw [hafter_eq]; exact parse_name (c := kept) hparse))
    | inr hnone =>
      rw [hnone.1, hafter_eq, hnone.2]
      exact ⟨body, hbody, hparse, hwrite⟩

/-- Any number of messages files what they make of the object. -/
theorem receiveAll_filed (h : Filed cal uid kept) (ms : List (Message uid)) :
    Filed (receiveAll cal ms) uid ((ms.map Message.apart).foldl apply kept) := by
  induction ms generalizing cal kept with
  | nil => exact h
  | cons m ms ih => exact ih (receive_filed h m)

theorem filed_file (cal : Calendar) (uid : Bytes) (stored : CalendarText) :
    Filed (cal.file uid stored.text) uid stored.root :=
  ⟨stored.text, if_pos rfl, stored.parsed, stored.writable⟩

/-! ## What a calendar does with scheduling messages -/

/-- The object under a UID once some messages for it have been received. -/
def objectAfter (cal : Calendar) (stored : CalendarText) (ms : List (Message uid)) :
    Option Component :=
  (receiveAll (cal.file uid stored.text) ms).object uid

theorem objectAfter_eq (cal : Calendar) (stored : CalendarText) (ms : List (Message uid)) :
    objectAfter cal stored ms = some ((ms.map Message.apart).foldl apply stored.root) :=
  (receiveAll_filed (filed_file cal uid stored) ms).object

variable {ms : List (Message uid)} {stored : CalendarText}

theorem objectAfter_concat (h : objectAfter cal stored ms = some kept) (m : Message uid) :
    objectAfter cal stored (ms ++ [m]) = some (step m.method m.root kept) := by
  rw [objectAfter_eq, Option.some.injEq] at h
  rw [objectAfter_eq, List.map_append, List.foldl_append, h]
  rfl

/-- The object is the same in every order the messages can arrive in. -/
def OrderFree (cal : Calendar) (stored : CalendarText) (ms : List (Message uid)) : Prop :=
  ∀ order : List (Message uid), order.Perm ms →
    objectAfter cal stored order = objectAfter cal stored ms

/-- The other instances are there after a message as they were before. -/
def KeepsOthers (cal : Calendar) (stored : CalendarText) (ms : List (Message uid)) (m : Message uid)
    (rid : Bytes) : Prop :=
  (objectAfter cal stored (ms ++ [m])).map (others rid) =
    (objectAfter cal stored ms).map (others rid)

/-- No message is a request and the replies agree; or one is, and no other message would change
    its object. -/
def Settled (stored : CalendarText) (ms : List (Message uid)) : Prop :=
  ((∀ m ∈ ms, m.method ≠ .request) ∧ Agree (ms.map Message.apart) stored.root) ∨
    ∃ r rest, ms.Perm (r :: rest) ∧ r.method = .request ∧ ∀ m ∈ rest, Leaves m.apart r.root

theorem orderFree_iff_confluent :
    OrderFree cal stored ms ↔ Confluent apply stored.root (ms.map Message.apart) := by
  constructor
  · intro h order hp
    have hcomp : Relation.Comp (· = List.map Message.apart ·) List.Perm order ms := by
      rw [List.eq_map_comp_perm]
      exact hp
    obtain ⟨order', rfl, hp'⟩ := hcomp
    have heq := h order' hp'
    rw [objectAfter_eq, objectAfter_eq, Option.some.injEq] at heq
    exact heq
  · intro h order hp
    rw [objectAfter_eq, objectAfter_eq, h _ (hp.map _)]

theorem orderFree_perm {ms' : List (Message uid)}
    (hp : ms.Perm ms') : OrderFree cal stored ms ↔ OrderFree cal stored ms' := by
  constructor
  · intro h order hp'
    rw [h order (hp'.trans hp.symm), h ms' hp.symm]
  · intro h order hp'
    rw [h order (hp'.trans hp), h ms hp]

/-- With a request among them, the order does not matter exactly if the others leave its
    object. -/
theorem orderFree_request_iff {r : Message uid}
    (hr : r.method = .request) (rest : List (Message uid)) :
    OrderFree cal stored (r :: rest) ↔ ∀ m ∈ rest, Leaves m.apart r.root := by
  have hreset (kept : Component) : apply kept r.apart = r.root := by
    rw [apply, Message.apart, hr]
    rfl
  rw [orderFree_iff_confluent, List.map_cons, confluent_reset_iff hreset, List.forall_mem_map]
  exact forall₂_congr fun m _ => apply_eq_self_iff

theorem orderFree_iff : OrderFree cal stored ms ↔ Settled stored ms := by
  constructor
  · intro h
    by_cases hreq : ∀ m ∈ ms, m.method ≠ .request
    · left
      have hparsed : ∀ m ∈ ms.map Message.apart, m.1 ≠ .request := by
        intro m hm
        obtain ⟨m', hm', rfl⟩ := List.mem_map.mp hm
        exact hreq m' hm'
      exact ⟨hreq, (confluent_iff_agree hparsed _).mp (orderFree_iff_confluent.mp h)⟩
    · right
      simp only [not_forall, not_not] at hreq
      obtain ⟨r, hmem, hr⟩ := hreq
      obtain ⟨front, back, rfl⟩ := List.append_of_mem hmem
      have hp : (front ++ r :: back).Perm (r :: (front ++ back)) := List.perm_middle
      exact ⟨r, front ++ back, hp, hr,
        (orderFree_request_iff hr _).mp ((orderFree_perm hp).mp h)⟩
  · intro h
    cases h with
    | inl h =>
      have hparsed : ∀ m ∈ ms.map Message.apart, m.1 ≠ .request := by
        intro m hm
        obtain ⟨m', hm', rfl⟩ := List.mem_map.mp hm
        exact h.1 m' hm'
      exact orderFree_iff_confluent.mpr ((confluent_iff_agree hparsed _).mpr h.2)
    | inr h =>
      obtain ⟨r, rest, hp, hr, hleaves⟩ := h
      exact (orderFree_perm hp).mpr ((orderFree_request_iff hr rest).mpr hleaves)

/-- At every object that is reached, a stale message changes nothing exactly if it is a reply,
    or a cancellation of what is cancelled; a message about one instance keeps the others exactly
    if it would change none of them; and messages lead to one object in every order exactly if
    they are settled among each other. -/
theorem received_iff (cal : Calendar) (stored : CalendarText) (ms : List (Message uid))
    (m : Message uid) (rid : Bytes) :
    (∀ kept, objectAfter cal stored ms = some kept → Older m.root kept →
      (objectAfter cal stored (ms ++ [m]) = some kept ↔
        m.method = .reply ∨ m.method = .cancel ∧ AllCancelled kept)) ∧
    (∀ kept, objectAfter cal stored ms = some kept → About m.root rid →
      (KeepsOthers cal stored ms m rid ↔ LeavesOthers m.method m.root rid kept)) ∧
    (OrderFree cal stored ms ↔ Settled stored ms) := by
  refine ⟨?_, ?_, orderFree_iff⟩
  · intro kept hkept hold
    rw [objectAfter_concat hkept, Option.some.injEq]
    exact step_older_iff hold m.method
  · intro kept hkept habout
    rw [KeepsOthers, objectAfter_concat hkept, hkept, Option.map_some, Option.map_some,
      Option.some.injEq]
    exact step_others_iff habout m.method kept

/-! ## A cancellation that is late -/

/-- A property without parameters whose text needs no care. -/
theorem writable_plain {name value : Bytes} (hname : name ≠ [] ∧ trim name = name ∧
      upper name = name ∧ name ≠ bytes "BEGIN" ∧ name ≠ bytes "END" ∧ isRule name = false)
    (hbytes : ∀ c ∈ name, c ≠ ch ':' ∧ c ≠ ch ';' ∧ c ≠ ch '"' ∧ c ≠ ch '\n')
    (hvalue : ch '\r' ∉ value ∧ ((escape value).getLast?.all fun c => !isTrimmed c) = true) :
    Property.Writable { name := name, value := value } where
  nonempty := hname.1
  name_trim := hname.2.1
  name_upper := hname.2.2.1
  name_bytes := hbytes
  not_begin := hname.2.2.2.1
  not_end := hname.2.2.2.2.1
  params := by simp
  value_bytes := by
    intro c hc
    rw [if_neg (by rw [hname.2.2.2.2.2]; decide)]
    exact fun h => hvalue.1 (h ▸ hc)
  value_last := by
    intro c hc
    rw [Property.text, if_neg (by rw [hname.2.2.2.2.2]; decide)] at hc
    have := hvalue.2
    rw [hc] at this
    simpa using this

/-- An event with a UID and a SEQUENCE of one digit. -/
def event (sequence : Char) : Component :=
  .mk (bytes "VCALENDAR") [] [.mk (bytes "VEVENT")
    [{ name := bytes "UID", value := bytes "m" },
      { name := bytes "SEQUENCE", value := [ch sequence] }] []]

theorem event_writable {sequence : Char} (h : sequence = '1' ∨ sequence = '2') :
    (event sequence).Writable := by
  have hseq : Property.Writable { name := bytes "SEQUENCE", value := [ch sequence] } := by
    cases h with
    | inl h => exact h ▸ writable_plain (by decide) (by decide +kernel) (by decide)
    | inr h => exact h ▸ writable_plain (by decide) (by decide +kernel) (by decide)
  have huid : Property.Writable { name := bytes "UID", value := bytes "m" } :=
    writable_plain (by decide) (by decide +kernel) (by decide)
  refine .mk (by decide) (by decide) (by decide) (by simp) ?_
  intro c hc
  rw [List.mem_singleton.mp hc]
  refine .mk (by decide) (by decide) (by decide) ?_ (by simp)
  intro p hp
  rw [List.mem_cons, List.mem_singleton] at hp
  cases hp with
  | inl hp => exact hp ▸ huid
  | inr hp => exact hp ▸ hseq

/-- The event with SEQUENCE 2. -/
def storedEvent : CalendarText where
  text := emit (event '2')
  root := event '2'
  parsed := parse_emit (event_writable (.inr rfl)) rfl
  writable := event_writable (.inr rfl)

/-- A `CANCEL` of it with SEQUENCE 1. -/
def lateCancel : Message (bytes "m") where
  text := emit (event '1')
  root := event '1'
  parsed := parse_emit (event_writable (.inl rfl)) rfl
  writable := event_writable (.inl rfl)
  methodText := bytes "CANCEL"
  method := .cancel
  method_eq := by decide
  first := .mk (bytes "VEVENT") [{ name := bytes "UID", value := bytes "m" },
    { name := bytes "SEQUENCE", value := [ch '1'] }] []
  first_eq := rfl
  uid_eq := rfl
  uid_ne := by decide

/-- A late cancellation cancels the newer event. -/
theorem late_cancel_applied :
    ¬∀ (cal : Calendar) (stored : CalendarText) (ms : List (Message (bytes "m")))
      (m : Message (bytes "m")) (rid : Bytes),
      (∀ kept, objectAfter cal stored ms = some kept → Older m.root kept →
        objectAfter cal stored (ms ++ [m]) = some kept) ∧
      (∀ kept, objectAfter cal stored ms = some kept → About m.root rid →
        KeepsOthers cal stored ms m rid) ∧
      ((ms.map fun m => sequenceOf m.first).Nodup → OrderFree cal stored ms) := by
  intro h
  have hkept : objectAfter (fun _ => none) storedEvent ([] : List (Message (bytes "m"))) =
      some (event '2') := objectAfter_eq _ _ _
  have hold : Older (event '1') (event '2') := by
    refine ⟨⟨_, List.mem_singleton_self _, by decide, _, List.mem_singleton_self _, by decide,
      by decide⟩, ?_⟩
    intro c hc _
    rw [List.mem_singleton.mp hc]
    refine ⟨by decide, fun hc' hmem _ _ => ?_⟩
    rw [List.mem_singleton.mp hmem]
    decide
  have hsame := (h (fun _ => none) storedEvent [] lateCancel []).1 _ hkept hold
  rw [objectAfter_concat hkept, Option.some.injEq] at hsame
  have hcancelled := ((step_older_iff hold .cancel).mp hsame).resolve_left (by decide)
  exact absurd (hcancelled.2 _ (List.mem_singleton_self _) (by decide)) (by decide)

end QuackMail.Itip
