import QuackMail.Ical.Replies
import QuackMail.Lib.Confluence

/-! # Stale messages, single instances, and orders of arrival

When a message older than an object leaves it, when a message about one instance keeps the
others, and when messages lead to the same object in every order.
-/

namespace QuackMail.Itip

open Ical Confluence

/-! ## Cancelling a component -/

variable {n : Bytes} {kept : Component} {hp : Property}

theorem find?_setIn {m : Bytes} (hne : n ≠ m) (v : Bytes) (props : List Property) :
    (Component.setIn n v props).find? (fun p => p.name == m) =
      props.find? fun p => p.name == m := by
  induction props with
  | nil => simp [Component.setIn, hne]
  | cons p props ih =>
    rw [Component.setIn]
    split
    · next h => simp [h, hne]
    · rw [List.find?_cons, List.find?_cons, ih]

variable {v : Bytes} {hc said incoming : Component}

theorem setIn_eq_self_iff {props : List Property} : Component.setIn n v props = props ↔
      (props.find? fun p => p.name == n).map (·.value) = some v := by
  induction props with
  | nil => simp [Component.setIn]
  | cons p props ih =>
    rw [Component.setIn, List.find?_cons]
    split
    · next h =>
      rw [List.cons.injEq, beq_iff_eq.mpr h]
      obtain ⟨name, params, value⟩ := p
      simp [eq_comm]
    · next h =>
      rw [List.cons.injEq, beq_eq_false_iff_ne.mpr h]
      simp only [true_and]
      exact ih

/-- What `CANCEL` does to a component. -/
def cancelOne (c : Component) : Component :=
  if isScheduled c then c.set (bytes "STATUS") (bytes "CANCELLED") else c

theorem cancelled_eq (root : Component) :
    cancelled root = .mk root.name root.props (root.children.map cancelOne) := rfl

theorem status_upper : upper (bytes "STATUS") = bytes "STATUS" := by decide

@[simp] theorem isScheduled_cancelOne (c : Component) :
    isScheduled (cancelOne c) = isScheduled c := by
  unfold cancelOne
  split
  · rfl
  · rfl

theorem get_cancelOne {name : Bytes} (h : bytes "STATUS" ≠ upper name) (c : Component) :
    (cancelOne c).get name = c.get name := by
  unfold cancelOne
  split
  · rw [get_eq, get_eq]
    show (Option.map (·.value)
      ((Component.setIn (upper (bytes "STATUS")) _ c.props).find? _)).getD [] = _
    rw [status_upper, find?_setIn h]
  · rfl

/-- A component is left by a cancellation exactly if it is cancelled already. -/
theorem cancelOne_eq_self_iff {c : Component} (h : isScheduled c = true) :
    cancelOne c = c ↔ c.get (bytes "STATUS") = bytes "CANCELLED" := by
  obtain ⟨name, props, children⟩ := c
  have hset : cancelOne (.mk name props children) = .mk name props children ↔
      Component.setIn (bytes "STATUS") (bytes "CANCELLED") props = props := by
    unfold cancelOne
    rw [if_pos h]
    show Component.mk name (Component.setIn (bytes "STATUS") (bytes "CANCELLED") props) children =
      .mk name props children ↔ _
    simp
  rw [hset, setIn_eq_self_iff, get_eq]
  show _ ↔ (Option.map (·.value) (props.find? fun p => p.name == bytes "STATUS")).getD [] = _
  cases Option.map (·.value) (props.find? fun p => p.name == bytes "STATUS") with
  | none => decide
  | some v => simp

/-- Every component of an object that can be scheduled is cancelled. -/
def AllCancelled (kept : Component) : Prop :=
  ∀ c ∈ kept.children, isScheduled c = true → c.get (bytes "STATUS") = bytes "CANCELLED"

theorem cancelled_eq_self_iff : cancelled kept = kept ↔ AllCancelled kept := by
  obtain ⟨name, props, children⟩ := kept
  have hmap : cancelled (.mk name props children) = .mk name props children ↔
      children.map cancelOne = children := by
    rw [cancelled_eq]
    simp [Component.name, Component.props, Component.children]
  have hid : children.map cancelOne = children ↔ ∀ c ∈ children, cancelOne c = c := by
    conv_lhs => rhs; rw [← List.map_id children]
    exact List.map_inj_left
  rw [hmap, hid]
  constructor
  · intro h c hc hs
    exact (cancelOne_eq_self_iff hs).mp (h c hc)
  · intro h c hc
    cases hs : isScheduled c with
    | true => exact (cancelOne_eq_self_iff hs).mpr (h c hc hs)
    | false =>
      unfold cancelOne
      rw [if_neg (by rw [hs]; decide)]

/-! ## Answering a component -/

/-- The answer a reply has for a property of a stored component. -/
def verdict (said hc : Component) (hp : Property) : Option Bytes :=
  (allVerdicts said.children hc hp).getLast?

/-- A reply has no answer for a component that does not stand there already. -/
def Unanswered (said hc : Component) : Prop :=
  ∀ hp ∈ hc.props, isAttendee hp = true → ∀ p, verdict said hc hp = some p →
    lookup (bytes "PARTSTAT") hp.params = some p ∧
      lookup (bytes "RSVP") hp.params = some (bytes "FALSE")

/-- A property with the answer a reply has for it. -/
def answeredProp (said hc : Component) (hp : Property) : Property :=
  answers (allVerdicts said.children hc hp) hp

theorem answeredProp_eq (said hc : Component) (h : isAttendee hp = true) :
    answeredProp said hc hp = match verdict said hc hp with
      | none => hp
      | some p => answer p hp :=
  answers_eq_last _ h

theorem answered_eq_self_iff : answered said.children hc = hc ↔ Unanswered said hc := by
  obtain ⟨name, props, children⟩ := hc
  have hmap : answered said.children (.mk name props children) = .mk name props children ↔
      props.map (answeredProp said (.mk name props children)) = props := by
    show Component.mk name (props.map _) children = _ ↔ _
    rw [Component.mk.injEq]
    simp only [true_and, and_true]
    rfl
  have hid : props.map (answeredProp said (.mk name props children)) = props ↔
      ∀ hp ∈ props, answeredProp said (.mk name props children) hp = hp := by
    conv_lhs => rhs; rw [← List.map_id props]
    exact List.map_inj_left
  rw [hmap, hid]
  constructor
  · intro h hp hmem hat p hp'
    have hself := h hp hmem
    rw [answeredProp_eq said _ hat, hp'] at hself
    exact answer_eq_self_iff.mp hself
  · intro h hp hmem
    cases hat : isAttendee hp with
    | false => exact answers_of_not hat _
    | true =>
      rw [answeredProp_eq said _ hat]
      cases hv : verdict said (.mk name props children) hp with
      | none => rfl
      | some p => exact answer_eq_self_iff.mpr (h hp hmem hat p hv)

theorem answeredObject_eq_self_iff :
    answeredObject said kept = kept ↔ ∀ hc ∈ kept.children, Unanswered said hc := by
  obtain ⟨name, props, children⟩ := kept
  have hmap : answeredObject said (.mk name props children) = .mk name props children ↔
      children.map (answered said.children) = children := by
    rw [answeredObject]
    simp [Component.name, Component.props, Component.children]
  have hid : children.map (answered said.children) = children ↔
      ∀ c ∈ children, answered said.children c = c := by
    conv_lhs => rhs; rw [← List.map_id children]
    exact List.map_inj_left
  rw [hmap, hid]
  exact forall₂_congr fun c _ => answered_eq_self_iff

/-! ## Stale messages -/

/-- A message with a SEQUENCE below that of every stored component it is for. -/
def Older (incoming kept : Component) : Prop :=
  (∃ c ∈ incoming.children, isScheduled c = true ∧ ∃ hc ∈ kept.children,
    isScheduled hc = true ∧ hc.get (bytes "UID") = c.get (bytes "UID")) ∧
  ∀ c ∈ incoming.children, isScheduled c = true → c.get (bytes "SEQUENCE") ≠ [] ∧
    ∀ hc ∈ kept.children, isScheduled hc = true → hc.get (bytes "UID") = c.get (bytes "UID") →
      sequenceOf c < sequenceOf hc

/-- An older reply has no answer. -/
theorem Older.unanswered (h : Older incoming kept) :
    ∀ hc ∈ kept.children, Unanswered incoming hc := by
  intro hc hmem hp _ _ p hv
  have hnone : allVerdicts incoming.children hc hp = [] := by
    refine List.flatMap_eq_nil_iff.mpr fun rc hrc => ?_
    split
    · next hsaid =>
      obtain ⟨hs, -, happ⟩ := hsaid
      unfold applies at happ
      simp only [Bool.and_eq_true, beq_iff_eq, Bool.not_eq_true', Bool.and_eq_false_iff] at happ
      obtain ⟨⟨hsh, huid⟩, hseq⟩ := happ
      obtain ⟨hne, hlt⟩ := h.2 rc hrc hs
      cases hseq with
      | inl hempty => exact absurd (by simpa using hempty) hne
      | inr hnot => exact absurd (hlt hc hmem hsh huid) (by simpa using hnot)
    · rfl
  rw [verdict, hnone] at hv
  cases hv

/-- A message older than an object leaves it exactly if it is a reply, or a cancellation of
    what is cancelled. -/
theorem step_older_iff (h : Older incoming kept) (method : Method) :
    step method incoming kept = kept ↔
      method = .reply ∨ method = .cancel ∧ AllCancelled kept := by
  cases method with
  | request =>
    have hne : incoming ≠ kept := by
      intro heq
      obtain ⟨⟨c, hc, hs, -⟩, hall⟩ := h
      exact absurd ((hall c hc hs).2 c (heq ▸ hc) hs rfl) (Int.lt_irrefl _)
    simp [step, hne]
  | cancel =>
    simp only [step, cancelled_eq_self_iff]
    simp
  | reply =>
    simp only [step, answeredObject_eq_self_iff, true_or, iff_true]
    exact h.unanswered

/-! ## Single instances -/

/-- A component that can be scheduled and is not the instance `rid`. -/
def isOther (rid : Bytes) (c : Component) : Bool :=
  isScheduled c && c.get (bytes "RECURRENCE-ID") != rid

/-- The master of an object and the overrides of its other instances. -/
def others (rid : Bytes) (kept : Component) : List Component := kept.children.filter (isOther rid)

/-- A message about the instance `rid` and nothing else. -/
def About (incoming : Component) (rid : Bytes) : Prop :=
  rid ≠ [] ∧ (∃ c ∈ incoming.children, isScheduled c = true) ∧
    ∀ c ∈ incoming.children, isScheduled c = true → c.get (bytes "RECURRENCE-ID") = rid

/-- The stored object and the message are such that the other instances are kept. -/
def LeavesOthers (method : Method) (incoming : Component) (rid : Bytes) (kept : Component) : Prop :=
  match method with
  | .request => others rid kept = []
  | .cancel => ∀ c ∈ others rid kept, c.get (bytes "STATUS") = bytes "CANCELLED"
  | .reply => ∀ c ∈ others rid kept, Unanswered incoming c

/-- A map over the components keeps the others exactly if it leaves each of them. -/
theorem filter_map_eq_iff {children : List Component} {p : Component → Bool}
    {f : Component → Component} (hp : ∀ c, p (f c) = p c) :
    (children.map f).filter p = children.filter p ↔ ∀ c ∈ children.filter p, f c = c := by
  have hfilter : (children.map f).filter p = (children.filter p).map f := by
    rw [List.filter_map]
    congr 1
    exact List.filter_congr fun c _ => hp c
  rw [hfilter]
  conv_lhs => rhs; rw [← List.map_id (children.filter p)]
  exact List.map_inj_left

theorem step_others_iff {rid : Bytes} (h : About incoming rid)
    (method : Method) (kept : Component) :
    others rid (step method incoming kept) = others rid kept ↔
      LeavesOthers method incoming rid kept := by
  cases method with
  | request =>
    have hnone : others rid incoming = [] := by
      refine List.filter_eq_nil_iff.mpr fun c hc => ?_
      cases hs : isScheduled c with
      | false => simp [isOther, hs]
      | true => simp [isOther, h.2.2 c hc hs]
    show others rid incoming = others rid kept ↔ others rid kept = []
    rw [hnone, eq_comm]
  | cancel =>
    have hother (c : Component) : isOther rid (cancelOne c) = isOther rid c := by
      rw [isOther, isScheduled_cancelOne, get_cancelOne (by decide), isOther]
    show (kept.children.map cancelOne).filter (isOther rid) = _ ↔ _
    rw [others, filter_map_eq_iff hother]
    refine forall₂_congr fun c hc => cancelOne_eq_self_iff ?_
    exact (Bool.and_eq_true _ _ ▸ (List.mem_filter.mp hc).2).1
  | reply =>
    have hother (c : Component) :
        isOther rid (answered incoming.children c) = isOther rid c := by
      rw [answered, isOther, isScheduled_answeredBy, get_answeredBy, isOther]
    show (kept.children.map (answered incoming.children)).filter (isOther rid) = _ ↔ _
    rw [others, filter_map_eq_iff hother]
    exact forall₂_congr fun c _ => answered_eq_self_iff

/-! ## Orders of arrival -/

/-- A message as it is applied: its method and its object. -/
abbrev Parsed := Method × Component

/-- What a message makes of a stored object. -/
def apply (kept : Component) (m : Parsed) : Component := step m.1 m.2 kept

/-- The replies do not contradict each other about an attendee of an object. -/
def Agree (ms : List Parsed) (kept : Component) : Prop :=
  ∀ m ∈ ms, ∀ m' ∈ ms, m.1 = .reply → m'.1 = .reply →
    ∀ hc ∈ kept.children, ∀ hp ∈ hc.props, isAttendee hp = true →
      ∀ p p', verdict m.2 hc hp = some p → verdict m'.2 hc hp = some p' → p = p'

/-- A message changes nothing about an object. -/
def Leaves (m : Parsed) (kept : Component) : Prop :=
  match m.1 with
  | .request => m.2 = kept
  | .cancel => AllCancelled kept
  | .reply => ∀ hc ∈ kept.children, Unanswered m.2 hc

variable {m : Parsed}

theorem apply_eq_self_iff : apply kept m = kept ↔ Leaves m kept := by
  obtain ⟨method, incoming⟩ := m
  cases method with
  | request => exact Iff.rfl
  | cancel => exact cancelled_eq_self_iff
  | reply => exact answeredObject_eq_self_iff

theorem mem_setIn {props : List Property} {p : Property}
    (h : p ∈ Component.setIn n v props) : p ∈ props ∨ p.name = n := by
  induction props with
  | nil => exact .inr (by rw [List.mem_singleton.mp h])
  | cons q props ih =>
    rw [Component.setIn] at h
    split at h
    · next hq =>
      rw [List.mem_cons] at h
      cases h with
      | inl h => exact .inr (by rw [h]; exact hq)
      | inr h => exact .inl (List.mem_cons_of_mem _ h)
    · rw [List.mem_cons] at h
      cases h with
      | inl h => exact .inl (h ▸ List.mem_cons_self)
      | inr h => exact (ih h).imp_left (List.mem_cons_of_mem _)

theorem mem_props_setIn {props : List Property} {p : Property} (hp : p ∈ props)
    (hne : p.name ≠ n) : p ∈ Component.setIn n v props := by
  induction props with
  | nil => cases hp
  | cons q props ih =>
    rw [Component.setIn]
    rw [List.mem_cons] at hp
    split
    · next hq =>
      cases hp with
      | inl h => exact absurd (h ▸ hq) hne
      | inr h => exact List.mem_cons_of_mem _ h
    · cases hp with
      | inl h => exact h ▸ List.mem_cons_self
      | inr h => exact List.mem_cons_of_mem _ (ih h)

theorem not_status (h : isAttendee hp = true) : hp.name ≠ bytes "STATUS" := by
  intro heq
  rw [isAttendee, heq] at h
  exact absurd h (by decide)

/-- Neither a reply nor a cancellation moves what a reply reads. -/
theorem verdict_congr {hc' : Component} {hp' : Property}
    (hs : isScheduled hc' = isScheduled hc) (huid : hc'.get (bytes "UID") = hc.get (bytes "UID"))
    (hseq : hc'.get (bytes "SEQUENCE") = hc.get (bytes "SEQUENCE")) (hv : hp'.value = hp.value) :
    allVerdicts said.children hc' hp' = allVerdicts said.children hc hp := by
  have happ (rc : Component) : applies rc hc' = applies rc hc := by
    unfold applies sequenceOf
    rw [hs, huid, hseq]
  unfold allVerdicts
  simp only [happ, hv]

theorem allVerdicts_cancelOne (said hc : Component) (hp : Property) :
    allVerdicts said.children (cancelOne hc) hp = allVerdicts said.children hc hp :=
  verdict_congr (isScheduled_cancelOne hc) (get_cancelOne (by decide) hc)
    (get_cancelOne (by decide) hc) rfl

theorem allVerdicts_answered (said said' hc : Component) (hp : Property) :
    allVerdicts said.children (answered said'.children hc) (answeredProp said' hc hp) =
      allVerdicts said.children hc hp :=
  verdict_congr rfl (get_answeredBy _ hc _) (get_answeredBy _ hc _) (answers_value _ hp)

/-- An attendee of a component, with the answers each reply has for it. -/
def Attends (kept hc : Component) (hp : Property) : Prop :=
  hc ∈ kept.children ∧ hp ∈ hc.props ∧ isAttendee hp = true

/-- The attendees of an object are those it has after a reply or a cancellation, and every
    reply has the same answers for them. -/
theorem attends_of_apply (hm : m.1 ≠ .request) {hc' : Component} {hp' : Property}
    (h : Attends (apply kept m) hc' hp') :
    ∃ hc hp, Attends kept hc hp ∧ ∀ said, verdict said hc' hp' = verdict said hc hp := by
  obtain ⟨method, incoming⟩ := m
  obtain ⟨hmem, hprop, hat⟩ := h
  cases method with
  | request => exact absurd rfl hm
  | cancel =>
    obtain ⟨hc, hc_mem, rfl⟩ := List.mem_map.mp (show hc' ∈ kept.children.map cancelOne from hmem)
    refine ⟨hc, hp', ⟨hc_mem, ?_, hat⟩, fun said => ?_⟩
    · unfold cancelOne at hprop
      split at hprop
      · exact (mem_setIn hprop).resolve_right fun h => not_status hat (h.trans status_upper)
      · exact hprop
    · rw [verdict, allVerdicts_cancelOne, verdict]
  | reply =>
    obtain ⟨hc, hc_mem, rfl⟩ :=
      List.mem_map.mp (show hc' ∈ kept.children.map (answered incoming.children) from hmem)
    obtain ⟨hp, hp_mem, rfl⟩ :=
      List.mem_map.mp (show hp' ∈ hc.props.map (answeredProp incoming hc) from hprop)
    refine ⟨hc, hp, ⟨hc_mem, hp_mem, ?_⟩, fun said => ?_⟩
    · rw [← isAttendee_answers (allVerdicts incoming.children hc hp)]
      exact hat
    · rw [verdict, allVerdicts_answered, verdict]

theorem attends_apply (hm : m.1 ≠ .request) (h : Attends kept hc hp) :
    ∃ hc' hp', Attends (apply kept m) hc' hp' ∧
      ∀ said, verdict said hc' hp' = verdict said hc hp := by
  obtain ⟨method, incoming⟩ := m
  obtain ⟨hmem, hprop, hat⟩ := h
  cases method with
  | request => exact absurd rfl hm
  | cancel =>
    refine ⟨cancelOne hc, hp, ⟨List.mem_map_of_mem hmem, ?_, hat⟩, fun said => ?_⟩
    · unfold cancelOne
      split
      · exact mem_props_setIn hprop fun h => not_status hat (h.trans status_upper)
      · exact hprop
    · rw [verdict, allVerdicts_cancelOne, verdict]
  | reply =>
    refine ⟨answered incoming.children hc, answeredProp incoming hc hp,
      ⟨List.mem_map_of_mem hmem, List.mem_map_of_mem hprop, ?_⟩, fun said => ?_⟩
    · exact (isAttendee_answers _ hp).trans hat
    · rw [verdict, allVerdicts_answered, verdict]

variable {ms : List Parsed}

/-- Replies and cancellations keep what the replies agree on. -/
theorem agree_apply (hm : m.1 ≠ .request) (h : Agree ms kept) : Agree ms (apply kept m) := by
  intro a ha b hb har hbr hc' hmem hp' hprop hat p p' hp hp''
  obtain ⟨hc, hp0, ⟨h1, h2, h3⟩, hv⟩ := attends_of_apply hm ⟨hmem, hprop, hat⟩
  exact h a ha b hb har hbr hc h1 hp0 h2 h3 p p' (hv a.2 ▸ hp) (hv b.2 ▸ hp'')

/-- Answering comes before or behind cancelling. -/
theorem answered_cancelOne (said hc : Component) :
    answered said.children (cancelOne hc) = cancelOne (answered said.children hc) := by
  have hset (g : Property → Property) (hname : ∀ p, (g p).name = p.name)
      (hstatus : ∀ p, p.name = bytes "STATUS" → g p = p) (props : List Property) :
      (Component.setIn (bytes "STATUS") (bytes "CANCELLED") props).map g =
        Component.setIn (bytes "STATUS") (bytes "CANCELLED") (props.map g) := by
    induction props with
    | nil =>
      show [g _] = [_]
      rw [hstatus _ rfl]
    | cons p props ih =>
      rw [Component.setIn, List.map_cons, Component.setIn, hname]
      split
      · next h =>
        rw [List.map_cons, hstatus p h, hstatus { p with value := bytes "CANCELLED" } h]
      · rw [List.map_cons, ih]
  have hprops : ∀ p, p.name = bytes "STATUS" → answeredProp said hc p = p := by
    intro p hp
    refine answers_of_not ?_ _
    cases h : isAttendee p with
    | false => rfl
    | true => exact absurd hp (not_status h)
  cases hs : isScheduled hc with
  | false =>
    have h1 : cancelOne hc = hc := by rw [cancelOne, if_neg (by rw [hs]; decide)]
    have h2 : cancelOne (answered said.children hc) = answered said.children hc := by
      rw [cancelOne, if_neg (by rw [answered, isScheduled_answeredBy, hs]; decide)]
    rw [h1, h2]
  | true =>
    have h1 : cancelOne (answered said.children hc) = .mk hc.name
        (Component.setIn (bytes "STATUS") (bytes "CANCELLED") (hc.props.map (answeredProp said hc)))
        hc.children := by
      rw [cancelOne, if_pos (by rw [answered, isScheduled_answeredBy, hs])]
      rfl
    have h2 : answered said.children (cancelOne hc) = .mk hc.name
        ((Component.setIn (bytes "STATUS") (bytes "CANCELLED") hc.props).map (answeredProp said hc))
        hc.children := by
      rw [answered, answeredBy]
      simp only [allVerdicts_cancelOne]
      rw [cancelOne, if_pos hs]
      rfl
    rw [h1, h2, hset (answeredProp said hc) (fun p => answers_name _ p) hprops]

/-- The component two replies leave, one behind the other. -/
theorem answered_answered (said said' hc : Component) :
    answered said'.children (answered said.children hc) = .mk hc.name
      (hc.props.map fun hp => answers (allVerdicts said'.children hc hp) (answeredProp said hc hp))
      hc.children := by
  show Component.mk hc.name ((hc.props.map (answeredProp said hc)).map _) hc.children = _
  rw [List.map_map]
  congr 1
  refine List.map_congr_left fun hp _ => ?_
  show answers
    (allVerdicts said'.children (answered said.children hc) (answeredProp said hc hp)) _ = _
  rw [allVerdicts_answered]

/-- What two replies leave of an attendee. -/
theorem answers_answeredProp (said said' hc : Component) (hat : isAttendee hp = true) :
    answers (allVerdicts said'.children hc hp) (answeredProp said hc hp) =
      match verdict said' hc hp with
      | some p => answer p hp
      | none => answeredProp said hc hp := by
  have hat' : isAttendee (answeredProp said hc hp) = true := (isAttendee_answers _ hp).trans hat
  rw [answers_eq_last _ hat']
  show (match verdict said' hc hp with | none => _ | some p => _) = _
  rw [answeredProp_eq said hc hat]
  cases verdict said' hc hp with
  | none => rfl
  | some p =>
    cases verdict said hc hp with
    | none => rfl
    | some q => exact answer_answer q p hp

/-- Messages that are no requests commute where the replies agree. -/
theorem apply_comm {a b : Parsed} (ha : a ∈ ms) (hb : b ∈ ms)
    (har : a.1 ≠ .request) (hbr : b.1 ≠ .request) (h : Agree ms kept) :
    apply (apply kept a) b = apply (apply kept b) a := by
  obtain ⟨ma, ia⟩ := a
  obtain ⟨mb, ib⟩ := b
  have hmap (f g : Component → Component) (hfg : ∀ hc ∈ kept.children, f (g hc) = g (f hc)) :
      (kept.children.map g).map f = (kept.children.map f).map g := by
    rw [List.map_map, List.map_map]
    exact List.map_congr_left hfg
  have hlift {f g : Component → Component} (hfg : ∀ hc ∈ kept.children, f (g hc) = g (f hc)) :
      Component.mk kept.name kept.props ((kept.children.map g).map f) =
        .mk kept.name kept.props ((kept.children.map f).map g) :=
    congrArg _ (hmap f g hfg)
  cases ma with
  | request => exact absurd rfl har
  | cancel =>
    cases mb with
    | request => exact absurd rfl hbr
    | cancel => rfl
    | reply => exact hlift (f := answered ib.children) fun hc _ => answered_cancelOne ib hc
  | reply =>
    cases mb with
    | request => exact absurd rfl hbr
    | cancel => exact hlift (g := answered ia.children) fun hc _ => (answered_cancelOne ia hc).symm
    | reply =>
      refine hlift (f := answered ib.children) (g := answered ia.children) fun hc hmem => ?_
      rw [answered_answered, answered_answered]
      congr 1
      refine List.map_congr_left fun hp hprop => ?_
      cases hat : isAttendee hp with
      | false =>
        have hself (said : Component) : answeredProp said hc hp = hp := answers_of_not hat _
        rw [hself, hself, answers_of_not hat, answers_of_not hat]
      | true =>
        rw [answers_answeredProp ia ib hc hat, answers_answeredProp ib ia hc hat,
          answeredProp_eq ia hc hat, answeredProp_eq ib hc hat]
        have hagree := h _ ha _ hb rfl rfl hc hmem hp hprop hat
        cases hva : verdict ia hc hp with
        | none => cases verdict ib hc hp <;> rfl
        | some p =>
          cases hvb : verdict ib hc hp with
          | none => rfl
          | some q =>
            rw [hagree p q hva hvb]

/-- Messages that are no requests lead to one object in every order exactly if the replies
    among them agree. -/
theorem confluent_iff_agree (hms : ∀ m ∈ ms, m.1 ≠ .request)
    (kept : Component) : Confluent apply kept ms ↔ Agree ms kept := by
  constructor
  · intro hconf a ha b hb har hbr hc hmem hp hprop hat p p' hva hvb
    by_cases hab : a = b
    · subst hab
      exact Option.some.inj (hva.symm.trans hvb)
    · obtain ⟨ma, ia⟩ := a
      obtain ⟨mb, ib⟩ := b
      cases har
      cases hbr
      -- the others first, then the two that disagree, in both orders
      obtain ⟨rest, hrest⟩ := exists_perm_last ha hb hab
      have hrest' : (rest ++ [(Method.reply, ib), (Method.reply, ia)]).Perm ms :=
        ((List.Perm.swap _ _ []).append_left rest).trans hrest
      have heq := hconf.eq hrest hrest'
      have hstill : ∃ hc hp, Attends (rest.foldl apply kept) hc hp ∧
          verdict ia hc hp = some p ∧ verdict ib hc hp = some p' := by
        refine foldl_keeps (I := fun o => ∃ hc hp, Attends o hc hp ∧ verdict ia hc hp = some p ∧
          verdict ib hc hp = some p') (fun m hm o ho => ?_) ⟨hc, hp, ⟨hmem, hprop, hat⟩, hva, hvb⟩
        obtain ⟨hc, hp, hatt, h1, h2⟩ := ho
        have hreq : m.1 ≠ .request := hms m (hrest.subset (List.mem_append_left _ hm))
        obtain ⟨hc', hp', hatt', hv⟩ := attends_apply hreq hatt
        exact ⟨hc', hp', hatt', (hv ia).trans h1, (hv ib).trans h2⟩
      obtain ⟨hc, hp, ⟨hmem, hprop, hat⟩, h1, h2⟩ := hstill
      simp only [List.foldl_append, List.foldl_cons, List.foldl_nil] at heq
      have hchildren := congrArg Component.children heq
      have hcomponents : ((rest.foldl apply kept).children.map (answered ia.children)).map
          (answered ib.children) = ((rest.foldl apply kept).children.map
          (answered ib.children)).map (answered ia.children) := hchildren
      rw [List.map_map, List.map_map] at hcomponents
      have hcomponent := List.map_inj_left.mp hcomponents hc hmem
      rw [Function.comp_apply, Function.comp_apply, answered_answered,
        answered_answered] at hcomponent
      have hprops := List.map_inj_left.mp (congrArg Component.props hcomponent) hp hprop
      rw [answers_answeredProp ia ib hc hat, answers_answeredProp ib ia hc hat, h1, h2] at hprops
      exact (answer_inj hprops).symm
  · intro h
    exact confluent_of_commute (I := Agree ms) (fun m hm kept hk => agree_apply (hms m hm) hk)
      (fun a ha b hb kept hk => apply_comm ha hb (hms a ha) (hms b hb) hk) h

end QuackMail.Itip
