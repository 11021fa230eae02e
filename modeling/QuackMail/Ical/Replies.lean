import QuackMail.Ical.Itip

/-! # What a scheduling message does to an object

The loops of `ApplyReply` answer each attendee of each stored component on its own: with the
last answer the reply has for it, if it has one.  A cancellation sets one property.  So what
a message does to an object is a map over its components, and what it does to a component a
map over its properties.
-/

namespace QuackMail.Itip

open Ical

/-! ## Parameters -/

/-- The value of the first parameter `SetParam` finds. -/
def lookup (name : Bytes) (params : List (Bytes × Bytes)) : Option Bytes :=
  (params.find? fun kv => upper kv.1 == name).map Prod.snd

variable {name : Bytes} {hp : Property}

theorem lookup_cons_self (kv : Bytes × Bytes) (h : upper kv.1 = name)
    (params : List (Bytes × Bytes)) : lookup name (kv :: params) = some kv.2 := by
  rw [lookup, List.find?_cons_of_pos (by simpa using h)]
  rfl

theorem lookup_cons_ne {kv : Bytes × Bytes} (h : upper kv.1 ≠ name)
    (params : List (Bytes × Bytes)) : lookup name (kv :: params) = lookup name params := by
  rw [lookup, List.find?_cons_of_neg (by simpa using h), lookup]

theorem lookup_setKey (hname : upper name = name) (value : Bytes)
    (params : List (Bytes × Bytes)) : lookup name (setKey name value params) = some value := by
  induction params with
  | nil => exact lookup_cons_self _ hname []
  | cons kv params ih =>
    rw [setKey]
    split
    · next h => exact lookup_cons_self (kv.1, value) h params
    · next h => rw [lookup_cons_ne h, ih]

theorem lookup_setKey_ne {other : Bytes} (hother : upper other = other) (hne : other ≠ name)
    (value : Bytes) (params : List (Bytes × Bytes)) :
    lookup name (setKey other value params) = lookup name params := by
  induction params with
  | nil => exact lookup_cons_ne (by rw [hother]; exact hne) []
  | cons kv params ih =>
    rw [setKey]
    split
    · next h => rw [lookup_cons_ne (by rw [h]; exact hne), lookup_cons_ne (by rw [h]; exact hne)]
    · by_cases hkv : upper kv.1 = name
      · rw [lookup_cons_self _ hkv, lookup_cons_self _ hkv]
      · rw [lookup_cons_ne hkv, lookup_cons_ne hkv, ih]

theorem setKey_of_lookup {value : Bytes} {params : List (Bytes × Bytes)}
    (h : lookup name params = some value) : setKey name value params = params := by
  induction params with
  | nil => cases h
  | cons kv params ih =>
    rw [setKey]
    split
    · next hkv =>
      rw [lookup_cons_self _ hkv] at h
      cases h
      rfl
    · next hkv =>
      rw [lookup_cons_ne hkv] at h
      rw [ih h]

theorem setKey_setKey (hname : upper name = name) (v w : Bytes) (params : List (Bytes × Bytes)) :
    setKey name w (setKey name v params) = setKey name w params := by
  induction params with
  | nil =>
    show (if upper name = name then _ else _) = _
    rw [if_pos hname]
    rfl
  | cons kv params ih =>
    rw [setKey, setKey]
    split
    · next h =>
      rw [setKey, if_pos h]
    · next h => rw [setKey, if_neg h, ih]

/-- A parameter that is there is set in its place. -/
theorem setKey_behind {other : Bytes} (hname : upper name = name) (hne : name ≠ other)
    (v w u : Bytes) (params : List (Bytes × Bytes)) :
    setKey name w (setKey other u (setKey name v params)) =
      setKey other u (setKey name w params) := by
  induction params with
  | nil =>
    show setKey name w (if upper name = other then _ else _) = (if upper name = other then _ else _)
    rw [if_neg (by rw [hname]; exact hne), if_neg (by rw [hname]; exact hne)]
    show (if upper name = name then _ else _) = _
    rw [if_pos hname]
  | cons kv params ih =>
    rw [setKey, setKey]
    split
    · next h =>
      rw [setKey, if_neg (by rw [h]; exact hne), setKey, if_pos h, setKey,
        if_neg (by rw [h]; exact hne)]
    · next h =>
      rw [setKey, setKey]
      split
      · rw [setKey, if_neg h, setKey_setKey hname]
      · rw [setKey, if_neg h, ih]

/-! ## One answer -/

/-- A property with an answer filled in. -/
def answer (partstat : Bytes) (hp : Property) : Property :=
  setParam (setParam hp (bytes "PARTSTAT") partstat) (bytes "RSVP") (bytes "FALSE")

theorem partstat_upper : upper (bytes "PARTSTAT") = bytes "PARTSTAT" := by decide

theorem rsvp_upper : upper (bytes "RSVP") = bytes "RSVP" := by decide

theorem answer_answer (p q : Bytes) (hp : Property) : answer q (answer p hp) = answer q hp := by
  have hparams : (answer q (answer p hp)).params = (answer q hp).params := by
    show setKey (bytes "RSVP") _ (setKey (bytes "PARTSTAT") q (setKey (bytes "RSVP") _
      (setKey (bytes "PARTSTAT") p hp.params))) = setKey (bytes "RSVP") _ (setKey _ q hp.params)
    rw [setKey_behind partstat_upper (by decide), setKey_setKey rsvp_upper]
  exact congrArg (fun params => ({ hp with params := params } : Property)) hparams

theorem lookup_answer (p : Bytes) (hp : Property) :
    lookup (bytes "PARTSTAT") (answer p hp).params = some p ∧
      lookup (bytes "RSVP") (answer p hp).params = some (bytes "FALSE") := by
  constructor
  · show lookup _ (setKey (bytes "RSVP") _ (setKey _ p hp.params)) = _
    rw [lookup_setKey_ne (by decide) (by decide), lookup_setKey (by decide)]
  · exact lookup_setKey (by decide) _ _

/-- Two answers that come to the same are the same. -/
theorem answer_inj {p q : Bytes} (h : answer p hp = answer q hp) : p = q := by
  have hp' := (lookup_answer p hp).1
  rw [h, (lookup_answer q hp).1] at hp'
  exact (Option.some.inj hp').symm

/-- An answer changes nothing where it stands already. -/
theorem answer_eq_self_iff {p : Bytes} :
    answer p hp = hp ↔ lookup (bytes "PARTSTAT") hp.params = some p ∧
      lookup (bytes "RSVP") hp.params = some (bytes "FALSE") := by
  constructor
  · intro h
    have := lookup_answer p hp
    rw [h] at this
    exact this
  · intro h
    have hparams : setKey (bytes "RSVP") (bytes "FALSE") (setKey (bytes "PARTSTAT") p hp.params) =
        hp.params := by
      rw [setKey_of_lookup h.1, setKey_of_lookup h.2]
    exact congrArg (fun params => ({ hp with params := params } : Property)) hparams

/-! ## The answers of a reply -/

/-- The answers that lines of a reply have for the attendee `who`. -/
def verdicts (rps : List Property) (who : Bytes) : List Bytes :=
  rps.filterMap fun rp =>
    if isAttendee rp = true ∧ addressOf rp.value ≠ [] ∧ rp.param (bytes "PARTSTAT") ≠ [] ∧
      who = addressOf rp.value then some (upper (rp.param (bytes "PARTSTAT"))) else none

/-- A property answered by each of some answers in turn. -/
def answers (vs : List Bytes) (hp : Property) : Property :=
  if isAttendee hp then vs.foldl (fun hp v => answer v hp) hp else hp

variable (vs : List Bytes)

@[simp] theorem foldl_answer_name (hp : Property) :
    (vs.foldl (fun hp v => answer v hp) hp).name = hp.name ∧
      (vs.foldl (fun hp v => answer v hp) hp).value = hp.value := by
  induction vs generalizing hp with
  | nil => exact ⟨rfl, rfl⟩
  | cons v vs ih => exact ih (answer v hp)

@[simp] theorem answers_name (hp : Property) : (answers vs hp).name = hp.name := by
  unfold answers
  split
  · exact (foldl_answer_name vs hp).1
  · rfl

@[simp] theorem answers_value (hp : Property) : (answers vs hp).value = hp.value := by
  unfold answers
  split
  · exact (foldl_answer_name vs hp).2
  · rfl

@[simp] theorem isAttendee_answers (hp : Property) :
    isAttendee (answers vs hp) = isAttendee hp := by
  rw [isAttendee, answers_name, isAttendee]

theorem answers_of_not (h : isAttendee hp = false) (vs : List Bytes) : answers vs hp = hp := by
  rw [answers, h]
  rfl

theorem answers_nil (hp : Property) : answers [] hp = hp := by
  unfold answers
  split <;> rfl

theorem answers_append (ws : List Bytes) (hp : Property) :
    answers ws (answers vs hp) = answers (vs ++ ws) hp := by
  cases h : isAttendee hp with
  | false => rw [answers_of_not h, answers_of_not h, answers_of_not h]
  | true =>
    rw [answers, isAttendee_answers, h, if_pos rfl, answers, answers, h, if_pos rfl, if_pos rfl,
      List.foldl_append]

/-- Of several answers the last one stands. -/
theorem answers_eq_last (h : isAttendee hp = true) : answers vs hp = match vs.getLast? with
      | none => hp
      | some p => answer p hp := by
  induction vs using List.reverseRecOn with
  | nil => exact answers_nil hp
  | append_singleton vs v ih =>
    rw [List.getLast?_concat, answers, h, if_pos rfl, List.foldl_append, List.foldl_cons,
      List.foldl_nil]
    rw [answers, h, if_pos rfl] at ih
    rw [ih]
    cases vs.getLast? with
    | none => rfl
    | some p => exact answer_answer p v hp

/-- A component with each property answered by its own answers. -/
def answeredBy (vs : Property → List Bytes) (hc : Component) : Component :=
  .mk hc.name (hc.props.map fun hp => answers (vs hp) hp) hc.children

theorem component_eta (c : Component) : Component.mk c.name c.props c.children = c := by
  cases c
  rfl

/-- The answers of one line and those of the lines behind it. -/
theorem verdicts_cons (rp : Property) (rps : List Property) (who : Bytes) :
    verdicts (rp :: rps) who = verdicts [rp] who ++ verdicts rps who := by
  simp only [verdicts, List.filterMap_cons, List.filterMap_nil]
  split
  · rfl
  · rfl

theorem answeredBy_answeredBy (vs ws : Property → List Bytes) (hc : Component) :
    answeredBy ws (answeredBy vs hc) =
      answeredBy (fun hp => vs hp ++ ws (answers (vs hp) hp)) hc := by
  simp only [answeredBy, Component.name, Component.props, Component.children, List.map_map]
  congr 1
  exact List.map_congr_left fun hp _ => answers_append _ _ hp

theorem answeredBy_nil (hc : Component) : answeredBy (fun _ => []) hc = hc := by
  have hmap : (hc.props.map fun hp => answers [] hp) = hc.props :=
    (List.map_congr_left fun hp _ => answers_nil hp).trans (List.map_id' hc.props)
  rw [answeredBy, hmap, component_eta]

/-- One line of a reply answers every property of a stored component. -/
theorem answerLine_fst (hc : Component × Bool) (rp : Property) :
    (answerLine hc rp).1 = answeredBy (fun hp => verdicts [rp] (addressOf hp.value)) hc.1 := by
  have hverdicts (who : Bytes) : verdicts [rp] who =
      if isAttendee rp = true ∧ addressOf rp.value ≠ [] ∧ rp.param (bytes "PARTSTAT") ≠ [] ∧
        who = addressOf rp.value then [upper (rp.param (bytes "PARTSTAT"))] else [] := by
    simp only [verdicts, List.filterMap_cons, List.filterMap_nil]
    split <;> split at * <;> simp_all
  have hnone (h : ∀ who, verdicts [rp] who = []) :
      answeredBy (fun hp => verdicts [rp] (addressOf hp.value)) hc.1 = hc.1 := by
    simp only [h]
    exact answeredBy_nil hc.1
  unfold answerLine
  split
  · next hatt => exact (hnone fun who => by rw [hverdicts, if_neg (by simp [hatt])]).symm
  · next hatt =>
    dsimp only
    split
    · next hsilent =>
      refine (hnone fun who => ?_).symm
      rw [hverdicts, if_neg]
      rintro ⟨-, hwho, hpart, -⟩
      exact hsilent.elim hwho hpart
    · next hspeaks =>
      rw [not_or] at hspeaks
      simp only [answeredBy]
      congr 1
      refine List.map_congr_left fun hp _ => ?_
      rw [hverdicts]
      unfold answerProp
      cases hat : isAttendee hp with
      | false => rw [if_pos (.inl rfl), answers_of_not hat]
      | true =>
        by_cases hw : addressOf hp.value = addressOf rp.value
        · rw [if_neg (by simp [hw]), if_pos ⟨by simpa using hatt, hspeaks.1, hspeaks.2, hw⟩,
            answers, hat]
          rfl
        · rw [if_pos (.inr hw), if_neg fun h => hw h.2.2.2, answers_nil]

/-- The lines of a reply's component answer every property of a stored one. -/
theorem foldl_answerLine (rps : List Property) (hc : Component × Bool) :
    (rps.foldl answerLine hc).1 =
      answeredBy (fun hp => verdicts rps (addressOf hp.value)) hc.1 := by
  induction rps generalizing hc with
  | nil => exact (answeredBy_nil hc.1).symm
  | cons rp rps ih =>
    rw [List.foldl_cons, ih, answerLine_fst, answeredBy_answeredBy]
    congr 1
    funext hp
    rw [answers_value, ← verdicts_cons]

/-- Where nothing is flagged as changed, nothing is. -/
theorem answerLine_unchanged {hc : Component × Bool} {rp : Property}
    (h : (answerLine hc rp).2 = false) : answerLine hc rp = hc := by
  unfold answerLine at h ⊢
  split
  · rfl
  · next hatt =>
    rw [if_neg hatt] at h
    dsimp only at h ⊢
    split
    · rfl
    · next hspeaks =>
      rw [if_neg hspeaks, Bool.or_eq_false_iff, List.any_eq_false] at h
      have hmap : hc.1.props.map (answerProp (addressOf rp.value) (rp.param (bytes "PARTSTAT"))) =
          hc.1.props := by
        refine (List.map_congr_left fun hp hmem => ?_).trans (List.map_id' _)
        have hno := h.2 hp hmem
        unfold answerProp
        rw [if_pos]
        cases hat : isAttendee hp with
        | false => exact .inl rfl
        | true =>
          right
          intro hw
          exact hno (by simp [hat, hw])
      rw [hmap, component_eta]
      refine Prod.ext rfl ?_
      rw [h.1, Bool.false_or, List.any_eq_false.mpr h.2]

theorem foldl_answerLine_unchanged {rps : List Property} {hc : Component × Bool}
    (h : (rps.foldl answerLine hc).2 = false) : rps.foldl answerLine hc = hc := by
  induction rps using List.reverseRecOn with
  | nil => rfl
  | append_singleton rps rp ih =>
    rw [List.foldl_append, List.foldl_cons, List.foldl_nil] at h ⊢
    have hlast := answerLine_unchanged h
    rw [hlast] at h ⊢
    exact ih h

/-! ## The properties a message reads -/

/-- What finds a component's properties is not moved by answers. -/
theorem find?_props_congr {props : List Property} {f : Property → Property}
    (hname : ∀ p, (f p).name = p.name) (hvalue : ∀ p, (f p).value = p.value) (name : Bytes) :
    ((props.map f).find? fun p => p.name == name).map (·.value) =
      (props.find? fun p => p.name == name).map (·.value) := by
  induction props with
  | nil => rfl
  | cons p props ih =>
    rw [List.map_cons, List.find?_cons, List.find?_cons, hname]
    split
    · simp [hvalue]
    · exact ih

theorem get_eq (c : Component) (name : Bytes) :
    c.get name = ((c.props.find? fun p => p.name == upper name).map (·.value)).getD [] := by
  rw [Component.get, Component.find]
  cases c.props.find? fun p => p.name == upper name with
  | none => rfl
  | some p => rfl

@[simp] theorem get_answeredBy (vs : Property → List Bytes) (hc : Component) (name : Bytes) :
    (answeredBy vs hc).get name = hc.get name := by
  rw [get_eq, get_eq]
  exact congrArg (·.getD []) (find?_props_congr (fun p => answers_name _ p)
    (fun p => answers_value _ p) (upper name))

@[simp] theorem isScheduled_answeredBy (vs : Property → List Bytes) (hc : Component) :
    isScheduled (answeredBy vs hc) = isScheduled hc := rfl

@[simp] theorem applies_answeredBy (rc : Component) (vs : Property → List Bytes) (hc : Component) :
    applies rc (answeredBy vs hc) = applies rc hc := by
  unfold applies sequenceOf
  rw [get_answeredBy, get_answeredBy, isScheduled_answeredBy]

/-! ## The answers of a whole reply -/

/-- The answers the components of a reply have for a property of a stored component. -/
def allVerdicts (rcs : List Component) (hc : Component) (hp : Property) : List Bytes :=
  rcs.flatMap fun rc =>
    if isScheduled rc = true ∧ rc.get (bytes "UID") ≠ [] ∧ applies rc hc = true then
      verdicts rc.props (addressOf hp.value)
    else []

/-- A stored component with the answers of a reply. -/
def answered (rcs : List Component) (hc : Component) : Component :=
  answeredBy (allVerdicts rcs hc) hc

theorem applyComponent_fst (stored : List Component × Bool) (rc : Component) :
    (applyComponent stored rc).1 = stored.1.map (answered [rc]) := by
  have hsilent (h : isScheduled rc = false ∨ rc.get (bytes "UID") = []) (hc : Component) :
      answered [rc] hc = hc := by
    have hverdicts : allVerdicts [rc] hc = fun _ => [] := by
      funext hp
      simp only [allVerdicts, List.flatMap_cons, List.flatMap_nil, List.append_nil]
      rw [if_neg]
      rintro ⟨hs, huid, -⟩
      cases h with
      | inl h => rw [h] at hs; cases hs
      | inr h => exact huid h
    rw [answered, hverdicts, answeredBy_nil]
  unfold applyComponent
  split
  · next h => exact ((List.map_congr_left fun hc _ => hsilent h hc).trans (List.map_id' _)).symm
  · next h =>
    rw [not_or] at h
    simp only [List.map_map]
    refine List.map_congr_left fun hc _ => ?_
    rw [Function.comp_apply, answered]
    split
    · next happ =>
      rw [foldl_answerLine]
      congr 1
      funext hp
      simp only [allVerdicts, List.flatMap_cons, List.flatMap_nil, List.append_nil]
      rw [if_pos ⟨by simpa using h.1, h.2, happ⟩]
    · next happ =>
      have hverdicts : allVerdicts [rc] hc = fun _ => [] := by
        funext hp
        simp only [allVerdicts, List.flatMap_cons, List.flatMap_nil, List.append_nil]
        rw [if_neg fun hp => happ hp.2.2]
      rw [hverdicts, answeredBy_nil]

/-- The components of a reply answer every stored one. -/
theorem foldl_applyComponent (rcs : List Component) (stored : List Component × Bool) :
    (rcs.foldl applyComponent stored).1 = stored.1.map (answered rcs) := by
  induction rcs generalizing stored with
  | nil =>
    refine ((List.map_congr_left fun hc _ => ?_).trans (List.map_id' _)).symm
    exact answeredBy_nil hc
  | cons rc rcs ih =>
    rw [List.foldl_cons, ih, applyComponent_fst, List.map_map]
    refine List.map_congr_left fun hc _ => ?_
    rw [Function.comp_apply, answered, answered, answered, answeredBy_answeredBy]
    congr 1
    funext hp
    simp [allVerdicts]

theorem applyComponent_unchanged {stored : List Component × Bool} {rc : Component}
    (h : (applyComponent stored rc).2 = false) : applyComponent stored rc = stored := by
  unfold applyComponent at h ⊢
  split
  · rfl
  · next hs =>
    rw [if_neg hs] at h
    dsimp only at h ⊢
    rw [Bool.or_eq_false_iff, List.any_eq_false] at h
    have hmap : (stored.1.map fun hc =>
        if applies rc hc then rc.props.foldl answerLine (hc, false) else (hc, false)).map Prod.fst =
        stored.1 := by
      rw [List.map_map]
      refine (List.map_congr_left fun hc hmem => ?_).trans (List.map_id' _)
      have hno := h.2 _ (List.mem_map_of_mem hmem)
      rw [Function.comp_apply]
      split
      · next happ =>
        rw [if_pos happ, Bool.not_eq_true] at hno
        rw [foldl_answerLine_unchanged hno]
      · rfl
    rw [hmap, h.1, Bool.false_or, List.any_eq_false.mpr h.2, ← h.1]

theorem foldl_applyComponent_unchanged {rcs : List Component} {stored : List Component × Bool}
    (h : (rcs.foldl applyComponent stored).2 = false) :
    rcs.foldl applyComponent stored = stored := by
  induction rcs using List.reverseRecOn with
  | nil => rfl
  | append_singleton rcs rc ih =>
    rw [List.foldl_append, List.foldl_cons, List.foldl_nil] at h ⊢
    have hlast := applyComponent_unchanged h
    rw [hlast] at h ⊢
    exact ih h

/-! ## Messages on objects -/

inductive Method where
  | request
  | cancel
  | reply
  deriving DecidableEq

def Method.text : Method → Bytes
  | .request => bytes "REQUEST"
  | .cancel => bytes "CANCEL"
  | .reply => bytes "REPLY"

/-- A stored object with the answers of a reply. -/
def answeredObject (said kept : Component) : Component :=
  .mk kept.name kept.props (kept.children.map (answered said.children))

/-- What a message makes of a stored object. -/
def step (method : Method) (incoming kept : Component) : Component :=
  match method with
  | .request => incoming
  | .cancel => cancelled kept
  | .reply => answeredObject incoming kept

/-- A reply that can be read is applied to a stored object that can be read: the object with
    its answers is written, or nothing where it has none. -/
theorem applyReply_eq {stored reply : Bytes} {kept said : Component}
    (hstored : parse stored = some kept) (hreply : parse reply = some said) :
    applyReply stored reply = some (emit (answeredObject said kept)) ∨
      applyReply stored reply = none ∧ answeredObject said kept = kept := by
  rw [applyReply, hstored, hreply]
  dsimp only
  split
  · exact .inl (by rw [foldl_applyComponent]; rfl)
  · next h =>
    right
    refine ⟨rfl, ?_⟩
    rw [Bool.not_eq_true] at h
    have hsame := congrArg Prod.fst (foldl_applyComponent_unchanged h)
    rw [foldl_applyComponent] at hsame
    rw [answeredObject, hsame, component_eta]

end QuackMail.Itip
