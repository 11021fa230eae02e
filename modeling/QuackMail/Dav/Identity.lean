import QuackMail.Dav.Resources

/-! # Names identify objects

The default name of an euid is read back, so the names of a collection are a table with a
default; they identify its objects in the runs where no object is stored while a name of a
deleted one still stands for it, and where a default name is free when its object arrives.
-/

namespace QuackMail.Dav.Naming

open Bindings

/-! ## Default names -/

theorem hexVal_hexDigit : ∀ n < 16, hexVal (hexDigit n) = some n := by decide

/-- A byte that is no escape is passed through. -/
theorem euidForName_cons {c : Byte} (h : c ≠ ch '~') (s : Bytes) :
    euidForName (c :: s) = c :: euidForName s := by
  cases s with
  | nil => rfl
  | cons d s =>
    cases s with
    | nil => rfl
    | cons e s => rw [euidForName, if_neg h]

theorem euidForName_escaped (c : Byte) (s : Bytes) :
    euidForName (escaped c ++ s) = c :: euidForName s := by
  have hhi := hexVal_hexDigit (c.toNat / 16) (by have := c.toNat_lt; omega)
  have hlo := hexVal_hexDigit (c.toNat % 16) (by omega)
  rw [escaped, List.cons_append, List.cons_append, List.cons_append, List.nil_append,
    euidForName, if_pos rfl, hhi, hlo]
  dsimp only
  rw [Nat.div_add_mod, UInt8.ofNat_toNat]

theorem not_tilde_of_safe {c : Byte} (h : isSafeNameByte c = true) : c ≠ ch '~' := by
  rintro rfl
  revert h
  decide

theorem euidForName_nameTail (euid : Bytes) : euidForName (nameTail euid) = euid := by
  induction euid with
  | nil => rfl
  | cons c euid ih =>
    rw [nameTail, List.flatMap_cons]
    split
    · next hsafe =>
      rw [List.singleton_append, euidForName_cons (not_tilde_of_safe hsafe)]
      exact congrArg _ ih
    · rw [euidForName_escaped]
      exact congrArg _ ih

/-- `EuidForName` undoes `NameForEuid`. -/
theorem euidForName_nameForEuid (euid : Bytes) : euidForName (nameForEuid euid) = euid := by
  cases euid with
  | nil => rfl
  | cons c euid =>
    rw [nameForEuid]
    split
    · next hsafe =>
      rw [Bool.and_eq_true] at hsafe
      rw [List.singleton_append, euidForName_cons (not_tilde_of_safe hsafe.1),
        euidForName_nameTail]
    · rw [euidForName_escaped, euidForName_nameTail]

theorem nameForEuid_ne {euid : Bytes} (h : euid ≠ []) : nameForEuid euid ≠ [] := by
  cases euid with
  | nil => exact absurd rfl h
  | cons c euid =>
    rw [nameForEuid]
    split
    · simp
    · simp [escaped]

theorem objectExt_known (kind : Groupware) :
    lower kind.objectExt ∈ extensions ∧ kind.objectExt.length = 4 := by
  cases kind <;> decide

theorem stripExt_append {name ext : Bytes} (hname : name ≠ []) (hlength : ext.length = 4)
    (hext : lower ext ∈ extensions) : stripExt (name ++ ext) = name := by
  have hpos := List.length_pos_of_ne_nil hname
  have hlen : (name ++ ext).length - 4 = name.length := by
    rw [List.length_append, hlength, Nat.add_sub_cancel]
  have hlong : 4 < (name ++ ext).length := by
    omega
  rw [stripExt, hlen, List.drop_left, List.take_left, if_pos ⟨hlong, hext⟩]

/-- A default name reads as its euid. -/
theorem readName_defaultName (kind : Groupware) {euid : Bytes} (h : euid ≠ []) :
    readName (defaultName kind euid) = euid := by
  obtain ⟨hext, hlength⟩ := objectExt_known kind
  rw [readName, defaultName, stripExt_append (nameForEuid_ne h) hlength hext,
    euidForName_nameForEuid]

/-! ## The room -/

section Room

variable {room : Room} {euid : Bytes}

/-- The messages of a room have euids and numbers of their own. -/
structure Sole (room : Room) : Prop where
  euids : (room.objects.map Object.euid).Nodup
  numbers : (room.objects.map Object.msgnum).Nodup
  below : ∀ o ∈ room.objects, o.msgnum < room.next
  present : ∀ o ∈ room.objects, o.euid ≠ []

theorem findByEuid_some {o : Object} (h : findByEuid room euid = some o) :
    o ∈ room.objects ∧ o.euid = euid ∧ euid ≠ [] := by
  rw [findByEuid] at h
  split at h
  · cases h
  · next hne => exact ⟨List.mem_of_find?_eq_some h, by simpa using List.find?_some h, hne⟩

theorem live_iff (hsole : Sole room) : Live room euid ↔ ∃ o ∈ room.objects, o.euid = euid := by
  rw [Live, findByEuid]
  split
  · next hnil =>
    refine ⟨nofun, ?_⟩
    rintro ⟨o, ho, rfl⟩
    exact absurd hnil (hsole.present o ho)
  · simp

theorem Live.ne (h : Live room euid) : euid ≠ [] := by
  rintro rfl
  cases h

theorem findByEuid_of_mem (hsole : Sole room) {o : Object} (ho : o ∈ room.objects) :
    findByEuid room o.euid = some o := by
  have hlive : Live room o.euid := (live_iff hsole).mpr ⟨o, ho, rfl⟩
  obtain ⟨o', hfind⟩ := Option.isSome_iff_exists.mp hlive
  obtain ⟨ho', heuid, -⟩ := findByEuid_some hfind
  rw [hfind, List.inj_on_of_nodup_map hsole.euids ho' ho heuid]

theorem mem_deleteMessage {n : Nat} {o : Object} :
    o ∈ (deleteMessage n room).objects ↔ o ∈ room.objects ∧ o.msgnum ≠ n := by
  simp [deleteMessage]

theorem Sole.delete (h : Sole room) (n : Nat) : Sole (deleteMessage n room) :=
  ⟨h.euids.sublist (List.filter_sublist.map _), h.numbers.sublist (List.filter_sublist.map _),
    fun o ho => h.below o (mem_deleteMessage.mp ho).1,
    fun o ho => h.present o (mem_deleteMessage.mp ho).1⟩

/-- Deleting the message of an euid leaves those of the others. -/
theorem mem_delete_found (hsole : Sole room) {old : Object}
    (hfind : findByEuid room euid = some old) {o : Object} :
    o ∈ (deleteMessage old.msgnum room).objects ↔ o ∈ room.objects ∧ o.euid ≠ euid := by
  obtain ⟨hold, rfl, -⟩ := findByEuid_some hfind
  rw [mem_deleteMessage]
  refine and_congr_right fun ho => not_congr ⟨fun hnum => ?_, fun heuid => ?_⟩
  · rw [List.inj_on_of_nodup_map hsole.numbers ho hold hnum]
  · rw [List.inj_on_of_nodup_map hsole.euids ho hold heuid]

theorem live_delete (hsole : Sole room) {old : Object}
    (hfind : findByEuid room euid = some old) {x : Bytes} :
    Live (deleteMessage old.msgnum room) x ↔ x ≠ euid ∧ Live room x := by
  rw [live_iff (hsole.delete _), live_iff hsole]
  constructor
  · rintro ⟨o, ho, rfl⟩
    obtain ⟨ho, hne⟩ := (mem_delete_found hsole hfind).mp ho
    exact ⟨hne, o, ho, rfl⟩
  · rintro ⟨hne, o, ho, rfl⟩
    exact ⟨o, (mem_delete_found hsole hfind).mpr ⟨ho, hne⟩, rfl⟩

/-- After a save, the room holds the new message and those of other euids. -/
theorem mem_upsertByEuid (hsole : Sole room) (body : Bytes) {o : Object} :
    o ∈ (upsertByEuid euid body room).objects ↔
      o = ⟨room.next, euid, body⟩ ∨ o ∈ room.objects ∧ (euid = [] ∨ o.euid ≠ euid) := by
  rw [upsertByEuid]
  cases hfind : findByEuid room euid with
  | none =>
    rw [insertMessage, List.mem_cons]
    refine or_congr_right ⟨fun ho => ⟨ho, ?_⟩, And.left⟩
    by_cases hnil : euid = []
    · exact .inl hnil
    · right
      rintro rfl
      rw [findByEuid_of_mem hsole ho] at hfind
      cases hfind
  | some old =>
    obtain ⟨hold, heuid, hne⟩ := findByEuid_some hfind
    rw [mem_deleteMessage, insertMessage, List.mem_cons]
    have hkept : o ∈ room.objects → (o.msgnum ≠ old.msgnum ↔ o.euid ≠ euid) := by
      intro ho
      have hboth := mem_delete_found hsole hfind (o := o)
      rw [mem_deleteMessage] at hboth
      simpa [ho] using hboth
    constructor
    · rintro ⟨rfl | ho, hnum⟩
      · exact .inl rfl
      · exact .inr ⟨ho, .inr ((hkept ho).mp hnum)⟩
    · rintro (rfl | ⟨ho, hcase⟩)
      · exact ⟨.inl rfl, (hsole.below old hold).ne'⟩
      · exact ⟨.inr ho, (hkept ho).mpr (hcase.resolve_left hne)⟩

theorem Sole.upsert (h : Sole room) (hne : euid ≠ []) (body : Bytes) :
    Sole (upsertByEuid euid body room) := by
  have hinsert : ∀ o ∈ (insertMessage euid body room).objects, o.msgnum < room.next + 1 := by
    intro o ho
    rcases List.mem_cons.mp ho with rfl | ho
    · exact Nat.lt_succ_self _
    · exact Nat.lt_succ_of_lt (h.below o ho)
  have hnumbers : ((insertMessage euid body room).objects.map Object.msgnum).Nodup := by
    rw [insertMessage, List.map_cons, List.nodup_cons]
    refine ⟨fun hmem => ?_, h.numbers⟩
    obtain ⟨o, ho, heq⟩ := List.mem_map.mp hmem
    exact absurd heq (h.below o ho).ne
  rw [upsertByEuid]
  cases hfind : findByEuid room euid with
  | none =>
    refine ⟨?_, hnumbers, hinsert, ?_⟩
    · rw [insertMessage, List.map_cons, List.nodup_cons]
      refine ⟨fun hmem => ?_, h.euids⟩
      obtain ⟨o, ho, rfl⟩ := List.mem_map.mp hmem
      rw [findByEuid_of_mem h ho] at hfind
      cases hfind
    · intro o ho
      rcases List.mem_cons.mp ho with rfl | ho
      · exact hne
      · exact h.present o ho
  | some old =>
    obtain ⟨hold, heuid, -⟩ := findByEuid_some hfind
    have hnew : old.msgnum ≠ room.next := (h.below old hold).ne
    dsimp only
    refine ⟨?_, hnumbers.sublist (List.filter_sublist.map _),
      fun o ho => hinsert o (mem_deleteMessage.mp ho).1, ?_⟩
    · rw [deleteMessage, insertMessage, List.filter_cons_of_pos (by simpa using hnew.symm),
        List.map_cons, List.nodup_cons]
      refine ⟨fun hmem => ?_, h.euids.sublist (List.filter_sublist.map _)⟩
      obtain ⟨o, ho, heq⟩ := List.mem_map.mp hmem
      exact ((mem_delete_found h hfind).mp ho).2 heq
    · intro o ho
      rcases List.mem_cons.mp (mem_deleteMessage.mp ho).1 with rfl | ho
      · exact hne
      · exact h.present o ho

theorem live_upsert (hsole : Sole room) (hne : euid ≠ []) (body : Bytes) {x : Bytes} :
    Live (upsertByEuid euid body room) x ↔ x = euid ∨ Live room x := by
  rw [live_iff (hsole.upsert hne body), live_iff hsole]
  constructor
  · rintro ⟨o, ho, rfl⟩
    rcases (mem_upsertByEuid hsole body).mp ho with rfl | ⟨ho, -⟩
    · exact .inl rfl
    · exact .inr ⟨o, ho, rfl⟩
  · intro hx
    by_cases heq : x = euid
    · exact ⟨_, (mem_upsertByEuid hsole body).mpr (.inl rfl), heq.symm⟩
    · obtain ⟨o, ho, rfl⟩ := hx.resolve_left heq
      exact ⟨o, (mem_upsertByEuid hsole body).mpr (.inr ⟨ho, .inr heq⟩), rfl⟩

end Room

/-! ## One event -/

section Events

variable {kind : Groupware} {y : Registry}

/-- What holds of a room and its names after any orderly events. -/
structure Inv (kind : Groupware) (y : Registry) : Prop where
  sole : Sole y.room
  named : Named readName (defaultName kind) y.room.names (Live y.room) y.held
  unnamed : lookup y.room.names [] = none

theorem euidForResource_eq {room : Room} (h : lookup room.names [] = none) (name : Bytes) :
    euidForResource room name = resolve readName room.names name := by
  rw [euidForResource]
  split
  · next hnil =>
    rw [hnil, resolve_of_none h]
    rfl
  · rfl

theorem Named.congr {t : List (Bytes × Bytes)} {live live' : Bytes → Prop}
    {held : Held Bytes Bytes} (h : Named readName (defaultName kind) t live held)
    (hlive : ∀ x, live' x ↔ live x) : Named readName (defaultName kind) t live' held := by
  rwa [show live' = live from funext fun x => propext (hlive x)]

@[simp] theorem names_upsertByEuid (euid body : Bytes) (room : Room) :
    (upsertByEuid euid body room).names = room.names := by
  rw [upsertByEuid]
  split <;> rfl

@[simp] theorem objects_bindResourceName (kind : Groupware) (name euid : Bytes) (room : Room) :
    (bindResourceName kind name euid room).objects = room.objects := by
  rw [bindResourceName]
  split
  · rfl
  · split <;> rfl

@[simp] theorem next_bindResourceName (kind : Groupware) (name euid : Bytes) (room : Room) :
    (bindResourceName kind name euid room).next = room.next := by
  rw [bindResourceName]
  split
  · rfl
  · split <;> rfl

theorem names_bindResourceName (kind : Groupware) {name euid : Bytes} (hname : name ≠ [])
    (heuid : euid ≠ []) (room : Room) :
    (bindResourceName kind name euid room).names =
      if defaultName kind euid = name then unbind name room.names
      else bind name euid room.names := by
  rw [bindResourceName, if_neg (by simp [hname, heuid])]
  split <;> rfl

theorem live_congr {room room' : Room} (h : room'.objects = room.objects) (x : Bytes) :
    Live room' x ↔ Live room x := by
  rw [Live, Live, findByEuid, findByEuid, h]

theorem Sole.congr {room room' : Room} (h : Sole room) (hobjects : room'.objects = room.objects)
    (hnext : room'.next = room.next) : Sole room' := by
  obtain ⟨heuids, hnumbers, hbelow, hpresent⟩ := h
  rw [← hobjects] at heuids hnumbers hbelow hpresent
  rw [← hnext] at hbelow
  exact ⟨heuids, hnumbers, hbelow, hpresent⟩

/-- A PUT that goes through. -/
structure Puts (kind : Groupware) (p : Put) (room : Room) (uid : Bytes) : Prop where
  about : p.uid = some uid
  present : uid ≠ []
  own : Live room uid → resourceNameFor kind p.row room uid = p.name
  other : holdsOther room p.name uid = false
  creates : ¬Live room uid → p.Creates room uid
  after : (davPut kind p room).1 =
    bindResourceName kind p.name uid (upsertByEuid uid p.body room)
  status : succeeded (davPut kind p room).2 = true

/-- A PUT goes through, or changes nothing. -/
theorem davPut_cases (kind : Groupware) (p : Put) (room : Room) :
    (∃ uid, Puts kind p room uid) ∨
      (davPut kind p room).1 = room ∧ succeeded (davPut kind p room).2 = false := by
  cases huid : p.uid with
  | none => exact .inr (by simp [davPut, huid, succeeded])
  | some uid =>
    by_cases hne : uid = []
    · exact .inr (by simp [davPut, huid, hne, succeeded])
    by_cases hown : (findByEuid room uid).isSome ∧ resourceNameFor kind p.row room uid ≠ p.name
    · exact .inr (by simp [davPut, huid, hne, hown, succeeded])
    by_cases hother : holdsOther room p.name uid = true
    · exact .inr (by simp [davPut, huid, hne, hother, succeeded])
    by_cases hinm : p.ifNoneMatch ≠ [] ∧ (findByEuid room uid).isSome
    · have hname : resourceNameFor kind p.row room uid = p.name := by
        by_contra hname
        exact hown ⟨hinm.2, hname⟩
      exact .inr (by simp [davPut, huid, hne, hname, hother, hinm, succeeded])
    by_cases him : p.ifMatch ≠ [] ∧ (findByEuid room uid).any (fun o =>
        etagListMatches p.ifMatch (etagFor o.msgnum)) = false
    · exact .inr (by simp [davPut, huid, hne, hown, hother, him, succeeded])
    by_cases hpost : p.canPost = false
    · exact .inr (by simp [davPut, huid, hne, hown, hother, hinm, him, hpost, succeeded])
    by_cases haccepted : p.accepted = false
    · exact .inr (by
        simp [davPut, huid, hne, hown, hother, hinm, him, hpost, haccepted, succeeded])
    have hput : davPut kind p room =
        (bindResourceName kind p.name uid (upsertByEuid uid p.body room),
          if (findByEuid room uid).isSome then 204 else 201) := by
      simp [davPut, huid, hne, hown, hother, hinm, him, hpost, haccepted]
    refine .inl ⟨uid, huid, hne, ?_, by simpa using hother, ?_, by rw [hput], ?_⟩
    · intro hlive
      by_contra hname
      exact hown ⟨hlive, hname⟩
    · intro hnew
      have hnone : findByEuid room uid = none := by simpa [Live] using hnew
      refine ⟨huid, hne, hnone, by simpa using hother, ?_, by simpa using hpost,
        by simpa using haccepted⟩
      by_contra hmatch
      exact him ⟨hmatch, by rw [hnone]; rfl⟩
    · rw [hput]
      split <;> rfl

theorem inv_put (h : Inv kind y) {p : Put} (ho : Orderly kind y (.put p)) :
    Inv kind (y.step kind (.put p)) := by
  rcases davPut_cases kind p y.room with ⟨uid, hp⟩ | ⟨hroom, hstatus⟩
  · have hresolve := euidForResource_eq h.unnamed p.name
    have hother : resolve readName y.room.names p.name ≠ uid →
        ¬Live y.room (resolve readName y.room.names p.name) := by
      intro hne hlive
      have hholds := hp.other
      rw [holdsOther, hresolve] at hholds
      simp [hlive.ne, hne] at hholds
      rw [Live, hholds] at hlive
      cases hlive
    have hnamed := h.named.put (readName_defaultName kind hp.present) p.row hp.own hother
      fun hnew => ho uid (hp.creates hnew)
    have hstep : y.step kind (.put p) =
        ⟨bindResourceName kind p.name uid (upsertByEuid uid p.body y.room),
          Function.update y.held p.name (some (some uid))⟩ := by
      simp only [Registry.step, hp.after, hp.status, if_true, hp.about, Option.getD_some]
    rw [hstep]
    have hnames := names_bindResourceName kind p.named hp.present
      (upsertByEuid uid p.body y.room)
    rw [names_upsertByEuid] at hnames
    refine ⟨(h.sole.upsert hp.present p.body).congr (objects_bindResourceName ..)
      (next_bindResourceName ..), ?_, ?_⟩
    · rw [hnames]
      refine Named.congr hnamed fun x => ?_
      rw [live_congr (objects_bindResourceName ..), live_upsert h.sole hp.present]
    · rw [hnames]
      split
      · rw [lookup_unbind p.named.symm h.named.sound.keyed]
        exact h.unnamed
      · rw [lookup_bind p.named.symm h.named.sound.keyed]
        exact h.unnamed
  · have hstep : y.step kind (.put p) = y := by
      simp only [Registry.step, hroom, hstatus, Bool.false_eq_true, if_false]
    rwa [hstep]

theorem inv_delete (h : Inv kind y) {d : Delete} (ho : Orderly kind y (.delete d)) :
    Inv kind (y.step kind (.delete d)) := by
  have hsame : davDelete d y.room = (y.room, (davDelete d y.room).2) →
      succeeded (davDelete d y.room).2 = false → Inv kind (y.step kind (.delete d)) := by
    intro hroom hstatus
    have hstep : y.step kind (.delete d) = y := by
      simp only [Registry.step, hstatus, Bool.false_eq_true, if_false]
      rw [hroom]
    rwa [hstep]
  have hresolve := euidForResource_eq h.unnamed d.name
  cases hload : loadObjectByName y.room d.name with
  | none => exact hsame (by simp [davDelete, hload]) (by simp [davDelete, hload, succeeded])
  | some o =>
    by_cases him : d.ifMatch ≠ [] ∧ etagListMatches d.ifMatch (etagFor o.msgnum) = false
    · exact hsame (by simp [davDelete, hload, him]) (by simp [davDelete, hload, him, succeeded])
    by_cases hpost : d.canPost = false
    · exact hsame (by simp [davDelete, hload, him, hpost])
        (by simp [davDelete, hload, him, hpost, succeeded])
    by_cases hdeleted : d.deleted = false
    · exact hsame (by simp [davDelete, hload, him, hpost, hdeleted])
        (by simp [davDelete, hload, him, hpost, hdeleted, succeeded])
    have hdelete : davDelete d y.room =
        (unbindResourceName d.name (deleteMessage o.msgnum y.room), 204) := by
      simp [davDelete, hload, him, hpost, hdeleted]
    have hstep : y.step kind (.delete d) =
        ⟨unbindResourceName d.name (deleteMessage o.msgnum y.room),
          retire (euidForResource y.room d.name) y.held⟩ := by
      simp only [Registry.step, hdelete]
      rfl
    have hfind : findByEuid y.room (euidForResource y.room d.name) = some o := by
      rw [loadObjectByName, loadObject, Option.filter_eq_some_iff] at hload
      exact hload.1
    have hnamed := h.named.delete (e := euidForResource y.room d.name) hresolve.symm ho
    rw [hstep]
    refine ⟨(h.sole.delete o.msgnum).congr rfl rfl, ?_, ?_⟩
    · refine Named.congr hnamed fun x => ?_
      rw [← live_delete h.sole hfind]
      exact live_congr rfl x
    · change lookup (unbind d.name y.room.names) [] = none
      by_cases hname : d.name = []
      · rw [hname, lookup_unbind_self]
      · rw [lookup_unbind (Ne.symm hname) h.named.sound.keyed]
        exact h.unnamed

theorem inv_save (h : Inv kind y) {euid body : Bytes} (ho : Orderly kind y (.save euid body)) :
    Inv kind (y.step kind (.save euid body)) := by
  by_cases hne : euid = []
  · have hstep : y.step kind (.save euid body) = y := by
      simp only [Registry.step, saveObject, hne, if_true]
    rwa [hstep]
  · have hstep : y.step kind (.save euid body) =
        ⟨upsertByEuid euid body y.room,
          Function.update y.held (resourceNameFor kind 0 y.room euid) (some (some euid))⟩ := by
      simp only [Registry.step, saveObject, hne, if_false]
    have hnew : ¬Live y.room euid → findByEuid y.room euid = none := by simp [Live]
    have hnamed := h.named.save (readName_defaultName kind hne) 0
      (fun hdead => (ho hne (hnew hdead)).1) (fun hdead => (ho hne (hnew hdead)).2)
    rw [hstep]
    refine ⟨h.sole.upsert hne body, ?_, ?_⟩
    · rw [names_upsertByEuid]
      exact Named.congr hnamed fun x => live_upsert h.sole hne body
    · rw [names_upsertByEuid]
      exact h.unnamed

theorem inv_erase (h : Inv kind y) (euid : Bytes) : Inv kind (y.step kind (.erase euid)) := by
  have hnamed := h.named.erase euid
  cases hfind : findByEuid y.room euid with
  | none =>
    have hstep : y.step kind (.erase euid) = ⟨y.room, retire euid y.held⟩ := by
      simp only [Registry.step, eraseObject, hfind]
    rw [hstep]
    refine ⟨h.sole, Named.congr hnamed fun x => ⟨fun hlive => ⟨?_, hlive⟩, And.right⟩, h.unnamed⟩
    rintro rfl
    rw [Live, hfind] at hlive
    cases hlive
  | some o =>
    have hstep : y.step kind (.erase euid) =
        ⟨deleteMessage o.msgnum y.room, retire euid y.held⟩ := by
      simp only [Registry.step, eraseObject, hfind]
    rw [hstep]
    exact ⟨h.sole.delete _, Named.congr hnamed fun x => live_delete h.sole hfind, h.unnamed⟩

theorem inv_prune (h : Inv kind y) (ho : Orderly kind y .prune) :
    Inv kind (y.step kind .prune) := by
  -- a row goes where no message has its euid
  have hdead : ∀ name euid, (name, euid) ∈ y.room.names →
      (y.room.objects.any fun o => o.euid = euid) = false → ¬Live y.room euid := by
    intro name euid _ hany hlive
    obtain ⟨o, hmem, heuid⟩ := (live_iff h.sole).mp hlive
    have htrue : (y.room.objects.any fun o => o.euid = euid) = true :=
      List.any_eq_true.mpr ⟨o, hmem, by simpa using heuid⟩
    rw [hany] at htrue
    cases htrue
  refine ⟨h.sole.congr rfl rfl, ?_, ?_⟩
  · have hnamed := h.named.prune (fun row => y.room.objects.any fun o => o.euid = row.2) hdead
      fun name euid hrow hkeep => ho name euid hrow (hdead name euid hrow hkeep)
    exact Named.congr hnamed fun x => live_congr rfl x
  · have hnone := h.unnamed
    rw [lookup_eq_none] at hnone ⊢
    exact fun e hmem => hnone e (List.mem_filter.mp hmem).1

theorem inv_step (h : Inv kind y) {e : Event} (ho : Orderly kind y e) :
    Inv kind (y.step kind e) := by
  cases e with
  | put p => exact inv_put h ho
  | delete d => exact inv_delete h ho
  | save euid body => exact inv_save h ho
  | erase euid => exact inv_erase h euid
  | prune => exact inv_prune h ho

end Events

/-! ## Runs -/

section Runs

variable {kind : Groupware} {y : Registry}

theorem mem_listed {room : Room} {o : Object} (h : o ∈ listed room) : o ∈ room.objects :=
  (List.mem_filter.mp h).1

theorem identifies_of_inv (h : Inv kind y) : Identifies kind y := by
  have hlive : ∀ o ∈ listed y.room, Live y.room o.euid :=
    fun o ho => (live_iff h.sole).mpr ⟨o, mem_listed ho, rfl⟩
  refine ⟨?_, ?_, ?_, ?_⟩
  · intro a ha b hb j k hname
    have heuid := h.named.sound.nameOf_injective (hlive a ha) (hlive b hb) hname
    exact List.inj_on_of_nodup_map h.sole.euids (mem_listed ha) (mem_listed hb) heuid
  · intro o ho k
    rw [euidForResource_eq h.unnamed]
    exact h.named.sound.resolve_nameOf (hlive o ho) k
  · intro name euid hheld
    rw [euidForResource_eq h.unnamed]
    exact h.named.tracks.alive name euid hheld
  · intro name hheld
    have hdead := h.named.tracks.gone name hheld
    rw [← euidForResource_eq h.unnamed, Live, Option.not_isSome_iff_eq_none] at hdead
    rw [loadObjectByName, loadObject, hdead]
    rfl

theorem spares_of_inv (h : Inv kind y) (e : Event) : Spares kind y e := by
  cases e with
  | put p =>
    intro o ho k hname
    rcases davPut_cases kind p y.room with ⟨uid, hp⟩ | ⟨hroom, -⟩
    · have hmem : o ∈ (upsertByEuid uid p.body y.room).objects := by
        refine (mem_upsertByEuid h.sole p.body).mpr (.inr ⟨mem_listed ho, .inr ?_⟩)
        rintro rfl
        have hlive : Live y.room o.euid := (live_iff h.sole).mpr ⟨o, mem_listed ho, rfl⟩
        refine hname ?_
        rw [← hp.own hlive]
        exact h.named.sound.nameOf_eq hlive k p.row
      simp only [Registry.step, hp.after, objects_bindResourceName]
      exact hmem
    · simp only [Registry.step, hroom]
      exact mem_listed ho
  | _ => trivial

theorem inv_run (events : List Event) : ∀ {y : Registry}, Inv kind y → OrderlyRun kind y events →
    Inv kind (y.run kind events) := by
  induction events with
  | nil => exact fun h _ => h
  | cons e events ih =>
    intro y h ho
    exact ih (inv_step h ho.1) ho.2

theorem OrderlyRun.left (before : List Event) : ∀ {y : Registry} {after : List Event},
    OrderlyRun kind y (before ++ after) → OrderlyRun kind y before := by
  induction before with
  | nil => exact fun _ => trivial
  | cons e before ih => exact fun ho => ⟨ho.1, ih ho.2⟩

theorem inv_opening {room : Room} (h : Opened room) : Inv kind (opening room) := by
  refine ⟨⟨h.euids, h.numbers, h.below, h.present⟩, ?_, ?_⟩
  · change Named readName (defaultName kind) room.names (Live room) fun _ => none
    rw [h.unbound]
    exact named_empty fun e he => readName_defaultName kind he.ne
  · change lookup room.names [] = none
    rw [h.unbound]
    rfl

/-- Names identify objects throughout an orderly run. -/
theorem identifies_of_orderly (kind : Groupware) (room : Room) (hopened : Opened room)
    (events : List Event) (ho : OrderlyRun kind (opening room) events) :
    IdentifiesThroughout kind (opening room) events := by
  have hinv : ∀ before after, events = before ++ after →
      Inv kind ((opening room).run kind before) := by
    rintro before after rfl
    exact inv_run before (inv_opening hopened) ho.left
  exact ⟨fun before after heq => identifies_of_inv (hinv before after heq),
    fun before e after heq => spares_of_inv (hinv before (e :: after) heq) e⟩

end Runs

/-! ## Two runs -/

def emptyRoom : Room := ⟨[], 1, []⟩

/-- A PUT that nothing stands in the way of. -/
def stores (name uid : Bytes) (named : name ≠ []) : Event :=
  .put ⟨name, named, some uid, bytes "body", [], [], true, true, 0⟩

/-- An object is stored under a name of the client's, and deleted; another is saved elsewhere
    and fetched under its default name. -/
def tidy : List Event :=
  [stores (bytes "x.ics") (bytes "one") (by decide), .save (bytes "two") (bytes "body"),
    .delete ⟨bytes "x.ics", [], true, true⟩, .prune]

theorem identifies_of_orderly_tidy :
    Opened emptyRoom ∧ OrderlyRun .calendar (opening emptyRoom) tidy ∧
      IdentifiesThroughout .calendar (opening emptyRoom) tidy := by
  have hopened : Opened emptyRoom :=
    ⟨List.nodup_nil, List.nodup_nil, fun _ ho => absurd ho List.not_mem_nil,
      fun _ ho => absurd ho List.not_mem_nil, rfl⟩
  have horderly : OrderlyRun .calendar (opening emptyRoom) tidy := by
    refine ⟨?_, ?_, ?_, ?_, trivial⟩
    · intro uid _ m _ hgone
      cases hgone
    · refine fun _ _ => ⟨fun _ => by decide +kernel, fun m _ hgone => ?_⟩
      -- the one name that is known is of an object that is there
      change Function.update (fun _ => none) (bytes "x.ics") (some (some (bytes "one"))) m =
        some none at hgone
      by_cases hm : m = bytes "x.ics"
      · rw [hm, Function.update_self] at hgone
        cases hgone
      · rw [Function.update_of_ne hm] at hgone
        cases hgone
    · intro _ hlive
      revert hlive
      decide +kernel
    · intro name euid hrow
      exact absurd hrow List.not_mem_nil
  exact ⟨hopened, horderly, identifies_of_orderly .calendar emptyRoom hopened tidy horderly⟩

/-- A client's name for one object is the default name of another. -/
def crossed : List Event :=
  [stores (bytes "two.ics") (bytes "one") (by decide), .save (bytes "two") (bytes "body")]

theorem not_identifies_crossed :
    ¬IdentifiesThroughout .calendar (opening emptyRoom) crossed := by
  intro h
  have hresolves := (h.1 crossed [] rfl).resolves ⟨2, bytes "two", bytes "body"⟩
    (by decide +kernel) 0
  revert hresolves
  decide +kernel

end QuackMail.Dav.Naming
