import QuackMail.Files.Locks

/-! # What a lock promises

A lock excludes others, and its holder can release it, in the runs where nothing overlaps
with a LOCK or UNLOCK of the same resource, nobody locks what he has locked already, and FTP
and SFTP write nothing that another user has locked.
-/

namespace QuackMail.Files

/-! ## Rows -/

variable {l : Lock} {x : Resource} {w : Shared}

theorem mem_expire {now : Nat} {locks : List Lock} :
    l ∈ expire now locks ↔ l ∈ locks ∧ now ≤ l.expiresAt := by
  rw [expire, List.mem_filter]
  simp

theorem lockOn_some {choice : Nat} {locks : List Lock}
    (h : lockOn choice x locks = some l) : l ∈ locks ∧ l.resource = x := by
  have hmem := List.mem_of_getElem? h
  rw [List.mem_filter, decide_eq_true_eq] at hmem
  exact hmem

theorem lockOn_none {choice : Nat} {locks : List Lock}
    (h : lockOn choice x locks = none) : ∀ l ∈ locks, l.resource ≠ x := by
  intro l hl hx
  have hmem : l ∈ locks.filter fun l => decide (l.resource = x) :=
    List.mem_filter.mpr ⟨hl, decide_eq_true hx⟩
  have hlen := List.length_pos_of_mem hmem
  rw [lockOn, List.getElem?_eq_none_iff] at h
  exact absurd (Nat.mod_lt choice hlen) (Nat.not_lt.mpr h)

/-- One row at most is about the resource. -/
def Single (locks : List Lock) (x : Resource) : Prop :=
  ∀ l ∈ locks, ∀ l' ∈ locks, l.resource = x → l'.resource = x → l = l'

/-- Where there is one row, it is what `LockOn` finds. -/
theorem Single.lockOn {locks : List Lock} (h : Single locks x)
    (hl : l ∈ locks) (hx : l.resource = x) (choice : Nat) :
    lockOn choice x locks = some l := by
  cases hfind : Files.lockOn choice x locks with
  | none => exact absurd hx (lockOn_none hfind l hl)
  | some l' =>
    obtain ⟨hl', hx'⟩ := lockOn_some hfind
    rw [h l' hl' l hl hx' hx]

/-! ## Files -/

/-- Messages have numbers of their own, below the next. -/
structure Numbered (shelf : Shelf) : Prop where
  below : ∀ f ∈ shelf.files, f.msgnum < shelf.next
  unique : ∀ f ∈ shelf.files, ∀ g ∈ shelf.files, f.msgnum = g.msgnum → f = g

theorem getFile_some {shelf : Shelf} {f : Stored} (h : getFile shelf x = some f) :
    f ∈ shelf.files ∧ f.resource = x := by
  have hfound := List.find?_some h
  exact ⟨List.mem_of_find?_eq_some h, of_decide_eq_true hfound⟩

theorem mem_unlinkFile {room msgnum : Nat} {shelf : Shelf} {f : Stored} :
    f ∈ (unlinkFile room msgnum shelf).files ↔
      f ∈ shelf.files ∧ ¬(f.resource.1 = room ∧ f.msgnum = msgnum) := by
  rw [unlinkFile, List.mem_filter, Bool.not_eq_true', decide_eq_false_iff_not]

theorem Numbered.insert {shelf : Shelf} (h : Numbered shelf)
    (mime : Bytes → Bytes → Bytes × Bytes) (now : Nat) (x : Resource) (u : Upload) :
    Numbered (insertFile mime now x u shelf) := by
  constructor
  · intro f hf
    rcases List.mem_cons.mp hf with rfl | hf
    · exact Nat.lt_succ_self _
    · exact Nat.lt_succ_of_lt (h.below f hf)
  · intro f hf g hg heq
    rcases List.mem_cons.mp hf with rfl | hf
    · rcases List.mem_cons.mp hg with rfl | hg
      · rfl
      · exact absurd heq.symm (Nat.ne_of_lt (h.below g hg))
    · rcases List.mem_cons.mp hg with rfl | hg
      · exact absurd heq (Nat.ne_of_lt (h.below f hf))
      · exact h.unique f hf g hg heq

theorem Numbered.unlink {shelf : Shelf} (h : Numbered shelf) (room msgnum : Nat) :
    Numbered (unlinkFile room msgnum shelf) :=
  ⟨fun f hf => h.below f (mem_unlinkFile.mp hf).1,
    fun f hf g hg => h.unique f (mem_unlinkFile.mp hf).1 g (mem_unlinkFile.mp hg).1⟩

/-- A new file shows at its resource only. -/
theorem filesAt_insertFile {y : Resource} (h : x ≠ y) (mime : Bytes → Bytes → Bytes × Bytes)
    (now : Nat) (u : Upload) (shelf : Shelf) :
    filesAt (insertFile mime now x u shelf) y = filesAt shelf y := by
  rw [filesAt, insertFile, List.filter_cons_of_neg (by simpa using h), filesAt]

/-- A message that is unlinked shows where it was. -/
theorem filesAt_unlinkFile {shelf : Shelf} {y : Resource} {msgnum : Nat}
    (h : ∀ f ∈ shelf.files, f.msgnum = msgnum → f.resource ≠ y) (room : Nat) :
    filesAt (unlinkFile room msgnum shelf) y = filesAt shelf y := by
  rw [filesAt, unlinkFile, List.filter_filter, filesAt]
  refine List.filter_congr fun f hf => ?_
  by_cases hy : f.resource = y
  · have hother : ¬(f.resource.1 = room ∧ f.msgnum = msgnum) := fun hm => h f hf hm.2 hy
    rw [decide_eq_true hy, decide_eq_false hother]
    rfl
  · rw [decide_eq_false hy, Bool.false_and]

/-! ## Invariants -/

/-- What holds of the tables between two statements. -/
structure Sound (acc : Access) (w : Shared) : Prop where
  tokens : (w.locks.map Lock.token).Nodup
  named : ∀ l ∈ w.locks, l.token ≠ []
  drawn : ∀ l ∈ w.locks, l.token ∈ w.drawn
  bounded : ∀ l ∈ w.locks, l.expiresAt ≤ w.now + kLockSeconds
  one : ∀ l ∈ w.locks, ∀ l' ∈ w.locks, l.resource = l'.resource →
    w.now ≤ l.expiresAt → w.now ≤ l'.expiresAt → l = l'
  resolves : ∀ l ∈ w.locks, (resolveCollection acc l.username l.resource.1).isSome = true
  /-- a lock that was answered is there until it expires -/
  granted : ∀ g ∈ w.grants, w.now ≤ g.expiresAt → ∃ l ∈ w.locks, l.token = g.token ∧
    l.resource = g.resource ∧ l.username = g.username ∧ g.expiresAt ≤ l.expiresAt
  numbered : Numbered w.shelf

variable {acc : Access} {r : Request} {w' : Shared}

theorem Sound.token_unique (h : Sound acc w) {l' : Lock}
    (hl : l ∈ w.locks) (hl' : l' ∈ w.locks) (heq : l.token = l'.token) : l = l' :=
  List.inj_on_of_nodup_map h.tokens hl hl' heq

/-- No lock on the resource is in the way of the request. -/
def Clear (w : Shared) (r : Request) (x : Resource) : Prop :=
  ∀ l ∈ w.locks, l.resource = x → w.now ≤ l.expiresAt →
    l.username = r.user ∨ l.token ∈ r.quoted

/-- What a request has made sure of before a write. -/
structure Ready (w : Shared) (r : Request) (wr : Write) : Prop where
  target : wr.resource ∈ r.targets
  clear : Clear w r wr.resource
  number : ∀ x msgnum, wr = .unlink x msgnum →
    msgnum < w.shelf.next ∧ ∀ f ∈ w.shelf.files, f.msgnum = msgnum → f.resource = x

/-- What holds of a request over DAV after its `LockOn`. -/
def Checked (w : Shared) (user : Bytes) (x : Resource) (held : Option Lock) : DavVerb → Prop
  | .lock _ _ (some _) => ∀ l ∈ w.locks, l.resource ≠ x
  | .lock _ _ none =>
    ∀ h, held = some h → h.resource = x ∧ (w.now ≤ h.expiresAt → h ∈ w.locks)
  | .unlock header =>
    unlockToken header ∈ w.drawn ∧
      ∀ l ∈ w.locks, l.token = unlockToken header ↔ l.resource = x
  | .put content contentType ifHeader ifMatch ifNoneMatch =>
    Clear w (.dav user x (.put content contentType ifHeader ifMatch ifNoneMatch)) x
  | .delete _ _ => True

/-- LOCK and UNLOCK write no file. -/
def Request.writes : Request → Bool
  | .dav _ _ (.lock _ _ _) => false
  | .dav _ _ (.unlock _) => false
  | _ => true

/-- What a request has made sure of. -/
def Fact (acc : Access) (w : Shared) (r : Request) : Stage → Prop
  | .begun => True
  | .swept => ∀ user x verb, r = .dav user x verb →
      (resolveCollection acc user x.1).isSome = true ∧ Single w.locks x ∧
        ∀ hex ifHeader info, verb = .lock hex ifHeader (some info) → info.shared = false →
          ∀ l ∈ w.locks, l.resource = x → l.username ≠ user
  | .checked held => ∀ user x verb, r = .dav user x verb →
      (resolveCollection acc user x.1).isSome = true ∧ Checked w user x held verb
  | .writing writes => r.writes = true ∧ ∀ wr ∈ writes, Ready w r wr

/-! ## What others leave alone -/

/-- What a statement about other resources does to these: no row is new, and none is gone
    that has not expired. -/
structure Apart (xs : List Resource) (w w' : Shared) : Prop where
  now : w.now ≤ w'.now
  drawn : ∀ t ∈ w.drawn, t ∈ w'.drawn
  kept : ∀ l ∈ w'.locks, l.resource ∈ xs → l ∈ w.locks
  lasts : ∀ l ∈ w.locks, l.resource ∈ xs → w'.now ≤ l.expiresAt → l ∈ w'.locks
  tokens : ∀ l ∈ w'.locks,
    (∃ l₀ ∈ w.locks, l₀.token = l.token ∧ l₀.resource = l.resource) ∨ l.token ∉ w.drawn
  next : w.shelf.next ≤ w'.shelf.next
  files : ∀ f ∈ w'.shelf.files, f ∈ w.shelf.files ∨ w.shelf.next ≤ f.msgnum

theorem Apart.refl (xs : List Resource) (w : Shared) : Apart xs w w :=
  ⟨Nat.le_refl _, fun _ h => h, fun _ h _ => h, fun _ h _ _ => h,
    fun l hl => .inl ⟨l, hl, rfl, rfl⟩, Nat.le_refl _, fun _ h => .inl h⟩

theorem Clear.of_apart {xs : List Resource}
    (h : Clear w r x) (hapart : Apart xs w w') (hx : x ∈ xs) : Clear w' r x := by
  intro l hl hlx hnow
  exact h l (hapart.kept l hl (hlx ▸ hx)) hlx (Nat.le_trans hapart.now hnow)

theorem Ready.of_apart {wr : Write} (h : Ready w r wr)
    (hapart : Apart r.targets w w') : Ready w' r wr := by
  refine ⟨h.target, h.clear.of_apart hapart h.target, fun x msgnum heq => ?_⟩
  obtain ⟨hlt, hfiles⟩ := h.number x msgnum heq
  refine ⟨Nat.lt_of_lt_of_le hlt hapart.next, fun f hf hm => ?_⟩
  rcases hapart.files f hf with hold | hnew
  · exact hfiles f hold hm
  · omega

/-- What a request has made sure of stays so while others work elsewhere. -/
theorem Fact.of_apart {stage : Stage}
    (h : Fact acc w r stage) (hapart : Apart r.targets w w') : Fact acc w' r stage := by
  cases stage with
  | begun => trivial
  | swept =>
    rintro user x verb rfl
    obtain ⟨hresolves, hsingle, hown⟩ := h user x verb rfl
    have hkept : ∀ l ∈ w'.locks, l.resource = x → l ∈ w.locks :=
      fun l hl hx => hapart.kept l hl (by rw [hx]; exact List.mem_singleton_self _)
    exact ⟨hresolves,
      fun l hl l' hl' hx hx' => hsingle l (hkept l hl hx) l' (hkept l' hl' hx') hx hx',
      fun hex ifHeader info hv hs l hl hx =>
        hown hex ifHeader info hv hs l (hkept l hl hx) hx⟩
  | checked held =>
    rintro user x verb rfl
    have hself : x ∈ (Request.dav user x verb).targets := List.mem_singleton_self _
    have hkept : ∀ l ∈ w'.locks, l.resource = x → l ∈ w.locks :=
      fun l hl hx => hapart.kept l hl (by rw [hx]; exact hself)
    obtain ⟨hresolves, hfact⟩ := h user x verb rfl
    refine ⟨hresolves, ?_⟩
    cases verb with
    | lock hex ifHeader body =>
      cases body with
      | some info => exact fun l hl hx => hfact l (hkept l hl hx) hx
      | none =>
        intro held' heq
        obtain ⟨hx, hin⟩ := hfact held' heq
        refine ⟨hx, fun hnow => hapart.lasts held' ?_ (by rw [hx]; exact hself) hnow⟩
        exact hin (Nat.le_trans hapart.now hnow)
    | unlock header =>
      obtain ⟨hdrawn, hiff⟩ := hfact
      refine ⟨hapart.drawn _ hdrawn, fun l hl => ?_⟩
      rcases hapart.tokens l hl with ⟨l₀, hl₀, htoken, hresource⟩ | hnew
      · rw [← htoken, ← hresource]
        exact hiff l₀ hl₀
      · refine iff_of_false (fun heq => hnew (heq ▸ hdrawn)) fun hx => ?_
        have hold := hkept l hl hx
        exact hnew (((hiff l hold).mpr hx) ▸ hdrawn)
    | put content contentType ifHeader ifMatch ifNoneMatch =>
      exact Clear.of_apart hfact hapart hself
    | delete ifHeader ifMatch => trivial
  | writing writes => exact ⟨h.1, fun wr hwr => (h.2 wr hwr).of_apart hapart⟩

/-! ## Statements -/

/-- What must hold before a statement for the promises to hold after it. -/
def Proper (acc : Access) (w : Shared) (r : Request) (stage : Stage) : Prop :=
  match r, stage with
  -- nobody locks what he has locked already
  | .dav user x (.lock _ _ (some info)), .begun =>
    info.shared = false → ∀ l ∈ w.locks, l.resource = x → l.username = user →
      l.expiresAt < w.now
  -- a token is drawn once
  | .dav _ _ (.lock hex _ (some _)), .checked _ => lockToken hex ∉ w.drawn
  -- a lock does not expire while it is refreshed
  | .dav _ _ (.lock _ _ none), .checked held => ∀ h ∈ held, w.now ≤ h.expiresAt
  -- what FTP and SFTP write is not locked by another user
  | .transfer user t, .begun =>
    ∀ writes, plan acc user w.shelf t = .ok writes → ∀ wr ∈ writes, ∀ l ∈ w.locks,
      l.resource = wr.resource → l.username ≠ user → l.expiresAt < w.now
  | _, _ => True

/-- What a statement leaves. -/
structure Keeps (acc : Access) (w : Shared) (r : Request) (out : Shared × Next) : Prop where
  now : out.1.now = w.now
  sound : Sound acc out.1
  fact : ∀ stage, out.2 = .goOn stage → Fact acc out.1 r stage
  apart : ∀ xs, r.writes = true ∨ (∀ x ∈ r.targets, x ∉ xs) → Apart xs w out.1
  files : ∀ y, filesAt out.1.shelf y ≠ filesAt w.shelf y → Clear w r y

section Statements

variable {acc : Access} {w : Shared} {r : Request}

theorem keeps_refuse (hs : Sound acc w) (status : Nat) : Keeps acc w r (refuse w status) :=
  ⟨rfl, hs, nofun, fun _ _ => .refl _ _, fun _ h => absurd rfl h⟩

variable {stage : Stage} {ifHeader : Bytes} {x : Resource}

theorem keeps_stay (hs : Sound acc w) (h : Fact acc w r stage) :
    Keeps acc w r (w, .goOn stage) := by
  refine ⟨rfl, hs, fun stage' heq => ?_, fun _ _ => .refl _ _, fun _ h => absurd rfl h⟩
  obtain rfl := Next.goOn.inj heq
  exact h

theorem keeps_done (hs : Sound acc w) : Keeps acc w r (w, .answer .done) :=
  ⟨rfl, hs, nofun, fun _ _ => .refl _ _, fun _ h => absurd rfl h⟩

/-- After `Expire` one row at most is about a resource. -/
theorem single_sweep (hs : Sound acc w) (x : Resource) : Single (expire w.now w.locks) x := by
  intro l hl l' hl' hx hx'
  obtain ⟨hmem, hnow⟩ := mem_expire.mp hl
  obtain ⟨hmem', hnow'⟩ := mem_expire.mp hl'
  exact hs.one l hmem l' hmem' (hx.trans hx'.symm) hnow hnow'

theorem keeps_sweep (hs : Sound acc w) (hresolves : ∀ user x verb, r = .dav user x verb →
      (resolveCollection acc user x.1).isSome = true)
    (hown : ∀ user x hex ifHeader info, r = .dav user x (.lock hex ifHeader (some info)) →
      info.shared = false → ∀ l ∈ w.locks, l.resource = x → l.username = user →
        l.expiresAt < w.now) : Keeps acc w r (sweep w) := by
  have hsub : ∀ l ∈ expire w.now w.locks, l ∈ w.locks := fun l hl => (mem_expire.mp hl).1
  refine ⟨rfl, ?_, ?_, ?_, fun _ h => absurd rfl h⟩
  · refine ⟨hs.tokens.sublist (List.filter_sublist.map _), fun l hl => hs.named l (hsub l hl),
      fun l hl => hs.drawn l (hsub l hl),
      fun l hl => hs.bounded l (hsub l hl),
      fun l hl l' hl' => hs.one l (hsub l hl) l' (hsub l' hl'),
      fun l hl => hs.resolves l (hsub l hl), fun g hg hnow => ?_, hs.numbered⟩
    obtain ⟨l, hl, htoken, hresource, husername, hle⟩ := hs.granted g hg hnow
    exact ⟨l, mem_expire.mpr ⟨hl, Nat.le_trans hnow hle⟩, htoken, hresource, husername, hle⟩
  · intro stage heq
    obtain rfl := Next.goOn.inj heq
    rintro user x verb rfl
    refine ⟨hresolves user x verb rfl, single_sweep hs x, ?_⟩
    rintro hex ifHeader info rfl hshared l hl hx husername
    obtain ⟨hmem, hnow⟩ := mem_expire.mp hl
    have hexpired := hown user x hex ifHeader info rfl hshared l hmem hx husername
    omega
  · intro xs _
    exact ⟨Nat.le_refl _, fun _ h => h, fun l hl _ => hsub l hl,
      fun l hl _ hnow => mem_expire.mpr ⟨hl, hnow⟩,
      fun l hl => .inl ⟨l, hsub l hl, rfl, rfl⟩, Nat.le_refl _, fun _ h => .inl h⟩

/-! ### LOCK -/

/-- The row of a lock that is refreshed. -/
def Lock.until (expiresAt : Nat) (token : Bytes) (l : Lock) : Lock :=
  if l.token = token then { l with expiresAt := expiresAt } else l

variable (e : Nat) (t : Bytes) (l : Lock)

theorem Lock.until_token : (l.until e t).token = l.token := by
  rw [Lock.until]
  split <;> rfl

theorem Lock.until_resource : (l.until e t).resource = l.resource := by
  rw [Lock.until]
  split <;> rfl

theorem Lock.until_username : (l.until e t).username = l.username := by
  rw [Lock.until]
  split <;> rfl

theorem keeps_refresh (hs : Sound acc w) {user : Bytes} {hex : Bytes}
    {held : Lock} (hheld : held ∈ w.locks) (hx : held.resource = x)
    (hnow : w.now ≤ held.expiresAt) :
    Keeps acc w (.dav user x (.lock hex ifHeader none))
      (davLock acc 0 user x hex ifHeader none w (.checked (some held))) := by
  have hself : (held.until (w.now + kLockSeconds) held.token) =
      { held with expiresAt := w.now + kLockSeconds } := if_pos rfl
  -- the token names one row, and the others stay as they are
  have hothers : ∀ l ∈ w.locks, l = held ∨ l.until (w.now + kLockSeconds) held.token = l := by
    intro l hl
    by_cases htoken : l.token = held.token
    · exact .inl (hs.token_unique hl hheld htoken)
    · exact .inr (if_neg htoken)
  have hgrows : ∀ l ∈ w.locks,
      l.expiresAt ≤ (l.until (w.now + kLockSeconds) held.token).expiresAt := by
    intro l hl
    rcases hothers l hl with rfl | heq
    · rw [hself]
      exact hs.bounded l hl
    · rw [heq]
  have hlive : ∀ l ∈ w.locks,
      w.now ≤ (l.until (w.now + kLockSeconds) held.token).expiresAt → w.now ≤ l.expiresAt := by
    intro l hl h
    rcases hothers l hl with rfl | heq
    · exact hnow
    · rwa [heq] at h
  change Keeps acc w _ ({ w with
    locks := w.locks.map (Lock.until (w.now + kLockSeconds) held.token)
    grants := { held with expiresAt := w.now + kLockSeconds } :: w.grants }, _)
  refine ⟨rfl, ?_, nofun, ?_, fun _ h => absurd rfl h⟩
  · constructor
    · have hmap : (w.locks.map (Lock.until (w.now + kLockSeconds) held.token)).map Lock.token =
          w.locks.map Lock.token := by
        rw [List.map_map]
        exact List.map_congr_left fun l _ => Lock.until_token _ _ l
      rw [hmap]
      exact hs.tokens
    · intro l' hl'
      obtain ⟨l, hl, rfl⟩ := List.mem_map.mp hl'
      rw [Lock.until_token]
      exact hs.named l hl
    · intro l' hl'
      obtain ⟨l, hl, rfl⟩ := List.mem_map.mp hl'
      rw [Lock.until_token]
      exact hs.drawn l hl
    · intro l' hl'
      obtain ⟨l, hl, rfl⟩ := List.mem_map.mp hl'
      rcases hothers l hl with rfl | heq
      · rw [hself]
      · rw [heq]
        exact hs.bounded l hl
    · intro l₁ hl₁ l₂ hl₂ heq hlive₁ hlive₂
      obtain ⟨k₁, hk₁, rfl⟩ := List.mem_map.mp hl₁
      obtain ⟨k₂, hk₂, rfl⟩ := List.mem_map.mp hl₂
      rw [Lock.until_resource, Lock.until_resource] at heq
      rw [hs.one k₁ hk₁ k₂ hk₂ heq (hlive k₁ hk₁ hlive₁) (hlive k₂ hk₂ hlive₂)]
    · intro l' hl'
      obtain ⟨l, hl, rfl⟩ := List.mem_map.mp hl'
      rw [Lock.until_username, Lock.until_resource]
      exact hs.resolves l hl
    · intro g hg hgnow
      rcases List.mem_cons.mp hg with rfl | hg
      · refine ⟨_, List.mem_map_of_mem hheld, Lock.until_token _ _ held,
          Lock.until_resource _ _ held, Lock.until_username _ _ held, ?_⟩
        rw [hself]
      · obtain ⟨l, hl, htoken, hresource, husername, hle⟩ := hs.granted g hg hgnow
        exact ⟨_, List.mem_map_of_mem hl, (Lock.until_token _ _ l).trans htoken,
          (Lock.until_resource _ _ l).trans hresource,
          (Lock.until_username _ _ l).trans husername, Nat.le_trans hle (hgrows l hl)⟩
    · exact hs.numbered
  · intro xs hxs
    have hout : x ∉ xs := hxs.resolve_left nofun x (List.mem_singleton_self _)
    refine ⟨Nat.le_refl _, fun _ h => h, ?_, ?_, ?_, Nat.le_refl _, fun _ h => .inl h⟩
    · intro l' hl' hmem
      obtain ⟨l, hl, rfl⟩ := List.mem_map.mp hl'
      rcases hothers l hl with rfl | heq
      · rw [Lock.until_resource, hx] at hmem
        exact absurd hmem hout
      · rwa [heq]
    · intro l hl hmem _
      rcases hothers l hl with rfl | heq
      · rw [hx] at hmem
        exact absurd hmem hout
      · exact List.mem_map.mpr ⟨l, hl, heq⟩
    · intro l' hl'
      obtain ⟨l, hl, rfl⟩ := List.mem_map.mp hl'
      exact .inl ⟨l, hl, (Lock.until_token _ _ l).symm, (Lock.until_resource _ _ l).symm⟩

theorem keeps_insert (hs : Sound acc w) {user : Bytes} {hex : Bytes}
    {info : LockInfo} (hfree : ∀ l ∈ w.locks, l.resource ≠ x)
    (hfresh : lockToken hex ∉ w.drawn)
    (hresolves : (resolveCollection acc user x.1).isSome = true) (held : Option Lock) :
    Keeps acc w (.dav user x (.lock hex ifHeader (some info)))
      (davLock acc 0 user x hex ifHeader (some info) w (.checked held)) := by
  have hother : ∀ l ∈ w.locks, l.token ≠ lockToken hex :=
    fun l hl heq => hfresh (heq ▸ hs.drawn l hl)
  have hfilter : (w.locks.filter fun l => !decide (l.token = lockToken hex)) = w.locks :=
    List.filter_eq_self.mpr fun l hl => by
      rw [decide_eq_false (hother l hl)]
      rfl
  rw [davLock]
  rw [hfilter]
  refine ⟨rfl, ?_, nofun, ?_, fun _ h => absurd rfl h⟩
  · constructor
    · rw [List.map_cons, List.nodup_cons]
      refine ⟨fun hmem => ?_, hs.tokens⟩
      obtain ⟨l, hl, heq⟩ := List.mem_map.mp hmem
      exact hother l hl heq
    · intro l hl
      rcases List.mem_cons.mp hl with rfl | hl
      · exact List.append_ne_nil_of_left_ne_nil (by decide) _
      · exact hs.named l hl
    · intro l hl
      rcases List.mem_cons.mp hl with rfl | hl
      · exact List.mem_cons_self
      · exact List.mem_cons_of_mem _ (hs.drawn l hl)
    · intro l hl
      rcases List.mem_cons.mp hl with rfl | hl
      · exact Nat.le_refl _
      · exact hs.bounded l hl
    · intro l hl l' hl' heq hnow hnow'
      rcases List.mem_cons.mp hl with rfl | hl
      · rcases List.mem_cons.mp hl' with rfl | hl'
        · rfl
        · exact absurd heq.symm (hfree l' hl')
      · rcases List.mem_cons.mp hl' with rfl | hl'
        · exact absurd heq (hfree l hl)
        · exact hs.one l hl l' hl' heq hnow hnow'
    · intro l hl
      rcases List.mem_cons.mp hl with rfl | hl
      · exact hresolves
      · exact hs.resolves l hl
    · intro g hg hgnow
      rcases List.mem_cons.mp hg with rfl | hg
      · exact ⟨_, List.mem_cons_self, rfl, rfl, rfl, Nat.le_refl _⟩
      · obtain ⟨l, hl, hrow⟩ := hs.granted g hg hgnow
        exact ⟨l, List.mem_cons_of_mem _ hl, hrow⟩
    · exact hs.numbered
  · intro xs hxs
    have hout : x ∉ xs := hxs.resolve_left nofun x (List.mem_singleton_self _)
    refine ⟨Nat.le_refl _, fun _ h => List.mem_cons_of_mem _ h, ?_,
      fun l hl _ _ => List.mem_cons_of_mem _ hl, ?_, Nat.le_refl _, fun _ h => .inl h⟩
    · intro l hl hmem
      rcases List.mem_cons.mp hl with rfl | hl
      · exact absurd hmem hout
      · exact hl
    · intro l hl
      rcases List.mem_cons.mp hl with rfl | hl
      · exact .inr hfresh
      · exact .inl ⟨l, hl, rfl, rfl⟩

/-- A request whose collection is there goes on to the sweep; a lock counts no locks of the user
    that are still in force. -/
theorem keeps_begun (hs : Sound acc w) {user : Bytes} {verb : DavVerb} {area : Area}
    (hresolve : resolveCollection acc user x.1 = some area)
    (hown : ∀ hex ifHeader info, verb = .lock hex ifHeader (some info) → info.shared = false →
      ∀ l ∈ w.locks, l.resource = x → l.username = user → l.expiresAt < w.now) :
    Keeps acc w (.dav user x verb) (sweep w) := by
  refine keeps_sweep hs ?_ ?_
  · intro user' x' verb' heq
    obtain ⟨rfl, rfl, -⟩ := Request.dav.inj heq
    rw [hresolve]
    rfl
  · intro user' x' hex ifHeader info heq
    obtain ⟨rfl, rfl, hverb⟩ := Request.dav.inj heq
    exact hown hex ifHeader info hverb


theorem davLock_keeps (hs : Sound acc w) (choice : Nat) {user : Bytes}
    {hex : Bytes} {body : Option LockInfo}
    (hfact : Fact acc w (.dav user x (.lock hex ifHeader body)) stage)
    (hproper : Proper acc w (.dav user x (.lock hex ifHeader body)) stage) :
    Keeps acc w (.dav user x (.lock hex ifHeader body))
      (davLock acc choice user x hex ifHeader body w stage) := by
  cases stage with
  | begun =>
    rw [davLock]
    cases hresolve : resolveCollection acc user x.1 with
    | none => exact keeps_refuse hs 404
    | some area =>
      dsimp only
      split
      · refine keeps_begun hs hresolve fun hex' ifHeader' info hverb => ?_
        obtain ⟨-, -, rfl⟩ := DavVerb.lock.inj hverb
        exact hproper
      · exact keeps_refuse hs 403
  | swept =>
    obtain ⟨hresolves, hsingle, hown⟩ := hfact user x _ rfl
    have hstay : ∀ held, Checked w user x held (.lock hex ifHeader body) →
        Keeps acc w (.dav user x (.lock hex ifHeader body)) (w, .goOn (.checked held)) := by
      intro held hchecked
      refine keeps_stay hs ?_
      intro user' x' verb heq
      obtain ⟨rfl, rfl, rfl⟩ := Request.dav.inj heq
      exact ⟨hresolves, hchecked⟩
    rw [davLock.eq_def]
    cases hfind : lockOn choice x w.locks with
    | none =>
      cases body with
      | none => exact keeps_refuse hs 412
      | some info =>
        dsimp only
        split
        · exact keeps_refuse hs 409
        · exact hstay none (lockOn_none hfind)
    | some held =>
      obtain ⟨hheld, hx⟩ := lockOn_some hfind
      cases body with
      | none =>
        dsimp only
        split
        · refine hstay (some held) fun h heq => ?_
          obtain rfl := Option.some.inj heq
          exact ⟨hx, fun _ => hheld⟩
        · exact keeps_refuse hs 423
      | some info =>
        dsimp only
        split
        · exact keeps_refuse hs 423
        · next husername =>
          split
          · exact keeps_refuse hs 409
          · next hshared =>
            have hother := hown hex ifHeader info rfl (by simpa using hshared) held hheld hx
            exact absurd hother husername
  | checked held =>
    obtain ⟨hresolves, hchecked⟩ := hfact user x _ rfl
    cases body with
    | some info => exact keeps_insert hs hchecked hproper hresolves held
    | none =>
      cases held with
      | none => exact keeps_refuse hs 412
      | some held =>
        obtain ⟨hx, hin⟩ := hchecked held rfl
        have hnow := hproper held rfl
        exact keeps_refresh hs (hin hnow) hx hnow
  | writing writes => exact keeps_done hs

/-! ### UNLOCK -/

theorem keeps_unlock (hs : Sound acc w) {user : Bytes} {header : Bytes}
    (htoken : ∀ l ∈ w.locks, l.token = unlockToken header ↔ l.resource = x) (held : Option Lock) :
    Keeps acc w (.dav user x (.unlock header))
      (davUnlock acc 0 user x header w (.checked held)) := by
  have hsub : ∀ l ∈ w.locks.filter fun l => !decide (l.token = unlockToken header),
      l ∈ w.locks := fun l hl => (List.mem_filter.mp hl).1
  have hstays : ∀ l ∈ w.locks, l.resource ≠ x →
      l ∈ w.locks.filter fun l => !decide (l.token = unlockToken header) := by
    intro l hl hx
    refine List.mem_filter.mpr ⟨hl, ?_⟩
    rw [decide_eq_false fun heq => hx ((htoken l hl).mp heq)]
    rfl
  refine ⟨rfl, ?_, nofun, ?_, fun _ h => absurd rfl h⟩
  · refine ⟨hs.tokens.sublist (List.filter_sublist.map _), fun l hl => hs.named l (hsub l hl),
      fun l hl => hs.drawn l (hsub l hl),
      fun l hl => hs.bounded l (hsub l hl),
      fun l hl l' hl' => hs.one l (hsub l hl) l' (hsub l' hl'),
      fun l hl => hs.resolves l (hsub l hl), fun g hg hnow => ?_, hs.numbered⟩
    obtain ⟨hg, hout⟩ := List.mem_filter.mp hg
    obtain ⟨l, hl, htok, hresource, hrow⟩ := hs.granted g hg hnow
    refine ⟨l, hstays l hl ?_, htok, hresource, hrow⟩
    rw [hresource]
    simpa using hout
  · intro xs hxs
    have hout : x ∉ xs := hxs.resolve_left nofun x (List.mem_singleton_self _)
    exact ⟨Nat.le_refl _, fun _ h => h, fun l hl _ => hsub l hl,
      fun l hl hmem _ => hstays l hl fun hx => hout (hx ▸ hmem),
      fun l hl => .inl ⟨l, hsub l hl, rfl, rfl⟩, Nat.le_refl _, fun _ h => .inl h⟩

theorem davUnlock_keeps (hs : Sound acc w) (choice : Nat) {user : Bytes}
    {header : Bytes} (hfact : Fact acc w (.dav user x (.unlock header)) stage) :
    Keeps acc w (.dav user x (.unlock header))
      (davUnlock acc choice user x header w stage) := by
  cases stage with
  | begun =>
    rw [davUnlock]
    cases hresolve : resolveCollection acc user x.1 with
    | none => exact keeps_refuse hs 404
    | some area =>
      exact keeps_begun hs hresolve fun _ _ _ hverb => nomatch hverb
  | swept =>
    obtain ⟨hresolves, hsingle, -⟩ := hfact user x _ rfl
    rw [davUnlock]
    split
    · exact keeps_refuse hs 400
    · cases hfind : lockOn choice x w.locks with
      | none => exact keeps_refuse hs 409
      | some held =>
        obtain ⟨hheld, hx⟩ := lockOn_some hfind
        dsimp only
        split
        · exact keeps_refuse hs 409
        · next htoken =>
          split
          · exact keeps_refuse hs 403
          · refine keeps_stay hs ?_
            intro user' x' verb heq
            obtain ⟨rfl, rfl, rfl⟩ := Request.dav.inj heq
            have heq := Decidable.of_not_not htoken
            refine ⟨hresolves, by rw [← heq]; exact hs.drawn held hheld, fun l hl => ?_⟩
            rw [← heq]
            constructor
            · intro htok
              rw [hs.token_unique hl hheld htok, hx]
            · intro hlx
              rw [hsingle l hl held hheld hlx hx]
  | checked held =>
    obtain ⟨-, -, htoken⟩ := hfact user x _ rfl
    exact keeps_unlock hs htoken held
  | writing writes => exact keeps_done hs

/-! ### PUT and DELETE -/

theorem clear_of_lockBlocks {user : Bytes} {choice : Nat} (hsingle : Single w.locks x)
    (hfree : ¬lockBlocks user ifHeader (lockOn choice x w.locks) = true) :
    ∀ l ∈ w.locks, l.resource = x → l.username = user ∨ l.token ∈ tokensIn ifHeader := by
  intro l hl hx
  rw [hsingle.lockOn hl hx, lockBlocks, decide_eq_true_eq] at hfree
  by_cases husername : l.username = user
  · exact .inl husername
  · refine .inr ?_
    by_contra htoken
    exact hfree ⟨husername, htoken⟩

theorem davPut_keeps (hs : Sound acc w) (choice : Nat) {user : Bytes}
    {content contentType ifMatch ifNoneMatch : Bytes}
    (hfact : Fact acc w (.dav user x (.put content contentType ifHeader ifMatch ifNoneMatch))
      stage) :
    Keeps acc w (.dav user x (.put content contentType ifHeader ifMatch ifNoneMatch))
      (davPut acc choice user x content contentType ifHeader ifMatch ifNoneMatch w stage) := by
  cases stage with
  | begun =>
    rw [davPut]
    cases hresolve : resolveCollection acc user x.1 with
    | none => exact keeps_refuse hs 404
    | some area =>
      dsimp only
      split
      · exact keeps_refuse hs 400
      split
      · exact keeps_refuse hs 403
      split
      · exact keeps_refuse hs 403
      exact keeps_begun hs hresolve fun _ _ _ hverb => nomatch hverb
  | swept =>
    obtain ⟨hresolves, hsingle, -⟩ := hfact user x _ rfl
    rw [davPut]
    split
    · exact keeps_refuse hs 423
    · next hfree =>
      refine keeps_stay hs ?_
      intro user' x' verb heq
      obtain ⟨rfl, rfl, rfl⟩ := Request.dav.inj heq
      exact ⟨hresolves, fun l hl hx _ => clear_of_lockBlocks hsingle hfree l hl hx⟩
  | checked held =>
    obtain ⟨-, hclear⟩ := hfact user x _ rfl
    rw [davPut]
    split
    · exact keeps_refuse hs 412
    split
    · exact keeps_refuse hs 412
    refine keeps_stay hs ⟨rfl, ?_⟩
    intro wr hwr
    obtain rfl := List.mem_singleton.mp hwr
    exact ⟨List.mem_singleton_self _, hclear, nofun⟩
  | writing writes => exact keeps_done hs

theorem davDelete_keeps (hs : Sound acc w) (choice : Nat) {user : Bytes} {ifMatch : Bytes}
    (hfact : Fact acc w (.dav user x (.delete ifHeader ifMatch)) stage) :
    Keeps acc w (.dav user x (.delete ifHeader ifMatch))
      (davDelete acc choice user x ifHeader ifMatch w stage) := by
  cases stage with
  | begun =>
    rw [davDelete]
    split
    · next area f hresolve hload =>
      split
      · exact keeps_refuse hs 412
      split
      · exact keeps_refuse hs 403
      exact keeps_begun hs hresolve fun _ _ _ hverb => nomatch hverb
    · exact keeps_refuse hs 404
  | swept =>
    obtain ⟨hresolves, hsingle, -⟩ := hfact user x _ rfl
    rw [davDelete]
    split
    · exact keeps_refuse hs 423
    · next hfree =>
      refine keeps_stay hs ⟨rfl, ?_⟩
      intro wr hwr
      obtain rfl := List.mem_singleton.mp hwr
      exact ⟨List.mem_singleton_self _,
        fun l hl hx _ => clear_of_lockBlocks hsingle hfree l hl hx, nofun⟩
  | checked held => exact keeps_done hs
  | writing writes => exact keeps_done hs

/-! ### Writes -/

/-- A write changes the files of its resource and no table of locks. -/
theorem keeps_shelf (hs : Sound acc w) (hw : r.writes = true) {shelf : Shelf} {writes : List Write}
    (hclear : Clear w r x) (hnumbered : Numbered shelf)
    (hother : ∀ y, x ≠ y → filesAt shelf y = filesAt w.shelf y)
    (hnext : w.shelf.next ≤ shelf.next)
    (hfiles : ∀ f ∈ shelf.files, f ∈ w.shelf.files ∨ w.shelf.next ≤ f.msgnum)
    (hready : ∀ wr ∈ writes, Ready { w with shelf := shelf } r wr) :
    Keeps acc w r ({ w with shelf := shelf }, .goOn (.writing writes)) := by
  refine ⟨rfl, ?_, ?_, ?_, ?_⟩
  · exact ⟨hs.tokens, hs.named, hs.drawn, hs.bounded, hs.one, hs.resolves, hs.granted, hnumbered⟩
  · intro stage heq
    obtain rfl := Next.goOn.inj heq
    exact ⟨hw, hready⟩
  · intro xs _
    exact ⟨Nat.le_refl _, fun _ h => h, fun l hl _ => hl, fun l hl _ _ => hl,
      fun l hl => .inl ⟨l, hl, rfl, rfl⟩, hnext, hfiles⟩
  · intro y hne
    by_cases hxy : x = y
    · exact hxy ▸ hclear
    · exact absurd (hother y hxy) hne

theorem Ready.of_shelf {shelf : Shelf} {wr : Write} (h : Ready w r wr)
    (hnext : w.shelf.next ≤ shelf.next)
    (hfiles : ∀ f ∈ shelf.files, f ∈ w.shelf.files ∨ w.shelf.next ≤ f.msgnum) :
    Ready { w with shelf := shelf } r wr := by
  refine ⟨h.target, h.clear, fun x msgnum heq => ?_⟩
  obtain ⟨hlt, hold⟩ := h.number x msgnum heq
  refine ⟨Nat.lt_of_lt_of_le hlt hnext, fun f hf hm => ?_⟩
  rcases hfiles f hf with hmem | hnew
  · exact hold f hmem hm
  · omega

theorem keeps_unlink (hs : Sound acc w) (hw : r.writes = true) {msgnum : Nat} {writes : List Write}
    (hclear : Clear w r x) (hnumber : ∀ f ∈ w.shelf.files, f.msgnum = msgnum → f.resource = x)
    (hready : ∀ wr ∈ writes, Ready w r wr) :
    Keeps acc w r
      ({ w with shelf := unlinkFile x.1 msgnum w.shelf }, .goOn (.writing writes)) := by
  have hfiles : ∀ f ∈ (unlinkFile x.1 msgnum w.shelf).files,
      f ∈ w.shelf.files ∨ w.shelf.next ≤ f.msgnum := fun f hf => .inl (mem_unlinkFile.mp hf).1
  refine keeps_shelf hs hw hclear (hs.numbered.unlink x.1 msgnum) ?_ (Nat.le_refl _) hfiles
    fun wr hwr => (hready wr hwr).of_shelf (Nat.le_refl _) hfiles
  intro y hxy
  exact filesAt_unlinkFile (fun f hf hm hy => hxy ((hnumber f hf hm).symm.trans hy)) x.1

theorem write_keeps (mime : Bytes → Bytes → Bytes × Bytes) (hs : Sound acc w) (full : Bool)
    (hw : r.writes = true) {writes : List Write} (hready : ∀ wr ∈ writes, Ready w r wr) :
    Keeps acc w r (write mime full w writes) := by
  cases writes with
  | nil => exact keeps_done hs
  | cons wr writes =>
    obtain ⟨hfirst, hrest⟩ := List.forall_mem_cons.mp hready
    cases wr with
    | put x u failure =>
      rw [write]
      split
      · exact keeps_refuse hs failure
      have hfiles : ∀ f ∈ (insertFile mime w.now x u w.shelf).files,
          f ∈ w.shelf.files ∨ w.shelf.next ≤ f.msgnum := by
        intro f hf
        rcases List.mem_cons.mp hf with rfl | hf
        · exact .inr (Nat.le_refl _)
        · exact .inl hf
      have hnext : w.shelf.next ≤ (insertFile mime w.now x u w.shelf).next := Nat.le_succ _
      refine keeps_shelf hs hw hfirst.clear (hs.numbered.insert mime w.now x u)
        (fun y hxy => filesAt_insertFile hxy mime w.now u w.shelf) hnext hfiles ?_
      intro wr hwr
      rcases List.mem_append.mp hwr with hold | hlater
      · -- the message that was there before has the number of a file of this resource
        rw [Option.mem_toList, Option.map_eq_some_iff] at hold
        obtain ⟨f, hfound, rfl⟩ := hold
        obtain ⟨hf, hfx⟩ := getFile_some hfound
        refine ⟨hfirst.target, hfirst.clear, fun x' msgnum heq => ?_⟩
        obtain ⟨rfl, rfl⟩ := Write.unlink.inj heq
        have hlt := hs.numbered.below f hf
        refine ⟨Nat.lt_of_lt_of_le hlt hnext, fun g hg hm => ?_⟩
        rcases hfiles g hg with hmem | hnew
        · rw [hs.numbered.unique g hmem f hf hm]
          exact hfx
        · omega
      · exact (hrest wr hlater).of_shelf hnext hfiles
    | unlink x msgnum =>
      exact keeps_unlink hs hw hfirst.clear (hfirst.number x msgnum rfl).2 hrest
    | remove x failure =>
      rw [write.eq_def]
      dsimp only
      split
      · next f hfound =>
        obtain ⟨hf, hfx⟩ := getFile_some hfound
        refine keeps_unlink hs hw hfirst.clear (fun g hg hm => ?_) hrest
        rw [hs.numbered.unique g hg f hf hm]
        exact hfx
      · exact keeps_refuse hs _
      · exact keeps_stay hs ⟨hw, hrest⟩

/-- What FTP and SFTP write is what the command is about. -/
theorem plan_targets {user : Bytes} {shelf : Shelf} {t : Transfer} {writes : List Write}
    (h : plan acc user shelf t = .ok writes) :
    ∀ wr ∈ writes, wr.resource ∈ t.targets ∧ ∀ x msgnum, wr ≠ .unlink x msgnum := by
  cases t with
  | stor area arg content =>
    rw [plan] at h
    split at h
    · cases h
    split at h
    · cases h
    obtain rfl := Except.ok.inj h
    simp [Transfer.targets, Write.resource]
  | dele area arg =>
    rw [plan] at h
    split at h
    · cases h
    obtain rfl := Except.ok.inj h
    simp [Transfer.targets, Write.resource]
  | rnto area source arg =>
    rw [plan] at h
    split at h
    · cases h
    split at h
    · cases h
    split at h
    · cases h
    obtain rfl := Except.ok.inj h
    simp [Transfer.targets, Write.resource]
  | close area path content contentType =>
    rw [plan] at h
    split at h
    · cases h
    obtain rfl := Except.ok.inj h
    simp [Transfer.targets, Write.resource]
  | remove area path =>
    rw [plan] at h
    split at h
    · cases h
    obtain rfl := Except.ok.inj h
    simp [Transfer.targets, Write.resource]
  | rename sourceArea source targetArea target =>
    rw [plan] at h
    split at h
    · cases h
    split at h
    · cases h
    split at h
    · cases h
    obtain rfl := Except.ok.inj h
    simp [Transfer.targets, Write.resource]

/-- What one statement leaves. -/
theorem statement_keeps (mime : Bytes → Bytes → Bytes × Bytes) (hs : Sound acc w) (choice : Nat)
    (full : Bool) (hfact : Fact acc w r stage)
    (hproper : Proper acc w r stage) :
    Keeps acc w r (statement acc mime choice full w r stage) := by
  rw [statement.eq_def]
  split
  · exact write_keeps mime hs full hfact.1 hfact.2
  · exact davLock_keeps hs choice hfact hproper
  · exact davUnlock_keeps hs choice hfact
  · exact davPut_keeps hs choice hfact
  · exact davDelete_keeps hs choice hfact
  · next user t =>
    split
    · exact keeps_refuse hs _
    · next writes hplan =>
      refine keeps_stay hs ⟨rfl, fun wr hwr => ?_⟩
      obtain ⟨htarget, hkind⟩ := plan_targets hplan wr hwr
      refine ⟨htarget, fun l hl hx hnow => ?_, fun x msgnum heq => absurd heq (hkind x msgnum)⟩
      by_contra hother
      have hexpired := hproper writes hplan wr hwr l hl hx fun heq => hother (.inl heq)
      omega
  · exact keeps_done hs

end Statements

/-! ## UNLOCK by the holder -/

/-- While a lock that was granted has not expired, its holder's UNLOCK with its token is
    refused at no statement, and leaves the resource without a lock. -/
theorem davUnlock_released (hs : Sound acc w) {g : Lock}
    (hg : g ∈ w.grants) (hnow : w.now ≤ g.expiresAt) {header : Bytes}
    (htoken : unlockToken header = g.token) (choice : Nat) {stage : Stage}
    (hfact : Fact acc w (.dav g.username g.resource (.unlock header)) stage) {a : Answer}
    (hanswer : (davUnlock acc choice g.username g.resource header w stage).2 = .answer a) :
    a = .unlocked ∧ ∀ l ∈ (davUnlock acc choice g.username g.resource header w stage).1.locks,
      l.resource ≠ g.resource := by
  obtain ⟨l, hl, hltoken, hlresource, hlusername, -⟩ := hs.granted g hg hnow
  have hne : g.token ≠ [] := hltoken ▸ hs.named l hl
  cases stage with
  | begun =>
    have hresolves := hs.resolves l hl
    rw [hlusername, hlresource] at hresolves
    obtain ⟨area, hresolve⟩ := Option.isSome_iff_exists.mp hresolves
    rw [davUnlock, hresolve] at hanswer
    cases hanswer
  | swept =>
    obtain ⟨-, hsingle, -⟩ := hfact g.username g.resource _ rfl
    have hfind := hsingle.lockOn hl hlresource choice
    rw [davUnlock, htoken, if_neg hne, hfind] at hanswer
    dsimp only at hanswer
    rw [if_neg (not_not.mpr hltoken), if_neg fun h => h.1 hlusername] at hanswer
    cases hanswer
  | checked held =>
    obtain ⟨-, -, hiff⟩ := hfact g.username g.resource _ rfl
    refine ⟨(Next.answer.inj hanswer).symm, fun l' hl' hx => ?_⟩
    obtain ⟨hmem, hother⟩ := List.mem_filter.mp hl'
    rw [decide_eq_true ((hiff l' hmem).mpr hx)] at hother
    cases hother
  | writing writes => cases hfact.1

/-! ## Runs -/

section Runs

variable {κ : Type*} [DecidableEq κ]

/-- Both requests write files, or they are about different resources. -/
def Request.Agrees (r r' : Request) : Prop :=
  r.writes = true ∧ r'.writes = true ∨ ∀ x ∈ r.targets, x ∉ r'.targets

instance (r r' : Request) : Decidable (r.Agrees r') :=
  inferInstanceAs (Decidable (_ ∧ _ ∨ ∀ x ∈ r.targets, x ∉ r'.targets))

/-- What must hold before an event: while a LOCK or UNLOCK is in progress no other request
    about its resource is, and statements are proper. -/
def Orderly (acc : Access) (s : System κ) : Event κ → Prop
  | .tick _ => True
  | .start k r => s.busy k = none → ∀ j, ∀ p ∈ s.busy j, r.Agrees p.1
  | .advance k _ _ => ∀ p ∈ s.busy k, Proper acc s.shared p.1 p.2

def OrderlyRun (acc : Access) (mime : Bytes → Bytes → Bytes × Bytes) :
    System κ → List (Event κ) → Prop
  | _, [] => True
  | s, e :: events => Orderly acc s e ∧ OrderlyRun acc mime (step acc mime s e).1 events

/-- One unexpired lock at most is about a resource. -/
def OnePer (w : Shared) : Prop :=
  ∀ x, (w.locks.filter fun l => decide (l.resource = x ∧ w.now ≤ l.expiresAt)).length ≤ 1

/-- A file with an unexpired lock is changed by its holder, or by who quotes the token. -/
def Guarded (acc : Access) (mime : Bytes → Bytes → Bytes × Bytes) (s : System κ) (e : Event κ) :
    Prop :=
  ∀ l ∈ s.shared.locks, s.shared.now ≤ l.expiresAt →
    filesAt (step acc mime s e).1.shared.shelf l.resource ≠ filesAt s.shared.shelf l.resource →
      ∃ k choice full r stage, e = .advance k choice full ∧ s.busy k = some (r, stage) ∧
        (l.username = r.user ∨ l.token ∈ r.quoted)

/-- Until a lock that was granted expires, its holder's UNLOCK with its token succeeds and
    leaves the resource unlocked. -/
def Released (acc : Access) (mime : Bytes → Bytes → Bytes × Bytes) (s : System κ)
    (e : Event κ) : Prop :=
  ∀ g ∈ s.shared.grants, s.shared.now ≤ g.expiresAt →
    ∀ k choice full header stage a, e = .advance k choice full →
      s.busy k = some (.dav g.username g.resource (.unlock header), stage) →
      unlockToken header = g.token → (step acc mime s e).2 = some a →
        a = .unlocked ∧ ∀ l ∈ (step acc mime s e).1.shared.locks, l.resource ≠ g.resource

/-- What the locks of a file area promise of a run. -/
def Excludes (acc : Access) (mime : Bytes → Bytes → Bytes × Bytes) (s : System κ)
    (events : List (Event κ)) : Prop :=
  OnePer (run acc mime s events).shared ∧
    ∀ before e after, events = before ++ e :: after →
      Guarded acc mime (run acc mime s before) e ∧ Released acc mime (run acc mime s before) e

variable {r : Request} {k : κ} {e : Event κ}

theorem Request.Agrees.symm {r' : Request} (h : r.Agrees r') : r'.Agrees r := by
  rcases h with ⟨hr, hr'⟩ | hdisjoint
  · exact .inl ⟨hr', hr⟩
  · exact .inr fun x hx hx' => hdisjoint x hx' hx

/-- The requests in progress do not get in each other's way. -/
def Apiece (s : System κ) : Prop :=
  ∀ j k, j ≠ k → ∀ p ∈ s.busy j, ∀ q ∈ s.busy k, p.1.Agrees q.1

structure Inv (acc : Access) (s : System κ) : Prop where
  sound : Sound acc s.shared
  facts : ∀ k, ∀ p ∈ s.busy k, Fact acc s.shared p.1 p.2
  apiece : Apiece s

omit [DecidableEq κ] in
theorem inv_fresh (acc : Access) (now : Nat) {shelf : Shelf} (h : Numbered shelf) :
    Inv acc (fresh now shelf : System κ) :=
  ⟨⟨List.nodup_nil, nofun, nofun, nofun, nofun, nofun, nofun, h⟩, nofun, nofun⟩

variable {acc : Access} {mime : Bytes → Bytes → Bytes × Bytes} {s : System κ}

/-- Time passes. -/
theorem inv_tick (h : Inv acc s) (seconds : Nat) : Inv acc (step acc mime s (.tick seconds)).1 := by
  have hlater : s.shared.now ≤ s.shared.now + seconds := Nat.le_add_right _ _
  have hs := h.sound
  refine ⟨⟨hs.tokens, hs.named, hs.drawn, fun l hl => ?_, fun l hl l' hl' heq hnow hnow' => ?_,
    hs.resolves, fun g hg hnow => ?_, hs.numbered⟩, fun k p hp => ?_, h.apiece⟩
  · have hbound := hs.bounded l hl
    change l.expiresAt ≤ s.shared.now + seconds + kLockSeconds
    omega
  · exact hs.one l hl l' hl' heq (Nat.le_trans hlater hnow) (Nat.le_trans hlater hnow')
  · exact hs.granted g hg (Nat.le_trans hlater hnow)
  · refine (h.facts k p hp).of_apart ⟨hlater, fun _ ht => ht, fun _ hl _ => hl,
      fun _ hl _ _ => hl, fun l hl => .inl ⟨l, hl, rfl, rfl⟩, Nat.le_refl _, fun _ hf => .inl hf⟩

theorem inv_start (h : Inv acc s) (ho : Orderly acc s (.start k r)) :
    Inv acc (step acc mime s (.start k r)).1 := by
  cases hbusy : s.busy k with
  | some p =>
    rw [step, hbusy]
    exact h
  | none =>
    have hapart := ho hbusy
    rw [step, hbusy]
    refine ⟨h.sound, fun j p hp => ?_, fun i j hij p hp q hq => ?_⟩
    · dsimp only at hp
      rw [Function.update_apply] at hp
      split at hp
      · obtain rfl := Option.some.inj hp
        trivial
      · exact h.facts j p hp
    · dsimp only at hp hq
      rw [Function.update_apply] at hp hq
      split at hp
      · next hik =>
        obtain rfl := Option.some.inj hp
        rw [if_neg fun hjk => hij (hik.trans hjk.symm)] at hq
        exact hapart j q hq
      · split at hq
        · obtain rfl := Option.some.inj hq
          exact (hapart i p hp).symm
        · exact h.apiece i j hij p hp q hq

variable (acc mime) in
/-- What an event of a busy session does. -/
theorem step_advance {stage : Stage} (hbusy : s.busy k = some (r, stage))
    (choice : Nat) (full : Bool) :
    ∃ entry, (step acc mime s (.advance k choice full)).1 =
        ⟨(statement acc mime choice full s.shared r stage).1, Function.update s.busy k entry⟩ ∧
      (∀ p ∈ entry, p.1 = r ∧
        (statement acc mime choice full s.shared r stage).2 = .goOn p.2) ∧
      ∀ a, (step acc mime s (.advance k choice full)).2 = some a →
        (statement acc mime choice full s.shared r stage).2 = .answer a := by
  rw [step, hbusy]
  dsimp only
  split
  · next w stage' heq =>
    refine ⟨some (r, stage'), by rw [heq], fun p hp => ?_, nofun⟩
    obtain rfl := Option.some.inj hp
    exact ⟨rfl, by rw [heq]⟩
  · next w a heq =>
    refine ⟨none, by rw [heq], nofun, fun a' ha => ?_⟩
    rw [heq, Option.some.inj ha]

theorem inv_advance (h : Inv acc s) {choice : Nat} {full : Bool}
    (ho : Orderly acc s (.advance k choice full)) :
    Inv acc (step acc mime s (.advance k choice full)).1 := by
  cases hbusy : s.busy k with
  | none =>
    rw [step, hbusy]
    exact h
  | some p =>
    obtain ⟨entry, heq, hentry, -⟩ := step_advance acc mime hbusy choice full
    have hkeeps := statement_keeps mime h.sound choice full (h.facts k _ hbusy) (ho _ hbusy)
    rw [heq]
    refine ⟨hkeeps.sound, fun j p hp => ?_, fun i j hij p hp q hq => ?_⟩
    · dsimp only at hp ⊢
      rw [Function.update_apply] at hp
      split at hp
      · obtain ⟨hr, hnext⟩ := hentry p hp
        rw [hr]
        exact hkeeps.fact p.2 hnext
      · next hjk =>
        refine (h.facts j p hp).of_apart (hkeeps.apart _ ?_)
        exact (h.apiece j k hjk p hp _ hbusy).symm.imp_left And.left
    · dsimp only at hp hq
      rw [Function.update_apply] at hp hq
      split at hp
      · next hik =>
        rw [if_neg fun hjk => hij (hik.trans hjk.symm)] at hq
        rw [(hentry p hp).1]
        exact h.apiece k j (fun hkj => hij (hik.trans hkj)) _ hbusy q hq
      · next hik =>
        split at hq
        · rw [(hentry q hq).1]
          exact h.apiece i k hik p hp _ hbusy
        · exact h.apiece i j hij p hp q hq

theorem inv_step (h : Inv acc s) (ho : Orderly acc s e) : Inv acc (step acc mime s e).1 := by
  cases e with
  | tick seconds => exact inv_tick h seconds
  | start k r => exact inv_start h ho
  | advance k choice full => exact inv_advance h ho

theorem inv_run (events : List (Event κ)) : ∀ {s : System κ}, Inv acc s →
    OrderlyRun acc mime s events → Inv acc (run acc mime s events) := by
  induction events with
  | nil => exact fun h _ => h
  | cons e events ih => exact fun h ho => ih (inv_step h ho.1) ho.2

theorem OrderlyRun.split {events : List (Event κ)} {after : List (Event κ)} :
    ∀ {s : System κ}, OrderlyRun acc mime s (events ++ e :: after) →
      OrderlyRun acc mime s events ∧ Orderly acc (run acc mime s events) e := by
  induction events with
  | nil => exact fun h => ⟨trivial, h.1⟩
  | cons d events ih =>
    intro s h
    obtain ⟨hfirst, hrest⟩ := h
    obtain ⟨hevents, he⟩ := ih hrest
    exact ⟨⟨hfirst, hevents⟩, he⟩

/-! ## What holds in orderly runs -/

theorem onePer_of_sound {w : Shared} (h : Sound acc w) : OnePer w := by
  intro x
  have hnodup : (w.locks.filter fun l =>
      decide (l.resource = x ∧ w.now ≤ l.expiresAt)).Nodup :=
    (List.Nodup.of_map Lock.token h.tokens).filter _
  have hmem : ∀ l ∈ w.locks.filter fun l => decide (l.resource = x ∧ w.now ≤ l.expiresAt),
      l ∈ w.locks ∧ l.resource = x ∧ w.now ≤ l.expiresAt := by
    intro l hl
    rw [List.mem_filter, decide_eq_true_eq] at hl
    exact hl
  revert hnodup hmem
  cases w.locks.filter fun l => decide (l.resource = x ∧ w.now ≤ l.expiresAt) with
  | nil => exact fun _ _ => Nat.zero_le _
  | cons l rows =>
    cases rows with
    | nil => exact fun _ _ => Nat.le_refl _
    | cons l' rows =>
      intro hnodup hmem
      obtain ⟨hl, hx, hnow⟩ := hmem l List.mem_cons_self
      obtain ⟨hl', hx', hnow'⟩ := hmem l' (List.mem_cons_of_mem _ List.mem_cons_self)
      have hsame := h.one l hl l' hl' (hx.trans hx'.symm) hnow hnow'
      rw [hsame] at hnodup
      exact absurd List.mem_cons_self (List.nodup_cons.mp hnodup).1

theorem guarded_of_orderly (h : Inv acc s) (ho : Orderly acc s e) : Guarded acc mime s e := by
  intro l hl hnow hchanged
  cases e with
  | tick seconds => exact absurd rfl hchanged
  | start k r =>
    refine absurd ?_ hchanged
    rw [step]
    split <;> rfl
  | advance k choice full =>
    cases hbusy : s.busy k with
    | none =>
      refine absurd ?_ hchanged
      rw [step, hbusy]
    | some p =>
      obtain ⟨r, stage⟩ := p
      obtain ⟨entry, heq, -, -⟩ := step_advance acc mime hbusy choice full
      have hkeeps := statement_keeps mime h.sound choice full (h.facts k _ hbusy) (ho _ hbusy)
      rw [heq] at hchanged
      exact ⟨k, choice, full, r, stage, rfl, hbusy, hkeeps.files _ hchanged l hl rfl hnow⟩

theorem released_of_inv (h : Inv acc s) (e : Event κ) : Released acc mime s e := by
  rintro g hg hnow k choice full header stage a rfl hbusy htoken hanswer
  have hfact := h.facts k _ hbusy
  obtain ⟨entry, heq, -, hstatement⟩ :=
    step_advance acc mime hbusy choice full
  have hanswer := hstatement a hanswer
  have hunlock : statement acc mime choice full s.shared
      (.dav g.username g.resource (.unlock header)) stage =
      davUnlock acc choice g.username g.resource header s.shared stage := by
    cases stage with
    | writing writes => cases hfact.1
    | begun => rfl
    | swept => rfl
    | checked held => rfl
  rw [hunlock] at hanswer heq
  rw [heq]
  exact davUnlock_released h.sound hg hnow htoken choice hfact hanswer

/-- Where nothing overlaps with a LOCK or UNLOCK of the same resource, nobody locks what he
    has locked, and FTP and SFTP write nothing that another user has locked, locks exclude
    others and can be released. -/
theorem excludes_of_orderly (acc : Access) (mime : Bytes → Bytes → Bytes × Bytes) (now : Nat)
    (shelf : Shelf) (hshelf : Numbered shelf) (events : List (Event κ))
    (ho : OrderlyRun acc mime (fresh now shelf) events) :
    Excludes acc mime (fresh now shelf) events := by
  have hfresh : Inv acc (fresh now shelf : System κ) := inv_fresh acc now hshelf
  refine ⟨onePer_of_sound (inv_run events hfresh ho).sound, ?_⟩
  rintro before e after rfl
  obtain ⟨hbefore, he⟩ := ho.split
  have hinv := inv_run before hfresh hbefore
  exact ⟨guarded_of_orderly hinv he, released_of_inv hinv e⟩

end Runs

/-! ## Two runs -/

def shared : Area := ⟨7, bytes "Plans", qrDirectory + qrUpload + qrDownload + qrVisDir⟩

/-- Everybody may do everything in one area. -/
def everyone : Access :=
  ⟨fun _ => [shared], fun _ room => if room = 7 then some shared else none, fun _ _ => bytes "ri",
    fun _ _ => true⟩

def document : Resource := (7, bytes "plan.txt")

/-- LOCK by ann with a token of these digits, up to its answer. -/
def locks (hex : Bytes) : List (Event (Fin 2)) :=
  [.start 0 (.dav (bytes "ann") document (.lock hex [] (some ⟨false, bytes "ann"⟩))),
    .advance 0 0 false, .advance 0 0 false, .advance 0 0 false]

/-- Ann locks a file, bob's PUT is refused, and ann unlocks. -/
def locked : List (Event (Fin 2)) :=
  locks (bytes "a1") ++
    [.start 1 (.dav (bytes "bob") document (.put (bytes "x") [] [] [] [])), .advance 1 0 false,
      .advance 1 0 false,
      .start 0 (.dav (bytes "ann") document (.unlock (bytes "<opaquelocktoken:a1>"))),
      .advance 0 0 false, .advance 0 0 false, .advance 0 0 false]

theorem excludes_of_orderly_locked :
    Numbered ⟨[], 1⟩ ∧ OrderlyRun everyone Prod.mk (fresh 0 ⟨[], 1⟩) locked ∧
      Excludes everyone Prod.mk (fresh 0 ⟨[], 1⟩) locked := by
  have hnumbered : Numbered ⟨[], 1⟩ := ⟨nofun, nofun⟩
  have horderly : OrderlyRun everyone Prod.mk (fresh 0 ⟨[], 1⟩) locked := by
    refine ⟨fun _ => ?_, ?_, ?_, ?_, fun _ => ?_, ?_, ?_, fun _ => ?_, ?_, ?_, ?_, trivial⟩
    · decide +kernel
    · rintro p ⟨⟩ - l hl
      cases hl
    · rintro p ⟨⟩
      trivial
    · rintro p ⟨⟩
      exact List.not_mem_nil
    · decide +kernel
    · rintro p ⟨⟩
      trivial
    · rintro p ⟨⟩
      trivial
    · decide +kernel
    · rintro p ⟨⟩
      trivial
    · rintro p ⟨⟩
      trivial
    · rintro p ⟨⟩
      trivial
  exact ⟨hnumbered, horderly, excludes_of_orderly _ _ _ _ hnumbered _ horderly⟩

/-- Ann locks a file twice, and there are two locks on it. -/
theorem not_excludes_twice :
    ¬Excludes everyone Prod.mk (fresh 0 ⟨[], 1⟩) (locks (bytes "a1") ++ locks (bytes "a2")) := by
  intro h
  have hone := h.1 document
  revert hone
  decide +kernel

end QuackMail.Files
