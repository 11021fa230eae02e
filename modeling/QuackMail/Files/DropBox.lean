import QuackMail.Files.Ftp
import QuackMail.Files.Sftp

/-! # Drop boxes

An area whose files may not be fetched keeps their octets to itself, and one that may not be
listed keeps their names.  SFTP reads the bytes that a handle for writing has kept, and moves
files out of an area, without asking; FTP asks only when an area is entered, and a login does
not leave it.
-/

namespace QuackMail.Files

/-! ## Rights -/

variable {acc : Access} {area : Area}

theorem canList_of_canDownload {user : Bytes}
    (h : canDownload acc user area = true) : canList acc user area = true := by
  simp only [canDownload, Bool.and_eq_true] at h
  obtain ⟨⟨harea, hdownload⟩, hread⟩ := h
  rw [canList, harea, hread, hdownload]
  simp

theorem not_full_of_putFile {d : Depot} {room : Nat} {name : Bytes} {u : Upload}
    {shelf shelf' : Shelf} (h : putFile d room name u shelf = some shelf') : d.full = false := by
  rw [putFile] at h
  split at h
  · cases h
  split at h
  · cases h
  · next hfull => simpa using hfull

theorem canList_of_findArea {user name : Bytes}
    (h : findArea acc user name = some area) : canList acc user area = true := by
  have hmem := List.mem_of_find?_eq_some h
  rw [visibleAreas, List.mem_filter] at hmem
  simp only [Bool.and_eq_true] at hmem
  exact hmem.2.1.2

theorem canList_of_resolve {user : Bytes} {parts : List Bytes}
    (h : Sftp.resolve acc user parts = some area) : canList acc user area = true := by
  rw [Sftp.resolve.eq_def] at h
  split at h
  · exact canList_of_findArea h
  · exact canList_of_findArea h
  · cases h

/-! ## What may be disclosed -/

/-- The octets are the peer's own or of files that the user may fetch. -/
def Fetchable (acc : Access) (user : Bytes) (octets : List Octet) : Prop :=
  ∀ o ∈ octets, ∀ area ∈ o.origin, canDownload acc user area = true

/-- What may be told to a user, or left where the user may fetch it. -/
def Closed (acc : Access) (user : Bytes) : Disclosed → Prop
  | .reply octets => Fetchable acc user octets
  | .deposit area octets => canDownload acc user area = true → Fetchable acc user octets
  | .names area => canList acc user area = true

theorem fetchable_fromPeer (acc : Access) (user data : Bytes) :
    Fetchable acc user (fromPeer data) := by
  intro o ho area harea
  obtain ⟨c, -, rfl⟩ := List.mem_map.mp ho
  cases harea

theorem origin_fromFile {content : Bytes} {o : Octet}
    (h : o ∈ fromFile area content) : o.origin = some area := by
  obtain ⟨c, -, rfl⟩ := List.mem_map.mp h
  rfl

theorem fetchable_fromFile {user : Bytes} (h : canDownload acc user area = true) (content : Bytes) :
    Fetchable acc user (fromFile area content) := by
  intro o ho area' harea
  rw [origin_fromFile ho] at harea
  obtain rfl := Option.some.inj harea
  exact h

/-! ## Connections -/

inductive Connection where
  | sftp (s : Sftp.Session)
  | ftp (s : Ftp.Session)

inductive Asked where
  | sftp (r : Sftp.Request)
  | ftp (c : Ftp.Command)

/-- A request, and the files and the store it meets: others have been at work in between. -/
structure Visit where
  asked : Asked
  shelf : Shelf
  depot : Depot

/-- The user for whom a request is carried out. -/
def Connection.user : Connection → Bytes
  | .sftp s => s.username
  | .ftp s => s.username

section Connections

variable (v : Ftp.Server) (acc : Access) (mayCreateRoom : Bytes → Bool)

/-- One request; a connection that has ended, or that speaks the other protocol, does
    nothing. -/
def Connection.step (c : Connection) (e : Visit) : Connection × List Disclosed :=
  match c, e.asked with
  | .sftp s, .sftp r =>
    let out := Sftp.dispatch acc mayCreateRoom e.depot s e.shelf r
    (.sftp out.session, out.disclosed)
  | .ftp s, .ftp cmd =>
    if s.ended then (.ftp s, [])
    else
      let out := Ftp.handle v acc e.depot s e.shelf cmd
      (.ftp out.session, out.disclosed)
  | c, _ => (c, [])

/-- What a connection discloses, and to whom. -/
def Connection.disclosures : Connection → List Visit → List (Bytes × Disclosed)
  | _, [] => []
  | c, e :: visits =>
    (c.step v acc mayCreateRoom e).2.map (fun d => (c.user, d)) ++
      (c.step v acc mayCreateRoom e).1.disclosures visits

/-- A rename that goes through. -/
def Moves (user : Bytes) (e : Visit) (source target : Area) (name newName : Bytes) : Prop :=
  canPost acc user source = true ∧ canUpload acc user target = true ∧ sanitizeName newName ≠ [] ∧
    getFile e.shelf (target.roomNum, sanitizeName newName) = none ∧
    (getFile e.shelf (source.roomNum, name)).isSome = true ∧ e.depot.full = false

/-- What must hold of a request for it to disclose nothing that is closed. -/
def Discreet (c : Connection) (e : Visit) : Prop :=
  match c, e.asked with
  -- what a handle for writing has kept of a file is read only where it may be fetched
  | .sftp s, .sftp (.read key offset len) =>
    ∀ hd, Sftp.findHandle s key = some hd → hd.kind = .write →
      (∃ o ∈ (hd.content.drop offset).take (min len Sftp.kMaxRead), o.origin ≠ none) →
        ∀ area ∈ hd.area, canDownload acc s.username area = true
  -- a file is moved to where it may be fetched only from where it may be
  | .sftp s, .sftp (.rename source target) =>
    ∀ area area', Sftp.resolve acc s.username (Sftp.splitPath source) = some area →
      Sftp.resolve acc s.username (Sftp.splitPath target) = some area' →
      Moves acc s.username e area area' (Sftp.fileName (Sftp.splitPath source))
        (Sftp.fileName (Sftp.splitPath target)) →
      canDownload acc s.username area' = true → canDownload acc s.username area = true
  -- who logs in may list the area the session is in
  | .ftp s, .ftp (.pass arg) =>
    v.verify s.userGiven arg = true → s.inRoom = true ∨ s.renameFrom ≠ [] →
      canList acc s.userGiven s.room = true
  | _, _ => True

def DiscreetRun : Connection → List Visit → Prop
  | _, [] => True
  | c, e :: visits =>
    Discreet v acc c e ∧ DiscreetRun (c.step v acc mayCreateRoom e).1 visits

end Connections

/-! ## SFTP -/

section Sftp

variable {acc : Access} {mayCreateRoom : Bytes → Bool} {d : Depot} {s : Sftp.Session}
  {shelf : Shelf}

/-- What holds of an open handle. -/
structure HandleOk (acc : Access) (user : Bytes) (hd : Sftp.Handle) : Prop where
  reading : hd.kind = .read → Fetchable acc user hd.content
  origin : ∀ o ∈ hd.content, ∀ area ∈ o.origin, hd.area = some area
  listing : ∀ area ∈ hd.area, canList acc user area = true

def HandlesOk (acc : Access) (s : Sftp.Session) : Prop :=
  ∀ entry ∈ s.handles, HandleOk acc s.username entry.2

/-- A request leaves good handles and discloses nothing that is closed. -/
structure Safe (acc : Access) (s : Sftp.Session) (out : Sftp.Outcome) : Prop where
  user : out.session.username = s.username
  handles : HandlesOk acc out.session
  closed : ∀ x ∈ out.disclosed, Closed acc s.username x

variable {hd : Sftp.Handle} {disclosed : List Disclosed}

theorem HandlesOk.find (h : HandlesOk acc s) {key : Bytes}
    (hfind : Sftp.findHandle s key = some hd) : HandleOk acc s.username hd := by
  rw [Sftp.findHandle, Option.map_eq_some_iff] at hfind
  obtain ⟨entry, hentry, rfl⟩ := hfind
  exact h entry (List.mem_of_find?_eq_some hentry)

theorem HandlesOk.erase (h : HandlesOk acc s) (key : Bytes) :
    HandlesOk acc { s with handles := Sftp.eraseHandle s key } :=
  fun entry hentry => h entry (List.mem_filter.mp hentry).1

theorem HandlesOk.set (h : HandlesOk acc s) (key : Bytes)
    (hok : HandleOk acc s.username hd) : HandlesOk acc (Sftp.setHandle s key hd) := by
  intro entry hentry
  rcases List.mem_cons.mp hentry with rfl | hentry
  · exact hok
  · exact h entry (List.mem_filter.mp hentry).1

theorem safe_answer (h : HandlesOk acc s) (reply : Sftp.Reply)
    (hclosed : ∀ x ∈ disclosed, Closed acc s.username x) :
    Safe acc s (Sftp.answer s shelf reply disclosed) := ⟨rfl, h, hclosed⟩

theorem safe_fail (h : HandlesOk acc s) (code : Sftp.Code) (message : String)
    (hclosed : ∀ x ∈ disclosed, Closed acc s.username x) :
    Safe acc s (Sftp.fail s shelf code message disclosed) := ⟨rfl, h, hclosed⟩

theorem closed_names {area : Area} (h : canList acc s.username area = true) :
    ∀ x ∈ [Disclosed.names area], Closed acc s.username x := by
  intro x hx
  obtain rfl := List.mem_singleton.mp hx
  exact h

theorem safe_addHandle (h : HandlesOk acc s) (hok : HandleOk acc s.username hd)
    (hclosed : ∀ x ∈ disclosed, Closed acc s.username x) :
    Safe acc s (Sftp.answer (Sftp.addHandle s hd).1 shelf
      (.handle (Sftp.addHandle s hd).2) disclosed) :=
  ⟨rfl, h.set (num s.nextHandle) hok, hclosed⟩

theorem stat_safe (h : HandlesOk acc s) (path : Bytes) :
    Safe acc s (Sftp.stat acc mayCreateRoom s shelf path) := by
  rw [Sftp.stat]
  split
  · split
    · exact safe_fail h _ _ nofun
    · exact safe_answer h _ nofun
  · split
    · exact safe_fail h _ _ nofun
    · next area hresolve =>
      have hlist := closed_names (canList_of_resolve hresolve)
      split
      · exact safe_fail h _ _ hlist
      · exact safe_answer h _ hlist

theorem fstat_safe (h : HandlesOk acc s) (key : Bytes) :
    Safe acc s (Sftp.fstat acc mayCreateRoom d s shelf key) := by
  rw [Sftp.fstat]
  split
  · exact safe_fail h _ _ nofun
  · split
    · exact safe_answer h _ nofun
    · exact safe_answer h _ nofun

theorem openDir_safe (h : HandlesOk acc s) (path : Bytes) :
    Safe acc s (Sftp.openDir acc s shelf path) := by
  rw [Sftp.openDir]
  split
  · exact safe_fail h _ _ nofun
  split
  · exact safe_fail h _ _ nofun
  · exact safe_addHandle h ⟨(fun hkind => by cases hkind),
      fun o ho => absurd ho List.not_mem_nil, fun area harea => canList_of_resolve harea⟩ nofun

theorem readDir_safe (h : HandlesOk acc s) (key : Bytes) :
    Safe acc s (Sftp.readDir acc mayCreateRoom s shelf key) := by
  rw [Sftp.readDir]
  split
  · exact safe_fail h _ _ nofun
  · next hd hfind =>
    have hok := h.find hfind
    split
    · exact safe_fail h _ _ nofun
    split
    · exact safe_fail h _ _ nofun
    have hset : HandlesOk acc (Sftp.setHandle s key { hd with listed := true }) :=
      h.set key ⟨hok.reading, hok.origin, hok.listing⟩
    split
    · exact ⟨rfl, hset, nofun⟩
    · next area harea =>
      exact ⟨rfl, hset, closed_names (hok.listing area harea)⟩

theorem openIn_safe (h : HandlesOk acc s) {area : Area}
    (harea : canList acc s.username area = true) (parts : List Bytes) (pflags : Nat) :
    Safe acc s (Sftp.openIn acc s shelf area parts pflags) := by
  have hlist := closed_names harea
  rw [Sftp.openIn]
  split
  · split
    · exact safe_fail h _ _ nofun
    split
    · exact safe_fail h _ _ nofun
    split
    · exact safe_fail h _ _ hlist
    split
    · exact safe_fail h _ _ hlist
    split
    · exact safe_fail h _ _ hlist
    refine safe_addHandle h ⟨(fun hkind => by cases hkind), fun o ho area' horigin => ?_,
      fun area' harea' => ?_⟩ hlist
    · -- every octet a handle for writing has kept is of the file it was opened on
      cases hkept : (if Sftp.hasBit pflags Sftp.pfTrunc = true then none
          else getFile shelf (area.roomNum, Sftp.fileName parts)) with
      | none =>
        rw [hkept] at ho
        cases ho
      | some f =>
        rw [hkept] at ho
        rw [origin_fromFile ho] at horigin
        exact horigin
    · obtain rfl := Option.some.inj harea'
      exact harea
  · split
    · exact safe_fail h _ _ hlist
    · next f hfound =>
      split
      · exact safe_fail h _ _ hlist
      · next hdownload =>
        have hdownload : canDownload acc s.username area = true := by simpa using hdownload
        refine safe_addHandle h ⟨fun _ => fetchable_fromFile hdownload _,
          fun o ho area' horigin => ?_, fun area' harea' => ?_⟩ hlist
        · rw [origin_fromFile ho] at horigin
          exact horigin
        · obtain rfl := Option.some.inj harea'
          exact harea

theorem openFile_safe (h : HandlesOk acc s) (path : Bytes) (pflags : Nat) :
    Safe acc s (Sftp.openFile acc s shelf path pflags) := by
  rw [Sftp.openFile]
  split
  · exact safe_fail h _ _ nofun
  split
  · exact safe_fail h _ _ nofun
  · next area hresolve =>
    split
    · exact safe_fail h _ _ nofun
    · exact openIn_safe h (canList_of_resolve hresolve) _ pflags

theorem read_safe (h : HandlesOk acc s) {key : Bytes}
    {offset len : Nat} (hdiscreet : ∀ hd, Sftp.findHandle s key = some hd → hd.kind = .write →
      (∃ o ∈ (hd.content.drop offset).take (min len Sftp.kMaxRead), o.origin ≠ none) →
        ∀ area ∈ hd.area, canDownload acc s.username area = true) :
    Safe acc s (Sftp.read s shelf key offset len) := by
  rw [Sftp.read]
  split
  · exact safe_fail h _ _ nofun
  · next hd hfind =>
    split
    · exact safe_fail h _ _ nofun
    · next hdir =>
      split
      · exact safe_fail h _ _ nofun
      · have hok := h.find hfind
        refine safe_answer h _ fun x hx => ?_
        obtain rfl := List.mem_singleton.mp hx
        intro o ho area harea
        have hmem : o ∈ hd.content := List.mem_of_mem_drop (List.mem_of_mem_take ho)
        cases hkind : hd.kind with
        | dir => exact absurd hkind hdir
        | read => exact hok.reading hkind o hmem area harea
        | write =>
          have hkept : o.origin ≠ none := by
            rw [Option.mem_def.mp harea]
            nofun
          exact hdiscreet hd hfind hkind ⟨o, ho, hkept⟩ area (hok.origin o hmem area harea)

/-- An octet of a handle that was written on is one of before, or the peer's. -/
theorem mem_growTo {size : Nat} {content : List Octet} {o : Octet}
    (h : o ∈ Sftp.growTo size content) : o ∈ content ∨ o.origin = none := by
  rcases List.mem_append.mp h with hold | hnew
  · exact .inl hold
  · rw [List.eq_of_mem_replicate hnew]
    exact .inr rfl

theorem write_safe (h : HandlesOk acc s) (key : Bytes) (offset : Nat) (data : Bytes) (ok : Bool) :
    Safe acc s (Sftp.write s shelf key offset data ok) := by
  rw [Sftp.write]
  split
  · exact safe_fail h _ _ nofun
  · next hd hfind =>
    have hok := h.find hfind
    split
    · exact safe_fail h _ _ nofun
    · next hopen =>
      have hkind : hd.kind = .write := Decidable.of_not_not fun hne => hopen (.inr hne)
      have hnew : ∀ content : List Octet, (∀ o ∈ content, o ∈ hd.content ∨ o.origin = none) →
          ∀ dirty, HandleOk acc s.username { hd with content := content, dirty := dirty } := by
        intro content hcontent dirty
        refine ⟨fun hread => ?_, fun o ho area horigin => ?_, hok.listing⟩
        · rw [hkind] at hread
          cases hread
        · rcases hcontent o ho with hold | hpeer
          · exact hok.origin o hold area horigin
          · rw [hpeer] at horigin
            cases horigin
      dsimp only
      split
      · exact safe_fail h _ _ nofun
      split
      · exact ⟨rfl, h.set key (hnew _ (fun o ho => mem_growTo ho) hd.dirty), nofun⟩
      · refine ⟨rfl, h.set key (hnew _ (fun o ho => ?_) true), nofun⟩
        rcases List.mem_append.mp ho with ho | ho
        · rcases List.mem_append.mp ho with ho | ho
          · exact mem_growTo (List.mem_of_mem_take ho)
          · obtain ⟨c, -, rfl⟩ := List.mem_map.mp ho
            exact .inr rfl
        · exact mem_growTo (List.mem_of_mem_drop ho)

theorem close_safe (h : HandlesOk acc s) (key : Bytes) : Safe acc s (Sftp.close d s shelf key) := by
  rw [Sftp.close]
  split
  · exact safe_fail h _ _ nofun
  · next hd hfind =>
    have hok := h.find hfind
    have herase := h.erase key
    dsimp only
    split
    · next area hkind harea =>
      split
      · split
        · exact ⟨rfl, herase, nofun⟩
        · refine ⟨rfl, herase, fun x hx => ?_⟩
          obtain rfl := List.mem_singleton.mp hx
          -- what is stored goes back to the area it was read from
          intro hdownload o ho area' horigin
          have hsame := hok.origin o ho area' horigin
          rw [harea] at hsame
          obtain rfl := Option.some.inj hsame
          exact hdownload
      · exact ⟨rfl, herase, nofun⟩
    · exact ⟨rfl, herase, nofun⟩

theorem remove_safe (h : HandlesOk acc s) (path : Bytes) :
    Safe acc s (Sftp.remove acc s shelf path) := by
  rw [Sftp.remove]
  split
  · exact safe_fail h _ _ nofun
  split
  · exact safe_fail h _ _ nofun
  · next area hresolve =>
    have hlist := closed_names (canList_of_resolve hresolve)
    split
    · exact safe_fail h _ _ nofun
    split
    · exact safe_fail h _ _ hlist
    · exact ⟨rfl, h, hlist⟩

theorem renameIn_safe (h : HandlesOk acc s) {source target : Area}
    (hsource : canList acc s.username source = true)
    (htarget : canList acc s.username target = true)
    {r : Asked} {name newName : Bytes}
    (hdiscreet : Moves acc s.username ⟨r, shelf, d⟩ source target name newName →
      canDownload acc s.username target = true → canDownload acc s.username source = true) :
    Safe acc s (Sftp.renameIn acc d s shelf source name target newName) := by
  have hboth : ∀ x ∈ [Disclosed.names target, .names source], Closed acc s.username x := by
    intro x hx
    rcases List.mem_cons.mp hx with rfl | hx
    · exact htarget
    · exact closed_names hsource x hx
  rw [Sftp.renameIn]
  split
  · exact safe_fail h _ _ nofun
  next hrights =>
  split
  · exact safe_fail h _ _ (closed_names htarget)
  next hdest =>
  split
  · exact safe_fail h _ _ hboth
  next f hfound =>
  split
  · exact safe_fail h _ _ hboth
  next shelf' hput =>
  have hmoves : Moves acc s.username ⟨r, shelf, d⟩ source target name newName := by
    simp only [not_or, Bool.not_eq_false] at hrights
    simp only [not_or, Bool.not_eq_true, Option.isSome_eq_false_iff,
      Option.isNone_iff_eq_none] at hdest
    exact ⟨hrights.1, hrights.2, hdest.1, hdest.2, Option.isSome_of_eq_some hfound,
      not_full_of_putFile hput⟩
  refine ⟨rfl, h, fun x hx => ?_⟩
  rcases List.mem_cons.mp hx with rfl | hx
  · exact fun hdownload => fetchable_fromFile (hdiscreet hmoves hdownload) _
  · exact hboth x hx

theorem rename_safe (h : HandlesOk acc s) {source target : Bytes} {r : Asked}
    (hdiscreet : ∀ area area',
      Sftp.resolve acc s.username (Sftp.splitPath source) = some area →
      Sftp.resolve acc s.username (Sftp.splitPath target) = some area' →
      Moves acc s.username ⟨r, shelf, d⟩ area area' (Sftp.fileName (Sftp.splitPath source))
        (Sftp.fileName (Sftp.splitPath target)) →
      canDownload acc s.username area' = true → canDownload acc s.username area = true) :
    Safe acc s (Sftp.rename acc d s shelf source target) := by
  have hresolved : ∀ {parts : List Bytes} {area : Area},
      (if parts.length = 2 then Sftp.resolve acc s.username parts else none) = some area →
        Sftp.resolve acc s.username parts = some area := by
    intro parts area hif
    split at hif
    · exact hif
    · cases hif
  rw [Sftp.rename]
  split
  · exact safe_fail h _ _ nofun
  · next area hsource =>
    split
    · exact safe_fail h _ _ nofun
    · next area' htarget =>
      have hsource := hresolved hsource
      have htarget := hresolved htarget
      exact renameIn_safe h (canList_of_resolve hsource) (canList_of_resolve htarget)
        (hdiscreet area area' hsource htarget)

theorem dispatch_safe (v : Ftp.Server) (h : HandlesOk acc s) {r : Sftp.Request}
    (hdiscreet : Discreet v acc (.sftp s) ⟨.sftp r, shelf, d⟩) :
    Safe acc s (Sftp.dispatch acc mayCreateRoom d s shelf r) := by
  cases r with
  | stat path => exact stat_safe h path
  | fstat key => exact fstat_safe h key
  | setStat => exact safe_answer h _ nofun
  | realPath path => exact safe_answer h _ nofun
  | openDir path => exact openDir_safe h path
  | readDir key => exact readDir_safe h key
  | openFile path pflags => exact openFile_safe h path pflags
  | read key offset len => exact read_safe h hdiscreet
  | write key offset data ok => exact write_safe h key offset data ok
  | close key => exact close_safe h key
  | remove path => exact remove_safe h path
  | rename source target => exact rename_safe h hdiscreet
  | unsupported => exact safe_fail h _ _ nofun

end Sftp

/-! ## FTP -/

section Ftp

variable {v : Ftp.Server} {acc : Access} {d : Depot} {s : Ftp.Session} {shelf : Shelf}

/-- Who is logged in may list the area the session is in, or has named a file in. -/
def RoomOk (acc : Access) (s : Ftp.Session) : Prop :=
  s.authed = true → s.inRoom = true ∨ s.renameFrom ≠ [] → canList acc s.username s.room = true

/-- A command leaves a good session and discloses nothing that is closed. -/
structure FtpSafe (acc : Access) (s : Ftp.Session) (out : Ftp.Outcome) : Prop where
  room : RoomOk acc out.session
  closed : ∀ x ∈ out.disclosed, Closed acc s.username x

theorem ftpSafe_reply {s' : Ftp.Session} (h : RoomOk acc s') (code : Nat)
    {disclosed : List Disclosed} (hclosed : ∀ x ∈ disclosed, Closed acc s.username x) :
    FtpSafe acc s (Ftp.reply s' shelf code disclosed) := ⟨h, hclosed⟩

theorem closed_list {area : Area} {user : Bytes} (h : canList acc user area = true) :
    ∀ x ∈ [Disclosed.names area], Closed acc user x := by
  intro x hx
  obtain rfl := List.mem_singleton.mp hx
  exact h

theorem login_safe (h : RoomOk acc s) {c : Ftp.Command}
    (hdiscreet : Discreet v acc (.ftp s) ⟨.ftp c, shelf, d⟩) :
    FtpSafe acc s (Ftp.login v s shelf c) := by
  have hended : RoomOk acc { s with ended := true } := h
  have hforgot : RoomOk acc { s with userGiven := [] } := h
  have htls : RoomOk acc { s with tls := true } := h
  have hout : ∀ user, RoomOk acc { s with userGiven := user, authed := false } := by
    intro user hauthed
    cases hauthed
  cases c with
  | user arg =>
    rw [Ftp.login]
    split
    · exact ⟨hout arg, nofun⟩
    · exact ⟨hout arg, nofun⟩
  | pass arg =>
    rw [Ftp.login]
    split
    · exact ftpSafe_reply h _ nofun
    split
    · exact ftpSafe_reply h _ nofun
    split
    · exact ⟨hforgot, nofun⟩
    · next hverify =>
      have hverify : v.verify s.userGiven arg = true := by simpa using hverify
      have hin : RoomOk acc { s with username := s.userGiven, authed := true } :=
        fun _ hroom => hdiscreet hverify hroom
      exact ⟨hin, nofun⟩
  | auth arg handshake =>
    rw [Ftp.login]
    split
    · exact ftpSafe_reply h _ nofun
    split
    · exact ftpSafe_reply h _ nofun
    split
    · exact ftpSafe_reply h _ nofun
    split
    · exact ⟨htls, nofun⟩
    · exact ⟨hended, nofun⟩
  | _ => exact ⟨hended, nofun⟩

/-- Leaving an area keeps what is known of it for a name that waits. -/
theorem RoomOk.leave (h : RoomOk acc s) : RoomOk acc { s with inRoom := false } := by
  rintro hauthed (hin | hname)
  · cases hin
  · exact h hauthed (.inr hname)

theorem cwd_safe (h : RoomOk acc s) (arg : Bytes) : FtpSafe acc s (Ftp.cwd acc s shelf arg) := by
  rw [Ftp.cwd]
  dsimp only
  split
  · exact ⟨h.leave, nofun⟩
  generalize (if (Ftp.wanted arg).head? = some (ch '/') then (Ftp.wanted arg).drop 1
    else Ftp.wanted arg) = want
  split
  · exact ftpSafe_reply h _ nofun
  split
  · exact ftpSafe_reply h _ nofun
  · next area hfind =>
    have hin : RoomOk acc { s with room := area, inRoom := true } :=
      fun _ _ => canList_of_findArea hfind
    exact ⟨hin, nofun⟩

/-- Inside an area, its names may be told. -/
theorem RoomOk.names (h : RoomOk acc s) (hauthed : s.authed = true)
    (hroom : s.inRoom = true ∨ s.renameFrom ≠ []) :
    ∀ x ∈ [Disclosed.names s.room], Closed acc s.username x :=
  closed_list (h hauthed hroom)

theorem sendListing_safe (h : RoomOk acc s) (hauthed : s.authed = true) (data : Ftp.DataChannel) :
    FtpSafe acc s (Ftp.sendListing acc s shelf data) := by
  rw [Ftp.sendListing]
  split
  · exact ftpSafe_reply h _ nofun
  split
  · exact ⟨h, nofun⟩
  · next hin => exact ⟨h, h.names hauthed (.inl (by simpa using hin))⟩

theorem facts_safe (h : RoomOk acc s) (hauthed : s.authed = true) (arg : Bytes) (code : Nat) :
    FtpSafe acc s (Ftp.facts s shelf arg code) := by
  rw [Ftp.facts]
  split
  · exact ftpSafe_reply h _ nofun
  · next hin =>
    have hnames := h.names hauthed (.inl (by simpa using hin))
    split
    · exact ftpSafe_reply h _ hnames
    · exact ⟨h, hnames⟩

theorem cmdRetr_safe (h : RoomOk acc s) (arg : Bytes) (data : Ftp.DataChannel) :
    FtpSafe acc s (Ftp.cmdRetr acc s shelf arg data) := by
  rw [Ftp.cmdRetr]
  split
  · exact ftpSafe_reply h _ nofun
  split
  · exact ftpSafe_reply h _ nofun
  · next hdownload =>
    have hdownload : canDownload acc s.username s.room = true := by simpa using hdownload
    have hnames := closed_list (canList_of_canDownload hdownload)
    split
    · exact ftpSafe_reply h _ hnames
    split
    · exact ftpSafe_reply h _ hnames
    · refine ⟨h, fun x hx => ?_⟩
      rcases List.mem_cons.mp hx with rfl | hx
      · exact canList_of_canDownload hdownload
      · obtain rfl := List.mem_singleton.mp hx
        exact fetchable_fromFile hdownload _

theorem cmdStor_safe (h : RoomOk acc s) (arg : Bytes) (data : Ftp.DataChannel) :
    FtpSafe acc s (Ftp.cmdStor acc d s shelf arg data) := by
  rw [Ftp.cmdStor]
  split
  · exact ftpSafe_reply h _ nofun
  split
  · exact ftpSafe_reply h _ nofun
  split
  · exact ftpSafe_reply h _ nofun
  split
  · exact ftpSafe_reply h _ nofun
  split
  · exact ftpSafe_reply h _ nofun
  split
  · exact ftpSafe_reply h _ nofun
  · refine ftpSafe_reply h _ fun x hx => ?_
    obtain rfl := List.mem_singleton.mp hx
    exact fun _ => fetchable_fromPeer acc s.username _

theorem cmdDele_safe (h : RoomOk acc s) (hauthed : s.authed = true) (arg : Bytes) :
    FtpSafe acc s (Ftp.cmdDele acc s shelf arg) := by
  rw [Ftp.cmdDele]
  split
  · exact ftpSafe_reply h _ nofun
  · next hin =>
    have hnames := h.names hauthed (.inl (by simpa using hin))
    split
    · exact ftpSafe_reply h _ nofun
    split
    · exact ftpSafe_reply h _ hnames
    · exact ftpSafe_reply h _ hnames

theorem rnfr_safe (h : RoomOk acc s) (hauthed : s.authed = true) (arg : Bytes) :
    FtpSafe acc s (Ftp.rnfr s shelf arg) := by
  rw [Ftp.rnfr]
  split
  · exact ftpSafe_reply h _ nofun
  · next hin =>
    have hin : s.inRoom = true := by simpa using hin
    have hnames := h.names hauthed (.inl hin)
    split
    · exact ftpSafe_reply h _ hnames
    · next f _ =>
      have hwaits : RoomOk acc { s with renameFrom := f.name } :=
        fun _ _ => h hauthed (.inl hin)
      exact ⟨hwaits, hnames⟩

theorem rnto_safe (h : RoomOk acc s) (hauthed : s.authed = true) (arg : Bytes) :
    FtpSafe acc s (Ftp.rnto acc d s shelf arg) := by
  have hforgot : RoomOk acc { s with renameFrom := [] } := by
    rintro hauthed (hin | hname)
    · exact h hauthed (.inl hin)
    · exact absurd rfl hname
  rw [Ftp.rnto]
  split
  · exact ftpSafe_reply h _ nofun
  · next hname =>
    have hnames := h.names hauthed (.inr hname)
    split
    · exact ftpSafe_reply hforgot _ nofun
    split
    · exact ftpSafe_reply hforgot _ nofun
    split
    · exact ftpSafe_reply hforgot _ hnames
    split
    · exact ftpSafe_reply hforgot _ hnames
    · refine ftpSafe_reply hforgot _ fun x hx => ?_
      rcases List.mem_cons.mp hx with rfl | hx
      · exact h hauthed (.inr hname)
      · obtain rfl := List.mem_singleton.mp hx
        -- the file stays in its area
        exact fun hdownload => fetchable_fromFile hdownload _

theorem perform_safe (h : RoomOk acc s) (hauthed : s.authed = true) (c : Ftp.Command) :
    FtpSafe acc s (Ftp.perform acc d s shelf c) := by
  cases c with
  | cwd arg => exact cwd_safe h arg
  | cdup => exact ⟨h.leave, nofun⟩
  | list data => exact sendListing_safe h hauthed data
  | mlst arg => exact facts_safe h hauthed arg _
  | size arg => exact facts_safe h hauthed arg _
  | mdtm arg => exact facts_safe h hauthed arg _
  | retr arg data => exact cmdRetr_safe h arg data
  | stor arg data => exact cmdStor_safe h arg data
  | dele arg => exact cmdDele_safe h hauthed arg
  | rnfr arg => exact rnfr_safe h hauthed arg
  | rnto arg => exact rnto_safe h hauthed arg
  | _ => exact ftpSafe_reply h _ nofun

theorem handle_safe (h : RoomOk acc s) {c : Ftp.Command}
    (hdiscreet : Discreet v acc (.ftp s) ⟨.ftp c, shelf, d⟩) :
    FtpSafe acc s (Ftp.handle v acc d s shelf c) := by
  rw [Ftp.handle]
  split
  · exact login_safe h hdiscreet
  split
  · exact ftpSafe_reply h _ nofun
  · next hauthed => exact perform_safe h (by simpa using hauthed) c

end Ftp

/-! ## Runs -/

section Runs

variable {v : Ftp.Server} {acc : Access} {mayCreateRoom : Bytes → Bool}

def Connection.Ok (acc : Access) : Connection → Prop
  | .sftp s => HandlesOk acc s
  | .ftp s => RoomOk acc s

theorem step_ok {c : Connection} (h : c.Ok acc) {e : Visit} (hdiscreet : Discreet v acc c e) :
    (c.step v acc mayCreateRoom e).1.Ok acc ∧
      ∀ x ∈ (c.step v acc mayCreateRoom e).2, Closed acc c.user x := by
  obtain ⟨asked, shelf, depot⟩ := e
  cases c with
  | sftp s =>
    cases asked with
    | sftp r =>
      have hsafe : Safe acc s (Sftp.dispatch acc mayCreateRoom depot s shelf r) :=
        dispatch_safe v h hdiscreet
      exact ⟨hsafe.handles, hsafe.closed⟩
    | ftp cmd => exact ⟨h, nofun⟩
  | ftp s =>
    cases asked with
    | sftp r => exact ⟨h, nofun⟩
    | ftp cmd =>
      have hsafe : FtpSafe acc s (Ftp.handle v acc depot s shelf cmd) :=
        handle_safe h hdiscreet
      simp only [Connection.step]
      split
      · exact ⟨h, nofun⟩
      · exact ⟨hsafe.room, hsafe.closed⟩

theorem closed_run (visits : List Visit) : ∀ {c : Connection}, c.Ok acc →
    DiscreetRun v acc mayCreateRoom c visits →
      ∀ p ∈ c.disclosures v acc mayCreateRoom visits, Closed acc p.1 p.2 := by
  induction visits with
  | nil => exact fun _ _ => nofun
  | cons e visits ih =>
    intro c h hdiscreet p hp
    obtain ⟨hfirst, hrest⟩ := hdiscreet
    obtain ⟨hok, hclosed⟩ := step_ok h hfirst
    rcases List.mem_append.mp hp with hnow | hlater
    · obtain ⟨x, hx, rfl⟩ := List.mem_map.mp hnow
      exact hclosed x hx
    · exact ih hok hrest p hlater

/-- A connection on which nothing was asked yet. -/
def Connection.IsNew (v : Ftp.Server) (c : Connection) : Prop :=
  (∃ user, c = .sftp ⟨user, 1, []⟩) ∨ c = .ftp (Ftp.opening v)

/-- A connection discloses nothing that is closed, where handles for writing are not read and
    files are not moved past the right to fetch them, and no login is made in an area that
    the user may not list. -/
theorem closed_of_discreet (v : Ftp.Server) (acc : Access) (mayCreateRoom : Bytes → Bool)
    (c : Connection) (hnew : c.IsNew v) (visits : List Visit)
    (hdiscreet : DiscreetRun v acc mayCreateRoom c visits) :
    ∀ p ∈ c.disclosures v acc mayCreateRoom visits, Closed acc p.1 p.2 := by
  have hok : c.Ok acc := by
    rcases hnew with ⟨user, rfl⟩ | rfl
    · exact fun entry hentry => absurd hentry List.not_mem_nil
    · exact fun hauthed => nomatch hauthed
  exact closed_run visits hok hdiscreet

end Runs

/-! ## Two connections -/

def inbox : Area := ⟨7, bytes "Inbox", qrDirectory + qrUpload⟩

/-- Everybody may leave files in one area, and nobody may fetch any. -/
def depositors : Access :=
  ⟨fun _ => [inbox], fun _ room => if room = 7 then some inbox else none, fun _ _ => bytes "ri",
    fun _ _ => true⟩

def anyPassword : Ftp.Server := ⟨true, false, false, fun _ _ => true⟩

/-- The area holds one file. -/
def handedIn : Shelf :=
  ⟨[⟨1, (7, bytes "exam"), octetStream, bytes "42", bytes "exam", bytes "ann", 0⟩], 2⟩

def visit (asked : Asked) : Visit := ⟨asked, handedIn, ⟨Prod.mk, 0, false⟩⟩

/-- A login over FTP, which enters the area, lists it and is refused the file. -/
def looksIn : List Visit :=
  [visit (.ftp (.user (bytes "eve"))), visit (.ftp (.pass (bytes "x"))),
    visit (.ftp (.cwd (bytes "/inbox/"))), visit (.ftp (.list ⟨true, [], true⟩)),
    visit (.ftp (.retr (bytes "exam") ⟨true, [], true⟩))]

theorem closed_of_discreet_looksIn : (Connection.ftp (Ftp.opening anyPassword)).IsNew anyPassword ∧
      DiscreetRun anyPassword depositors (fun _ => false) (.ftp (Ftp.opening anyPassword))
        looksIn ∧
      ∀ p ∈ (Connection.ftp (Ftp.opening anyPassword)).disclosures anyPassword depositors
        (fun _ => false) looksIn, Closed depositors p.1 p.2 := by
  have hdiscreet : DiscreetRun anyPassword depositors (fun _ => false)
      (.ftp (Ftp.opening anyPassword)) looksIn := by
    refine ⟨trivial, ?_, trivial, trivial, trivial, trivial⟩
    rintro - (hin | hname)
    · exact absurd hin (by decide +kernel)
    · exact absurd rfl hname
  exact ⟨.inr rfl, hdiscreet, closed_of_discreet _ _ _ _ (.inr rfl) _ hdiscreet⟩

/-- The file is opened for writing, and read. -/
def readsWriting : List Visit :=
  [visit (.sftp (.openFile (bytes "/inbox/exam") Sftp.pfWrite)),
    visit (.sftp (.read (bytes "1") 0 100))]

theorem not_closed_readsWriting :
    ¬∀ p ∈ (Connection.sftp ⟨bytes "eve", 1, []⟩).disclosures anyPassword depositors
      (fun _ => false) readsWriting, Closed depositors p.1 p.2 := by
  intro h
  have hread : (bytes "eve", Disclosed.reply (fromFile inbox (bytes "42"))) ∈
      (Connection.sftp ⟨bytes "eve", 1, []⟩).disclosures anyPassword depositors
        (fun _ => false) readsWriting := by
    decide +kernel
  have hfetch : Fetchable depositors (bytes "eve") (fromFile inbox (bytes "42")) := h _ hread
  have hdownload := hfetch ⟨ch '4', some inbox⟩ (by decide +kernel) inbox rfl
  revert hdownload
  decide +kernel

end QuackMail.Files
