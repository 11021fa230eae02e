import QuackMail.Http.Reader

/-! # Writing responses

`WriteResponse` of `http.cpp`, and the framing of a connection in both directions: requests
are read as the grammar says unless a NUL stands in a name, and responses carry as many
octets as their head says unless a body was given to a status that has none.
-/

namespace QuackMail.Http

open Net Framing

/-! ## `WriteResponse` -/

structure Response where
  status : Int
  headers : Headers
  body : Bytes

/-- The broken-down time of the clock. -/
structure Tm where
  wday : Nat
  mday : Nat
  mon : Nat
  year : Nat
  hour : Nat
  min : Nat
  sec : Nat

/-- `%0*d`. -/
def padded (width n : Nat) : Bytes := List.replicate (width - (num n).length) (ch '0') ++ num n

def kDay : List Bytes :=
  [bytes "Sun", bytes "Mon", bytes "Tue", bytes "Wed", bytes "Thu", bytes "Fri", bytes "Sat"]

def kMon : List Bytes :=
  [bytes "Jan", bytes "Feb", bytes "Mar", bytes "Apr", bytes "May", bytes "Jun", bytes "Jul",
    bytes "Aug", bytes "Sep", bytes "Oct", bytes "Nov", bytes "Dec"]

/-- `HttpDate`. -/
def httpDate (tm : Tm) : Bytes :=
  (kDay[tm.wday % 7]?).getD [] ++ bytes ", " ++ padded 2 tm.mday ++ bytes " " ++
    (kMon[tm.mon % 12]?).getD [] ++ bytes " " ++ padded 4 tm.year ++ bytes " " ++
      padded 2 tm.hour ++ bytes ":" ++ padded 2 tm.min ++ bytes ":" ++ padded 2 tm.sec ++
        bytes " GMT"

def statusTexts : List (Int × Bytes) :=
  [(100, bytes "Continue"), (200, bytes "OK"), (201, bytes "Created"), (204, bytes "No Content"),
    (207, bytes "Multi-Status"), (301, bytes "Moved Permanently"), (302, bytes "Found"),
    (303, bytes "See Other"), (304, bytes "Not Modified"), (400, bytes "Bad Request"),
    (401, bytes "Unauthorized"), (403, bytes "Forbidden"), (404, bytes "Not Found"),
    (405, bytes "Method Not Allowed"), (408, bytes "Request Timeout"), (409, bytes "Conflict"),
    (411, bytes "Length Required"), (412, bytes "Precondition Failed"),
    (413, bytes "Payload Too Large"), (414, bytes "URI Too Long"),
    (415, bytes "Unsupported Media Type"), (422, bytes "Unprocessable Entity"),
    (429, bytes "Too Many Requests"), (431, bytes "Request Header Fields Too Large"),
    (500, bytes "Internal Server Error"), (501, bytes "Not Implemented"),
    (503, bytes "Service Unavailable"), (507, bytes "Insufficient Storage")]

/-- `StatusText`. -/
def statusText (status : Int) : Bytes :=
  ((statusTexts.find? fun s => s.1 = status).map Prod.snd).getD (bytes "Unknown")

def statusLine (status : Int) : Bytes :=
  bytes "HTTP/1.1 " ++ numInt status ++ bytes " " ++ statusText status

def crlf : Bytes := [ch '\r', ch '\n']

def fieldLine (h : Bytes × Bytes) : Bytes := h.1 ++ bytes ": " ++ h.2 ++ crlf

/-- The fields a handler does not decide. -/
def isFraming (h : Bytes × Bytes) : Bool :=
  iEquals h.1 (bytes "Content-Length") || iEquals h.1 (bytes "Connection") ||
    iEquals h.1 (bytes "Transfer-Encoding")

/-- The handler's fields that go out: a value with a line end in it is dropped. -/
def keptFields (headers : Headers) : Headers :=
  headers.filter fun h => !isFraming h && ch '\r' ∉ h.2 && ch '\n' ∉ h.2

def haveType (headers : Headers) : Bool :=
  headers.any fun h => !isFraming h && iEquals h.1 (bytes "Content-Type")

/-- 204 and 304. -/
def isBodyless (status : Int) : Bool := status = 204 || status = 304

/-- `WriteResponse`: the head, and what is sent behind it. -/
def writeResponse (resp : Response) (headOnly keepAlive : Bool) (tm : Tm) : Bytes × Bytes :=
  let head := statusLine resp.status ++ crlf ++ (keptFields resp.headers).flatMap fieldLine ++
    (if !haveType resp.headers && resp.body ≠ [] then
      bytes "Content-Type: text/plain; charset=utf-8\r\n" else []) ++
    bytes "Date: " ++ httpDate tm ++ crlf ++
    (if resp.status ≠ 204 ∧ resp.status ≠ 304 then
      bytes "Content-Length: " ++ num resp.body.length ++ crlf else []) ++
    (if keepAlive then bytes "Connection: keep-alive\r\nKeep-Alive: timeout=5\r\n"
      else bytes "Connection: close\r\n") ++ crlf
  (head, if headOnly || resp.body = [] then [] else resp.body)

/-! ## The fields of a head -/

/-- The fields the server adds. -/
def ownFields (resp : Response) (keepAlive : Bool) (tm : Tm) : Headers :=
  (if !haveType resp.headers && resp.body ≠ [] then
    [(bytes "Content-Type", bytes "text/plain; charset=utf-8")] else []) ++
  [(bytes "Date", httpDate tm)] ++
  (if isBodyless resp.status then [] else [(bytes "Content-Length", num resp.body.length)]) ++
  if keepAlive then
    [(bytes "Connection", bytes "keep-alive"), (bytes "Keep-Alive", bytes "timeout=5")]
  else [(bytes "Connection", bytes "close")]

def fieldsOf (resp : Response) (keepAlive : Bool) (tm : Tm) : Headers :=
  keptFields resp.headers ++ ownFields resp keepAlive tm

/-- A head is a status line and fields; no value holds a line end, and one field says how
    many octets follow, or none do. -/
structure ResponseFramed (resp : Response) (headOnly keepAlive : Bool) (tm : Tm) : Prop where
  head : (writeResponse resp headOnly keepAlive tm).1 =
    statusLine resp.status ++ crlf ++ (fieldsOf resp keepAlive tm).flatMap fieldLine ++ crlf
  line : ch '\r' ∉ statusLine resp.status ∧ ch '\n' ∉ statusLine resp.status
  values : ∀ f ∈ fieldsOf resp keepAlive tm, ch '\r' ∉ f.2 ∧ ch '\n' ∉ f.2
  noCoding : ∀ f ∈ fieldsOf resp keepAlive tm, lower f.1 ≠ bytes "transfer-encoding"
  length : if headOnly || isBodyless resp.status then
      (writeResponse resp headOnly keepAlive tm).2 = []
    else (fieldsOf resp keepAlive tm).filter (fun f => lower f.1 = bytes "content-length") =
      [(bytes "Content-Length", num (writeResponse resp headOnly keepAlive tm).2.length)]

section Response

variable (resp : Response) (headOnly keepAlive : Bool) (tm : Tm)

theorem head_eq : (writeResponse resp headOnly keepAlive tm).1 =
    statusLine resp.status ++ crlf ++ (fieldsOf resp keepAlive tm).flatMap fieldLine ++ crlf := by
  have htype : bytes "Content-Type: text/plain; charset=utf-8\r\n" =
      fieldLine (bytes "Content-Type", bytes "text/plain; charset=utf-8") := by
    rw [fieldLine]
    repeat rw [bytes_ofList]
    rfl
  have halive : bytes "Connection: keep-alive\r\nKeep-Alive: timeout=5\r\n" =
      fieldLine (bytes "Connection", bytes "keep-alive") ++
        fieldLine (bytes "Keep-Alive", bytes "timeout=5") := by
    rw [fieldLine, fieldLine]
    repeat rw [bytes_ofList]
    rfl
  have hclose : bytes "Connection: close\r\n" =
      fieldLine (bytes "Connection", bytes "close") := by decide
  have hlength : bytes "Content-Length: " = bytes "Content-Length" ++ bytes ": " := by decide
  have hdate : bytes "Date: " = bytes "Date" ++ bytes ": " := by decide
  have hbodyless : (resp.status ≠ 204 ∧ resp.status ≠ 304) ↔ isBodyless resp.status = false := by
    simp [isBodyless]
  simp only [writeResponse, fieldsOf, ownFields, hbodyless]
  cases hb : isBodyless resp.status <;> cases keepAlive <;>
    by_cases ht : (!haveType resp.headers && decide (resp.body ≠ [])) = true <;>
    simp only [ht, htype, halive, hclose, hlength, hdate, if_true, if_false, Bool.false_eq_true,
      Bool.true_eq_false, List.flatMap_append, List.flatMap_cons, List.flatMap_nil,
      List.append_nil, List.append_assoc, List.nil_append, fieldLine]

/-! ## Texts without line ends -/

/-- No line end in a text. -/
def Plain (s : Bytes) : Prop := ch '\r' ∉ s ∧ ch '\n' ∉ s

theorem Plain.append {s t : Bytes} (hs : Plain s) (ht : Plain t) : Plain (s ++ t) := by
  unfold Plain at *
  simp [hs, ht]

theorem plain_num (n : Nat) : Plain (num n) := by
  constructor
  · intro h
    have := isDigit_of_mem_num h
    revert this
    decide
  · intro h
    have := isDigit_of_mem_num h
    revert this
    decide

theorem plain_numInt (i : Int) : Plain (numInt i) := by
  unfold numInt
  split
  · obtain ⟨h1, h2⟩ := plain_num i.natAbs
    have hcr : ch '\r' ≠ ch '-' := by decide
    have hlf : ch '\n' ≠ ch '-' := by decide
    exact ⟨List.not_mem_cons_of_ne_of_not_mem hcr h1, List.not_mem_cons_of_ne_of_not_mem hlf h2⟩
  · exact plain_num i.natAbs

theorem plain_padded (width n : Nat) : Plain (padded width n) := by
  refine Plain.append ⟨?_, ?_⟩ (plain_num n)
  · intro h
    have := List.eq_of_mem_replicate h
    revert this
    decide
  · intro h
    have := List.eq_of_mem_replicate h
    revert this
    decide

theorem plain_get {texts : List Bytes} (h : ∀ t ∈ texts, Plain t) (k : Nat) :
    Plain ((texts[k]?).getD []) := by
  cases hk : texts[k]? with
  | none => exact ⟨by simp, by simp⟩
  | some t => exact h t (List.mem_of_getElem? hk)

theorem plain_statusText (status : Int) : Plain (statusText status) := by
  have hall : ∀ s ∈ statusTexts, Plain s.2 := by
    unfold Plain statusTexts
    repeat rw [bytes_ofList]
    decide +kernel
  unfold statusText
  cases hfind : statusTexts.find? fun s => s.1 = status with
  | none =>
    unfold Plain
    decide
  | some s => exact hall s (List.mem_of_find?_eq_some hfind)

example : statusText 404 = bytes "Not Found" := by decide +kernel

theorem plain_httpDate : Plain (httpDate tm) := by
  have hday : Plain ((kDay[tm.wday % 7]?).getD []) := by
    refine plain_get ?_ _
    unfold Plain
    decide +kernel
  have hmon : Plain ((kMon[tm.mon % 12]?).getD []) := by
    refine plain_get ?_ _
    unfold Plain
    decide +kernel
  have hcomma : Plain (bytes ", ") := by unfold Plain; decide
  have hspace : Plain (bytes " ") := by unfold Plain; decide
  have hcolon : Plain (bytes ":") := by unfold Plain; decide
  have hgmt : Plain (bytes " GMT") := by unfold Plain; decide
  have hdate := ((((hday.append hcomma).append (plain_padded 2 tm.mday)).append hspace).append
    hmon).append hspace
  have hyear := (hdate.append (plain_padded 4 tm.year)).append hspace
  have htime := (((hyear.append (plain_padded 2 tm.hour)).append hcolon).append
    (plain_padded 2 tm.min)).append hcolon
  exact (htime.append (plain_padded 2 tm.sec)).append hgmt

theorem plain_statusLine (status : Int) : Plain (statusLine status) := by
  have hhttp : Plain (bytes "HTTP/1.1 ") := by unfold Plain; decide
  have hspace : Plain (bytes " ") := by unfold Plain; decide
  exact ((hhttp.append (plain_numInt status)).append hspace).append (plain_statusText status)

theorem plain_ownFields : ∀ f ∈ ownFields resp keepAlive tm, Plain f.2 := by
  have hown : ∀ v ∈ [bytes "text/plain; charset=utf-8", bytes "keep-alive", bytes "timeout=5",
      bytes "close"], Plain v := by
    unfold Plain
    decide +kernel
  intro f hf
  unfold ownFields at hf
  simp only [List.mem_append] at hf
  rcases hf with ((hf | hf) | hf) | hf
  · split at hf
    · rw [List.mem_singleton] at hf
      exact hown f.2 (by rw [hf]; simp)
    · cases hf
  · rw [List.mem_singleton] at hf
    rw [hf]
    exact plain_httpDate tm
  · split at hf
    · cases hf
    · rw [List.mem_singleton] at hf
      rw [hf]
      exact plain_num _
  · split at hf
    · rcases List.mem_pair.mp hf with rfl | rfl
      · exact hown _ (by simp)
      · exact hown _ (by simp)
    · rw [List.mem_singleton] at hf
      exact hown f.2 (by rw [hf]; simp)

theorem plain_fieldsOf : ∀ f ∈ fieldsOf resp keepAlive tm, Plain f.2 := by
  intro f hf
  rcases List.mem_append.mp hf with hf | hf
  · have hkept := (List.mem_filter.mp hf).2
    simp only [Bool.and_eq_true, decide_eq_true_eq] at hkept
    exact ⟨hkept.1.2, hkept.2⟩
  · exact plain_ownFields resp keepAlive tm f hf

/-! ## The length -/

theorem not_framing_of_kept {f : Bytes × Bytes} (hf : f ∈ keptFields resp.headers) :
    lower f.1 ≠ bytes "content-length" ∧ lower f.1 ≠ bytes "transfer-encoding" := by
  have hkept := (List.mem_filter.mp hf).2
  simp only [Bool.and_eq_true, Bool.not_eq_true', isFraming, Bool.or_eq_false_iff] at hkept
  obtain ⟨⟨⟨⟨hlength, -⟩, hcoding⟩, -⟩, -⟩ := hkept
  constructor
  · intro hname
    rw [iEquals_iff.mpr (by rw [hname, lower_contentLength])] at hlength
    cases hlength
  · intro hname
    rw [iEquals_iff.mpr (by rw [hname, lower_transferEncoding])] at hcoding
    cases hcoding

/-- Of the server's own fields the length alone has a framing name. -/
theorem ownFields_names : ∀ f ∈ ownFields resp keepAlive tm,
    f = (bytes "Content-Length", num resp.body.length) ∨
      lower f.1 ≠ bytes "content-length" ∧ lower f.1 ≠ bytes "transfer-encoding" := by
  have hown : ∀ name ∈ [bytes "Content-Type", bytes "Date", bytes "Connection",
      bytes "Keep-Alive"],
      lower name ≠ bytes "content-length" ∧ lower name ≠ bytes "transfer-encoding" := by
    decide +kernel
  intro f hf
  unfold ownFields at hf
  simp only [List.mem_append] at hf
  rcases hf with ((hf | hf) | hf) | hf
  · split at hf
    · rw [List.mem_singleton] at hf
      exact .inr (hown f.1 (by rw [hf]; simp))
    · cases hf
  · rw [List.mem_singleton] at hf
    exact .inr (hown f.1 (by rw [hf]; simp))
  · split at hf
    · cases hf
    · exact .inl (List.mem_singleton.mp hf)
  · split at hf
    · rcases List.mem_pair.mp hf with rfl | rfl
      · exact .inr (hown _ (by simp))
      · exact .inr (hown _ (by simp))
    · rw [List.mem_singleton] at hf
      exact .inr (hown f.1 (by rw [hf]; simp))

example : isFraming (bytes "content-LENGTH", []) = true := by decide +kernel

theorem noCoding_fieldsOf :
    ∀ f ∈ fieldsOf resp keepAlive tm, lower f.1 ≠ bytes "transfer-encoding" := by
  intro f hf
  rcases List.mem_append.mp hf with hf | hf
  · exact (not_framing_of_kept resp hf).2
  · rcases ownFields_names resp keepAlive tm f hf with rfl | h
    · have hlength : lower (bytes "Content-Length") ≠ bytes "transfer-encoding" := by decide
      exact hlength
    · exact h.2

theorem lengths_fieldsOf :
    (fieldsOf resp keepAlive tm).filter (fun f => lower f.1 = bytes "content-length") =
      if isBodyless resp.status then [] else [(bytes "Content-Length", num resp.body.length)] := by
  have hkept : (keptFields resp.headers).filter (fun f => lower f.1 = bytes "content-length") =
      [] := by
    rw [List.filter_eq_nil_iff]
    intro f hf
    simpa using (not_framing_of_kept resp hf).1
  have hother : ∀ {f : Bytes × Bytes}, lower f.1 ≠ bytes "content-length" → ∀ fs : Headers,
      (f :: fs).filter (fun f => lower f.1 = bytes "content-length") =
        fs.filter (fun f => lower f.1 = bytes "content-length") := by
    intro f hf fs
    rw [List.filter_cons_of_neg]
    simpa using hf
  have htype : lower (bytes "Content-Type") ≠ bytes "content-length" := by decide
  have hdate : lower (bytes "Date") ≠ bytes "content-length" := by decide
  have hconnection : lower (bytes "Connection") ≠ bytes "content-length" := by decide
  have halive : lower (bytes "Keep-Alive") ≠ bytes "content-length" := by decide
  have hlength : [(bytes "Content-Length", num resp.body.length)].filter
      (fun f : Bytes × Bytes => lower f.1 = bytes "content-length") =
        [(bytes "Content-Length", num resp.body.length)] := by
    rw [List.filter_cons_of_pos]
    · rfl
    · rw [decide_eq_true_eq]
      exact lower_contentLength
  unfold fieldsOf ownFields
  rw [List.filter_append, hkept, List.nil_append, List.filter_append, List.filter_append,
    List.filter_append, hother hdate]
  have hfirst : (if (!haveType resp.headers && decide (resp.body ≠ [])) = true then
      [(bytes "Content-Type", bytes "text/plain; charset=utf-8")] else []).filter
      (fun f : Bytes × Bytes => lower f.1 = bytes "content-length") = [] := by
    split
    · rw [hother htype]
      rfl
    · rfl
  have hlast : (if keepAlive = true then
      [(bytes "Connection", bytes "keep-alive"), (bytes "Keep-Alive", bytes "timeout=5")]
      else [(bytes "Connection", bytes "close")]).filter
      (fun f : Bytes × Bytes => lower f.1 = bytes "content-length") = [] := by
    split
    · rw [hother hconnection, hother halive]
      rfl
    · rw [hother hconnection]
      rfl
  rw [hfirst, hlast]
  split
  · rfl
  · rw [hlength]
    rfl

/-- A response is framed as its head says, unless a body was given to a status without one
    and is sent. -/
theorem responseFramed_iff : ResponseFramed resp headOnly keepAlive tm ↔
    (headOnly = true ∨ isBodyless resp.status = false ∨ resp.body = []) := by
  constructor
  · intro h
    cases headOnly with
    | true => exact .inl rfl
    | false =>
      cases hb : isBodyless resp.status with
      | false => exact .inr (.inl rfl)
      | true =>
        have hnone := h.length
        rw [hb, Bool.or_true, if_pos rfl] at hnone
        by_cases hbody : resp.body = []
        · exact .inr (.inr hbody)
        · simp [writeResponse, hbody] at hnone
  · intro h
    refine ⟨head_eq resp headOnly keepAlive tm, plain_statusLine resp.status,
      plain_fieldsOf resp keepAlive tm, noCoding_fieldsOf resp keepAlive tm, ?_⟩
    rw [lengths_fieldsOf]
    by_cases hnone : (headOnly || isBodyless resp.status) = true
    · rw [if_pos hnone]
      simp only [writeResponse]
      rcases h with h | h | h
      · rw [h]
        rfl
      · rw [h, Bool.or_false] at hnone
        rw [hnone]
        rfl
      · simp [h]
    · rw [if_neg hnone]
      rw [Bool.or_eq_true, not_or] at hnone
      have hhead : headOnly = false := by simpa using hnone.1
      rw [if_neg hnone.2]
      simp only [writeResponse, hhead, Bool.false_or, decide_eq_true_eq]
      split
      · next hempty => rw [hempty]
      · rfl

end Response

/-! ## A connection in both directions -/

/-- What `ReadRequest` takes for requests is the one reading of what the peer sends. -/
def RequestsFramed (stream : Bytes) : Prop :=
  ∀ limits late n pending, Received pending → pending.flatten = stream →
    ∃ ms t, Reading (Message RfcToken) stream ms t ∧
      List.Forall₂ Shows (readRequests limits late n 0 (connect pending)).1 ms ∧
        rest (readRequests limits late n 0 (connect pending)).2 = t ∧
          ∀ ms' t', Reading (Message RfcToken) stream ms' t' → ms'.length = ms.length →
            ms' = ms ∧ t' = t

/-- No request of the stream that passes every other check has a NUL in a name. -/
def NulFree (stream : Bytes) : Prop :=
  ∀ ms t, Reading Accepted stream ms t → ∀ m ∈ ms, NulFreeMsg m

/-- The pieces of a stream that `recv` may give one byte at a time. -/
def byteByByte (stream : Bytes) : List Bytes := stream.map ([·])

theorem received_byteByByte (stream : Bytes) : Received (byteByByte stream) := by
  intro chunk hchunk
  obtain ⟨c, -, rfl⟩ := List.mem_map.mp hchunk
  exact ⟨by simp, by simp [chunkSize]⟩

theorem flatten_byteByByte (stream : Bytes) : (byteByByte stream).flatten = stream := by
  induction stream with
  | nil => rfl
  | cons c s ih =>
    rw [byteByByte, List.map_cons, List.flatten_cons]
    exact congrArg (c :: ·) ih

theorem upper_zero {s : Bytes} (h : 0 ∈ s) : 0 ∈ upper s := by
  have hzero : toUpper 0 = 0 := by decide
  have := List.mem_map_of_mem (f := toUpper) h
  rwa [hzero] at this

/-- Two messages that one request shows have the same names. -/
theorem nulFree_of_shows {reqs : List Request} {ms ms' : List Msg}
    (h : List.Forall₂ Shows reqs ms) (h' : List.Forall₂ Shows reqs ms')
    (hrfc : ∀ m ∈ ms', RfcToken m.method ∧ ∀ f ∈ m.fields, 0 ∉ f.1) :
    ∀ m ∈ ms, NulFreeMsg m := by
  induction h generalizing ms' with
  | nil =>
    intro m hm
    cases hm
  | @cons req m reqs ms hshows _ ih =>
    cases h' with
    | @cons _ m' _ ms' hshows' hrest' =>
      intro k hk
      rcases List.mem_cons.mp hk with rfl | hk
      · obtain ⟨htok, hnames⟩ := hrfc m' List.mem_cons_self
        constructor
        · intro hzero
          have hupper : upper k.method = upper m'.method := by
            rw [← hshows.method, hshows'.method]
          have hmem := upper_zero hzero
          rw [hupper] at hmem
          have hloose := (rfcToken_iff.mp htok).2
          obtain ⟨c, hc, hc0⟩ := List.mem_map.mp hmem
          have hupper0 : ∀ c : Byte, toUpper c = 0 → c = 0 :=
            forall_byte (P := fun c => toUpper c = 0 → c = 0) (by decide +kernel)
          exact hloose (hupper0 c hc0 ▸ hc)
        · rw [← hshows.headers, hshows'.headers]
          exact hnames
      · exact ih hrest' (fun m hm => hrfc m (List.mem_cons_of_mem _ hm)) k hk

theorem requestsFramed_iff (stream : Bytes) : RequestsFramed stream ↔ NulFree stream := by
  constructor
  · intro h ms t hreading
    -- with room for the whole stream, every message of the reading is read
    let limits : Limits := ⟨stream.length, 2 * stream.length, stream.length, stream.length⟩
    have hread := readRequests_of_reading limits
      (fun _ _ => rfl) hreading 0 (steady_connect (received_byteByByte stream))
      (by rw [rest_connect, flatten_byteByByte]) ⟨Nat.le_refl _, Nat.le_refl _, Nat.le_refl _,
        Nat.le_refl _⟩
    obtain ⟨ms', t', hreading', hshows, -⟩ := h limits (fun _ _ => false) ms.length _
      (received_byteByByte stream) (flatten_byteByByte stream)
    refine nulFree_of_shows hread hshows (hreading'.forall ?_)
    intro o m hm
    have hfree := message_rfc_iff.mp hm
    obtain ⟨-, -, -, -, -, -, -, -, htok, -⟩ := hm
    exact ⟨htok, hfree.2.2⟩
  · intro hfree limits late n pending hreceived hflatten
    obtain ⟨ms, hreading, hshows⟩ := readRequests_reading limits late n 0
      (steady_connect hreceived)
    rw [rest_connect, hflatten] at hreading
    have hrfc : Reading (Message RfcToken) stream ms
        (rest (readRequests limits late n 0 (connect pending)).2) :=
      hreading.imp fun o m hm haccepted =>
        message_rfc_iff.mpr ⟨haccepted.1, hfree ms _ hreading m hm⟩
    refine ⟨ms, _, hrfc, hshows, rfl, ?_⟩
    intro ms' t' hreading' hlen
    exact hrfc.unique (unambiguous_message stops_rfcToken) hreading' hlen

/-- The framing is unambiguous exactly where no name has a NUL and no status without a body
    has one. -/
theorem framing_iff (stream : Bytes) (resp : Response) (headOnly keepAlive : Bool) (tm : Tm) :
    (RequestsFramed stream ↔ NulFree stream) ∧
      (ResponseFramed resp headOnly keepAlive tm ↔
        (headOnly = true ∨ isBodyless resp.status = false ∨ resp.body = [])) :=
  ⟨requestsFramed_iff stream, responseFramed_iff resp headOnly keepAlive tm⟩

/-! ## A name with a NUL, and a body on 204 -/

/-- The name of the coding field with a NUL behind it, which a peer may drop. -/
def nulStream : Bytes :=
  bytes "POST / HTTP/1.1\r\nTransfer-Encoding" ++ [0] ++ bytes ": chunked\r\n\r\n"

theorem nul_name_accepted :
    ¬(∀ stream, RequestsFramed stream) ∧
      ¬∀ resp headOnly keepAlive tm, ResponseFramed resp headOnly keepAlive tm := by
  constructor
  · intro hall
    let limits : Limits := ⟨8192, 16384, 64, 10485760⟩
    have hread : (readRequests limits (fun _ _ => false) 1 0 (connect [nulStream])).1 =
        [⟨bytes "POST", bytes "/", bytes "/", [], bytes "HTTP/1.1",
          [(bytes "Transfer-Encoding" ++ [0], bytes "chunked")], []⟩] := by
      decide +kernel
    have hreceived : Received [nulStream] := by
      intro chunk hchunk
      rw [List.mem_singleton.mp hchunk]
      exact ⟨by decide, by decide⟩
    obtain ⟨ms, t, hreading, hshows, -⟩ := hall nulStream limits (fun _ _ => false) 1 [nulStream]
      hreceived (List.append_nil _)
    rw [hread] at hshows
    cases hshows with
    | cons hfirst hrest =>
      have hnames := hreading.forall (P := fun m => ∀ f ∈ m.fields, 0 ∉ f.1)
        (fun o m hm => (message_rfc_iff.mp hm).2.2) _ List.mem_cons_self
      rw [← hfirst.headers] at hnames
      exact hnames _ List.mem_cons_self (by decide)
  · intro hall
    have hframed := hall ⟨204, [], bytes "gone"⟩ false true ⟨0, 1, 0, 1970, 0, 0, 0⟩
    rw [responseFramed_iff] at hframed
    revert hframed
    decide

end QuackMail.Http
