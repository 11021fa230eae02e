import QuackMail.Diff.PatchText
import QuackMail.Mime.Header
import QuackMail.Mime.Multipart
import QuackMail.History.Upsert

/-! # The history of a page

`History` and `RevisionRaw` of `wiki.cpp`, and what they read of a history message
that `RecordRevision` wrote.
-/

namespace QuackMail.Wiki

set_option maxRecDepth 20000

open Citadel Diff Mime

/-! ## Reading a history -/

structure Revision where
  rev : Int
  timestamp : Int
  author : Bytes
  diff : Bytes

def allDigits (s : Bytes) : Bool := decide (s ≠ []) && s.all isDigit

/-- `ParseMemo`: number, time and author of a memo, its trailing NULs dropped. -/
def parseMemo (decoded : Bytes) : Option (Int × Int × Bytes) :=
  let memo := decoded.rdropWhile (fun c => decide (c = 0))
  match findChar (ch '|') memo with
  | none => none
  | some p1 =>
    let rev := memo.take p1
    if allDigits rev = false then none
    else
      match findCharFrom (ch '|') memo (p1 + 1) with
      | none => some (strtoll rev, 0, [])
      | some p2 =>
        let ts := (memo.drop (p1 + 1)).take (p2 - (p1 + 1))
        let author := memo.drop (p2 + 1)
        some (strtoll rev, if allDigits ts then strtoll ts else 0,
          author.take ((findChar (ch '|') author).getD author.length))

/-- One part of a history, `none` for a part that is skipped. -/
def revisionOf (child : MimeEntity) : Option Revision :=
  if child.filename = [] then none
  else
    match Base64.decode child.filename with
    | none => none
    | some decoded =>
      (parseMemo decoded).map (fun m =>
        ⟨m.1, m.2.1, m.2.2, if child.bodyDecoded = [] then child.bodyRaw else child.bodyDecoded⟩)

/-- `kMaxRevisions`. -/
def maxRevisions : Nat := 2000

/-- The revisions of a history message. -/
def revisionsOf (raw : Bytes) : List Revision :=
  if raw = [] then [] else ((parseEntity raw).children.filterMap revisionOf).take maxRevisions

/-- `History`: the revisions of a page, newest first. -/
def history (s : Store) (roomNum : Nat) (page : Bytes) : List Revision :=
  revisionsOf (oldHistory s roomNum page)

/-- Apply the patches in order until the memo names the revision. -/
def walk (rev : Int) : Bytes → List Revision → Except Bytes Bytes
  | _, [] => .error (bytes "There is no revision " ++ numInt rev ++ bytes " of that page.")
  | raw, r :: revs =>
    match Diff.apply raw r.diff with
    | .error e =>
      .error (bytes "Revision " ++ numInt rev ++ bytes " could not be reconstructed: " ++ e)
    | .ok patched => if r.rev = rev then .ok patched else walk rev patched revs

/-- `RevisionRaw`: revision 0 is the current one. -/
def revisionRaw (s : Store) (roomNum : Nat) (page : Bytes) (rev : Int) : Except Bytes Bytes :=
  match (findByEuid s roomNum page).filter (0 < ·) with
  | none => .error (bytes "There is no page by that name.")
  | some current =>
    match loadMessage s current with
    | none => .error (bytes "The page could not be read.")
    | some msg =>
      if rev = 0 ∨ rev = current then .ok msg.raw else walk rev msg.raw (history s roomNum page)

/-! ## Boundaries -/

/-- A boundary as `NewBoundary` makes them. -/
def IsBoundary (boundary : Bytes) : Prop :=
  ∃ r2 r4, boundary = bytes "Citadel--Multipart--" ++ hex r2 ++ bytes "--" ++ hex r4

theorem isBoundary_new (w : World) : IsBoundary (newBoundary w) := ⟨w.random2, w.random4, rfl⟩

def isHexDigit (c : Byte) : Bool := isDigit c || decide (ch 'a' ≤ c ∧ c ≤ ch 'f')

theorem mem_hex {r : List Byte} {c : Byte} (h : c ∈ hex r) : isHexDigit c = true := by
  have hdigit : ∀ n < 16, isHexDigit (hexDigit n) = true := by decide
  obtain ⟨b, -, hc⟩ := List.mem_flatMap.mp h
  have hlt := b.toNat_lt
  rcases List.mem_cons.mp hc with rfl | hc
  · exact hdigit _ (by omega)
  · rw [List.mem_singleton.mp hc]
    exact hdigit _ (by omega)

/-- A byte of a boundary. -/
def isWord (c : Byte) : Bool := isAlnum c || c == ch '-'

variable {boundary : Bytes}

theorem IsBoundary.word (h : IsBoundary boundary) : ∀ c ∈ boundary, isWord c = true := by
  obtain ⟨r2, r4, rfl⟩ := h
  have hhex : ∀ c : Byte, isHexDigit c = true → isWord c = true :=
    forall_byte (P := fun c => isHexDigit c = true → isWord c = true) (by decide +kernel)
  have hlit : ∀ c ∈ bytes "Citadel--Multipart--", isWord c = true :=
    forall_mem_of_all (by decide +kernel)
  have hdashes : ∀ c ∈ bytes "--", isWord c = true := forall_mem_of_all (by decide)
  intro c hc
  simp only [List.mem_append] at hc
  rcases hc with ((hc | hc) | hc) | hc
  · exact hlit c hc
  · exact hhex c (mem_hex hc)
  · exact hdashes c hc
  · exact hhex c (mem_hex hc)

theorem IsBoundary.head (h : IsBoundary boundary) : ∃ t, boundary = ch 'C' :: t := by
  obtain ⟨r2, r4, rfl⟩ := h
  exact ⟨bytes "itadel--Multipart--" ++ hex r2 ++ bytes "--" ++ hex r4, rfl⟩

theorem isWord_ne {c : Byte} (h : isWord c = true) :
    c ≠ ch '"' ∧ c ≠ ch ';' ∧ c ≠ ch '\n' ∧ c ≠ ch '\r' ∧ c ≠ ch '\\' ∧ c ≠ ch '(' ∧ c ≠ ch '=' :=
  forall_byte (P := fun c => isWord c = true → c ≠ ch '"' ∧ c ≠ ch ';' ∧ c ≠ ch '\n' ∧
    c ≠ ch '\r' ∧ c ≠ ch '\\' ∧ c ≠ ch '(' ∧ c ≠ ch '=') (by decide +kernel) c h

/-! ## The text of a history -/

/-- What a part records: number, time and author of the old version, and the patch that
    leads back to it. -/
structure Entry where
  rev : Nat
  timestamp : Int
  author : Bytes
  patch : Bytes

def typeLine : Bytes := bytes "Content-type: text/x-diff"

def memoLine (e : Entry) : Bytes :=
  bytes "Content-disposition: attachment; filename=\"" ++ encodeMemo e.rev e.timestamp e.author ++
    bytes "\""

/-- A part without its delimiter line. -/
def partContent (e : Entry) : Bytes := unlines [typeLine, memoLine e, []] ++ e.patch

def rootLine (boundary : Bytes) : Bytes :=
  bytes "Content-type: multipart/mixed; boundary=\"" ++ boundary ++ bytes "\""

/-- Everything in front of the parts. -/
def historyHead (boundary : Bytes) : Bytes :=
  rootLine boundary ++ bytes "\n\n" ++ (preamble ++ bytes "\n")

def partsOf (boundary : Bytes) (es : List Entry) : Bytes :=
  partsText (opener boundary) (es.map partContent)

def historyText (boundary : Bytes) (es : List Entry) : Bytes :=
  historyHead boundary ++ partsOf boundary es

/-- An entry whose patch the multipart text gives back: it does not end in CRLF and has no
    line that begins with the delimiter. -/
structure Entry.Kept (boundary : Bytes) (e : Entry) : Prop where
  rev : e.rev ≤ 0x7fffffffffffffff
  isPatch : IsPatch e.patch
  ne : e.patch ≠ []
  ending : ¬bytes "\r\n" <:+ e.patch
  quiet : ∀ line ∈ (split e.patch).v, ¬opener boundary <+: line

/-! ## Writing -/

theorem isPatch_getLast {patch : Bytes} (h : IsPatch patch) (hne : patch ≠ []) :
    patch.getLast? = some (ch '\n') := by
  obtain ⟨lines, rfl, -⟩ := h
  rcases List.eq_nil_or_concat lines with rfl | ⟨front, x, rfl⟩
  · exact absurd rfl hne
  · simp [unlines, Diff.nl]

/-- The text `RecordRevision` puts together. -/
theorem historyBody_eq {e : Entry} (hpatch : IsPatch e.patch)
    (hne : e.patch ≠ []) (es : List Entry) :
    historyBody boundary (encodeMemo e.rev e.timestamp e.author) e.patch (partsOf boundary es) =
      historyText boundary (e :: es) := by
  have hlast := isPatch_getLast hpatch hne
  -- the literals that the two texts cut differently
  have htype : bytes "Content-type: text/x-diff\n" = bytes "Content-type: text/x-diff" ++ [Diff.nl] := by
    rfl
  have hquote : bytes "\"\n\n" = bytes "\"" ++ bytes "\n\n" := rfl
  have hname : bytes "\"\n" = bytes "\"" ++ [Diff.nl] := rfl
  have hline : bytes "\n" = [Diff.nl] := rfl
  have hnl : Mime.nl = Diff.nl := rfl
  simp only [historyBody, historyPart, hlast, ne_eq, not_true_eq_false, and_false, if_false,
    historyText, historyHead, rootLine, partsOf, partsText, List.map_cons, List.flatMap_cons,
    partContent, typeLine, memoLine, unlines, List.flatMap_nil, List.nil_append, List.append_assoc,
    List.append_nil, htype, hquote, hname, hline, hnl, List.cons_append]

/-- A history is started with the closing delimiter alone. -/
theorem historyTail_empty (w : World) :
    historyTail w [] = (newBoundary w, partsOf (newBoundary w) []) := by
  have hnone : boundaryOf [] = [] := by decide
  rw [historyTail, hnone]
  simp [partsOf, partsText, closer, opener, bytes, Mime.nl]

/-- Scan for `--C`: the dashes just seen, at most two, and `none` once it is there. -/
def dashScan : Nat → Bytes → Option Nat
  | st, [] => some st
  | st, c :: x =>
    if c = ch '-' then dashScan (min 2 (st + 1)) x
    else if c = ch 'C' ∧ st = 2 then none
    else dashScan 0 x

theorem dashScan_append (st : Nat) (x y : Bytes) :
    dashScan st (x ++ y) = (dashScan st x).bind (fun st' => dashScan st' y) := by
  induction x generalizing st with
  | nil => rfl
  | cons c x ih =>
    rw [List.cons_append, dashScan, dashScan]
    split
    · exact ih _
    · split
      · rfl
      · exact ih _

/-- Where the scan ends without dashes a needle that starts with `--C` is not found. -/
theorem find_of_dashScan {needle x : Bytes} {st : Nat} (h : dashScan st x = some 0) (s : Bytes) :
    find (ch '-' :: ch '-' :: ch 'C' :: needle) (x ++ s) =
      (find (ch '-' :: ch '-' :: ch 'C' :: needle) s).map (· + x.length) := by
  induction x generalizing st with
  | nil => simp
  | cons c x ih =>
    have hnext : ∃ st', dashScan st' x = some 0 := by
      rw [dashScan] at h
      split at h
      · exact ⟨_, h⟩
      · split at h
        · simp at h
        · exact ⟨_, h⟩
    have hpre : ¬(ch '-' :: ch '-' :: ch 'C' :: needle) <+: c :: (x ++ s) := by
      intro hpre
      obtain ⟨hc, hpre₂⟩ := List.cons_prefix_cons.mp hpre
      rw [← hc, dashScan, if_pos rfl] at h
      cases x with
      | nil =>
        simp only [dashScan, Option.some.injEq] at h
        omega
      | cons d x =>
        rw [List.cons_append] at hpre₂
        obtain ⟨hd, hpre₃⟩ := List.cons_prefix_cons.mp hpre₂
        rw [← hd, dashScan, if_pos rfl, show min 2 (min 2 (st + 1) + 1) = 2 by omega] at h
        cases x with
        | nil => simp [dashScan] at h
        | cons e x =>
          obtain ⟨he, -⟩ := List.cons_prefix_cons.mp hpre₃
          rw [← he, dashScan, if_neg (by decide), if_pos ⟨rfl, rfl⟩] at h
          simp at h
    obtain ⟨st', hst'⟩ := hnext
    rw [List.cons_append, find_cons hpre, ih hst', Option.map_map]
    rfl

theorem dashScan_hex (st : Nat) (r : List Byte) :
    dashScan st (hex r) = some st ∨ dashScan st (hex r) = some 0 := by
  have hplain : ∀ x : Bytes, (∀ c ∈ x, isHexDigit c = true) → ∀ st,
      dashScan st x = some st ∨ dashScan st x = some 0 := by
    intro x
    induction x with
    | nil => exact fun _ st => .inl rfl
    | cons c x ih =>
      intro hx st
      have hc := hx c List.mem_cons_self
      have hdash : c ≠ ch '-' := by
        rintro rfl
        exact absurd hc (by decide)
      have hletter : c ≠ ch 'C' := by
        rintro rfl
        exact absurd hc (by decide)
      rw [dashScan, if_neg hdash, if_neg (fun h => hletter h.1)]
      rcases ih (fun d hd => hx d (List.mem_cons_of_mem _ hd)) 0 with h | h
      · exact .inr h
      · exact .inr h
  exact hplain (hex r) (fun c hc => mem_hex hc) st

/-- The head of a history holds no delimiter. -/
theorem dashScan_head (h : IsBoundary boundary) : dashScan 0 (historyHead boundary) = some 0 := by
  obtain ⟨r2, r4, rfl⟩ := h
  have hshape : historyHead (bytes "Citadel--Multipart--" ++ hex r2 ++ bytes "--" ++ hex r4) =
      bytes "Content-type: multipart/mixed; boundary=\"" ++ (bytes "Citadel--Multipart--" ++
        (hex r2 ++ (bytes "--" ++ (hex r4 ++ (bytes "\"" ++ (bytes "\n\n" ++
          (preamble ++ bytes "\n"))))))) := by
    simp only [historyHead, rootLine, List.append_assoc]
  have hfront : dashScan 0 (bytes "Content-type: multipart/mixed; boundary=\"") = some 0 := by
    rw [bytes_ofList]
    decide +kernel
  have hword : dashScan 0 (bytes "Citadel--Multipart--") = some 2 := by
    rw [bytes_ofList]
    decide +kernel
  have hmid : ∀ st, st = 2 ∨ st = 0 → dashScan st (bytes "--") = some 2 := by
    rintro st (rfl | rfl) <;> decide
  have hrest : ∀ st, st = 2 ∨ st = 0 →
      dashScan st (bytes "\"" ++ (bytes "\n\n" ++ (preamble ++ bytes "\n"))) = some 0 := by
    rw [preamble, bytes_ofList, bytes_ofList, bytes_ofList, bytes_ofList]
    rintro st (rfl | rfl) <;> decide +kernel
  have hhex : ∀ r : List Byte, ∃ st, (st = 2 ∨ st = 0) ∧ dashScan 2 (hex r) = some st := by
    intro r
    rcases dashScan_hex 2 r with h | h
    · exact ⟨2, .inl rfl, h⟩
    · exact ⟨0, .inr rfl, h⟩
  obtain ⟨st2, hst2, h2⟩ := hhex r2
  obtain ⟨st4, hst4, h4⟩ := hhex r4
  rw [hshape, dashScan_append, hfront, Option.bind_some, dashScan_append, hword, Option.bind_some,
    dashScan_append, h2, Option.bind_some,
    dashScan_append, hmid st2 hst2, Option.bind_some, dashScan_append, h4, Option.bind_some,
    hrest st4 hst4]

theorem opener_first (boundary : Bytes) (es : List Entry) :
    opener boundary <+: partsOf boundary es := by
  cases es with
  | nil => exact ⟨bytes "--" ++ [Mime.nl], by simp [partsOf, partsText]⟩
  | cons e es =>
    refine ⟨Mime.nl :: (partContent e ++ partsOf boundary es), ?_⟩
    simp [partsOf, partsText]

theorem find_opener (h : IsBoundary boundary) (es : List Entry) :
    find (opener boundary) (historyText boundary es) = some (historyHead boundary).length := by
  obtain ⟨t, ht⟩ := h.head
  have hopener : opener boundary = ch '-' :: ch '-' :: ch 'C' :: t := by
    rw [opener, ht]
    rfl
  have hpre := opener_first boundary es
  rw [hopener] at hpre ⊢
  rw [historyText, find_of_dashScan (dashScan_head h), find_head hpre]
  simp

theorem find_closer (boundary : Bytes) (es : List Entry) :
    (find (closer boundary) (historyText boundary es)).isSome := by
  have hshape : historyText boundary es =
      (historyHead boundary ++
        (es.map partContent).flatMap (fun x => opener boundary ++ Mime.nl :: x)) ++
        (closer boundary ++ [Mime.nl]) := by
    simp [historyText, partsOf, partsText, closer, opener]
  obtain ⟨q, -, hq⟩ := @exists_find_le (closer boundary) (historyText boundary es)
    (historyHead boundary ++
      (es.map partContent).flatMap (fun x => opener boundary ++ Mime.nl :: x)).length
    (by rw [hshape, List.drop_left]; exact List.prefix_append _ _)
  rw [hq]
  rfl

theorem rootLine_clean (h : IsBoundary boundary) :
    ∀ c ∈ rootLine boundary, c ≠ ch '\r' ∧ c ≠ ch '\n' := by
  have hlit : ∀ c ∈ bytes "Content-type: multipart/mixed; boundary=\"", c ≠ ch '\r' ∧ c ≠ ch '\n' :=
    forall_mem_bytes (by decide)
  have hquote : ∀ c ∈ bytes "\"", c ≠ ch '\r' ∧ c ≠ ch '\n' :=
    forall_mem_of_all (by decide)
  intro c hc
  simp only [rootLine, List.mem_append] at hc
  rcases hc with (hc | hc) | hc
  · exact hlit c hc
  · exact ⟨(isWord_ne (h.word c hc)).2.2.2.1, (isWord_ne (h.word c hc)).2.2.1⟩
  · exact hquote c hc

/-- The headers of a history end with its first line. -/
theorem find_blank_historyText (h : IsBoundary boundary) (es : List Entry) :
    find (bytes "\n\n") (historyText boundary es) = some (rootLine boundary).length := by
  have hline : Mime.nl ∉ rootLine boundary := fun hmem => (rootLine_clean h _ hmem).2 rfl
  have hshape : historyText boundary es =
      rootLine boundary ++ (bytes "\n\n" ++ (preamble ++ bytes "\n" ++ partsOf boundary es)) := by
    simp [historyText, historyHead]
  rw [hshape, show bytes "\n\n" = [Mime.nl, Mime.nl] from rfl, find_skip hline,
    find_head (List.prefix_append _ _)]
  simp

/-- The scan for the boundary finds the one the history was written with. -/
theorem boundaryOf_historyText (h : IsBoundary boundary) (es : List Entry) :
    boundaryOf (historyText boundary es) = boundary := by
  have hword := h.word
  obtain ⟨t, ht⟩ := h.head
  have hlimit := find_blank_historyText h es
  have htake : (historyText boundary es).take (rootLine boundary).length = rootLine boundary := by
    simp [historyText, historyHead]
  -- the header in lower case, up to the boundary and after it
  have hlow : lower (rootLine boundary) =
      bytes "content-type: multipart/mixed; " ++ (bytes "boundary" ++
        ch '=' :: (bytes "\"" ++ lower boundary ++ bytes "\"")) := by
    have hlit : lower (bytes "Content-type: multipart/mixed; boundary=\"") =
        bytes "content-type: multipart/mixed; " ++ (bytes "boundary" ++ (bytes "=\"")) := by
      rw [bytes_ofList, bytes_ofList, bytes_ofList, bytes_ofList]
      decide
    have hequals : bytes "=\"" = ch '=' :: bytes "\"" := bytes_cons _ _
    have hquote : lower (bytes "\"") = bytes "\"" := by decide
    rw [rootLine, lower_append, lower_append, hlit, hequals, hquote]
    simp
  have hct : find (bytes "content-type:") (lower (rootLine boundary)) = some 0 := by
    refine find_head ?_
    have hprefix : bytes "content-type:" <+: bytes "content-type: multipart/mixed; " := by
      rw [bytes_ofList, bytes_ofList]
      decide
    exact hprefix.trans (List.prefix_append _ _)
  have hb : findFrom (bytes "boundary") (lower (rootLine boundary)) 0 = some 31 := by
    rw [findFrom, List.drop_zero, hlow, show bytes "boundary" = ch 'b' :: bytes "oundary" from rfl,
      find_skip (by rw [bytes_ofList]; decide), ← show bytes "boundary" = ch 'b' :: bytes "oundary" from rfl,
      find_head (List.prefix_append _ _), bytes_ofList]
    rfl
  have heq : findCharFrom (ch '=') (lower (rootLine boundary)) 31 = some 39 := by
    have hlength : (bytes "content-type: multipart/mixed; ").length = 31 := by
      rw [bytes_ofList]
      rfl
    rw [findCharFrom, hlow, ← hlength, List.drop_left,
      findChar_append (by rw [bytes_ofList]; decide), hlength, bytes_ofList]
    rfl
  have hvalue : (rootLine boundary).drop 40 = ch '"' :: (boundary ++ [ch '"']) := by
    have hlit : bytes "Content-type: multipart/mixed; boundary=\"" =
        bytes "Content-type: multipart/mixed; boundary=" ++ [ch '"'] := by
      rw [bytes_ofList, bytes_ofList]
      rfl
    have hlength : (bytes "Content-type: multipart/mixed; boundary=").length = 40 := by
      rw [bytes_ofList]
      rfl
    rw [rootLine, hlit, ← hlength, List.append_assoc, List.append_assoc, List.drop_left]
    rfl
  rw [boundaryOf, hlimit]
  simp only [Option.getD_some, htake, hct, hb, heq, hvalue]
  rw [List.dropWhile_cons_of_pos (by decide), ht, List.cons_append,
    List.dropWhile_cons_of_neg (by decide), ← List.cons_append, ← ht,
    List.takeWhile_append_of_pos, List.takeWhile_cons_of_neg (by decide), List.append_nil]
  intro c hc
  obtain ⟨h1, h2, h3, h4, -⟩ := isWord_ne (hword c hc)
  simp [h1, h2, h3, h4]

/-- A history is continued in front of the parts it has. -/
theorem historyTail_historyText (h : IsBoundary boundary) (w : World) (es : List Entry) :
    historyTail w (historyText boundary es) = (boundary, partsOf boundary es) := by
  obtain ⟨t, ht⟩ := h.head
  obtain ⟨last, hlast⟩ := Option.isSome_iff_exists.mp (find_closer boundary es)
  rw [historyTail, boundaryOf_historyText h, find_opener h, hlast, if_neg (by simp [ht])]
  simp [historyText]

end QuackMail.Wiki
