import QuackMail.Http.Request
import QuackMail.Lib.Framing
import QuackMail.Net.Reads

/-! # The framing of requests

What a stream says as a sequence of HTTP messages, and that `ReadRequest` reads it so.  A
message is its head, line by line, and the octets that `Content-Length` counts; the stream
alone says where it ends.
-/

namespace QuackMail.Http

open Net Framing

/-! ## Messages -/

/-- A line with its end: a line feed, and a carriage return before it. -/
def Line (o line : Bytes) : Prop :=
  ∃ content, ch '\n' ∉ content ∧ o = content ++ [ch '\n'] ∧ line = stripCr content

/-- Empty lines, and the line behind them. -/
abbrev StartOf : Bytes → List Bytes × Bytes → Prop := Until Line (· ≠ [])

/-- Lines up to an empty one. -/
abbrev HeadOf : Bytes → List Bytes × Bytes → Prop := Until Line (· = [])

def tchar (c : Byte) : Prop :=
  isAlpha c = true ∨ isDigit c = true ∨ c ∈ bytes "!#$%&'*+-.^_`|~"

/-- A `token`. -/
def RfcToken (s : Bytes) : Prop := s ≠ [] ∧ ∀ c ∈ s, tchar c

/-- What the code takes for a token. -/
def LooseToken (s : Bytes) : Prop := isToken s = true

structure Msg where
  /-- the empty lines before it -/
  blanks : Nat
  method : Bytes
  target : Bytes
  version : Bytes
  fields : Headers
  body : Bytes

def Msg.start (m : Msg) : Bytes := m.method ++ ch ' ' :: (m.target ++ ch ' ' :: m.version)

/-- A header line: a name, a colon and a value, and no continuation of the line before. -/
def Field (tok : Bytes → Prop) (line : Bytes) (f : Bytes × Bytes) : Prop :=
  line.head? ≠ some (ch ' ') ∧ line.head? ≠ some (ch '\t') ∧ tok f.1 ∧
    ∃ raw, line = f.1 ++ ch ':' :: raw ∧ f.2 = trim raw

def Decimal (v : Bytes) (n : Nat) : Prop :=
  v ≠ [] ∧ (∀ c ∈ v, isDigit c = true) ∧ digitsFrom 0 v = n

/-- The fields leave one length for the body. -/
structure BodyLength (fields : Headers) (n : Nat) : Prop where
  noCoding : ∀ f ∈ fields, lower f.1 ≠ bytes "transfer-encoding"
  agreed : ∀ f ∈ fields, lower f.1 = bytes "content-length" → Decimal f.2 n
  absent : (∀ f ∈ fields, lower f.1 ≠ bytes "content-length") → n = 0

/-- The octets of a message. -/
def Message (tok : Bytes → Prop) (o : Bytes) (m : Msg) : Prop :=
  ∃ o₁ o₂ blanks lines, StartOf o₁ (blanks, m.start) ∧ HeadOf o₂ (lines, []) ∧
    o = o₁ ++ o₂ ++ m.body ∧ blanks.length = m.blanks ∧ tok m.method ∧ ch ' ' ∉ m.target ∧
      List.Forall₂ (Field tok) lines m.fields ∧ BodyLength m.fields m.body.length

/-- The request shows the message. -/
structure Shows (r : Request) (m : Msg) : Prop where
  method : r.method = upper m.method
  target : r.target = m.target
  version : r.version = m.version
  headers : r.headers = m.fields
  body : r.body = m.body

/-! ## One reading -/

theorem unambiguous_line : Unambiguous Line := unambiguous_ended (ch '\n')

/-- A token ends before a colon or a space. -/
def Stops (tok : Bytes → Prop) : Prop := ∀ s, tok s → ch ':' ∉ s ∧ ch ' ' ∉ s

theorem Field.unique {tok : Bytes → Prop} (htok : Stops tok) {line : Bytes} {f g : Bytes × Bytes}
    (hf : Field tok line f) (hg : Field tok line g) : f = g := by
  obtain ⟨-, -, htf, raw, hline, hvalue⟩ := hf
  obtain ⟨-, -, htg, raw', hline', hvalue'⟩ := hg
  obtain ⟨hname, hraw⟩ := append_cons_inj (htok _ htf).1 (htok _ htg).1 (hline.symm.trans hline')
  exact Prod.ext hname (by rw [hvalue, hvalue', hraw])

theorem fields_unique {tok : Bytes → Prop} (htok : Stops tok) {lines : List Bytes}
    {fs gs : Headers} (hf : List.Forall₂ (Field tok) lines fs)
    (hg : List.Forall₂ (Field tok) lines gs) : fs = gs := by
  induction hf generalizing gs with
  | nil =>
    cases hg
    rfl
  | cons hfirst _ ih =>
    cases hg with
    | cons hfirst' hrest' => rw [hfirst.unique htok hfirst', ih hrest']

theorem BodyLength.unique {fields : Headers} {n k : Nat} (hn : BodyLength fields n)
    (hk : BodyLength fields k) : n = k := by
  by_cases habsent : ∀ f ∈ fields, lower f.1 ≠ bytes "content-length"
  · rw [hn.absent habsent, hk.absent habsent]
  · obtain ⟨f, hf, hname⟩ : ∃ f ∈ fields, lower f.1 = bytes "content-length" := by
      by_contra hnone
      exact habsent fun f hf hname => hnone ⟨f, hf, hname⟩
    rw [← (hn.agreed f hf hname).2.2, ← (hk.agreed f hf hname).2.2]

/-- The start line says its three parts. -/
theorem start_unique (m m' : Msg) (hm : ch ' ' ∉ m.method) (hm' : ch ' ' ∉ m'.method)
    (ht : ch ' ' ∉ m.target) (ht' : ch ' ' ∉ m'.target) (h : m.start = m'.start) :
    m.method = m'.method ∧ m.target = m'.target ∧ m.version = m'.version := by
  obtain ⟨hmethod, hrest⟩ := append_cons_inj hm hm' h
  obtain ⟨htarget, hversion⟩ := append_cons_inj ht ht' hrest
  exact ⟨hmethod, htarget, hversion⟩

/-- The stream alone says where a message ends. -/
theorem unambiguous_message {tok : Bytes → Prop} (htok : Stops tok) :
    Unambiguous (Message tok) := by
  intro o o' t t' m m' hm hm' heq
  obtain ⟨o₁, o₂, blanks, lines, hstart, hhead, ho, hblanks, htm, htarget, hfields, hlength⟩ := hm
  obtain ⟨p₁, p₂, blanks', lines', hstart', hhead', ho', hblanks', htm', htarget', hfields',
    hlength'⟩ := hm'
  subst ho ho'
  simp only [List.append_assoc] at heq
  obtain ⟨hp₁, hvalue⟩ := unambiguous_line.until _ o₁ p₁ _ _ _ _ hstart hstart' heq
  rw [Prod.mk.injEq] at hvalue
  subst hp₁
  rw [List.append_cancel_left_eq] at heq
  obtain ⟨hp₂, hlines⟩ := unambiguous_line.until _ o₂ p₂ _ _ _ _ hhead hhead' heq
  rw [Prod.mk.injEq] at hlines
  subst hp₂
  rw [List.append_cancel_left_eq] at heq
  have hf : m.fields = m'.fields := fields_unique htok hfields (hlines.1 ▸ hfields')
  have hlen : m.body.length = m'.body.length := hlength.unique (hf ▸ hlength')
  obtain ⟨hbody, -⟩ := List.append_inj heq hlen
  obtain ⟨hmethod, htgt, hversion⟩ := start_unique m m' (htok _ htm).2 (htok _ htm').2 htarget
    htarget' hvalue.2
  refine ⟨by rw [hbody], ?_⟩
  cases m
  cases m'
  simp_all

end QuackMail.Http
