import QuackMail.Bytes

/-! # Client streams

The receive buffer of `net::ClientStream` and the reads that share it.  What the
peer sends arrives in pieces: `pending` is the list of the results `recv` (or
`SSL_read`) gives from now on, and after the last of them it reports the end.
-/

namespace QuackMail.Net

/-- `kChunk`. -/
def chunkSize : Nat := 8192

structure ClientStream where
  rbuf : Bytes
  rpos : Nat
  pending : List Bytes
  deriving DecidableEq

/-- A connection nothing was read from yet. -/
def connect (pending : List Bytes) : ClientStream := ⟨[], 0, pending⟩

/-- `FillBuffer`: drop what is consumed and append one result. -/
def fillBuffer (s : ClientStream) : ClientStream × Bool :=
  match s.pending with
  | [] => (⟨s.rbuf.drop s.rpos, 0, []⟩, false)
  | chunk :: pending => (⟨s.rbuf.drop s.rpos ++ chunk, 0, pending⟩, true)

def stripCr (line : Bytes) : Bytes := if line.getLast? = some (ch '\r') then line.dropLast else line

/-- The loop of `ReadLine`; every round takes one result, so one round more than there
    are results is enough. -/
def readLineLoop (maxLen : Nat) : Nat → ClientStream → ClientStream × Option Bytes
  | 0, s => (s, none)
  | fuel + 1, s =>
    match findCharFrom (ch '\n') s.rbuf s.rpos with
    | some nl =>
      ({ s with rpos := nl + 1 }, some (stripCr ((s.rbuf.drop s.rpos).take (nl - s.rpos))))
    | none =>
      if s.rbuf.length - s.rpos > maxLen then (s, none)
      else
        match fillBuffer s with
        | (s', false) => (s', none)
        | (s', true) => readLineLoop maxLen fuel s'

/-- `ReadLine`. -/
def readLine (maxLen : Nat) (s : ClientStream) : ClientStream × Option Bytes :=
  readLineLoop maxLen (s.pending.length + 1) s

def readByteLoop : Nat → ClientStream → ClientStream × Option Byte
  | 0, s => (s, none)
  | fuel + 1, s =>
    match s.rbuf[s.rpos]? with
    | some c => ({ s with rpos := s.rpos + 1 }, some c)
    | none =>
      match fillBuffer s with
      | (s', false) => (s', none)
      | (s', true) => readByteLoop fuel s'

/-- `ReadByte`. -/
def readByte (s : ClientStream) : ClientStream × Option Byte :=
  readByteLoop (s.pending.length + 1) s

/-- `ReadAvailable`. -/
def readAvailable (maxBytes : Nat) (s : ClientStream) : ClientStream × Option Bytes :=
  let take := fun (s : ClientStream) =>
    let n := min maxBytes (s.rbuf.length - s.rpos)
    ({ s with rpos := s.rpos + n }, some ((s.rbuf.drop s.rpos).take n))
  if s.rpos ≥ s.rbuf.length then
    match fillBuffer s with
    | (s', false) => (s', none)
    | (s', true) => take s'
  else take s

def readNLoop (n : Nat) : Nat → Bytes → ClientStream → ClientStream × Bool × Bytes
  | 0, out, s => (s, false, out)
  | fuel + 1, out, s =>
    if out.length < n then
      let step := fun (s : ClientStream) =>
        let take := min (n - out.length) (s.rbuf.length - s.rpos)
        readNLoop n fuel (out ++ (s.rbuf.drop s.rpos).take take) { s with rpos := s.rpos + take }
      if s.rpos ≥ s.rbuf.length then
        match fillBuffer s with
        | (s', false) => (s', false, out)
        | (s', true) => step s'
      else step s
    else (s, true, out)

/-- `ReadN`: what arrived is handed out also where it is not enough. -/
def readN (n : Nat) (s : ClientStream) : ClientStream × Bool × Bytes :=
  readNLoop n (s.pending.length + 2) [] s

/-! ## What is still to be read -/

/-- The part of the buffer that is not consumed. -/
def unread (s : ClientStream) : Bytes := s.rbuf.drop s.rpos

theorem length_unread (s : ClientStream) : (unread s).length = s.rbuf.length - s.rpos :=
  List.length_drop

/-- The rest of what the peer sends. -/
def rest (s : ClientStream) : Bytes := unread s ++ s.pending.flatten

/-- What `recv` can give: from 1 to `chunkSize` bytes. -/
def Received (pending : List Bytes) : Prop := ∀ chunk ∈ pending, chunk ≠ [] ∧ chunk.length ≤ chunkSize

/-- Only a buffer that came with the last result holds a line feed. -/
structure Steady (s : ClientStream) : Prop where
  received : Received s.pending
  fresh : ch '\n' ∈ unread s → (unread s).length ≤ chunkSize

theorem steady_connect {pending : List Bytes} (h : Received pending) : Steady (connect pending) :=
  ⟨h, by simp [unread, connect]⟩

@[simp] theorem rest_connect (pending : List Bytes) : rest (connect pending) = pending.flatten := by
  simp [rest, unread, connect]

theorem unread_advance (s : ClientStream) (n : Nat) :
    unread { s with rpos := s.rpos + n } = (unread s).drop n := by
  simp [unread]

theorem rest_fillBuffer (s : ClientStream) : rest (fillBuffer s).1 = rest s := by
  unfold fillBuffer rest unread
  cases s.pending <;> simp

theorem fillBuffer_false {s s' : ClientStream} (h : fillBuffer s = (s', false)) :
    s.pending = [] ∧ unread s' = unread s ∧ s'.pending = [] := by
  unfold fillBuffer at h
  cases hp : s.pending with
  | nil =>
    simp only [hp, Prod.mk.injEq, and_true] at h
    subst h
    simp [unread]
  | cons chunk pending => simp [hp] at h

theorem fillBuffer_true {s s' : ClientStream} (h : fillBuffer s = (s', true)) :
    ∃ chunk, s.pending = chunk :: s'.pending ∧ unread s' = unread s ++ chunk := by
  unfold fillBuffer at h
  cases hp : s.pending with
  | nil => simp [hp] at h
  | cons chunk pending =>
    simp only [hp, Prod.mk.injEq, and_true] at h
    subst h
    exact ⟨chunk, rfl, by simp [unread]⟩

end QuackMail.Net
