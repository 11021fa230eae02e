import QuackMail.Jmap.Effects
import QuackMail.Pop3.Session

/-! # The snapshot of a session

What a POP3 session keeps from its login to its end: the numbers of its messages, its user, and
for each message the size of what `RETR` sends.  A second `PASS` takes a new snapshot, and the
sizes are those of the rendered messages, so both have to be harmless.
-/

namespace QuackMail.Pop3

open Citadel Net

variable {cfg : Config}

/-! ## What is sent -/

/-- The octets `SendDotStuffed` sends of a text, before it stuffs them and without the dot. -/
def octets (raw : Bytes) : Nat := ((textLines raw).flatMap fun line => stripCr line ++ crlf).length

/-- Every line ends in CRLF, and no LF stands elsewhere. -/
def Canonical (raw : Bytes) : Prop :=
  ∃ lines : List Bytes, (∀ line ∈ lines, ch '\n' ∉ line) ∧ raw = joinLines lines

theorem textLines_joinLines {lines : List Bytes} (h : ∀ line ∈ lines, ch '\n' ∉ line) :
    textLines (joinLines lines) = lines.map (· ++ [ch '\r']) := by
  induction lines with
  | nil => rfl
  | cons line lines ih =>
    have hclean : ch '\n' ∉ line ++ [ch '\r'] := by
      rw [List.mem_append, not_or]
      exact ⟨h line List.mem_cons_self, by decide⟩
    have hsplit : joinLines (line :: lines) =
        (line ++ [ch '\r']) ++ ch '\n' :: joinLines lines := by
      simp [joinLines, crlf]
    rw [hsplit, textLines, linesFrom_append hclean, linesFrom, if_pos rfl, List.nil_append,
      List.map_cons, ← ih fun l hl => h l (List.mem_cons_of_mem _ hl), textLines]

theorem octets_of_canonical {raw : Bytes} (h : Canonical raw) : octets raw = raw.length := by
  obtain ⟨lines, hclean, rfl⟩ := h
  rw [octets, textLines_joinLines hclean, List.flatMap_map]
  have hstrip : ∀ line : Bytes, stripCr (line ++ [ch '\r']) ++ crlf = line ++ crlf := by
    intro line
    rw [stripCr_concat]
  simp only [hstrip]
  rfl

/-! ## Messages by their numbers -/

/-- The messages `E'` are those of `E` as far as the store has given out numbers. -/
def Extends (E : Nat → Message) (s : Store) (E' : Nat → Message) (s' : Store) : Prop :=
  (∀ n < s.seq, E' n = E n) ∧ Ok E' s' ∧ s.seq ≤ s'.seq

variable {E : Nat → Message} {s : Store}

theorem Extends.refl (hok : Ok E s) : Extends E s E s :=
  ⟨fun _ _ => rfl, hok, Nat.le_refl _⟩

theorem extends_of_evolves {s' : Store} (hok : Ok E s)
    (h : Evolves 0 0 s s') : ∃ E', Extends E s E' s' := by
  obtain ⟨E', heq, hok', hseq, -⟩ := h E hok hok.seqPos
  exact ⟨E', heq, hok', hseq⟩

theorem extends_other (hok : Ok E s) (o : Other) : ∃ E', Extends E s E' (o.apply s) := by
  cases o with
  | deliver w msg rooms => exact extends_of_evolves hok (evolves_insertMessage _ _ _ _ _ _)
  | delete w room msgnum => exact extends_of_evolves hok (evolves_deleteMessage _ _ _ _ _ _)
  | expire w => exact extends_of_evolves hok (evolves_runExpiry _ _ _ _)

theorem evolves_deleteMarked (w : World) (room : Nat) (es : List Entry) (s : Store) :
    Evolves 0 0 s (deleteMarked w room es s) := by
  induction es generalizing s with
  | nil => exact .refl _ _ _
  | cons e es ih =>
    rw [deleteMarked]
    split
    · exact (evolves_deleteMessage _ _ w s room e.msgnum).trans (ih _)
    · exact ih s

theorem extends_applyUpdate {db : Db} (hok : Ok E db.store) (w : World)
    (user : Bytes) (drop : Maildrop) :
    ∃ E', Extends E db.store E' (applyUpdate cfg w user drop db).store := by
  rw [applyUpdate]
  split
  · exact ⟨E, .refl hok⟩
  · next room _ =>
    have hdeleted := extends_of_evolves hok (evolves_deleteMarked w room drop.msgs db.store)
    dsimp only
    split
    · exact hdeleted
    · exact hdeleted

/-- The message under a number. -/
theorem loadMessage_label (hok : Ok E s) {n : Nat} {msg : Message}
    (h : loadMessage s n = some msg) : msg = E n ∧ n < s.seq := by
  obtain ⟨row, hrow, rfl⟩ := Option.map_eq_some_iff.mp h
  obtain ⟨hmem, hnum⟩ := findRow_msgnum hrow
  rw [← hnum]
  exact ⟨hok.rowLabel row hmem, (hok.rows row hmem).2⟩

/-! ## Deleting -/

/-- The messages that are marked leave the room, and no others. -/
theorem messageInRoom_deleteMarked (w : World) (room : Nat) (es : List Entry) (s : Store)
    (n m : Nat) : messageInRoom (deleteMarked w room es s) n m = true ↔
      messageInRoom s n m = true ∧ ¬(n = room ∧ ∃ e ∈ es, e.deleted = true ∧ e.msgnum = m) := by
  induction es generalizing s with
  | nil => simp [deleteMarked]
  | cons e es ih =>
    rw [deleteMarked]
    split
    · next hmarked =>
      rw [ih, Jmap.messageInRoom_deleteMessage, and_assoc]
      refine and_congr_right fun _ => ?_
      constructor
      · rintro ⟨hother, hrest⟩ ⟨hroom, e', he', hmarked', hnum⟩
        cases List.mem_cons.mp he' with
        | inl heq => exact hother ⟨hroom, by rw [← hnum, heq]⟩
        | inr hmem => exact hrest ⟨hroom, e', hmem, hmarked', hnum⟩
      · intro hnot
        refine ⟨fun hboth => hnot ⟨hboth.1, e, List.mem_cons_self, hmarked, hboth.2.symm⟩, ?_⟩
        rintro ⟨hroom, e', he', hmarked', hnum⟩
        exact hnot ⟨hroom, e', List.mem_cons_of_mem _ he', hmarked', hnum⟩
    · next hkept =>
      rw [ih]
      refine and_congr_right fun _ => not_congr (and_congr_right fun _ => ?_)
      constructor
      · rintro ⟨e', he', hrest⟩
        exact ⟨e', List.mem_cons_of_mem _ he', hrest⟩
      · rintro ⟨e', he', hmarked', hnum⟩
        cases List.mem_cons.mp he' with
        | inl heq => rw [heq] at hmarked'; exact absurd hmarked' hkept
        | inr hmem => exact ⟨e', hmem, hmarked', hnum⟩

theorem messageInRoom_applyUpdate (w : World) (user : Bytes) (drop : Maildrop) (db : Db)
    (n m : Nat) : messageInRoom (applyUpdate cfg w user drop db).store n m = true ↔
      messageInRoom db.store n m = true ∧
        ¬(cfg.mailRoom user = some n ∧ ∃ e ∈ drop.msgs, e.deleted = true ∧ e.msgnum = m) := by
  rw [applyUpdate]
  split
  · next hnone => simp [hnone]
  · next room hroom =>
    have hsame : ∀ db' : Db, db'.store = deleteMarked w room drop.msgs db.store →
        (messageInRoom db'.store n m = true ↔ messageInRoom db.store n m = true ∧
          ¬(cfg.mailRoom user = some n ∧ ∃ e ∈ drop.msgs, e.deleted = true ∧ e.msgnum = m)) := by
      intro db' hdb
      rw [hdb, messageInRoom_deleteMarked, hroom, Option.some.injEq, eq_comm (a := n)]
    dsimp only
    split
    · exact hsame _ rfl
    · exact hsame _ rfl

/-! ## Loading -/

/-- An entry that was just loaded: its message is there, and it is not marked. -/
def Loaded (cfg : Config) (s : Store) (e : Entry) : Prop :=
  e.deleted = false ∧ ∃ msg, loadMessage s e.msgnum = some msg ∧
    e.size = (cfg.renderRfc822 msg).length

/-- The entry of a message that is there. -/
def loadEntry (cfg : Config) (s : Store) (m : Nat) : Option Entry :=
  (loadMessage s m).map fun msg => ⟨m, (cfg.renderRfc822 msg).length, false⟩

theorem loadEntries_msgs (s : Store) (lastRead : Nat) (ms : List Nat) (drop : Maildrop) :
    (loadEntries cfg s lastRead ms drop).msgs = drop.msgs ++ ms.filterMap (loadEntry cfg s) := by
  induction ms generalizing drop with
  | nil => simp [loadEntries]
  | cons m ms ih =>
    rw [loadEntries, List.filterMap_cons, loadEntry]
    split
    · next hnone => rw [hnone, ih]; rfl
    · next msg hmsg => rw [hmsg, ih, List.append_assoc]; rfl

/-- The messages of the mail room of a user. -/
def mailMessages (cfg : Config) (s : Store) (username : Bytes) : List Nat :=
  match cfg.mailRoom username with
  | none => []
  | some room => roomMessages s room

theorem loadMaildrop_msgs (db : Db) (username : Bytes) : (loadMaildrop cfg db username).msgs =
      (mailMessages cfg db.store username).filterMap (loadEntry cfg db.store) := by
  rw [loadMaildrop, mailMessages]
  cases cfg.mailRoom username with
  | none => rfl
  | some room =>
    dsimp only
    rw [loadEntries_msgs, List.nil_append]

theorem loadEntry_some {m : Nat} {e : Entry} (h : loadEntry cfg s m = some e) :
    e.msgnum = m ∧ Loaded cfg s e := by
  obtain ⟨msg, hmsg, rfl⟩ := Option.map_eq_some_iff.mp h
  exact ⟨rfl, rfl, msg, hmsg, rfl⟩

theorem loadMaildrop_loaded {db : Db} {username : Bytes} :
    ∀ e ∈ (loadMaildrop cfg db username).msgs, Loaded cfg db.store e ∧
      e.msgnum ∈ mailMessages cfg db.store username := by
  intro e he
  rw [loadMaildrop_msgs] at he
  obtain ⟨m, hm, hentry⟩ := List.mem_filterMap.mp he
  obtain ⟨rfl, hloaded⟩ := loadEntry_some hentry
  exact ⟨hloaded, hm⟩

end QuackMail.Pop3
