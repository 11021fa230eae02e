import QuackMail.Smtp.Client
import QuackMail.Smtp.Data

/-! # One transaction

What `Deliver` puts on the wire is one line for each command it sends, and its result says what
the peer said, exactly when no address it sends holds a line feed and no reply is of a kind that
its classes misread.
-/

namespace QuackMail.Smtp

open Net

/-- The commands of a dialogue in their order. -/
def order : List Stage :=
  [.ehlo, .starttls, .ehloTls, .auth, .mail, .rcpt, .data, .body, .dot, .quit]

section Lines

variable (mailFrom rcpt raw : Bytes) (opts : ClientOpts)

/-- The lines of a stage: its command, or the message's own ones. -/
def stageLines : Stage → List Bytes
  | .greeting => []
  | .body => (textLines raw).map fun line => stuff (stripCr line)
  | .dot => [dot]
  | stage => [command mailFrom rcpt opts stage]

/-- The bytes of the stages. -/
def wireOf (stages : List Stage) : Bytes :=
  stages.flatMap fun stage => joinLines (stageLines mailFrom rcpt raw opts stage)

end Lines

/-- The lines of a wire as the server reads them: split at line feeds, one return taken off. -/
def commandLines (wire : Bytes) : List Bytes := (textLines wire).map stripCr

theorem joinLines_eq_joined (lines : List Bytes) :
    joinLines lines = joined (lines.map (· ++ [ch '\r'])) := by
  simp [joinLines, joined, List.flatMap_map, crlf]

theorem commandLines_joinLines {lines : List Bytes} (h : ∀ line ∈ lines, ch '\n' ∉ line) :
    commandLines (joinLines lines) = lines := by
  have hclean : ∀ body ∈ lines.map (· ++ [ch '\r']), ch '\n' ∉ body := by
    intro body hbody
    obtain ⟨line, hline, rfl⟩ := List.mem_map.mp hbody
    rw [List.mem_append, not_or]
    exact ⟨h line hline, by decide⟩
  rw [commandLines, joinLines_eq_joined, textLines_joined_nil hclean, List.map_map]
  have hstrip : (stripCr ∘ fun line : Bytes => line ++ [ch '\r']) = id := by
    funext line
    exact stripCr_concat line
  rw [hstrip, List.map_id]

theorem not_mem_commandLines {wire line : Bytes} (h : line ∈ commandLines wire) :
    ch '\n' ∉ line := by
  obtain ⟨body, hbody, rfl⟩ := List.mem_map.mp h
  exact fun hmem => not_mem_textLines (by simp) body hbody (mem_stripCr hmem)

/-! ## The result -/

/-- The reply is none that the classes misread: 354 is the one way on from `DATA`, only 2xx
    accepts the message, and what refuses is 4xx or 5xx. -/
def Expected : Stage → Int → Prop
  | .starttls, _ => True
  | .ehloTls, _ => True
  | .data, code => code < 0 ∨ code = 354 ∨ (400 ≤ code ∧ code < 600)
  | .dot, code => code < 0 ∨ (200 ≤ code ∧ code < 300) ∨ (400 ≤ code ∧ code < 600)
  | _, code => code < 0 ∨ (200 ≤ code ∧ code < 600)

/-- `Sent` only after a 2xx reply to the message, `Permanent` only after a 5xx reply. -/
structure Truthful (r : SendResult) : Prop where
  sent : r.status = .sent →
    ∃ code, r.conn.replies.getLast? = some (.dot, code) ∧ 200 ≤ code ∧ code < 300
  permanent : r.status = .permanent →
    ∃ stage code, r.conn.replies.getLast? = some (stage, code) ∧ 500 ≤ code ∧ code < 600

def AllExpected (replies : List (Stage × Int)) : Prop := ∀ e ∈ replies, Expected e.1 e.2

variable {code : Int}

theorem allExpected_concat {replies : List (Stage × Int)} {stage : Stage} :
    AllExpected (replies ++ [(stage, code)]) ↔ AllExpected replies ∧ Expected stage code := by
  simp only [AllExpected, List.mem_append, List.mem_singleton]
  constructor
  · intro h
    exact ⟨fun e he => h e (Or.inl he), h _ (Or.inr rfl)⟩
  · intro h e he
    cases he with
    | inl he => exact h.1 e he
    | inr he => rw [he]; exact h.2

/-- Where the last reply ends the dialogue, the result is truthful if that reply is expected. -/
theorem truthful_iff {r : SendResult} {before : List (Stage × Int)} {stage : Stage}
    (hreplies : r.conn.replies = before ++ [(stage, code)]) (hbefore : AllExpected before)
    (hlast : ((r.status = .sent → stage = .dot ∧ 200 ≤ code ∧ code < 300) ∧
      (r.status = .permanent → 500 ≤ code ∧ code < 600)) ↔ Expected stage code) :
    Truthful r ↔ AllExpected r.conn.replies := by
  have hget : r.conn.replies.getLast? = some (stage, code) := by rw [hreplies]; simp
  rw [hreplies, allExpected_concat, ← hlast]
  constructor
  · intro h
    refine ⟨hbefore, fun hsent => ?_, fun hpermanent => ?_⟩
    · obtain ⟨code', hcode, hrange⟩ := h.sent hsent
      rw [hget, Option.some.injEq, Prod.mk.injEq] at hcode
      rw [hcode.2]
      exact ⟨hcode.1, hrange⟩
    · obtain ⟨stage', code', hcode, hrange⟩ := h.permanent hpermanent
      rw [hget, Option.some.injEq, Prod.mk.injEq] at hcode
      rw [hcode.2]
      exact hrange
  · intro h
    refine ⟨fun hsent => ?_, fun hpermanent => ?_⟩
    · obtain ⟨rfl, hrange⟩ := h.2.1 hsent
      exact ⟨code, hget, hrange⟩
    · exact ⟨stage, code, hget, h.2.2 hpermanent⟩

theorem truthful_of_transient {r : SendResult} (h : r.status = .transient) : Truthful r := by
  refine ⟨fun hsent => ?_, fun hpermanent => ?_⟩
  · rw [h] at hsent
    cases hsent
  · rw [h] at hpermanent
    cases hpermanent

/-- What is not taken for a success is refused with 4xx or 5xx. -/
theorem refused_iff {P : Prop} (hnot : ¬(200 ≤ code ∧ code < 400)) :
    ((classify code = .sent → P) ∧ (classify code = .permanent → 500 ≤ code ∧ code < 600)) ↔
      400 ≤ code ∧ code < 600 := by
  by_cases htransient : 400 ≤ code ∧ code < 500
  · rw [classify, if_neg hnot, if_pos htransient]
    simp only [reduceCtorEq, false_implies, and_self, true_iff]
    omega
  · rw [classify, if_neg hnot, if_neg htransient]
    simp only [reduceCtorEq, false_implies, true_and, forall_const]
    omega

/-- A refusal of a command other than `DATA` is truthful if it is expected. -/
theorem refusal_iff {stage : Stage}
    (hexpected : Expected stage code ↔ code < 0 ∨ (200 ≤ code ∧ code < 600))
    (hnot : goesOn code = false) :
    ((refusal code = .sent → stage = .dot ∧ 200 ≤ code ∧ code < 300) ∧
      (refusal code = .permanent → 500 ≤ code ∧ code < 600)) ↔ Expected stage code := by
  rw [hexpected]
  by_cases hneg : code < 0
  · simp [refusal, hneg]
  · have hrefusal : refusal code = classify code := if_neg hneg
    have hcode : 0 ≤ code := by omega
    rw [goesOn, decide_eq_true hcode, Bool.true_and, beq_eq_false_iff_ne] at hnot
    have hsent : ¬(200 ≤ code ∧ code < 400) := fun hsent => hnot (if_pos hsent)
    rw [hrefusal, refused_iff hsent]
    omega

theorem data_iff (hnot : code ≠ 354) :
    ((refusal code = .sent → Stage.data = .dot ∧ 200 ≤ code ∧ code < 300) ∧
      (refusal code = .permanent → 500 ≤ code ∧ code < 600)) ↔ Expected .data code := by
  unfold Expected
  by_cases hneg : code < 0
  · simp [refusal, hneg]
  · have hrefusal : refusal code = classify code := if_neg hneg
    rw [hrefusal]
    by_cases hsent : 200 ≤ code ∧ code < 400
    · rw [classify, if_pos hsent]
      simp only [reduceCtorEq, false_and, false_implies, and_true, forall_const, false_iff]
      omega
    · rw [refused_iff hsent]
      omega

theorem message_iff (hcode : ¬code < 0) :
    ((classify code = .sent → Stage.dot = .dot ∧ 200 ≤ code ∧ code < 300) ∧
      (classify code = .permanent → 500 ≤ code ∧ code < 600)) ↔ Expected .dot code := by
  unfold Expected
  by_cases hsent : 200 ≤ code ∧ code < 400
  · rw [classify, if_pos hsent]
    simp only [reduceCtorEq, false_implies, and_true, true_and, forall_const]
    omega
  · rw [refused_iff hsent]
    omega

/-! ## The dialogue -/

section Dialogue

variable {peer : Peer} {mailFrom rcpt raw : Bytes} {opts : ClientOpts}

/-- So far these stages at most were sent, the wire holds what they write, and no reply was
    unexpected. -/
structure At (mailFrom rcpt raw : Bytes) (opts : ClientOpts) (stages : List Stage) (c : Conn) :
    Prop where
  wire : c.wire = wireOf mailFrom rcpt raw opts c.sent
  sent : c.sent.Sublist stages
  expected : AllExpected c.replies

/-- How the dialogue ends. -/
structure Ends (mailFrom rcpt raw : Bytes) (opts : ClientOpts) (r : SendResult) : Prop where
  wire : r.conn.wire = wireOf mailFrom rcpt raw opts r.conn.sent
  sent : r.conn.sent.Sublist order
  truthful : Truthful r ↔ AllExpected r.conn.replies

variable {c c' : Conn} {stage : Stage} {stages : List Stage} {code : Int} {reply : Bytes}

theorem write_spec {written : Bytes} {ok : Bool} (h : write stage written c = (c', ok)) :
    (ok = false ∧ c' = c) ∨ (ok = true ∧ c'.wire = c.wire ++ written ∧
      c'.sent = c.sent ++ [stage] ∧ c'.replies = c.replies ∧ c'.stream = c.stream) := by
  rw [write] at h
  split at h
  · next hnil =>
    rw [Prod.mk.injEq] at h
    rw [← h.1, hnil, List.append_nil]
    exact Or.inr ⟨h.2.symm, rfl, rfl, rfl, rfl⟩
  · split at h
    · rw [Prod.mk.injEq] at h
      exact Or.inl ⟨h.2.symm, h.1.symm⟩
    · rw [Prod.mk.injEq] at h
      rw [← h.1]
      exact Or.inr ⟨h.2.symm, rfl, rfl, rfl, rfl⟩

theorem At.write {written : Bytes} {ok : Bool}
    (hat : At mailFrom rcpt raw opts stages c) (h : Smtp.write stage written c = (c', ok))
    (hwritten : written = joinLines (stageLines mailFrom rcpt raw opts stage)) :
    At mailFrom rcpt raw opts (stages ++ [stage]) c' := by
  cases write_spec h with
  | inl hfail =>
    obtain ⟨-, rfl⟩ := hfail
    exact ⟨hat.wire, hat.sent.trans (List.sublist_append_left _ _), hat.expected⟩
  | inr hdone =>
    obtain ⟨-, hwire, hsent, hreplies, -⟩ := hdone
    refine ⟨?_, ?_, by rw [hreplies]; exact hat.expected⟩
    · rw [hwire, hsent, hat.wire, hwritten]
      simp [wireOf]
    · rw [hsent]
      exact hat.sent.append (List.Sublist.refl _)

theorem readReply_spec (h : readReply stage c = (c', reply, code)) :
    c'.wire = c.wire ∧ c'.sent = c.sent ∧ c'.replies = c.replies ++ [(stage, code)] := by
  obtain ⟨rfl, -, rfl⟩ := h
  exact ⟨rfl, rfl, rfl⟩

/-- A command leaves its line on the wire, or nothing, and its reply. -/
theorem cmd_spec {reply' : Bytes} (hat : At mailFrom rcpt raw opts stages c)
    (hlines : stageLines mailFrom rcpt raw opts stage = [command mailFrom rcpt opts stage])
    (h : cmd stage (command mailFrom rcpt opts stage) reply c = (c', reply', code)) :
    c'.wire = wireOf mailFrom rcpt raw opts c'.sent ∧ c'.sent.Sublist (stages ++ [stage]) ∧
      c'.replies = c.replies ++ [(stage, code)] := by
  rw [cmd] at h
  split at h
  · next mid hwrite =>
    have hmid := hat.write hwrite (by simp [hlines, joinLines])
    have hsame : mid = c := by
      cases write_spec hwrite with
      | inl hfail => exact hfail.2
      | inr hdone => exact absurd hdone.1 (by decide)
    obtain ⟨rfl, -, rfl⟩ := h
    rw [hsame] at hmid ⊢
    exact ⟨hmid.wire, hmid.sent, rfl⟩
  · next mid hwrite =>
    have hmid := hat.write hwrite (by simp [hlines, joinLines])
    have hreplies : mid.replies = c.replies := by
      cases write_spec hwrite with
      | inl hfail => rw [hfail.2]
      | inr hdone => exact hdone.2.2.2.1
    obtain ⟨hwire, hsent, hread⟩ := readReply_spec h
    rw [hwire, hsent, hread, hreplies]
    exact ⟨hmid.wire, hmid.sent, rfl⟩

/-- The dialogue goes on from an expected reply. -/
theorem at_of_cmd {reply' : Bytes} (hat : At mailFrom rcpt raw opts stages c)
    (hlines : stageLines mailFrom rcpt raw opts stage = [command mailFrom rcpt opts stage])
    (h : cmd stage (command mailFrom rcpt opts stage) reply c = (c', reply', code))
    (hexpected : Expected stage code) : At mailFrom rcpt raw opts (stages ++ [stage]) c' := by
  obtain ⟨hwire, hsent, hreplies⟩ := cmd_spec hat hlines h
  refine ⟨hwire, hsent, ?_⟩
  rw [hreplies, allExpected_concat]
  exact ⟨hat.expected, hexpected⟩

theorem goesOn_range (h : goesOn code = true) : 200 ≤ code ∧ code < 400 := by
  rw [goesOn, Bool.and_eq_true, beq_iff_eq, classify] at h
  split at h
  · next hrange => exact hrange
  · split at h
    · exact absurd h.2 (by decide)
    · exact absurd h.2 (by decide)

/-- A command that must be accepted: its refusal ends the dialogue. -/
theorem required_ends {label : Bytes}
    {next : Conn → Bytes → SendResult} (hat : At mailFrom rcpt raw opts stages c)
    (hlines : stageLines mailFrom rcpt raw opts stage = [command mailFrom rcpt opts stage])
    (hexpected : ∀ code, Expected stage code ↔ code < 0 ∨ (200 ≤ code ∧ code < 600))
    (horder : (stages ++ [stage]).Sublist order)
    (hnext : ∀ c reply, At mailFrom rcpt raw opts (stages ++ [stage]) c →
      Ends mailFrom rcpt raw opts (next c reply)) :
    Ends mailFrom rcpt raw opts (required mailFrom rcpt opts stage label next c reply) := by
  rw [required]
  split
  next c' reply' code hcmd =>
    split
    · next hgoes =>
      have hrange := goesOn_range hgoes
      exact hnext c' reply' (at_of_cmd hat hlines hcmd ((hexpected code).mpr (by omega)))
    · next hstays =>
      obtain ⟨hwire, hsent, hreplies⟩ := cmd_spec hat hlines hcmd
      refine ⟨hwire, hsent.trans horder, truthful_iff hreplies hat.expected ?_⟩
      exact refusal_iff (hexpected code) (by simpa using hstays)

theorem sendMessage_ends
    (hat : At mailFrom rcpt raw opts stages c) (horder : stages ++ [.body, .dot, .quit] = order) :
    Ends mailFrom rcpt raw opts (sendMessage mailFrom rcpt raw opts c) := by
  have hbody : dotStuff raw = joinLines (stageLines mailFrom rcpt raw opts .body) := by
    rw [dotStuff_eq, stageLines, joinLines, List.flatMap_map]
    rfl
  have hdot : dot ++ crlf = joinLines (stageLines mailFrom rcpt raw opts .dot) := by
    simp [stageLines, joinLines]
  have hquit : command mailFrom rcpt opts .quit ++ crlf =
      joinLines (stageLines mailFrom rcpt raw opts .quit) := by
    simp [stageLines, joinLines]
  have horder' : stages ++ [.body] ++ [.dot] ++ [.quit] = order := by
    rw [← horder]
    simp
  rw [sendMessage]
  split
  · next c₁ hwrite =>
    have hat₁ := hat.write hwrite hbody
    refine ⟨hat₁.wire, hat₁.sent.trans ?_, ?_⟩
    · rw [← horder']
      exact (List.sublist_append_left _ _).trans (List.sublist_append_left _ _)
    · exact iff_of_true (truthful_of_transient rfl) hat₁.expected
  · next c₁ hwrite =>
    have hat₁ := hat.write hwrite hbody
    split
    · next c₂ hwrite =>
      have hat₂ := hat₁.write hwrite hdot
      refine ⟨hat₂.wire, hat₂.sent.trans ?_, ?_⟩
      · rw [← horder']
        exact List.sublist_append_left _ _
      · exact iff_of_true (truthful_of_transient rfl) hat₂.expected
    · next c₂ hwrite =>
      have hat₂ := hat₁.write hwrite hdot
      split
      next c₃ reply code hread =>
        obtain ⟨hwire, hsent, hreplies⟩ := readReply_spec hread
        have hsub : c₃.sent.Sublist order := by
          rw [hsent, ← horder']
          exact hat₂.sent.trans (List.sublist_append_left _ _)
        have hwire₃ : c₃.wire = wireOf mailFrom rcpt raw opts c₃.sent := by
          rw [hwire, hsent]
          exact hat₂.wire
        split
        · next hneg =>
          refine ⟨hwire₃, hsub, iff_of_true (truthful_of_transient rfl) ?_⟩
          rw [hreplies, allExpected_concat]
          exact ⟨hat₂.expected, Or.inl hneg⟩
        · next hcode =>
          cases hlast : Smtp.write .quit (command mailFrom rcpt opts .quit ++ crlf) c₃ with
          | mk c₄ ok =>
            have hreplies₄ : c₄.replies = c₂.replies ++ [(.dot, code)] := by
              rw [← hreplies]
              cases write_spec hlast with
              | inl hfail => rw [hfail.2]
              | inr hdone => exact hdone.2.2.2.1
            have hboth : c₄.wire = wireOf mailFrom rcpt raw opts c₄.sent ∧
                c₄.sent.Sublist order := by
              cases write_spec hlast with
              | inl hfail =>
                rw [hfail.2]
                exact ⟨hwire₃, hsub⟩
              | inr hdone =>
                rw [hdone.2.1, hdone.2.2.1, hwire₃, hquit, ← horder', hsent]
                exact ⟨by simp [wireOf], hat₂.sent.append (List.Sublist.refl _)⟩
            exact ⟨hboth.1, hboth.2, truthful_iff hreplies₄ hat₂.expected (message_iff hcode)⟩

theorem At.mono {stages' : List Stage}
    (hat : At mailFrom rcpt raw opts stages c) (h : stages.Sublist stages') :
    At mailFrom rcpt raw opts stages' c :=
  ⟨hat.wire, hat.sent.trans h, hat.expected⟩

theorem sendData_ends
    (hat : At mailFrom rcpt raw opts [.ehlo, .starttls, .ehloTls, .auth, .mail, .rcpt] c) :
    Ends mailFrom rcpt raw opts (sendData mailFrom rcpt raw opts c reply) := by
  rw [sendData]
  split
  next c' reply' code hcmd =>
    split
    · next haccepts =>
      exact sendMessage_ends (at_of_cmd hat rfl hcmd (Or.inr (Or.inl haccepts))) rfl
    · next hrefuses =>
      obtain ⟨hwire, hsent, hreplies⟩ := cmd_spec hat rfl hcmd
      refine ⟨hwire, hsent.trans (by decide), truthful_iff hreplies hat.expected ?_⟩
      exact data_iff hrefuses

theorem sendRcpt_ends
    (hat : At mailFrom rcpt raw opts [.ehlo, .starttls, .ehloTls, .auth, .mail] c) :
    Ends mailFrom rcpt raw opts (sendRcpt mailFrom rcpt raw opts c reply) :=
  required_ends hat rfl (fun _ => Iff.rfl) (by decide) fun _ _ => sendData_ends

theorem sendMail_ends (hat : At mailFrom rcpt raw opts [.ehlo, .starttls, .ehloTls, .auth] c) :
    Ends mailFrom rcpt raw opts (sendMail mailFrom rcpt raw opts c reply) :=
  required_ends hat rfl (fun _ => Iff.rfl) (by decide) fun _ _ => sendRcpt_ends

theorem sendAuth_ends (hat : At mailFrom rcpt raw opts [.ehlo, .starttls, .ehloTls] c) :
    Ends mailFrom rcpt raw opts (sendAuth mailFrom rcpt raw opts c reply) := by
  rw [sendAuth]
  split
  · exact sendMail_ends (hat.mono (by decide))
  · exact required_ends hat rfl (fun _ => Iff.rfl) (by decide) fun _ _ => sendMail_ends

theorem sendStarttls_ends (hat : At mailFrom rcpt raw opts [.ehlo] c) :
    Ends mailFrom rcpt raw opts (sendStarttls peer mailFrom rcpt raw opts c reply) := by
  rw [sendStarttls]
  split
  next c₁ reply₁ code₁ hcmd =>
    have hat₁ := at_of_cmd hat rfl hcmd (show Expected .starttls code₁ from trivial)
    split
    · split
      · exact sendAuth_ends (hat₁.mono (by decide))
      · next chunks _ =>
        have htls : At mailFrom rcpt raw opts [.ehlo, .starttls] (c₁.overTls chunks) :=
          ⟨hat₁.wire, hat₁.sent, hat₁.expected⟩
        split
        next c₂ reply₂ code₂ hcmd =>
          have hat₂ := at_of_cmd htls rfl hcmd (show Expected .ehloTls code₂ from trivial)
          split
          · exact sendAuth_ends hat₂
          · exact ⟨hat₂.wire, hat₂.sent.trans (by decide),
              iff_of_true (truthful_of_transient rfl) hat₂.expected⟩
    · exact sendAuth_ends (hat₁.mono (by decide))

theorem afterEhlo_ends (hat : At mailFrom rcpt raw opts [.ehlo] c) :
    Ends mailFrom rcpt raw opts (afterEhlo peer mailFrom rcpt raw opts c reply) := by
  rw [afterEhlo]
  split
  · exact sendStarttls_ends hat
  · exact sendAuth_ends (hat.mono (by decide))

theorem deliver_ends (peer : Peer) (mailFrom rcpt raw : Bytes) (opts : ClientOpts) :
    Ends mailFrom rcpt raw opts (deliver peer mailFrom rcpt raw opts) := by
  rw [deliver]
  split
  · exact ⟨rfl, List.nil_sublist _, iff_of_true (truthful_of_transient rfl) (by simp [AllExpected])⟩
  · split
    next c reply code hread =>
      obtain ⟨hwire, hsent, hreplies⟩ := readReply_spec hread
      split
      · next hgoes =>
        have hrange := goesOn_range hgoes
        have hat : At mailFrom rcpt raw opts [] c := by
          refine ⟨by rw [hwire, hsent]; rfl, by rw [hsent], ?_⟩
          rw [hreplies, allExpected_concat]
          exact ⟨by simp [AllExpected], Or.inr ⟨hrange.1, by omega⟩⟩
        exact required_ends hat rfl (fun _ => Iff.rfl) (by decide) fun _ _ => afterEhlo_ends
      · next hstays =>
        refine ⟨by rw [hwire, hsent]; rfl, by rw [hsent]; exact List.nil_sublist _, ?_⟩
        refine truthful_iff hreplies (by simp [AllExpected]) ?_
        exact refusal_iff Iff.rfl (by simpa using hstays)

/-! ## The lines -/

/-- What a queue item or the configuration puts into a command. -/
def spliced (mailFrom rcpt : Bytes) (opts : ClientOpts) : Stage → Bytes
  | .ehlo => opts.heloName
  | .ehloTls => opts.heloName
  | .mail => mailFrom
  | .rcpt => rcpt
  | _ => []

/-- The wire, split at line feeds, is one line for each command that was sent and the stuffed
    lines of the message, in the order of a transaction. -/
structure OneTransaction (mailFrom rcpt raw : Bytes) (opts : ClientOpts) (c : Conn) : Prop where
  order : c.sent.Sublist order
  lines : commandLines c.wire = c.sent.flatMap (stageLines mailFrom rcpt raw opts)
  noDot : ∀ line ∈ stageLines mailFrom rcpt raw opts .body, line ≠ dot

theorem stageLines_clean (stage : Stage) :
    (∀ line ∈ stageLines mailFrom rcpt raw opts stage, ch '\n' ∉ line) ↔
      ch '\n' ∉ spliced mailFrom rcpt opts stage := by
  have hencoded : ch '\n' ∉ Base64.encode ([0] ++ opts.authUser ++ [0] ++ opts.authPass) := by
    intro hmem
    exact absurd (Base64.isChar_of_mem_encode hmem) (by unfold Base64.IsChar; decide)
  have hclean (text : String) (h : ch '\n' ∉ bytes text) (x : Bytes) :
      ch '\n' ∉ bytes text ++ x ↔ ch '\n' ∉ x := by
    rw [List.mem_append, or_iff_right h]
  have hclosed (x : Bytes) : ch '\n' ∉ x ++ bytes ">" ↔ ch '\n' ∉ x := by
    rw [List.mem_append, or_iff_left (by decide)]
  cases stage with
  | greeting => simp [stageLines, spliced]
  | body =>
    refine iff_of_true (fun line hline hmem => ?_) (by simp [spliced])
    obtain ⟨text, htext, rfl⟩ := List.mem_map.mp hline
    cases mem_stuff hmem with
    | inl hdot => exact absurd hdot (by decide)
    | inr htext' => exact not_mem_textLines (by simp) text htext (mem_stripCr htext')
  | dot => exact iff_of_true (by simp [stageLines]; decide) (by simp [spliced])
  | ehlo => simpa [stageLines, command, spliced] using hclean "EHLO " (by decide) opts.heloName
  | ehloTls => simpa [stageLines, command, spliced] using hclean "EHLO " (by decide) opts.heloName
  | starttls => exact iff_of_true (by simp [stageLines, command]; decide) (by simp [spliced])
  | data => exact iff_of_true (by simp [stageLines, command]; decide) (by simp [spliced])
  | quit => exact iff_of_true (by simp [stageLines, command]; decide) (by simp [spliced])
  | auth =>
    refine iff_of_true ?_ (by simp [spliced])
    intro line hline
    rw [List.mem_singleton.mp hline]
    exact (hclean "AUTH PLAIN " (by decide) _).mpr hencoded
  | mail =>
    simp only [stageLines, command, spliced, List.forall_mem_singleton]
    exact (hclosed _).trans (hclean "MAIL FROM:<" (by decide) mailFrom)
  | rcpt =>
    simp only [stageLines, command, spliced, List.forall_mem_singleton]
    exact (hclosed _).trans (hclean "RCPT TO:<" (by decide) rcpt)

/-- The lines are those of the stages exactly when no stage holds a line feed. -/
theorem oneTransaction_iff (hwire : c.wire = wireOf mailFrom rcpt raw opts c.sent)
    (hsent : c.sent.Sublist order) : OneTransaction mailFrom rcpt raw opts c ↔
      ∀ stage ∈ c.sent, ch '\n' ∉ spliced mailFrom rcpt opts stage := by
  have hjoin : c.wire = joinLines (c.sent.flatMap (stageLines mailFrom rcpt raw opts)) := by
    rw [hwire, wireOf, joinLines, List.flatMap_assoc]
    rfl
  constructor
  · intro h stage hstage
    rw [← @stageLines_clean mailFrom rcpt raw opts]
    intro line hline
    have hmem : line ∈ commandLines c.wire := by
      rw [h.lines]
      exact List.mem_flatMap.mpr ⟨stage, hstage, hline⟩
    exact not_mem_commandLines hmem
  · intro h
    refine ⟨hsent, ?_, ?_⟩
    · rw [hjoin]
      refine commandLines_joinLines fun line hline => ?_
      obtain ⟨stage, hstage, hline⟩ := List.mem_flatMap.mp hline
      exact stageLines_clean stage |>.mpr (h stage hstage) line hline
    · intro line hline
      obtain ⟨text, -, rfl⟩ := List.mem_map.mp hline
      exact stuff_ne_dot _

end Dialogue

/-- `Deliver` speaks one transaction and tells what the peer said exactly when nothing it sends
    inside a command holds a line feed and every reply it gets is one its classes read aright. -/
theorem deliver_iff (peer : Peer) (mailFrom rcpt raw : Bytes) (opts : ClientOpts) :
    (OneTransaction mailFrom rcpt raw opts (deliver peer mailFrom rcpt raw opts).conn ∧
      Truthful (deliver peer mailFrom rcpt raw opts)) ↔
    (∀ stage ∈ (deliver peer mailFrom rcpt raw opts).conn.sent,
      ch '\n' ∉ spliced mailFrom rcpt opts stage) ∧
    ∀ e ∈ (deliver peer mailFrom rcpt raw opts).conn.replies, Expected e.1 e.2 := by
  have hends := deliver_ends peer mailFrom rcpt raw opts
  exact and_congr (oneTransaction_iff hends.wire hends.sent) hends.truthful

/-- A peer that accepts every command, but answers `DATA` with this line. -/
def peerOf (answer : String) : Peer :=
  { connection := .ok [bytes "220 mx\n250 mx\n250 ok\n250 ok\n" ++ bytes answer ++
      bytes "\n250 ok\n"]
    tls := none
    writes := 10 }

/-- A recipient with a line feed is a second command, and a 250 to `DATA` is taken for the
    message's own. -/
theorem second_recipient_and_unsent :
    ¬OneTransaction (bytes "a@x") (bytes "b@y>\nRCPT TO:<c@y") (bytes "hi") {}
      (deliver (peerOf "354 go") (bytes "a@x") (bytes "b@y>\nRCPT TO:<c@y") (bytes "hi") {}).conn ∧
    ¬Truthful (deliver (peerOf "250 ok") (bytes "a@x") (bytes "b@y") (bytes "hi") {}) := by
  constructor
  · have hends := deliver_ends (peerOf "354 go") (bytes "a@x") (bytes "b@y>\nRCPT TO:<c@y")
      (bytes "hi") {}
    rw [oneTransaction_iff hends.wire hends.sent]
    intro h
    exact h .rcpt (by decide +kernel) (by decide)
  · intro h
    obtain ⟨code, hlast, -⟩ := h.sent (by decide +kernel)
    have hdata : (deliver (peerOf "250 ok") (bytes "a@x") (bytes "b@y") (bytes "hi")
        {}).conn.replies.getLast? = some (.data, 250) := by decide +kernel
    cases hlast

end QuackMail.Smtp
