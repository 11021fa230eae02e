import QuackMail.Http.Framing

/-! # What the reader accepts

`ReadRequest` answers `Ok` where the rest of the stream begins with a message, and leaves
what is behind it; and where the limits leave room it answers `Ok` for every message that
passes its checks.
-/

namespace QuackMail.Http

open Net Framing

/-! ## Lines -/

theorem readLimitedLineLoop_spec (maxLen : Nat) :
    ∀ (fuel : Nat) (line : Bytes) (s : ClientStream), Steady s → (rest s).length < fuel →
      (∀ s' l, readLimitedLineLoop maxLen fuel line s = (s', .ok, l) →
        ∃ content, ch '\n' ∉ content ∧ rest s = content ++ ch '\n' :: rest s' ∧
          l = stripCr (line ++ content) ∧ Steady s') ∧
      ∀ content t, ch '\n' ∉ content → rest s = content ++ ch '\n' :: t →
        (line ++ content).length ≤ maxLen →
          ∃ s', readLimitedLineLoop maxLen fuel line s = (s', .ok, stripCr (line ++ content)) ∧
            rest s' = t ∧ Steady s' := by
  intro fuel
  induction fuel with
  | zero => exact fun line s _ h => absurd h (Nat.not_lt_zero _)
  | succ fuel ih =>
    intro line s hsteady hfuel
    obtain ⟨hbyte, hrest, hsteady'⟩ := readByte_spec hsteady
    rw [readLimitedLineLoop]
    cases hs : rest s with
    | nil =>
      have hnone : (readByte s).2 = none := by rw [hbyte, hs]; rfl
      have heq : readByte s = ((readByte s).1, none) := Prod.ext rfl hnone
      rw [heq]
      constructor
      · intro s' l h
        cases h
      · intro content t _ hcontent
        have := congrArg List.length hcontent
        simp at this
    | cons c cs =>
      have hsome : (readByte s).2 = some c := by rw [hbyte, hs]; rfl
      have heq : readByte s = ((readByte s).1, some c) := Prod.ext rfl hsome
      rw [hs, List.drop_one, List.tail_cons] at hrest
      have hless : (rest (readByte s).1).length < fuel := by
        rw [hrest]
        rw [hs, List.length_cons] at hfuel
        omega
      rw [heq]
      simp only
      by_cases hc : c = ch '\n'
      · rw [if_pos hc]
        subst hc
        constructor
        · intro s' l h
          obtain ⟨rfl, rfl⟩ := h
          exact ⟨[], by simp, by rw [hrest]; rfl, by rw [List.append_nil], hsteady'⟩
        · intro content t hcontent hsplit _
          cases content with
          | nil =>
            obtain ⟨-, ht⟩ := List.cons.inj hsplit
            exact ⟨_, by rw [List.append_nil], hrest.trans ht, hsteady'⟩
          | cons d content =>
            obtain ⟨hd, -⟩ := List.cons.inj hsplit
            exact absurd (by rw [hd]; exact List.mem_cons_self) hcontent
      · rw [if_neg hc]
        constructor
        · intro s' l h
          split at h
          · cases h
          · obtain ⟨content, hnl, hsplit, hl, hst⟩ := (ih (line ++ [c]) _ hsteady' hless).1 s' l h
            refine ⟨c :: content, ?_, ?_, by rw [hl]; simp, hst⟩
            · rw [List.mem_cons, not_or]
              exact ⟨Ne.symm hc, hnl⟩
            · rw [List.cons_append, ← hsplit, hrest]
        · intro content t hcontent hsplit hlen
          cases content with
          | nil =>
            obtain ⟨hd, -⟩ := List.cons.inj hsplit
            exact absurd hd hc
          | cons d content =>
            obtain ⟨hd, hcs⟩ := List.cons.inj hsplit
            subst hd
            rw [List.mem_cons, not_or] at hcontent
            have hroom : ¬maxLen ≤ line.length := by
              rw [List.length_append, List.length_cons] at hlen
              omega
            rw [if_neg hroom]
            have := (ih (line ++ [c]) _ hsteady' hless).2 content t hcontent.2
              (hrest.trans hcs) (by simpa using hlen)
            simpa using this

variable {line o t : Bytes} {s : ClientStream} {limits : Limits} {late : Nat → Bool}

variable {s' : ClientStream} {r : List Bytes × Bytes} {k n : Nat}

/-- A line is read off the front of the stream. -/
theorem readLimitedLine_ok {maxLen : Nat} (h : Steady s)
    (hread : readLimitedLine maxLen s = (s', .ok, line)) :
    ∃ o, Line o line ∧ rest s = o ++ rest s' ∧ Steady s' := by
  obtain ⟨content, hnl, hsplit, hline, hs'⟩ :=
    (readLimitedLineLoop_spec maxLen _ [] s h (Nat.lt_succ_self _)).1 s' line hread
  exact ⟨content ++ [ch '\n'], ⟨content, hnl, rfl, hline⟩, by rw [hsplit]; simp, hs'⟩

theorem readLimitedLine_of_line {maxLen : Nat}
    (h : Steady s) (hline : Line o line) (hrest : rest s = o ++ t) (hlen : o.length ≤ maxLen) :
    ∃ s', readLimitedLine maxLen s = (s', .ok, line) ∧ rest s' = t ∧ Steady s' := by
  obtain ⟨content, hnl, ho, hl⟩ := hline
  subst ho hl
  rw [List.length_append, List.length_singleton] at hlen
  exact (readLimitedLineLoop_spec maxLen _ [] s h (Nat.lt_succ_self _)).2 content t hnl
    (by rw [hrest]; simp) (by rw [List.nil_append]; omega)

/-- A line is not longer than its octets. -/
theorem Line.length_lt (h : Line o line) : line.length < o.length := by
  obtain ⟨content, -, ho, hl⟩ := h
  subst ho hl
  rw [List.length_append, List.length_singleton]
  unfold stripCr
  split
  · rw [List.length_dropLast]
    omega
  · omega

/-! ## The start line -/

theorem skipEmpty_ok : ∀ (n : Nat) {line l : Bytes} {s s' : ClientStream}, Steady s →
      skipEmpty limits n line s = (s', .ok l) → l ≠ [] → ∀ o, Line o line →
        ∃ o' blanks, StartOf o' (blanks, l) ∧ blanks.length ≤ n ∧ o ++ rest s = o' ++ rest s' ∧
          Steady s' := by
  intro n
  induction n with
  | zero =>
    intro line l s s' hs hskip hl o ho
    obtain ⟨rfl, rfl⟩ := hskip
    exact ⟨o, [], .stop ho hl, Nat.le_refl _, rfl, hs⟩
  | succ n ih =>
    intro line l s s' hs hskip hl o ho
    rw [skipEmpty] at hskip
    by_cases hline : line = []
    · rw [if_pos hline] at hskip
      cases hread : readLimitedLine limits.maxRequestLine s with
      | mk s₁ r =>
        obtain ⟨status, line₁⟩ := r
        rw [hread] at hskip
        cases status with
        | ok =>
          obtain ⟨o₁, ho₁, hrest, hs₁⟩ := readLimitedLine_ok hs hread
          obtain ⟨o', blanks, hstart, hlen, hrest', hs''⟩ := ih hs₁ hskip hl o₁ ho₁
          refine ⟨o ++ o', line :: blanks, .next ho (not_not.mpr hline) hstart, ?_, ?_, hs''⟩
          · rw [List.length_cons]
            omega
          · rw [hrest, hrest', List.append_assoc]
        | eof => cases hskip
        | tooLong => cases hskip
    · rw [if_neg hline, Prod.mk.injEq, Except.ok.injEq] at hskip
      obtain ⟨rfl, rfl⟩ := hskip
      exact ⟨o, [], .stop ho hline, Nat.zero_le _, rfl, hs⟩

theorem readStart_ok {first : Bool} {l : Bytes}
    (hs : Steady s) (hread : readStart limits first s = (s', .ok l)) (hl : l ≠ []) :
    ∃ o blanks, StartOf o (blanks, l) ∧ blanks.length ≤ 4 ∧ rest s = o ++ rest s' ∧ Steady s' := by
  unfold readStart at hread
  cases hline : readLimitedLine limits.maxRequestLine s with
  | mk s₁ r =>
    obtain ⟨status, line⟩ := r
    rw [hline] at hread
    cases status with
    | ok =>
      obtain ⟨o, ho, hrest, hs₁⟩ := readLimitedLine_ok hs hline
      obtain ⟨o', blanks, hstart, hlen, hrest', hs''⟩ := skipEmpty_ok 4 hs₁ hread hl o ho
      exact ⟨o', blanks, hstart, hlen, hrest.trans hrest', hs''⟩
    | eof => cases hread
    | tooLong => cases hread

theorem skipEmpty_of_start (hstart : StartOf o r) :
    ∀ (n : Nat) {s : ClientStream} {t : Bytes}, Steady s → rest s = o ++ t →
      o.length ≤ limits.maxRequestLine → r.1.length ≤ n →
        ∃ s₁ line s', readLimitedLine limits.maxRequestLine s = (s₁, .ok, line) ∧
          skipEmpty limits n line s₁ = (s', .ok r.2) ∧ rest s' = t ∧ Steady s' := by
  induction hstart with
  | @stop o line hline hne =>
    intro n s t hs hrest hlen _
    obtain ⟨s', hread, hrest', hs'⟩ := readLimitedLine_of_line hs hline hrest hlen
    refine ⟨s', line, s', hread, ?_, hrest', hs'⟩
    cases n with
    | zero => rfl
    | succ n => rw [skipEmpty, if_neg hne]
  | @next o o' line b blanks hline hempty _ ih =>
    intro n s t hs hrest hlen hn
    rw [List.length_append] at hlen
    rw [List.append_assoc] at hrest
    obtain ⟨s₁, hread, hrest₁, hs₁⟩ := readLimitedLine_of_line hs hline hrest
      (show o.length ≤ limits.maxRequestLine by omega)
    cases n with
    | zero => simp at hn
    | succ n =>
      obtain ⟨s₂, line₂, s', hread₂, hskip, hrest', hs'⟩ :=
        ih n hs₁ hrest₁ (by omega) (by simpa using hn)
      refine ⟨s₁, line, s', hread, ?_, hrest', hs'⟩
      rw [skipEmpty, if_pos (not_not.mp hempty), hread₂]
      exact hskip

theorem readStart_of_start (first : Bool) {l : Bytes}
    {blanks : List Bytes} (hstart : StartOf o (blanks, l)) (hs : Steady s)
    (hrest : rest s = o ++ t)
    (hlen : o.length ≤ limits.maxRequestLine) (hblanks : blanks.length ≤ 4) :
    ∃ s', readStart limits first s = (s', .ok l) ∧ rest s' = t ∧ Steady s' := by
  obtain ⟨s₁, line, s', hread, hskip, hrest', hs'⟩ :=
    skipEmpty_of_start hstart 4 hs hrest hlen hblanks
  refine ⟨s', ?_, hrest', hs'⟩
  rw [readStart, hread]
  exact hskip

/-! ## Header lines -/

theorem stops_looseToken : Stops LooseToken := by
  intro s hs
  unfold LooseToken isToken at hs
  rw [Bool.and_eq_true, List.all_eq_true] at hs
  constructor
  · intro hmem
    have := hs.2 _ hmem
    cases this
  · intro hmem
    have := hs.2 _ hmem
    cases this

/-- A header line is taken exactly where it is a field. -/
theorem headerField_iff {h : Bytes} {f : Bytes × Bytes} :
    headerField h = some f ↔ Field LooseToken h f := by
  unfold headerField
  constructor
  · intro hfield
    split at hfield
    · cases hfield
    · next hfolded =>
      rw [not_or] at hfolded
      cases hcolon : findChar (ch ':') h with
      | none => simp [hcolon] at hfield
      | some colon =>
        simp only [hcolon] at hfield
        split at hfield
        · next htok =>
          rw [Option.some.injEq] at hfield
          subst hfield
          exact ⟨hfolded.1, hfolded.2, htok, _, (Net.findChar_some hcolon).2, rfl⟩
        · cases hfield
  · intro ⟨hspace, htab, htok, raw, hline, hvalue⟩
    have hfind : findChar (ch ':') h = some f.1.length := by
      rw [hline]
      exact findChar_append (stops_looseToken _ htok).1 raw
    have htake : h.take f.1.length = f.1 := by rw [hline]; simp
    have hdrop : h.drop (f.1.length + 1) = raw := by rw [hline]; simp
    rw [if_neg (not_or.mpr ⟨hspace, htab⟩), hfind]
    simp only [htake, hdrop, ← hvalue]
    exact if_pos htok

theorem readHeaders_ok :
    ∀ (fuel headerBytes : Nat) {headers headers' : Headers} {s s' : ClientStream}, Steady s →
      readHeaders limits late fuel headerBytes headers s = (s', .ok headers') →
        ∃ o lines fields, HeadOf o (lines, []) ∧ List.Forall₂ (Field LooseToken) lines fields ∧
          headers' = headers ++ fields ∧ rest s = o ++ rest s' ∧ Steady s' := by
  intro fuel
  induction fuel with
  | zero =>
    intro headerBytes headers headers' s s' _ hread
    cases hread
  | succ fuel ih =>
    intro headerBytes headers headers' s s' hs hread
    rw [readHeaders] at hread
    split at hread
    · cases hread
    · cases hline : readLimitedLine limits.maxHeaderBytes s with
      | mk s₁ r =>
        obtain ⟨status, line⟩ := r
        rw [hline] at hread
        cases status with
        | eof => cases hread
        | tooLong => cases hread
        | ok =>
          obtain ⟨o, ho, hrest, hs₁⟩ := readLimitedLine_ok hs hline
          simp only at hread
          split at hread
          · next hempty =>
            obtain ⟨rfl, rfl⟩ := hread
            subst hempty
            exact ⟨o, [], [], .stop ho rfl, .nil, by simp, hrest, hs₁⟩
          · next hne =>
            split at hread
            · cases hread
            · cases hfield : headerField line with
              | none => simp [hfield] at hread
              | some f =>
                simp only [hfield] at hread
                obtain ⟨o', lines, fields, hhead, hfields, hheaders, hrest', hs''⟩ :=
                  ih _ hs₁ hread
                refine ⟨o ++ o', line :: lines, f :: fields, .next ho hne hhead,
                  .cons (headerField_iff.mp hfield) hfields, ?_, ?_, hs''⟩
                · rw [hheaders]
                  simp
                · rw [hrest, hrest', List.append_assoc]

theorem readHeaders_of_head (hlate : ∀ k, late k = false) (hhead : HeadOf o r) :
    ∀ {fields : Headers} (fuel headerBytes : Nat) (headers : Headers) {s : ClientStream}
      {t : Bytes}, Steady s → rest s = o ++ t → List.Forall₂ (Field LooseToken) r.1 fields →
        headerBytes + 2 * o.length ≤ limits.maxHeaderBytes →
          headers.length + r.1.length ≤ limits.maxHeaders → r.1.length < fuel →
            ∃ s', readHeaders limits late fuel headerBytes headers s =
              (s', .ok (headers ++ fields)) ∧ rest s' = t ∧ Steady s' := by
  induction hhead with
  | @stop o line hline hempty =>
    intro fields fuel headerBytes headers s t hs hrest hfields hbytes _ hfuel
    cases hfields
    obtain ⟨s', hread, hrest', hs'⟩ := readLimitedLine_of_line hs hline hrest
      (show o.length ≤ limits.maxHeaderBytes by omega)
    cases fuel with
    | zero => simp at hfuel
    | succ fuel =>
      refine ⟨s', ?_, hrest', hs'⟩
      rw [readHeaders, hlate, hread]
      simp [hempty]
  | @next o o' line b lines hline hne _ ih =>
    intro fields fuel headerBytes headers s t hs hrest hfields hbytes hcount hfuel
    rw [List.append_assoc] at hrest
    simp only [List.length_append, List.length_cons] at hbytes hcount hfuel
    cases hfields with
    | @cons _ f _ fields hfield hfields =>
      obtain ⟨s₁, hread, hrest₁, hs₁⟩ := readLimitedLine_of_line hs hline hrest
        (show o.length ≤ limits.maxHeaderBytes by omega)
      have hlength := hline.length_lt
      cases fuel with
      | zero => simp at hfuel
      | succ fuel =>
        have hroom : (headers ++ [f]).length + lines.length ≤ limits.maxHeaders := by
          rw [List.length_append, List.length_singleton]
          omega
        obtain ⟨s', hread', hrest', hs'⟩ := ih fuel (headerBytes + (line.length + 2)) _ hs₁ hrest₁
          hfields (by omega) hroom (show lines.length < fuel by omega)
        refine ⟨s', ?_, hrest', hs'⟩
        rw [readHeaders, hlate, hread]
        simp only [Bool.false_eq_true, if_false]
        rw [if_neg hne, if_neg (by omega), headerField_iff.mpr hfield]
        simp only
        rw [hread', List.append_assoc]
        rfl

/-! ## The length of the body -/

theorem iEquals_iff {a b : Bytes} : iEquals a b = true ↔ lower a = lower b := by
  simp [iEquals]

theorem lower_contentLength : lower (bytes "Content-Length") = bytes "content-length" := by decide

theorem lower_transferEncoding : lower (bytes "Transfer-Encoding") = bytes "transfer-encoding" := by
  decide

theorem trim_trim (s : Bytes) : trim (trim s) = trim s := trimBy_trimBy _ s

theorem lengthDigits_ok {v : Bytes} (h : lengthDigits n v = .ok k) :
    (∀ c ∈ v, isDigit c = true) ∧ digitsFrom n v = k := by
  induction v generalizing n with
  | nil =>
    cases h
    exact ⟨by simp, rfl⟩
  | cons c v ih =>
    rw [lengthDigits] at h
    split at h
    · cases h
    · next hdigit =>
      have hc : isDigit c = true := by simpa using hdigit
      split at h
      · cases h
      · obtain ⟨hall, hval⟩ := ih h
        refine ⟨?_, by rw [digitsFrom, if_pos hc]; exact hval⟩
        intro d hd
        rcases List.mem_cons.mp hd with rfl | hd
        · exact hc
        · exact hall d hd

/-- What the loop over the fields finds is the length they agree on. -/
theorem contentLength_ok {headers : Headers} (htrim : ∀ f ∈ headers, trim f.2 = f.2) :
    ∀ {found : Option Nat} {length : Option Nat}, contentLength found headers = .ok length →
      (∀ f ∈ headers, lower f.1 = bytes "content-length" → Decimal f.2 (length.getD 0)) ∧
        (∀ n, found = some n → length = some n) ∧
        ((∀ f ∈ headers, lower f.1 ≠ bytes "content-length") → length = found) := by
  induction headers with
  | nil =>
    intro found length h
    cases h
    exact ⟨by simp, fun n hn => hn, fun _ => rfl⟩
  | cons f headers ih =>
    intro found length h
    have htail : ∀ g ∈ headers, trim g.2 = g.2 := fun g hg => htrim g (List.mem_cons_of_mem _ hg)
    rw [contentLength] at h
    by_cases hname : lower f.1 = bytes "content-length"
    · rw [if_pos (by rw [iEquals_iff, lower_contentLength]; exact hname)] at h
      simp only [htrim f List.mem_cons_self] at h
      split at h
      · cases h
      · next hempty =>
        cases hdigits : lengthDigits 0 f.2 with
        | error err => simp [hdigits] at h
        | ok n =>
          simp only [hdigits] at h
          split at h
          · cases h
          · next hagree =>
            obtain ⟨hall, hkeep, -⟩ := ih htail h
            have hlength : length = some n := hkeep n rfl
            obtain ⟨hdigit, hval⟩ := lengthDigits_ok hdigits
            refine ⟨?_, ?_, ?_⟩
            · intro g hg hgname
              rcases List.mem_cons.mp hg with rfl | hg
              · rw [hlength]
                exact ⟨hempty, hdigit, hval⟩
              · exact hall g hg hgname
            · intro k hk
              subst hk
              have hk : k = n := by simpa using hagree
              rw [hlength, hk]
            · intro hnone
              exact absurd hname (hnone f List.mem_cons_self)
    · rw [if_neg (by rw [iEquals_iff, lower_contentLength]; exact hname)] at h
      obtain ⟨hall, hkeep, hnone⟩ := ih htail h
      refine ⟨?_, hkeep, fun hno => hnone fun g hg => hno g (List.mem_cons_of_mem _ hg)⟩
      intro g hg hgname
      rcases List.mem_cons.mp hg with rfl | hg
      · exact absurd hgname hname
      · exact hall g hg hgname

theorem bodyLength_ok {headers : Headers} (htrim : ∀ f ∈ headers, trim f.2 = f.2)
    (h : bodyLength headers = .ok n) : BodyLength headers n := by
  unfold bodyLength at h
  split at h
  · split at h
    · cases h
    · cases h
  · next hcoding =>
    cases hlength : contentLength none headers with
    | error err => simp [hlength] at h
    | ok length =>
      simp only [hlength, Except.ok.injEq] at h
      obtain ⟨hall, -, hnone⟩ := contentLength_ok htrim hlength
      rw [h] at hall
      refine ⟨?_, hall, ?_⟩
      · intro f hf hname
        apply hcoding
        unfold hasHeader
        rw [List.any_eq_true]
        exact ⟨f, hf, by rw [iEquals_iff, lower_transferEncoding]; exact hname⟩
      · intro hno
        rw [← h, hnone hno]
        rfl

theorem trimmed_of_fields {tok : Bytes → Prop} {lines : List Bytes} {fields : Headers}
    (h : List.Forall₂ (Field tok) lines fields) : ∀ f ∈ fields, trim f.2 = f.2 := by
  induction h with
  | nil =>
    intro f hf
    cases hf
  | cons hfirst _ ih =>
    intro f hf
    rcases List.mem_cons.mp hf with rfl | hf
    · obtain ⟨-, -, -, raw, -, hvalue⟩ := hfirst
      rw [hvalue, trim_trim]
    · exact ih f hf

/-! ## The request line -/

theorem isTokenByte_toUpper (c : Byte) : isTokenByte (toUpper c) = isTokenByte c := by
  cases hlower : isLower c with
  | false =>
    have hsame : toUpper c = c := by rw [toUpper, hlower, if_neg Bool.false_ne_true]
    rw [hsame]
  | true =>
    have hupper : ∀ c : Byte, isLower c = true → isAlnum (toUpper c) = true :=
      forall_byte (by decide +kernel)
    have halnum : isAlnum c = true := by rw [isAlnum, isAlpha, hlower, Bool.or_true, Bool.true_or]
    simp [isTokenByte, halnum, hupper c hlower]

theorem isToken_upper (s : Bytes) : isToken (upper s) = isToken s := by
  have hcomp : isTokenByte ∘ toUpper = isTokenByte := funext isTokenByte_toUpper
  unfold isToken upper
  rw [List.all_map, hcomp]
  simp

/-- A request line in its three parts. -/
theorem requestLine_ok {req : Request} (h : requestLine line = .ok req) :
    ∃ method, line = method ++ ch ' ' :: (req.target ++ ch ' ' :: req.version) ∧
      LooseToken method ∧ ch ' ' ∉ req.target ∧ req.method = upper method ∧ req.headers = [] ∧
        req.body = [] := by
  unfold requestLine at h
  cases hsp1 : findChar (ch ' ') line with
  | none => simp [hsp1] at h
  | some sp1 =>
    simp only [hsp1] at h
    cases hsp2 : findCharFrom (ch ' ') line (sp1 + 1) with
    | none => simp [hsp2] at h
    | some sp2 =>
      simp only [hsp2] at h
      split at h
      · cases h
      · next hparts =>
        split at h
        · cases h
        · cases htarget : splitTarget ((line.drop (sp1 + 1)).take (sp2 - sp1 - 1)) with
          | none => simp [htarget] at h
          | some r =>
            simp only [htarget, Except.ok.injEq] at h
            subst h
            obtain ⟨hout, hsplit⟩ := Net.findChar_some hsp1
            obtain ⟨k, hk, hk2⟩ := Option.map_eq_some_iff.mp hsp2
            obtain ⟨hout', hsplit'⟩ := Net.findChar_some hk
            have hlen : sp2 - sp1 - 1 = k := by omega
            have hdrop : (line.drop (sp1 + 1)).drop (k + 1) = line.drop (sp2 + 1) := by
              rw [List.drop_drop]
              congr 1
              omega
            have htok : isToken (upper (line.take sp1)) = true := by
              rw [not_or] at hparts
              simpa using hparts.1
            rw [isToken_upper] at htok
            refine ⟨line.take sp1, ?_, htok, ?_, rfl, rfl, rfl⟩
            · simp only [hlen]
              rw [← hdrop, ← hsplit']
              exact hsplit
            · simp only [hlen]
              exact hout'

/-! ## Soundness -/

/-- The code's own checks on a message. -/
structure Acceptable (m : Msg) : Prop where
  blanks : m.blanks ≤ 4
  line : ∃ req, requestLine m.start = .ok req
  length : ∃ n, bodyLength m.fields = .ok n

/-- A message that the code takes. -/
def Accepted (o : Bytes) (m : Msg) : Prop := Message LooseToken o m ∧ Acceptable m

theorem readRequest_ok {first : Bool} {sent : Bytes} {req : Request} (hs : Steady s)
    (hread : readRequest limits late first s = (s', sent, .ok req)) :
    ∃ o m, Accepted o m ∧ Shows req m ∧ rest s = o ++ rest s' ∧ Steady s' := by
  unfold readRequest at hread
  cases hstart : readStart limits first s with
  | mk s₁ r =>
    rw [hstart] at hread
    cases r with
    | error err => cases hread
    | ok line =>
      cases hline : requestLine line with
      | error err => simp [hline] at hread
      | ok req₀ =>
        simp only [hline] at hread
        obtain ⟨method, hsplit, htok, htarget, hmethod, -, hbody₀⟩ := requestLine_ok hline
        have hne : line ≠ [] := by
          rw [hsplit]
          simp
        obtain ⟨o₁, blanks, ho₁, hblanks, hrest₁, hs₁⟩ := readStart_ok hs hstart hne
        cases hheaders : readHeaders limits late (limits.maxHeaders + 1) 0 [] s₁ with
        | mk s₂ r =>
          rw [hheaders] at hread
          cases r with
          | error err => cases hread
          | ok headers =>
            obtain ⟨o₂, lines, fields, ho₂, hfields, hheq, hrest₂, hs₂⟩ :=
              readHeaders_ok _ _ hs₁ hheaders
            subst hheq
            cases hlength : bodyLength headers with
            | error err => simp [hlength] at hread
            | ok n =>
              have hn := bodyLength_ok (trimmed_of_fields hfields) hlength
              -- the message, with the body that the length counts
              have hmessage : ∀ body, body.length = n →
                  Accepted (o₁ ++ o₂ ++ body)
                    ⟨blanks.length, method, req₀.target, req₀.version, headers, body⟩ := by
                intro body hbody
                refine ⟨⟨o₁, o₂, blanks, lines, ?_, ho₂, rfl, rfl, htok, htarget, hfields, ?_⟩,
                  ⟨hblanks, ⟨req₀, ?_⟩, n, hlength⟩⟩
                · rw [Msg.start, ← hsplit]
                  exact ho₁
                · rw [hbody]
                  exact hn
                · rw [Msg.start, ← hsplit]
                  exact hline
              cases n with
              | zero =>
                simp only [hlength, Prod.mk.injEq, Except.ok.injEq] at hread
                obtain ⟨rfl, -, rfl⟩ := hread
                refine ⟨_, _, hmessage [] rfl, ⟨hmethod, rfl, rfl, rfl, hbody₀⟩, ?_, hs₂⟩
                rw [hrest₁, hrest₂, List.append_nil, List.append_assoc]
              | succ n =>
                simp only [hlength] at hread
                split at hread
                · cases hread
                · cases hbody : readN (n + 1) s₂ with
                  | mk s₃ r =>
                    obtain ⟨complete, body⟩ := r
                    rw [hbody] at hread
                    cases complete with
                    | false => cases hread
                    | true =>
                      simp only [Prod.mk.injEq, Except.ok.injEq] at hread
                      obtain ⟨rfl, -, rfl⟩ := hread
                      obtain ⟨htook, hrest₃, hs₃⟩ := readN_spec (n + 1) hs₂
                      rw [hbody] at htook hrest₃ hs₃
                      simp only [Prod.mk.injEq] at htook
                      obtain ⟨hle, hbodyeq⟩ := htook
                      have hlen : body.length = n + 1 := by
                        rw [hbodyeq, List.length_take]
                        have := of_decide_eq_true hle.symm
                        omega
                      refine ⟨_, _, hmessage body hlen, ⟨hmethod, rfl, rfl, rfl, rfl⟩, ?_, hs₃⟩
                      have hsplit₃ : rest s₂ = body ++ rest s₃ := by
                        rw [hrest₃, hbodyeq, List.take_append_drop]
                      rw [hrest₁, hrest₂, hsplit₃, List.append_assoc, List.append_assoc]

/-! ## Completeness -/

/-- Limits that a message of these octets does not reach. -/
structure Roomy (limits : Limits) (octets : Nat) : Prop where
  requestLine : octets ≤ limits.maxRequestLine
  headerBytes : 2 * octets ≤ limits.maxHeaderBytes
  headers : octets ≤ limits.maxHeaders
  body : octets ≤ limits.maxBody

theorem Roomy.mono (h : Roomy limits n) (hk : k ≤ n) : Roomy limits k := by
  obtain ⟨h1, h2, h3, h4⟩ := h
  exact ⟨by omega, by omega, by omega, by omega⟩

theorem HeadOf.length_le (h : HeadOf o r) : r.1.length ≤ o.length := by
  induction h with
  | stop hline _ => exact Nat.zero_le _
  | next hline _ _ ih =>
    have := hline.length_lt
    simp only [List.length_cons, List.length_append] at ih ⊢
    omega

/-- With room and in time, every message the code takes is read. -/
theorem readRequest_of_accepted (hlate : ∀ k, late k = false)
    (first : Bool) {m : Msg} (hs : Steady s)
    (haccepted : Accepted o m) (hrest : rest s = o ++ t) (hroom : Roomy limits o.length) :
    ∃ s' sent req, readRequest limits late first s = (s', sent, .ok req) ∧ Shows req m ∧
      rest s' = t ∧ Steady s' := by
  obtain ⟨⟨o₁, o₂, blanks, lines, hstart, hhead, ho, hblanks, htok, htarget, hfields, hlength⟩,
    hfour, ⟨req₀, hline⟩, n, hn⟩ := haccepted
  subst ho
  simp only [List.length_append] at hroom
  rw [List.append_assoc, List.append_assoc] at hrest
  obtain ⟨s₁, hread₁, hrest₁, hs₁⟩ := readStart_of_start first hstart hs hrest
    (hroom.mono (show o₁.length ≤ _ by omega)).requestLine (by omega)
  have hheadLen : lines.length ≤ o₂.length := hhead.length_le
  obtain ⟨-, hheaderBytes, hmaxHeaders, hmaxBody⟩ := hroom
  obtain ⟨s₂, hread₂, hrest₂, hs₂⟩ := readHeaders_of_head hlate hhead (limits.maxHeaders + 1) 0
    [] hs₁ hrest₁ hfields (show 0 + 2 * o₂.length ≤ limits.maxHeaderBytes by omega)
    (show 0 + lines.length ≤ limits.maxHeaders by omega)
    (show lines.length < limits.maxHeaders + 1 by omega)
  have hbody : m.body.length = n :=
    hlength.unique (bodyLength_ok (trimmed_of_fields hfields) hn)
  obtain ⟨method, hsplit, hmtok, hmtarget, hmethod, -, hbody₀⟩ := requestLine_ok hline
  have hparts : m.method = method ∧ m.target = req₀.target ∧ m.version = req₀.version :=
    start_unique m { m with method := method, target := req₀.target, version := req₀.version }
      (stops_looseToken _ htok).2 (stops_looseToken _ hmtok).2 htarget hmtarget hsplit
  unfold readRequest
  rw [hread₁]
  simp only [hline]
  rw [hread₂]
  simp only [List.nil_append, hn]
  have hshows : Shows { req₀ with headers := m.fields, body := m.body } m :=
    ⟨by rw [hparts.1]; exact hmethod, hparts.2.1.symm, hparts.2.2.symm, rfl, rfl⟩
  cases n with
  | zero =>
    have hnil : m.body = [] := List.length_eq_zero_iff.mp hbody
    refine ⟨s₂, [], _, rfl, ?_, ?_, hs₂⟩
    · rw [hnil, ← hbody₀] at hshows
      exact hshows
    · rw [hrest₂, hnil, List.nil_append]
  | succ n =>
    have hfits : ¬limits.maxBody < n + 1 := by omega
    simp only [if_neg hfits]
    obtain ⟨htook, hrest₃, hs₃⟩ := readN_spec (n + 1) hs₂
    have hread₃ : readN (n + 1) s₂ = ((readN (n + 1) s₂).1, true, m.body) := by
      refine Prod.ext rfl ?_
      rw [htook, hrest₂, ← hbody, List.take_left']
      · simp
      · rfl
    rw [hread₃]
    refine ⟨_, _, _, rfl, hshows, ?_, hs₃⟩
    rw [hrest₃, hrest₂, ← hbody, List.drop_left]

/-! ## Connections -/

/-- The requests of a connection are a reading of what the peer sends. -/
theorem readRequests_reading (limits : Limits) (late : Nat → Nat → Bool) :
    ∀ (n served : Nat) {s : ClientStream}, Steady s →
      ∃ ms, Reading Accepted (rest s) ms (rest (readRequests limits late n served s).2) ∧
        List.Forall₂ Shows (readRequests limits late n served s).1 ms := by
  intro n
  induction n with
  | zero => exact fun served s _ => ⟨[], .done _, .nil⟩
  | succ n ih =>
    intro served s hs
    rw [readRequests]
    cases hread : readRequest limits (late served) (served == 0) s with
    | mk s' r =>
      obtain ⟨sent, answer⟩ := r
      cases answer with
      | error err => exact ⟨[], .done _, .nil⟩
      | ok req =>
        obtain ⟨o, m, haccepted, hshows, hrest, hs'⟩ := readRequest_ok hs hread
        obtain ⟨ms, hreading, hall⟩ := ih (served + 1) hs'
        refine ⟨m :: ms, ?_, .cons hshows hall⟩
        rw [hrest]
        exact .frame haccepted hreading

/-- With room and in time, every message of a reading is read. -/
theorem readRequests_of_reading (limits : Limits) {late : Nat → Nat → Bool}
    (hlate : ∀ k j, late k j = false) {stream : Bytes} {ms : List Msg}
    (hreading : Reading Accepted stream ms t) :
    ∀ (served : Nat) {s : ClientStream}, Steady s → rest s = stream →
      Roomy limits stream.length →
        List.Forall₂ Shows (readRequests limits late ms.length served s).1 ms := by
  induction hreading with
  | done => exact fun _ _ _ _ _ => .nil
  | @frame o m stream ms t haccepted _ ih =>
    intro served s hs hrest hroom
    rw [List.length_append] at hroom
    obtain ⟨s', sent, req, hread, hshows, hrest', hs'⟩ := readRequest_of_accepted (hlate served)
      (served == 0) hs haccepted hrest (hroom.mono (by omega))
    rw [List.length_cons, readRequests, hread]
    exact .cons hshows (ih (served + 1) hs' hrest' (hroom.mono (by omega)))

/-! ## Tokens -/

theorem isTokenByte_iff (c : Byte) : isTokenByte c = true ↔ tchar c ∨ c = 0 := by
  unfold isTokenByte tchar isAlnum kExtra
  simp only [Bool.or_eq_true, decide_eq_true_eq, beq_iff_eq]
  tauto

theorem not_tchar_zero : ¬tchar 0 := by
  unfold tchar
  decide

/-- The code's tokens are those of the grammar, and those with a NUL in them. -/
theorem rfcToken_iff {s : Bytes} : RfcToken s ↔ LooseToken s ∧ 0 ∉ s := by
  unfold RfcToken LooseToken isToken
  rw [Bool.and_eq_true, List.all_eq_true, decide_eq_true_eq]
  constructor
  · intro ⟨hne, hall⟩
    refine ⟨⟨hne, fun c hc => (isTokenByte_iff c).mpr (.inl (hall c hc))⟩, ?_⟩
    exact fun hzero => not_tchar_zero (hall 0 hzero)
  · intro ⟨⟨hne, hall⟩, hzero⟩
    refine ⟨hne, fun c hc => ?_⟩
    rcases (isTokenByte_iff c).mp (hall c hc) with h | h
    · exact h
    · exact absurd (h ▸ hc) hzero

theorem stops_rfcToken : Stops RfcToken := fun s hs => stops_looseToken s (rfcToken_iff.mp hs).1

def NulFreeMsg (m : Msg) : Prop := 0 ∉ m.method ∧ ∀ f ∈ m.fields, 0 ∉ f.1

theorem forall₂_field_rfc {lines : List Bytes} {fields : Headers} :
    List.Forall₂ (Field RfcToken) lines fields ↔
      List.Forall₂ (Field LooseToken) lines fields ∧ ∀ f ∈ fields, 0 ∉ f.1 := by
  constructor
  · intro h
    induction h with
    | nil => exact ⟨.nil, by simp⟩
    | cons hfirst _ ih =>
      obtain ⟨hspace, htab, htok, hraw⟩ := hfirst
      obtain ⟨hloose, hzero⟩ := rfcToken_iff.mp htok
      refine ⟨.cons ⟨hspace, htab, hloose, hraw⟩ ih.1, ?_⟩
      intro f hf
      rcases List.mem_cons.mp hf with rfl | hf
      · exact hzero
      · exact ih.2 f hf
  · intro ⟨h, hzero⟩
    induction h with
    | nil => exact .nil
    | cons hfirst _ ih =>
      obtain ⟨hspace, htab, htok, hraw⟩ := hfirst
      refine .cons ⟨hspace, htab, rfcToken_iff.mpr ⟨htok, hzero _ List.mem_cons_self⟩, hraw⟩ ?_
      exact ih fun f hf => hzero f (List.mem_cons_of_mem _ hf)

theorem message_rfc_iff {m : Msg} :
    Message RfcToken o m ↔ Message LooseToken o m ∧ NulFreeMsg m := by
  constructor
  · intro ⟨o₁, o₂, blanks, lines, hstart, hhead, ho, hblanks, htok, htarget, hfields, hlength⟩
    obtain ⟨hloose, hzero⟩ := rfcToken_iff.mp htok
    obtain ⟨hfields', hnames⟩ := forall₂_field_rfc.mp hfields
    exact ⟨⟨o₁, o₂, blanks, lines, hstart, hhead, ho, hblanks, hloose, htarget, hfields',
      hlength⟩, hzero, hnames⟩
  · intro ⟨⟨o₁, o₂, blanks, lines, hstart, hhead, ho, hblanks, htok, htarget, hfields, hlength⟩,
      hzero, hnames⟩
    exact ⟨o₁, o₂, blanks, lines, hstart, hhead, ho, hblanks, rfcToken_iff.mpr ⟨htok, hzero⟩,
      htarget, forall₂_field_rfc.mpr ⟨hfields, hnames⟩, hlength⟩

end QuackMail.Http
