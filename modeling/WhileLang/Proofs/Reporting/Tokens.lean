import WhileLang.Analysis.Report
import WhileLang.Proofs.Lexing.Partition

/-!
# What a report of tokens tells

Two texts with the same lexical report have the same tokens, at the same positions, and the same
lexical error or none (`tokens_of_report`). Columns are filled up with blanks and never cut, so that
a long entry runs into the next one. Still every entry ends where another class of characters
begins: a position before what is no digit, a kind and a value before a blank. So the report can be
read from its front, and each part of it says where it ends (`tokenLine_append_inj`,
`tokenLines_append_inj`).
-/

namespace WhileLang

/-! ## Positions -/

theorem isDigit_of_mem_toString {n : Nat} {c : Char} (h : c ∈ (toString n).toList) :
    c.isDigit = true := by
  rw [Nat.toString_eq_repr, Nat.toList_repr] at h
  exact Nat.isDigit_of_mem_toDigits (by decide) (by decide) h

/-- A number ends before the first character that is no digit. -/
theorem toString_append_inj {m n : Nat} {xs ys : List Char} (hxs : BeginsOutside Char.isDigit xs)
    (hys : BeginsOutside Char.isDigit ys)
    (h : (toString m).toList ++ xs = (toString n).toList ++ ys) : m = n ∧ xs = ys := by
  obtain ⟨hdigits, hrest⟩ := append_inj_of_class (fun _ hc => isDigit_of_mem_toString hc)
    (fun _ hc => isDigit_of_mem_toString hc) hxs hys h
  rw [Nat.toString_eq_repr, Nat.toString_eq_repr, Nat.toList_repr, Nat.toList_repr] at hdigits
  have hvalue := congrArg (fun ds => Nat.ofDigitChars 10 ds 0) hdigits
  exact ⟨by simpa using hvalue, hrest⟩

namespace Position

theorem toList_text (p : Position) :
    p.text.toList = (toString p.line).toList ++ ':' :: (toString p.column).toList := by
  unfold text
  rw [String.toList_append, String.toList_append, List.append_assoc]
  rfl

theorem text_append_inj {p q : Position} {xs ys : List Char}
    (hxs : BeginsOutside Char.isDigit xs) (hys : BeginsOutside Char.isDigit ys)
    (h : p.text.toList ++ xs = q.text.toList ++ ys) : p = q ∧ xs = ys := by
  obtain ⟨line, column⟩ := p
  obtain ⟨line', column'⟩ := q
  rw [toList_text, toList_text, List.append_assoc, List.append_assoc] at h
  obtain ⟨rfl, hrest⟩ :=
    toString_append_inj (beginsOutside_cons rfl _) (beginsOutside_cons rfl _) h
  obtain ⟨rfl, hxy⟩ := toString_append_inj hxs hys (List.cons.inj hrest).2
  exact ⟨rfl, hxy⟩

end Position

/-! ## Columns -/

namespace Text

theorem toList_filling (width : Nat) (s : String) :
    (filling width s).toList = List.replicate (width - s.length) ' ' := String.toList_ofList

theorem toList_leftAligned (width : Nat) (s : String) :
    (leftAligned width s).toList = s.toList ++ (filling width s).toList := String.toList_append

/-- What fills a column begins with a blank, unless there is nothing to fill. -/
theorem beginsOutside_filling {q : Char → Bool} (hq : q ' ' = false) (width : Nat) (s : String)
    {cs : List Char} (h : BeginsOutside q cs) :
    BeginsOutside q ((filling width s).toList ++ cs) := by
  rw [toList_filling]
  cases width - s.length with
  | zero => exact h
  | succ n => exact beginsOutside_cons hq _

/-- An entry of one class of characters ends before the first one outside of the class. -/
theorem leftAligned_append_inj {q : Char → Bool} {width : Nat} {s s' : String} {xs ys : List Char}
    (hs : ∀ c ∈ s.toList, q c = true) (hs' : ∀ c ∈ s'.toList, q c = true)
    (hxs : BeginsOutside q ((filling width s).toList ++ xs))
    (hys : BeginsOutside q ((filling width s').toList ++ ys))
    (h : (leftAligned width s).toList ++ xs = (leftAligned width s').toList ++ ys) :
    s = s' ∧ xs = ys := by
  rw [toList_leftAligned, toList_leftAligned, List.append_assoc, List.append_assoc] at h
  obtain ⟨hlist, hrest⟩ := append_inj_of_class hs hs' hxs hys h
  obtain rfl := String.toList_injective hlist
  exact ⟨rfl, List.append_cancel_left hrest⟩

theorem toList_unlines_cons (line : String) (lines : List String) :
    (unlines (line :: lines)).toList = line.toList ++ '\n' :: (unlines lines).toList := by
  unfold unlines
  rw [List.map_cons, String.join_cons, String.toList_append, String.toList_append,
    List.append_assoc]
  rfl

end Text

/-! ## Rows -/

/-- The characters that are no blanks. -/
def isInk (c : Char) : Bool := !isBlank c

theorem TokenKind.isInk_text (k : TokenKind) : ∀ c ∈ k.text.toList, isInk c = true := by
  apply List.all_eq_true.mp
  cases k <;> decide

theorem TokenKind.beginsOutside_text (k : TokenKind) (cs : List Char) :
    BeginsOutside Char.isDigit (k.text.toList ++ cs) := by
  cases k <;> exact beginsOutside_cons rfl _

namespace Token

/-- A token that can be listed for a text: one that the text has, or its end. -/
def Listed (t : Token) : Prop := t.Spelled ∨ ∃ p, t = .ofKind .endOfText p

theorem Spelled.isWordPart_value {t : Token} (h : t.Spelled) {c : Char}
    (hc : c ∈ t.value.toList) : isWordPart c = true := by
  obtain ⟨k, value, p⟩ := t
  cases k with
  | identifier => exact h.1.isWordPart c hc
  | number => exact isWordPart_of_isDigit (h.2 c hc)
  | endOfText => exact absurd h id
  | _ =>
    obtain rfl : value = "" := h
    cases hc

theorem Listed.isInk_value {t : Token} (h : t.Listed) : ∀ c ∈ t.value.toList, isInk c = true := by
  intro c hc
  rcases h with hspelled | ⟨p, rfl⟩
  · simp [isInk, (isBlank_eq_false_of_isWordPart (hspelled.isWordPart_value hc)).1]
  · cases hc

/-- After its kind a row has a blank. Only the kind of the end is as long as its column, and the end
has no value. -/
theorem Listed.beginsOutside_kind {t : Token} (h : t.Listed) (cs : List Char) :
    BeginsOutside isInk ((Text.filling 9 t.kind.text).toList ++
      ((Text.leftAligned 8 t.value).toList ++ cs)) := by
  rcases h with hspelled | ⟨p, rfl⟩
  · have hshort : t.kind.text.length < 9 := by
      have hk := hspelled.kind_ne_endOfText
      generalize t.kind = k at hk
      cases k <;> first | decide | exact absurd rfl hk
    rw [Text.toList_filling]
    obtain ⟨n, hn⟩ := Nat.exists_eq_succ_of_ne_zero (Nat.sub_ne_zero_of_lt hshort)
    rw [hn]
    exact beginsOutside_cons rfl _
  · have hkind : (Text.filling 9 TokenKind.endOfText.text).toList = [] := by decide
    have hvalue : (Text.leftAligned 8 "").toList = ' ' :: List.replicate 7 ' ' := by decide
    change BeginsOutside isInk ((Text.filling 9 TokenKind.endOfText.text).toList ++
      ((Text.leftAligned 8 "").toList ++ cs))
    rw [hkind, hvalue]
    exact beginsOutside_cons rfl _

end Token

theorem toList_tokenLine (t : Token) :
    (Report.tokenLine t).toList = t.position.text.toList ++
      ((Text.filling 9 t.position.text).toList ++
        ((Text.leftAligned 9 t.kind.text).toList ++ (Text.leftAligned 8 t.value).toList)) := by
  unfold Report.tokenLine Report.tokenRow
  rw [String.toList_append, String.toList_append, Text.toList_leftAligned, List.append_assoc,
    List.append_assoc]

/-- A row says which token it is about, and where it ends. -/
theorem tokenLine_append_inj {t u : Token} (ht : t.Listed) (hu : u.Listed) {xs ys : List Char}
    (h : (Report.tokenLine t).toList ++ '\n' :: xs = (Report.tokenLine u).toList ++ '\n' :: ys) :
    t = u ∧ xs = ys := by
  have hkind (v : Token) (cs : List Char) :
      BeginsOutside Char.isDigit ((Text.filling 9 v.position.text).toList ++
        ((Text.leftAligned 9 v.kind.text).toList ++ cs)) := by
    refine Text.beginsOutside_filling rfl _ _ ?_
    rw [Text.toList_leftAligned, List.append_assoc]
    exact v.kind.beginsOutside_text _
  have hfeed (v : Token) (cs : List Char) :
      BeginsOutside isInk ((Text.filling 8 v.value).toList ++ '\n' :: cs) :=
    Text.beginsOutside_filling rfl _ _ (beginsOutside_cons rfl cs)
  simp only [toList_tokenLine, List.append_assoc] at h
  obtain ⟨hposition, h⟩ := Position.text_append_inj (hkind t _) (hkind u _) h
  rw [hposition] at h
  obtain ⟨htext, h⟩ := Text.leftAligned_append_inj t.kind.isInk_text u.kind.isInk_text
    (ht.beginsOutside_kind _) (hu.beginsOutside_kind _) (List.append_cancel_left h)
  obtain ⟨hvalue, hend⟩ := Text.leftAligned_append_inj ht.isInk_value hu.isInk_value
    (hfeed t xs) (hfeed u ys) h
  obtain ⟨k, value, p⟩ := t
  obtain ⟨k', value', p'⟩ := u
  obtain rfl : p = p' := hposition
  obtain rfl : value = value' := hvalue
  obtain rfl : k = k' := TokenKind.eq_of_text_eq htext
  exact ⟨rfl, (List.cons.inj hend).2⟩

/-- A row begins with a digit. -/
theorem not_beginsOutside_tokenLine (t : Token) (cs : List Char) :
    ¬BeginsOutside Char.isDigit ((Report.tokenLine t).toList ++ cs) := by
  intro h
  have hne : (toString t.position.line).toList ≠ [] := by
    rw [Nat.toString_eq_repr, Nat.toList_repr]
    exact Nat.toDigits_ne_nil
  obtain ⟨c, tail, hlist⟩ := List.exists_cons_of_ne_nil hne
  have hdigit : c.isDigit = true := by
    apply isDigit_of_mem_toString (n := t.position.line)
    rw [hlist]
    exact List.mem_cons_self
  rw [toList_tokenLine, Position.toList_text, hlist] at h
  rw [h c rfl] at hdigit
  cases hdigit

/-- The rows of a table say which tokens it is about, and where the table ends. -/
theorem tokenLines_append_inj {ts us : List Token} (hts : ∀ t ∈ ts, t.Listed)
    (hus : ∀ u ∈ us, u.Listed) {xs ys : List Char} (hxs : BeginsOutside Char.isDigit xs)
    (hys : BeginsOutside Char.isDigit ys)
    (h : (Text.unlines (ts.map Report.tokenLine)).toList ++ xs =
      (Text.unlines (us.map Report.tokenLine)).toList ++ ys) : ts = us ∧ xs = ys := by
  induction ts generalizing us with
  | nil =>
    cases us with
    | nil => exact ⟨rfl, h⟩
    | cons u us =>
      change xs = _ at h
      rw [List.map_cons, Text.toList_unlines_cons, List.append_assoc] at h
      exact absurd (h ▸ hxs) (not_beginsOutside_tokenLine u _)
  | cons t ts ih =>
    cases us with
    | nil =>
      change _ = ys at h
      rw [List.map_cons, Text.toList_unlines_cons, List.append_assoc] at h
      exact absurd (h ▸ hys) (not_beginsOutside_tokenLine t _)
    | cons u us =>
      rw [List.map_cons, List.map_cons, Text.toList_unlines_cons, Text.toList_unlines_cons,
        List.append_assoc, List.append_assoc, List.cons_append, List.cons_append] at h
      obtain ⟨rfl, hmore⟩ :=
        tokenLine_append_inj (hts t List.mem_cons_self) (hus u List.mem_cons_self) h
      obtain ⟨rfl, hxy⟩ := ih (fun v hv => hts v (List.mem_cons_of_mem t hv))
        (fun v hv => hus v (List.mem_cons_of_mem t hv)) hmore
      exact ⟨rfl, hxy⟩

/-! ## The end of a report -/

/-- The lines of a report after its table. -/
def closingLines : Option LexError → List String
  | some e => Report.errorLines e.message
  | none => ["Lexical scan completed successfully.", ""]

theorem LexFault.text_append_inj {f g : LexFault} {xs ys : List Char}
    (h : f.text.toList ++ xs = g.text.toList ++ ys) : f = g := by
  cases f with
  | illegalSymbol c =>
    cases g with
    | illegalSymbol d =>
      obtain ⟨rfl, -⟩ : c = d ∧ xs = ys := by simpa [text, hint?, symbol] using h
      rfl
    | _ => simp [text, hint?, symbol] at h
  | loneExclamation =>
    cases g with
    | loneExclamation => rfl
    | _ => simp [text, hint?, symbol] at h
  | leadingUnderscore =>
    cases g with
    | leadingUnderscore => rfl
    | _ => simp [text, hint?, symbol] at h

theorem LexError.message_append_inj {e f : LexError} {xs ys : List Char}
    (h : e.message.toList ++ xs = f.message.toList ++ ys) : e = f := by
  have htext (x : LexError) (cs : List Char) : x.message.toList ++ cs =
      "at ".toList ++ (x.position.text.toList ++ (", ".toList ++ (x.fault.text.toList ++ cs))) := by
    unfold message
    simp only [String.toList_append, List.append_assoc]
  have hcomma (cs : List Char) : BeginsOutside Char.isDigit (", ".toList ++ cs) :=
    beginsOutside_cons rfl _
  rw [htext, htext] at h
  obtain ⟨hposition, hrest⟩ :=
    Position.text_append_inj (hcomma _) (hcomma _) (List.append_cancel_left h)
  have hfault := LexFault.text_append_inj (List.append_cancel_left hrest)
  obtain ⟨fault, p⟩ := e
  obtain ⟨fault', p'⟩ := f
  obtain rfl : p = p' := hposition
  obtain rfl : fault = fault' := hfault
  rfl

theorem toList_closingLines_some (e : LexError) :
    (Text.unlines (closingLines (some e))).toList = "Error: ".toList ++ (e.message.toList ++
      '\n' :: (Text.unlines ["Task ended due to error.", ""]).toList) := by
  unfold closingLines Report.errorLines
  rw [Text.toList_unlines_cons, String.toList_append, List.append_assoc]

theorem beginsOutside_closingLines (e? : Option LexError) :
    BeginsOutside Char.isDigit (Text.unlines (closingLines e?)).toList := by
  cases e? with
  | none =>
    unfold closingLines
    rw [Text.toList_unlines_cons]
    exact beginsOutside_cons rfl _
  | some e =>
    rw [toList_closingLines_some]
    exact beginsOutside_cons rfl _

/-- The end of a report says whether there is an error, and which. -/
theorem closingLines_inj {e? e?' : Option LexError}
    (h : (Text.unlines (closingLines e?)).toList = (Text.unlines (closingLines e?')).toList) :
    e? = e?' := by
  cases e? with
  | none =>
    cases e?' with
    | none => rfl
    | some e' =>
      rw [toList_closingLines_some, closingLines, Text.toList_unlines_cons] at h
      cases congrArg List.head? h
  | some e =>
    cases e?' with
    | none =>
      rw [toList_closingLines_some, closingLines, Text.toList_unlines_cons] at h
      cases congrArg List.head? h
    | some e' =>
      rw [toList_closingLines_some, toList_closingLines_some] at h
      rw [LexError.message_append_inj (List.append_cancel_left h)]

/-! ## Reports -/

/-- The lines of every report of one name before its table. -/
def openingLines (name : String) : List String :=
  ["Starting lexical analysis scan on '" ++ name ++ "'...",
    Report.tokenRow "Position" "Kind" "Value"]

theorem toList_lexical (name : String) (a : Analysis) :
    (Report.lexical name a).toList = (Text.unlines (openingLines name)).toList ++
      ((Text.unlines (a.tokens.map Report.tokenLine)).toList ++
        (Text.unlines (closingLines a.lexError?)).toList) := by
  have hlines : Report.lexical name a = Text.unlines
      (openingLines name ++ a.tokens.map Report.tokenLine ++ closingLines a.lexError?) := by
    unfold Report.lexical closingLines
    cases a.lexError? <;> rfl
  rw [hlines, Text.unlines_append, Text.unlines_append, String.toList_append,
    String.toList_append, List.append_assoc]

theorem analyze_of_lexical {o : Options} (ho : o.mode = .lexical) (source : String) :
    (analyze o source).tokens = (collectTokens source).1 ∧
      (analyze o source).lexError? = (collectTokens source).2 := by
  unfold analyze
  rw [ho]
  exact ⟨rfl, rfl⟩

/-- **A lexical report loses nothing.** Two texts whose reports under one name are the same have the
same tokens, with their values and positions, and the same lexical error, or both have none. -/
theorem tokens_of_report (o o' : Options) (name source source' : String)
    (ho : o.mode = .lexical) (ho' : o'.mode = .lexical)
    (h : Report.lexical name (analyze o source) = Report.lexical name (analyze o' source')) :
    (analyze o source).tokens = (analyze o' source').tokens ∧
      (analyze o source).lexError? = (analyze o' source').lexError? := by
  have hlisted {o : Options} (ho : o.mode = .lexical) (source : String) :
      ∀ t ∈ (analyze o source).tokens, t.Listed := by
    rw [(analyze_of_lexical ho source).1]
    exact fun t ht => spelled_or_end_of_mem_collectTokens ht
  have hlist := congrArg String.toList h
  rw [toList_lexical, toList_lexical] at hlist
  obtain ⟨htokens, hclosing⟩ := tokenLines_append_inj (hlisted ho source) (hlisted ho' source')
    (beginsOutside_closingLines _) (beginsOutside_closingLines _) (List.append_cancel_left hlist)
  exact ⟨htokens, closingLines_inj hclosing⟩

/-- Two texts that differ only between their tokens and after their error. -/
theorem tokens_of_report_symbol :
    Report.lexical "a.tf" (analyze ⟨.lexical, false, false, false⟩ "long_identifier ?") =
        Report.lexical "a.tf" (analyze ⟨.lexical, true, true, true⟩ "long_identifier\t? end") ∧
      (analyze ⟨.lexical, false, false, false⟩ "long_identifier ?").tokens =
        (analyze ⟨.lexical, true, true, true⟩ "long_identifier\t? end").tokens ∧
      (analyze ⟨.lexical, false, false, false⟩ "long_identifier ?").lexError? =
        (analyze ⟨.lexical, true, true, true⟩ "long_identifier\t? end").lexError? := by
  have h : Report.lexical "a.tf" (analyze ⟨.lexical, false, false, false⟩ "long_identifier ?") =
      Report.lexical "a.tf" (analyze ⟨.lexical, true, true, true⟩ "long_identifier\t? end") := by
    decide +kernel
  exact ⟨h, tokens_of_report _ _ "a.tf" _ _ rfl rfl h⟩

end WhileLang
