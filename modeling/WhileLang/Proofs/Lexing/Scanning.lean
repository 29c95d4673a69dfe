import WhileLang.Proofs.Lexing.Spelling
import WhileLang.Token.Stream

/-!
# What the scanner reads

The tokens of a text are determined by how the text begins: after a gap it ends
(`ofScanner_gap`, `ofScanner_openComment`), or shows a character that starts no token
(`ofScanner_fault`), or a token that the rest does not go on with (`ofScanner_token`). By
`exists_gap` and `exists_firstToken` there is no other case.
-/

namespace WhileLang

namespace Scanner

/-! ## Tokens -/

theorem takeWhile_ofChars (q : Char → Bool) {tail rest : List Char}
    (htail : ∀ d ∈ tail, q d = true) (hrest : BeginsOutside q rest) :
    CharStream.takeWhile q ⟨[], tail ++ rest⟩ = (tail, ⟨[], rest⟩) := by
  change ((tail ++ rest).takeWhile q, CharStream.mk [] ((tail ++ rest).dropWhile q)) = _
  rw [(cut_of_class htail hrest).1, (cut_of_class htail hrest).2]

theorem tokenFrom_word {c : Char} {tail rest : List Char} (hword : IsWord (c :: tail))
    (hrest : BeginsOutside isWordPart rest) (p : Position) :
    tokenFrom c ⟨[], tail ++ rest⟩ p =
      .ok (.ofWord (String.ofList (c :: tail)) p, ofChars rest (p.pastAll tail)) := by
  obtain ⟨hc, htail⟩ := hword
  unfold tokenFrom
  rw [if_pos hc, takeWhile_ofChars isWordPart htail hrest]
  rfl

theorem isAlpha_eq_false_of_isDigit {c : Char} (h : c.isDigit = true) : c.isAlpha = false := by
  obtain ⟨hlow, hhigh⟩ := Bool.and_eq_true_iff.mp h
  have h0 : 48 ≤ c.toNat := of_decide_eq_true hlow
  have h9 : c.toNat ≤ 57 := of_decide_eq_true hhigh
  apply Bool.eq_false_iff.mpr
  intro halpha
  rcases Bool.or_eq_true_iff.mp halpha with hupper | hlower
  · have hA : 65 ≤ c.toNat := (of_decide_eq_true hupper).1
    omega
  · have ha : 97 ≤ c.toNat := of_decide_eq_true (Bool.and_eq_true_iff.mp hlower).1
    omega

theorem tokenFrom_number {c : Char} {tail rest : List Char} (hc : c.isDigit = true)
    (htail : ∀ d ∈ tail, d.isDigit = true) (hrest : BeginsOutside Char.isDigit rest)
    (p : Position) :
    tokenFrom c ⟨[], tail ++ rest⟩ p =
      .ok (⟨.number, String.ofList (c :: tail), p⟩, ofChars rest (p.pastAll tail)) := by
  unfold tokenFrom
  rw [if_neg (by simp [isAlpha_eq_false_of_isDigit hc]), if_pos hc,
    takeWhile_ofChars Char.isDigit htail hrest]
  rfl

/-- A symbol that one character would make a longer one is read alone where this character does
not follow. -/
theorem symbolKind_alone {k : TokenKind} {c d : Char} {following : Option Char}
    (hk : (k, c, d) ∈ [(.greater, '>', '='), (.equal, '=', '<'), (.colon, ':', '=')])
    (h : following ≠ some d) : symbolKind c following = .ok k := by
  simp only [List.mem_cons, Prod.mk.injEq, List.not_mem_nil, or_false] at hk
  rcases hk with ⟨rfl, rfl, rfl⟩ | ⟨rfl, rfl, rfl⟩ | ⟨rfl, rfl, rfl⟩
  all_goals
    unfold symbolKind
    split <;> simp_all

/-- A symbol is read whole: of two symbols the longer one, where it is there. -/
theorem symbolKind_maximal {k : TokenKind} (hk : k ∈ TokenKind.symbols) {c : Char}
    {tail rest : List Char} (htext : k.text.toList = c :: tail) (hmax : Maximal k rest) :
    symbolKind c (tail ++ rest).head? = .ok k := by
  have hother : ∀ d, k.GoesOn d → rest.head? ≠ some d := fun d hd h => hmax d h hd
  cases k with
  | greater =>
    obtain ⟨rfl, rfl⟩ : '>' = c ∧ [] = tail := List.cons.inj htext
    exact symbolKind_alone (by decide) (hother '=' rfl)
  | equal =>
    obtain ⟨rfl, rfl⟩ : '=' = c ∧ [] = tail := List.cons.inj htext
    exact symbolKind_alone (by decide) (hother '<' rfl)
  | colon =>
    obtain ⟨rfl, rfl⟩ : ':' = c ∧ [] = tail := List.cons.inj htext
    exact symbolKind_alone (by decide) (hother '=' rfl)
  | _ =>
    first
    | exact absurd hk (by decide)
    | obtain ⟨rfl, rfl⟩ : _ = c ∧ _ = tail := List.cons.inj htext
      rfl

theorem symbol_no_word {k : TokenKind} (hk : k ∈ TokenKind.symbols) {c : Char}
    {tail : List Char} (htext : k.text.toList = c :: tail) :
    c.isAlpha = false ∧ c.isDigit = false ∧ isBlank c = false := by
  cases k with
  | _ =>
    first
    | exact absurd hk (by decide)
    | obtain ⟨rfl, rfl⟩ : _ = c ∧ _ = tail := List.cons.inj htext
      exact ⟨rfl, rfl, rfl⟩

theorem tokenFrom_symbol {k : TokenKind} (hk : k ∈ TokenKind.symbols) {c : Char}
    {tail rest : List Char} (htext : k.text.toList = c :: tail) (hmax : Maximal k rest)
    (p : Position) :
    tokenFrom c ⟨[], tail ++ rest⟩ p = .ok (.ofKind k p, ofChars rest (p.pastAll tail)) := by
  obtain ⟨halpha, hdigit, -⟩ := symbol_no_word hk htext
  have hlength : k.text.length - 1 = tail.length := by
    rw [← String.length_toList, htext, List.length_cons, Nat.add_sub_cancel]
  have hpeek : CharStream.peek? ⟨[], tail ++ rest⟩ = (tail ++ rest).head? := rfl
  unfold tokenFrom
  rw [if_neg (by simp [halpha]), if_neg (by simp [hdigit]), hpeek,
    symbolKind_maximal hk htext hmax]
  dsimp only
  rw [hlength]
  simp [CharStream.remaining, CharStream.drop, ofChars]

/-- Where a token begins, the scanner reads it. -/
theorem tokenFrom_firstToken {t : Token} {c : Char} {cs rest : List Char}
    (h : FirstToken t (c :: cs) rest) :
    ∃ tail, t.text.toList = c :: tail ∧
      tokenFrom c ⟨[], cs⟩ t.position = .ok (t, ofChars rest (t.position.pastAll tail)) := by
  obtain ⟨hspelled, hmax, htext⟩ := h
  have hcons : ∃ tail, t.text.toList = c :: tail ∧ cs = tail ++ rest := by
    cases hlist : t.text.toList with
    | nil => exact absurd hlist hspelled.text_ne_nil
    | cons d tail =>
      rw [hlist, List.cons_append, List.cons.injEq] at htext
      exact ⟨tail, by rw [htext.1], htext.2⟩
  obtain ⟨tail, hlist, rfl⟩ := hcons
  have hofList : String.ofList (c :: tail) = t.text := by rw [← hlist, String.ofList_toList]
  refine ⟨tail, hlist, ?_⟩
  rcases hspelled.cases with ⟨hword, ht⟩ | ⟨hk, -, hdigits⟩ | ⟨hk, ht⟩
  · have hkind : t.kind = .identifier ∨ t.kind ∈ TokenKind.keywords :=
      ht ▸ Token.kind_ofWord t.text t.position
    rw [hlist] at hword
    rw [tokenFrom_word hword (hmax.beginsOutside_word hkind), hofList, ← ht]
  · have hvalue : t.text = t.value := by simp [Token.text, hk]
    rw [← hvalue, hlist] at hdigits
    rw [hk] at hmax
    rw [tokenFrom_number (hdigits c (by simp)) (fun d hd => hdigits d (by simp [hd]))
      hmax.beginsOutside_number, hofList, hvalue, ← hk]
  · have hsymbol : t.kind.text.toList = c :: tail := by
      rw [ht, Token.text_ofKind (.inr hk)] at hlist
      exact hlist
    rw [tokenFrom_symbol hk hsymbol hmax, ← ht]

/-! ## Faults -/

theorem symbolKind_fault {c : Char} {rest : List Char} {fault : LexFault}
    (h : StartsNoToken c rest fault) : symbolKind c rest.head? = .error fault := by
  cases h with
  | exclamation h =>
    unfold symbolKind
    split <;> simp_all
  | underscore => rfl
  | other _ _ _ hsymbol hunderscore =>
    unfold symbolKind
    split <;> simp_all [symbolCharacters]

theorem tokenFrom_fault {c : Char} {rest : List Char} {fault : LexFault}
    (h : StartsNoToken c rest fault) (p : Position) :
    tokenFrom c ⟨[], rest⟩ p = .error ⟨fault, p⟩ := by
  obtain ⟨halpha, hdigit, -⟩ := h.no_word
  have hpeek : CharStream.peek? ⟨[], rest⟩ = rest.head? := rfl
  unfold tokenFrom
  rw [if_neg (by simp [halpha]), if_neg (by simp [hdigit]), hpeek, symbolKind_fault h]

end Scanner

/-! ## Gaps before tokens -/

theorem isBlank_eq_false_of_isWordPart {c : Char} (h : isWordPart c = true) :
    isBlank c = false ∧ c ≠ '/' := by
  constructor
  · apply Bool.eq_false_iff.mpr
    intro hblank
    simp only [isBlank, Bool.or_eq_true, beq_iff_eq] at hblank
    rcases hblank with ((rfl | rfl) | rfl) | rfl <;> cases h
  · rintro rfl
    cases h

theorem isWordPart_eq_false_of_isBlank {c : Char} (h : isBlank c = true) :
    isWordPart c = false ∧ c ≠ '/' := by
  constructor
  · apply Bool.eq_false_iff.mpr
    intro hpart
    rw [(isBlank_eq_false_of_isWordPart hpart).1] at h
    cases h
  · rintro rfl
    cases h

theorem isWordPart_of_isDigit {c : Char} (h : c.isDigit = true) : isWordPart c = true := by
  simp [isWordPart, Char.isAlphanum, h]

/-- The first character of a word or a number can stand in a word. -/
theorem Token.Spelled.head_cases {t : Token} (h : t.Spelled) {c : Char} {tail : List Char}
    (hlist : t.text.toList = c :: tail) :
    isWordPart c = true ∨ t.kind ∈ TokenKind.symbols ∧ t.kind.text.toList = c :: tail := by
  rcases h.cases with ⟨hword, -⟩ | ⟨hk, -, hdigits⟩ | ⟨hk, ht⟩
  · rw [hlist] at hword
    exact .inl (isWordPart_of_isAlpha hword.1)
  · have hvalue : t.text = t.value := by simp [Token.text, hk]
    rw [← hvalue, hlist] at hdigits
    exact .inl (isWordPart_of_isDigit (hdigits c List.mem_cons_self))
  · rw [ht, Token.text_ofKind (.inr hk)] at hlist
    exact .inr ⟨hk, hlist⟩

/-- No token begins with a blank or a comment. -/
theorem FirstToken.endsGap {t : Token} {cs rest : List Char} (h : FirstToken t cs rest) :
    EndsGap cs := by
  obtain ⟨hspelled, hmax, rfl⟩ := h
  obtain ⟨c, tail, hlist⟩ := List.exists_cons_of_ne_nil hspelled.text_ne_nil
  rw [hlist]
  rcases hspelled.head_cases hlist with hpart | ⟨hk, htext⟩
  · obtain ⟨hblank, hslash⟩ := isBlank_eq_false_of_isWordPart hpart
    constructor
    · intro d hd
      cases hd
      exact hblank
    · intro more hmore
      exact hslash (List.cons.inj hmore).1
  · have hblank := (Scanner.symbol_no_word hk htext).2.2
    constructor
    · intro d hd
      cases hd
      exact hblank
    · intro more hmore
      -- only the slash begins like a comment, and a second slash would go on with it
      generalize t.kind = k at hk htext hmax
      rw [← htext] at hmore
      cases k with
      | slash =>
        obtain rfl : rest = '/' :: more := (List.cons.inj hmore).2
        exact hmax '/' rfl rfl
      | _ => first | exact absurd hk (by decide) | cases hmore

theorem StartsNoToken.endsGap {c : Char} {rest : List Char} {fault : LexFault}
    (h : StartsNoToken c rest fault) : EndsGap (c :: rest) := by
  constructor
  · intro d hd
    cases hd
    exact h.no_word.2.2
  · intro more hmore
    cases hmore
    cases h with
    | other _ _ _ hsymbol => exact hsymbol (by decide)

theorem past_of_endsGap {c : Char} {cs : List Char} (h : EndsGap (c :: cs)) (p : Position) :
    p.past c = p.nextColumn := by
  apply if_neg
  intro hc
  have hblank := h.1 c rfl
  rw [hc] at hblank
  cases hblank

namespace Scanner

/-- The first character after a gap. -/
theorem next_ofChars {g : List Char} (hg : Gap g) {c : Char} {cs : List Char}
    (h : EndsGap (c :: cs)) (p : Position) :
    next (ofChars (g ++ c :: cs) p) = tokenFrom c ⟨[], cs⟩ (p.pastAll g).nextColumn := by
  unfold next
  rw [skipGap_gap hg h, ← past_of_endsGap h]
  rfl

/-- A gap and a token. -/
theorem next_token {g : List Char} (hg : Gap g) {t : Token} {cs rest : List Char}
    (h : FirstToken t cs rest) {p : Position} (hp : t.position = (p.pastAll g).nextColumn) :
    next (ofChars (g ++ cs) p) =
      .ok (t, ofChars rest ((p.pastAll g).pastAll t.text.toList)) := by
  cases cs with
  | nil =>
    have htext := h.text
    simp only [List.nil_eq, List.append_eq_nil_iff] at htext
    exact absurd htext.1 h.spelled.text_ne_nil
  | cons c cs =>
    obtain ⟨tail, htail, hfrom⟩ := tokenFrom_firstToken h
    rw [next_ofChars hg h.endsGap, ← hp, hfrom, hp, ← past_of_endsGap h.endsGap,
      ← Position.pastAll_cons, ← htail]

/-- A gap and the end of the text. -/
theorem next_gap {g : List Char} (hg : Gap g) (p : Position) :
    next (ofChars g p) =
      .ok (.ofKind .endOfText (p.pastAll g).nextColumn, ofChars [] (p.pastAll g)) := by
  have hskip := skipGap_gap hg endsGap_nil p
  rw [List.append_nil] at hskip
  unfold next
  rw [hskip]
  rfl

/-- A gap and a comment that the text ends in. -/
theorem next_openComment {g c : List Char} (hg : Gap g) (hc : OpenComment c) (p : Position) :
    next (ofChars (g ++ c) p) =
      .ok (.ofKind .endOfText (p.pastAll (g ++ c)).nextLine.nextColumn,
        ofChars [] (p.pastAll (g ++ c)).nextLine) := by
  unfold next
  rw [skipGap_openComment hg hc]
  rfl

end Scanner

/-! ## The tokens of a text -/

namespace TokenStream

open Scanner

theorem ofScanner_of_next_ok {s s' : Scanner} {t : Token} (h : s.next = .ok (t, s'))
    (ht : t.kind ≠ .endOfText) : ofScanner s = cons t (ofScanner s') := by
  rw [ofScanner]
  split
  · next e he => rw [h] at he; cases he
  · next u rest hu =>
    rw [h] at hu
    cases hu
    rw [dif_neg ht]

theorem ofScanner_of_next_end {s s' : Scanner} {t : Token} (h : s.next = .ok (t, s'))
    (ht : t.kind = .endOfText) : ofScanner s = ofTokens [] (.endOfText t.position) := by
  rw [ofScanner]
  split
  · next e he => rw [h] at he; cases he
  · next u rest hu =>
    rw [h] at hu
    cases hu
    rw [dif_pos ht]

theorem ofScanner_of_next_error {s : Scanner} {e : LexError} (h : s.next = .error e) :
    ofScanner s = ofTokens [] (.failure e) := by
  rw [ofScanner]
  split
  · next e' he =>
    rw [h] at he
    cases he
    rfl
  · next u rest hu => rw [h] at hu; cases hu

theorem ofScanner_gap {g : List Char} (hg : Gap g) (p : Position) :
    ofScanner (ofChars g p) = ofTokens [] (.endOfText (p.pastAll g).nextColumn) :=
  ofScanner_of_next_end (next_gap hg p) rfl

theorem ofScanner_openComment {g c : List Char} (hg : Gap g) (hc : OpenComment c)
    (p : Position) :
    ofScanner (ofChars (g ++ c) p) =
      ofTokens [] (.endOfText (p.pastAll (g ++ c)).nextLine.nextColumn) :=
  ofScanner_of_next_end (next_openComment hg hc p) rfl

/-- A gap and a character that starts no token. -/
theorem ofScanner_fault {g : List Char} (hg : Gap g) {c : Char} {rest : List Char}
    {fault : LexFault} (h : StartsNoToken c rest fault) (p : Position) :
    ofScanner (ofChars (g ++ c :: rest) p) =
      ofTokens [] (.failure ⟨fault, (p.pastAll g).nextColumn⟩) := by
  apply ofScanner_of_next_error
  rw [next_ofChars hg h.endsGap, tokenFrom_fault h]

theorem ofScanner_token {g : List Char} (hg : Gap g) {t : Token} {cs rest : List Char}
    (h : FirstToken t cs rest) {p : Position} (hp : t.position = (p.pastAll g).nextColumn) :
    ofScanner (ofChars (g ++ cs) p) =
      cons t (ofScanner (ofChars rest ((p.pastAll g).pastAll t.text.toList))) :=
  ofScanner_of_next_ok (next_token hg h hp) h.spelled.kind_ne_endOfText

end TokenStream

end WhileLang
