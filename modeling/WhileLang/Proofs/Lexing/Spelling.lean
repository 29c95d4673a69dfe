import WhileLang.Proofs.Lexing.Gaps

/-!
# How tokens are spelled

* `Token.Spelled`: the tokens that a text can hold.
* `Maximal`: what follows does not go on with the token.
* `StartsNoToken`: the characters that no token begins with, and what is wrong with them.

Every text that no gap begins with has ended, begins with a maximal token, or begins with a
character that starts none (`exists_firstToken`).
-/

namespace WhileLang

/-! ## Words -/

/-- A letter, then letters, digits and underscores. -/
def IsWord : List Char → Prop
  | [] => False
  | c :: tail => c.isAlpha = true ∧ ∀ d ∈ tail, isWordPart d = true

instance : DecidablePred IsWord
  | [] => .isFalse id
  | c :: tail =>
    decidable_of_decidable_of_iff (p := (c.isAlpha && tail.all isWordPart) = true)
      (by simp [IsWord])

namespace TokenKind

theorem keyword?_text : ∀ k ∈ keywords, keyword? k.text = some k := by decide

theorem isWord_text : ∀ k ∈ keywords, IsWord k.text.toList := by decide

theorem keyword?_eq_some {word : String} {k : TokenKind} (h : keyword? word = some k) :
    k ∈ keywords ∧ k.text = word := by
  refine ⟨List.mem_of_find?_eq_some h, ?_⟩
  have hfound := List.find?_some h
  simpa using hfound

theorem ofText?_text (k : TokenKind) : ofText? k.text = some k := by
  cases k <;> decide

theorem eq_of_text_eq {k l : TokenKind} (h : k.text = l.text) : k = l := by
  have hsame := ofText?_text k
  rw [h, ofText?_text] at hsame
  exact (Option.some.inj hsame).symm

/-- What a kind of token would go on with, if it came next. -/
def GoesOn (k : TokenKind) (c : Char) : Prop :=
  match k with
  | number => c.isDigit = true
  | greater | colon => c = '='
  | equal => c = '<'
  | slash => c = '/'
  | k => (k = identifier ∨ k ∈ keywords) ∧ isWordPart c = true

theorem goesOn_word_iff {k : TokenKind} (hk : k = identifier ∨ k ∈ keywords) {c : Char} :
    k.GoesOn c ↔ isWordPart c = true := by
  cases k <;> first
    | exact ⟨fun h => h.2, fun h => ⟨hk, h⟩⟩
    | exact absurd hk (by decide)

end TokenKind

/-- The text after a token does not go on with it. -/
def Maximal (k : TokenKind) (rest : List Char) : Prop :=
  ∀ c, rest.head? = some c → ¬k.GoesOn c

/-! ## Tokens -/

namespace Token

/-- A token that a text can hold: identifiers and numbers spell themselves, all other tokens
leave their spelling to their kind. -/
def Spelled (t : Token) : Prop :=
  match t.kind with
  | .identifier => IsWord t.value.toList ∧ TokenKind.keyword? t.value = none
  | .number => t.value ≠ "" ∧ ∀ c ∈ t.value.toList, c.isDigit = true
  | .endOfText => False
  | _ => t.value = ""

theorem text_ofKind {k : TokenKind} (h : k ∈ TokenKind.keywords ∨ k ∈ TokenKind.symbols)
    (p : Position) : (ofKind k p).text = k.text := by
  rcases h with h | h
  · revert k
    simp only [ofKind, text]
    decide
  · revert k
    simp only [ofKind, text]
    decide

theorem spelled_ofKind {k : TokenKind} (h : k ∈ TokenKind.keywords ∨ k ∈ TokenKind.symbols)
    (p : Position) : (ofKind k p).Spelled := by
  cases k <;> first | rfl | exact absurd h (by decide)

theorem text_ofWord (word : String) (p : Position) : (ofWord word p).text = word := by
  unfold ofWord
  split
  · next k hk =>
    obtain ⟨hmem, htext⟩ := TokenKind.keyword?_eq_some hk
    rw [text_ofKind (.inl hmem), htext]
  · rfl

theorem spelled_ofWord {word : String} (h : IsWord word.toList) (p : Position) :
    (ofWord word p).Spelled := by
  unfold ofWord
  split
  · next k hk => exact spelled_ofKind (.inl (TokenKind.keyword?_eq_some hk).1) p
  · next hk => exact ⟨h, hk⟩

theorem position_ofWord (word : String) (p : Position) : (ofWord word p).position = p := by
  unfold ofWord
  split <;> rfl

theorem kind_ofWord (word : String) (p : Position) :
    (ofWord word p).kind = .identifier ∨ (ofWord word p).kind ∈ TokenKind.keywords := by
  unfold ofWord
  split
  · next k hk => exact .inr (TokenKind.keyword?_eq_some hk).1
  · exact .inl rfl

/-- Tokens are words, numbers and symbols. -/
theorem Spelled.cases {t : Token} (h : t.Spelled) :
    (IsWord t.text.toList ∧ t = ofWord t.text t.position) ∨
      (t.kind = .number ∧ t.value ≠ "" ∧ ∀ c ∈ t.value.toList, c.isDigit = true) ∨
      (t.kind ∈ TokenKind.symbols ∧ t = ofKind t.kind t.position) := by
  obtain ⟨k, value, p⟩ := t
  by_cases hword : k ∈ TokenKind.keywords
  · left
    have hvalue : value = "" := by
      cases k <;> first | exact h | exact absurd hword (by decide)
    subst hvalue
    have htext : (Token.mk k "" p).text = k.text := text_ofKind (.inl hword) p
    rw [htext]
    refine ⟨TokenKind.isWord_text k hword, ?_⟩
    unfold ofWord
    rw [TokenKind.keyword?_text k hword]
    rfl
  · by_cases hsymbol : k ∈ TokenKind.symbols
    · right; right
      have hvalue : value = "" := by
        cases k <;> first | exact h | exact absurd hsymbol (by decide)
      subst hvalue
      exact ⟨hsymbol, rfl⟩
    · cases k with
      | identifier =>
        left
        obtain ⟨hvalue, hnone⟩ := h
        refine ⟨hvalue, ?_⟩
        change _ = ofWord value p
        unfold ofWord
        rw [hnone]
      | number => exact .inr (.inl ⟨rfl, h⟩)
      | endOfText => exact False.elim h
      | _ => first | exact absurd (by decide) hword | exact absurd (by decide) hsymbol

/-- No token is spelled by nothing. -/
theorem Spelled.text_ne_nil {t : Token} (h : t.Spelled) : t.text.toList ≠ [] := by
  intro hnil
  rcases h.cases with ⟨hword, -⟩ | ⟨hk, hne, -⟩ | ⟨hk, ht⟩
  · rw [hnil] at hword
    exact hword
  · apply hne
    have hvalue : t.text = t.value := by simp [text, hk]
    rwa [hvalue, String.toList_eq_nil_iff] at hnil
  · rw [ht, text_ofKind (.inr hk)] at hnil
    generalize t.kind = k at hk hnil
    revert hnil
    revert k
    decide

theorem Spelled.kind_ne_endOfText {t : Token} (h : t.Spelled) : t.kind ≠ .endOfText := by
  intro hk
  unfold Spelled at h
  rw [hk] at h
  exact h

end Token

/-! ## The first token of a text -/

/-- The text is the token and a rest that does not go on with it. -/
structure FirstToken (t : Token) (cs rest : List Char) : Prop where
  spelled : t.Spelled
  maximal : Maximal t.kind rest
  text : cs = t.text.toList ++ rest

/-- The characters that symbols begin with. -/
def symbolCharacters : List Char :=
  ['<', '=', '>', '!', '+', '-', '*', '/', '(', ')', ';', ':']

/-- No token begins with the character in front of the rest, and why. -/
inductive StartsNoToken : Char → List Char → LexFault → Prop where
  | exclamation {rest : List Char} (h : rest.head? ≠ some '=') :
      StartsNoToken '!' rest .loneExclamation
  | underscore {rest : List Char} : StartsNoToken '_' rest .leadingUnderscore
  | other {c : Char} {rest : List Char} (hblank : isBlank c = false) (halpha : c.isAlpha = false)
      (hdigit : c.isDigit = false) (hsymbol : c ∉ symbolCharacters) (hunderscore : c ≠ '_') :
      StartsNoToken c rest (.illegalSymbol c)

theorem StartsNoToken.no_word {c : Char} {rest : List Char} {fault : LexFault}
    (h : StartsNoToken c rest fault) :
    c.isAlpha = false ∧ c.isDigit = false ∧ isBlank c = false := by
  cases h with
  | exclamation => exact ⟨rfl, rfl, rfl⟩
  | underscore => exact ⟨rfl, rfl, rfl⟩
  | other hblank halpha hdigit => exact ⟨halpha, hdigit, hblank⟩

/-- The text has ended, or begins with a character outside of the class. -/
def BeginsOutside (q : Char → Bool) (cs : List Char) : Prop := ∀ c, cs.head? = some c → q c = false

theorem beginsOutside_nil (q : Char → Bool) : BeginsOutside q [] := nofun

theorem beginsOutside_cons {q : Char → Bool} {c : Char} (hc : q c = false) (cs : List Char) :
    BeginsOutside q (c :: cs) := by
  intro d hd
  cases hd
  exact hc

theorem beginsOutside_dropWhile (q : Char → Bool) (cs : List Char) :
    BeginsOutside q (cs.dropWhile q) := by
  induction cs with
  | nil => exact beginsOutside_nil q
  | cons c cs ih =>
    by_cases hc : q c = true
    · rwa [List.dropWhile_cons_of_pos hc]
    · rw [List.dropWhile_cons_of_neg hc]
      exact beginsOutside_cons (by simpa using hc) cs

/-- A text can be cut in one way only into characters of a class and a rest that begins outside of
it. -/
theorem append_inj_of_class {q : Char → Bool} {us vs xs ys : List Char}
    (hus : ∀ c ∈ us, q c = true) (hvs : ∀ c ∈ vs, q c = true) (hxs : BeginsOutside q xs)
    (hys : BeginsOutside q ys) (h : us ++ xs = vs ++ ys) : us = vs ∧ xs = ys := by
  induction us generalizing vs with
  | nil =>
    cases vs with
    | nil => exact ⟨rfl, h⟩
    | cons v vs =>
      have hv := hxs v (congrArg List.head? h)
      rw [hvs v List.mem_cons_self] at hv
      cases hv
  | cons u us ih =>
    cases vs with
    | nil =>
      have hu := hys u (congrArg List.head? h.symm)
      rw [hus u List.mem_cons_self] at hu
      cases hu
    | cons v vs =>
      obtain ⟨rfl, hrest⟩ := List.cons.inj h
      obtain ⟨rfl, hxy⟩ := ih (fun c hc => hus c (List.mem_cons_of_mem u hc))
        (fun c hc => hvs c (List.mem_cons_of_mem u hc)) hrest
      exact ⟨rfl, hxy⟩

/-- Where the characters of a class end is where a text is cut. -/
theorem cut_of_class {q : Char → Bool} {us xs : List Char} (hus : ∀ c ∈ us, q c = true)
    (hxs : BeginsOutside q xs) :
    (us ++ xs).takeWhile q = us ∧ (us ++ xs).dropWhile q = xs :=
  append_inj_of_class (fun c hc => List.all_eq_true.mp List.all_takeWhile c hc) hus
    (beginsOutside_dropWhile q (us ++ xs)) hxs List.takeWhile_append_dropWhile

/-- What does not go on with a word begins outside of words. -/
theorem Maximal.beginsOutside_word {k : TokenKind}
    (hk : k = .identifier ∨ k ∈ TokenKind.keywords) {rest : List Char} (h : Maximal k rest) :
    BeginsOutside isWordPart rest := by
  intro c hc
  apply Bool.eq_false_iff.mpr
  intro hpart
  exact h c hc ((TokenKind.goesOn_word_iff hk).mpr hpart)

theorem Maximal.beginsOutside_number {rest : List Char} (h : Maximal .number rest) :
    BeginsOutside Char.isDigit rest := by
  intro c hc
  apply Bool.eq_false_iff.mpr
  exact h c hc

theorem isWordPart_of_isAlpha {c : Char} (h : c.isAlpha = true) : isWordPart c = true := by
  simp [isWordPart, Char.isAlphanum, h]

theorem IsWord.isWordPart {cs : List Char} (h : IsWord cs) : ∀ c ∈ cs, isWordPart c = true := by
  cases cs with
  | nil => exact nofun
  | cons c cs =>
    intro d hd
    rcases List.mem_cons.mp hd with rfl | hd
    · exact isWordPart_of_isAlpha h.1
    · exact h.2 d hd

theorem exists_word {c : Char} (hc : c.isAlpha = true) (cs : List Char) (p : Position) :
    ∃ t rest, t.position = p ∧ FirstToken t (c :: cs) rest := by
  let word := String.ofList (c :: cs.takeWhile isWordPart)
  have hlist : word.toList = c :: cs.takeWhile isWordPart := String.toList_ofList
  have hword : IsWord word.toList := by
    rw [hlist]
    exact ⟨hc, fun d hd => List.all_eq_true.mp List.all_takeWhile d hd⟩
  refine ⟨.ofWord word p, cs.dropWhile isWordPart, Token.position_ofWord word p,
    Token.spelled_ofWord hword p, fun d hd hgoes => ?_, ?_⟩
  · have hstop : isWordPart d = false := beginsOutside_dropWhile isWordPart cs d hd
    have hpart := (TokenKind.goesOn_word_iff (Token.kind_ofWord word p)).mp hgoes
    simp [hstop] at hpart
  · rw [Token.text_ofWord, hlist, List.cons_append, List.takeWhile_append_dropWhile]

theorem exists_number {c : Char} (hc : c.isDigit = true) (cs : List Char) (p : Position) :
    ∃ t rest, t.position = p ∧ FirstToken t (c :: cs) rest := by
  let digits := String.ofList (c :: cs.takeWhile Char.isDigit)
  have hlist : digits.toList = c :: cs.takeWhile Char.isDigit := String.toList_ofList
  refine ⟨⟨.number, digits, p⟩, cs.dropWhile Char.isDigit, rfl, ⟨?_, ?_⟩, fun d hd hgoes => ?_, ?_⟩
  · intro hempty
    change digits = "" at hempty
    rw [hempty] at hlist
    cases hlist
  · intro d hd
    change d ∈ digits.toList at hd
    rw [hlist] at hd
    rcases List.mem_cons.mp hd with rfl | hd
    · exact hc
    · exact List.all_eq_true.mp List.all_takeWhile d hd
  · have hd : d.isDigit = false := beginsOutside_dropWhile Char.isDigit cs d hd
    have hdigit : d.isDigit = true := hgoes
    simp [hd] at hdigit
  · change c :: cs = digits.toList ++ _
    rw [hlist, List.cons_append, List.takeWhile_append_dropWhile]

theorem firstToken_symbol {k : TokenKind} (hk : k ∈ TokenKind.symbols) {rest : List Char}
    (hmax : Maximal k rest) (p : Position) :
    FirstToken (.ofKind k p) (k.text.toList ++ rest) rest :=
  ⟨Token.spelled_ofKind (.inr hk) p, hmax, by rw [Token.text_ofKind (.inr hk)]⟩

/-- A symbol that nothing goes on with. -/
theorem maximal_of_fixed {k : TokenKind} (hk : k ∈ TokenKind.symbols)
    (hfixed : k ∉ [.greater, .colon, .equal, .slash]) (rest : List Char) : Maximal k rest := by
  intro c _ hgoes
  cases k <;> first
    | exact absurd hk (by decide)
    | exact absurd (by decide) hfixed
    | exact absurd hgoes.1 (by decide)

/-- A symbol of one character, unless the next one makes it a symbol of two. -/
theorem exists_symbol (k long : TokenKind) {c d : Char} (hk : k ∈ TokenKind.symbols)
    (hlong : long ∈ TokenKind.symbols) (hfixed : long ∉ [.greater, .colon, .equal, .slash])
    (hgoes : ∀ x, k.GoesOn x → x = d) (htext : k.text.toList = [c])
    (hlongText : long.text.toList = [c, d]) (cs : List Char) (p : Position) :
    ∃ t rest, t.position = p ∧ FirstToken t (c :: cs) rest := by
  by_cases hhead : cs.head? = some d
  · obtain ⟨rest, rfl⟩ := List.head?_eq_some_iff.mp hhead
    have hfirst := firstToken_symbol hlong (maximal_of_fixed hlong hfixed rest) p
    rw [hlongText] at hfirst
    exact ⟨_, rest, rfl, hfirst⟩
  · have hmax : Maximal k cs := fun x hx hgo => hhead (hgoes x hgo ▸ hx)
    have hfirst := firstToken_symbol hk hmax p
    rw [htext] at hfirst
    exact ⟨_, cs, rfl, hfirst⟩

theorem exists_fixed_symbol {k : TokenKind} {c : Char} (hk : k ∈ TokenKind.symbols)
    (hfixed : k ∉ [.greater, .colon, .equal, .slash]) (htext : k.text.toList = [c])
    (cs : List Char) (p : Position) : ∃ t rest, t.position = p ∧ FirstToken t (c :: cs) rest := by
  have hfirst := firstToken_symbol hk (maximal_of_fixed hk hfixed cs) p
  rw [htext] at hfirst
  exact ⟨_, cs, rfl, hfirst⟩

/-- Where no gap goes on, a token begins or none can. -/
theorem exists_firstToken {c : Char} {cs : List Char} (h : EndsGap (c :: cs)) (p : Position) :
    (∃ t rest, t.position = p ∧ FirstToken t (c :: cs) rest) ∨
      ∃ fault, StartsNoToken c cs fault := by
  by_cases halpha : c.isAlpha = true
  · exact .inl (exists_word halpha cs p)
  by_cases hdigit : c.isDigit = true
  · exact .inl (exists_number hdigit cs p)
  by_cases hsymbol : c ∈ symbolCharacters
  · simp only [symbolCharacters, List.mem_cons, List.not_mem_nil, or_false] at hsymbol
    have fixed : ∀ {k : TokenKind}, k ∈ TokenKind.symbols →
        k ∉ [.greater, .colon, .equal, .slash] → k.text.toList = [c] →
        (∃ t rest, t.position = p ∧ FirstToken t (c :: cs) rest) ∨
          ∃ fault, StartsNoToken c cs fault :=
      fun hk hfixed htext => .inl (exists_fixed_symbol hk hfixed htext cs p)
    rcases hsymbol with rfl | rfl | rfl | rfl | rfl | rfl | rfl | rfl | rfl | rfl | rfl | rfl
    · exact fixed (k := .less) (by decide) (by decide) rfl
    · exact .inl (exists_symbol .equal .lessEqual (by decide) (by decide)
        (by decide) (fun _ h => h) rfl rfl cs p)
    · exact .inl (exists_symbol .greater .greaterEqual (by decide) (by decide)
        (by decide) (fun _ h => h) rfl rfl cs p)
    · by_cases hhead : cs.head? = some '='
      · obtain ⟨rest, rfl⟩ := List.head?_eq_some_iff.mp hhead
        exact .inl ⟨_, rest, rfl, firstToken_symbol (k := .notEqual) (by decide)
          (maximal_of_fixed (by decide) (by decide) rest) p⟩
      · exact .inr ⟨_, .exclamation hhead⟩
    · exact fixed (k := .plus) (by decide) (by decide) rfl
    · exact fixed (k := .minus) (by decide) (by decide) rfl
    · exact fixed (k := .star) (by decide) (by decide) rfl
    · have hmax : Maximal .slash cs := by
        intro d hd hgoes
        obtain ⟨rest, rfl⟩ := List.head?_eq_some_iff.mp hd
        cases (show d = '/' from hgoes)
        exact h.2 rest rfl
      exact .inl ⟨_, cs, rfl, firstToken_symbol (k := .slash) (by decide) hmax p⟩
    · exact fixed (k := .openParen) (by decide) (by decide) rfl
    · exact fixed (k := .closeParen) (by decide) (by decide) rfl
    · exact fixed (k := .semicolon) (by decide) (by decide) rfl
    · exact .inl (exists_symbol .colon .assign (by decide) (by decide)
        (by decide) (fun _ h => h) rfl rfl cs p)
  · by_cases hunderscore : c = '_'
    · subst hunderscore
      exact .inr ⟨_, .underscore⟩
    · exact .inr ⟨_, .other (h.1 c rfl) (by simpa using halpha) (by simpa using hdigit) hsymbol
        hunderscore⟩

end WhileLang
