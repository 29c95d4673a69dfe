import WhileLang.Proofs.Lexing.Positions
import WhileLang.Proofs.Parsing.Correctness
import WhileLang.Proofs.Parsing.ParallelRules

/-!
# Layout

What stands between the tokens of a text, and so where they stand, does not matter to the parser.
Two texts with the same tokens, positions apart, are both accepted, with trees of one shape, or both
rejected, at corresponding tokens and for the same reason (`analyze_sameTokens`).

* `SameTokens`: the tokens have the same shapes and end alike.
* `not_beyond`: on a whole text no run goes beyond what the two texts have in common, so that two
  runs end in parallel.
-/

namespace WhileLang

open Grammar WhileLang.Parser TokenStream

/-! ## Texts with the same tokens -/

/-- The two texts have tokens of the same kinds and values, and either both or neither end in a
lexical error. -/
structure SameTokens (source source' : String) : Prop where
  shapes : (collectTokens source).1.map Token.shape = (collectTokens source').1.map Token.shape
  errors : (collectTokens source).2.isSome = (collectTokens source').2.isSome

/-- The token streams of the two texts are tokens of the same shapes, and they end alike. -/
theorem SameTokens.exists_streams {source source' : String} (h : SameTokens source source') :
    ∃ (us us' : List Token) (e e' : StreamEnd),
      TokenStream.ofString source = us ++ ofTokens [] e ∧
      TokenStream.ofString source' = us' ++ ofTokens [] e' ∧
      us.map Token.shape = us'.map Token.shape ∧ SameFront (ofTokens [] e) (ofTokens [] e') := by
  obtain ⟨hshapes, herrors⟩ := h
  unfold collectTokens at hshapes herrors
  generalize TokenStream.ofString source = s at hshapes herrors ⊢
  generalize TokenStream.ofString source' = s' at hshapes herrors ⊢
  obtain ⟨us, e, _, rfl⟩ := s
  obtain ⟨us', e', _, rfl⟩ := s'
  refine ⟨us, us', e, e', (append_ended us e).symm, (append_ended us' e').symm, ?_⟩
  cases e with
  | endOfText p =>
    cases e' with
    | endOfText p' =>
      have hends : us.map Token.shape ++ [Token.ofKind .endOfText .start] =
          us'.map Token.shape ++ [Token.ofKind .endOfText .start] := by
        change (us ++ [Token.ofKind .endOfText p]).map Token.shape =
          (us' ++ [Token.ofKind .endOfText p']).map Token.shape at hshapes
        rwa [List.map_append, List.map_append] at hshapes
      exact ⟨List.append_cancel_right hends, .ended p p'⟩
    | failure x' => cases herrors
  | failure x =>
    cases e' with
    | endOfText p' => cases herrors
    | failure x' => exact ⟨hshapes, .failed x x'⟩

/-! ## Runs on whole texts -/

/-- A lexical error that a run ends in is the one that ends the tokens. -/
theorem error?_of_run_program {s rest : TokenStream} {e : LexError}
    (h : run program s = (.error (.lexical e), rest)) : s.error? = some e := by
  cases hhead : s.head with
  | error x =>
    rw [eq_failure_of_head hhead] at h ⊢
    cases h
    rfl
  | ok t =>
    have hran := reads_program.ran s ⟨t, hhead⟩
    rw [h] at hran
    exact hran.error?_eq

/-- A run that ends in a syntax error began at a token. -/
theorem readable_of_run_program {s rest : TokenStream} {e : Expected} {k : TokenKind}
    {p : Position} (h : run program s = (.error (.unexpected e k p), rest)) : s.Readable := by
  cases hhead : s.head with
  | error x =>
    rw [eq_failure_of_head hhead] at h
    cases h
  | ok t => exact ⟨t, hhead⟩

/-- A run that ends in a syntax error stops at the token that the error is about. -/
theorem exists_token_of_run_program {s rest : TokenStream} {e : Expected} {k : TokenKind}
    {p : Position} (h : run program s = (.error (.unexpected e k p), rest)) :
    ∃ (us : List Token) (t : Token), s = us ++ rest ∧ rest.head = .ok t ∧ t.kind = k ∧
      t.position = p := by
  have hran := reads_program.ran s (readable_of_run_program h)
  rw [h] at hran
  cases hran with
  | mismatch hs hrest _ => exact ⟨_, _, hs, hrest, rfl, rfl⟩

/-- A run cannot go beyond the end of the tokens. -/
theorem not_beyond (us : List Token) (e : StreamEnd) :
    ¬((run program (us ++ ofTokens [] e)).2.length < (ofTokens [] e).length ∨
      (ofTokens [] e).Readable ∧
        ∃ x, (run program (us ++ ofTokens [] e)).1 = .error (.lexical x)) := by
  rintro (hlt | ⟨⟨t, ht⟩, x, hx⟩)
  · exact Nat.not_lt_zero _ hlt
  · have herror := error?_of_run_program (Prod.ext hx rfl)
    rw [error?_append] at herror
    cases e with
    | endOfText p => cases herror
    | failure y => cases ht

/-! ## Analyses -/

theorem analyze_of_ok {o : Options} {source : String} {b : TreeBuilder}
    (ho : o.mode = .syntactic) (h : (parseText o.tracing source).1 = .ok b) :
    (analyze o source).tree = b ∧ (analyze o source).error? = none := by
  unfold analyze
  rw [ho]
  simp [h]

theorem analyze_of_error {o : Options} {source : String} {e : ParseError}
    (ho : o.mode = .syntactic) (h : (parseText o.tracing source).1 = .error e) :
    (analyze o source).tree = .empty ∧ (analyze o source).error? = some e := by
  unfold analyze
  rw [ho]
  simp [h]

theorem exists_run_of_accepted {o : Options} {source : String} (ho : o.mode = .syntactic)
    (h : (analyze o source).verdict = .accepted) : ∃ b, (parseText o.tracing source).1 = .ok b := by
  cases hparse : (parseText o.tracing source).1 with
  | ok b => exact ⟨b, rfl⟩
  | error e =>
    unfold Analysis.verdict at h
    rw [(analyze_of_error ho hparse).2] at h
    cases h

/-! ## Outcomes -/

/-- What a syntactic analysis finds in the two texts is the same, positions apart. -/
structure SameOutcome (o : Options) (source source' : String) : Prop where
  verdict : (analyze o source).verdict = (analyze o source').verdict
  accepted : (analyze o source).error? = none →
    (analyze o source').error? = none ∧
      (analyze o source).tree.root.shape = (analyze o source').tree.root.shape ∧
      (analyze o source).tree.root.oneLine = (analyze o source').tree.root.oneLine
  /-- A syntax error is about one of the tokens. -/
  located : ∀ expected found p, (analyze o source).error? = some (.unexpected expected found p) →
    ∃ (i : Nat) (t : Token), (collectTokens source).1[i]? = some t ∧ t.kind = found ∧
      t.position = p
  /-- The other text has the same error at the same one of its own tokens. -/
  syntactic : ∀ (i : Nat) (t : Token) expected found, (collectTokens source).1[i]? = some t →
    (analyze o source).error? = some (.unexpected expected found t.position) →
    ∃ (t' : Token) (wording : String), (collectTokens source').1[i]? = some t' ∧
      (analyze o source').error? = some (.unexpected expected found t'.position) ∧
      (ParseError.unexpected expected found t.position).message =
        "at " ++ t.position.text ++ ", " ++ wording ∧
      (ParseError.unexpected expected found t'.position).message =
        "at " ++ t'.position.text ++ ", " ++ wording
  lexical : ∀ e, (analyze o source).error? = some (.lexical e) →
    (collectTokens source).2 = some e ∧
      ∃ e', (collectTokens source').2 = some e' ∧
        (analyze o source').error? = some (.lexical e')

theorem ParseError.exists_wording (e : Expected) (found : TokenKind) :
    ∃ wording, ∀ p : Position, (ParseError.unexpected e found p).message =
      "at " ++ p.text ++ ", " ++ wording := by
  refine ⟨"Expected " ++ e.text ++ ", but found '" ++ found.text ++ "'", fun p => ?_⟩
  unfold ParseError.message
  rw [show (", Expected " : String) = ", " ++ "Expected " from rfl]
  simp only [String.append_assoc]

/-- Where the runs of two texts stop at unexpected tokens with equally many left, these are tokens
of the same number. -/
theorem exists_same_place {source source' : String} {rest rest' : TokenStream}
    {e : Expected} {k k' : TokenKind} {p p' : Position}
    (h : run program (.ofString source) = (.error (.unexpected e k p), rest))
    (h' : run program (.ofString source') = (.error (.unexpected e k' p'), rest'))
    (hlength : (TokenStream.ofString source).length = (TokenStream.ofString source').length)
    (hrest : rest.length = rest'.length) :
    ∃ (i : Nat) (t t' : Token), (collectTokens source).1[i]? = some t ∧
      (collectTokens source').1[i]? = some t' ∧ t.kind = k ∧ t.position = p ∧
      t'.position = p' := by
  obtain ⟨us, t, hs, ht, hk, hp⟩ := exists_token_of_run_program h
  obtain ⟨us', t', hs', ht', -, hp'⟩ := exists_token_of_run_program h'
  have hus : us'.length = us.length := by
    rw [hs, hs', length_append, length_append] at hlength
    omega
  refine ⟨us.length, t, t', ?_, ?_, hk, hp, hp'⟩
  · have hlisting : (collectTokens source).1 = (us ++ rest).listing := congrArg listing hs
    rw [hlisting, getElem?_listing_append us ht]
  · have hlisting : (collectTokens source').1 = (us' ++ rest').listing := congrArg listing hs'
    rw [hlisting, ← hus, getElem?_listing_append us' ht']

section

variable {o : Options} {source source' : String}

theorem sameOutcome_of_accepted {b b' : TreeBuilder} (ho : o.mode = .syntactic)
    (h : (parseText o.tracing source).1 = .ok b) (h' : (parseText o.tracing source').1 = .ok b')
    (hshape : b.root.shape = b'.root.shape) : SameOutcome o source source' := by
  obtain ⟨htree, hnone⟩ := analyze_of_ok ho h
  obtain ⟨htree', hnone'⟩ := analyze_of_ok ho h'
  constructor
  · unfold Analysis.verdict
    rw [hnone, hnone']
  · intro _
    rw [htree, htree', ← b.root.oneLine_shape, ← b'.root.oneLine_shape, hshape]
    exact ⟨hnone', rfl, rfl⟩
  · intro expected found p he
    rw [hnone] at he
    cases he
  · intro i t expected found _ he
    rw [hnone] at he
    cases he
  · intro e he
    rw [hnone] at he
    cases he

theorem sameOutcome_of_unexpected {i : Nat} {t t' : Token} {expected : Expected}
    (ho : o.mode = .syntactic)
    (h : (parseText o.tracing source).1 = .error (.unexpected expected t.kind t.position))
    (h' : (parseText o.tracing source').1 = .error (.unexpected expected t.kind t'.position))
    (ht : (collectTokens source).1[i]? = some t)
    (ht' : (collectTokens source').1[i]? = some t') : SameOutcome o source source' := by
  obtain ⟨-, herror⟩ := analyze_of_error ho h
  obtain ⟨-, herror'⟩ := analyze_of_error ho h'
  constructor
  · unfold Analysis.verdict
    rw [herror, herror']
    rfl
  · intro hnone
    rw [herror] at hnone
    cases hnone
  · intro expected found p he
    rw [herror] at he
    cases he
    exact ⟨i, t, ht, rfl, rfl⟩
  · intro j u expected found hu he
    rw [herror] at he
    injection he with he
    injection he with hexpected hfound hposition
    subst hexpected hfound
    -- positions are not repeated, so `u` is the token that the error is about
    obtain rfl := eq_of_position_eq ht hu hposition
    rw [ht] at hu
    cases hu
    obtain ⟨wording, hwording⟩ := ParseError.exists_wording expected t.kind
    exact ⟨t', wording, ht', herror', hwording _, hwording _⟩
  · intro e he
    rw [herror] at he
    cases he

theorem sameOutcome_of_lexical {e e' : LexError} (ho : o.mode = .syntactic)
    (h : (parseText o.tracing source).1 = .error (.lexical e))
    (h' : (parseText o.tracing source').1 = .error (.lexical e'))
    (hend : (collectTokens source).2 = some e) (hend' : (collectTokens source').2 = some e') :
    SameOutcome o source source' := by
  obtain ⟨-, herror⟩ := analyze_of_error ho h
  obtain ⟨-, herror'⟩ := analyze_of_error ho h'
  constructor
  · unfold Analysis.verdict
    rw [herror, herror']
    rfl
  · intro hnone
    rw [herror] at hnone
    cases hnone
  · intro expected found p he
    rw [herror] at he
    cases he
  · intro i t expected found _ he
    rw [herror] at he
    cases he
  · intro x he
    rw [herror] at he
    cases he
    exact ⟨hend, e', hend', herror'⟩

end

/-- Layout does not matter: two texts with the same tokens, positions apart, have the same outcome,
positions apart. -/
theorem analyze_sameTokens (o : Options) (source source' : String) (ho : o.mode = .syntactic)
    (h : SameTokens source source') : SameOutcome o source source' := by
  obtain ⟨us, us', e, e', hs, hs', hus, hfront⟩ := h.exists_streams
  have hlength : (TokenStream.ofString source).length = (TokenStream.ofString source').length := by
    have hlen : us.length = us'.length := by simpa using congrArg List.length hus
    rw [hs, hs', length_append, length_append, hlen]
    rfl
  have hpar := (runAlike_program hfront).parallel us us' hus
  have hwithin := not_beyond us e
  rw [← hs] at hpar hwithin
  rw [← hs'] at hpar
  have hparse := parseText_fst o.tracing source
  have hparse' := parseText_fst o.tracing source'
  generalize hrun : run program (.ofString source) = outcome at hpar hwithin hparse
  generalize hrun' : run program (.ofString source') = outcome' at hpar hparse'
  cases hpar with
  | beyond h => exact absurd h hwithin
  | success _ hb => exact sameOutcome_of_accepted ho hparse hparse' (shape_root hb)
  | @mismatch vs vs' _ _ expected hvs _ _ hk =>
    have hrest : (vs ++ ofTokens [] e).length = (vs' ++ ofTokens [] e').length := by
      have hlen : vs.length = vs'.length := by simpa using congrArg List.length hvs
      rw [length_append, length_append, hlen]
      rfl
    obtain ⟨i, t, t', ht, ht', hkind, hp, hp'⟩ := exists_same_place hrun hrun' hlength hrest
    rw [← hkind, ← hp] at hparse
    rw [← hk, ← hkind, ← hp'] at hparse'
    exact sameOutcome_of_unexpected ho hparse hparse' ht ht'
  | unreadable =>
    exact sameOutcome_of_lexical ho hparse hparse' (error?_of_run_program hrun)
      (error?_of_run_program hrun')

/-- The same program, on one line and on several. -/
theorem analyze_sameTokens_lines :
    SameTokens "program p : print 1 )" "program p :\n  // one\n  print 1\n)" ∧
      SameOutcome .standard "program p : print 1 )" "program p :\n  // one\n  print 1\n)" := by
  have h : SameTokens "program p : print 1 )" "program p :\n  // one\n  print 1\n)" :=
    ⟨by decide +kernel, by decide +kernel⟩
  exact ⟨h, analyze_sameTokens .standard _ _ rfl h⟩

end WhileLang
