import WhileLang.Proofs.Parsing.Correctness
import WhileLang.Proofs.Parsing.ParallelRules

/-!
# The first error is reported

A rejected text is rejected at its first token that no program can have there, or, if there is
none, with the lexical error that ends its tokens (`analyze_first_error`).

The tokens before the error are viable because the rule for programs has read the beginning of a
phrase. With the token at the error they are not: otherwise some program begins like that, the
rule finds it, and until this token the two runs cannot be told apart.
-/

namespace WhileLang

open Grammar WhileLang.Parser TokenStream

/-- The error is the first one that the tokens of the text show: a token that no program can have
after those before it, or else the lexical error after tokens that a program can begin with. -/
structure IsFirstError (source : String) (e : ParseError) : Prop where
  syntactic : ∀ (i : Nat) (t : Token), (collectTokens source).1[i]? = some t →
    ¬Viable (((collectTokens source).1.take (i + 1)).map Token.kind) →
    (∀ j, j < i → Viable (((collectTokens source).1.take (j + 1)).map Token.kind)) →
    (∃ expected, e = .unexpected expected t.kind t.position) ∧
      e.position = t.position ∧
      (∃ before, e.message = before ++ "but found '" ++ t.kind.text ++ "'") ∧
      Viable (((collectTokens source).1.take i).map Token.kind)
  lexical : (∀ i, i < (collectTokens source).1.length →
    Viable (((collectTokens source).1.take (i + 1)).map Token.kind)) →
    ∃ lexError, (collectTokens source).2 = some lexError ∧ e = .lexical lexError

theorem viable_of_begins {us : List Token} (h : (Built .program).Begins us) :
    Viable (us.map Token.kind) := by
  obtain ⟨vs, b, hb⟩ := h
  have hsentence := ProgramTree.sentence hb
  rw [List.map_append] at hsentence
  exact ⟨vs.map Token.kind, hsentence⟩

theorem viable_take {us : List Token} (h : Viable (us.map Token.kind)) (i : Nat) :
    Viable ((us.take i).map Token.kind) := by
  have happend : us.map Token.kind =
      (us.take i).map Token.kind ++ (us.drop i).map Token.kind := by
    rw [← List.map_append, List.take_append_drop]
  rw [happend] at h
  exact h.of_append

/-- No viable sequence goes on with the end of the text. -/
theorem not_viable_endOfText (us : List Token) (p : Position) :
    ¬Viable ((us ++ [Token.ofKind .endOfText p]).map Token.kind) := by
  rintro ⟨more, hmore⟩
  apply hmore.endOfText_notMem
  simp [Token.ofKind]

/-- Tokens with the kinds of a sentence can follow whatever is viable. -/
theorem exists_tree_of_viable {us : List Token} (h : Viable (us.map Token.kind)) :
    ∃ ws t, ProgramTree .program (us ++ ws) t := by
  obtain ⟨more, hmore⟩ := h
  obtain ⟨ws, rfl⟩ := exists_tokens more
  rw [← List.map_append] at hmore
  exact ⟨ws, hmore.exists_tree⟩

/-- The token where the rule for programs fails cannot follow the tokens before it. -/
theorem not_viable_of_run {us : List Token} {rest : TokenStream} {t : Token} {e : Expected}
    (ht : rest.head = .ok t)
    (hrun : run program (us ++ rest) = (.error (.unexpected e t.kind t.position), rest)) :
    ¬Viable ((us ++ [t]).map Token.kind) := by
  rcases rest.eq_ended_or_cons with hended | ⟨u, rest', rfl⟩
  · rw [hended] at ht
    generalize rest.ending = ending at ht
    cases ending with
    | failure e => cases ht
    | endOfText p =>
      cases ht
      exact not_viable_endOfText us p
  · cases ht
    intro hviable
    -- a program that begins like this is found, and until `t` its run is the given one
    obtain ⟨ws, tree, htree⟩ := exists_tree_of_viable hviable
    let last : TokenStream := ofTokens [] (.endOfText .start)
    obtain ⟨b, -, hother⟩ := run_program_of_tree htree (s := last) ⟨_, rfl⟩
    simp only [append_append, cons_append, nil_append] at hother
    have hfront : SameFront (cons t rest') (cons t (ws ++ last)) := .token rfl rest' (ws ++ last)
    have hpar := (runAlike_program hfront).parallel us us rfl
    rw [hrun, hother] at hpar
    generalize ho : (Except.error (ParseError.unexpected e t.kind t.position), cons t rest') = o
      at hpar
    generalize ho' : ((Except.ok b : Except ParseError TreeBuilder), last) = o' at hpar
    cases hpar with
    | success => cases ho
    | mismatch => cases ho'
    | unreadable => cases ho
    | beyond h =>
      subst ho
      rcases h with hlt | ⟨-, x, hx⟩
      · exact Nat.lt_irrefl _ hlt
      · cases hx

/-- There is only one first token with which a sequence stops being viable. -/
theorem eq_of_first_not_viable {ts : List Token} {n i : Nat}
    (hn : Viable ((ts.take n).map Token.kind)) (hnot : ¬Viable ((ts.take (n + 1)).map Token.kind))
    (hi : ¬Viable ((ts.take (i + 1)).map Token.kind))
    (hbefore : ∀ j, j < i → Viable ((ts.take (j + 1)).map Token.kind)) : i = n := by
  rcases Nat.lt_trichotomy i n with hlt | rfl | hgt
  · have hshorter := viable_take hn (i + 1)
    rw [List.take_take, Nat.min_eq_left hlt] at hshorter
    exact absurd hshorter hi
  · rfl
  · exact absurd (hbefore n hgt) hnot

theorem ParseError.exists_message (e : Expected) (found : TokenKind) (p : Position) :
    ∃ before, (ParseError.unexpected e found p).message =
      before ++ "but found '" ++ found.text ++ "'" := by
  refine ⟨"at " ++ p.text ++ ", Expected " ++ e.text ++ ", ", ?_⟩
  unfold ParseError.message
  rw [show (", but found '" : String) = ", " ++ "but found '" from rfl]
  simp only [String.append_assoc]

/-- Where a text is rejected. -/
theorem exists_run_of_rejected {o : Options} {source : String} {e : ParseError}
    (ho : o.mode = .syntactic) (he : (analyze o source).error? = some e) :
    (parseText o.tracing source).1 = .error e := by
  unfold analyze at he
  rw [ho] at he
  dsimp only at he
  cases h : (parseText o.tracing source).1 with
  | ok b => simp [h] at he
  | error e' =>
    simp only [h, Option.some.injEq] at he
    rw [he]

/-! ## The two kinds of error -/

section

variable {source : String} {us : List Token} {t : Token}

theorem isFirstError_of_unreadable {e : LexError}
    (hs : TokenStream.ofString source = us ++ cons t (ofTokens [] (.failure e)))
    (hbegins : (Built .program).Begins (us ++ [t])) : IsFirstError source (.lexical e) := by
  have htokens : (collectTokens source).1 = us ++ [t] := by
    have hlisting := congrArg TokenStream.listing hs
    rwa [listing_append, listing_cons] at hlisting
  have hend : (collectTokens source).2 = some e := by
    have herror := congrArg TokenStream.error? hs
    rwa [error?_append, error?_cons] at herror
  have hviable : ∀ i, Viable (((collectTokens source).1.take i).map Token.kind) := by
    rw [htokens]
    exact viable_take (viable_of_begins hbegins)
  constructor
  · intro i t _ hnot
    exact absurd (hviable (i + 1)) hnot
  · intro _
    exact ⟨e, hend, rfl⟩

theorem isFirstError_of_mismatch {rest : TokenStream} {e : Expected}
    (hs : TokenStream.ofString source = us ++ rest) (ht : rest.head = .ok t)
    (hbegins : (Built .program).Begins us)
    (hrun : run program (.ofString source) =
      (.error (.unexpected e t.kind t.position), rest)) :
    IsFirstError source (.unexpected e t.kind t.position) := by
  have hlisting : (collectTokens source).1 = (us ++ rest).listing :=
    congrArg TokenStream.listing hs
  have hplace : (collectTokens source).1[us.length]? = some t := by
    rw [hlisting, getElem?_listing_append us ht]
  have htake : (collectTokens source).1.take us.length = us := by
    rw [hlisting, take_listing_append]
  have hviable := viable_of_begins hbegins
  have hnot : ¬Viable (((collectTokens source).1.take (us.length + 1)).map Token.kind) := by
    rw [List.take_add_one, htake, hplace]
    rw [hs] at hrun
    exact not_viable_of_run ht hrun
  constructor
  · intro i u hi hinot hbefore
    obtain rfl := eq_of_first_not_viable (by rwa [htake]) hnot hinot hbefore
    rw [hplace] at hi
    cases hi
    exact ⟨⟨e, rfl⟩, rfl, ParseError.exists_message e _ _, by rwa [htake]⟩
  · intro hall
    have hplaceLt := (List.getElem?_eq_some_iff.mp hplace).1
    exact absurd (hall us.length hplaceLt) hnot

end

/-- A rejected text is rejected for its first error. -/
theorem analyze_first_error (o : Options) (source : String) (e : ParseError)
    (ho : o.mode = .syntactic) (he : (analyze o source).error? = some e) :
    IsFirstError source e := by
  have hparse := exists_run_of_rejected ho he
  rw [parseText_fst] at hparse
  cases hhead : (TokenStream.ofString source).head with
  | error x =>
    have hs := eq_failure_of_head hhead
    have htokens : (collectTokens source).1 = [] := congrArg TokenStream.listing hs
    have hend : (collectTokens source).2 = some x := congrArg TokenStream.error? hs
    rw [hs] at hparse
    cases hparse
    constructor
    · intro i t hi
      simp [htokens] at hi
    · intro _
      exact ⟨x, hend, rfl⟩
  | ok first =>
    have hran := reads_program.ran _ ⟨first, hhead⟩
    generalize hrun : run program (.ofString source) = outcome at hparse hran
    cases hran with
    | success => cases hparse
    | unreadable hs hbegins =>
      cases hparse
      exact isFirstError_of_unreadable hs hbegins
    | mismatch hs ht hbegins =>
      cases hparse
      exact isFirstError_of_mismatch hs ht hbegins hrun

theorem analyze_first_error_missing_operand :
    (analyze .standard "program p : print end").error? =
        some (.unexpected .operand .endWord ⟨1, 19⟩) ∧
      IsFirstError "program p : print end" (.unexpected .operand .endWord ⟨1, 19⟩) := by
  have herror : (analyze .standard "program p : print end").error? =
      some (.unexpected .operand .endWord ⟨1, 19⟩) := by decide +kernel
  exact ⟨herror, analyze_first_error .standard _ _ rfl herror⟩

end WhileLang
