import WhileLang.Proofs.Lexing.Lines
import WhileLang.Proofs.Parsing.Layout

/-!
# What stands after a program

The last word of a program is consumed only if there is a token after it that can be read. Which
token this is makes no difference to the tree (`exists_run_program`), but a lexical error in its
place is the error of the whole text.

So a text that is accepted stays accepted when it goes on on the next line, with one exception: it
ends with its program, and the continuation begins with a lexical error (`analyze_below`).
-/

namespace WhileLang

open Grammar WhileLang.Parser TokenStream

/-! ## Runs with different rests -/

/-- A token cannot be consumed where the one after it cannot be read. -/
theorem run_expect_failure {kinds : List TokenKind} {t : Token} {s : TokenStream} {e : LexError}
    (h : t.kind ∈ kinds) (hs : s.head = .error e) :
    run (expect kinds) (cons t s) = (.error (.lexical e), cons t s) := by
  unfold expect
  rw [run_bind, run_take?_failure (a := ()) (by simp [h]) hs]

/-- The rule for bodies stops at the end of a program, and what follows does not change what it has
built. -/
theorem exists_run_body {us : List Token} {t : Tree} {w : Token} (h : ProgramTree .body us t)
    (hw : w.kind = .endWord) :
    ∃ b, b.root = t ∧ ∀ s, run body (us ++ cons w s) = (.ok b, cons w s) := by
  have hfound : ∀ s, ∃ b, b.root = t ∧ run body (us ++ cons w s) = (.ok b, cons w s) := by
    intro s
    have hahead : (cons w s).ahead? = some .endWord := by rw [ahead?_cons, hw]
    obtain ⟨b, hroot, hb, -⟩ := h.found _ _ hahead ⟨⟨⟨rfl, rfl⟩, rfl⟩, nofun⟩
    exact ⟨b, hroot, hb⟩
  let s₀ : TokenStream := ofTokens [] (.endOfText .start)
  obtain ⟨b, hroot, hb⟩ := hfound s₀
  refine ⟨b, hroot, fun s => ?_⟩
  obtain ⟨b', hroot', hb'⟩ := hfound s
  -- the runs go in parallel up to `w`, so the two builders stand at the same place of the tree
  have hfront : SameFront (cons w s₀) (cons w s) := .token rfl s₀ s
  have hpar := (runAlike_body hfront).parallel us us rfl
  rw [hb, hb'] at hpar
  have hshape : b.shape = b'.shape := hpar.eq_of_ok (Nat.le_refl _)
  have hsame : b' = b := TreeBuilder.eq_of_shape hshape.symm (hroot'.trans hroot.symm)
  rw [hb', hsame]

/-- A program is found whatever can be read after it, always with the same tree. Where nothing can
be read after it, it is not found. -/
theorem exists_run_program {us : List Token} {t : Tree} (h : ProgramTree .program us t) :
    ∃ b, b.root = t ∧ (∀ s : TokenStream, s.Readable → run program (us ++ s) = (.ok b, s)) ∧
      ∀ e, (run program (us ++ ofTokens [] (.failure e))).1 = .error (.lexical e) := by
  cases h with
  | @program w n c e us _ hw hn hc h he =>
    obtain ⟨b, hroot, hb⟩ := exists_run_body h he
    have hreadable : ∀ s, (us ++ cons e s).Readable := fun s => (readable_cons e s).append us
    refine ⟨b, hroot, ?_, ?_⟩
    · intro s hs
      simp only [cons_append, append_append, nil_append]
      exact run_program hw hn hc he (hreadable s) hs (hb s)
    · intro x
      simp only [cons_append, append_append, nil_append]
      unfold Grammar.program
      rw [run_inRule, run_bind_ok (run_expect_cons (by simp [hw]) (readable_cons _ _)),
        run_bind_ok (run_expect_cons (by simp [hn]) (readable_cons _ _)),
        run_bind_ok (run_expect_cons (by simp [hc]) (hreadable _)), run_bind_ok (hb _), run_bind,
        run_expect_failure (by simp [he]) rfl]

/-! ## Texts that go on below their program -/

/-- The text is a program, and only its end follows. -/
def EndsWithProgram (source : String) : Prop :=
  (collectTokens source).2 = none ∧
    BeginsWithSentence source ((collectTokens source).1.length - 1)

/-- A stream without an error lists its tokens and its end. -/
theorem exists_listing_of_error? {s : TokenStream} (h : s.error? = none) :
    ∃ q, s.listing = s.tokens ++ [.ofKind .endOfText q] := by
  obtain ⟨tokens, ending, _, rfl⟩ := s
  cases ending with
  | endOfText q => exact ⟨q, rfl⟩
  | failure e => cases h

/-- A text that ends with its program is the tokens of a tree. -/
theorem EndsWithProgram.exists_tree {source : String} (h : EndsWithProgram source) :
    ∃ t, ProgramTree .program (TokenStream.ofString source).tokens t := by
  obtain ⟨hnone, hsentence⟩ := h
  obtain ⟨t, ht⟩ := hsentence.2.exists_tree
  obtain ⟨q, hq⟩ := exists_listing_of_error? hnone
  have hlisting : (collectTokens source).1 =
      (TokenStream.ofString source).tokens ++ [.ofKind .endOfText q] := hq
  rw [hlisting, ← List.dropLast_eq_take, List.dropLast_concat] at ht
  exact ⟨t, ht⟩

theorem endsWithProgram_of_tokens_eq_nil {source : String} {m : Nat} {rest : TokenStream}
    (hm : BeginsWithSentence source m)
    (hs : TokenStream.ofString source = (collectTokens source).1.take m ++ rest)
    (hrest : rest.tokens = []) (hnone : (TokenStream.ofString source).error? = none) :
    EndsWithProgram source := by
  obtain ⟨q, hq⟩ := exists_listing_of_error? hnone
  have hlength : (collectTokens source).1.length =
      (TokenStream.ofString source).tokens.length + 1 := by
    have hlisting := congrArg List.length hq
    rwa [List.length_append, List.length_singleton] at hlisting
  have htokens := congrArg (fun s => s.tokens.length) hs
  rw [tokens_append, hrest, List.append_nil, List.length_take, Nat.min_eq_left (Nat.le_of_lt hm.1)]
    at htokens
  have hlast : (collectTokens source).1.length - 1 = m := by omega
  refine ⟨hnone, ?_⟩
  rwa [hlast]

/-- A stream shows a token if and only if it lists one. -/
theorem readable_iff_listing {s : TokenStream} : s.Readable ↔ s.listing ≠ [] := by
  constructor
  · rintro ⟨t, ht⟩ hnil
    have hfirst := getElem?_listing_append [] ht
    rw [nil_append, hnil] at hfirst
    cases hfirst
  · intro hne
    cases hhead : s.head with
    | ok t => exact ⟨t, hhead⟩
    | error e =>
      rw [eq_failure_of_head hhead] at hne
      exact absurd rfl hne

theorem readable_down {s : TokenStream} (h : s.Readable) (k : Nat) : (s.down k).Readable := by
  obtain ⟨t, ht⟩ := h
  refine ⟨t.down k, ?_⟩
  rw [head_down, ht]
  rfl

section

variable {tracing : Tracing} {source more : String}

/-- After its program, a text goes on with the lexical error that the continuation begins with. -/
theorem parseText_below_of_endsWithProgram (tracing : Tracing) (h : EndsWithProgram source)
    (hmore : (collectTokens more).1 = []) :
    ∃ e, (collectTokens more).2 = some e ∧
      (parseText tracing (source ++ "\n" ++ more)).1 =
        .error (.lexical (e.down (source.toList.count '\n' + 1))) := by
  obtain ⟨t, ht⟩ := h.exists_tree
  obtain ⟨b, -, -, hfailure⟩ := exists_run_program ht
  have hstream : ∃ e, TokenStream.ofString more = ofTokens [] (.failure e) := by
    cases hhead : (TokenStream.ofString more).head with
    | error e => exact ⟨e, eq_failure_of_head hhead⟩
    | ok u => exact absurd hmore (readable_iff_listing.mp ⟨u, hhead⟩)
  obtain ⟨e, he⟩ := hstream
  refine ⟨e, congrArg error? he, ?_⟩
  rw [parseText_fst, ofString_below h.1, he]
  exact hfailure _

/-- Where a text is accepted, there is a token after its program, or else its end. -/
theorem parseText_below {b : TreeBuilder} (h : (parseText tracing source).1 = .ok b)
    (hmore : ¬(EndsWithProgram source ∧ (collectTokens more).1 = [])) :
    (parseText tracing (source ++ "\n" ++ more)).1 = .ok b := by
  obtain ⟨m, hm, htree⟩ := exists_sentence_of_parseText h
  obtain ⟨rest, hs, hrest⟩ := hm.exists_append
  obtain ⟨b', -, hrun, -⟩ := exists_run_program htree
  have hb : b' = b := by
    rw [parseText_fst, hs, hrun rest hrest] at h
    exact Except.ok.inj h
  cases herror : (TokenStream.ofString source).error? with
  | some e => rwa [parseText_fst, ofString_below_failure herror, ← parseText_fst]
  | none =>
    rw [parseText_fst, ofString_below herror]
    generalize source.toList.count '\n' + 1 = k
    have htokens := congrArg TokenStream.tokens hs
    rw [tokens_append] at htokens
    have hreadable : (rest.tokens ++ (TokenStream.ofString more).down k).Readable := by
      cases hrestTokens : rest.tokens with
      | cons u us => exact readable_cons u _
      | nil =>
        have hends := endsWithProgram_of_tokens_eq_nil hm hs hrestTokens herror
        have hlisting : (TokenStream.ofString more).listing ≠ [] := fun hnil => hmore ⟨hends, hnil⟩
        exact readable_down (readable_iff_listing.mpr hlisting) k
    rw [htokens, append_append, hrun _ hreadable, hb]

end

/-- An accepted text stays accepted when it goes on below, with the same tree, unless it ends with
its program and the continuation begins with a lexical error. It is then rejected with that error,
which stands as many lines further down as there are lines above it. -/
theorem analyze_below (o : Options) (source more : String) (ho : o.mode = .syntactic)
    (h : (analyze o source).verdict = .accepted) :
    (¬(EndsWithProgram source ∧ (collectTokens more).1 = []) →
        (analyze o (source ++ "\n" ++ more)).verdict = .accepted ∧
          (analyze o (source ++ "\n" ++ more)).tree = (analyze o source).tree) ∧
      (EndsWithProgram source → (collectTokens more).1 = [] →
        ∃ e, (collectTokens more).2 = some e ∧ (analyze o (source ++ "\n" ++ more)).error? =
          some (.lexical (e.down (source.toList.count '\n' + 1)))) := by
  constructor
  · intro hmore
    obtain ⟨b, hb⟩ := exists_run_of_accepted ho h
    obtain ⟨htree, -⟩ := analyze_of_ok ho hb
    obtain ⟨htree', hnone⟩ := analyze_of_ok ho (parseText_below hb hmore)
    unfold Analysis.verdict
    rw [hnone, htree, htree']
    exact ⟨rfl, rfl⟩
  · intro hends hmore
    obtain ⟨e, he, hparse⟩ := parseText_below_of_endsWithProgram o.tracing hends hmore
    exact ⟨e, he, (analyze_of_error ho hparse).2⟩

theorem analyze_below_print :
    (analyze .standard "program p : print 1 end").verdict = .accepted ∧
      (analyze .standard ("program p : print 1 end" ++ "\n" ++ "fi")).verdict = .accepted ∧
      EndsWithProgram "program p : print 1 end" ∧
      ∃ e, (collectTokens "?").2 = some e ∧
        (analyze .standard ("program p : print 1 end" ++ "\n" ++ "?")).error? =
          some (.lexical (e.down 1)) := by
  have haccepted : (analyze .standard "program p : print 1 end").verdict = .accepted := by
    decide +kernel
  have hword := analyze_below .standard _ "fi" rfl haccepted
  have hfault := analyze_below .standard _ "?" rfl haccepted
  have hends : EndsWithProgram "program p : print 1 end" := by
    by_contra hnot
    have hbelow := (hfault.1 fun hboth => hnot hboth.1).1
    exact absurd hbelow (by decide +kernel)
  have hmore : (collectTokens "fi").1 ≠ [] := by decide +kernel
  exact ⟨haccepted, (hword.1 fun hboth => hmore hboth.2).1, hends,
    hfault.2 hends (by decide +kernel)⟩

/-- What stands after the last word of a program is not always ignored: a character that starts no
token makes an accepted text a rejected one. -/
theorem not_accepted_below :
    ¬∀ (o : Options) (source more : String), o.mode = .syntactic →
      (analyze o source).verdict = .accepted →
      (analyze o (source ++ "\n" ++ more)).verdict = .accepted ∧
        (analyze o (source ++ "\n" ++ more)).tree = (analyze o source).tree := by
  intro h
  have hjoined := (h .standard "program p : print 1 end" "?" rfl (by decide +kernel)).1
  exact absurd hjoined (by decide +kernel)

end WhileLang
