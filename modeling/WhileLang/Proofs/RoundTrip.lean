import WhileLang.Proofs.Language.Writing
import WhileLang.Proofs.Lexing.Joining
import WhileLang.Proofs.Parsing.Layout

/-!
# Writing and parsing

A program that is written from a well-formed tree is parsed to this tree, positions apart, and
every tree that is parsed is well-formed (`parse_written`).
-/

namespace WhileLang

open Grammar WhileLang.Parser TokenStream

/-- Tokens of the same shape as a program are parsed to a tree of the same shape. -/
theorem run_program_of_shape {us us' : List Token} {t : Tree}
    (hus : us.map Token.shape = us'.map Token.shape) (ht : ProgramTree .program us' t)
    (p : Position) :
    ∃ b, b.root.shape = t.shape ∧ (run program (ofTokens us (.endOfText p))).1 = .ok b := by
  let r : TokenStream := ofTokens [] (.endOfText p)
  let r' : TokenStream := ofTokens [] (.endOfText .start)
  have hr' : r'.Readable := ⟨_, rfl⟩
  obtain ⟨b', rfl, hrun⟩ := run_program_of_tree ht hr'
  have hpar := (runAlike_program (.ended p .start)).parallel us us' hus
  have hwithin := not_beyond us (.endOfText p)
  rw [← append_ended]
  change Parallel r r' _ (run program (us ++ r)) (run program (us' ++ r')) at hpar
  change ∃ b : TreeBuilder, _ ∧ (run program (us ++ r)).1 = .ok b
  change ¬((run program (us ++ r)).2.length < r.length ∨ _) at hwithin
  rw [hrun] at hpar
  generalize run program (us ++ r) = o at hpar hwithin
  generalize ho' : ((Except.ok b' : Except ParseError TreeBuilder), r') = o' at hpar
  cases hpar with
  | @success _ _ b _ _ h =>
    have hb : Except.ok b' = Except.ok _ := congrArg Prod.fst ho'
    cases hb
    exact ⟨b, congrArg TreeBuilder.root h, rfl⟩
  | mismatch => cases congrArg Prod.fst ho'
  | unreadable => cases congrArg Prod.fst ho'
  | beyond h => exact absurd h hwithin

/-- The text of the program with this body, with blanks between its tokens. -/
def programText (t : Tree) : String := spaced (writeProgram t)

theorem parseText_programText (tracing : Tracing) {t : Tree} (h : WellFormed .body t) :
    ∃ b, (parseText tracing (programText t)).1 = .ok b ∧ b.root.shape = t.shape := by
  have hprogram : WellFormed .program t := .program h
  obtain ⟨ts, q, hts, hshape⟩ := ofString_spaced hprogram.spelled
  obtain ⟨b, hb, hrun⟩ := run_program_of_shape hshape hprogram.written q
  refine ⟨b, ?_, by rw [hb, Tree.shape_shape]⟩
  have hstream : TokenStream.ofString (programText t) = ofTokens ts (.endOfText q) := hts
  rw [parseText_fst, hstream, hrun]

/-! ## Trees that are parsed -/

/-- On tokens that a text can hold, the rule for programs gives well-formed trees, and leaves such
tokens. -/
theorem run_program_wellFormed {s : TokenStream} (hs : ∀ w ∈ s.tokens, w.Spelled) :
    (∀ b, (run program s).1 = .ok b → WellFormed .body b.root) ∧
      ∀ w ∈ (run program s).2.tokens, w.Spelled := by
  cases hhead : s.head with
  | error e =>
    rw [eq_failure_of_head hhead]
    exact ⟨nofun, nofun⟩
  | ok first =>
    have hran := reads_program.ran s ⟨first, hhead⟩
    generalize run program s = o at hran
    cases hran with
    | @success us b rest hsplit hrest htree =>
      subst hsplit
      rw [tokens_append] at hs
      have hus : ∀ w ∈ us, w.Spelled := fun w hw => hs w (List.mem_append_left _ hw)
      constructor
      · intro b' hb'
        cases hb'
        cases ProgramTree.wellFormed htree hus with
        | program h => exact h
      · intro w hw
        exact hs w (List.mem_append_right _ hw)
    | mismatch hsplit hrest hbegins =>
      subst hsplit
      rw [tokens_append] at hs
      exact ⟨nofun, fun w hw => hs w (List.mem_append_right _ hw)⟩
    | unreadable hsplit hbegins =>
      subst hsplit
      rw [tokens_append] at hs
      exact ⟨nofun, fun w hw => hs w (List.mem_append_right _ hw)⟩

/-- However many programs are parsed one after the other, every tree is well-formed. -/
theorem wellFormed_of_mem_programs {n : Nat} {s : TokenStream} {tracing : Tracing}
    {b : TreeBuilder} (hs : ∀ w ∈ s.tokens, w.Spelled) (h : .ok b ∈ programs n s tracing) :
    WellFormed .body b.root := by
  induction n generalizing s with
  | zero => cases h
  | succ n ih =>
    obtain ⟨htree, hrest⟩ := run_program_wellFormed hs
    rw [programs_succ] at h
    rcases List.mem_cons.mp h with hfirst | hmore
    · exact htree b hfirst.symm
    · exact ih hrest hmore

/-- What is written from a well-formed tree is parsed to this tree, and only well-formed trees are
parsed, by one call or by several. -/
theorem parse_written (tracing : Tracing) :
    (∀ t, WellFormed .body t →
      ∃ b, (parseText tracing (programText t)).1 = .ok b ∧ b.root.shape = t.shape) ∧
    (∀ source b, (parseText tracing source).1 = .ok b → WellFormed .body b.root) ∧
    ∀ source n b, .ok b ∈ programs n (TokenStream.ofString source) tracing →
      WellFormed .body b.root := by
  refine ⟨?_, ?_, ?_⟩
  · intro t ht
    exact parseText_programText tracing ht
  · intro source b hb
    rw [parseText_fst] at hb
    exact (run_program_wellFormed (spelled_ofString source)).1 b hb
  · intro source n b hb
    exact wellFormed_of_mem_programs (spelled_ofString source) hb

theorem parse_written_print :
    WellFormed .body (.unary .print .start (.unary .intLiteral .start (.leaf "1" .start))) ∧
      ∃ b, (parseText .off (programText
          (.unary .print .start (.unary .intLiteral .start (.leaf "1" .start))))).1 = .ok b ∧
        b.root.shape = .unary .print .start (.unary .intLiteral .start (.leaf "1" .start)) := by
  have hone : IsNumeral "1" := by
    refine ⟨by decide, ?_⟩
    intro c hc
    obtain rfl : c = '1' := List.mem_singleton.mp hc
    rfl
  have h : WellFormed .body
      (.unary .print .start (.unary .intLiteral .start (.leaf "1" .start))) :=
    .statements (.statement (.print (.number hone)))
  exact ⟨h, (parse_written .off).1 _ h⟩

end WhileLang
