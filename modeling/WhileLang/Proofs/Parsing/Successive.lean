import Mathlib.Algebra.Ring.Nat
import WhileLang.Proofs.Parsing.Calls

/-!
# Programs one below the other

A text may hold several programs, which one parser finds call by call. If they are texts of their
own joined with line feeds, each is found with the tree that it has alone, as many lines further
down as there are lines above it, and the call after the last one finds the end of the text
(`programs_joined`).

* `ProgramTree.down`: the grammar does not look at positions, so tokens further down have the same
  tree further down.
* `Stacked`: the stream of the joined texts, text by text.
-/

namespace WhileLang

open Grammar WhileLang.Parser TokenStream

/-! ## Further down -/

@[simp] theorem Token.shape_down (k : Nat) (t : Token) : (t.down k).shape = t.shape := rfl

namespace TokenStream

theorem down_zero (s : TokenStream) : s.down 0 = s := by
  have htokens : s.tokens.map (Token.down 0) = s.tokens := List.map_id s.tokens
  have hending : s.ending.down 0 = s.ending := by
    cases s.ending <;> rfl
  unfold down
  rw [htokens, hending]
  exact s.eq_ofTokens.symm

theorem down_down (m n : Nat) (s : TokenStream) : (s.down m).down n = s.down (m + n) := by
  have hposition : ∀ p : Position, (p.down m).down n = p.down (m + n) := by
    intro p
    rw [Position.down, Position.down, Position.down, Nat.add_assoc]
  have hending : (s.ending.down m).down n = s.ending.down (m + n) := by
    cases s.ending with
    | endOfText p => exact congrArg StreamEnd.endOfText (hposition p)
    | failure e => exact congrArg (fun p => StreamEnd.failure ⟨e.fault, p⟩) (hposition e.position)
  have htokens : Token.down n ∘ Token.down m = Token.down (m + n) := by
    funext t
    exact congrArg t.moveTo (hposition t.position)
  change ofTokens ((s.tokens.map _).map _) ((s.ending.down m).down n) = _
  rw [List.map_map, htokens, hending]
  rfl

end TokenStream

/-- The tree with all its nodes `k` lines further down. -/
def Tree.down (k : Nat) : Tree → Tree
  | nil => nil
  | node kind p c0 c1 c2 => node kind (p.down k) (c0.down k) (c1.down k) (c2.down k)

@[simp] theorem Tree.shape_down (k : Nat) (t : Tree) : (t.down k).shape = t.shape := by
  induction t with
  | nil => rfl
  | node kind p c0 c1 c2 ih0 ih1 ih2 => rw [down, shape, shape, ih0, ih1, ih2]

/-- The builder with its tree `k` lines further down. -/
def TreeBuilder.down (k : Nat) (b : TreeBuilder) : TreeBuilder := ⟨b.root.down k, b.cursor⟩

@[simp] theorem TreeBuilder.shape_down (k : Nat) (b : TreeBuilder) :
    (b.down k).shape = b.shape := by
  rw [shape, shape, down, Tree.shape_down]

namespace Grammar

theorem ExpressionTree.down {part : ExpressionPart} {us : List Token} {t : Tree}
    (h : ExpressionTree part us t) (k : Nat) :
    ExpressionTree part (us.map (Token.down k)) (t.down k) := by
  induction h with
  | number hw => exact .number hw
  | truth hw => exact .truth hw
  | name hw => exact .name hw
  | group ho _ hc ih =>
    rw [List.map_cons, List.map_append]
    exact .group ho ih hc
  | plain _ ih => exact .plain ih
  | signed hs _ ih => exact .signed hs ih
  | factor _ ih => exact .factor ih
  | product _ ho hop _ ihl ihr =>
    rw [List.map_append, List.map_cons]
    exact .product ihl ho hop ihr
  | term _ ih => exact .term ih
  | sum _ ho hop _ ihl ihr =>
    rw [List.map_append, List.map_cons]
    exact .sum ihl ho hop ihr
  | simple _ ih => exact .simple ih
  | relation _ ho hop _ ihl ihr =>
    rw [List.map_append, List.map_cons]
    exact .relation ihl ho hop ihr

theorem ProgramTree.down {part : ProgramPart} {us : List Token} {t : Tree}
    (h : ProgramTree part us t) (k : Nat) :
    ProgramTree part (us.map (Token.down k)) (t.down k) := by
  induction h with
  | program hw hn hc _ he ih =>
    simp only [List.map_cons, List.map_append]
    exact .program hw hn hc ih he
  | statements _ ih => exact .statements ih
  | declaration hw hn hs _ ih => exact .declaration hw hn hs ih
  | statement _ ih => exact .statement ih
  | next _ hs _ ihl ihr =>
    rw [List.map_append, List.map_cons]
    exact .next ihl hs ihr
  | assignment hn hs h => exact .assignment hn hs (h.down k)
  | conditional hi hc hw _ hf ih =>
    simp only [List.map_cons, List.map_append]
    exact .conditional hi (hc.down k) hw ih hf
  | alternative hi hc hw _ he _ hf ihb ihd =>
    simp only [List.map_cons, List.map_append]
    exact .alternative hi (hc.down k) hw ihb he ihd hf
  | loop hw hc hd _ ho ih =>
    simp only [List.map_cons, List.map_append]
    exact .loop hw (hc.down k) hd ih ho
  | print hw h => exact .print hw (h.down k)

end Grammar

/-! ## One program -/

/-- A program further down is found with its tree further down. -/
theorem run_program_down {us : List Token} {b : TreeBuilder} (h : ProgramTree .program us b.root)
    (hb : ∀ s : TokenStream, s.Readable → run program (us ++ s) = (.ok b, s)) (k : Nat)
    {s : TokenStream} (hs : s.Readable) :
    run program (us.map (Token.down k) ++ s) = (.ok (b.down k), s) := by
  obtain ⟨b', hroot, hb', -⟩ := exists_run_program (h.down k)
  have hshape : us.map Token.shape = (us.map (Token.down k)).map Token.shape := by
    rw [List.map_map]
    exact List.map_congr_left fun t _ => (Token.shape_down k t).symm
  have hpar := (runAlike_program (.ended .start .start)).parallel us _ hshape
  rw [hb _ ⟨_, rfl⟩, hb' _ ⟨_, rfl⟩] at hpar
  have hsame : b' = b.down k := by
    apply TreeBuilder.eq_of_shape
    · rw [TreeBuilder.shape_down]
      exact (hpar.eq_of_ok (Nat.le_refl _)).symm
    · exact hroot
  rw [hb' s hs, hsame]

theorem TokenStream.exists_ending {s : TokenStream} (h : s.error? = none) :
    ∃ p, s = s.tokens ++ ofTokens [] (.endOfText p) := by
  obtain ⟨p, hp⟩ := exists_end_of_error? h
  refine ⟨p, ?_⟩
  rw [append_ended, ← hp]
  exact s.eq_ofTokens

/-- A text that ends with its program is found wherever its tokens stand. -/
theorem EndsWithProgram.exists_run {source : String} (h : EndsWithProgram source) :
    ∃ b, (∀ tracing, (parseText tracing source).1 = .ok b) ∧ ∀ k (s : TokenStream), s.Readable →
      run program ((TokenStream.ofString source).tokens.map (Token.down k) ++ s) =
        (.ok (b.down k), s) := by
  obtain ⟨t, ht⟩ := h.exists_tree
  obtain ⟨b, rfl, hb, -⟩ := exists_run_program ht
  obtain ⟨p, hp⟩ := exists_ending h.1
  refine ⟨b, ?_, ?_⟩
  · intro tracing
    rw [parseText_fst, hp, hb _ ⟨_, rfl⟩]
  · intro k s hs
    exact run_program_down ht hb k hs

/-- A text where nothing but its end is left after a program ends with this program. -/
theorem endsWithProgram_of_run {source : String}
    (hok : (run program (.ofString source)).1.isOk = true)
    (hrest : (run program (.ofString source)).2.tokens = [])
    (hnone : (TokenStream.ofString source).error? = none) : EndsWithProgram source := by
  generalize hrun : run program (.ofString source) = o at hok hrest
  obtain ⟨result, rest⟩ := o
  cases result with
  | error e => cases hok
  | ok b =>
    have hparse : (parseText .full source).1 = .ok b := by
      rw [parseText_fst, hrun]
    obtain ⟨m, hm, htree⟩ := exists_sentence_of_parseText hparse
    obtain ⟨after, hs, hafter⟩ := hm.exists_append
    obtain ⟨b', -, hfound, -⟩ := exists_run_program htree
    have hsame : after = rest := by
      rw [hs, hfound after hafter] at hrun
      exact congrArg Prod.snd hrun
    rw [hsame] at hs
    exact endsWithProgram_of_tokens_eq_nil hm hs hrest hnone

/-! ## Texts below texts -/

def lineFeeds (source : String) : Nat := source.toList.count '\n'

/-- The lines above a text in the list, if each but the last is followed by a line feed. -/
def linesAbove (texts : List String) (i : Nat) : Nat := i + ((texts.take i).map lineFeeds).sum

/-- The tokens of texts one below the other, the first `k` lines further down than alone. -/
inductive Stacked : Nat → List String → TokenStream → Prop where
  | nil (k : Nat) (p : Position) : Stacked k [] (ofTokens [] (.endOfText p))
  | cons {k : Nat} {source : String} {texts : List String} {s : TokenStream}
      (h : Stacked (lineFeeds source + 1 + k) texts s) :
      Stacked k (source :: texts)
        ((TokenStream.ofString source).tokens.map (Token.down k) ++ s)

theorem Stacked.readable {k : Nat} {texts : List String} {s : TokenStream}
    (h : Stacked k texts s) : s.Readable := by
  induction h with
  | nil k p => exact ⟨_, rfl⟩
  | cons _ ih => exact ih.append _

/-- Joined with line feeds, texts are read one below the other. -/
theorem stacked_intercalate (texts : List String)
    (h : ∀ source ∈ texts, (TokenStream.ofString source).error? = none) (k : Nat) :
    Stacked k texts ((TokenStream.ofString (String.intercalate "\n" texts)).down k) := by
  induction texts generalizing k with
  | nil =>
    have hempty : TokenStream.ofString "" = ofTokens [] (.endOfText ⟨1, 1⟩) := by decide +kernel
    rw [String.intercalate_nil, hempty]
    exact .nil k _
  | cons source texts ih =>
    have hsource := h source List.mem_cons_self
    cases texts with
    | nil =>
      obtain ⟨p, hp⟩ := exists_ending hsource
      rw [String.intercalate_singleton, hp, down_append]
      exact .cons (.nil _ _)
    | cons next texts =>
      have hrest := ih (fun t ht => h t (List.mem_cons_of_mem _ ht)) (lineFeeds source + 1 + k)
      rw [String.intercalate_cons_cons, ofString_below hsource, down_append, down_down]
      exact .cons hrest

/-! ## One call after the other -/

/-- The calls of one parser on the joined texts: a call for each text, and one more. -/
structure FoundInTurn (tracing : Tracing) (k : Nat) (texts : List String)
    (results : List (Except ParseError TreeBuilder)) : Prop where
  /-- Each text is found with the tree that it has alone, below the texts before it. -/
  found : ∀ i source, texts[i]? = some source → ∃ b, (parseText tracing source).1 = .ok b ∧
    results[i]? = some (Except.ok (b.down (k + linesAbove texts i)))
  ended : ∃ p, results[texts.length]? = some (Except.error (.noProgram .endOfText p))

theorem linesAbove_cons (source : String) (texts : List String) (i : Nat) :
    linesAbove (source :: texts) (i + 1) = lineFeeds source + 1 + linesAbove texts i := by
  unfold linesAbove
  rw [List.take_succ_cons, List.map_cons, List.sum_cons]
  omega

/-- Where the texts stand one below the other, every call finds the next one. -/
theorem Stacked.foundInTurn {k : Nat} {texts : List String} {s : TokenStream}
    (h : Stacked k texts s) (htexts : ∀ source ∈ texts, EndsWithProgram source)
    (tracing : Tracing) :
    FoundInTurn tracing k texts (programs (texts.length + 1) s tracing) := by
  induction h with
  | nil k p =>
    have hend := run_program_of_head_ne (s := ofTokens [] (.endOfText p)) rfl nofun
    rw [List.length_nil, programs_of_run hend]
    exact ⟨nofun, p, rfl⟩
  | @cons k source texts s hstacked ih =>
    obtain ⟨b, hparse, hrun⟩ := (htexts source List.mem_cons_self).exists_run
    obtain ⟨hfound, p, hended⟩ := ih fun t ht => htexts t (List.mem_cons_of_mem _ ht)
    rw [List.length_cons, programs_of_run (hrun k s hstacked.readable)]
    refine ⟨?_, p, hended⟩
    intro i t ht
    cases i with
    | zero =>
      cases ht
      exact ⟨b, hparse tracing, rfl⟩
    | succ i =>
      obtain ⟨c, hc, hresult⟩ := hfound i t ht
      have hlines : k + linesAbove (source :: texts) (i + 1) =
          lineFeeds source + 1 + k + linesAbove texts i := by
        rw [linesAbove_cons]
        omega
      refine ⟨c, hc, ?_⟩
      rw [hlines]
      exact hresult

/-- Of texts that each end with their program, joined with line feeds, every call finds the next
program, with the tree that its text has alone as many lines further down as there are lines above
it. The call after them finds the end of the text. -/
theorem programs_joined (tracing : Tracing) (texts : List String)
    (h : ∀ source ∈ texts, EndsWithProgram source) :
    (∀ i source, texts[i]? = some source → ∃ b, (parseText tracing source).1 = .ok b ∧
        (programs (texts.length + 1) (.ofString (String.intercalate "\n" texts)) tracing)[i]? =
          some (Except.ok (b.down (linesAbove texts i)))) ∧
      ∃ p, (programs (texts.length + 1)
            (.ofString (String.intercalate "\n" texts)) tracing)[texts.length]? =
          some (Except.error (.noProgram .endOfText p)) ∧
        (ParseError.noProgram .endOfText p).message =
          "at " ++ p.text ++ ", Expected \x7b program \x7d, but found 'end-of-text'" := by
  have hstacked := stacked_intercalate texts (fun source hs => (h source hs).1) 0
  rw [TokenStream.down_zero] at hstacked
  obtain ⟨hfound, p, hended⟩ := hstacked.foundInTurn h tracing
  constructor
  · intro i source hi
    obtain ⟨b, hb, hresult⟩ := hfound i source hi
    rw [Nat.zero_add] at hresult
    exact ⟨b, hb, hresult⟩
  · refine ⟨p, hended, ?_⟩
    rw [ParseError.message_noProgram]
    simp only [String.append_assoc]
    rfl

theorem programs_joined_two :
    (∀ source ∈ ["program p : print 1 end // one", "program q : print 2 end"],
      EndsWithProgram source) ∧
    ∃ b, (parseText .off "program q : print 2 end").1 = .ok b ∧
      (programs 3 (.ofString (String.intercalate "\n"
        ["program p : print 1 end // one", "program q : print 2 end"])) .off)[1]? =
          some (Except.ok (b.down 1)) := by
  have hends : ∀ source ∈ ["program p : print 1 end // one", "program q : print 2 end"],
      EndsWithProgram source := by
    intro source hs
    apply endsWithProgram_of_run
    · revert source
      decide +kernel
    · revert source
      decide +kernel
    · revert source
      decide +kernel
  exact ⟨hends, (programs_joined .off _ hends).1 1 _ rfl⟩

end WhileLang
