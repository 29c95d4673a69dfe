import WhileLang.Analysis.Basic
import WhileLang.Proofs.Language.Sentences
import WhileLang.Proofs.Parsing.Completeness
import WhileLang.Proofs.Tracing.Toggles

/-!
# The parser accepts the language

A text is parsed if and only if its tokens begin with a sentence of the grammar that is followed
by at least one token more, and its tree is the one of that sentence (`parseText_sentence`).
-/

namespace WhileLang

open Grammar WhileLang.Parser TokenStream

/-- The result of parsing a text is that of the rule for programs on all of its tokens, whatever is
traced. -/
theorem parseText_fst (tracing : Tracing) (source : String) :
    (parseText tracing source).1 = (run program (.ofString source)).1 := by
  unfold parseText
  dsimp only
  cases h : (TokenStream.ofString source).head with
  | ok t => exact inert_program.result_eq tracing _
  | error e =>
    rw [eq_failure_of_head h]
    rfl

/-- The parser of a text gives the same whatever it traces. -/
theorem parseText_result (tracing tracing' : Tracing) (source : String) :
    (parseText tracing source).1 = (parseText tracing' source).1 :=
  (parseText_fst tracing source).trans (parseText_fst tracing' source).symm

/-- It tells of what it is asked for among all that happens. -/
theorem parseText_events (tracing : Tracing) (source : String) :
    (parseText tracing source).2 = (parseText .full source).2.filter tracing.shows := by
  unfold parseText
  dsimp only
  split
  · rfl
  · next first _ =>
    have hevents := congrArg (List.cons (ParseEvent.read first))
      (inert_program.events_eq tracing (.ofString source))
    exact hevents

/-- The first `m` tokens of a text are a sentence, and there is a token after them. -/
def BeginsWithSentence (source : String) (m : Nat) : Prop :=
  m < (collectTokens source).1.length ∧
    Sentence (((collectTokens source).1.take m).map Token.kind)

namespace BeginsWithSentence

variable {tracing : Tracing} {source : String} {m : Nat}

theorem exists_append (h : BeginsWithSentence source m) :
    ∃ rest : TokenStream,
      TokenStream.ofString source = (collectTokens source).1.take m ++ rest ∧ rest.Readable := by
  obtain ⟨rest, hs, ht⟩ := exists_append_of_getElem? (List.getElem?_eq_getElem h.1)
  exact ⟨rest, hs, _, ht⟩

/-- A text that begins with a sentence is parsed to any tree of it. -/
theorem parseText_eq (h : BeginsWithSentence source m) {t : Tree}
    (ht : ProgramTree .program ((collectTokens source).1.take m) t) :
    ∃ b, b.root = t ∧ (parseText tracing source).1 = .ok b := by
  obtain ⟨rest, hs, hrest⟩ := h.exists_append
  obtain ⟨b, hb, hrun⟩ := run_program_of_tree ht hrest
  refine ⟨b, hb, ?_⟩
  rw [parseText_fst, hs, hrun]

theorem unique {m' : Nat} (h : BeginsWithSentence source m)
    (h' : BeginsWithSentence source m') : m = m' := by
  obtain ⟨t, ht⟩ := h.2.exists_tree
  obtain ⟨t', ht'⟩ := h'.2.exists_tree
  obtain ⟨rest, hs, hrest⟩ := h.exists_append
  obtain ⟨rest', hs', hrest'⟩ := h'.exists_append
  obtain ⟨-, rfl⟩ := ht.eq_of_append ht' hrest hrest' (hs.symm.trans hs')
  have hlen := congrArg TokenStream.length (hs.symm.trans hs')
  have hm := h.1
  have hm' := h'.1
  simp only [length_append, List.length_take] at hlen
  omega

end BeginsWithSentence

/-- A text that is parsed begins with a sentence, which has the tree that was found. -/
theorem exists_sentence_of_parseText {tracing : Tracing} {source : String} {b : TreeBuilder}
    (h : (parseText tracing source).1 = .ok b) :
    ∃ m, BeginsWithSentence source m ∧
      ProgramTree .program ((collectTokens source).1.take m) b.root := by
  rw [parseText_fst] at h
  cases hhead : (TokenStream.ofString source).head with
  | error e =>
    rw [eq_failure_of_head hhead] at h
    cases h
  | ok first =>
    have hran := reads_program.ran _ ⟨first, hhead⟩
    generalize run program (.ofString source) = o at h hran
    cases hran with
    | mismatch | unreadable => cases h
    | @success us a rest hs hrest htree =>
      cases h
      obtain ⟨t, ht⟩ := hrest
      have hlisting : (collectTokens source).1 = (us ++ rest).listing :=
        congrArg TokenStream.listing hs
      have htake : (collectTokens source).1.take us.length = us := by
        rw [hlisting, take_listing_append]
      refine ⟨us.length, ⟨?_, ?_⟩, ?_⟩
      · rw [hlisting]
        exact (List.getElem?_eq_some_iff.mp (getElem?_listing_append us ht)).1
      · rw [htake]
        exact htree.sentence
      · rw [htake]
        exact htree

/-- A text is parsed if and only if it begins with a sentence. The sentence is determined, and the
tree is the only one that the sentence has. -/
theorem parseText_sentence (tracing : Tracing) (source : String) :
    ((∃ b, (parseText tracing source).1 = .ok b) ↔ ∃ m, BeginsWithSentence source m) ∧
      (∀ m m', BeginsWithSentence source m → BeginsWithSentence source m' → m = m') ∧
      ∀ b m, (parseText tracing source).1 = .ok b → BeginsWithSentence source m →
        ProgramTree .program ((collectTokens source).1.take m) b.root ∧
          ∀ t, ProgramTree .program ((collectTokens source).1.take m) t → t = b.root := by
  refine ⟨?_, ?_, ?_⟩
  · constructor
    · rintro ⟨b, hb⟩
      obtain ⟨m, hm, -⟩ := exists_sentence_of_parseText hb
      exact ⟨m, hm⟩
    · rintro ⟨m, hm⟩
      obtain ⟨t, ht⟩ := hm.2.exists_tree
      obtain ⟨b, -, hb⟩ := hm.parseText_eq ht
      exact ⟨b, hb⟩
  · intro m m' h h'
    exact h.unique h'
  · intro b m hb hm
    constructor
    · obtain ⟨m', hm', ht⟩ := exists_sentence_of_parseText hb
      rwa [hm.unique hm']
    · intro t ht
      obtain ⟨b', hb', hparse⟩ := hm.parseText_eq ht
      rw [hb] at hparse
      cases hparse
      exact hb'.symm

end WhileLang
