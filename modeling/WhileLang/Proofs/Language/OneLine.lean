import WhileLang.Proofs.Parsing.Calls
import WhileLang.Proofs.Parsing.Cursors
import WhileLang.Proofs.RoundTrip

/-!
# Reading a line back

A tree is plain if its leaves are spelled like words and no child is absent before one that is
present (`Tree.Plain`). It can be read back from its line then, even where a name is spelled like a
tag or like the mark of an absent child: what tells a node from a leaf is the parenthesis after its
tag. The trees that are parsed are plain, so that their lines tell them apart (`shape_of_oneLine`).
-/

namespace WhileLang

open Grammar WhileLang.Parser TokenStream

namespace NodeKind

theorem mem_constructs {kind : NodeKind} (h : kind.isLeaf = false) : kind ∈ constructs := by
  cases kind with
  | binary op => cases op <;> decide
  | leaf text => cases h
  | _ => decide

theorem ofTag?_tag : ∀ kind ∈ constructs, ofTag? kind.tag = some kind := by decide

theorem isWordPart_tag {kind : NodeKind} (h : kind.isLeaf = false) :
    ∀ c ∈ kind.tag.toList, isWordPart c = true := by
  have hall : ∀ kind ∈ constructs, kind.tag.toList.all isWordPart = true := by decide
  exact List.all_eq_true.mp (hall kind (mem_constructs h))

theorem eq_of_tag_eq {kind kind' : NodeKind} (h : kind.isLeaf = false)
    (h' : kind'.isLeaf = false) (htag : kind.tag = kind'.tag) : kind = kind' := by
  have hkind := ofTag?_tag kind (mem_constructs h)
  rw [htag, ofTag?_tag kind' (mem_constructs h')] at hkind
  exact (Option.some.inj hkind).symm

end NodeKind

namespace Tree

/-! ## Plain trees -/

/-- A leaf is spelled by characters of words, and any other node has children in its first slots. -/
inductive Plain : Tree → Prop where
  | leaf {text : String} {p : Position} (h : ∀ c ∈ text.toList, isWordPart c = true) :
      Plain (leaf text p)
  | node {kind : NodeKind} {p : Position} {c0 c1 c2 : Tree} (hkind : kind.isLeaf = false)
      (h0 : Plain c0) (hgap : c1 = nil → c2 = nil) (h1 : c1 ≠ nil → Plain c1)
      (h2 : c2 ≠ nil → Plain c2) : Plain (node kind p c0 c1 c2)

theorem Plain.ne_nil {t : Tree} (h : Plain t) : t ≠ nil := by
  cases h <;> exact Tree.noConfusion

theorem Plain.unary {kind : NodeKind} {p : Position} {t : Tree} (hkind : kind.isLeaf = false)
    (h : Plain t) : Plain (unary kind p t) :=
  .node hkind h (fun _ => rfl) (absurd rfl) (absurd rfl)

theorem Plain.pair {kind : NodeKind} {p : Position} {l r : Tree} (hkind : kind.isLeaf = false)
    (hl : Plain l) (hr : Plain r) : Plain (pair kind p l r) :=
  .node hkind hl (fun _ => rfl) (fun _ => hr) (absurd rfl)

/-- What the line has for a child after the first: a comma and the child, or nothing. -/
def further : Tree → List Char
  | nil => []
  | node kind p c0 c1 c2 => ',' :: ' ' :: (node kind p c0 c1 c2).rendering.toList

theorem toList_rendering_children {kind : NodeKind} {p : Position} {c0 c1 c2 : Tree}
    (h0 : c0 ≠ nil) (hgap : c1 = nil → c2 = nil) (rest : List Char) :
    (node kind p c0 c1 c2).rendering.toList ++ rest =
      kind.tag.toList ++
        '(' :: (c0.rendering.toList ++ (c1.further ++ (c2.further ++ ')' :: rest))) := by
  rw [toList_rendering_node]
  cases c0 with
  | nil => exact absurd rfl h0
  | node =>
    cases c1 with
    | nil =>
      obtain rfl := hgap rfl
      simp [childPieces, further]
    | node => cases c2 <;> simp [childPieces, further]

/-! ## Where a tree ends on a line -/

/-- The line has ended, or goes on as it does after a tree. -/
def EndsTree (cs : List Char) : Prop := ∀ c, cs.head? = some c → c = ',' ∨ c = ')'

theorem endsTree_close (rest : List Char) : EndsTree (')' :: rest) := by
  intro c hc
  cases hc
  exact .inr rfl

theorem EndsTree.further {cs : List Char} (h : EndsTree cs) (t : Tree) :
    EndsTree (t.further ++ cs) := by
  cases t with
  | nil => exact h
  | node =>
    intro c hc
    cases hc
    exact .inl rfl

theorem EndsTree.beginsOutside {cs : List Char} (h : EndsTree cs) :
    BeginsOutside isWordPart cs := by
  intro c hc
  rcases h c hc with rfl | rfl <;> decide

theorem EndsTree.ne_open {cs : List Char} (h : EndsTree cs) (rest : List Char) :
    cs ≠ '(' :: rest := by
  rintro rfl
  rcases h '(' rfl with hc | hc <;> cases hc

/-- No other plain tree, with whatever follows it, is written like this one with what follows it. -/
def ReadsBack (t : Tree) : Prop :=
  ∀ (t' : Tree) (rest rest' : List Char), Plain t' → EndsTree rest → EndsTree rest' →
    t.rendering.toList ++ rest = t'.rendering.toList ++ rest' → t.shape = t'.shape ∧ rest = rest'

theorem readsBack_leaf {text : String} {p : Position}
    (h : ∀ c ∈ text.toList, isWordPart c = true) : ReadsBack (leaf text p) := by
  intro t' rest rest' ht' hrest hrest' heq
  cases ht' with
  | @leaf text' q h' =>
    obtain ⟨htext, hrests⟩ :=
      append_inj_of_class h h' hrest.beginsOutside hrest'.beginsOutside heq
    obtain rfl := String.toList_inj.mp htext
    exact ⟨rfl, hrests⟩
  | @node kind q c0 c1 c2 hkind h0 hgap =>
    rw [toList_rendering_children h0.ne_nil hgap] at heq
    have htag := NodeKind.isWordPart_tag hkind
    obtain ⟨-, hrests⟩ := append_inj_of_class h htag hrest.beginsOutside
      (beginsOutside_cons (by decide) _) heq
    exact absurd hrests (hrest.ne_open _)

/-- A child after the first is told from its comma and its own text, or from there being none. -/
theorem further_append_inj {c c' : Tree} {xs xs' : List Char} (h : c ≠ nil → ReadsBack c)
    (h' : c' ≠ nil → Plain c') (hxs : EndsTree xs) (hxs' : EndsTree xs')
    (hcomma : c = nil → xs.head? ≠ some ',') (hcomma' : c' = nil → xs'.head? ≠ some ',')
    (heq : c.further ++ xs = c'.further ++ xs') : c.shape = c'.shape ∧ xs = xs' := by
  cases c with
  | nil =>
    cases c' with
    | nil => exact ⟨rfl, heq⟩
    | node => exact absurd (congrArg List.head? heq) (hcomma rfl)
  | node kind p c0 c1 c2 =>
    cases c' with
    | nil => exact absurd (congrArg List.head? heq.symm) (hcomma' rfl)
    | node =>
      have htexts := (List.cons.inj (List.cons.inj heq).2).2
      exact h Tree.noConfusion _ xs xs' (h' Tree.noConfusion) hxs hxs' htexts

theorem head?_further_ne_comma {c2 : Tree} {rest : List Char} (h : c2 = nil) :
    (c2.further ++ ')' :: rest).head? ≠ some ',' := by
  rw [h]
  exact nofun

theorem readsBack_node {kind : NodeKind} {p : Position} {c0 c1 c2 : Tree}
    (hkind : kind.isLeaf = false) (hne : c0 ≠ nil) (hgap : c1 = nil → c2 = nil)
    (h0 : ReadsBack c0) (h1 : c1 ≠ nil → ReadsBack c1) (h2 : c2 ≠ nil → ReadsBack c2) :
    ReadsBack (node kind p c0 c1 c2) := by
  intro t' rest rest' ht' hrest hrest' heq
  have htag := NodeKind.isWordPart_tag hkind
  rw [toList_rendering_children hne hgap] at heq
  cases ht' with
  | @leaf text' q h' =>
    obtain ⟨-, hrests⟩ := append_inj_of_class htag h' (beginsOutside_cons (by decide) _)
      hrest'.beginsOutside heq
    exact absurd hrests.symm (hrest'.ne_open _)
  | @node kind' q c0' c1' c2' hkind' h0' hgap' h1' h2' =>
    have htag' := NodeKind.isWordPart_tag hkind'
    rw [toList_rendering_children h0'.ne_nil hgap'] at heq
    obtain ⟨htags, hopen⟩ := append_inj_of_class htag htag' (beginsOutside_cons (by decide) _)
      (beginsOutside_cons (by decide) _) heq
    obtain rfl := NodeKind.eq_of_tag_eq hkind hkind' (String.toList_inj.mp htags)
    have hclose := endsTree_close rest
    have hclose' := endsTree_close rest'
    obtain ⟨hc0, heq1⟩ := h0 c0' _ _ h0' ((hclose.further c2).further c1)
      ((hclose'.further c2').further c1') (List.cons.inj hopen).2
    obtain ⟨hc1, heq2⟩ := further_append_inj h1 h1' (hclose.further c2) (hclose'.further c2')
      (fun hc => head?_further_ne_comma (hgap hc)) (fun hc => head?_further_ne_comma (hgap' hc))
      heq1
    obtain ⟨hc2, hrests⟩ := further_append_inj h2 h2' hclose hclose' nofun nofun heq2
    exact ⟨by rw [shape, shape, hc0, hc1, hc2], (List.cons.inj hrests).2⟩

/-- Induction on the tree: a plain tree is told from the line, and where it ends. -/
theorem Plain.readsBack {t : Tree} (h : Plain t) : ReadsBack t := by
  induction h with
  | leaf h => exact readsBack_leaf h
  | node hkind h0 hgap _ _ ih0 ih1 ih2 => exact readsBack_node hkind h0.ne_nil hgap ih0 ih1 ih2

theorem toList_oneLine (t : Tree) : t.oneLine.toList = t.rendering.toList ++ [] :=
  toList_writePieces "" [.tree t]

/-- Plain trees that are written alike are equal, positions apart. -/
theorem Plain.shape_eq {t t' : Tree} (h : Plain t) (h' : Plain t')
    (hline : t.oneLine = t'.oneLine) : t.shape = t'.shape := by
  have heq := congrArg String.toList hline
  rw [toList_oneLine, toList_oneLine] at heq
  exact (h.readsBack t' [] [] h' nofun nofun heq).1

end Tree

/-! ## Parsed trees are plain -/

namespace Grammar

/-- A leaf may be spelled like a reserved word, which no name is. -/
theorem plain_reserved {k : TokenKind} (hk : k ∈ TokenKind.keywords) (p : Position) :
    (Tree.leaf k.text p).Plain := .leaf (TokenKind.isWord_text k hk).isWordPart

theorem WellFormedExpression.plain {t : Tree} (h : WellFormedExpression t) : t.Plain := by
  induction h with
  | name h => exact .unary rfl (.leaf h.1.isWordPart)
  | number h => exact .unary rfl (.leaf fun c hc => isWordPart_of_isDigit (h.2 c hc))
  | truth h =>
    rcases h with rfl | rfl
    · exact .unary rfl (plain_reserved (k := .trueWord) (by decide) _)
    · exact .unary rfl (plain_reserved (k := .falseWord) (by decide) _)
  | negation _ ih => exact .unary rfl ih
  | binary _ _ ihl ihr => exact .pair rfl ihl ihr

theorem WellFormed.plain {part : ProgramPart} {t : Tree} (h : WellFormed part t) :
    t.Plain := by
  induction h with
  | program _ ih | statements _ ih | statement _ ih => exact ih
  | declaration hn ht _ ih =>
    refine .pair rfl (.pair rfl (.leaf hn.1.isWordPart) ?_) ih
    rcases ht with rfl | rfl
    · exact plain_reserved (k := .intWord) (by decide) _
    · exact plain_reserved (k := .boolWord) (by decide) _
  | next _ _ ihl ihr => exact .pair rfl ihl ihr
  | assignment hn h => exact .pair rfl (.unary rfl (.leaf hn.1.isWordPart)) h.plain
  | conditional hc _ ih => exact .pair rfl hc.plain ih
  | alternative hc _ _ ihb ihd =>
    exact .node rfl hc.plain (fun hb => absurd hb ihb.ne_nil) (fun _ => ihb) fun _ => ihd
  | loop hc _ ih => exact .pair rfl hc.plain ih
  | print h => exact .unary rfl h.plain

/-- The builder is what some text is parsed to, by the first call or by a later one. -/
def Parsed (b : TreeBuilder) : Prop :=
  ∃ tracing source, (parseText tracing source).1 = .ok b ∨
    ∃ n, .ok b ∈ programs n (TokenStream.ofString source) tracing

theorem Parsed.wellFormed {b : TreeBuilder} (h : Parsed b) : WellFormed .body b.root := by
  obtain ⟨tracing, source, h | ⟨n, h⟩⟩ := h
  · rw [parseText_fst] at h
    exact (run_program_wellFormed (spelled_ofString source)).1 b h
  · exact wellFormed_of_mem_programs (spelled_ofString source) h

theorem Parsed.plain {b : TreeBuilder} (h : Parsed b) : b.root.Plain := h.wellFormed.plain

theorem Parsed.atEnd {b : TreeBuilder} (h : Parsed b) : AtEnd b := by
  obtain ⟨tracing, source, h | ⟨n, h⟩⟩ := h
  · rw [parseText_fst] at h
    exact atEnd_of_run_program h
  · rw [programs_eq_map] at h
    obtain ⟨i, -, hi⟩ := List.mem_map.mp h
    rw [inert_program.result_eq] at hi
    exact atEnd_of_run_program hi

theorem exists_parsed_of_oneLine (source line : String)
    (h : (parseText .off source).1.toOption.map (fun b => b.root.oneLine) = some line) :
    ∃ b, (parseText .off source).1 = .ok b ∧ b.root.oneLine = line := by
  cases hparse : (parseText .off source).1 with
  | error e =>
    rw [hparse] at h
    cases h
  | ok b =>
    rw [hparse] at h
    exact ⟨b, rfl, Option.some.inj h⟩

/-- **The line of a parsed tree identifies it.** Programs whose trees are written alike have equal
trees and cursors, positions apart, however their names are spelled. -/
theorem shape_of_oneLine {b b' : TreeBuilder} (h : Parsed b) (h' : Parsed b')
    (hline : b.root.oneLine = b'.root.oneLine) : b.shape = b'.shape := by
  have hroot : b.root.shape = b'.root.shape := h.plain.shape_eq h'.plain hline
  have hcursor : b.cursor = b'.cursor := h.atEnd.cursor_eq_of_shape h'.atEnd hroot
  rw [TreeBuilder.shape, TreeBuilder.shape, hroot, hcursor]

/-- Two names are spelled like a tag and like the mark of an absent child. -/
theorem shape_of_oneLine_names :
    ∃ b b', (parseText .off "program p: NIL := SEQ; print (NIL) end").1 = .ok b ∧
      (parseText .off "program q :\nNIL := SEQ ;\nprint NIL end").1 = .ok b' ∧
      b.root.oneLine = "SEQ(ASSIGNMENT(VARIABLE(NIL), VARIABLE(SEQ)), PRINT(VARIABLE(NIL)))" ∧
      b'.root.oneLine = b.root.oneLine ∧ b.shape = b'.shape := by
  obtain ⟨b, hb, hline⟩ := exists_parsed_of_oneLine
    "program p: NIL := SEQ; print (NIL) end"
    "SEQ(ASSIGNMENT(VARIABLE(NIL), VARIABLE(SEQ)), PRINT(VARIABLE(NIL)))" (by decide +kernel)
  obtain ⟨b', hb', hline'⟩ := exists_parsed_of_oneLine
    "program q :\nNIL := SEQ ;\nprint NIL end"
    "SEQ(ASSIGNMENT(VARIABLE(NIL), VARIABLE(SEQ)), PRINT(VARIABLE(NIL)))" (by decide +kernel)
  have hsame : b'.root.oneLine = b.root.oneLine := hline'.trans hline.symm
  exact ⟨b, b', hb, hb', hline, hsame, shape_of_oneLine ⟨_, _, .inl hb⟩ ⟨_, _, .inl hb'⟩ hsame.symm⟩

end Grammar

end WhileLang
