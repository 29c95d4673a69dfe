import Mathlib.Algebra.Order.Group.Multiset
import Mathlib.Tactic.Abel
import WhileLang.Proofs.Building.Visiting
import WhileLang.Proofs.Lexing.Positions
import WhileLang.Proofs.Parsing.Correctness
import WhileLang.Proofs.Parsing.DescentRules
import WhileLang.Proofs.Parsing.Pace

/-!
# Nodes and the tokens that make them

Every token of a body makes a fixed number of nodes, all where it stands: an inner node, a leaf,
both or neither. Which of these it is depends on its kind alone, except that a declared name makes
no inner node (`TokenKind.makesInner`, `TokenKind.makesLeaf`).

So a tree can be checked against its tokens without its edges: the nodes of the tree, each as a mark
that says whether it is a leaf and where it stands, are all that the tokens make
(`ExpressionTree.accounts`, `ProgramTree.accounts`). The induction is on the clauses of the grammar,
with any tokens after those of the tree, because the word of a type changes what the next token
makes.
-/

namespace WhileLang

/-! ## The marks of a tree -/

/-- A node as a leaf or an inner node at a position. -/
structure NodeMark where
  isLeaf : Bool
  position? : Option Position
deriving DecidableEq, Repr

namespace Tree

def mark (t : Tree) : NodeMark := ⟨t.isLeaf, t.position?⟩

/-- The marks of all nodes. -/
def marks (t : Tree) : Multiset NodeMark := (t.nodes.map mark : List NodeMark)

@[simp] theorem marks_nil : marks nil = 0 := by
  rw [marks, nodes_eq_inOrder]
  rfl

theorem marks_node (kind : NodeKind) (p : Position) (c0 c1 c2 : Tree) :
    (node kind p c0 c1 c2).marks =
      {⟨kind.isLeaf, some p⟩} + c0.marks + c1.marks + c2.marks := by
  simp only [marks, nodes_eq_inOrder, inOrder, List.map_append, List.map_cons,
    ← Multiset.coe_add, ← Multiset.cons_coe, ← Multiset.singleton_add]
  change _ + ({NodeMark.mk kind.isLeaf (some p)} + _) = _
  abel

@[simp] theorem marks_leaf (text : String) (p : Position) :
    (leaf text p).marks = {⟨true, some p⟩} := by
  rw [leaf, marks_node, marks_nil, add_zero, add_zero, add_zero]
  rfl

@[simp] theorem marks_unary (kind : NodeKind) (p : Position) (t : Tree) :
    (unary kind p t).marks = {⟨kind.isLeaf, some p⟩} + t.marks := by
  rw [unary, marks_node, marks_nil, add_zero, add_zero]

@[simp] theorem marks_pair (kind : NodeKind) (p : Position) (l r : Tree) :
    (pair kind p l r).marks = {⟨kind.isLeaf, some p⟩} + l.marks + r.marks := by
  rw [pair, marks_node, marks_nil, add_zero]

theorem card_marks (t : Tree) : t.marks.card = t.nodeCount := by
  rw [marks, Multiset.coe_card, List.length_map]
  rfl

end Tree

/-! ## The marks of tokens -/

namespace TokenKind

/-- Types, literals, operands and the words and symbols of a construct make an inner node. A name
makes one unless it is declared there. -/
def makesInner (declared : Bool) : TokenKind → Bool
  | identifier => !declared
  | boolWord | intWord | number | trueWord | falseWord => true
  | semicolon | assign | ifWord | whileWord | printWord => true
  | less | lessEqual | equal | notEqual | greaterEqual | greater => true
  | plus | minus | orWord | star | slash | andWord | notWord => true
  | programWord | endWord | thenWord | elseWord | fiWord | doWord | odWord => false
  | openParen | closeParen | colon | endOfText => false

/-- Types, literals and names make a leaf. -/
def makesLeaf : TokenKind → Bool
  | boolWord | intWord | number | trueWord | falseWord | identifier => true
  | _ => false

/-- The number of nodes that a token makes. -/
def nodesMade (declared : Bool) : TokenKind → Nat
  | boolWord | intWord | number | trueWord | falseWord => 2
  | identifier => if declared then 1 else 2
  | semicolon | assign | ifWord | whileWord | printWord => 1
  | less | lessEqual | equal | notEqual | greaterEqual | greater => 1
  | plus | minus | orWord | star | slash | andWord | notWord => 1
  | programWord | endWord | thenWord | elseWord | fiWord | doWord | odWord => 0
  | openParen | closeParen | colon | endOfText => 0

theorem nodesMade_eq (declared : Bool) (k : TokenKind) :
    k.nodesMade declared = (k.makesInner declared).toNat + k.makesLeaf.toNat := by
  cases declared <;> cases k <;> rfl

end TokenKind

open Grammar

/-- The tokens, each with whether it comes right after the word of a type. A name that does is
declared there; any other name is assigned to or is an operand. -/
def withDeclared (declared : Bool) : List Token → List (Token × Bool)
  | [] => []
  | t :: ts => (t, declared) :: withDeclared (t.kind ∈ typeWords) ts

/-- The number of nodes that tokens make. -/
def nodesMadeBy (us : List Token) : Nat :=
  ((withDeclared false us).map fun (t, declared) => t.kind.nodesMade declared).sum

namespace Token

/-- The marks of the nodes that a token makes. -/
def marks (t : Token) (declared : Bool) : Multiset NodeMark :=
  .replicate (t.kind.makesInner declared).toNat ⟨false, some t.position⟩ +
    .replicate t.kind.makesLeaf.toNat ⟨true, some t.position⟩

end Token

/-- The marks of the nodes that tokens make. -/
def tokenMarks (declared : Bool) (us : List Token) : Multiset NodeMark :=
  ((withDeclared declared us).map fun (t, declared) => t.marks declared).sum

@[simp] theorem tokenMarks_nil (declared : Bool) : tokenMarks declared [] = 0 := rfl

theorem tokenMarks_cons (declared : Bool) (t : Token) (us : List Token) :
    tokenMarks declared (t :: us) = t.marks declared + tokenMarks (t.kind ∈ typeWords) us := rfl

/-- The token is no type, and makes these nodes where none stands before it. -/
structure TokenKind.Makes (k : TokenKind) (inner leaf : Bool) : Prop where
  notMem : k ∉ typeWords
  inner_eq : k.makesInner false = inner
  leaf_eq : k.makesLeaf = leaf

instance (k : TokenKind) (inner leaf : Bool) : Decidable (k.Makes inner leaf) :=
  decidable_of_iff (k ∉ typeWords ∧ k.makesInner false = inner ∧ k.makesLeaf = leaf)
    ⟨fun ⟨hnot, hinner, hleaf⟩ => ⟨hnot, hinner, hleaf⟩,
      fun ⟨hnot, hinner, hleaf⟩ => ⟨hnot, hinner, hleaf⟩⟩

section

variable {t : Token}

theorem tokenMarks_of_makes {inner leaf : Bool} (h : t.kind.Makes inner leaf) (us : List Token) :
    tokenMarks false (t :: us) =
      .replicate inner.toNat ⟨false, some t.position⟩ +
        .replicate leaf.toNat ⟨true, some t.position⟩ + tokenMarks false us := by
  rw [tokenMarks_cons, Token.marks, h.inner_eq, h.leaf_eq, decide_eq_false h.notMem]

theorem tokenMarks_silent (h : t.kind.Makes false false) (us : List Token) :
    tokenMarks false (t :: us) = tokenMarks false us := by
  rw [tokenMarks_of_makes h]
  exact zero_add _

theorem tokenMarks_inner (h : t.kind.Makes true false) (us : List Token) :
    tokenMarks false (t :: us) = {⟨false, some t.position⟩} + tokenMarks false us :=
  tokenMarks_of_makes h us

theorem tokenMarks_both (h : t.kind.Makes true true) (us : List Token) :
    tokenMarks false (t :: us) =
      {⟨false, some t.position⟩} + {⟨true, some t.position⟩} + tokenMarks false us :=
  tokenMarks_of_makes h us

theorem tokenMarks_type (h : t.kind = .boolWord ∨ t.kind = .intWord) (us : List Token) :
    tokenMarks false (t :: us) =
      {⟨false, some t.position⟩} + {⟨true, some t.position⟩} + tokenMarks true us := by
  rw [tokenMarks_cons, Token.marks]
  rcases h with h | h <;> rw [h] <;> rfl

theorem tokenMarks_declared (h : t.kind = .identifier) (us : List Token) :
    tokenMarks true (t :: us) = {⟨true, some t.position⟩} + tokenMarks false us := by
  rw [tokenMarks_cons, Token.marks, h]
  rfl

end

theorem TokenKind.Makes.of_eq {k k' : TokenKind} {inner leaf : Bool} (h : k = k')
    (hmakes : k'.Makes inner leaf) : k.Makes inner leaf := by
  rwa [h]

theorem BinaryOp.makes_kind (op : BinaryOp) : op.kind.Makes true false := by
  cases op <;> decide

/-! ## Trees and their tokens -/

/-- The tokens make the nodes of the tree, and what they make does not depend on what follows
them. -/
def Accounts (us : List Token) (t : Tree) : Prop :=
  ∀ rest, tokenMarks false (us ++ rest) = t.marks + tokenMarks false rest

namespace Accounts

variable {us vs : List Token} {t l r : Tree} {o c w : Token} {kind : NodeKind}

/-- A token that spells its own leaf, and the node above the leaf. -/
theorem atom (hw : w.kind.Makes true true) (hkind : kind.isLeaf = false) (text : String) :
    Accounts [w] (.unary kind w.position (.leaf text w.position)) := by
  intro rest
  rw [List.singleton_append, tokenMarks_both hw, Tree.marks_unary, Tree.marks_leaf, hkind]

/-- A word and the part after it. -/
theorem unary (h : Accounts us t) (hw : w.kind.Makes true false) (hkind : kind.isLeaf = false) :
    Accounts (w :: us) (.unary kind w.position t) := by
  intro rest
  rw [List.cons_append, tokenMarks_inner hw, h, Tree.marks_unary, hkind, add_assoc]

/-- An operator or separator and the parts around it. -/
theorem pair (hl : Accounts us l) (hr : Accounts vs r) (ho : o.kind.Makes true false)
    (hkind : kind.isLeaf = false) : Accounts (us ++ o :: vs) (.pair kind o.position l r) := by
  intro rest
  rw [List.append_assoc, List.cons_append, hl, tokenMarks_inner ho, hr, Tree.marks_pair, hkind]
  abel

/-- Tokens around a part that make nothing. -/
theorem enclosed (h : Accounts us t) (ho : o.kind.Makes false false)
    (hc : c.kind.Makes false false) : Accounts (o :: (us ++ [c])) t := by
  intro rest
  rw [List.cons_append, List.append_assoc, List.singleton_append, tokenMarks_silent ho, h,
    tokenMarks_silent hc]

end Accounts

namespace Grammar

theorem ExpressionTree.accounts {part : ExpressionPart} {us : List Token} {t : Tree}
    (h : ExpressionTree part us t) : Accounts us t := by
  induction h with
  | number hw => exact .atom (.of_eq hw (by decide)) rfl _
  | @truth w hw =>
    have hmakes : w.kind.Makes true true := by
      rcases hw with hw | hw <;> exact .of_eq hw (by decide)
    exact .atom hmakes rfl _
  | name hw => exact .atom (.of_eq hw (by decide)) rfl _
  | group ho _ hc ih => exact ih.enclosed (.of_eq ho (by decide)) (.of_eq hc (by decide))
  | plain _ ih | factor _ ih | term _ ih | simple _ ih => exact ih
  | @signed s us t hs _ ih =>
    have hmakes : s.kind.Makes true false := by
      rcases List.mem_pair.mp hs with hs | hs <;> exact .of_eq hs (by decide)
    exact ih.unary hmakes rfl
  | product _ ho _ _ ihl ihr | sum _ ho _ _ ihl ihr | relation _ ho _ _ ihl ihr =>
    exact ihl.pair ihr (ho ▸ BinaryOp.makes_kind _) rfl

theorem ProgramTree.accounts {part : ProgramPart} {us : List Token} {t : Tree}
    (h : ProgramTree part us t) (hpart : part ≠ .program) : Accounts us t := by
  induction h with
  | program => exact absurd rfl hpart
  | statements _ ih | statement _ ih => exact ih nofun
  | declaration hw hn hs _ ih =>
    intro rest
    simp only [List.cons_append]
    rw [tokenMarks_type hw, tokenMarks_declared hn, tokenMarks_inner (.of_eq hs (by decide)),
      ih nofun]
    simp only [Tree.marks_pair, Tree.marks_leaf, NodeKind.isLeaf]
    abel
  | next _ hs _ ihl ihr => exact (ihl nofun).pair (ihr nofun) (.of_eq hs (by decide)) rfl
  | assignment hn hs h =>
    exact (Accounts.atom (.of_eq hn (by decide)) rfl _).pair h.accounts (.of_eq hs (by decide)) rfl
  | conditional hi hc hw _ hf ihb | loop hi hc hw _ hf ihb =>
    intro rest
    simp only [List.cons_append, List.append_assoc, List.nil_append]
    rw [tokenMarks_inner (.of_eq hi (by decide)), hc.accounts,
      tokenMarks_silent (.of_eq hw (by decide)), ihb nofun,
      tokenMarks_silent (.of_eq hf (by decide)), Tree.marks_pair]
    simp only [NodeKind.isLeaf]
    abel
  | alternative hi hc hw _ he _ hf ihb ihd =>
    intro rest
    simp only [List.cons_append, List.append_assoc, List.nil_append]
    rw [tokenMarks_inner (.of_eq hi (by decide)), hc.accounts,
      tokenMarks_silent (.of_eq hw (by decide)), ihb nofun,
      tokenMarks_silent (.of_eq he (by decide)), ihd nofun,
      tokenMarks_silent (.of_eq hf (by decide)), Tree.marks_node]
    simp only [NodeKind.isLeaf]
    abel
  | print hw h => exact h.accounts.unary (.of_eq hw (by decide)) rfl

/-- The tokens of a program after its name and the colon account for its tree. -/
theorem ProgramTree.accounts_drop {us : List Token} {t : Tree} (h : ProgramTree .program us t) :
    (us.take 3).map Token.kind = [.programWord, .identifier, .colon] ∧
      tokenMarks false (us.drop 3) = t.marks := by
  cases h with
  | @program w n c e us t hw hn hc h he =>
    refine ⟨by simp [hw, hn, hc], ?_⟩
    show tokenMarks false (us ++ [e]) = t.marks
    rw [h.accounts nofun, tokenMarks_silent (.of_eq he (by decide)), tokenMarks_nil, add_zero]

end Grammar

/-! ## Numbers and positions -/

theorem card_sum_marks (ps : List (Token × Bool)) :
    ((ps.map fun (t, declared) => Token.marks t declared).sum).card =
      (ps.map fun (t, declared) => t.kind.nodesMade declared).sum := by
  induction ps with
  | nil => rfl
  | cons p ps ih =>
    obtain ⟨t, declared⟩ := p
    rw [List.map_cons, List.map_cons, List.sum_cons, List.sum_cons, Multiset.card_add, ih]
    show (t.marks declared).card + _ = t.kind.nodesMade declared + _
    rw [TokenKind.nodesMade_eq, Token.marks, Multiset.card_add, Multiset.card_replicate,
      Multiset.card_replicate]

theorem position_of_mem_marks {t : Token} {declared : Bool} {m : NodeMark}
    (h : m ∈ t.marks declared) : m.position? = some t.position := by
  rcases Multiset.mem_add.mp h with h | h <;> rw [Multiset.eq_of_mem_replicate h]

theorem exists_token_of_mem_tokenMarks {declared : Bool} {us : List Token} {m : NodeMark}
    (h : m ∈ tokenMarks declared us) : ∃ u ∈ us, m.position? = some u.position := by
  induction us generalizing declared with
  | nil => exact absurd h (Multiset.notMem_zero m)
  | cons t us ih =>
    rcases Multiset.mem_add.mp (tokenMarks_cons declared t us ▸ h) with h | h
    · exact ⟨t, List.mem_cons_self, position_of_mem_marks h⟩
    · obtain ⟨u, hu, hposition⟩ := ih h
      exact ⟨u, List.mem_cons_of_mem t hu, hposition⟩

/-- Where the inner nodes among the marks stand. -/
def innerPositions (ms : Multiset NodeMark) : Multiset (Option Position) :=
  (ms.filter fun m => m.isLeaf = false).map NodeMark.position?

theorem innerPositions_add (ms ns : Multiset NodeMark) :
    innerPositions (ms + ns) = innerPositions ms + innerPositions ns := by
  rw [innerPositions, Multiset.filter_add, Multiset.map_add]
  rfl

/-- No token makes two inner nodes. -/
theorem innerPositions_marks_le (t : Token) (declared : Bool) :
    innerPositions (t.marks declared) ≤ {some t.position} := by
  rw [Token.marks, innerPositions_add]
  cases t.kind.makesInner declared <;> cases t.kind.makesLeaf <;>
    simp [innerPositions, Multiset.filter_singleton]

theorem innerPositions_tokenMarks_le (declared : Bool) (us : List Token) :
    innerPositions (tokenMarks declared us) ≤
      (us.map fun u => some u.position : List (Option Position)) := by
  induction us generalizing declared with
  | nil => exact Multiset.zero_le _
  | cons t us ih =>
    rw [tokenMarks_cons, innerPositions_add, List.map_cons, ← Multiset.cons_coe,
      ← Multiset.singleton_add]
    exact add_le_add (innerPositions_marks_le t declared) (ih _)

theorem innerPositions_treeMarks (t : Tree) :
    innerPositions t.marks =
      ((t.nodes.filter fun n => !n.isLeaf).map Tree.position? : List (Option Position)) := by
  rw [innerPositions, Tree.marks, Multiset.filter_coe, Multiset.map_coe, List.filter_map,
    List.map_map]
  congr 2
  refine congrArg (fun p => t.nodes.filter p) ?_
  funext n
  cases h : n.isLeaf <;> simp [Tree.mark, h]

/-- The nodes of a program stand where tokens after its name and the colon do. -/
theorem Grammar.ProgramTree.exists_token_of_mem_nodes {us : List Token} {t n : Tree}
    (h : ProgramTree .program us t) (hn : n ∈ t.nodes) :
    ∃ u ∈ us.drop 3, n.position? = some u.position := by
  have hmark : n.mark ∈ t.marks := Multiset.mem_coe.mpr (List.mem_map_of_mem hn)
  rw [← h.accounts_drop.2] at hmark
  exact exists_token_of_mem_tokenMarks hmark

/-! ## The tokens of a text -/

open TokenStream in
/-- The tokens that were consumed when a text was parsed are those before what is left of it, and
they have the tree that was found. -/
theorem programTree_consumed {tracing : Tracing} {source : String} {b : TreeBuilder}
    (h : (parseText tracing source).1 = .ok b) :
    ofString source = tokensConsumed (parseText .full source).2 ++
        (program tracing (ofString source)).rest ∧
      ProgramTree .program (tokensConsumed (parseText .full source).2) b.root := by
  obtain ⟨m, hm, htree⟩ := exists_sentence_of_parseText h
  rw [parseText_result tracing .full] at h
  cases hhead : (TokenStream.ofString source).head with
  | error e =>
    rw [(parseText_unreadable hhead).1] at h
    cases h
  | ok first =>
    obtain ⟨o, hrun, hparse, hfollows⟩ := parseText_follows hhead
    have hconsumed : tokensConsumed (parseText .full source).2 = tokensConsumed o.events := by
      rw [hparse]
      rfl
    rw [hparse] at h
    rw [hconsumed]
    cases hfollows with
    | broken => cases h
    | @completed _ rest es hcompletes =>
      obtain ⟨hlt, htake⟩ := hcompletes.paced.take_listing ⟨first, hhead⟩
      have hbegins : BeginsWithSentence source (tokensConsumed es).length :=
        ⟨hlt, htake.symm ▸ hcompletes.derives_consumed⟩
      obtain rfl := hm.unique hbegins
      have hrest : (program tracing (ofString source)).rest = rest :=
        (inert_program.rest_eq tracing _).trans (congrArg Outcome.rest hrun)
      refine ⟨?_, ?_⟩
      · rw [hrest]
        exact hcompletes.paced.eq_append
      · rwa [← htake]

/-- No token is lost or duplicated in the tree of a text. A fully traced run tells of the tokens
that were consumed, whatever was traced. Of these, those after the name of the program and the colon
make as many nodes as there are, every node stands where one of them does, and no two inner nodes
stand at the same place. -/
theorem parseText_accounts {tracing : Tracing} {source : String} {b : TreeBuilder}
    (h : (parseText tracing source).1 = .ok b) :
    let consumed := tokensConsumed (parseText .full source).2
    TokenStream.ofString source = consumed ++ (program tracing (.ofString source)).rest ∧
      consumed <+: (collectTokens source).1 ∧
      (consumed.take 3).map Token.kind = [.programWord, .identifier, .colon] ∧
      b.root.nodeCount = nodesMadeBy (consumed.drop 3) ∧
      (∀ t ∈ b.root.nodes, ∃ u ∈ consumed.drop 3, t.position? = some u.position) ∧
      ((b.root.nodes.filter fun t => !t.isLeaf).map Tree.position?).Nodup := by
  intro consumed
  obtain ⟨hconsumed, htree⟩ := programTree_consumed h
  obtain ⟨hheader, hmarks⟩ := htree.accounts_drop
  have hfirst : consumed <+: (collectTokens source).1 := by
    have hlisting := congrArg TokenStream.listing hconsumed
    rw [TokenStream.listing_append] at hlisting
    exact ⟨_, hlisting.symm⟩
  refine ⟨hconsumed, hfirst, hheader, ?_, fun t ht => htree.exists_token_of_mem_nodes ht, ?_⟩
  · rw [← Tree.card_marks, ← hmarks]
    exact card_sum_marks _
  · have hle := innerPositions_tokenMarks_le false (consumed.drop 3)
    rw [hmarks, innerPositions_treeMarks] at hle
    refine Multiset.coe_nodup.mp (Multiset.nodup_of_le hle (Multiset.coe_nodup.mpr ?_))
    have hpairs := ((pairwise_collectTokens source).sublist hfirst.sublist).sublist
      (List.drop_sublist 3 _)
    exact List.pairwise_map.mpr (hpairs.imp fun hbefore => (Option.some_injective _).ne hbefore.ne)

/-- A declared name, an assigned name and an operand, and a signed number. -/
theorem parseText_accounts_signed :
    let source := "program p : int a; if not a < 2 then a := -1 else print (a) fi end"
    ∃ b, (parseText .off source).1 = .ok b ∧ b.root.nodeCount = 20 ∧
      b.root.nodeCount = nodesMadeBy ((tokensConsumed (parseText .full source).2).drop 3) := by
  intro source
  have haccepted : (parseText .off source).1.isOk := by decide +kernel
  have hmade : nodesMadeBy ((tokensConsumed (parseText .full source).2).drop 3) = 20 := by
    decide +kernel
  cases hb : (parseText .off source).1 with
  | error => cases hb ▸ haccepted
  | ok b =>
    obtain ⟨-, -, -, hcount, -⟩ := parseText_accounts hb
    exact ⟨b, rfl, hcount.trans hmade, hcount⟩

end WhileLang
