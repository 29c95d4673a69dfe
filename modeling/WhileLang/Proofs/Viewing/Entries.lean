import WhileLang.Proofs.Parsing.Accounting
import WhileLang.Proofs.Viewing.Lines
import WhileLang.Proofs.Viewing.Windows

/-!
# The entries of the tables and their lines

The source pane shows the line of a selected token or node. The tokens of the table are read anew,
and the nodes come from the parser's own run, but a node stands where one of the tokens does
(`ProgramTree.exists_token_of_mem_nodes`). So the line is one that has the entry in it
(`viewer_lines`).

* `Viewer.entry?`: the token or the node whose line is the current one.
* `exists_token_of_mem_rows`: the token where a node stands, which is not the end of the text.
-/

namespace WhileLang

/-! ## Nodes stand where tokens do -/

/-- Where a row of the tree's table stands there is a token, and not the end of the text. -/
theorem exists_token_of_mem_rows {o : Options} {source : String} {r : TreeRow}
    (hr : r ∈ (analyze o source).rows) :
    ∃ t ∈ (collectTokens source).1, t.kind ≠ .endOfText ∧ t.position = r.position := by
  have hposition : r.position ∈ (analyze o source).tree.root.positions := by
    rw [← Tree.map_position_rows]
    exact List.mem_map_of_mem hr
  cases ho : o.mode with
  | lexical =>
    have htree : (analyze o source).tree = .empty := by
      unfold analyze
      rw [ho]
    rw [htree] at hposition
    cases hposition
  | syntactic =>
    cases hparse : (parseText o.tracing source).1 with
    | error e =>
      rw [(analyze_of_error ho hparse).1] at hposition
      cases hposition
    | ok b =>
      obtain ⟨m, hm, htree⟩ := exists_sentence_of_parseText hparse
      rw [(analyze_of_ok ho hparse).1] at hposition
      have hsome : some r.position ∈ b.root.positions.map some := List.mem_map_of_mem hposition
      rw [← Tree.map_position?_nodes] at hsome
      obtain ⟨n, hn, hat⟩ := List.mem_map.mp hsome
      obtain ⟨t, ht, hposition⟩ := htree.exists_token_of_mem_nodes hn
      have hmem := List.mem_of_mem_drop ht
      refine ⟨t, List.mem_of_mem_take hmem, ?_, Option.some_inj.mp (hposition.symm.trans hat)⟩
      intro hk
      apply hm.2.endOfText_notMem
      rw [← hk]
      exact List.mem_map_of_mem hmem

namespace Viewer

/-! ## The entry of the current line -/

/-- A row of one of the two tables. -/
inductive Entry where
  | token (t : Token)
  | node (r : TreeRow)
deriving DecidableEq, Repr

def Entry.position : Entry → Position
  | token t => t.position
  | node r => r.position

/-- The selected row that the source follows: a node if the tree has the focus, otherwise a token.
Where one of the tables is empty, it is a row of the other. -/
def entry? (v : Viewer) : Option Entry :=
  let node := v.rows[v.selectedNode]?.map Entry.node
  let token := v.tokens[v.selectedToken]?.map Entry.token
  match v.focus with
  | .tree => node.or token
  | _ => token.or node

/-- The current line is the line of this entry. -/
theorem currentLine_eq (v : Viewer) :
    v.currentLine = (v.entry?.map fun e => e.position.line).getD 0 := by
  unfold currentLine entry?
  cases v.rows[v.selectedNode]? <;> cases v.tokens[v.selectedToken]? <;> cases v.focus <;> rfl

theorem mem_of_entry? {v : Viewer} {e : Entry} (h : v.entry? = some e) :
    (∃ t ∈ v.tokens, e = .token t) ∨ ∃ r ∈ v.rows, e = .node r := by
  have htoken : v.tokens[v.selectedToken]?.map Entry.token = some e →
      ∃ t ∈ v.tokens, e = .token t := by
    intro h
    obtain ⟨t, ht, rfl⟩ := Option.map_eq_some_iff.mp h
    exact ⟨t, List.mem_of_getElem? ht, rfl⟩
  have hnode : v.rows[v.selectedNode]?.map Entry.node = some e → ∃ r ∈ v.rows, e = .node r := by
    intro h
    obtain ⟨r, hr, rfl⟩ := Option.map_eq_some_iff.mp h
    exact ⟨r, List.mem_of_getElem? hr, rfl⟩
  unfold entry? at h
  cases hfocus : v.focus <;> simp only [hfocus, Option.or_eq_some_iff] at h
  case tree =>
    rcases h with h | ⟨-, h⟩
    · exact .inr (hnode h)
    · exact .inl (htoken h)
  all_goals
    rcases h with h | ⟨-, h⟩
    · exact .inl (htoken h)
    · exact .inr (hnode h)

/-- The source pane has the lines of the text, however it was analysed. -/
theorem sourceLines_ofAnalysis (name : String) (o : Options) (source : String) :
    (Viewer.ofAnalysis name (analyze o source)).sourceLines = Text.lines source := by
  show Text.lines (analyze o source).source = _
  cases ho : o.mode <;> simp [analyze, ho]

/-- The table of tokens lists the tokens of the text, however it was analysed. -/
theorem tokens_ofAnalysis (name : String) (o : Options) (source : String) :
    (Viewer.ofAnalysis name (analyze o source)).tokens = (collectTokens source).1 := by
  show (if (analyze o source).mode = .syntactic ∧ (analyze o source).tokens = [] then
    (collectTokens (analyze o source).source).1 else (analyze o source).tokens) = _
  cases ho : o.mode <;> simp [analyze, ho]

end Viewer

/-- **The viewer's lines are the scanner's.** Of every text, after any keys and drawings: the panes
have the lines, the tokens and the nodes of the text, a node stands where some token of the table
does, and every token but the end of the text is on the line that its position names, among the
lines that the source pane shows, from its column on. So the current line, if the entry that it
follows is a node or such a token, is a line with this entry. -/
theorem viewer_lines (name : String) (o : Options) (source : String)
    (events : List Viewer.Event) :
    let v := (Viewer.ofAnalysis name (analyze o source)).handleAll events
    v.sourceLines = Text.lines source ∧ v.tokens = (collectTokens source).1 ∧
      v.rows = (analyze o source).rows ∧
      (∀ r ∈ v.rows, ∃ t ∈ v.tokens, t.kind ≠ .endOfText ∧ t.position = r.position) ∧
      (∀ t ∈ v.tokens, t.kind ≠ .endOfText →
        Carries (Text.lines source) t.position t.text) ∧
      ∀ e, v.entry? = some e → (∀ t, e = .token t → t.kind ≠ .endOfText) →
        v.currentLine = e.position.line ∧
          ∃ t ∈ v.tokens, t.kind ≠ .endOfText ∧ t.position = e.position ∧
            (∀ t', e = .token t' → t = t') ∧ Carries (Text.lines source) e.position t.text := by
  intro v
  have hsame := (Viewer.ofAnalysis name (analyze o source)).sameContents_handleAll events
  have htokens : v.tokens = (collectTokens source).1 :=
    hsame.tokens.trans (Viewer.tokens_ofAnalysis name o source)
  have hnodes : v.rows = (analyze o source).rows := hsame.rows
  have hcarries : ∀ t ∈ v.tokens, t.kind ≠ .endOfText →
      Carries (Text.lines source) t.position t.text := by
    rw [htokens]
    exact fun t => carries_of_mem_collectTokens
  have hrows : ∀ r ∈ v.rows, ∃ t ∈ v.tokens, t.kind ≠ .endOfText ∧ t.position = r.position := by
    intro r hr
    rw [htokens]
    rw [hnodes] at hr
    exact exists_token_of_mem_rows hr
  have hlines : v.sourceLines = Text.lines source := by
    rw [Viewer.sourceLines, hsame.analysis]
    exact Viewer.sourceLines_ofAnalysis name o source
  refine ⟨hlines, htokens, hnodes, hrows, hcarries, ?_⟩
  intro e he hend
  refine ⟨by rw [v.currentLine_eq, he]; rfl, ?_⟩
  rcases Viewer.mem_of_entry? he with ⟨t, ht, rfl⟩ | ⟨r, hr, rfl⟩
  · have hk := hend t rfl
    exact ⟨t, ht, hk, rfl, fun t' heq => Viewer.Entry.token.inj heq, hcarries t ht hk⟩
  · obtain ⟨t, ht, hk, hat⟩ := hrows r hr
    have hcarried := hcarries t ht hk
    rw [hat] at hcarried
    exact ⟨t, ht, hk, hat, nofun, hcarried⟩

end WhileLang
