import WhileLang.Viewer.Panes

/-!
# The viewer

The viewer shows one analysed text in three panes. Keys move the focus between the panes, scroll
the source and select rows of the tables; drawing moves the windows so that they show what is
selected (`Viewer.settle`) and then paints them (`Viewer.paint`).
-/

namespace WhileLang

/-- The panes that can have the focus. -/
inductive Pane where
  | source | tokens | tree
deriving DecidableEq, Repr

namespace Pane

/-- The pane to the right, around the edge. -/
def next : Pane → Pane
  | source => tokens
  | tokens => tree
  | tree => source

def previous : Pane → Pane
  | source => tree
  | tokens => source
  | tree => tokens

end Pane

inductive Key where
  | up | down | tab | backTab | escape
  | character (c : Char)
  /-- A key that the viewer has no use for. -/
  | other
deriving DecidableEq, Repr

structure Viewer where
  name : String
  analysis : Analysis
  tokens : List Token
  rows : List TreeRow
  focus : Pane
  selectedToken : Nat
  selectedNode : Nat
  sourceOffset : Nat
  tokenOffset : Nat
  treeOffset : Nat
  quitting : Bool
deriving DecidableEq, Repr

namespace Viewer

/-- The viewer of an analysis. A syntactic analysis keeps no tokens, so they are read again. -/
def ofAnalysis (name : String) (a : Analysis) : Viewer where
  name
  analysis := a
  tokens := if a.mode = .syntactic ∧ a.tokens = [] then (collectTokens a.source).1 else a.tokens
  rows := a.rows
  focus := .tokens
  selectedToken := 0
  selectedNode := 0
  sourceOffset := 0
  tokenOffset := 0
  treeOffset := 0
  quitting := false

/-! ## What the panes show -/

def sourceLines (v : Viewer) : List String := Text.lines v.analysis.source

/-- The line of the selected row, counted from one, or zero if there is none. The tree counts first
if it has the focus, otherwise the tokens do. -/
def currentLine (v : Viewer) : Nat :=
  let nodeLine := v.rows[v.selectedNode]?.map (·.position.line)
  let tokenLine := v.tokens[v.selectedToken]?.map (·.position.line)
  (match v.focus with
    | .tree => nodeLine.or tokenLine
    | _ => tokenLine.or nodeLine).getD 0

/-- The line of the error that ended the analysis. -/
def errorLine? (v : Viewer) : Option Nat := v.analysis.error?.map (·.position.line)

def statusMessage (v : Viewer) : String :=
  v.name ++ ": " ++
    match v.analysis.error? with
    | some e => e.message
    | none => toString v.tokens.length ++ " tokens, " ++ toString v.rows.length ++ " nodes"

/-! ## Keys -/

def moveUp (v : Viewer) : Viewer :=
  match v.focus with
  | .source => { v with sourceOffset := v.sourceOffset - 1 }
  | .tokens => { v with selectedToken := v.selectedToken - 1 }
  | .tree => { v with selectedNode := v.selectedNode - 1 }

/-- One row down. The source may be scrolled beyond its end until it is drawn. -/
def moveDown (v : Viewer) : Viewer :=
  match v.focus with
  | .source => { v with sourceOffset := v.sourceOffset + 1 }
  | .tokens =>
    if v.selectedToken + 1 < v.tokens.length then
      { v with selectedToken := v.selectedToken + 1 }
    else
      v
  | .tree =>
    if v.selectedNode + 1 < v.rows.length then { v with selectedNode := v.selectedNode + 1 }
    else v

def press (v : Viewer) : Key → Viewer
  | .up => v.moveUp
  | .down => v.moveDown
  | .tab => { v with focus := v.focus.next }
  | .backTab => { v with focus := v.focus.previous }
  | .escape | .character 'q' | .character 'Q' => { v with quitting := true }
  | .character _ | .other => v

/-! ## Drawing -/

/-- Moves the windows of panes of the given heights to where they come to rest. -/
def settle (v : Viewer) (sourceHeight tokenHeight treeHeight : Nat) : Viewer :=
  { v with
    sourceOffset :=
      SourcePane.settle sourceHeight (v.focus == .source) v.currentLine v.sourceLines.length
        v.sourceOffset
    tokenOffset := TablePane.settle tokenHeight v.selectedToken v.tokens.length v.tokenOffset
    treeOffset := TablePane.settle treeHeight v.selectedNode v.rows.length v.treeOffset }

/-- Where the panes and the status bar are on the screen. -/
structure Layout where
  source : Area
  tokens : Area
  tree : Area
  status : Area
deriving DecidableEq, Repr

/-- The status bar takes the last row. Above it the source has two fifths of the width, the tokens
a quarter and the tree the rest. -/
def layout (width height : Nat) : Layout :=
  let left := StatusBar.share 40 width
  let right := StatusBar.share 65 width
  let above := height - 1
  { source := ⟨0, 0, left, above⟩
    tokens := ⟨left, 0, right - left, above⟩
    tree := ⟨right, 0, width - right, above⟩
    status := ⟨0, above, width, min height 1⟩ }

/-- Paints the panes and the status bar on an untouched screen. -/
def paint (v : Viewer) (width height : Nat) : Canvas :=
  let places := layout width height
  let withSource :=
    SourcePane.draw (.blank width height) places.source v.sourceLines v.currentLine v.errorLine?
      (v.focus == .source) v.sourceOffset
  let withTokens :=
    TokenPane.draw withSource places.tokens v.tokens v.selectedToken (v.focus == .tokens)
      v.tokenOffset
  let withTree :=
    TreePane.draw withTokens places.tree v.rows v.selectedNode (v.focus == .tree) v.treeOffset
  StatusBar.draw withTree places.status v.statusMessage v.analysis.verdict

/-- Draws the viewer on a screen: the state afterwards and what is seen. -/
def draw (v : Viewer) (width height : Nat) : Viewer × Canvas :=
  let places := layout width height
  let settled := v.settle places.source.height places.tokens.height places.tree.height
  (settled, settled.paint width height)

end Viewer

end WhileLang
