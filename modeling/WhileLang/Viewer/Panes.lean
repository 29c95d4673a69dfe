import WhileLang.Text.Columns
import WhileLang.Text.Lines
import WhileLang.Analysis.Basic
import WhileLang.Screen.Canvas
import WhileLang.Viewer.Highlight
import WhileLang.Viewer.Scroll

/-!
# The panes of the viewer

The source with its highlighted lines, the table of tokens, the table of the tree, and the status
bar. For each pane there is the offset at which it comes to rest in a given height, and its drawing
at that offset.
-/

namespace WhileLang

/-! ## The source -/

namespace SourcePane

/-- Where the pane comes to rest. Unless the pane has the focus, it follows the current line. -/
def settle (height : Nat) (focused : Bool) (current total offset : Nat) : Nat :=
  let visible := Scroll.visibleLines height
  let offset :=
    if !focused && 0 < current then Scroll.follow offset (current - 1) total visible else offset
  min offset (Scroll.limit total visible)

/-- How a line stands out. -/
inductive Emphasis where
  | none | current | error
deriving DecidableEq, Repr

/-- The line of the error stands out even if it is the current one. -/
def emphasis (current : Nat) (error? : Option Nat) (number : Nat) : Emphasis :=
  if error? = some number then .error
  else if number = current then .current
  else .none

def numberStyle : Emphasis → Style
  | .error => (Style.colored Theme.error).inBold
  | .current => (Style.colored Theme.secondary).inBold
  | .none => .colored Theme.comment

/-- The look of a piece of a line, given its own. -/
def contentStyle (own : Style) : Emphasis → Style
  | .error => (Style.coloredOn .white Theme.error).inBold
  | .current => own.patch (.shaded Theme.currentLine)
  | .none => own

def lineSpans (emphasis : Emphasis) (number : Nat) (line : String) : List Span :=
  ⟨Text.rightAligned 4 (toString number) ++ " ", numberStyle emphasis⟩ ::
    (Highlight.ofLine line).map (fun piece =>
      { piece.span with style := contentStyle piece.span.style emphasis })

def draw (c : Canvas) (a : Area) (lines : List String) (current : Nat) (error? : Option Nat)
    (focused : Bool) (offset : Nat) : Canvas :=
  let visible := (lines.drop offset).take (Scroll.visibleLines a.height)
  let spans := (visible.zipIdx (offset + 1)).map (fun (line, number) =>
    lineSpans (emphasis current error? number) number line)
  (c.frame a " Source " (Theme.frameStyle focused)).writeLines a.inner spans

end SourcePane

/-! ## Tables -/

namespace TablePane

/-- Where a table comes to rest: it follows its selected row. An empty table stays. -/
def settle (height selected total offset : Nat) : Nat :=
  if total = 0 then offset
  else Scroll.follow offset selected total (Scroll.visibleLines height)

/-- Draws a table at an offset, its rows written by `spans`. -/
def draw {α : Type} (c : Canvas) (a : Area) (title emptyText : String) (rows : List α)
    (spans : α → List Span) (selected : Nat) (focused : Bool) (offset : Nat) : Canvas :=
  if rows.isEmpty then
    ((c.shade a (.colored Theme.comment)).frame a title (Theme.frameStyle focused)).writeLine
      (a.inner.row 0) [⟨emptyText, .plain⟩]
  else
    let visible := (rows.drop offset).take (Scroll.visibleLines a.height)
    let framed := c.frame a title (Theme.frameStyle focused)
    let shaded :=
      if offset ≤ selected ∧ selected < offset + visible.length then
        framed.shade (a.inner.row (selected - offset)) Theme.selectedRow
      else
        framed
    shaded.writeLines a.inner (visible.map spans)

end TablePane

namespace TokenPane

def kindStyle (kind : TokenKind) : Style :=
  match kind with
  | .identifier => .colored Theme.text
  | .number => .colored Theme.number
  | .endOfText => .colored Theme.comment
  | .intWord | .boolWord => .colored Theme.typeName
  | kind => if kind.isKeyword then .colored Theme.keyword else .colored Theme.operator

def rowSpans (t : Token) : List Span :=
  [⟨Text.leftAligned 9 t.position.text, .colored Theme.comment⟩,
    ⟨Text.leftAligned 9 t.kind.text, kindStyle t.kind⟩,
    ⟨t.value, .colored Theme.text⟩]

def draw (c : Canvas) (a : Area) (tokens : List Token) (selected : Nat) (focused : Bool)
    (offset : Nat) : Canvas :=
  TablePane.draw c a (" Tokens (" ++ toString tokens.length ++ ") ") "(no tokens)" tokens rowSpans
    selected focused offset

end TokenPane

namespace TreePane

/-- A child's tag; an absent child is grey. -/
def childSpan (tag : String) : Span :=
  ⟨Text.leftAligned 13 tag, .colored (if tag = Tree.nil.tag then Theme.comment else Theme.text)⟩

def rowSpans (r : TreeRow) : List Span :=
  [⟨Text.leftAligned 13 r.kind, .colored Theme.nodeKind⟩,
    ⟨Text.leftAligned 8 r.position.text, .colored Theme.comment⟩,
    childSpan r.child0, childSpan r.child1, childSpan r.child2]

def draw (c : Canvas) (a : Area) (rows : List TreeRow) (selected : Nat) (focused : Bool)
    (offset : Nat) : Canvas :=
  TablePane.draw c a " Syntax Tree (in-order) " "(no tree)" rows rowSpans selected focused offset

end TreePane

/-! ## The status bar -/

namespace StatusBar

/-- A percentage of a width, halves rounded up. -/
def share (percent width : Nat) : Nat := (percent * width + 50) / 100

def messageSpans (message : String) (verdict : Verdict) : List Span :=
  let (badge, ink) := match verdict with
    | .accepted => (Theme.success, Theme.text)
    | .rejected => (Theme.error, Theme.error)
  [⟨" " ++ verdict.text ++ " ", (Style.coloredOn .black badge).inBold⟩,
    ⟨" | ", .coloredOn Theme.comment Theme.currentLine⟩,
    ⟨" " ++ message ++ " ", .coloredOn ink Theme.currentLine⟩]

/-- The keys and what they do. -/
def keySpans : List Span :=
  let key := Style.coloredOn .black Theme.comment
  let use := Style.coloredOn Theme.text Theme.currentLine
  let bar := Style.coloredOn Theme.comment Theme.currentLine
  [⟨" ⇥ ", key⟩, ⟨" pane ", use⟩, ⟨"│", bar⟩, ⟨" ", use⟩, ⟨" ↑/↓ ", key⟩, ⟨" select ", use⟩,
    ⟨"│", bar⟩, ⟨" ", use⟩, ⟨"q", key⟩, ⟨" quit ", use⟩]

/-- Draws the bar: the message on its left three fifths, the keys at the right of the rest. -/
def draw (c : Canvas) (a : Area) (message : String) (verdict : Verdict) : Canvas :=
  let left := share 60 a.width
  let shaded := c.shade a (.shaded Theme.currentLine)
  let written := shaded.writeLine ⟨a.x, a.y, left, a.height⟩ (messageSpans message verdict)
  written.writeLineRight ⟨a.x + left, a.y, a.width - left, a.height⟩ keySpans

end StatusBar

end WhileLang
