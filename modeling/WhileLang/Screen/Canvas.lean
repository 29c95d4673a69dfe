import WhileLang.Text.Wide
import WhileLang.Screen.Style

/-!
# A screen to draw on

A canvas is a grid of cells. Styles are laid over rectangular areas, lines of text are written
into one row, and blocks are framed areas with a title.
-/

namespace WhileLang

/-- A rectangle of cells, by its left upper corner and its size. -/
structure Area where
  x : Nat
  y : Nat
  width : Nat
  height : Nat
deriving DecidableEq, Repr

namespace Area

def isEmpty (a : Area) : Bool := a.width == 0 || a.height == 0

def intersection (a b : Area) : Area :=
  let x := max a.x b.x
  let y := max a.y b.y
  ⟨x, y, min (a.x + a.width) (b.x + b.width) - x, min (a.y + a.height) (b.y + b.height) - y⟩

def inner (a : Area) : Area := ⟨a.x + 1, a.y + 1, a.width - 2, a.height - 2⟩

/-- One row of the area, counted from its top. -/
def row (a : Area) (n : Nat) : Area := ⟨a.x, a.y + n, a.width, min 1 (a.height - n)⟩

end Area

structure Cell where
  symbol : Char
  style : Style
deriving DecidableEq, Repr

def Cell.blank : Cell := ⟨' ', .plain⟩

/-- A grid of cells, row by row. -/
structure Canvas where
  width : Nat
  height : Nat
  rows : Array (Array Cell)
deriving Repr

namespace Canvas

def blank (width height : Nat) : Canvas :=
  ⟨width, height, Array.replicate height (Array.replicate width .blank)⟩

def area (c : Canvas) : Area := ⟨0, 0, c.width, c.height⟩

/-- Changes one cell; nothing happens outside the screen. -/
def modify (c : Canvas) (x y : Nat) (f : Cell → Cell) : Canvas :=
  { c with rows := c.rows.modify y (·.modify x f) }

/-- Writes a symbol into a cell and lays a style over it. -/
def write (c : Canvas) (x y : Nat) (symbol : Char) (style : Style) : Canvas :=
  c.modify x y (fun cell => ⟨symbol, cell.style.patch style⟩)

def shade (c : Canvas) (a : Area) (style : Style) : Canvas :=
  (List.range a.height).foldl
    (fun c dy =>
      (List.range a.width).foldl
        (fun c dx =>
          c.modify (a.x + dx) (a.y + dy) (fun cell =>
            { cell with style := cell.style.patch style }))
        c)
    c

/-! ## Lines of text -/

/-- What writing a line does to one cell after the other. -/
inductive CellChange where
  | write (symbol : Char) (style : Style)
  /-- The second cell of a wide character is left untouched by all drawing. -/
  | erase
deriving DecidableEq, Repr

/-- The changes that write styled characters into `width` cells. A character that does not fit ends
the line. -/
def lineChanges (width : Nat) : List (Char × Style) → List CellChange
  | [] => []
  | (c, style) :: rest =>
    if Text.cellWidth c ≤ width then
      .write c style :: List.replicate (Text.cellWidth c - 1) .erase ++
        lineChanges (width - Text.cellWidth c) rest
    else
      []

/-- The styled characters of a line. Line feeds are not drawn. -/
def lineCharacters (line : List Span) : List (Char × Style) :=
  line.flatMap (fun span =>
    (span.text.toList.filter (· ≠ '\n')).map (fun c => (c, span.style)))

def apply (c : Canvas) (x y : Nat) : List CellChange → Canvas
  | [] => c
  | .write symbol style :: changes => (c.write x y symbol style).apply (x + 1) y changes
  | .erase :: changes => (c.modify x y (fun _ => .blank)).apply (x + 1) y changes

/-- Writes a line at the left of the first row of an area. -/
def writeLine (c : Canvas) (a : Area) (line : List Span) : Canvas :=
  if a.isEmpty then c else c.apply a.x a.y (lineChanges a.width (lineCharacters line))

/-- Writes a line at the right of the first row of an area; if it is too long, its beginning. -/
def writeLineRight (c : Canvas) (a : Area) (line : List Span) : Canvas :=
  let changes := lineChanges a.width (lineCharacters line)
  if a.isEmpty then c else c.apply (a.x + (a.width - changes.length)) a.y changes

def writeLines (c : Canvas) (a : Area) : List (List Span) → Canvas
  | [] => c
  | line :: lines =>
    (c.writeLine (a.row 0) line).writeLines ⟨a.x, a.y + 1, a.width, a.height - 1⟩ lines

/-! ## Frames -/

/-- The symbol of the frame around an area of the given size, at a place counted from its left
upper corner. In an area of one column or one row, the left and the upper side win. -/
def frameSymbol? (width height x y : Nat) : Option Char :=
  if x = 0 then
    if y = 0 then some '┌' else if y + 1 = height then some '└' else some '│'
  else if x + 1 = width then
    if y = 0 then some '┐' else if y + 1 = height then some '┘' else some '│'
  else if y = 0 ∨ y + 1 = height then some '─'
  else none

/-- Draws a frame around an area, with a title over its upper side. -/
def frame (c : Canvas) (a : Area) (title : String) (style : Style) : Canvas :=
  let framed :=
    (List.range a.height).foldl
      (fun c dy =>
        (List.range a.width).foldl
          (fun c dx =>
            match frameSymbol? a.width a.height dx dy with
            | some symbol => c.write (a.x + dx) (a.y + dy) symbol style
            | none => c)
          c)
      c
  framed.writeLine ⟨a.x + 1, a.y, a.width - 2, a.height⟩ [⟨title, .plain⟩]

/-! ## Reading the screen -/

def lines (c : Canvas) : List String :=
  c.rows.toList.map (fun row => String.ofList (row.toList.map Cell.symbol))

/-- Puts one more style in front of runs of equal styles. -/
def consRun (style : Style) : List (Nat × Style) → List (Nat × Style)
  | (n, first) :: runs =>
    if style = first then (n + 1, first) :: runs else (1, style) :: (n, first) :: runs
  | [] => [(1, style)]

/-- The styles of each row, equal neighbours counted together. -/
def styleRuns (c : Canvas) : List (List (Nat × Style)) :=
  c.rows.toList.map (fun row => (row.toList.map Cell.style).foldr consRun [])

end Canvas

end WhileLang
