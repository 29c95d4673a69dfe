/-!
# Scrolling

A pane shows a window of its lines. The window is moved no further than needed to keep the
selected line in it, and never beyond the last line.
-/

namespace WhileLang

namespace Scroll

/-- The number of lines that a framed pane of this height shows; at least one is counted. -/
def visibleLines (height : Nat) : Nat := max (height - 2) 1

/-- The last offset at which the window is full. -/
def limit (total visible : Nat) : Nat := total - visible

/-- The offset, moved so that a window of `visible` lines shows the selected one. -/
def reveal (offset selected visible : Nat) : Nat :=
  if selected < offset then selected
  else if offset + visible ≤ selected then selected + 1 - visible
  else offset

/-- The offset of a table of `total` rows with a selected row. -/
def follow (offset selected total visible : Nat) : Nat :=
  min (reveal offset selected visible) (limit total visible)

end Scroll

end WhileLang
