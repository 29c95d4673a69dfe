import WhileLang.Viewer.Basic

/-!
# The windows of the viewer

What is selected can always be seen. The selections stay on rows that there are, whatever keys are
pressed, and right after a drawing every table shows its selected row and the source shows the
current line, unless it has the focus (`viewer_settles`).

* `Scroll.shows_follow`, `Scroll.follow_follow`: a window that follows a line shows it, and stays
  where it is when it follows the line again.
* `Viewer.Event`: what happens to a viewer, keys and drawings.
* `Viewer.InRange`: the selections are on rows. Every event keeps it (`InRange.handle`), and so does
  every sequence of events.
* `Viewer.Settled`: what a drawing leaves, for panes of any heights.
-/

namespace WhileLang

/-! ## Windows -/

namespace Scroll

/-- The window of `visible` lines from the offset on shows the selected one of `total` lines, and
goes no further beyond the last line than it must. -/
structure Shows (offset selected total visible : Nat) : Prop where
  offset_le : offset ≤ selected
  lt_offset_add : selected < offset + visible
  le_limit : offset ≤ limit total visible

theorem visibleLines_pos (height : Nat) : 0 < visibleLines height :=
  Nat.lt_of_lt_of_le Nat.one_pos (Nat.le_max_right _ _)

variable {offset selected total visible : Nat}

theorem follow_le_limit : follow offset selected total visible ≤ limit total visible :=
  Nat.min_le_right _ _

/-- The window is not moved if it shows the selected line. -/
theorem Shows.follow_eq (h : Shows offset selected total visible) :
    follow offset selected total visible = offset := by
  have hle := h.offset_le
  have hlt := h.lt_offset_add
  have hreveal : reveal offset selected visible = offset := by
    unfold reveal
    rw [if_neg (by omega), if_neg (by omega)]
  rw [follow, hreveal, Nat.min_eq_left h.le_limit]

/-- A window that follows one of the lines shows it. The window may have to move back, so as not to
go beyond the last line, but not so far that the line leaves it. -/
theorem shows_follow (h : selected < total) (hvisible : 0 < visible) :
    Shows (follow offset selected total visible) selected total visible := by
  refine ⟨?_, ?_, follow_le_limit⟩
  all_goals
    unfold follow reveal limit
    split
    · omega
    · split <;> omega

/-- A window that follows a line below the last one rests at the last lines. -/
theorem follow_of_total_le (h : total ≤ selected) :
    follow offset selected total visible = limit total visible := by
  unfold follow reveal limit
  split
  · omega
  · split <;> omega

/-- A window stays where it is when it follows the same line again. -/
theorem follow_follow (hvisible : 0 < visible) :
    follow (follow offset selected total visible) selected total visible =
      follow offset selected total visible := by
  by_cases h : selected < total
  · exact (shows_follow h hvisible).follow_eq
  · have hbelow : total ≤ selected := Nat.le_of_not_lt h
    rw [follow_of_total_le hbelow, follow_of_total_le hbelow]

end Scroll

open Scroll

namespace TablePane

variable {height selected total offset : Nat}

theorem shows_settle (h : selected < total) :
    Shows (settle height selected total offset) selected total (visibleLines height) := by
  unfold settle
  rw [if_neg (by omega)]
  exact shows_follow h (visibleLines_pos height)

theorem settle_settle :
    settle height selected total (settle height selected total offset) =
      settle height selected total offset := by
  unfold settle
  split
  · rfl
  · exact follow_follow (visibleLines_pos height)

end TablePane

namespace SourcePane

/-- The lines that a source pane of this height shows from an offset on, with their numbers. -/
def shown (height : Nat) (lines : List String) (offset : Nat) : List (String × Nat) :=
  ((lines.drop offset).take (visibleLines height)).zipIdx (offset + 1)

/-- These lines are the ones that are drawn. -/
theorem draw_eq (c : Canvas) (a : Area) (lines : List String) (current : Nat)
    (error? : Option Nat) (focused : Bool) (offset : Nat) :
    draw c a lines current error? focused offset =
      (c.frame a " Source " (Theme.frameStyle focused)).writeLines a.inner
        ((shown a.height lines offset).map fun (line, number) =>
          lineSpans (emphasis current error? number) number line) := rfl

variable {height current total offset : Nat} {focused : Bool}

theorem settle_le_limit :
    settle height focused current total offset ≤ limit total (visibleLines height) :=
  Nat.min_le_right _ _

/-- Without the focus, the pane follows the current line. -/
theorem settle_eq_follow (h : 0 < current) :
    settle height false current total offset =
      follow offset (current - 1) total (visibleLines height) := by
  have hfollows : (!false && decide (0 < current)) = true := by simpa using h
  unfold settle
  dsimp only
  rw [if_pos hfollows]
  exact Nat.min_eq_left follow_le_limit

theorem settle_settle :
    settle height focused current total (settle height focused current total offset) =
      settle height focused current total offset := by
  by_cases h : focused = false ∧ 0 < current
  · obtain ⟨rfl, hcurrent⟩ := h
    rw [settle_eq_follow hcurrent, settle_eq_follow hcurrent]
    exact follow_follow (visibleLines_pos height)
  · have hrests : ¬(!focused && decide (0 < current)) = true := by simpa using h
    have hmin : ∀ n, settle height focused current total n =
        min n (limit total (visibleLines height)) := by
      intro n
      unfold settle
      dsimp only
      rw [if_neg hrests]
    rw [hmin, hmin, Nat.min_assoc, Nat.min_self]

/-- A line in the window is among the lines that are shown. -/
theorem mem_shown {lines : List String} {line : String}
    (h : Shows offset (current - 1) lines.length (visibleLines height)) (hcurrent : 0 < current)
    (hline : lines[current - 1]? = some line) : (line, current) ∈ shown height lines offset := by
  have hle := h.offset_le
  have hlt := h.lt_offset_add
  rw [shown, List.mk_mem_zipIdx_iff_le_and_getElem?_sub]
  refine ⟨by omega, ?_⟩
  rw [List.getElem?_take, if_pos (by omega), List.getElem?_drop,
    show offset + (current - (offset + 1)) = current - 1 by omega]
  exact hline

end SourcePane

namespace Viewer

/-! ## Events -/

/-- What happens to a viewer: a key is pressed, or it is drawn in panes of some heights. -/
inductive Event where
  | key (k : Key)
  | drawing (sourceHeight tokenHeight treeHeight : Nat)
deriving DecidableEq, Repr

def handle (v : Viewer) : Event → Viewer
  | .key k => v.press k
  | .drawing sourceHeight tokenHeight treeHeight => v.settle sourceHeight tokenHeight treeHeight

/-- The viewer after some events, in their order. -/
def handleAll (v : Viewer) (events : List Event) : Viewer := events.foldl handle v

/-- A drawing on a screen moves the windows as panes of the height that is left above the status
bar do, and paints what they show then. -/
theorem draw_eq (v : Viewer) (width height : Nat) :
    v.draw width height =
      let settled := v.handle (.drawing (height - 1) (height - 1) (height - 1))
      (settled, settled.paint width height) := rfl

/-- Two viewers have the same analysis to show, and the same rows in their tables. -/
structure SameContents (v w : Viewer) : Prop where
  analysis : v.analysis = w.analysis
  tokens : v.tokens = w.tokens
  rows : v.rows = w.rows

theorem SameContents.refl (v : Viewer) : v.SameContents v := ⟨rfl, rfl, rfl⟩

theorem SameContents.trans {u v w : Viewer} (h : u.SameContents v) (h' : v.SameContents w) :
    u.SameContents w :=
  ⟨h.analysis.trans h'.analysis, h.tokens.trans h'.tokens, h.rows.trans h'.rows⟩

theorem sameContents_moveUp (v : Viewer) : v.moveUp.SameContents v := by
  unfold moveUp
  split <;> exact ⟨rfl, rfl, rfl⟩

theorem sameContents_moveDown (v : Viewer) : v.moveDown.SameContents v := by
  unfold moveDown
  split
  · exact ⟨rfl, rfl, rfl⟩
  · split <;> exact ⟨rfl, rfl, rfl⟩
  · split <;> exact ⟨rfl, rfl, rfl⟩

theorem sameContents_handle (v : Viewer) (e : Event) : (v.handle e).SameContents v := by
  cases e with
  | drawing => exact ⟨rfl, rfl, rfl⟩
  | key k =>
    show (v.press k).SameContents v
    unfold press
    split
    · exact v.sameContents_moveUp
    · exact v.sameContents_moveDown
    all_goals exact ⟨rfl, rfl, rfl⟩

/-- No event changes what there is to show. -/
theorem sameContents_handleAll (v : Viewer) (events : List Event) :
    (v.handleAll events).SameContents v := by
  induction events generalizing v with
  | nil => exact .refl v
  | cons e events ih => exact (ih (v.handle e)).trans (v.sameContents_handle e)

/-! ## Selections -/

/-- A row of a table of `total` rows is selected, the first one if the table is empty. -/
def OnRow (selected total : Nat) : Prop := selected < total ∨ total = 0 ∧ selected = 0

/-- Both tables have a row selected. -/
structure InRange (v : Viewer) : Prop where
  token : OnRow v.selectedToken v.tokens.length
  node : OnRow v.selectedNode v.rows.length

theorem OnRow.zero (total : Nat) : OnRow 0 total :=
  (Nat.eq_zero_or_pos total).elim (fun h => .inr ⟨h, rfl⟩) .inl

theorem OnRow.pred {selected total : Nat} (h : OnRow selected total) :
    OnRow (selected - 1) total := by
  unfold OnRow at *
  omega

theorem OnRow.lt {selected : Nat} {α : Type} {rows : List α} (h : OnRow selected rows.length)
    (hne : rows ≠ []) : selected < rows.length :=
  h.resolve_right fun hempty => hne (List.length_eq_zero_iff.mp hempty.1)

theorem InRange.ofAnalysis (name : String) (a : Analysis) : (Viewer.ofAnalysis name a).InRange :=
  ⟨.zero _, .zero _⟩

theorem InRange.moveUp {v : Viewer} (h : v.InRange) : v.moveUp.InRange := by
  unfold Viewer.moveUp
  split
  · exact ⟨h.token, h.node⟩
  · exact ⟨h.token.pred, h.node⟩
  · exact ⟨h.token, h.node.pred⟩

theorem InRange.moveDown {v : Viewer} (h : v.InRange) : v.moveDown.InRange := by
  unfold Viewer.moveDown
  split
  · exact ⟨h.token, h.node⟩
  · split
    next hlt => exact ⟨.inl hlt, h.node⟩
    next => exact h
  · split
    next hlt => exact ⟨h.token, .inl hlt⟩
    next => exact h

/-- A drawing leaves the selections alone, and a key moves one of them to a row next to it. -/
theorem InRange.handle {v : Viewer} (h : v.InRange) (e : Event) : (v.handle e).InRange := by
  cases e with
  | drawing => exact ⟨h.token, h.node⟩
  | key k =>
    show (v.press k).InRange
    unfold press
    split
    · exact h.moveUp
    · exact h.moveDown
    all_goals exact ⟨h.token, h.node⟩

theorem InRange.handleAll {v : Viewer} (h : v.InRange) (events : List Event) :
    (v.handleAll events).InRange := by
  induction events generalizing v with
  | nil => exact h
  | cons e events ih => exact ih (h.handle e)

/-! ## Drawings -/

/-- The windows are where a drawing in panes of these heights leaves them. -/
structure Settled (v : Viewer) (sourceHeight tokenHeight treeHeight : Nat) : Prop where
  tokens : v.tokens ≠ [] →
    Shows v.tokenOffset v.selectedToken v.tokens.length (visibleLines tokenHeight)
  tree : v.rows ≠ [] →
    Shows v.treeOffset v.selectedNode v.rows.length (visibleLines treeHeight)
  source : v.sourceOffset ≤ limit v.sourceLines.length (visibleLines sourceHeight)
  /-- Without the focus the source shows the current line, if there is such a line. -/
  current : v.focus ≠ .source → ∀ line, 0 < v.currentLine →
    v.sourceLines[v.currentLine - 1]? = some line →
    (line, v.currentLine) ∈ SourcePane.shown sourceHeight v.sourceLines v.sourceOffset
  /-- The same drawing again moves nothing. -/
  again : v.handle (.drawing sourceHeight tokenHeight treeHeight) = v

theorem settle_settle (v : Viewer) (sourceHeight tokenHeight treeHeight : Nat) :
    (v.settle sourceHeight tokenHeight treeHeight).settle sourceHeight tokenHeight treeHeight =
      v.settle sourceHeight tokenHeight treeHeight := by
  show { v with sourceOffset := _, tokenOffset := _, treeOffset := _ } = v.settle _ _ _
  unfold settle
  congr 1
  · exact SourcePane.settle_settle
  · exact TablePane.settle_settle
  · exact TablePane.settle_settle

/-- What a drawing does is seen pane by pane: none of the three looks at the others. -/
theorem settled_drawing {v : Viewer} (h : v.InRange) (sourceHeight tokenHeight treeHeight : Nat) :
    (v.handle (.drawing sourceHeight tokenHeight treeHeight)).Settled
      sourceHeight tokenHeight treeHeight where
  tokens hne := TablePane.shows_settle (h.token.lt hne)
  tree hne := TablePane.shows_settle (h.node.lt hne)
  source := SourcePane.settle_le_limit
  current hfocus line hcurrent hline := by
    have hoffset : (v.settle sourceHeight tokenHeight treeHeight).sourceOffset =
        follow v.sourceOffset (v.currentLine - 1) v.sourceLines.length
          (visibleLines sourceHeight) := by
      have hsame : v.focus ≠ .source := hfocus
      have hunfocused : (v.focus == .source) = false := by simpa using hsame
      show SourcePane.settle sourceHeight (v.focus == .source) _ _ _ = _
      rw [hunfocused]
      exact SourcePane.settle_eq_follow hcurrent
    have hlt : v.currentLine - 1 < v.sourceLines.length := by
      obtain ⟨hlt, -⟩ := List.getElem?_eq_some_iff.mp hline
      exact hlt
    refine SourcePane.mem_shown ?_ hcurrent hline
    show Shows (v.settle sourceHeight tokenHeight treeHeight).sourceOffset _ _ _
    rw [hoffset]
    exact shows_follow hlt (visibleLines_pos sourceHeight)
  again := settle_settle v sourceHeight tokenHeight treeHeight

end Viewer

/-- **The viewer shows what is selected.** Of every analysis, after any keys and drawings in any
order, in panes of any heights, both selections are on rows. A drawing now, in panes of any heights,
leaves windows that show the selected rows, do not go beyond the last line further than they must,
and show the current line of the source unless the source has the focus; doing it again moves
nothing. -/
theorem viewer_settles (name : String) (a : Analysis) (events : List Viewer.Event) :
    let v := (Viewer.ofAnalysis name a).handleAll events
    v.InRange ∧ ∀ sourceHeight tokenHeight treeHeight,
      (v.handle (.drawing sourceHeight tokenHeight treeHeight)).Settled
        sourceHeight tokenHeight treeHeight := by
  intro v
  have hrange : v.InRange := (Viewer.InRange.ofAnalysis name a).handleAll events
  exact ⟨hrange, Viewer.settled_drawing hrange⟩

end WhileLang
