import WhileLang.Text.Lines
import WhileLang.Analysis.Basic

/-!
# Reports

An analysis is reported as a table: of the tokens, if they were wanted, or of the tree in order.
-/

namespace WhileLang

namespace Report

/-- One line of the table of tokens. -/
def tokenRow (position kind value : String) : String :=
  Text.leftAligned 9 position ++ Text.leftAligned 9 kind ++ Text.leftAligned 8 value

def nodeRow (kind position child0 child1 child2 : String) : String :=
  Text.leftAligned 13 kind ++ Text.leftAligned 8 position ++ Text.leftAligned 13 child0 ++
    Text.leftAligned 13 child1 ++ Text.leftAligned 13 child2

def tokenLine (t : Token) : String := tokenRow t.position.text t.kind.text t.value

def treeLine (r : TreeRow) : String := nodeRow r.kind r.position.text r.child0 r.child1 r.child2

def errorLines (message : String) : List String :=
  ["Error: " ++ message, "Task ended due to error.", ""]

def lexical (name : String) (a : Analysis) : String :=
  Text.unlines
    (["Starting lexical analysis scan on '" ++ name ++ "'...",
        tokenRow "Position" "Kind" "Value"] ++
      a.tokens.map tokenLine ++
      match a.lexError? with
      | some e => errorLines e.message
      | none => ["Lexical scan completed successfully.", ""])

/-- The table of an accepted program's tree. -/
def treeLines (a : Analysis) : List String :=
  ["Abstract Syntax Tree (Using In-Order Traversal):",
    nodeRow "KIND" "POS" "CHILD0" "CHILD1" "CHILD2"] ++ a.rows.map treeLine

/-- The report of a syntactic analysis, with the tree if it is wanted. -/
def syntactic (name : String) (showTree : Bool) (a : Analysis) : String :=
  Text.unlines
    (["Starting syntax analysis scan on '" ++ name ++ "'..."] ++
      (match a.error? with
      | some e => errorLines e.message
      | none =>
        ["Syntax scan completed successfully.", ""] ++ if showTree then treeLines a else []) ++
      ["", "", "   " ++ a.verdict.text, "", ""])

end Report

/-- The report of an analysis, in the form of its mode. -/
def report (o : Options) (name : String) (a : Analysis) : String :=
  match a.mode with
  | .lexical => Report.lexical name a
  | .syntactic => Report.syntactic name o.showTree a

end WhileLang
