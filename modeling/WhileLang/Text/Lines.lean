/-!
# The lines of a text

A line ends with a line feed, which does not belong to it, nor does a carriage return right before
it. The last line may lack its line feed; a text that ends with one has no empty line after it.
-/

namespace WhileLang

namespace Text

/-- The line without the carriage return that may end it. -/
def dropReturn (line : List Char) : List Char :=
  if line.getLast? = some '\r' then line.dropLast else line

/-- The lines of a text whose current line has begun with `line`, its last character first. -/
def linesFrom (line : List Char) : List Char → List (List Char)
  | [] => if line.isEmpty then [] else [line.reverse]
  | c :: cs =>
    if c = '\n' then dropReturn line.reverse :: linesFrom [] cs else linesFrom (c :: line) cs

def lines (text : String) : List String := (linesFrom [] text.toList).map String.ofList

def unlines (lines : List String) : String := String.join (lines.map (· ++ "\n"))

theorem unlines_append (lines lines' : List String) :
    unlines (lines ++ lines') = unlines lines ++ unlines lines' := by
  unfold unlines
  rw [List.map_append, String.join_append]

end Text

end WhileLang
