/-!
# Text in columns

A column has a least width: shorter text is filled up with spaces, longer text is never cut and
runs into the next column. Widths count characters.
-/

namespace WhileLang

namespace Text

/-- The spaces that fill `text` up to `width` characters. -/
def filling (width : Nat) (text : String) : String :=
  String.ofList (List.replicate (width - text.length) ' ')

def leftAligned (width : Nat) (text : String) : String := text ++ filling width text

def rightAligned (width : Nat) (text : String) : String := filling width text ++ text

end Text

end WhileLang
