/-!
# Styles of screen cells

A style may name a colour for the text, one for the background, and bold face. `Style.patch` lays
one style over another: it changes what it names and keeps the rest.
-/

namespace WhileLang

inductive Color where
  /-- Red, green and blue in one number, eight bits each. -/
  | rgb (value : Nat)
  | black
  | white
deriving DecidableEq, Repr

/-- The written form: six hexadecimal digits, or a name. -/
def Color.text : Color → String
  | rgb value =>
    let digits := Nat.toDigits 16 value
    "#" ++ String.ofList (List.replicate (6 - digits.length) '0' ++ digits)
  | black => "black"
  | white => "white"

/-- The look of a cell. What is not named is the terminal's own. -/
structure Style where
  foreground? : Option Color
  background? : Option Color
  bold : Bool
deriving DecidableEq, Repr

namespace Style

def plain : Style := ⟨none, none, false⟩

def colored (color : Color) : Style := { plain with foreground? := some color }

def shaded (color : Color) : Style := { plain with background? := some color }

def coloredOn (color background : Color) : Style := ⟨some color, some background, false⟩

def inBold (s : Style) : Style := { s with bold := true }

/-- The style `s` with `top` laid over it. -/
def patch (s top : Style) : Style :=
  ⟨top.foreground?.or s.foreground?, top.background?.or s.background?, s.bold || top.bold⟩

end Style

structure Span where
  text : String
  style : Style
deriving DecidableEq, Repr

end WhileLang
