import WhileLang.Screen.Style

/-!
# The colours of the viewer
-/

namespace WhileLang

namespace Theme

def text : Color := .rgb 0xcdd6f4

def primary : Color := .rgb 0x89b4fa

def secondary : Color := .rgb 0xfab387

/-- Comments, and whatever else steps back. -/
def comment : Color := .rgb 0x6c7086

def success : Color := .rgb 0xa6e3a1

def error : Color := .rgb 0xf38ba8

def keyword : Color := .rgb 0x89b4fa

def number : Color := .rgb 0xfab387

def operator : Color := .rgb 0xf5c2e7

def focusedBorder : Color := .rgb 0xf9e2af

def border : Color := .rgb 0x6c7086

/-- The background of the current line, of selected rows and of the status bar. -/
def currentLine : Color := .rgb 0x323246

def typeName : Color := .rgb 0x94e2d5

def nodeKind : Color := .rgb 0xf9e2af

def frameStyle (focused : Bool) : Style :=
  if focused then (Style.colored focusedBorder).inBold else .colored border

def selectedRow : Style := (Style.shaded currentLine).inBold

end Theme

end WhileLang
