import RegCode.Text.Basic

/-!
# Colours

Pieces of text that a terminal shows in colour. Where colours are off, a piece is written as it is.
-/

namespace RegCode

inductive Paint where
  | label
  | position
  | gutter
  | caret
  | heading
  | success
  deriving DecidableEq, Repr

def escape (attributes : Bytes) : Bytes := txt "\x1b[" ++ attributes ++ txt "m"

namespace Paint

/-- Switches the colours on. -/
def start : Paint → Bytes
  | label => escape (txt "31;1")
  | position => escape (txt "1")
  | gutter => escape (txt "34")
  | caret => escape (txt "32;1")
  | heading => escape (txt "36;1")
  | success => escape (txt "32")

/-- Switches them off, each attribute on its own. -/
def stop : Paint → Bytes
  | label | caret | heading => escape (txt "0;22")
  | position => escape (txt "22")
  | gutter | success => escape (txt "0")

end Paint

structure Style where
  color : Bool
  deriving DecidableEq, Repr

namespace Style

def inline (s : Style) (p : Paint) (b : Bytes) : Bytes :=
  if s.color then p.start ++ b ++ p.stop else b

/-- Text with its newline, behind which everything is switched off. -/
def whole (s : Style) (p : Paint) (b : Bytes) : Bytes :=
  if s.color then p.start ++ b ++ escape (txt "0") else b

end Style

end RegCode
