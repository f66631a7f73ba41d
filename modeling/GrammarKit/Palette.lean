import GrammarKit.Text.Basic

/-!
Terminal colours. A palette is on or off; when it is off every text stays as it is.
-/
namespace GrammarKit

inductive Colour where
  | black | red | green | yellow | blue | magenta | cyan | white
  | reset | bold | underline | reversed
deriving DecidableEq

def Colour.code : Colour → Nat
  | black => 30
  | red => 31
  | green => 32
  | yellow => 33
  | blue => 34
  | magenta => 35
  | cyan => 36
  | white => 37
  | reset => 0
  | bold => 1
  | underline => 4
  | reversed => 7

def Colour.sequence (colour : Colour) : Text :=
  [0x1B, unit '['] ++ Text.ofNat colour.code ++ [unit 'm']

structure Palette where
  enabled : Bool
deriving DecidableEq

namespace Palette

def paint (palette : Palette) (colour : Colour) (t : Text) : Text :=
  if palette.enabled then colour.sequence ++ t ++ Colour.reset.sequence else t

end Palette

end GrammarKit
