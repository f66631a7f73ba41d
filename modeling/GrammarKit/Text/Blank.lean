import GrammarKit.Text.Basic

/-!
White space in the wide sense: tab, line feed, vertical tab, form feed, carriage return,
the byte order mark and every space separator, line separator and paragraph separator.
-/
namespace GrammarKit.Text

def isBlank (u : CodeUnit) : Bool :=
  (9 ≤ u && u ≤ 13) || u == 0x20 || u == 0xA0 || u == 0x1680 || (0x2000 ≤ u && u ≤ 0x200A) ||
    u == 0x2028 || u == 0x2029 || u == 0x202F || u == 0x205F || u == 0x3000 || u == 0xFEFF

def trimLeft (t : Text) : Text := t.dropWhile isBlank

def trimRight (t : Text) : Text := (t.reverse.dropWhile isBlank).reverse

end GrammarKit.Text
