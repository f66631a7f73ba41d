import GrammarKit.Text.Basic

/-!
Text in double quotes, the way messages show it. A quote and a backslash get a backslash,
control characters and lone surrogates are written as escapes, all else stands for itself.
-/
namespace GrammarKit.Text

def unitEscape (u : CodeUnit) : Text :=
  [unit '\\', unit 'u'] ++ padLeft (unit '0') 4 (digits 16 u.toNat)

/-- How a unit that is no half of a pair is written between quotes. -/
def quotedUnit (u : CodeUnit) : Text :=
  if u = unit '"' then [unit '\\', unit '"']
  else if u = unit '\\' then [unit '\\', unit '\\']
  else if u = 8 then [unit '\\', unit 'b']
  else if u = 9 then [unit '\\', unit 't']
  else if u = 10 then [unit '\\', unit 'n']
  else if u = 12 then [unit '\\', unit 'f']
  else if u = 13 then [unit '\\', unit 'r']
  else if u < 0x20 || CodeUnit.isSurrogate u then unitEscape u
  else [u]

def quotedBody : Text → Text
  | [] => []
  | [u] => quotedUnit u
  | u :: v :: r =>
    if CodeUnit.isHighSurrogate u && CodeUnit.isLowSurrogate v then u :: v :: quotedBody r
    else quotedUnit u ++ quotedBody (v :: r)

def quoted (t : Text) : Text := unit '"' :: quotedBody t ++ [unit '"']

end GrammarKit.Text
