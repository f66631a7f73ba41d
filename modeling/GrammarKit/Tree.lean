import GrammarKit.Pipeline
import GrammarKit.Token

/-!
Parse trees: tokens, and nodes that say which rule made them and by which of its alternatives.
-/
namespace GrammarKit

inductive Tree where
  | token (token : Token)
  | node (rule tag : Text) (children : List Tree) (span : Span)

namespace Tree

mutual

def decEq : (t u : Tree) → Decidable (t = u)
  | .token a, .token b => decidable_of_decidable_of_iff (iff_of_eq (Tree.token.injEq a b).symm)
  | .token _, .node .. => isFalse Tree.noConfusion
  | .node .., .token _ => isFalse Tree.noConfusion
  | .node rule tag children span, .node rule' tag' children' span' =>
    have := decEqAll children children'
    decidable_of_decidable_of_iff
      (iff_of_eq (Tree.node.injEq rule tag children span rule' tag' children' span').symm)

def decEqAll : (ts us : List Tree) → Decidable (ts = us)
  | [], [] => isTrue rfl
  | [], u :: us => isFalse (List.cons_ne_nil u us).symm
  | t :: ts, [] => isFalse (List.cons_ne_nil t ts)
  | t :: ts, u :: us =>
    have := decEq t u
    have := decEqAll ts us
    decidable_of_decidable_of_iff (iff_of_eq (List.cons.injEq t ts u us).symm)

end

instance : DecidableEq Tree := decEq

def span : Tree → Span
  | token t => t.span
  | node _ _ _ span => span

def name : Tree → Text
  | token t => t.name
  | node rule _ _ _ => rule

/-- From the start of the first tree to the end of the last; empty at `offset` if there is no
tree. -/
def spanOf (trees : List Tree) (offset : Int) : Span :=
  match trees with
  | [] => .empty offset
  | first :: rest => first.span.through (((first :: rest).getLast?.map span).getD first.span)

def text (tree : Tree) (input : Text) : Text := input.slice tree.span.start tree.span.stop

mutual

def tokens : Tree → List Token
  | .token t => [t]
  | .node _ _ children _ => tokensOf children

def tokensOf : List Tree → List Token
  | [] => []
  | c :: rest => tokens c ++ tokensOf rest

end

mutual

def walk : Tree → Pipeline Tree
  | .token _ => .items []
  | .node rule tag children span =>
    .concat (.items [.node rule tag children span]) (walksOf children)

def walksOf : List Tree → List (Pipeline Tree)
  | [] => []
  | .token _ :: rest => walksOf rest
  | .node rule tag children span :: rest =>
    .concat (.items [.node rule tag children span]) (walksOf children) :: walksOf rest

end

mutual

def render (palette : Palette) : Tree → Text
  | .token t => t.render palette
  | .node rule _ children _ =>
    rule ++ unit '[' :: Text.join (Text.ofString ", ") (renderAll palette children) ++ [unit ']']

def renderAll (palette : Palette) : List Tree → List Text
  | [] => []
  | c :: rest => render palette c :: renderAll palette rest

end

def label (palette : Palette) (sign : String) (rule tag : Text) : Text :=
  Text.ofString sign ++ palette.paint .blue (rule ++ unit ':' :: tag) ++ Text.ofString ">\n"

mutual

def outline (palette : Palette) (indent : Text) : Tree → List Text
  | .token t => [indent ++ t.render palette ++ [unit '\n']]
  | .node rule tag children _ =>
    (indent ++ label palette "<" rule tag) ::
      outlineAll palette (indent ++ Text.ofString "|  ") children ++
      [indent ++ label palette "</" rule tag]

def outlineAll (palette : Palette) (indent : Text) : List Tree → List Text
  | [] => []
  | c :: rest => outline palette indent c ++ outlineAll palette indent rest

end

/-- The indented form. An empty line goes before a tree that stands at the margin. -/
def pretty (palette : Palette) (indent : Text) (tree : Tree) : Text :=
  (if indent.isEmpty then [unit '\n'] else []) ++ (tree.outline palette indent).flatten

end Tree

end GrammarKit
