import GrammarKit.Error.Fault
import GrammarKit.Error.Grammar
import GrammarKit.Error.Lex
import GrammarKit.Error.Parse

/-!
Every way in which an operation of the library can fail.
-/
namespace GrammarKit

inductive Failure where
  | grammar (error : GrammarError)
  | lex (error : LexError)
  | parse (error : ParseError)
  | fault (fault : Fault)
deriving DecidableEq

def Failure.grammar? : Failure → Option GrammarError
  | grammar e => some e
  | _ => none

def Failure.message : Failure → Text
  | grammar e => e.message
  | lex e => e.message
  | parse e => e.message
  | fault f => f.message

end GrammarKit
