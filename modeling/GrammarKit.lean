import GrammarKit.FileTree
import GrammarKit.Journal
import GrammarKit.Main
import GrammarKit.Proofs.Automaton.Language
import GrammarKit.Proofs.Automaton.Fragment
import GrammarKit.Proofs.Automaton.Construction
import GrammarKit.Proofs.Automaton.LongestMatch
import GrammarKit.Proofs.Effect
import GrammarKit.Proofs.Rule.Drafts
import GrammarKit.Proofs.Rule.Acyclic
import GrammarKit.Proofs.Grammar.Compiled
import GrammarKit.Proofs.Parse.Derivation
import GrammarKit.Proofs.Parse.Soundness
import GrammarKit.Proofs.Parse.Exactness
import GrammarKit.Proofs.Grammar.Safety
import GrammarKit.Proofs.Tokenizer.Walk
import GrammarKit.Proofs.Parse.Lockstep
import GrammarKit.Proofs.Grammar.Agreement
import GrammarKit.Proofs.Rule.Numbering
import GrammarKit.Proofs.Tokenizer.Stream
import GrammarKit.Proofs.Grammar.MaximalMunch
import GrammarKit.Proofs.Parse.Composition
import GrammarKit.Proofs.Rule.Variants
import GrammarKit.Proofs.Grammar.ParseTree
import GrammarKit.Proofs.Grammar.Coverage
import GrammarKit.Proofs.Grammar.Nesting
import GrammarKit.Proofs.Parse.LeftRecursion
import GrammarKit.Proofs.Rule.Merging
import GrammarKit.Proofs.Rule.Outcome
import GrammarKit.Proofs.Rule.WellFormed
import GrammarKit.Proofs.Parse.Farthest
import GrammarKit.Proofs.Source.Yield
import GrammarKit.Proofs.Source.Reading
import GrammarKit.Proofs.Source.Acceptance
import GrammarKit.Proofs.Rule.Calls
import GrammarKit.Proofs.Source.Seam
import GrammarKit.Proofs.Source.Moved
import GrammarKit.Proofs.Rule.Bare
import GrammarKit.Proofs.Rule.Embedding
import GrammarKit.Proofs.Rule.Concatenation
import GrammarKit.Proofs.Rule.Insertion
import GrammarKit.Proofs.Automaton.Locality
import GrammarKit.Proofs.Parse.Locality
import GrammarKit.Proofs.Grammar.Noninterference
import GrammarKit.Proofs.Rule.Vocabulary
import GrammarKit.Proofs.Source.Words
import GrammarKit.Proofs.Source.Tiling
import GrammarKit.Proofs.Parse.Failures
import GrammarKit.Proofs.Grammar.Reports
import GrammarKit.Proofs.Pattern.Ranges
import GrammarKit.Proofs.Pattern.Spelling
import GrammarKit.Proofs.Pattern.Characters
import GrammarKit.Proofs.Pattern.Extent
import GrammarKit.Proofs.Pattern.Literal
import GrammarKit.Proofs.Pattern.Charset
import GrammarKit.Proofs.Source.Comments
import GrammarKit.Proofs.Text.Lines
import GrammarKit.Proofs.Source.Docstring
import GrammarKit.Proofs.Pattern.Printing
import GrammarKit.Proofs.Source.Bounds
import GrammarKit.Proofs.Pattern.Bounds
import GrammarKit.Proofs.Rule.Bounds
import GrammarKit.Proofs.Grammar.Location
import GrammarKit.Proofs.Pipeline.Requests
import GrammarKit.Proofs.Parse.Assembly
import GrammarKit.Proofs.Grammar.Whitespace
