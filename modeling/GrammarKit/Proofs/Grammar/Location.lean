import GrammarKit.Proofs.Grammar.Compiled
import GrammarKit.Proofs.Rule.Bounds
import GrammarKit.Proofs.Rule.Vocabulary
import GrammarKit.Proofs.Text.Lines

/-!
Where the mistakes of a source are. A mistake may come up while the source is read, while
definitions are merged or checked, or while rules are sorted and tagged, and each of these names a
place by what it works on. Main statement: whatever stage finds a mistake, the mistake lies in the
source, and the message gives its line and column and shows the line with a caret under the column.
-/
namespace GrammarKit

variable {length : Nat}

namespace Vocabulary

variable {rs : RuleSet}

theorem IsCycle.mem {r : Rule} {path : List Text} (h : IsCycle rs r path) : r ∈ rs.rules := by
  obtain ⟨between, -, -, hchain⟩ := h
  cases between with
  | nil => exact (List.isChain_cons_cons.mp hchain).1.source_mem
  | cons t between => exact (List.isChain_cons_cons.mp hchain).1.source_mem

/-- A cycle is reported at the rule it starts from. -/
theorem ofRules_failsWithin (hrules : ∀ r ∈ rs.rules, r.Within length) :
    FailsWithin length (ofRules rs) := by
  unfold ofRules
  split
  · next path hpath =>
    obtain ⟨first, hcycle⟩ := isCycle_of_cycle? hpath
    have hmem := hcycle.mem
    obtain ⟨between, rfl, -⟩ := hcycle
    refine .of_error ⟨first.span, ?_, (hrules first hmem).span⟩
    exact congrArg (Option.map Rule.span) (RuleSet.get?_of_mem hmem)
  · exact .of_ok _

end Vocabulary

theorem Variant.tagFrom_failsWithin (rule : Text) {alternatives : Alternation} :
    ∀ (index : Nat) (seen : List Text), (∀ a ∈ alternatives, Alternative.Within length a) →
      FailsWithin length (tagFrom rule index seen alternatives) := by
  induction alternatives with
  | nil => exact fun _ _ _ => .of_ok _
  | cons a rest ih =>
    intro index seen h
    rw [List.forall_mem_cons] at h
    simp only [tagFrom]
    split
    · exact .of_error ⟨_, rfl, h.1.span⟩
    · exact .bind (ih _ _ h.2) fun _ _ => .of_ok _

theorem VariantTable.ofRules_failsWithin {rs : RuleSet}
    (hrules : ∀ r ∈ rs.rules, r.Within length) : FailsWithin length (ofRules rs) := by
  refine .bind (.mapM fun r hr => ?_) fun _ _ => .of_ok _
  have hr := (hrules r (List.mem_of_mem_filter hr)).alternatives
  exact .bind (Variant.tagFrom_failsWithin r.name 0 [] hr) fun _ _ => .of_ok _

namespace GrammarError

/-- The message about a mistake in a line, at a column of it: kind, place, rule and wording, then
the line behind its number, and a caret that is as far in as the column is. -/
def messageAt (e : GrammarError) (row column : Nat) (line : Text) : Text :=
  Text.join [unit '\n'] [
    e.kind.name ++ Text.ofString "Error at " ++ Text.placeName row column ++
      (e.rule.map fun rule => Text.ofString " in " ++ rule).getD [] ++
      Text.ofString ": " ++ e.problem.text,
    Text.ofString "  " ++ (Text.lineLabel row ++ line),
    Text.ofString "  " ++
      (List.replicate ((Text.lineLabel row).length + column) (unit '-') ++ [unit '^'])]

variable {e : GrammarError} {source : Text} {span : Span} {row column : Nat}

theorem headline_withSource (hspan : e.span = some span)
    (hlocate : source.locate span.start = ⟨row + 1, column + 1⟩) :
    (e.withSource source).headline =
      e.kind.name ++ Text.ofString "Error at " ++ Text.placeName row column ++
        (e.rule.map fun rule => Text.ofString " in " ++ rule).getD [] ++
        Text.ofString ": " ++ e.problem.text := by
  have hat : Text.ofString "Error at " = Text.ofString "Error" ++ Text.ofString " at " := by decide
  simp only [headline, withSource, hspan, Text.describeOffset_of_locate hlocate, hat,
    ← List.append_assoc]
  cases e.rule with
  | none => rfl
  | some rule => rfl

/-- Once the source is known, the message is about the place where the span starts. -/
theorem message_withSource {line : Text} (hspan : e.span = some span)
    (hlocate : source.locate span.start = ⟨row + 1, column + 1⟩)
    (hline : source.lines[row]? = some line) :
    (e.withSource source).message = e.messageAt row column line := by
  have hexcerpt : (e.withSource source).excerpt =
      (source.excerpt span.start).map (Text.ofString "  " ++ ·) := by
    simp only [excerpt, withSource, hspan]
  rw [message, headline_withSource hspan hlocate, hexcerpt, Text.excerpt_of_locate hlocate hline]
  rfl

end GrammarError

namespace Grammar

theorem eq_error_of_liftGrammar {α : Type} {x : Except GrammarError α} {e : GrammarError}
    (h : liftGrammar x = .error (.grammar e)) : x = .error e := by
  cases x with
  | error e' =>
    cases h
    rfl
  | ok a => cases h

theorem ofRules_within {rs : RuleSet} (hrules : ∀ r ∈ rs.rules, r.Within length) {failure : Failure}
    (h : ofRules rs = .error failure) : failure.Within length := by
  rintro e rfl
  rcases cases_of_bind_eq_error h with h | ⟨v, -, h⟩
  · exact Vocabulary.ofRules_failsWithin hrules e (eq_error_of_liftGrammar h)
  · rcases cases_of_bind_eq_error h with h | ⟨variants, -, h⟩
    · exact VariantTable.ofRules_failsWithin hrules e (eq_error_of_liftGrammar h)
    · generalize assemble rs v variants = assembled at h
      cases assembled with
      | error f => cases h
      | ok g => cases h

variable {source whitespaceName : Text} {failure : Failure}

/-- A compilation fails by a mistake that lies in the source. -/
theorem exists_within_of_compile (h : compile source whitespaceName = .error failure) :
    ∃ e : GrammarError, failure = .grammar (e.withSource source) ∧ e.Within source.length := by
  have hwithin : ∀ failure, (readRules source whitespaceName).bind ofRules = .error failure →
      failure.Within source.length := by
    intro failure hfails
    have hread := readRules_within source whitespaceName
    rcases cases_of_bind_eq_error hfails with hfails | ⟨rs, hrs, hfails⟩
    · exact hread.2 failure hfails
    · exact ofRules_within (hread.1 rs hrs) hfails
  rcases compile_cases source whitespaceName with ⟨g, hg, -⟩ | ⟨e, he⟩
  · rw [h] at hg
    cases hg
  · unfold compile at h he
    generalize (readRules source whitespaceName).bind ofRules = result at h he hwithin
    cases result with
    | ok g => cases h
    | error first =>
      cases h
      cases first with
      | grammar e' => exact ⟨e', rfl, hwithin _ rfl e' rfl⟩
      | lex e' => cases he
      | parse e' => cases he
      | fault f => cases he

/-- A mistake has a span that lies in the source. The line and column in the message are where the
span starts: there is such a line, the column is not past its end, and the lines before and the
column add up to the start. The message shows this line, and a caret under this column. -/
theorem compile_error_located (h : compile source whitespaceName = .error failure) :
    ∃ e span, failure = .grammar e ∧ e.span = some span ∧ span.Within source.length ∧
      ∃ row column line, source.StandsAt span.start.toNat row column line ∧
        failure.message = e.messageAt row column line := by
  obtain ⟨e, rfl, span, hspan, hwithin⟩ := exists_within_of_compile h
  have hstart : (span.start.toNat : Int) = span.start := Int.toNat_of_nonneg hwithin.nonneg
  have hle : span.start.toNat ≤ source.length := by
    have hordered := hwithin.ordered
    have hbounded := hwithin.bounded
    omega
  obtain ⟨row, column, line, hstands, hlocate⟩ := Text.exists_standsAt hle
  rw [hstart] at hlocate
  refine ⟨e.withSource source, span, rfl, hspan, hwithin, row, column, line, hstands, ?_⟩
  exact GrammarError.message_withSource hspan hlocate hstands.line_eq

/-- An escape sequence that lacks a digit, so that it takes in the mark that closes the string. -/
def shortEscape : Text := Text.ofString "a ::= b ;\nb :== 'x#x4' ;"

def shortEscapeMessage : Text := Text.join [unit '\n'] [
  Text.ofString "InvalidEscapeError at 2:9 in b: invalid escape sequence \"#x4'\"",
  Text.ofString "  2: b :== 'x#x4' ;",
  Text.ofString "  -----------^"]

theorem compile_error_located_escape : ∃ failure,
    compile shortEscape (Text.ofString "_") = .error failure ∧
    failure.message = shortEscapeMessage ∧
    ∃ e span, failure = .grammar e ∧ e.span = some span ∧ span.Within shortEscape.length ∧
      ∃ row column line, shortEscape.StandsAt span.start.toNat row column line ∧
        failure.message = e.messageAt row column line := by
  have htest : (((compile shortEscape (Text.ofString "_")).map fun _ => none).tryCatch
      fun failure => .ok (some failure.message)).toOption = some (some shortEscapeMessage) := by
    decide +kernel
  cases hcompile : compile shortEscape (Text.ofString "_") with
  | ok g =>
    rw [hcompile] at htest
    cases htest
  | error failure =>
    rw [hcompile] at htest
    have hmessage := Option.some.inj (Option.some.inj htest)
    exact ⟨failure, rfl, hmessage, compile_error_located hcompile⟩

end Grammar

end GrammarKit
