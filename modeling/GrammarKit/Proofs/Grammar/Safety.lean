import GrammarKit.Grammar.Run
import GrammarKit.Proofs.Parse.Soundness

/-!
Faults are for misuse by a caller, and text is no misuse. Whatever is compiled, tokenized or parsed
ends with an answer or with an error that tells what is wrong with the source or with the input:
names that are pushed are new, references are resolved, token rules do not lead back to themselves,
and a rule that matches leaves its node.
-/
namespace GrammarKit.Grammar

variable {g : Grammar}

theorem Compiled.parse_cases (hg : g.Compiled) (limit : Nat) (start : Text) (input : Input)
    (allowTrailing : Bool) :
    (∃ tree, (g.parser.parse limit start input allowTrailing).1 = .ok tree) ∨
      ∃ e, (g.parser.parse limit start input allowTrailing).1 = .error (.parse e) :=
  Parser.parse_cases hg.tagged limit start input allowTrailing

theorem Compiled.parseText_cases (hg : g.Compiled) (palette : Palette) (start t : Text)
    (allowTrailing : Bool) :
    (∃ tree, (g.parseText palette start t allowTrailing).answer = .ok tree) ∨
      (∃ e, (g.parseText palette start t allowTrailing).answer = .error (.lex e)) ∨
      ∃ e, (g.parseText palette start t allowTrailing).answer = .error (.parse e) := by
  unfold parseText
  cases htokens : (g.tokenizer.run t).result with
  | error e => exact Or.inr (Or.inl ⟨e, by simp only [htokens]⟩)
  | ok tokens =>
    simp only [htokens]
    rcases hg.parse_cases Parser.defaultLimit start (.tokens tokens.toArray) allowTrailing with
      ⟨tree, htree⟩ | ⟨e, he⟩
    · exact Or.inl ⟨tree, htree⟩
    · exact Or.inr (Or.inr ⟨e, he⟩)

/-- Each production has a node type of its own. -/
theorem Compiled.nodeTypes_nodup (hg : g.Compiled) :
    (g.variants.nodeTypes.map NodeType.rule).Nodup := by
  rw [VariantTable.rule_nodeTypes hg.variants]
  exact (List.filter_sublist.map Rule.name).nodup g.rules.nodup

/-- No fault can be reached from text. A source is compiled, or it has a mistake. The grammar
names no node type twice, and with it a text is tokenized or has a place where no token starts,
and an input, text or tokens, is parsed or has an error, from every start and within every limit.
-/
theorem compile_without_fault (source whitespaceName : Text) :
    (∃ e, compile source whitespaceName = .error (.grammar e)) ∨
      ∃ g, compile source whitespaceName = .ok g ∧
        (g.variants.nodeTypes.map NodeType.rule).Nodup ∧
        (∀ t, (∃ tokens, g.tokenizer.tokenize t = .ok tokens) ∨
          ∃ e, g.tokenizer.tokenize t = .error e) ∧
        (∀ limit start input allowTrailing,
          (∃ tree, (g.parser.parse limit start input allowTrailing).1 = .ok tree) ∨
            ∃ e, (g.parser.parse limit start input allowTrailing).1 = .error (.parse e)) ∧
        ∀ palette start t allowTrailing,
          (∃ tree, (g.parseText palette start t allowTrailing).answer = .ok tree) ∨
            (∃ e, (g.parseText palette start t allowTrailing).answer = .error (.lex e)) ∨
            ∃ e, (g.parseText palette start t allowTrailing).answer = .error (.parse e) := by
  rcases compile_cases source whitespaceName with ⟨g, hg, hcompiled⟩ | ⟨e, he⟩
  · refine Or.inr ⟨g, hg, hcompiled.nodeTypes_nodup, ?_, hcompiled.parse_cases,
      hcompiled.parseText_cases⟩
    intro t
    cases htokens : g.tokenizer.tokenize t with
    | ok tokens => exact Or.inl ⟨tokens, rfl⟩
    | error e => exact Or.inr ⟨e, rfl⟩
  · exact Or.inl ⟨e, he⟩

end GrammarKit.Grammar
