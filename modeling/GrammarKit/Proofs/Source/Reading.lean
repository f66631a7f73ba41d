import GrammarKit.Proofs.Effect
import GrammarKit.Proofs.Source.Yield

/-!
The reader takes exactly the lexemes that spell what it reads. What it takes off a row of lexemes
spells the part it gives back, whatever number of steps it is given. Conversely it reads a part off
any row that starts with lexemes that spell the part, as long as something follows that can stand
behind it and there are four steps for each lexeme and four more.
-/
namespace GrammarKit.Source

namespace Reader

section Taking

variable {ctx : Context} {kind : Lexeme.Kind} {what : Expectation} {rest after : List Lexeme}

theorem accept_none (h : accept kind rest = (none, after)) : after = rest := by
  unfold accept at h
  split at h
  · cases h
    rfl
  · split at h
    · cases h
    · cases h
      rfl

theorem accept_some {l : Lexeme} (h : accept kind rest = (some l, after)) :
    rest = l :: after ∧ l.kind = kind := by
  unfold accept at h
  split at h
  · cases h
  · split at h
    · next hkind =>
      cases h
      exact ⟨rfl, hkind⟩
    · cases h

theorem accept_of_kind {l : Lexeme} (h : l.kind = kind) (more : List Lexeme) :
    accept kind (l :: more) = (some l, more) := if_pos h

theorem accept_of_ne {l : Lexeme} (h : l.kind ≠ kind) (more : List Lexeme) :
    accept kind (l :: more) = (none, l :: more) := if_neg h

theorem demand_ok {l : Lexeme} (h : demand ctx kind what rest = .ok (l, after)) :
    rest = l :: after ∧ l.kind = kind := by
  unfold demand at h
  split at h
  · next haccept =>
    cases h
    exact accept_some haccept
  · cases h

theorem demand_of_kind {l : Lexeme} (h : l.kind = kind) (more : List Lexeme) :
    demand ctx kind what (l :: more) = .ok (l, more) := by
  rw [demand, accept_of_kind h]

/-- The docstring in front, if there is one, is taken. -/
theorem accept_doc (rest : List Lexeme) :
    rest = (accept .doc rest).1.toList ++ (accept .doc rest).2 ∧
      (accept .doc rest).1.toList.map Lexeme.content =
        docYield ((accept .doc rest).1.map Lexeme.text) := by
  cases haccept : accept .doc rest with
  | mk doc after =>
    cases doc with
    | none => exact ⟨(accept_none haccept).symm, rfl⟩
    | some l =>
      obtain ⟨hrest, hkind⟩ := accept_some haccept
      refine ⟨hrest, ?_⟩
      simp [docYield, Lexeme.content, hkind]

/-- Lexemes that spell a docstring are taken where no other docstring follows. -/
theorem accept_docs {doc : Option Text} {docs : List Lexeme}
    (h : docs.map Lexeme.content = docYield doc) {l : Lexeme} (hl : l.kind ≠ .doc)
    (more : List Lexeme) : ∃ taken : Option Lexeme, docs = taken.toList ∧
      taken.map Lexeme.text = doc ∧ accept .doc (docs ++ l :: more) = (taken, l :: more) := by
  cases doc with
  | none =>
    have hnil : docs = [] := List.map_eq_nil_iff.mp h
    subst hnil
    exact ⟨none, rfl, rfl, accept_of_ne hl more⟩
  | some text =>
    obtain ⟨d, rfl, hd⟩ := List.map_eq_singleton_iff.mp h
    refine ⟨some d, rfl, ?_, accept_of_kind (congrArg Prod.fst hd) _⟩
    exact congrArg some (congrArg Prod.snd hd)

end Taking

/-- The quantifier of an item is the sign behind its singular. -/
theorem quantifier?_eq_some {kind : Lexeme.Kind} {quantifier : Quantifier} :
    quantifier? kind = some quantifier ↔ quantifier.kind? = some kind := by
  cases kind <;> cases quantifier <;> simp [quantifier?, Quantifier.kind?]

theorem quantified_spelled {inner : Singular} {first : List Lexeme} (hinner : inner.Spelled first)
    (rest : List Lexeme) :
    ∃ signs, rest = signs ++ (quantified inner rest).2 ∧
      Item.Spelled (quantified inner rest).1 (first ++ signs) := by
  have hone : Item.Spelled ⟨inner, .one, inner.span⟩ (first ++ []) := by
    simp only [Item.Spelled, List.append_nil]
    exact ⟨hinner.spans, first, [], (List.append_nil _).symm, hinner, rfl⟩
  unfold quantified
  split
  · exact ⟨[], rfl, hone⟩
  · next l more =>
    split
    · next quantifier hquantifier =>
      refine ⟨[l], rfl, ?_⟩
      simp only [Item.Spelled]
      refine ⟨hinner.spans.append (.single l), first, [l], rfl, hinner, ?_⟩
      rw [quantifier?_eq_some.mp hquantifier]
      rfl
    · exact ⟨[], rfl, hone⟩

theorem alternativeName_spelled {ctx : Context} {named : Bool} {rest after : List Lexeme}
    {name : Option Lexeme} (h : alternativeName ctx named rest = .ok (name, after)) :
    (named || (name.map Lexeme.text).isNone) = true ∧
      ∃ names, rest = names ++ after ∧ NameSpelled (name.map Lexeme.text) names ∧
        names.getLast? = name := by
  unfold alternativeName at h
  split at h
  · next haccept =>
    cases h
    exact ⟨by simp, [], (accept_none haccept).symm, rfl, rfl⟩
  · next arrow rest' haccept =>
    obtain ⟨rfl, harrow⟩ := accept_some haccept
    split at h
    · next hnamed =>
      obtain ⟨⟨symbol, after'⟩, hdemand, hanswer⟩ := exists_of_bind_eq_ok h
      obtain ⟨rfl, hsymbol⟩ := demand_ok hdemand
      cases hanswer
      refine ⟨by simp [hnamed], [arrow, symbol], rfl, ⟨arrow, symbol, rfl, harrow, ?_⟩, rfl⟩
      rw [Lexeme.content, hsymbol]
    · cases h

/-- The items of a body cover what it is spelled by. -/
theorem spans_body : ∀ {rest : List (Item Singular)} {i : Item Singular} {ls : List Lexeme},
    Body.Spelled (i :: rest) ls →
      Lexeme.Spans ls (i.span.through ((rest.getLast?.map Item.span).getD i.span)) := by
  intro rest
  induction rest with
  | nil =>
    intro i ls h
    simp only [Body.Spelled] at h
    obtain ⟨first, others, rfl, hfirst, rfl⟩ := h
    rw [List.append_nil]
    exact hfirst.spans
  | cons j rest ih =>
    intro i ls h
    rw [Body.Spelled] at h
    obtain ⟨first, others, rfl, hfirst, hothers⟩ := h
    have hspans := hfirst.spans.append (ih hothers)
    rw [List.getLast?_cons]
    cases hlast : rest.getLast? with
    | none =>
      rw [hlast] at hspans
      exact hspans
    | some k =>
      rw [hlast] at hspans
      exact hspans

/-- An alternative is spelled by its docstring, its items and its name, one after the other. -/
theorem assemble_spelled {doc name : Option Lexeme} {i : Item Singular} {others : Body}
    {inside names : List Lexeme}
    (hdoc : doc.toList.map Lexeme.content = docYield (doc.map Lexeme.text))
    (hinside : Body.Spelled (i :: others) inside)
    (hnames : NameSpelled (name.map Lexeme.text) names) (hlast : names.getLast? = name) :
    Alternative.Spelled (assemble doc i others name) (doc.toList ++ (inside ++ names)) := by
  have hbody := spans_body hinside
  have hnamed : Lexeme.Spans (inside ++ names) (i.span.through
      ((name.map Lexeme.span).getD ((others.getLast?.map Item.span).getD i.span))) := by
    cases name with
    | none =>
      rw [Option.map_none, NameSpelled] at hnames
      rw [hnames, List.append_nil]
      exact hbody
    | some l =>
      obtain ⟨arrow, symbol, rfl, -⟩ := hnames
      have hsame : symbol = l := by simpa using hlast
      subst hsame
      have hall := hbody.append (Lexeme.Spans.append (.single arrow) (.single symbol))
      exact hall
  unfold assemble
  simp only [Alternative.Spelled]
  refine ⟨?_, doc.toList, inside, names, rfl, hdoc, hinside, hnames⟩
  cases doc with
  | none => exact hnamed
  | some l =>
    have hall := Lexeme.Spans.append (.single l) hnamed
    exact hall

mutual

/-- What is taken off the lexemes spells what is read. -/
theorem alternation_spelled (ctx : Context) (named : Bool) : ∀ (n : Nat) {rest after : List Lexeme}
    {alternatives : Alternation}, alternation ctx named n rest = .ok (alternatives, after) →
      alternatives.isEmpty = false ∧ Alternation.isProper named alternatives = true ∧
        ∃ taken, rest = taken ++ after ∧ Alternation.Spelled alternatives taken
  | 0, rest, after, alternatives, h => by
    simp only [alternation] at h
    cases h
  | n + 1, rest, after, alternatives, h => by
    simp only [alternation] at h
    obtain ⟨⟨a, middle⟩, hread, hnext⟩ := exists_of_bind_eq_ok h
    obtain ⟨ha, first, rfl, hfirst⟩ := alternative_spelled ctx named n hread
    simp only at hnext
    split at hnext
    · next haccept =>
      cases hnext
      rw [accept_none haccept]
      refine ⟨rfl, ?_, first, rfl, ?_⟩
      · simp only [Alternation.isProper, ha, Bool.and_self]
      · simpa only [Alternation.Spelled] using hfirst
    · next bar middle' haccept =>
      obtain ⟨rfl, hbar⟩ := accept_some haccept
      obtain ⟨⟨others, last⟩, hothers, hanswer⟩ := exists_of_bind_eq_ok hnext
      obtain ⟨hne, hproper, taken, rfl, hspelled⟩ := alternation_spelled ctx named n hothers
      cases hanswer
      refine ⟨rfl, ?_, first ++ bar :: taken, by simp, ?_⟩
      · simp only [Alternation.isProper, ha, hproper, Bool.and_self]
      · cases others with
        | nil => cases hne
        | cons b others =>
          simp only [Alternation.Spelled]
          exact ⟨first, bar, taken, rfl, hfirst, hbar, hspelled⟩

theorem alternative_spelled (ctx : Context) (named : Bool) : ∀ (n : Nat) {rest after : List Lexeme}
    {a : Alternative (Item Singular)}, alternative ctx named n rest = .ok (a, after) →
      Alternative.isProper named a = true ∧
        ∃ taken, rest = taken ++ after ∧ Alternative.Spelled a taken
  | 0, rest, after, a, h => by
    simp only [alternative] at h
    cases h
  | n + 1, rest, after, a, h => by
    simp only [alternative] at h
    obtain ⟨⟨items, middle⟩, hitems, hnext⟩ := exists_of_bind_eq_ok h
    obtain ⟨hproper, inside, htaken, hinside⟩ := body_spelled ctx n hitems
    obtain ⟨hrest, hdoc⟩ := accept_doc rest
    simp only at hnext
    split at hnext
    · cases hnext
    · next i others =>
      obtain ⟨⟨name, last⟩, hname, hanswer⟩ := exists_of_bind_eq_ok hnext
      obtain ⟨hnamed, names, rfl, hnames, hlast⟩ := alternativeName_spelled hname
      cases hanswer
      refine ⟨?_, _, ?_, assemble_spelled hdoc hinside hnames hlast⟩
      · simp only [assemble, Alternative.isProper, hnamed, hproper, List.isEmpty_cons,
          Bool.not_false, Bool.and_self]
      · rw [htaken] at hrest
        rw [List.append_assoc, List.append_assoc]
        exact hrest

theorem body_spelled (ctx : Context) : ∀ (n : Nat) {rest after : List Lexeme} {items : Body},
    body ctx n rest = .ok (items, after) →
      Body.isProper items = true ∧ ∃ taken, rest = taken ++ after ∧ Body.Spelled items taken
  | 0, rest, after, items, h => by
    simp only [body] at h
    cases h
  | n + 1, [], after, items, h => by
    simp only [body] at h
    cases h
    exact ⟨rfl, [], rfl, rfl⟩
  | n + 1, l :: rest, after, items, h => by
    simp only [body] at h
    split at h
    · obtain ⟨⟨inner, middle⟩, hinner, h⟩ := exists_of_bind_eq_ok h
      obtain ⟨hproper, first, hfirst, hspelled⟩ := singular_spelled ctx n hinner
      obtain ⟨signs, hsigns, hitem⟩ := quantified_spelled hspelled middle
      obtain ⟨⟨others, last⟩, hothers, h⟩ := exists_of_bind_eq_ok h
      obtain ⟨hproper', taken, htaken, hspelled'⟩ := body_spelled ctx n hothers
      cases h
      refine ⟨?_, (first ++ signs) ++ taken, ?_, ?_⟩
      · have hkept : Item.isProper (quantified inner middle).1 = true := by
          unfold quantified
          split
          · exact hproper
          · split
            · exact hproper
            · exact hproper
        simp only [Body.isProper, hkept, hproper', Bool.and_self]
      · rw [hfirst, hsigns, htaken, List.append_assoc, List.append_assoc]
      · simp only [Body.Spelled]
        exact ⟨first ++ signs, taken, rfl, hitem, hspelled'⟩
    · cases h
      exact ⟨rfl, [], rfl, rfl⟩

theorem singular_spelled (ctx : Context) : ∀ (n : Nat) {rest after : List Lexeme} {x : Singular},
    singular ctx n rest = .ok (x, after) →
      x.isProper = true ∧ ∃ taken, rest = taken ++ after ∧ x.Spelled taken
  | 0, rest, after, x, h => by
    simp only [singular] at h
    cases h
  | n + 1, [], after, x, h => by
    simp only [singular] at h
    cases h
  | n + 1, l :: rest, after, x, h => by
    have hone : ∀ {kind : Lexeme.Kind}, l.kind = kind → [l].map Lexeme.content = [(kind, l.text)] :=
      fun hkind => by rw [List.map_singleton, Lexeme.content, hkind]
    simp only [singular] at h
    split at h
    · next hopening =>
      obtain ⟨⟨alternatives, middle⟩, halternatives, hnext⟩ := exists_of_bind_eq_ok h
      obtain ⟨⟨closing, last⟩, hdemand, hanswer⟩ := exists_of_bind_eq_ok hnext
      obtain ⟨hne, hproper, inside, rfl, hinside⟩ := alternation_spelled ctx false n halternatives
      obtain ⟨rfl, hclosing⟩ := demand_ok hdemand
      cases hanswer
      refine ⟨?_, l :: (inside ++ [closing]), by simp, ?_⟩
      · simp only [Singular.isProper, hne, hproper, Bool.not_false, Bool.and_self]
      · simp only [Singular.Spelled]
        refine ⟨⟨l, closing, rfl, by simp [List.getLast?_cons], rfl⟩, l, inside, closing, rfl,
          hopening, hinside, hclosing⟩
    · next hkind =>
      cases h
      refine ⟨rfl, [l], rfl, ?_⟩
      simp only [Singular.Spelled]
      exact ⟨.single l, hone hkind⟩
    · next hkind =>
      cases h
      refine ⟨rfl, [l], rfl, ?_⟩
      simp only [Singular.Spelled]
      exact ⟨.single l, hone hkind⟩
    · next hkind =>
      cases h
      refine ⟨rfl, [l], rfl, ?_⟩
      simp only [Singular.Spelled]
      exact ⟨.single l, hone hkind⟩
    · next hkind =>
      cases h
      refine ⟨rfl, [l], rfl, ?_⟩
      simp only [Singular.Spelled]
      exact ⟨.single l, hone hkind⟩
    · cases h

end

/-- What follows, if anything, is of a kind that may follow. -/
def Followed (allowed : Lexeme.Kind → Bool) (rest : List Lexeme) : Prop :=
  ∀ l ∈ rest.head?, allowed l.kind = true

def endsAlternation (kind : Lexeme.Kind) : Bool := kind = .closeGroup || kind = .semicolon

def endsAlternative (kind : Lexeme.Kind) : Bool := endsAlternation kind || kind = .bar

def endsBody (kind : Lexeme.Kind) : Bool := endsAlternative kind || kind = .arrow

def endsItem (kind : Lexeme.Kind) : Bool := endsBody kind || startsSingular kind

theorem Followed.mono {allowed other : Lexeme.Kind → Bool} {rest : List Lexeme}
    (h : Followed allowed rest) (hle : ∀ kind, allowed kind = true → other kind = true) :
    Followed other rest := fun l hl => hle _ (h l hl)

theorem Followed.cons {allowed : Lexeme.Kind → Bool} {l : Lexeme} (h : allowed l.kind = true)
    (rest : List Lexeme) : Followed allowed (l :: rest) := by
  intro l' hl'
  cases hl'
  exact h

theorem accept_of_followed {allowed : Lexeme.Kind → Bool} {kind : Lexeme.Kind}
    {rest : List Lexeme} (h : Followed allowed rest) (hkind : allowed kind = false) :
    accept kind rest = (none, rest) := by
  cases rest with
  | nil => rfl
  | cons l rest =>
    refine accept_of_ne (fun heq => ?_) rest
    have hl := h l rfl
    rw [heq, hkind] at hl
    cases hl

theorem singular_exists_cons {x : Singular} {ls : List Lexeme} (h : x.Spelled ls) :
    ∃ l others, ls = l :: others ∧ startsSingular l.kind = true := by
  cases x with
  | group alternatives span =>
    simp only [Singular.Spelled] at h
    obtain ⟨-, opening, inside, closing, rfl, hopening, -⟩ := h
    exact ⟨opening, _, rfl, by rw [hopening]; rfl⟩
  | symbol text span | literal text span | charset text span | escape text span =>
    simp only [Singular.Spelled] at h
    obtain ⟨l, rfl, hl⟩ := List.map_eq_singleton_iff.mp h.2
    refine ⟨l, [], rfl, ?_⟩
    have hkind : l.kind = _ := congrArg Prod.fst hl
    rw [hkind]
    rfl

theorem item_exists_cons {i : Item Singular} {ls : List Lexeme} (h : Item.Spelled i ls) :
    ∃ l others, ls = l :: others ∧ startsSingular l.kind = true := by
  obtain ⟨inner, quantifier, span⟩ := i
  simp only [Item.Spelled] at h
  obtain ⟨-, first, signs, rfl, hfirst, -⟩ := h
  obtain ⟨l, others, rfl, hl⟩ := singular_exists_cons hfirst
  exact ⟨l, others ++ signs, rfl, hl⟩

/-- Behind an item stands another, or what ends the body. -/
theorem followed_body {items : Body} {ls rest : List Lexeme} (h : Body.Spelled items ls)
    (hrest : Followed endsBody rest) : Followed endsItem (ls ++ rest) := by
  cases items with
  | nil =>
    simp only [Body.Spelled] at h
    subst h
    exact hrest.mono fun kind hkind => by rw [endsItem, hkind, Bool.true_or]
  | cons i others =>
    simp only [Body.Spelled] at h
    obtain ⟨first, more, rfl, hfirst, -⟩ := h
    obtain ⟨l, tail, rfl, hl⟩ := item_exists_cons hfirst
    exact .cons (by rw [endsItem, hl, Bool.or_true]) _

theorem quantified_of_spelled {inner : Singular} {quantifier : Quantifier} {span : Span}
    {first signs rest : List Lexeme} (h : Item.Spelled ⟨inner, quantifier, span⟩ (first ++ signs))
    (hinner : inner.Spelled first) (hsigns : signs.map Lexeme.kind = quantifier.kind?.toList)
    (hrest : Followed endsItem rest) :
    quantified inner (signs ++ rest) = (⟨inner, quantifier, span⟩, rest) := by
  have hspans : Lexeme.Spans (first ++ signs) span := Item.Spelled.spans h
  cases hkind : quantifier.kind? with
  | none =>
    rw [hkind] at hsigns
    have hnil : signs = [] := List.map_eq_nil_iff.mp hsigns
    subst hnil
    have hone : quantifier = .one := by
      cases quantifier with
      | one => rfl
      | maybe | any | many => cases hkind
    subst hone
    rw [List.append_nil] at hspans
    rw [hspans.unique hinner.spans, List.nil_append]
    unfold quantified
    split
    · rfl
    · next l more =>
      have hnone : quantifier? l.kind = none := by
        have hl := hrest l rfl
        revert hl
        cases l.kind <;> simp [endsItem, endsBody, endsAlternative, endsAlternation,
          startsSingular, quantifier?]
      rw [hnone]
  | some kind =>
    rw [hkind] at hsigns
    obtain ⟨l, rfl, hl⟩ := List.map_eq_singleton_iff.mp hsigns
    have hquantifier : quantifier? l.kind = some quantifier := by
      rw [hl]
      exact quantifier?_eq_some.mpr hkind
    rw [hspans.unique (hinner.spans.append (.single l)), List.singleton_append]
    simp only [quantified, hquantifier]

theorem alternativeName_of_spelled (ctx : Context) {named : Bool} {name : Option Text}
    {names rest : List Lexeme} (h : NameSpelled name names)
    (hnamed : (named || name.isNone) = true) (hrest : Followed endsAlternative rest) :
    alternativeName ctx named (names ++ rest) = .ok (names.getLast?, rest) ∧
      names.getLast?.map Lexeme.text = name := by
  cases name with
  | none =>
    rw [NameSpelled] at h
    subst h
    rw [List.nil_append, alternativeName, accept_of_followed hrest rfl]
    exact ⟨rfl, rfl⟩
  | some name =>
    obtain ⟨arrow, symbol, rfl, harrow, hsymbol⟩ := h
    have htrue : named = true := by simpa using hnamed
    have hdemand : demand ctx .symbol .alternativeName (symbol :: rest) = .ok (symbol, rest) :=
      demand_of_kind (congrArg Prod.fst hsymbol) rest
    refine ⟨?_, congrArg some (congrArg Prod.snd hsymbol)⟩
    rw [List.cons_append, List.singleton_append, alternativeName, accept_of_kind harrow]
    simp only [htrue, if_true, hdemand]
    rfl

/-- Behind the items of an alternative stands its name, or what ends the alternative. -/
theorem followed_name {name : Option Text} {names rest : List Lexeme}
    (h : NameSpelled name names) (hrest : Followed endsAlternative rest) :
    Followed endsBody (names ++ rest) := by
  cases name with
  | none =>
    rw [NameSpelled] at h
    subst h
    exact hrest.mono fun kind hkind => by rw [endsBody, hkind, Bool.true_or]
  | some name =>
    obtain ⟨arrow, symbol, rfl, harrow, -⟩ := h
    exact .cons (by rw [harrow]; rfl) _

mutual

/-- A part is read off any row that starts with what spells it, if the row goes on with something
that can follow. -/
theorem alternation_of_spelled (ctx : Context) (named : Bool) :
    ∀ (alternatives : Alternation) {taken rest : List Lexeme} {n : Nat},
    Alternation.Spelled alternatives taken → alternatives.isEmpty = false →
    Alternation.isProper named alternatives = true → 4 * taken.length + 4 ≤ n →
    Followed endsAlternation rest →
    alternation ctx named n (taken ++ rest) = .ok (alternatives, rest)
  | [], _, _, _, _, hne, _, _, _ => nomatch hne
  | [a], taken, rest, n, h, _, hproper, hsteps, hrest => by
    obtain ⟨n, rfl⟩ : ∃ m, n = m + 1 := ⟨n - 1, by omega⟩
    simp only [Alternation.Spelled] at h
    simp only [Alternation.isProper, Bool.and_true] at hproper
    have hends : Followed endsAlternative rest :=
      hrest.mono fun kind hkind => by rw [endsAlternative, hkind, Bool.true_or]
    have hread := alternative_of_spelled ctx named a h hproper (n := n) (by omega) hends
    simp only [alternation, hread]
    show (match accept .bar rest with
      | (none, rest) => _
      | (some _, rest) => _) = _
    rw [accept_of_followed hrest rfl]
  | a :: b :: others, taken, rest, n, h, _, hproper, hsteps, hrest => by
    obtain ⟨n, rfl⟩ : ∃ m, n = m + 1 := ⟨n - 1, by omega⟩
    simp only [Alternation.Spelled] at h
    obtain ⟨first, bar, more, rfl, hfirst, hbar, hmore⟩ := h
    rw [Alternation.isProper, Bool.and_eq_true] at hproper
    rw [List.length_append, List.length_cons] at hsteps
    have hread := alternative_of_spelled ctx named a hfirst hproper.1 (n := n) (by omega)
      (.cons (by rw [hbar]; rfl) (more ++ rest))
    have hothers := alternation_of_spelled ctx named (b :: others) hmore rfl hproper.2 (n := n)
      (by omega) hrest
    rw [List.append_assoc, List.cons_append]
    simp only [alternation, hread]
    show (match accept .bar (bar :: (more ++ rest)) with
      | (none, rest) => _
      | (some _, rest) => _) = _
    rw [accept_of_kind hbar]
    show (alternation ctx named n (more ++ rest) >>= _) = _
    rw [hothers]
    rfl

theorem alternative_of_spelled (ctx : Context) (named : Bool) :
    ∀ (a : Alternative (Item Singular)) {taken rest : List Lexeme} {n : Nat},
    Alternative.Spelled a taken → Alternative.isProper named a = true →
    4 * taken.length + 3 ≤ n → Followed endsAlternative rest →
    alternative ctx named n (taken ++ rest) = .ok (a, rest)
  | ⟨doc, name, items, span⟩, taken, rest, n, h, hproper, hsteps, hrest => by
    obtain ⟨n, rfl⟩ : ∃ m, n = m + 1 := ⟨n - 1, by omega⟩
    simp only [Alternative.Spelled] at h
    obtain ⟨hspans, docs, inside, names, rfl, hdocs, hinside, hnames⟩ := h
    simp only [Alternative.isProper, Bool.and_eq_true, Bool.not_eq_true'] at hproper
    obtain ⟨⟨hnamed, hne⟩, hbody⟩ := hproper
    simp only [List.length_append] at hsteps
    have hitems := body_of_spelled ctx items hinside hbody (n := n) (by omega)
      (followed_name hnames hrest)
    obtain ⟨hname, htext⟩ := alternativeName_of_spelled ctx hnames hnamed hrest
    cases items with
    | nil => cases hne
    | cons i others =>
      obtain ⟨l, tail, htail, hl⟩ : ∃ l tail, inside ++ (names ++ rest) = l :: tail ∧
          startsSingular l.kind = true := by
        have hfirst := hinside
        simp only [Body.Spelled] at hfirst
        obtain ⟨first, more, rfl, hfirst, -⟩ := hfirst
        obtain ⟨l, tail, rfl, hl⟩ := item_exists_cons hfirst
        exact ⟨l, _, rfl, hl⟩
      obtain ⟨taken, rfl, hdoc, haccept⟩ := accept_docs hdocs (l := l)
        (fun hkind => by rw [hkind] at hl; cases hl) tail
      have hassemble : Alternative.Spelled (assemble taken i others names.getLast?)
          (taken.toList ++ (inside ++ names)) :=
        assemble_spelled (by rw [hdoc]; exact hdocs) hinside (by rw [htext]; exact hnames) rfl
      simp only [assemble, Alternative.Spelled] at hassemble
      rw [hspans.unique hassemble.1, ← hdoc, ← htext]
      rw [← htail] at haccept
      rw [List.append_assoc, List.append_assoc]
      simp only [alternative, haccept, hitems]
      show (alternativeName ctx named (names ++ rest) >>= _) = _
      rw [hname]
      rfl

theorem body_of_spelled (ctx : Context) :
    ∀ (items : List (Item Singular)) {taken rest : List Lexeme} {n : Nat},
    Body.Spelled items taken → Body.isProper items = true → 4 * taken.length + 2 ≤ n →
    Followed endsBody rest → body ctx n (taken ++ rest) = .ok (items, rest)
  | [], taken, rest, n, h, _, hsteps, hrest => by
    obtain ⟨n, rfl⟩ : ∃ m, n = m + 1 := ⟨n - 1, by omega⟩
    simp only [Body.Spelled] at h
    subst h
    cases rest with
    | nil => rfl
    | cons l rest =>
      have hl : startsSingular l.kind = false := by
        have hends := hrest l rfl
        revert hends
        cases l.kind <;> simp [endsBody, endsAlternative, endsAlternation, startsSingular]
      simp only [List.nil_append, body, hl]
      rfl
  | ⟨inner, quantifier, span⟩ :: others, taken, rest, n, h, hproper, hsteps, hrest => by
    obtain ⟨n, rfl⟩ : ∃ m, n = m + 1 := ⟨n - 1, by omega⟩
    simp only [Body.Spelled] at h
    obtain ⟨first, more, rfl, hitem, hmore⟩ := h
    simp only [Body.isProper, Item.isProper, Bool.and_eq_true] at hproper
    have hfirst := hitem
    simp only [Item.Spelled] at hfirst
    obtain ⟨-, ls, signs, rfl, hinner, hsigns⟩ := hfirst
    have hquantified :=
      quantified_of_spelled hitem hinner hsigns (followed_body hmore hrest)
    have hlength := List.length_pos_iff.mpr hinner.spans.ne_nil
    simp only [List.length_append] at hsteps
    have hread := singular_of_spelled ctx inner hinner hproper.1 (signs ++ (more ++ rest))
      (n := n) (by omega)
    have hothers := body_of_spelled ctx others hmore hproper.2 (n := n) (by omega) hrest
    obtain ⟨l, tail, rfl, hl⟩ := singular_exists_cons hinner
    rw [List.cons_append] at hread
    rw [List.append_assoc, List.append_assoc, List.cons_append]
    simp only [body, hl, if_true, hread]
    show (body ctx n (quantified inner (signs ++ (more ++ rest))).2 >>= _) = _
    rw [hquantified, hothers]
    rfl

theorem singular_of_spelled (ctx : Context) :
    ∀ (x : Singular) {taken : List Lexeme} {n : Nat}, x.Spelled taken → x.isProper = true →
    ∀ rest, 4 * taken.length + 1 ≤ n → singular ctx n (taken ++ rest) = .ok (x, rest)
  | .group alternatives span, taken, n, h, hproper, rest, hsteps => by
    obtain ⟨n, rfl⟩ : ∃ m, n = m + 1 := ⟨n - 1, by omega⟩
    simp only [Singular.Spelled] at h
    obtain ⟨hspans, opening, inside, closing, rfl, hopening, hinside, hclosing⟩ := h
    simp only [Singular.isProper, Bool.and_eq_true, Bool.not_eq_true'] at hproper
    simp only [List.length_cons, List.length_append, List.length_nil] at hsteps
    have hread := alternation_of_spelled ctx false alternatives hinside hproper.1 hproper.2
      (n := n) (by omega) (.cons (by rw [hclosing]; rfl) rest)
    have hspan : span = opening.span.through closing.span :=
      hspans.unique ⟨opening, closing, rfl, by simp [List.getLast?_cons], rfl⟩
    rw [List.cons_append, List.append_assoc, List.singleton_append, hspan]
    simp only [singular, hopening, hread]
    show (demand ctx .closeGroup .endOfGroup (closing :: rest) >>= _) = _
    rw [demand_of_kind hclosing]
    rfl
  | .symbol text span, taken, n, h, _, rest, hsteps
  | .literal text span, taken, n, h, _, rest, hsteps
  | .charset text span, taken, n, h, _, rest, hsteps
  | .escape text span, taken, n, h, _, rest, hsteps => by
    obtain ⟨n, rfl⟩ : ∃ m, n = m + 1 := ⟨n - 1, by omega⟩
    simp only [Singular.Spelled] at h
    obtain ⟨hspans, hcontent⟩ := h
    obtain ⟨l, rfl, hl⟩ := List.map_eq_singleton_iff.mp hcontent
    have hkind : l.kind = _ := congrArg Prod.fst hl
    have htext : l.text = text := congrArg Prod.snd hl
    rw [hspans.unique (.single l), ← htext, List.singleton_append]
    simp only [singular, hkind]

end

section Definitions

variable {sourceLength n : Nat} {rest after ls : List Lexeme}

theorem definitionKind_spelled {ctx : Context} {kind : DefinitionKind}
    (h : definitionKind ctx rest = .ok (kind, after)) :
    ∃ sign, rest = sign :: after ∧ sign.kind = kind.lexemeKind := by
  unfold definitionKind at h
  split at h
  · next sign after' haccept =>
    cases h
    exact ⟨sign, accept_some haccept⟩
  · next rest' haccept =>
    split at h
    · next sign after' htoken =>
      cases h
      rw [← accept_none haccept]
      exact ⟨sign, accept_some htoken⟩
    · cases h

theorem definitionKind_of_spelled {ctx : Context} {kind : DefinitionKind} {sign : Lexeme}
    (h : sign.kind = kind.lexemeKind) (rest : List Lexeme) :
    definitionKind ctx (sign :: rest) = .ok (kind, rest) := by
  cases kind with
  | production => rw [definitionKind, accept_of_kind (show sign.kind = .production from h)]
  | token =>
    have hne : sign.kind ≠ .production := fun heq => by
      rw [h] at heq
      cases heq
    have htoken : sign.kind = .tokenRule := h
    simp only [definitionKind, accept_of_ne hne, accept_of_kind htoken]

theorem definition_spelled {d : Definition} (h : definition sourceLength rest = .ok (d, after)) :
    d.isProper = true ∧ ∃ taken, rest = taken ++ after ∧ d.Spelled taken := by
  obtain ⟨hrest, hdoc⟩ := accept_doc rest
  simp only [definition] at h
  obtain ⟨⟨name, middle⟩, hname, hnext⟩ := exists_of_bind_eq_ok h
  obtain ⟨⟨kind, middle'⟩, hkind, hnext'⟩ := exists_of_bind_eq_ok hnext
  obtain ⟨⟨alternatives, last⟩, halternatives, hend⟩ := exists_of_bind_eq_ok hnext'
  obtain ⟨⟨semicolon, last'⟩, hsemicolon, hanswer⟩ := exists_of_bind_eq_ok hend
  obtain ⟨hmiddle, hsymbol⟩ := demand_ok hname
  obtain ⟨sign, hsign, hsignKind⟩ := definitionKind_spelled hkind
  obtain ⟨hne, hproper, inside, hinside, hspelled⟩ := alternation_spelled _ _ _ halternatives
  obtain ⟨hlast, hclosing⟩ := demand_ok hsemicolon
  simp only at hmiddle hsign hinside hlast
  rw [hmiddle, hsign, hinside, hlast] at hrest
  cases hanswer
  refine ⟨?_, (accept .doc rest).1.toList ++ name :: sign :: (inside ++ [semicolon]), ?_, ?_, ?_⟩
  · simp only [Definition.isProper, hne, hproper, Bool.not_false, Bool.and_self]
  · simpa using hrest
  · refine ⟨(accept .doc rest).1.getD name, semicolon, ?_, ?_, rfl⟩
    · cases (accept .doc rest).1 <;> rfl
    · simp [List.getLast?_append, List.getLast?_cons]
  · refine ⟨_, name, sign, inside, semicolon, rfl, hdoc, ?_, hsignKind, hspelled, hclosing⟩
    rw [Lexeme.content, hsymbol]

/-- A definition is read off any row that starts with what spells it. -/
theorem definition_of_spelled {d : Definition} {taken : List Lexeme} (h : d.Spelled taken)
    (hproper : d.isProper = true) (rest : List Lexeme) :
    definition sourceLength (taken ++ rest) = .ok (d, rest) := by
  obtain ⟨doc, text, kind, alternatives, span⟩ := d
  obtain ⟨hspans, docs, name, sign, inside, semicolon, rfl, hdocs, hname, hsign, hinside,
    hsemicolon⟩ := h
  simp only [Definition.isProper, Bool.and_eq_true, Bool.not_eq_true'] at hproper
  simp only at hspans hdocs hname hsign hinside
  have hsymbol : name.kind = .symbol := congrArg Prod.fst hname
  have htext : name.text = text := congrArg Prod.snd hname
  obtain ⟨taken, rfl, hdoc, haccept⟩ := accept_docs hdocs (l := name)
    (fun hkind => by rw [hsymbol] at hkind; cases hkind) (sign :: (inside ++ semicolon :: rest))
  have hspan : span = (taken.getD name).span.through semicolon.span := by
    refine hspans.unique ⟨taken.getD name, semicolon, ?_, ?_, rfl⟩
    · cases taken <;> rfl
    · simp [List.getLast?_append, List.getLast?_cons]
  have hread := alternation_of_spelled ⟨some name.text, sourceLength⟩ (kind = .production)
    alternatives hinside hproper.1 hproper.2 (n := steps (inside ++ semicolon :: rest))
    (by simp only [steps, List.length_append]; omega)
    (.cons (by rw [hsemicolon]; rfl) rest)
  have hrow : taken.toList ++ name :: sign :: (inside ++ [semicolon]) ++ rest =
      taken.toList ++ name :: sign :: (inside ++ semicolon :: rest) := by simp
  rw [hrow, hspan, ← hdoc, ← htext]
  simp only [definition, haccept, demand_of_kind hsymbol]
  show (definitionKind _ (sign :: (inside ++ semicolon :: rest)) >>= _) = _
  rw [definitionKind_of_spelled hsign]
  show (alternation _ _ _ (inside ++ semicolon :: rest) >>= _) = _
  rw [hread]
  show (demand _ _ _ (semicolon :: rest) >>= _) = _
  rw [demand_of_kind hsemicolon]
  rfl

/-- What may stand behind the last definition: nothing, or a docstring that belongs to none. -/
def Trailing (rest : List Lexeme) : Prop := rest = [] ∨ ∃ doc, rest = [doc] ∧ doc.kind = .doc

theorem definitions_of_trailing (h : Trailing rest) :
    definitions sourceLength n rest = .ok [] := by
  cases n with
  | zero => rfl
  | succ n =>
    obtain rfl | ⟨doc, rfl, hdoc⟩ := h
    · rfl
    · rw [definitions, if_pos ⟨hdoc, rfl⟩]

/-- What does not end the source starts with a definition. -/
theorem definitions_of_not_trailing (h : ¬Trailing rest) :
    definitions sourceLength (n + 1) rest = (do
      let (first, rest) ← definition sourceLength rest
      let others ← definitions sourceLength n rest
      .ok (first :: others)) := by
  cases rest with
  | nil => exact absurd (.inl rfl) h
  | cons l rest =>
    rw [definitions, if_neg]
    rintro ⟨hdoc, rfl⟩
    exact h (.inr ⟨l, rfl, hdoc⟩)

theorem not_trailing_of_definition {d : Definition}
    (h : definition sourceLength rest = .ok (d, after)) : ¬Trailing rest := by
  obtain ⟨-, taken, rfl, -, docs, name, sign, inside, semicolon, rfl, -⟩ := definition_spelled h
  rintro (hnil | ⟨doc, hdoc, -⟩)
  · simp at hnil
  · have hlength := congrArg List.length hdoc
    simp only [List.length_append, List.length_cons, List.length_nil] at hlength
    omega

theorem length_lt_of_definition {d : Definition}
    (h : definition sourceLength rest = .ok (d, after)) : after.length < rest.length := by
  obtain ⟨-, taken, rfl, hspans, -⟩ := definition_spelled h
  have hlength := List.length_pos_iff.mpr hspans.ne_nil
  rw [List.length_append]
  omega

/-- A limit that no row of definitions can reach does not matter. -/
theorem definitions_of_le (h : ls.length ≤ n) :
    definitions sourceLength n ls = definitions sourceLength ls.length ls := by
  induction hlength : ls.length using Nat.strongRecOn generalizing ls n with
  | _ length ih =>
    by_cases htrailing : Trailing ls
    · rw [definitions_of_trailing htrailing, definitions_of_trailing htrailing]
    · obtain ⟨length, rfl⟩ : ∃ m, length = m + 1 := by
        cases ls with
        | nil => exact absurd (.inl rfl) htrailing
        | cons l rest => exact ⟨rest.length, hlength.symm⟩
      obtain ⟨n, rfl⟩ : ∃ m, n = m + 1 := ⟨n - 1, by omega⟩
      rw [definitions_of_not_trailing htrailing, definitions_of_not_trailing htrailing]
      cases hread : definition sourceLength ls with
      | error e => rfl
      | ok answer =>
        have hshorter := length_lt_of_definition hread
        show (definitions sourceLength n answer.2 >>= _) =
          (definitions sourceLength length answer.2 >>= _)
        rw [ih answer.2.length (by omega) (n := n) (by omega) rfl,
          ih answer.2.length (by omega) (n := length) (by omega) rfl]

theorem definitions_spelled {ds : List Definition} (hlength : ls.length ≤ n)
    (h : definitions sourceLength n ls = .ok ds) :
    (∀ d ∈ ds, d.isProper = true) ∧
      ∃ taken rest, ls = taken ++ rest ∧ Spelled ds taken ∧ Trailing rest := by
  induction n generalizing ls ds with
  | zero =>
    cases h
    exact ⟨nofun, [], ls, rfl, rfl, .inl (List.length_eq_zero_iff.mp (by omega))⟩
  | succ n ih =>
    by_cases htrailing : Trailing ls
    · rw [definitions_of_trailing htrailing] at h
      cases h
      exact ⟨nofun, [], ls, rfl, rfl, htrailing⟩
    · rw [definitions_of_not_trailing htrailing] at h
      obtain ⟨⟨d, after⟩, hread, hnext⟩ := exists_of_bind_eq_ok h
      obtain ⟨others, hothers, hanswer⟩ := exists_of_bind_eq_ok hnext
      have hshorter := length_lt_of_definition hread
      obtain ⟨hproper, first, rfl, hfirst⟩ := definition_spelled hread
      obtain ⟨hall, taken, rest, hafter, htaken, hrest⟩ := ih (by simp only at *; omega) hothers
      cases hanswer
      refine ⟨List.forall_mem_cons.mpr ⟨hproper, hall⟩, first ++ taken, rest, ?_,
        ⟨first, taken, rfl, hfirst, htaken⟩, hrest⟩
      rw [hafter, List.append_assoc]

/-- Definitions are read off any row that starts with what spells them, and then the rest is. -/
theorem definitions_append {ds : List Definition} {taken : List Lexeme} (h : Spelled ds taken)
    (hproper : ∀ d ∈ ds, d.isProper = true) (rest : List Lexeme)
    (hlength : (taken ++ rest).length ≤ n) :
    definitions sourceLength n (taken ++ rest) =
      (definitions sourceLength rest.length rest).map (ds ++ ·) := by
  induction ds generalizing taken n with
  | nil =>
    rw [Spelled] at h
    subst h
    rw [List.nil_append] at hlength ⊢
    rw [definitions_of_le hlength]
    cases definitions sourceLength rest.length rest <;> rfl
  | cons d ds ih =>
    obtain ⟨first, others, rfl, hfirst, hothers⟩ := h
    rw [List.append_assoc] at hlength ⊢
    have hread : definition sourceLength (first ++ (others ++ rest)) = .ok (d, others ++ rest) :=
      definition_of_spelled hfirst (hproper d List.mem_cons_self) (others ++ rest)
    have hshorter := length_lt_of_definition hread
    obtain ⟨n, rfl⟩ : ∃ m, n = m + 1 := ⟨n - 1, by omega⟩
    rw [definitions_of_not_trailing (not_trailing_of_definition hread), hread]
    show (definitions sourceLength n (others ++ rest) >>= _) = _
    rw [ih hothers (fun d hd => hproper d (List.mem_cons_of_mem _ hd)) (by omega)]
    cases definitions sourceLength rest.length rest <;> rfl

end Definitions

end Reader

end GrammarKit.Source
