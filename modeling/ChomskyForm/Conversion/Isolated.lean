import ChomskyForm.Conversion.Fresh

/-!
# Grammars whose terminals stand alone

Inside a production longer than one symbol, each terminal gives way to a nonterminal that has this
terminal as its only alternative. Which nonterminal stands for which terminal is recorded.
-/

namespace ChomskyForm

/-- The nonterminal that stands for each isolated terminal, in the order of isolation. -/
abbrev TerminalMapping := OrderedMap Symbol Symbol

/-- Replaces the mapped symbols of a production that has a terminal and more than one symbol. -/
def Production.isolate (mapping : TerminalMapping) (production : Production) : Production :=
  if 1 < production.length ∧ production.hasTerminal then
    production.map fun symbol => (mapping.get? symbol).getD symbol
  else production

namespace Grammar

/-- The terminals inside productions longer than one symbol, in order and with repetitions. -/
def longTerminals (grammar : Grammar) : List Symbol :=
  (grammar.rightSides.filter (1 < ·.length)).flatten.filter Symbol.isTerminal

/-- Introduces a nonterminal for each terminal that the mapping lacks. When the pool runs out, the
mapping keeps what was recorded until then. -/
def isolateEach (grammar : Grammar) (mapping : TerminalMapping) :
    List Symbol → TerminalMapping × Except ConversionError Grammar
  | [] => (mapping, .ok grammar)
  | terminal :: rest =>
      if terminal ∈ mapping.keys then grammar.isolateEach mapping rest
      else
        match grammar.introduce [[terminal]] with
        | .error fault => (mapping, .error fault)
        | .ok (fresh, extended) => extended.isolateEach (mapping.insert terminal fresh) rest

/-- The extended mapping, with the grammar in which it has been carried out. -/
def isolateTerminals (grammar : Grammar) (mapping : TerminalMapping) :
    TerminalMapping × Except ConversionError Grammar :=
  let (extended, outcome) := grammar.isolateEach mapping grammar.longTerminals
  (extended, outcome.map fun grown =>
    grown.mapAlternatives fun _ right => right.map (Production.isolate extended))

end Grammar

end ChomskyForm
