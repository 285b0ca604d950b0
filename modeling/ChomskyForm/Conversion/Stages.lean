import ChomskyForm.Conversion.EpsilonFree
import ChomskyForm.Conversion.UnitFree
import ChomskyForm.Conversion.Isolated
import ChomskyForm.Conversion.Binary

/-!
# The conversion into Chomsky Normal Form

A grammar with at least one rule and no undefined reference goes through four changes, and each
grammar on the way is kept: epsilon productions go first, then unit productions, then terminals
inside long productions, and at last productions longer than two symbols.
-/

namespace ChomskyForm

/-- The grammars of a conversion in order, and the nonterminals introduced for terminals. -/
structure Stages where
  initial : Grammar
  epsilonFree : Grammar
  unitFree : Grammar
  isolated : Grammar
  binary : Grammar
  mapping : TerminalMapping
deriving DecidableEq

def Stages.titled (stages : Stages) : List (String × Grammar) :=
  [("Original grammar", stages.initial),
   ("After removing epsilon productions", stages.epsilonFree),
   ("After removing unit productions", stages.unitFree),
   ("After isolating terminals", stages.isolated),
   ("After binarizing long productions", stages.binary)]

namespace Grammar

/-- Refuses a grammar without rules, and one that uses a nonterminal without defining it. -/
def checkComplete (grammar : Grammar) : Except ConversionError Unit :=
  if grammar.keys = [] then .error .emptyGrammar
  else
    match grammar.undefinedReferences.head? with
    | some (referrer, symbol) => .error (.undefinedNonterminal symbol referrer)
    | none => .ok ()

/-- Removes the epsilon productions. On request, a nullable start symbol gets an empty start. -/
def toEpsilonFree (grammar : Grammar) (keepEmptyStart : Bool) : Except ConversionError Grammar :=
  let nullable := grammar.nullable
  let reduced := grammar.removeEpsilon nullable
  if keepEmptyStart ∧ grammar.start?.any (· ∈ nullable) then reduced.addEmptyStart.map Prod.snd
  else .ok reduced

def convert (grammar : Grammar) (keepEmptyStart : Bool) : Except ConversionError Stages := do
  grammar.checkComplete
  let epsilonFree ← grammar.toEpsilonFree keepEmptyStart
  let unitFree := epsilonFree.removeUnits
  let (mapping, outcome) := unitFree.isolateTerminals .empty
  let isolated ← outcome
  let binary ← isolated.binarize
  return { initial := grammar, epsilonFree, unitFree, isolated, binary, mapping }

end Grammar

end ChomskyForm
