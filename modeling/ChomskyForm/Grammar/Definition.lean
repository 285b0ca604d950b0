import ChomskyForm.Grammar.Basic

/-!
# Defining a grammar step by step

A grammar is described by declarations that name symbols by characters and write alternatives as
texts. The first declaration at fault decides, and a chosen start symbol must be defined in the end.
-/

namespace ChomskyForm

inductive DefinitionError
  | invalidSymbol (c : Char)
  | expectedNonterminal (c : Char)
  | misplacedEpsilon (alternative : List Char)
  | emptyProduction
  | unknownStart (c : Char)
deriving DecidableEq

def DefinitionError.message : DefinitionError → String
  | invalidSymbol c => "`" ++ c.toString ++ "' is not a grammar symbol"
  | expectedNonterminal c => "`" ++ c.toString ++ "' is not a nonterminal"
  | misplacedEpsilon alternative =>
      "`$' must be the only content of an alternative: `" ++ String.ofList alternative ++ "'"
  | emptyProduction => "empty alternative"
  | unknownStart c => "unknown start symbol: `" ++ c.toString ++ "'"

def Symbol.read (c : Char) : Except DefinitionError Symbol :=
  match ofChar? c with
  | some symbol => .ok symbol
  | none => .error (.invalidSymbol c)

def Symbol.readNonterminal (c : Char) : Except DefinitionError Symbol := do
  let symbol ← read c
  if symbol.isNonterminal then return symbol else throw (.expectedNonterminal c)

/-- Reads the symbols of an alternative from left to right. -/
def Production.readSymbols (alternative : List Char) :
    List Char → Except DefinitionError Production
  | [] => .ok []
  | c :: rest =>
      if c = epsilonMark then .error (.misplacedEpsilon alternative)
      else do
        let symbol ← Symbol.read c
        return symbol :: (← readSymbols alternative rest)

/-- A lone `$` is the epsilon production, and nothing at all is none. -/
def Production.read (alternative : List Char) : Except DefinitionError Production :=
  if alternative = [epsilonMark] then .ok []
  else if alternative = [] then .error .emptyProduction
  else readSymbols alternative alternative

inductive Declaration
  | rule (left : Char) (alternatives : List (List Char))
  | nonterminal (name : Char)
  | start (name : Char)
deriving DecidableEq

namespace Grammar

def applyDeclaration (grammar : Grammar) : Declaration → Except DefinitionError Grammar
  | .rule left alternatives => do
      let symbol ← Symbol.readNonterminal left
      return grammar.addRule symbol (← alternatives.mapM Production.read)
  | .nonterminal name => return grammar.declare (← Symbol.readNonterminal name)
  | .start name => return grammar.setStart (← Symbol.readNonterminal name)

/-- Refuses a chosen start symbol that is not defined. -/
def checkStart (grammar : Grammar) : Except DefinitionError Grammar :=
  match grammar.chosenStart with
  | some start => if start ∈ grammar.keys then .ok grammar else .error (.unknownStart start.char)
  | none => .ok grammar

/-- Carries out the declarations in order, starting from the empty grammar. -/
def define (declarations : List Declaration) : Except DefinitionError Grammar := do
  (← declarations.foldlM applyDeclaration {}).checkStart

end Grammar

end ChomskyForm
