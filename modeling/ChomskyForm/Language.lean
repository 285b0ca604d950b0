import ChomskyForm.Grammar.Basic
import ChomskyForm.Saturation
import ChomskyForm.Words

/-!
# The words of a grammar up to a length

A table gives each defined symbol a set of words. Starting from empty sets, the alternatives are
scanned again and again, and each gives its symbol the words that it yields under the table as it
stands, until a scan changes nothing.
-/

namespace ChomskyForm.Grammar

/-- Words as ascending sets, one for each defined symbol. -/
abbrev WordTable := OrderedMap Symbol (List (List Symbol))

/-- The terminals that occur on a right side, in ascending order. -/
def alphabet (grammar : Grammar) : List Symbol :=
  Symbol.all.filter fun symbol => symbol.isTerminal && grammar.rightSides.any (symbol ∈ ·)

/-- A terminal stands for itself, a nonterminal for its words in the table. -/
def symbolWords (table : WordTable) (symbol : Symbol) : List (List Symbol) :=
  if symbol.isTerminal then [[symbol]] else (table.get? symbol).getD []

def productionWords (table : WordTable) (bound : Nat) (production : Production) :
    List (List Symbol) :=
  production.foldl (fun words symbol => concatenations bound words (symbolWords table symbol)) [[]]

def emptyTable (grammar : Grammar) : WordTable := grammar.rules.mapValues fun _ _ => []

/-- Every alternative after its symbol, in order. -/
def branches (grammar : Grammar) : List (Symbol × Production) :=
  grammar.rules.entries.flatMap fun (left, right) => right.map (left, ·)

/-- Gives a symbol the words that one of its alternatives yields under the table. -/
def noteWords (bound : Nat) (table : WordTable) (branch : Symbol × Production) : WordTable :=
  table.update branch.1 fun known =>
    union (productionWords table bound branch.2) (known.getD [])

/-- Scans all alternatives once. A later one already sees what an earlier one has yielded. -/
def extendTable (grammar : Grammar) (bound : Nat) (table : WordTable) : WordTable :=
  grammar.branches.foldl (noteWords bound) table

/-- The table that no further scan changes. Once all shorter words are found, a scan that finds a
word for no new symbol is followed by none that does, so each length from zero to the bound takes at
most as many scans as there are symbols. -/
def wordTable (grammar : Grammar) (bound : Nat) : WordTable :=
  saturate (grammar.extendTable bound) (grammar.keys.length * (bound + 1)) grammar.emptyTable

/-- The words of the start symbol up to a length, in ascending order. -/
def words (grammar : Grammar) (maxLength : Nat) : List (List Symbol) :=
  (grammar.start?.bind (grammar.wordTable maxLength).get?).getD []

end ChomskyForm.Grammar
