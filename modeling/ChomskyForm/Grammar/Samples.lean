import ChomskyForm.Grammar.Definition

/-!
# Sample grammars

Small grammars, each of which needs another part of the conversion.
-/

namespace ChomskyForm

/-- Declares rules written as a left side and its alternatives. -/
def declareRules (rules : List (Char × List String)) : List Declaration :=
  rules.map fun (left, alternatives) => .rule left (alternatives.map String.toList)

def samples : List (String × List Declaration) :=
  [("epsilon", declareRules [('S', ["SaB", "aB"]), ('B', ["bB", "$"])]),
   ("assignment", declareRules
      [('S', ["X", "Y"]), ('X', ["xX", "xZ"]), ('Y', ["yY", "yZ"]), ('Z', ["abcM"]),
       ('M', ["NP"]), ('N', ["n", "$"]), ('P', ["p", "$"])]),
   ("units", declareRules [('S', ["A", "B", "C"]), ('A', ["a"]), ('B', ["b"]), ('C', ["c"])]),
   ("mixed", declareRules [('S', ["aBc"]), ('B', ["b"])]),
   ("long", declareRules [('S', ["ABC"]), ('A', ["a"]), ('B', ["b"]), ('C', ["c"])]),
   ("arith", .start 'E' :: declareRules
      [('F', ["lEr", "n"]), ('T', ["TmF", "F"]), ('E', ["EpT", "T"])]),
   ("balanced", declareRules [('S', ["lSr", "SS", "$"])]),
   ("palindromes", declareRules [('S', ["aSa", "bSb", "a", "b", "$"])]),
   ("unit_cycle", declareRules [('S', ["A", "sA"]), ('A', ["B", "a"]), ('B', ["S", "bB"])])]

/-- The declarations of the sample with the given name. -/
def sample? (name : String) : Option (List Declaration) := samples.lookup name

/-- The grammar with the given rules, which must be well formed. -/
def sampleGrammar (rules : List (Char × List String)) : Grammar :=
  (Grammar.define (declareRules rules)).toOption.getD {}

/-- A grammar with an epsilon production, a unit rule, a mixed alternative and a long one. -/
def nestedPairs : Grammar := sampleGrammar [('S', ["aSb", "T", "$"]), ('T', ["TT", "c"])]

end ChomskyForm
