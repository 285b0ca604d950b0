import ChomskyForm.Symbol

/-!
# Why a conversion fails

There are three causes: a grammar that defines nothing, a nonterminal that is used but not defined,
and a pool of nonterminals that is used up.
-/

namespace ChomskyForm

inductive ConversionError
  | poolExhausted
  | undefinedNonterminal (symbol referrer : Symbol)
  | emptyGrammar
deriving DecidableEq

def ConversionError.message : ConversionError → String
  | .poolExhausted => "ran out of fresh nonterminal symbols (all 26 are in use)"
  | .undefinedNonterminal symbol referrer =>
      "nonterminal `" ++ symbol.char.toString ++ "' is used by `" ++ referrer.char.toString ++
        "' but never defined"
  | .emptyGrammar => "the grammar defines no nonterminals"

end ChomskyForm
