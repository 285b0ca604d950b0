import ChomskyForm.Conversion.Fresh
import ChomskyForm.Saturation

/-!
# Grammars without epsilon productions

The nullable symbols are found by saturation. A production then stands for all that is left of it
when nullable symbols are deleted from it, as long as something is left. A fresh start symbol keeps
the empty word in the language where that is wanted.
-/

namespace ChomskyForm.Grammar

/-- The symbols with an epsilon production of their own. -/
def epsilonKeys (grammar : Grammar) : List Symbol :=
  grammar.keys.filter fun left => [] ∈ grammar.alternatives left

/-- Adds, one rule after the other, each symbol with an alternative that is known to vanish. -/
def extendNullable (grammar : Grammar) (known : List Symbol) : List Symbol :=
  grammar.rules.entries.foldl
    (fun known (left, right) =>
      if left ∉ known ∧ right.any (·.all (· ∈ known)) then known ++ [left] else known)
    known

/-- The symbols that derive the empty word, in the order in which this is found out. -/
def nullable (grammar : Grammar) : List Symbol :=
  saturate grammar.extendNullable grammar.keys.length grammar.epsilonKeys

end ChomskyForm.Grammar

namespace ChomskyForm.Production

/-- What is left when exactly `count` occurrences of symbols of the set are deleted; the choice that
deletes an earlier occurrence comes first. -/
def deletions (set : List Symbol) : Nat → Production → List Production
  | 0, production => [production]
  | _ + 1, [] => []
  | count + 1, symbol :: rest =>
      if symbol ∈ set then
        deletions set count rest ++ (deletions set (count + 1) rest).map (symbol :: ·)
      else (deletions set (count + 1) rest).map (symbol :: ·)

/-- The non-empty productions left by deleting at least one occurrence, fewest deletions first. -/
def variants (set : List Symbol) (production : Production) : List Production :=
  ((List.range (production.countP (· ∈ set))).flatMap fun count =>
    deletions set (count + 1) production).filter (· ≠ [])

end ChomskyForm.Production

namespace ChomskyForm.Grammar

/-- The alternatives other than epsilon, then those of their variants that are new. -/
def removeEpsilon (grammar : Grammar) (nullable : List Symbol) : Grammar :=
  grammar.mapAlternatives fun _ right =>
    let kept := right.filter (· ≠ [])
    addAllNew kept (kept.flatMap (Production.variants nullable))

/-- Makes a fresh symbol the start symbol; its alternatives are the old start symbol and epsilon. -/
def addEmptyStart (grammar : Grammar) : Except ConversionError (Symbol × Grammar) :=
  match grammar.start? with
  | none => .error .emptyGrammar
  | some start => do
      let (fresh, extended) ← grammar.introduce [[start], []]
      return (fresh, extended.setStart fresh)

end ChomskyForm.Grammar
