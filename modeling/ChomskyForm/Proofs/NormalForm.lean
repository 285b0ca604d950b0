import ChomskyForm.Grammar.NormalForm
import ChomskyForm.Proofs.Rules

/-!
# The shapes of the normal form

An alternative has a normal shape where it is one terminal or two nonterminals. A grammar in normal
form has no other alternatives, apart from an epsilon production of a start symbol that no right
side uses.
-/

namespace ChomskyForm

namespace Production

/-- One terminal, or two nonterminals. -/
def isNormal : Production → Bool
  | [symbol] => symbol.isTerminal
  | [first, second] => first.isNonterminal && second.isNonterminal
  | _ => false

theorem isNormal_iff {production : Production} :
    production.isNormal = true ↔
      (∃ terminal, terminal.isTerminal = true ∧ production = [terminal]) ∨
        ∃ first second, first.isNonterminal = true ∧ second.isNonterminal = true ∧
          production = [first, second] := by
  constructor
  · intro h
    unfold isNormal at h
    split at h
    · exact .inl ⟨_, h, rfl⟩
    · obtain ⟨hfirst, hsecond⟩ := Bool.and_eq_true_iff.1 h
      exact .inr ⟨_, _, hfirst, hsecond, rfl⟩
    · exact absurd h Bool.false_ne_true
  · rintro (⟨terminal, hterminal, rfl⟩ | ⟨first, second, hfirst, hsecond, rfl⟩)
    · exact hterminal
    · rw [isNormal, hfirst, hsecond]
      rfl

end Production

namespace Grammar

variable {grammar : Grammar} {left : Symbol}

theorem startOnRight_eq_false_iff (h : grammar.start? = some left) :
    grammar.startOnRight = false ↔ ∀ production ∈ grammar.rightSides, left ∉ production := by
  simp only [startOnRight, h, Option.any_some, List.any_eq_false, decide_eq_true_iff]

theorem allows_iff {production : Production} :
    grammar.allows left production = true ↔
      production.isNormal = true ∨ production = [] ∧ grammar.start? = some left ∧
        ∀ other ∈ grammar.rightSides, left ∉ other := by
  match production with
  | [] =>
      have hnot : Production.isNormal [] = true ↔ False := iff_of_false Bool.false_ne_true id
      rw [allows, hnot, false_or, Bool.and_eq_true_iff, decide_eq_true_iff, Bool.not_eq_true']
      refine Iff.trans ?_ (and_iff_right rfl).symm
      exact and_congr_right startOnRight_eq_false_iff
  | [symbol] => simp [allows, Production.isNormal]
  | [first, second] => simp [allows, Production.isNormal]
  | _ :: _ :: _ :: _ => simp [allows, Production.isNormal]

theorem isChomskyNormalForm_iff :
    grammar.isChomskyNormalForm = true ↔
      ∀ left, ∀ production ∈ grammar.alternatives left, production.isNormal = true ∨
        production = [] ∧ grammar.start? = some left ∧
          ∀ other ∈ grammar.rightSides, left ∉ other := by
  rw [isChomskyNormalForm, entries_eq, List.all_map, List.all_eq_true]
  simp only [Function.comp_apply, List.all_eq_true, allows_iff]
  constructor
  · intro h left production hproduction
    exact h left (mem_keys_of_mem_alternatives hproduction) production hproduction
  · exact fun h left _ => h left

end Grammar

end ChomskyForm
