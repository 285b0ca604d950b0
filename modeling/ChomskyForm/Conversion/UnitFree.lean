import ChomskyForm.Grammar.Basic

/-!
# Grammars without unit productions

A unit production consists of one defined nonterminal. Each symbol takes over the other productions
of all the symbols that it reaches through unit productions, in the order of a depth-first walk.
-/

namespace ChomskyForm

theorem length_flatMap_erase {α β : Type} [DecidableEq α] (f : α → List β) {item : α}
    {list : List α} (h : item ∈ list) :
    (f item).length + ((list.erase item).flatMap f).length = (list.flatMap f).length := by
  induction list with
  | nil => cases h
  | cons first rest ih =>
      by_cases heq : first = item
      · rw [heq, List.erase_cons_head, List.flatMap_cons, List.length_append]
      · have hmem : item ∈ rest := (List.mem_cons.1 h).resolve_left (Ne.symm heq)
        rw [List.erase_cons_tail (by simpa using heq), List.flatMap_cons, List.flatMap_cons,
          List.length_append, List.length_append, ← ih hmem]
        omega

namespace Grammar

def isUnit (grammar : Grammar) (production : Production) : Bool :=
  production.unitTarget?.any (· ∈ grammar.keys)

/-- The defined nonterminals that are alternatives of the symbol on their own. -/
def unitTargets (grammar : Grammar) (left : Symbol) : List Symbol :=
  ((grammar.alternatives left).filterMap Production.unitTarget?).filter (· ∈ grammar.keys)

/-- Walks depth first from the pending symbols and lists those of the unseen ones that it meets. -/
def walk (targets : Symbol → List Symbol) (pending unseen : List Symbol) : List Symbol :=
  match pending with
  | [] => []
  | symbol :: rest =>
      if symbol ∈ unseen then
        symbol :: walk targets (targets symbol ++ rest) (unseen.erase symbol)
      else walk targets rest unseen
termination_by pending.length + (unseen.flatMap targets).length
decreasing_by
  · rename_i hmem
    have hlength := length_flatMap_erase targets hmem
    rw [List.length_append, List.length_cons]
    omega
  · rw [List.length_cons]
    omega

/-- The other symbols reached from a symbol through unit productions, in the order of the walk. -/
def unitReach (grammar : Grammar) (left : Symbol) : List Symbol :=
  walk grammar.unitTargets (grammar.unitTargets left) (grammar.keys.erase left)

def unitClosure (grammar : Grammar) : OrderedMap Symbol (List Symbol) :=
  grammar.rules.mapValues fun left _ => grammar.unitReach left

def properAlternatives (grammar : Grammar) (left : Symbol) : List Production :=
  (grammar.alternatives left).filter (!grammar.isUnit ·)

/-- Every symbol keeps its proper alternatives and takes over those of the symbols it reaches. -/
def removeUnits (grammar : Grammar) : Grammar :=
  grammar.mapAlternatives fun left _ =>
    addAllNew (grammar.properAlternatives left)
      ((grammar.unitReach left).flatMap grammar.properAlternatives)

end Grammar

end ChomskyForm
