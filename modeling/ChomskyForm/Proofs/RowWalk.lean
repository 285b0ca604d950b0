import ChomskyForm.Proofs.FixedPoint
import ChomskyForm.Proofs.PairSteps

/-!
# Binarization as a walk over growing rows

The rows of a grammar can be shortened by a walk with an index. Each round reads the row at the
index as it stands by then, and the letters that it takes get rows of their own behind the last one,
so the walk comes to these as well. A round changes none of the rows that are still to come, and the
new ones are short already. So the walk ends after as many rounds as its outcome has rows, and the
outcome is what shortening the rules of the grammar one after the other gives. Within a row, an
alternative gives up its last two symbols again and again, as `shorten_append_pair` says.
-/

namespace ChomskyForm.Grammar

/-- The grammar so far and the index of the next row. -/
structure RowWalk where
  grammar : Grammar
  index : Nat

variable {grammar extended : Grammar} {walk : RowWalk} {index : Nat} {left : Symbol}
  {right shorts : List Production} {rules : List (Symbol × List Production)}

theorem length_entries (grammar : Grammar) : grammar.rules.entries.length = grammar.keys.length :=
  (List.length_map _).symm

/-- To shorten the alternatives in a row leaves the rows behind it as they are, and what is new
comes behind these. -/
theorem drop_entries_of_shortenEach (hrow : grammar.rules.entries[index]? = some (left, right))
    (hright : grammar.shortenEach right = .ok (shorts, extended)) :
    grammar.rules.entries.drop (index + 1) <+:
      (extended.setAlternatives left shorts).rules.entries.drop (index + 1) := by
  obtain ⟨hindex, hentry⟩ := List.getElem?_eq_some_iff.1 hrow
  rw [length_entries] at hindex
  have hkey : grammar.keys[index] = left :=
    (List.getElem_map _).trans (congrArg Prod.fst hentry)
  have hsplit : grammar.keys.drop index = left :: grammar.keys.drop (index + 1) := by
    rw [List.drop_eq_getElem_cons hindex, hkey]
  have habsent : left ∉ grammar.keys.drop (index + 1) := by
    have hnodup := grammar.nodup_keys.sublist (List.drop_sublist index _)
    rw [hsplit] at hnodup
    exact (List.nodup_cons.1 hnodup).1
  have hnext := (shortens_of_shortenEach hright).setRow (hkey ▸ List.getElem_mem hindex) shorts
  have hkept : ∀ other ∈ grammar.keys.drop (index + 1),
      (extended.setAlternatives left shorts).alternatives other = grammar.alternatives other := by
    intro other hother
    apply hnext.kept other (List.mem_of_mem_drop hother)
    exact fun hmem => habsent (List.mem_singleton.1 hmem ▸ hother)
  rw [entries_eq, entries_eq, ← List.map_drop, ← List.map_drop, hnext.keys_eq,
    List.drop_append_of_le_length hindex, List.map_append]
  refine ⟨_, congrArg (· ++ _) (List.map_congr_left fun other hother => ?_)⟩
  rw [hkept other hother]

namespace RowWalk

/-- One round shortens the alternatives in the row at the index and goes on to the next row. Behind
the last row there is nothing to do. -/
def round (walk : RowWalk) : Except ConversionError RowWalk :=
  match walk.grammar.rules.entries[walk.index]? with
  | none => .ok walk
  | some (left, right) => do
      let (shorts, extended) ← walk.grammar.shortenEach right
      return ⟨extended.setAlternatives left shorts, walk.index + 1⟩

theorem round_of_row (hrow : grammar.rules.entries[index]? = some (left, right)) :
    round ⟨grammar, index⟩ = (grammar.shortenEach right).bind fun (shorts, extended) =>
      .ok ⟨extended.setAlternatives left shorts, index + 1⟩ := by
  simp only [round, hrow]
  rfl

/-- The walk after a number of rounds, unless one of them fails. -/
def run : Nat → RowWalk → Except ConversionError RowWalk
  | 0, walk => .ok walk
  | count + 1, walk => walk.round.bind (run count)

theorem run_add (first second : Nat) (walk : RowWalk) :
    walk.run (first + second) = (walk.run first).bind (run second) := by
  induction first generalizing walk with
  | zero =>
      rw [Nat.zero_add]
      rfl
  | succ first ih =>
      rw [Nat.add_right_comm, run, run]
      cases walk.round with
      | error fault => rfl
      | ok next => exact ih next

/-- No row is left at the index or behind it. -/
def Ended (walk : RowWalk) : Prop := walk.grammar.keys.length ≤ walk.index

theorem Ended.round_eq (h : walk.Ended) : walk.round = .ok walk := by
  have hlength : walk.grammar.rules.entries.length ≤ walk.index := by
    rw [length_entries]
    exact h
  rw [round, List.getElem?_eq_none hlength]

theorem Ended.run_eq (h : walk.Ended) (count : Nat) : walk.run count = .ok walk := by
  induction count with
  | zero => rfl
  | succ count ih =>
      rw [run, h.round_eq]
      exact ih

/-- The rounds for the rules that stand at the index shorten these rules one after the other. -/
theorem run_rules (hrules : rules <+: grammar.rules.entries.drop index) :
    run rules.length ⟨grammar, index⟩ =
      (grammar.shortenRules rules).map fun result => ⟨result, index + rules.length⟩ := by
  induction rules generalizing grammar index with
  | nil => rfl
  | cons rule rules ih =>
      obtain ⟨left, right⟩ := rule
      obtain ⟨more, hmore⟩ := hrules
      have hrow : grammar.rules.entries[index]? = some (left, right) := by
        rw [← List.head?_drop, ← hmore]
        rfl
      have hlater : rules <+: grammar.rules.entries.drop (index + 1) := by
        rw [← List.tail_drop, ← hmore]
        exact List.prefix_append rules more
      rw [List.length_cons, run, round_of_row hrow, shortenRules]
      cases hright : grammar.shortenEach right with
      | error fault => rfl
      | ok pair =>
          obtain ⟨shorts, extended⟩ := pair
          have hrest := ih (hlater.trans (drop_entries_of_shortenEach hrow hright))
          rw [Nat.add_right_comm] at hrest
          exact hrest

/-- Where all alternatives are short the walk goes through the rows and changes none. -/
theorem run_of_short (hindex : index ≤ grammar.keys.length)
    (hshort : ∀ production ∈ grammar.rightSides, production.length ≤ 2) :
    run (grammar.keys.length - index) ⟨grammar, index⟩ = .ok ⟨grammar, grammar.keys.length⟩ := by
  have hmem : ∀ rule ∈ grammar.rules.entries.drop index, rule ∈ grammar.rules.entries :=
    fun _ => List.mem_of_mem_drop
  have hsame : grammar.shortenRules (grammar.rules.entries.drop index) = .ok grammar := by
    refine shortenRules_eq_self hmem fun rule hrule production hproduction => ?_
    exact hshort production (List.mem_flatMap.2 ⟨rule, hmem rule hrule, hproduction⟩)
  have hrun := run_rules (List.prefix_refl (grammar.rules.entries.drop index))
  rw [hsame, List.length_drop, length_entries] at hrun
  rw [hrun, Except.map, Nat.add_sub_cancel' hindex]

/-- **The walk over the rows.** From the first row on the walk takes one round for each key and one
for each letter that the excess costs, and all rounds after these change nothing. It ends behind the
last row with the outcome of binarization, and it fails where binarization fails. -/
theorem run_eq_binarize (grammar : Grammar) (extra : Nat) :
    run (grammar.keys.length + excess grammar.rightSides + extra) ⟨grammar, 0⟩ =
      grammar.binarize.map fun result => ⟨result, result.keys.length⟩ := by
  have hold : run grammar.keys.length ⟨grammar, 0⟩ =
      grammar.binarize.map fun result => ⟨result, grammar.keys.length⟩ := by
    have hrun := run_rules (List.prefix_refl (grammar.rules.entries.drop 0))
    rwa [List.drop_zero, length_entries, Nat.zero_add] at hrun
  rw [Nat.add_assoc, run_add, hold]
  cases hbinarize : grammar.binarize with
  | error fault => rfl
  | ok result =>
      have hcount := (binarization_of_ok hbinarize).toGrows.length_keys
      have hnew : run (excess grammar.rightSides) ⟨result, grammar.keys.length⟩ =
          .ok ⟨result, result.keys.length⟩ := by
        have hindex : grammar.keys.length ≤ result.keys.length := hcount ▸ Nat.le_add_right _ _
        have hrun := run_of_short hindex (length_le_two_of_binarize hbinarize)
        rwa [hcount, Nat.add_sub_cancel_left, ← hcount] at hrun
      have hended : Ended ⟨result, result.keys.length⟩ := Nat.le_refl _
      calc run (excess grammar.rightSides + extra) ⟨result, grammar.keys.length⟩
        _ = (run (excess grammar.rightSides) ⟨result, grammar.keys.length⟩).bind (run extra) :=
            run_add _ _ _
        _ = run extra ⟨result, result.keys.length⟩ := by
            rw [hnew]
            rfl
        _ = .ok ⟨result, result.keys.length⟩ := hended.run_eq extra

end RowWalk

end ChomskyForm.Grammar
