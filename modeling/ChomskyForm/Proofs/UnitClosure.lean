import ChomskyForm.Proofs.UnitFree
import Mathlib.Logic.Function.Iterate

/-!
# The order of the unit closure

The closure of a key is found with a stack of pending symbols. A stack may hold a symbol many times,
but each of its entries is taken off once, and the targets of a symbol are put on it only when the
symbol is met for the first time, so the loop ends after as many turns as there were entries. As the
targets go on in reverse, the first of them and all that it leads to come before the second: the
symbols are met in the order in which a recursive search visits them.
-/

namespace ChomskyForm

open Relation

variable {targets : Symbol → List Symbol} {symbol left : Symbol}
  {room seen pending unseen first second order : List Symbol}

/-! ### The recursive search -/

/-- The recursive depth-first search visits the pending symbols in order. It passes over one that is
seen already; after another it first searches the targets of this one and then goes on with the
rest. `order` lists the visits. -/
inductive DepthFirst (targets : Symbol → List Symbol) :
    (seen pending order : List Symbol) → Prop
  | done {seen : List Symbol} : DepthFirst targets seen [] []
  | skip {seen rest order : List Symbol} {symbol : Symbol} (isSeen : symbol ∈ seen)
      (beside : DepthFirst targets seen rest order) :
      DepthFirst targets seen (symbol :: rest) order
  | visit {seen rest inner outer : List Symbol} {symbol : Symbol} (isNew : symbol ∉ seen)
      (below : DepthFirst targets (seen ++ [symbol]) (targets symbol) inner)
      (beside : DepthFirst targets (seen ++ symbol :: inner) rest outer) :
      DepthFirst targets seen (symbol :: rest) (symbol :: inner ++ outer)

/-- The search visits the same symbols in the same order, however often it is run. -/
theorem DepthFirst.unique (h : DepthFirst targets seen pending first)
    (h' : DepthFirst targets seen pending second) : first = second := by
  induction h generalizing second with
  | done =>
      cases h'
      rfl
  | skip isSeen _ ih =>
      cases h' with
      | skip _ beside => exact ih beside
      | visit isNew _ _ => exact absurd isSeen isNew
  | visit isNew _ _ ih₁ ih₂ =>
      cases h' with
      | skip isSeen _ => exact absurd isSeen isNew
      | visit _ below beside =>
          cases ih₁ below
          rw [ih₂ beside]

/-- Two parts of the pending symbols are searched one after the other. -/
theorem DepthFirst.exists_append (h : DepthFirst targets seen (first ++ second) order) :
    ∃ inner outer, order = inner ++ outer ∧ DepthFirst targets seen first inner ∧
      DepthFirst targets (seen ++ inner) second outer := by
  induction first generalizing seen order with
  | nil => exact ⟨[], order, rfl, .done, (List.append_nil seen).symm ▸ h⟩
  | cons symbol first ih =>
      cases h with
      | skip isSeen beside =>
          obtain ⟨inner, outer, rfl, hinner, houter⟩ := ih beside
          exact ⟨inner, outer, rfl, .skip isSeen hinner, houter⟩
      | visit isNew below beside =>
          obtain ⟨inner, outer, rfl, hinner, houter⟩ := ih beside
          refine ⟨_, outer, (List.append_assoc _ _ _).symm, .visit isNew below hinner, ?_⟩
          rwa [← List.append_assoc]

/-- The unseen symbols of a set, each once. -/
structure Unseen (room seen unseen : List Symbol) : Prop where
  nodup : unseen.Nodup
  mem_iff : ∀ symbol ∈ room, symbol ∈ unseen ↔ symbol ∉ seen

theorem Unseen.mem_seen (h : Unseen room seen unseen) (hsymbol : symbol ∈ room)
    (hmem : symbol ∉ unseen) : symbol ∈ seen :=
  not_not.1 (mt (h.mem_iff symbol hsymbol).2 hmem)

theorem Unseen.erase (h : Unseen room seen unseen) (symbol : Symbol) :
    Unseen room (seen ++ [symbol]) (unseen.erase symbol) where
  nodup := h.nodup.erase symbol
  mem_iff := fun other hother => by
    rw [h.nodup.mem_erase_iff, h.mem_iff other hother, List.mem_append, List.mem_singleton, not_or,
      and_comm]

namespace Grammar

/-- The walk visits what the recursive search visits, in the same order. -/
theorem depthFirst_walk (h : Unseen room seen unseen)
    (htargets : ∀ symbol ∈ room, targets symbol ⊆ room) (hpending : pending ⊆ room) :
    DepthFirst targets seen pending (walk targets pending unseen) := by
  fun_induction walk targets pending unseen generalizing seen with
  | case1 => exact .done
  | case2 unseen symbol rest hmem ih =>
      obtain ⟨hsymbol, hrest⟩ := List.cons_subset.1 hpending
      have hnext : targets symbol ++ rest ⊆ room :=
        List.append_subset.2 ⟨htargets symbol hsymbol, hrest⟩
      -- the walk goes on with one stack, the search with two of its parts
      obtain ⟨inner, outer, horder, hbelow, hbeside⟩ := (ih (h.erase symbol) hnext).exists_append
      rw [List.append_assoc] at hbeside
      rw [horder, ← List.cons_append]
      exact .visit ((h.mem_iff symbol hsymbol).1 hmem) hbelow hbeside
  | case3 unseen symbol rest hmem ih =>
      obtain ⟨hsymbol, hrest⟩ := List.cons_subset.1 hpending
      exact .skip (h.mem_seen hsymbol hmem) (ih h hrest)

theorem nodup_walk (hnodup : unseen.Nodup) : (walk targets pending unseen).Nodup := by
  fun_induction walk targets pending unseen with
  | case1 => exact .nil
  | case2 unseen symbol rest hmem ih =>
      refine List.nodup_cons.2 ⟨fun hagain => ?_, ih (hnodup.erase symbol)⟩
      obtain ⟨start, -, hstart, hpath⟩ := (mem_walk (hnodup.erase symbol)).1 hagain
      rcases ReflTransGen.cases_tail hpath with rfl | ⟨_, -, hstep⟩
      · exact hnodup.not_mem_erase hstart
      · exact hnodup.not_mem_erase hstep.2
  | case3 unseen symbol rest hmem ih => exact ih hnodup

end Grammar

/-! ### The loop over the stack -/

/-- The symbols that are still to be looked at, the next one at the end, and those met so far. -/
structure Worklist where
  pending : List Symbol
  reached : List Symbol

/-- One turn of the loop takes the last pending symbol. A symbol that is neither the one to skip nor
met before is met now, and its targets are pending in reverse. -/
def Worklist.turn (targets : Symbol → List Symbol) (left : Symbol) (work : Worklist) : Worklist :=
  match work.pending.getLast? with
  | none => work
  | some symbol =>
      if symbol = left ∨ symbol ∈ work.reached then { work with pending := work.pending.dropLast }
      else ⟨work.pending.dropLast ++ (targets symbol).reverse, work.reached ++ [symbol]⟩

namespace Worklist

variable {reached : List Symbol}

theorem turn_of_mem (h : symbol ∈ left :: reached) :
    turn targets left ⟨pending ++ [symbol], reached⟩ = ⟨pending, reached⟩ := by
  simp only [turn, List.getLast?_concat, List.dropLast_concat, if_pos (List.mem_cons.1 h)]

theorem turn_of_notMem (h : symbol ∉ left :: reached) :
    turn targets left ⟨pending ++ [symbol], reached⟩ =
      ⟨pending ++ (targets symbol).reverse, reached ++ [symbol]⟩ := by
  simp only [turn, List.getLast?_concat, List.dropLast_concat, if_neg (mt List.mem_cons.2 h)]

/-- The loop empties the stack and meets the symbols of the walk. It takes one turn for each symbol
that is pending at the start and one for each target of a symbol that it meets. -/
theorem iterate_turn (h : Unseen room (left :: reached) unseen)
    (htargets : ∀ symbol ∈ room, targets symbol ⊆ room) (hpending : pending ⊆ room) :
    (turn targets left)^[pending.length +
        ((Grammar.walk targets pending unseen).flatMap targets).length]
      ⟨pending.reverse, reached⟩ = ⟨[], reached ++ Grammar.walk targets pending unseen⟩ := by
  fun_induction Grammar.walk targets pending unseen generalizing reached with
  | case1 =>
      rw [List.append_nil]
      rfl
  | case2 unseen symbol rest hmem ih =>
      obtain ⟨hsymbol, hrest⟩ := List.cons_subset.1 hpending
      have hnext : targets symbol ++ rest ⊆ room :=
        List.append_subset.2 ⟨htargets symbol hsymbol, hrest⟩
      have hunseen : Unseen room (left :: (reached ++ [symbol])) (unseen.erase symbol) :=
        h.erase symbol
      have hcount : (symbol :: rest).length +
          ((symbol :: Grammar.walk targets (targets symbol ++ rest) (unseen.erase symbol)).flatMap
            targets).length =
          (targets symbol ++ rest).length + ((Grammar.walk targets (targets symbol ++ rest)
            (unseen.erase symbol)).flatMap targets).length + 1 := by
        simp only [List.length_cons, List.flatMap_cons, List.length_append]
        omega
      rw [hcount, Function.iterate_succ_apply, List.reverse_cons,
        turn_of_notMem ((h.mem_iff symbol hsymbol).1 hmem), ← List.reverse_append,
        ih hunseen hnext, List.append_assoc, List.singleton_append]
  | case3 unseen symbol rest hmem ih =>
      obtain ⟨hsymbol, hrest⟩ := List.cons_subset.1 hpending
      rw [List.length_cons, Nat.add_right_comm, Function.iterate_succ_apply, List.reverse_cons,
        turn_of_mem (h.mem_seen hsymbol hmem), ih h hrest]

end Worklist

/-! ### The closure -/

namespace Grammar

variable {grammar : Grammar}

theorem keys_unitClosure : grammar.unitClosure.keys = grammar.keys :=
  OrderedMap.keys_mapValues _ _

/-- The walk from a symbol starts with this symbol seen and all other keys unseen. -/
theorem unseen_keys (grammar : Grammar) (left : Symbol) :
    Unseen grammar.keys [left] (grammar.keys.erase left) where
  nodup := grammar.nodup_keys.erase left
  mem_iff := fun symbol hsymbol => by
    rw [grammar.nodup_keys.mem_erase_iff, and_iff_left hsymbol, List.mem_singleton]

theorem depthFirst_unitReach (left : Symbol) :
    DepthFirst grammar.unitTargets [left] (grammar.unitTargets left) (grammar.unitReach left) :=
  depthFirst_walk (grammar.unseen_keys left) (fun symbol _ => unitTargets_subset_keys symbol)
    (unitTargets_subset_keys left)

theorem iterate_turn_unitReach (left : Symbol) :
    (Worklist.turn grammar.unitTargets left)^[(grammar.unitTargets left).length +
        ((grammar.unitReach left).flatMap grammar.unitTargets).length]
      ⟨(grammar.unitTargets left).reverse, []⟩ = ⟨[], grammar.unitReach left⟩ :=
  Worklist.iterate_turn (grammar.unseen_keys left) (fun symbol _ => unitTargets_subset_keys symbol)
    (unitTargets_subset_keys left)

/-- **The unit closure.** A step leads from a symbol to a defined nonterminal that is one of its
alternatives on its own. The closure has all the keys, and for a key it lists, each once, the other
keys to which one or more steps lead. It lists them in the one order in which the recursive
depth-first search visits them that follows the steps as the alternatives are listed and passes over
the key itself. The loop over the stack comes to this list and ends, after one turn for each step
from the key and from what it has met. -/
theorem unitClosure_exactly (hleft : left ∈ grammar.keys) :
    grammar.unitClosure.keys = grammar.keys ∧
    (∀ source target, grammar.UnitStep source target ↔
      [target] ∈ grammar.alternatives source ∧ target.isNonterminal = true ∧
        target ∈ grammar.keys) ∧
    ∃ reached, grammar.unitClosure.get? left = some reached ∧ reached.Nodup ∧
      (∀ symbol, symbol ∈ reached ↔
        symbol ∈ grammar.keys ∧ symbol ≠ left ∧ TransGen grammar.UnitStep left symbol) ∧
      (∀ order, DepthFirst grammar.unitTargets [left] (grammar.unitTargets left) order ↔
        order = reached) ∧
      (Worklist.turn grammar.unitTargets left)^[(grammar.unitTargets left).length +
          (reached.flatMap grammar.unitTargets).length]
        ⟨(grammar.unitTargets left).reverse, []⟩ = ⟨[], reached⟩ := by
  refine ⟨keys_unitClosure, fun source target => mem_unitTargets, grammar.unitReach left,
    get?_unitClosure hleft, nodup_walk (grammar.nodup_keys.erase left), fun symbol => ?_,
    fun order => ?_, iterate_turn_unitReach left⟩
  · rw [← mem_unitReach hleft]
    exact (and_iff_right_of_imp fun hmem => unitReach_subset_keys hleft hmem).symm
  · constructor
    · exact fun horder => horder.unique (depthFirst_unitReach left)
    · rintro rfl
      exact depthFirst_unitReach left

/-- The units lead to the second alternative of the start symbol by way of its first, and back to
the start symbol. -/
def unitDetour : Grammar :=
  sampleGrammar [('S', ["S", "T", "U", "aX"]), ('T', ["V", "S", "X"]), ('U', ["T", "u"]),
    ('V', ["U", "v"])]

theorem unitClosure_exactly_unitDetour :
    ⟨'S', rfl⟩ ∈ unitDetour.keys ∧
    unitDetour.unitClosure.get? ⟨'S', rfl⟩ = some [⟨'T', rfl⟩, ⟨'V', rfl⟩, ⟨'U', rfl⟩] ∧
    DepthFirst unitDetour.unitTargets [⟨'S', rfl⟩] (unitDetour.unitTargets ⟨'S', rfl⟩)
      [⟨'T', rfl⟩, ⟨'V', rfl⟩, ⟨'U', rfl⟩] ∧
    TransGen unitDetour.UnitStep ⟨'S', rfl⟩ ⟨'V', rfl⟩ ∧
    (Worklist.turn unitDetour.unitTargets ⟨'S', rfl⟩)^[7]
      ⟨(unitDetour.unitTargets ⟨'S', rfl⟩).reverse, []⟩ =
        ⟨[], [⟨'T', rfl⟩, ⟨'V', rfl⟩, ⟨'U', rfl⟩]⟩ := by
  have hkey : ⟨'S', rfl⟩ ∈ unitDetour.keys := by decide
  have hclosure : unitDetour.unitClosure.get? ⟨'S', rfl⟩ =
      some [⟨'T', rfl⟩, ⟨'V', rfl⟩, ⟨'U', rfl⟩] := by
    decide +kernel
  obtain ⟨-, -, reached, hreached, -, hmem, horder, hturns⟩ := unitClosure_exactly hkey
  cases hclosure.symm.trans hreached
  have hpath := (hmem ⟨'V', rfl⟩).1 (by decide)
  exact ⟨hkey, hclosure, (horder _).2 rfl, hpath.2.2, hturns⟩

end Grammar

end ChomskyForm
