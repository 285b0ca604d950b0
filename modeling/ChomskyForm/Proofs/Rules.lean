import ChomskyForm.Grammar.Basic
import Mathlib.Data.List.Nodup

/-!
# Rules by key

A grammar lists its rules as entries. As no key is bound twice, the entries say neither more nor
less than the keys in order and the alternatives of each, and this is how the properties of a
grammar are stated.
-/

namespace ChomskyForm

theorem Symbol.isTerminal_eq_true_iff {symbol : Symbol} :
    symbol.isTerminal = true ↔ symbol.isNonterminal = false := by
  simp [Symbol.isTerminal]

theorem Symbol.isTerminal_eq_false_iff {symbol : Symbol} :
    symbol.isTerminal = false ↔ symbol.isNonterminal = true := by
  simp [Symbol.isTerminal]

/-- Where a sequence of two steps succeeds, so does each of them. -/
theorem exists_ok_of_bind {ε α β : Type} {first : Except ε α} {next : α → Except ε β} {result : β}
    (h : first >>= next = .ok result) : ∃ value, first = .ok value ∧ next value = .ok result := by
  cases first with
  | error fault => cases h
  | ok value => exact ⟨value, rfl, h⟩

theorem exists_ok_of_toOption_map {ε α β : Type} {outcome : Except ε α} {observe : α → β} {seen : β}
    (h : outcome.toOption.map observe = some seen) :
    ∃ result, outcome = .ok result ∧ observe result = seen := by
  cases outcome with
  | error fault => cases h
  | ok result => exact ⟨result, rfl, Option.some.inj h⟩

theorem OrderedMap.get?_eq_some_iff {Key Value : Type} [DecidableEq Key]
    {map : OrderedMap Key Value} {key : Key} {value : Value} :
    map.get? key = some value ↔ (key, value) ∈ map.entries := by
  obtain ⟨entries, nodup⟩ := map
  simp only [get?]
  induction entries with
  | nil => simp
  | cons entry rest ih =>
      obtain ⟨bound, held⟩ := entry
      rw [List.map_cons, List.nodup_cons] at nodup
      rw [lookup_entry]
      by_cases heq : key = bound
      · subst heq
        have habsent : (key, value) ∉ rest := fun hmem =>
          nodup.1 (List.mem_map.2 ⟨_, hmem, rfl⟩)
        simp [habsent, eq_comm]
      · rw [if_neg heq, ih nodup.2]
        simp [heq]

theorem OrderedMap.update_eq_self {Key Value : Type} [DecidableEq Key]
    {map : OrderedMap Key Value} {key : Key} {value : Value} {change : Option Value → Value}
    (hget : map.get? key = some value) (hchange : change (some value) = value) :
    map.update key change = map := by
  obtain ⟨entries, nodup⟩ := map
  refine OrderedMap.ext ?_
  simp only [update, get?] at hget ⊢
  clear nodup
  induction entries with
  | nil => cases hget
  | cons entry rest ih =>
      obtain ⟨bound, held⟩ := entry
      rw [lookup_entry] at hget
      rw [updateEntries]
      by_cases heq : bound = key
      · rw [if_pos heq.symm, Option.some.injEq] at hget
        rw [if_pos heq, hget, hchange]
      · rw [if_neg (Ne.symm heq)] at hget
        rw [if_neg heq, ih hget]

theorem OrderedMap.mapValues_eq_self {Key Value : Type} {map : OrderedMap Key Value}
    {change : Key → Value → Value} (h : ∀ entry ∈ map.entries, change entry.1 entry.2 = entry.2) :
    map.mapValues change = map := by
  refine OrderedMap.ext ((List.map_congr_left fun entry hentry => ?_).trans (List.map_id _))
  exact Prod.ext rfl (h entry hentry)

namespace Grammar

theorem nodup_keys (grammar : Grammar) : grammar.keys.Nodup := grammar.rules.nodup_keys

theorem alternatives_of_mem_entries {grammar : Grammar} {left : Symbol} {right : List Production}
    (h : (left, right) ∈ grammar.rules.entries) : grammar.alternatives left = right := by
  rw [alternatives, OrderedMap.get?_eq_some_iff.2 h]
  rfl

theorem entries_eq (grammar : Grammar) :
    grammar.rules.entries = grammar.keys.map fun left => (left, grammar.alternatives left) := by
  rw [keys, OrderedMap.keys, List.map_map]
  symm
  refine (List.map_congr_left fun entry hentry => ?_).trans (List.map_id _)
  rw [Function.comp_apply, alternatives_of_mem_entries hentry]
  rfl

theorem rightSides_eq (grammar : Grammar) :
    grammar.rightSides = grammar.keys.flatMap grammar.alternatives := by
  rw [rightSides, entries_eq, List.flatMap_map]

theorem mem_keys_of_mem_alternatives {grammar : Grammar} {left : Symbol} {production : Production}
    (h : production ∈ grammar.alternatives left) : left ∈ grammar.keys := by
  by_contra habsent
  rw [alternatives_eq_nil habsent] at h
  exact List.not_mem_nil h

theorem mem_rightSides {grammar : Grammar} {production : Production} :
    production ∈ grammar.rightSides ↔ ∃ left, production ∈ grammar.alternatives left := by
  rw [rightSides_eq, List.mem_flatMap]
  constructor
  · rintro ⟨left, -, h⟩
    exact ⟨left, h⟩
  · rintro ⟨left, h⟩
    exact ⟨left, mem_keys_of_mem_alternatives h, h⟩

theorem mem_alternatives_mapAlternatives {grammar : Grammar}
    {change : Symbol → List Production → List Production} {left : Symbol}
    {production : Production} :
    production ∈ (grammar.mapAlternatives change).alternatives left ↔
      left ∈ grammar.keys ∧ production ∈ change left (grammar.alternatives left) := by
  constructor
  · intro h
    have hkey := mem_keys_of_mem_alternatives h
    rw [keys_mapAlternatives] at hkey
    rw [alternatives_mapAlternatives change hkey] at h
    exact ⟨hkey, h⟩
  · rintro ⟨hkey, h⟩
    rw [alternatives_mapAlternatives change hkey]
    exact h

/-- A change that leaves the alternatives of every key alone changes nothing. -/
theorem mapAlternatives_eq_self {grammar : Grammar}
    {change : Symbol → List Production → List Production}
    (h : ∀ left, change left (grammar.alternatives left) = grammar.alternatives left) :
    grammar.mapAlternatives change = grammar := by
  have hrules : grammar.rules.mapValues change = grammar.rules := by
    refine OrderedMap.mapValues_eq_self fun entry hentry => ?_
    have hright : grammar.alternatives entry.1 = entry.2 := alternatives_of_mem_entries hentry
    exact hright ▸ h entry.1
  rw [mapAlternatives, hrules]

theorem setAlternatives_eq_self {grammar : Grammar} {left : Symbol} {right : List Production}
    (h : (left, right) ∈ grammar.rules.entries) : grammar.setAlternatives left right = grammar := by
  have hrules : grammar.rules.insert left right = grammar.rules :=
    OrderedMap.update_eq_self (OrderedMap.get?_eq_some_iff.2 h) rfl
  rw [setAlternatives, hrules]

/-- Every nonterminal on a right side is defined. -/
def Closed (grammar : Grammar) : Prop :=
  ∀ left, ∀ production ∈ grammar.alternatives left, ∀ symbol ∈ production,
    symbol.isNonterminal = true → symbol ∈ grammar.keys

end Grammar

end ChomskyForm
