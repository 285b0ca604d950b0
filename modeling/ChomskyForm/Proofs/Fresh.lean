import ChomskyForm.Conversion.Fresh
import ChomskyForm.Proofs.Rules
import Mathlib.Data.List.Perm.Basic

/-!
# The letters left in the pool

The letters of the pool that a grammar does not define are handed out in order, one for each fresh
nonterminal. A grammar that has grown by some number of them defines exactly the first so many, and
what it defined before keeps its place.
-/

namespace ChomskyForm

theorem Symbol.pairwise_all : all.Pairwise (· < ·) := by decide +kernel

theorem Symbol.nodup_pool : Symbol.pool.Nodup := by decide

namespace Grammar

/-- The letters of the pool that the grammar does not define, in order. -/
def free (grammar : Grammar) : List Symbol := Symbol.pool.filter (· ∉ grammar.keys)

variable {grammar middle grown : Grammar} {count more : Nat}

theorem nodup_free (grammar : Grammar) : grammar.free.Nodup := Symbol.nodup_pool.filter _

theorem pairwise_free (grammar : Grammar) : grammar.free.Pairwise (· < ·) :=
  (Symbol.pairwise_all.filter _).filter _

theorem mem_free {symbol : Symbol} :
    symbol ∈ grammar.free ↔ symbol.isNonterminal = true ∧ symbol ∉ grammar.keys := by
  simp [free, Symbol.mem_pool]

/-- Nonterminals are either defined or free, so both together are as many as the pool. -/
theorem length_free_add (h : ∀ key ∈ grammar.keys, key.isNonterminal = true) :
    grammar.free.length + grammar.keys.length = 26 := by
  have hused : (Symbol.pool.filter (· ∈ grammar.keys)).Perm grammar.keys := by
    rw [List.perm_ext_iff_of_nodup (Symbol.nodup_pool.filter _) grammar.nodup_keys]
    intro symbol
    simpa [Symbol.mem_pool] using h symbol
  have hsplit := Symbol.pool.length_eq_length_filter_add (decide <| · ∈ grammar.keys)
  rw [hused.length_eq, Symbol.length_pool] at hsplit
  rw [free]
  simp only [decide_not]
  omega

theorem allocate_of_free_nil (h : grammar.free = []) :
    grammar.allocate = .error .poolExhausted := by
  rw [allocate, ← List.head?_filter, ← free, h]
  rfl

theorem allocate_of_free_cons {symbol : Symbol} {rest : List Symbol}
    (h : grammar.free = symbol :: rest) : grammar.allocate = .ok symbol := by
  rw [allocate, ← List.head?_filter, ← free, h]
  rfl

/-! ### Growth -/

/-- The grammar `grown` defines the first `count` free letters after all that `grammar` defines. -/
structure Grows (grammar : Grammar) (count : Nat) (grown : Grammar) : Prop where
  count_le : count ≤ grammar.free.length
  keys_eq : grown.keys = grammar.keys ++ grammar.free.take count
  chosenStart_eq : grown.chosenStart = grammar.chosenStart

/-- Growth that leaves the alternatives of the defined symbols alone. -/
structure Extends (grammar : Grammar) (count : Nat) (grown : Grammar) : Prop
    extends Grows grammar count grown where
  alternatives_eq : ∀ left ∈ grammar.keys, grown.alternatives left = grammar.alternatives left

theorem Grows.of_keys_eq (hkeys : grown.keys = grammar.keys)
    (hstart : grown.chosenStart = grammar.chosenStart) : Grows grammar 0 grown where
  count_le := Nat.zero_le _
  keys_eq := by rw [hkeys, List.take_zero, List.append_nil]
  chosenStart_eq := hstart

theorem Extends.refl (grammar : Grammar) : Extends grammar 0 grammar where
  toGrows := .of_keys_eq rfl rfl
  alternatives_eq := fun _ _ => rfl

theorem Grows.mem_keys (h : Grows grammar count grown) {symbol : Symbol}
    (hsymbol : symbol ∈ grammar.keys) : symbol ∈ grown.keys := by
  rw [h.keys_eq]
  exact List.mem_append_left _ hsymbol

theorem Grows.length_keys (h : Grows grammar count grown) :
    grown.keys.length = grammar.keys.length + count := by
  rw [h.keys_eq, List.length_append, List.length_take, Nat.min_eq_left h.count_le]

theorem Grows.mem_free_of_new (h : Grows grammar count grown) {symbol : Symbol}
    (hnew : symbol ∈ grown.keys) (hold : symbol ∉ grammar.keys) : symbol ∈ grammar.free := by
  rw [h.keys_eq, List.mem_append] at hnew
  exact List.mem_of_mem_take (hnew.resolve_left hold)

theorem Grows.isNonterminal (h : Grows grammar count grown)
    (hkeys : ∀ key ∈ grammar.keys, key.isNonterminal = true) :
    ∀ key ∈ grown.keys, key.isNonterminal = true := by
  intro key hkey
  by_cases hold : key ∈ grammar.keys
  · exact hkeys key hold
  · exact (mem_free.1 (h.mem_free_of_new hkey hold)).1

theorem Grows.free_eq (h : Grows grammar count grown) :
    grown.free = grammar.free.drop count := by
  have hkept : grown.free = grammar.free.filter (· ∉ grammar.free.take count) := by
    have hkeys := h.keys_eq
    generalize grammar.free.take count = taken at hkeys ⊢
    rw [free, free, List.filter_filter, hkeys]
    apply List.filter_congr
    intro symbol _
    simp [Bool.and_comm]
  have hnodup : (grammar.free.take count ++ grammar.free.drop count).Nodup := by
    rw [List.take_append_drop]
    exact grammar.nodup_free
  have hdisjoint := (List.nodup_append.1 hnodup).2.2
  rw [hkept]
  conv_lhs => arg 2; rw [← List.take_append_drop count grammar.free]
  rw [List.filter_append, List.filter_eq_nil_iff.2 ?_, List.nil_append, List.filter_eq_self]
  · intro symbol hsymbol
    simpa using fun htaken => hdisjoint symbol htaken symbol hsymbol rfl
  · intro symbol hsymbol
    simpa using hsymbol

theorem Grows.trans (h₁ : Grows grammar count middle)
    (h₂ : Grows middle more grown) : Grows grammar (count + more) grown where
  count_le := by
    have hle := h₂.count_le
    rw [h₁.free_eq, List.length_drop] at hle
    have := h₁.count_le
    omega
  keys_eq := by
    rw [h₂.keys_eq, h₁.keys_eq, h₁.free_eq, List.append_assoc, List.take_add]
  chosenStart_eq := h₂.chosenStart_eq.trans h₁.chosenStart_eq

theorem Extends.trans (h₁ : Extends grammar count middle)
    (h₂ : Extends middle more grown) : Extends grammar (count + more) grown where
  toGrows := h₁.toGrows.trans h₂.toGrows
  alternatives_eq := fun left hleft =>
    (h₂.alternatives_eq left (h₁.mem_keys hleft)).trans (h₁.alternatives_eq left hleft)

theorem Grows.start?_eq (h : Grows grammar count grown) (hne : grammar.keys ≠ []) :
    grown.start? = grammar.start? := by
  rw [start?, start?, h.chosenStart_eq, h.keys_eq, List.head?_append_of_ne_nil _ hne]

theorem Extends.addRule {fresh : Symbol} {rest : List Symbol}
    (h : grammar.free = fresh :: rest) (productions : List Production) :
    Extends grammar 1 (grammar.addRule fresh productions) where
  count_le := by
    rw [h, List.length_cons]
    omega
  keys_eq := by
    have habsent : fresh ∉ grammar.keys := (mem_free.1 (h ▸ List.mem_cons_self)).2
    rw [keys_addRule, if_neg habsent, h]
    rfl
  chosenStart_eq := rfl
  alternatives_eq := fun left hleft => by
    have habsent : fresh ∉ grammar.keys := (mem_free.1 (h ▸ List.mem_cons_self)).2
    have hne : left ≠ fresh := fun heq => habsent (heq ▸ hleft)
    rw [alternatives_addRule, if_neg hne]

theorem introduce_of_free_nil (h : grammar.free = []) (productions : List Production) :
    grammar.introduce productions = .error .poolExhausted := by
  rw [introduce, allocate_of_free_nil h]
  rfl

theorem introduce_of_free_cons {fresh : Symbol} {rest : List Symbol}
    (h : grammar.free = fresh :: rest) (productions : List Production) :
    grammar.introduce productions = .ok (fresh, grammar.addRule fresh productions) := by
  rw [introduce, allocate_of_free_cons h]
  rfl

theorem exists_free_of_introduce {productions : List Production} {fresh : Symbol}
    (h : grammar.introduce productions = .ok (fresh, grown)) :
    ∃ rest, grammar.free = fresh :: rest ∧ grown = grammar.addRule fresh productions := by
  cases hfree : grammar.free with
  | nil =>
      rw [introduce_of_free_nil hfree] at h
      cases h
  | cons first rest =>
      rw [introduce_of_free_cons hfree] at h
      cases h
      exact ⟨rest, rfl, rfl⟩

theorem alternatives_addRule_self {fresh : Symbol} (h : fresh ∉ grammar.keys)
    (productions : List Production) :
    (grammar.addRule fresh productions).alternatives fresh = addAllNew [] productions := by
  rw [alternatives_addRule, if_pos rfl, alternatives_eq_nil h]

end Grammar

end ChomskyForm
