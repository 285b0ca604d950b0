import ChomskyForm.Conversion.EpsilonFree
import ChomskyForm.Grammar.Samples
import ChomskyForm.Proofs.Derivation
import Mathlib.Data.List.Perm.Subperm

/-!
# The nullable symbols

The saturated set is closed under the rules: a symbol with an alternative over nullable symbols is
nullable itself. Where only nonterminals are defined, the nullable symbols are therefore exactly the
keys that derive the empty word.
-/

namespace ChomskyForm.Grammar

variable {grammar : Grammar}

/-- Adds the left side of a rule with an alternative over known symbols. -/
def noteNullable (known : List Symbol) (rule : Symbol × List Production) : List Symbol :=
  if rule.1 ∉ known ∧ rule.2.any (·.all (· ∈ known)) then known ++ [rule.1] else known

theorem extendNullable_eq (known : List Symbol) :
    grammar.extendNullable known = grammar.rules.entries.foldl noteNullable known := rfl

theorem prefix_noteNullable (known : List Symbol) (rule : Symbol × List Production) :
    known <+: noteNullable known rule := by
  unfold noteNullable
  split
  · exact List.prefix_append known [rule.1]
  · exact List.prefix_rfl

theorem prefix_foldl_noteNullable (known : List Symbol) (rules : List (Symbol × List Production)) :
    known <+: rules.foldl noteNullable known := by
  induction rules generalizing known with
  | nil => exact List.prefix_rfl
  | cons rule rules ih => exact (prefix_noteNullable known rule).trans (ih _)

/-- A scan that adds nothing leaves no rule with something to add. -/
theorem noteNullable_eq_of_foldl_eq {known : List Symbol} {rules : List (Symbol × List Production)}
    (h : rules.foldl noteNullable known = known) :
    ∀ rule ∈ rules, noteNullable known rule = known := by
  induction rules with
  | nil => simp
  | cons first rules ih =>
      have hfirst : noteNullable known first = known := by
        have hle := (prefix_foldl_noteNullable (noteNullable known first) rules).length_le
        have hrest : rules.foldl noteNullable (noteNullable known first) = known := h
        rw [hrest] at hle
        exact ((prefix_noteNullable known first).eq_of_length_le hle).symm
      intro rule hrule
      rcases List.mem_cons.1 hrule with rfl | hrule
      · exact hfirst
      · refine ih ?_ rule hrule
        rwa [List.foldl_cons, hfirst] at h

/-- A step adds a symbol that has an alternative over known symbols. -/
theorem extendNullable_induction {motive : List Symbol → Prop}
    (hstep : ∀ known left production, motive known → left ∉ known →
      production ∈ grammar.alternatives left → (∀ symbol ∈ production, symbol ∈ known) →
      motive (known ++ [left]))
    {known : List Symbol} (hknown : motive known) : motive (grammar.extendNullable known) := by
  rw [extendNullable_eq]
  apply List.foldlRecOn _ noteNullable hknown
  intro known hknown rule hrule
  unfold noteNullable
  split
  · rename_i hadd
    obtain ⟨production, hproduction, hall⟩ := List.any_eq_true.1 hadd.2
    have hright : grammar.alternatives rule.1 = rule.2 := alternatives_of_mem_entries hrule
    apply hstep known rule.1 production hknown hadd.1 (hright ▸ hproduction)
    intro symbol hsymbol
    exact of_decide_eq_true (List.all_eq_true.1 hall symbol hsymbol)
  · exact hknown

theorem nullable_induction {motive : List Symbol → Prop} (hstart : motive grammar.epsilonKeys)
    (hstep : ∀ known left production, motive known → left ∉ known →
      production ∈ grammar.alternatives left → (∀ symbol ∈ production, symbol ∈ known) →
      motive (known ++ [left])) :
    motive grammar.nullable :=
  saturate_induction (fun _ hknown => extendNullable_induction hstep hknown) _ hstart

theorem mem_epsilonKeys {symbol : Symbol} :
    symbol ∈ grammar.epsilonKeys ↔ [] ∈ grammar.alternatives symbol := by
  rw [epsilonKeys, List.mem_filter, decide_eq_true_iff]
  exact ⟨And.right, fun h => ⟨mem_keys_of_mem_alternatives h, h⟩⟩

/-- Distinct keys, and all those with an epsilon production among them. -/
structure NullableSoFar (grammar : Grammar) (known : List Symbol) : Prop where
  nodup : known.Nodup
  mem_keys : ∀ symbol ∈ known, symbol ∈ grammar.keys
  epsilon : ∀ symbol, [] ∈ grammar.alternatives symbol → symbol ∈ known

theorem NullableSoFar.epsilonKeys : NullableSoFar grammar grammar.epsilonKeys where
  nodup := grammar.nodup_keys.filter _
  mem_keys := fun _ h => mem_keys_of_mem_alternatives (mem_epsilonKeys.1 h)
  epsilon := fun _ h => mem_epsilonKeys.2 h

theorem NullableSoFar.append {known : List Symbol} (h : NullableSoFar grammar known)
    {left : Symbol} {production : Production} (hnew : left ∉ known)
    (hproduction : production ∈ grammar.alternatives left) :
    NullableSoFar grammar (known ++ [left]) where
  nodup := h.nodup.append (List.nodup_singleton left) (List.disjoint_singleton.2 hnew)
  mem_keys := fun symbol hmem => by
    rcases List.mem_append.1 hmem with hmem | hmem
    · exact h.mem_keys symbol hmem
    · rw [List.mem_singleton.1 hmem]
      exact mem_keys_of_mem_alternatives hproduction
  epsilon := fun symbol hepsilon => List.mem_append_left _ (h.epsilon symbol hepsilon)

theorem nullableSoFar_nullable : NullableSoFar grammar grammar.nullable :=
  nullable_induction .epsilonKeys fun _ _ _ h hnew hproduction _ => h.append hnew hproduction

theorem mem_keys_of_mem_nullable {symbol : Symbol} (h : symbol ∈ grammar.nullable) :
    symbol ∈ grammar.keys :=
  nullableSoFar_nullable.mem_keys symbol h

/-- As many rounds as there are keys suffice. -/
theorem extendNullable_nullable : grammar.extendNullable grammar.nullable = grammar.nullable := by
  have hstep : ∀ known, NullableSoFar grammar known →
      NullableSoFar grammar (grammar.extendNullable known) := fun known h =>
    extendNullable_induction (fun _ _ _ h hnew hproduction _ => h.append hnew hproduction) h
  have hgrow : ∀ known, NullableSoFar grammar known → grammar.extendNullable known ≠ known →
      known.length < (grammar.extendNullable known).length := by
    intro known _ hne
    have hgrown := prefix_foldl_noteNullable known grammar.rules.entries
    rw [← extendNullable_eq] at hgrown
    refine Nat.lt_of_le_of_ne hgrown.length_le fun hlength => hne ?_
    exact (hgrown.eq_of_length hlength).symm
  have hbound : ∀ known, NullableSoFar grammar known → known.length ≤ grammar.keys.length :=
    fun known h => (h.nodup.subperm h.mem_keys).length_le
  exact step_saturate hstep hgrow hbound grammar.keys.length .epsilonKeys (by omega)

theorem mem_nullable_of_forall_mem {left : Symbol} {production : Production}
    (hproduction : production ∈ grammar.alternatives left)
    (h : ∀ symbol ∈ production, symbol ∈ grammar.nullable) : left ∈ grammar.nullable := by
  by_contra hleft
  have hentry : (left, grammar.alternatives left) ∈ grammar.rules.entries := by
    rw [entries_eq]
    exact List.mem_map.2 ⟨left, mem_keys_of_mem_alternatives hproduction, rfl⟩
  have hsame := noteNullable_eq_of_foldl_eq
    (extendNullable_eq grammar.nullable ▸ extendNullable_nullable) _ hentry
  have hadd : left ∉ grammar.nullable ∧
      (grammar.alternatives left).any (·.all (· ∈ grammar.nullable)) = true := by
    refine ⟨hleft, List.any_eq_true.2 ⟨production, hproduction, List.all_eq_true.2 ?_⟩⟩
    exact fun symbol hsymbol => decide_eq_true (h symbol hsymbol)
  rw [noteNullable, if_pos hadd] at hsame
  have hlength := congrArg List.length hsame
  rw [List.length_append, List.length_singleton] at hlength
  omega

theorem Derives.mem_nullable {form word : List Symbol} (h : grammar.Derives form word)
    (hword : word = []) : ∀ symbol ∈ form, symbol ∈ grammar.nullable := by
  induction h with
  | nil => simp
  | terminal => exact absurd hword (List.cons_ne_nil _ _)
  | nonterminal _ isAlternative _ _ ih₁ ih₂ =>
      obtain ⟨hword₁, hword₂⟩ := List.append_eq_nil_iff.1 hword
      intro symbol hsymbol
      rcases List.mem_cons.1 hsymbol with rfl | hsymbol
      · exact mem_nullable_of_forall_mem isAlternative (ih₁ hword₁)
      · exact ih₂ hword₂ symbol hsymbol

theorem mem_nullable_of_generates {symbol : Symbol} (h : grammar.Generates symbol []) :
    symbol ∈ grammar.nullable :=
  Derives.mem_nullable h rfl symbol List.mem_cons_self

theorem derives_nil_of_forall_generates {form : List Symbol}
    (h : ∀ symbol ∈ form, grammar.Generates symbol []) : grammar.Derives form [] := by
  induction form with
  | nil => exact .nil
  | cons symbol form ih =>
      have hrest := ih fun other hother => h other (List.mem_cons_of_mem _ hother)
      exact derives_cons_iff.2 ⟨[], [], rfl, h symbol List.mem_cons_self, hrest⟩

theorem generates_nil_of_mem_nullable (hkeys : ∀ key ∈ grammar.keys, key.isNonterminal = true)
    {symbol : Symbol} (h : symbol ∈ grammar.nullable) : grammar.Generates symbol [] := by
  have hrule : ∀ left, ∀ production ∈ grammar.alternatives left,
      grammar.Derives production [] → grammar.Generates left [] := by
    intro left production hproduction hderives
    have hleft := hkeys left (mem_keys_of_mem_alternatives hproduction)
    exact (generates_nonterminal_iff hleft).2 ⟨production, hproduction, hderives⟩
  refine nullable_induction (motive := fun known => ∀ symbol ∈ known, grammar.Generates symbol [])
    ?_ ?_ symbol h
  · intro left hleft
    exact hrule left [] (mem_epsilonKeys.1 hleft) .nil
  · intro known left production hknown _ hproduction hall other hother
    rcases List.mem_append.1 hother with hother | hother
    · exact hknown other hother
    · rw [List.mem_singleton.1 hother]
      refine hrule left production hproduction (derives_nil_of_forall_generates ?_)
      exact fun symbol hsymbol => hknown symbol (hall symbol hsymbol)

theorem mem_nullable_iff (hkeys : ∀ key ∈ grammar.keys, key.isNonterminal = true)
    {symbol : Symbol} :
    symbol ∈ grammar.nullable ↔ symbol ∈ grammar.keys ∧ grammar.Generates symbol [] :=
  ⟨fun h => ⟨mem_keys_of_mem_nullable h, generates_nil_of_mem_nullable hkeys h⟩,
    fun h => mem_nullable_of_generates h.2⟩

/-- The order of the keys and of the alternatives decides at most the order of the result. -/
theorem perm_nullable (hkeys : ∀ key ∈ grammar.keys, key.isNonterminal = true) {other : Grammar}
    (hperm : other.keys.Perm grammar.keys)
    (halternatives : ∀ left, (other.alternatives left).Perm (grammar.alternatives left)) :
    other.nullable.Perm grammar.nullable := by
  have hothers : ∀ key ∈ other.keys, key.isNonterminal = true := fun key hkey =>
    hkeys key (hperm.mem_iff.1 hkey)
  have hgenerates : ∀ symbol, other.Generates symbol [] ↔ grammar.Generates symbol [] := by
    intro symbol
    refine generates_iff_of_forms (fun left production hproduction _ hderives => ?_)
      fun left production hproduction _ hderives => ?_
    · exact ⟨production, (halternatives left).mem_iff.1 hproduction, hderives⟩
    · exact ⟨production, (halternatives left).mem_iff.2 hproduction, hderives⟩
  rw [List.perm_ext_iff_of_nodup nullableSoFar_nullable.nodup nullableSoFar_nullable.nodup]
  intro symbol
  rw [mem_nullable_iff hothers, mem_nullable_iff hkeys, hperm.mem_iff, hgenerates]

/-- **The nullable symbols.** The scans come to an end, as one scan for each key is enough and any
further one changes nothing. What they find are the keys that derive the empty word, each once and
none of them a terminal or undefined, whatever the order of the keys and of the alternatives. -/
theorem nullable_exactly (hkeys : ∀ key ∈ grammar.keys, key.isNonterminal = true) :
    grammar.extendNullable grammar.nullable = grammar.nullable ∧
    (∀ rounds, grammar.keys.length ≤ rounds →
      saturate grammar.extendNullable rounds grammar.epsilonKeys = grammar.nullable) ∧
    grammar.nullable.Nodup ∧
    (∀ symbol, symbol ∈ grammar.nullable ↔
      symbol ∈ grammar.keys ∧ grammar.Generates symbol []) ∧
    (∀ symbol, symbol.isTerminal = true ∨ symbol ∉ grammar.keys → symbol ∉ grammar.nullable) ∧
    ∀ other : Grammar, other.keys.Perm grammar.keys →
      (∀ left, (other.alternatives left).Perm (grammar.alternatives left)) →
      other.nullable.Perm grammar.nullable := by
  refine ⟨extendNullable_nullable, fun rounds hle => saturate_of_le extendNullable_nullable hle,
    nullableSoFar_nullable.nodup, fun symbol => mem_nullable_iff hkeys, fun symbol h hmem => ?_,
    fun other => perm_nullable hkeys⟩
  have hkey := mem_keys_of_mem_nullable hmem
  rcases h with hterminal | habsent
  · rw [Symbol.isTerminal_eq_true_iff, hkeys symbol hkey] at hterminal
    cases hterminal
  · exact habsent hkey

/-- Symbols that vanish by way of one another, each defined before the one it needs, and an
undefined one. -/
def vanishingChain : Grammar :=
  sampleGrammar [('S', ["TT", "c"]), ('T', ["UV", "tX"]), ('U', ["V", "u"]), ('V', ["v", "$"]),
    ('W', ["XV", "VwV"])]

theorem nullable_exactly_vanishingChain :
    (∀ key ∈ vanishingChain.keys, key.isNonterminal = true) ∧
    vanishingChain.nullable.map Symbol.char = ['V', 'U', 'T', 'S'] ∧
    ∀ symbol, symbol ∈ vanishingChain.nullable ↔
      symbol ∈ vanishingChain.keys ∧ vanishingChain.Generates symbol [] := by
  have hkeys : ∀ key ∈ vanishingChain.keys, key.isNonterminal = true := by decide
  obtain ⟨-, -, -, hmem, -⟩ := nullable_exactly hkeys
  exact ⟨hkeys, by decide +kernel, hmem⟩

end ChomskyForm.Grammar
