import ChomskyForm.Grammar.Derivation
import ChomskyForm.Proofs.Rules
import Mathlib.Logic.Relation

/-!
# Laws of derivation

Sentential forms derive words piece by piece. From this come the two ways in which grammars are
compared: one simulates the other when each of its rules can be followed there, and a grammar that
agrees with a closed one on the keys of the latter derives the same words from them.

The derivation relation reads a form from left to right. It agrees with rewriting, where any
nonterminal occurrence gives way to one of its alternatives at any time.
-/

namespace ChomskyForm.Grammar

variable {grammar first second : Grammar}

theorem derives_nil_iff {word : List Symbol} : grammar.Derives [] word ↔ word = [] := by
  constructor
  · intro h
    cases h
    rfl
  · rintro rfl
    exact .nil

theorem Derives.append {form₁ form₂ word₁ word₂ : List Symbol} (h₁ : grammar.Derives form₁ word₁)
    (h₂ : grammar.Derives form₂ word₂) : grammar.Derives (form₁ ++ form₂) (word₁ ++ word₂) := by
  induction h₁ with
  | nil => exact h₂
  | terminal isTerminal _ ih => exact .terminal isTerminal ih
  | nonterminal isNonterminal isAlternative inner _ _ ih =>
      rw [List.append_assoc]
      exact .nonterminal isNonterminal isAlternative inner ih

theorem derives_append_iff {form₁ form₂ word : List Symbol} :
    grammar.Derives (form₁ ++ form₂) word ↔
      ∃ word₁ word₂, word = word₁ ++ word₂ ∧ grammar.Derives form₁ word₁ ∧
        grammar.Derives form₂ word₂ := by
  constructor
  · intro h
    generalize hform : form₁ ++ form₂ = form at h
    induction h generalizing form₁ with
    | nil =>
        obtain ⟨rfl, rfl⟩ := List.append_eq_nil_iff.1 hform
        exact ⟨[], [], rfl, .nil, .nil⟩
    | @terminal symbol rest word isTerminal tail ih =>
        cases form₁ with
        | nil =>
            rw [List.nil_append] at hform
            subst hform
            exact ⟨[], _, rfl, .nil, .terminal isTerminal tail⟩
        | cons head form₁ =>
            obtain ⟨rfl, hrest⟩ := List.cons_eq_cons.1 hform
            obtain ⟨word₁, word₂, rfl, h₁, h₂⟩ := ih hrest
            exact ⟨_ :: word₁, word₂, rfl, .terminal isTerminal h₁, h₂⟩
    | @nonterminal symbol production rest start finish isNonterminal isAlternative inner tail _
        ih =>
        cases form₁ with
        | nil =>
            rw [List.nil_append] at hform
            subst hform
            exact ⟨[], _, rfl, .nil, .nonterminal isNonterminal isAlternative inner tail⟩
        | cons head form₁ =>
            obtain ⟨rfl, hrest⟩ := List.cons_eq_cons.1 hform
            obtain ⟨word₁, word₂, rfl, h₁, h₂⟩ := ih hrest
            exact ⟨start ++ word₁, word₂, (List.append_assoc ..).symm,
              .nonterminal isNonterminal isAlternative inner h₁, h₂⟩
  · rintro ⟨word₁, word₂, rfl, h₁, h₂⟩
    exact h₁.append h₂

theorem derives_cons_iff {symbol : Symbol} {form word : List Symbol} :
    grammar.Derives (symbol :: form) word ↔
      ∃ word₁ word₂, word = word₁ ++ word₂ ∧ grammar.Generates symbol word₁ ∧
        grammar.Derives form word₂ := by
  rw [← List.singleton_append, derives_append_iff]
  rfl

theorem generates_terminal_iff {symbol : Symbol} {word : List Symbol}
    (hterminal : symbol.isTerminal = true) : grammar.Generates symbol word ↔ word = [symbol] := by
  constructor
  · intro h
    cases h with
    | terminal _ rest => rw [derives_nil_iff.1 rest]
    | nonterminal isNonterminal =>
        rw [Symbol.isTerminal_eq_true_iff.1 hterminal] at isNonterminal
        exact absurd isNonterminal Bool.false_ne_true
  · rintro rfl
    exact .terminal hterminal .nil

theorem generates_nonterminal_iff {symbol : Symbol} {word : List Symbol}
    (hnonterminal : symbol.isNonterminal = true) :
    grammar.Generates symbol word ↔
      ∃ production ∈ grammar.alternatives symbol, grammar.Derives production word := by
  constructor
  · intro h
    cases h with
    | terminal isTerminal =>
        rw [Symbol.isTerminal_eq_true_iff, hnonterminal] at isTerminal
        exact absurd isTerminal.symm Bool.false_ne_true
    | nonterminal _ isAlternative inner rest =>
        rw [derives_nil_iff.1 rest, List.append_nil]
        exact ⟨_, isAlternative, inner⟩
  · rintro ⟨production, hproduction, h⟩
    have hsingle := Derives.nonterminal hnonterminal hproduction h .nil
    rwa [List.append_nil] at hsingle

/-- Grammars that agree on the symbols of a form agree on the form. -/
theorem derives_iff_of_generates_iff {form : List Symbol}
    (h : ∀ symbol ∈ form, ∀ word, first.Generates symbol word ↔ second.Generates symbol word)
    {word : List Symbol} : first.Derives form word ↔ second.Derives form word := by
  induction form generalizing word with
  | nil => rw [derives_nil_iff, derives_nil_iff]
  | cons symbol form ih =>
      rw [List.forall_mem_cons] at h
      simp only [derives_cons_iff, h.1, ih h.2]

theorem Derives.isTerminal_of_mem {form word : List Symbol} (h : grammar.Derives form word) :
    ∀ symbol ∈ word, symbol.isTerminal = true := by
  induction h with
  | nil => simp
  | terminal isTerminal _ ih =>
      intro symbol hmem
      rcases List.mem_cons.1 hmem with rfl | hmem
      · exact isTerminal
      · exact ih symbol hmem
  | nonterminal _ _ _ _ ih₁ ih₂ =>
      intro symbol hmem
      rcases List.mem_append.1 hmem with hmem | hmem
      · exact ih₁ symbol hmem
      · exact ih₂ symbol hmem

theorem derives_self {word : List Symbol} (h : ∀ symbol ∈ word, symbol.isTerminal = true) :
    grammar.Derives word word := by
  induction word with
  | nil => exact .nil
  | cons symbol word ih =>
      have hrest : ∀ other ∈ word, other.isTerminal = true := fun other hmem =>
        h other (List.mem_cons_of_mem _ hmem)
      exact .terminal (h symbol List.mem_cons_self) (ih hrest)

/-- Without epsilon productions a form derives no word shorter than itself. -/
theorem Derives.length_le
    (hepsilon : ∀ left, [] ∉ grammar.alternatives left) {form word : List Symbol}
    (h : grammar.Derives form word) : form.length ≤ word.length := by
  induction h with
  | nil => exact Nat.le_refl _
  | terminal _ _ ih =>
      rw [List.length_cons, List.length_cons]
      omega
  | @nonterminal symbol production _ _ _ _ isAlternative _ _ ih₁ ih₂ =>
      have hpos : 0 < production.length := List.length_pos_of_ne_nil fun hnil =>
        hepsilon symbol (hnil ▸ isAlternative)
      rw [List.length_cons, List.length_append]
      omega

/-! ### Simulation -/

/-- A grammar that follows every rule of another derives what the other derives. -/
theorem Derives.simulate
    (hrule : ∀ symbol production word, symbol.isNonterminal = true →
      production ∈ first.alternatives symbol → second.Derives production word →
      second.Generates symbol word)
    {form word : List Symbol} (h : first.Derives form word) : second.Derives form word := by
  induction h with
  | nil => exact .nil
  | terminal isTerminal _ ih => exact .terminal isTerminal ih
  | nonterminal isNonterminal isAlternative _ _ ih₁ ih₂ =>
      exact derives_cons_iff.2
        ⟨_, _, rfl, hrule _ _ _ isNonterminal isAlternative ih₁, ih₂⟩

/-- Alternatives may be replaced by forms that derive the same words. -/
theorem generates_iff_of_forms
    (hforth : ∀ symbol, ∀ production ∈ first.alternatives symbol, ∀ word,
      second.Derives production word →
      ∃ form ∈ second.alternatives symbol, second.Derives form word)
    (hback : ∀ symbol, ∀ production ∈ second.alternatives symbol, ∀ word,
      first.Derives production word →
      ∃ form ∈ first.alternatives symbol, first.Derives form word)
    {symbol : Symbol} {word : List Symbol} :
    first.Generates symbol word ↔ second.Generates symbol word := by
  constructor
  · apply Derives.simulate
    intro symbol production word hnonterminal hproduction h
    exact (generates_nonterminal_iff hnonterminal).2 (hforth symbol production hproduction word h)
  · apply Derives.simulate
    intro symbol production word hnonterminal hproduction h
    exact (generates_nonterminal_iff hnonterminal).2 (hback symbol production hproduction word h)

theorem generates_iff_of_alternatives_eq
    (h : ∀ left, first.alternatives left = second.alternatives left) {symbol : Symbol}
    {word : List Symbol} : first.Generates symbol word ↔ second.Generates symbol word := by
  refine generates_iff_of_forms (fun left production hproduction _ hderives => ?_)
    fun left production hproduction _ hderives => ?_
  · exact ⟨production, h left ▸ hproduction, hderives⟩
  · exact ⟨production, (h left).symm ▸ hproduction, hderives⟩

/-- A form over symbols on whose alternatives two grammars agree derives the same in both. -/
theorem Derives.transfer (Known : Symbol → Prop)
    (hclosed : ∀ left, Known left → ∀ production ∈ first.alternatives left, ∀ symbol ∈ production,
      symbol.isNonterminal = true → Known symbol)
    (hagree : ∀ left, Known left → second.alternatives left = first.alternatives left)
    {form word : List Symbol} (h : first.Derives form word)
    (hform : ∀ symbol ∈ form, symbol.isNonterminal = true → Known symbol) :
    second.Derives form word := by
  induction h with
  | nil => exact .nil
  | terminal isTerminal _ ih =>
      exact .terminal isTerminal (ih fun symbol hmem => hform symbol (List.mem_cons_of_mem _ hmem))
  | @nonterminal symbol production form word₁ word₂ isNonterminal isAlternative _ _ ih₁ ih₂ =>
      have hknown : Known symbol := hform symbol List.mem_cons_self isNonterminal
      have hsame : production ∈ second.alternatives symbol := by
        rw [hagree symbol hknown]
        exact isAlternative
      refine .nonterminal isNonterminal hsame (ih₁ ?_) (ih₂ ?_)
      · exact hclosed symbol hknown production isAlternative
      · exact fun other hmem => hform other (List.mem_cons_of_mem _ hmem)

theorem generates_iff_of_agree (hclosed : first.Closed)
    (hagree : ∀ left ∈ first.keys, second.alternatives left = first.alternatives left)
    {symbol : Symbol} (hsymbol : symbol ∈ first.keys) {word : List Symbol} :
    second.Generates symbol word ↔ first.Generates symbol word := by
  have hform : ∀ other ∈ [symbol], other.isNonterminal = true → other ∈ first.keys := by
    intro other hmem _
    rw [List.mem_singleton.1 hmem]
    exact hsymbol
  constructor
  · intro h
    refine Derives.transfer (· ∈ first.keys) (fun left hleft production hproduction => ?_)
      (fun left hleft => (hagree left hleft).symm) h hform
    rw [hagree left hleft] at hproduction
    exact hclosed left production hproduction
  · intro h
    exact Derives.transfer (· ∈ first.keys) (fun left _ => hclosed left) hagree h hform

/-! ### Rewriting -/

/-- One nonterminal occurrence of a form gives way to one of its alternatives. -/
inductive Rewrites (grammar : Grammar) : List Symbol → List Symbol → Prop
  | replace {before after production : List Symbol} {symbol : Symbol}
      (isNonterminal : symbol.isNonterminal = true)
      (isAlternative : production ∈ grammar.alternatives symbol) :
      Rewrites grammar (before ++ symbol :: after) (before ++ production ++ after)

open Relation

theorem Rewrites.append_left {form form' : List Symbol} (start : List Symbol)
    (h : ReflTransGen grammar.Rewrites form form') :
    ReflTransGen grammar.Rewrites (start ++ form) (start ++ form') := by
  induction h with
  | refl => exact .refl
  | tail _ hstep ih =>
      obtain ⟨isNonterminal, isAlternative⟩ := hstep
      apply ih.tail
      simp only [← List.append_assoc]
      exact .replace isNonterminal isAlternative

theorem Rewrites.append_right {form form' : List Symbol} (finish : List Symbol)
    (h : ReflTransGen grammar.Rewrites form form') :
    ReflTransGen grammar.Rewrites (form ++ finish) (form' ++ finish) := by
  induction h with
  | refl => exact .refl
  | tail _ hstep ih =>
      obtain ⟨isNonterminal, isAlternative⟩ := hstep
      apply ih.tail
      simp only [List.append_assoc, List.cons_append]
      rw [← List.append_assoc]
      exact .replace isNonterminal isAlternative

theorem Derives.rewrites {form word : List Symbol} (h : grammar.Derives form word) :
    ReflTransGen grammar.Rewrites form word := by
  induction h with
  | nil => exact .refl
  | @terminal symbol form word _ _ ih => exact Rewrites.append_left [symbol] ih
  | @nonterminal symbol production form word₁ word₂ isNonterminal isAlternative _ _ ih₁ ih₂ =>
      have hstep : grammar.Rewrites ([] ++ symbol :: form) ([] ++ production ++ form) :=
        .replace isNonterminal isAlternative
      exact .head hstep ((Rewrites.append_right form ih₁).trans (Rewrites.append_left word₁ ih₂))

/-- What a form derives is what it can be rewritten to, once no nonterminal is left. -/
theorem derives_iff_rewrites {form word : List Symbol} :
    grammar.Derives form word ↔
      (∀ symbol ∈ word, symbol.isTerminal = true) ∧ ReflTransGen grammar.Rewrites form word := by
  constructor
  · exact fun h => ⟨h.isTerminal_of_mem, h.rewrites⟩
  · rintro ⟨hword, h⟩
    induction h using ReflTransGen.head_induction_on with
    | refl => exact derives_self hword
    | head hstep _ ih =>
        obtain ⟨isNonterminal, isAlternative⟩ := hstep
        obtain ⟨word', word₃, rfl, h', h₃⟩ := derives_append_iff.1 ih
        obtain ⟨word₁, word₂, rfl, h₁, h₂⟩ := derives_append_iff.1 h'
        rw [List.append_assoc]
        exact h₁.append (.nonterminal isNonterminal isAlternative h₂ h₃)

end ChomskyForm.Grammar
