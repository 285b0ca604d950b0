import ChomskyForm.Grammar.Definition
import ChomskyForm.Proofs.Alphabet
import ChomskyForm.Proofs.Budget
import ChomskyForm.Text.Source

/-!
# Well-formed grammars

A grammar that was declared step by step or read from a text defines nonterminals only, repeats no
alternative and starts with a symbol that it defines. A conversion keeps this at every stage, though
neither isolation nor binarization looks for repetitions: the check before it makes sure that no
right side uses a letter before it is taken.
-/

namespace ChomskyForm

namespace Grammar

variable {grammar grown result : Grammar} {left symbol start : Symbol} {keepEmptyStart : Bool}
  {stages : Stages} {count : Nat}

/-- Only nonterminals are defined, and none of them has an alternative twice. -/
structure SoundRules (grammar : Grammar) : Prop where
  isNonterminal : ∀ key ∈ grammar.keys, key.isNonterminal = true
  unique : grammar.Unique

/-- The rules are sound, and a chosen start symbol is defined. -/
structure WellFormed (grammar : Grammar) : Prop extends SoundRules grammar where
  start_mem : ∀ start, grammar.chosenStart = some start → start ∈ grammar.keys

theorem WellFormed.mem_keys_of_start? (h : grammar.WellFormed)
    (hstart : grammar.start? = some start) : start ∈ grammar.keys := by
  cases hchosen : grammar.chosenStart with
  | none =>
      rw [start?, hchosen, Option.none_or] at hstart
      exact List.mem_of_head? hstart
  | some chosen =>
      rw [start?, hchosen, Option.some_or] at hstart
      exact h.start_mem start (hchosen.trans hstart)

theorem mem_keys_addRule {productions : List Production} :
    symbol ∈ (grammar.addRule left productions).keys ↔ symbol ∈ grammar.keys ∨ symbol = left := by
  rw [keys_addRule]
  split
  · rename_i hleft
    exact (or_iff_left_of_imp fun heq => heq ▸ hleft).symm
  · rw [List.mem_append, List.mem_singleton]

theorem SoundRules.empty : SoundRules {} where
  isNonterminal := fun _ hkey => absurd hkey List.not_mem_nil
  unique := unique_empty

theorem SoundRules.addRule (h : grammar.SoundRules) (hleft : left.isNonterminal = true)
    (productions : List Production) : (grammar.addRule left productions).SoundRules where
  isNonterminal := fun key hkey => by
    rcases mem_keys_addRule.1 hkey with hold | rfl
    · exact h.isNonterminal key hold
    · exact hleft
  unique := h.unique.addRule left productions

theorem SoundRules.setStart (h : grammar.SoundRules) (start : Symbol) :
    (grammar.setStart start).SoundRules where
  isNonterminal := h.isNonterminal
  unique := h.unique.setStart start

theorem WellFormed.empty : WellFormed {} where
  toSoundRules := .empty
  start_mem := fun _ hstart => by cases hstart

theorem WellFormed.addRule (h : grammar.WellFormed) (hleft : left.isNonterminal = true)
    (productions : List Production) : (grammar.addRule left productions).WellFormed where
  toSoundRules := h.toSoundRules.addRule hleft productions
  start_mem := fun start hstart => mem_keys_addRule.2 (.inl (h.start_mem start hstart))

/-! ### Declared and read grammars -/

theorem isNonterminal_of_readNonterminal {c : Char} (h : Symbol.readNonterminal c = .ok symbol) :
    symbol.isNonterminal = true := by
  obtain ⟨read, -, h⟩ := exists_ok_of_bind h
  split at h
  · rename_i hnonterminal
    cases h
    exact hnonterminal
  · cases h

theorem SoundRules.applyDeclaration (h : grammar.SoundRules) {declaration : Declaration}
    (hok : grammar.applyDeclaration declaration = .ok result) : result.SoundRules := by
  cases declaration with
  | rule left alternatives =>
      obtain ⟨symbol, hsymbol, hok⟩ := exists_ok_of_bind hok
      obtain ⟨productions, -, hok⟩ := exists_ok_of_bind hok
      cases hok
      exact h.addRule (isNonterminal_of_readNonterminal hsymbol) productions
  | nonterminal name =>
      obtain ⟨symbol, hsymbol, hok⟩ := exists_ok_of_bind hok
      cases hok
      exact h.addRule (isNonterminal_of_readNonterminal hsymbol) []
  | start name =>
      obtain ⟨symbol, -, hok⟩ := exists_ok_of_bind hok
      cases hok
      exact h.setStart symbol

theorem SoundRules.applyDeclarations (h : grammar.SoundRules) {declarations : List Declaration}
    (hok : declarations.foldlM Grammar.applyDeclaration grammar = .ok result) :
    result.SoundRules := by
  induction declarations generalizing grammar with
  | nil =>
      cases hok
      exact h
  | cons declaration declarations ih =>
      obtain ⟨next, hnext, hok⟩ := exists_ok_of_bind hok
      exact ih (h.applyDeclaration hnext) hok

/-- The check at the end refuses a start symbol that no declaration has defined. -/
theorem wellFormed_of_define {declarations : List Declaration}
    (h : define declarations = .ok grammar) : grammar.WellFormed := by
  obtain ⟨built, hbuilt, h⟩ := exists_ok_of_bind h
  have hrules := SoundRules.empty.applyDeclarations hbuilt
  rw [checkStart] at h
  split at h
  · rename_i start hstart
    split at h
    · rename_i hmem
      cases h
      refine ⟨hrules, fun other hother => ?_⟩
      rw [hstart] at hother
      exact Option.some.inj hother ▸ hmem
    · cases h
  · rename_i hnone
    cases h
    refine ⟨hrules, fun other hother => ?_⟩
    rw [hnone] at hother
    cases hother

theorem isNonterminal_of_readLeft {tokens : List Token} (h : Line.readLeft tokens = .ok left) :
    left.isNonterminal = true := by
  unfold Line.readLeft at h
  split at h
  · split at h
    · rename_i hnonterminal
      cases h
      exact hnonterminal
    · cases h
  · cases h

theorem isNonterminal_of_read {text : List Char} {alternatives : List Production}
    (h : Line.read text = .ok (.rule left alternatives)) : left.isNonterminal = true := by
  unfold Line.read at h
  split at h
  · cases h
  · unfold Line.ofTokens at h
    split at h
    · cases h
    · cases h
    · split at h
      · obtain ⟨symbol, hsymbol, h⟩ := exists_ok_of_bind h
        obtain ⟨productions, -, h⟩ := exists_ok_of_bind h
        cases h
        exact isNonterminal_of_readLeft hsymbol
      · cases h

theorem WellFormed.ofLines (h : grammar.WellFormed) (number : Nat) (texts : List (List Char)) :
    (Reading.ofLines number grammar texts).grammar.WellFormed := by
  induction texts generalizing grammar number with
  | nil => exact h
  | cons text rest ih =>
      unfold Reading.ofLines
      split
      · exact ih h (number + 1)
      · exact h
      · rename_i left alternatives hline
        exact ih (h.addRule (isNonterminal_of_read hline) alternatives) (number + 1)
      · exact ih h (number + 1)

theorem wellFormed_ofText (text : List Char) : (Reading.ofText text).grammar.WellFormed :=
  WellFormed.empty.ofLines 1 (lines text)

/-! ### Through a conversion -/

theorem WellFormed.removeEpsilon (h : grammar.WellFormed) (nullable : List Symbol) :
    (grammar.removeEpsilon nullable).WellFormed where
  isNonterminal := fun key hkey => h.isNonterminal key (keys_removeEpsilon ▸ hkey)
  unique := h.unique.removeEpsilon nullable
  start_mem := fun start hstart => keys_removeEpsilon.symm ▸ h.start_mem start hstart

theorem WellFormed.withEmptyStart (h : grammar.WellFormed) {fresh : Symbol}
    (hfresh : fresh.isNonterminal = true) (start : Symbol) :
    (grammar.withEmptyStart start fresh).WellFormed where
  toSoundRules := (h.toSoundRules.addRule hfresh [[start], []]).setStart fresh
  start_mem := fun other hother => by
    rw [← Option.some.inj hother]
    exact mem_keys_addRule.2 (.inr rfl)

theorem WellFormed.removeUnits (h : grammar.WellFormed) : grammar.removeUnits.WellFormed where
  isNonterminal := fun key hkey => h.isNonterminal key (keys_removeUnits ▸ hkey)
  unique := h.unique.removeUnits
  start_mem := fun start hstart => keys_removeUnits.symm ▸ h.start_mem start hstart

theorem WellFormed.of_grows (h : grammar.WellFormed) (hgrows : Grows grammar count grown)
    (hunique : grown.Unique) : grown.WellFormed where
  isNonterminal := hgrows.isNonterminal h.isNonterminal
  unique := hunique
  start_mem := fun start hstart => by
    rw [hgrows.chosenStart_eq] at hstart
    exact hgrows.mem_keys (h.start_mem start hstart)

theorem Binarization.closed (h : Binarization grammar result) (hclosed : grammar.Closed) :
    result.Closed := by
  intro left production hproduction symbol hsymbol hnonterminal
  obtain ⟨hold, -⟩ | ⟨first, second, rfl, hsymbols⟩ := h.mem_alternatives hproduction
  · exact h.mem_keys (hclosed left production hold symbol hsymbol hnonterminal)
  · obtain ⟨source, hsource, -, hmem⟩ | ⟨hkey, -⟩ := hsymbols symbol hsymbol
    · obtain ⟨other, hother⟩ := mem_rightSides.1 hsource
      exact h.mem_keys (hclosed other source hother symbol hmem hnonterminal)
    · exact hkey

theorem undefinedReferences_eq_nil_iff : grammar.undefinedReferences = [] ↔ grammar.Closed := by
  rw [closed_iff_find?_eq_none, ← head?_undefinedReferences, List.head?_eq_none_iff]

namespace Conversion

theorem wellFormed_epsilonFree (h : Conversion grammar keepEmptyStart stages)
    (hgrammar : grammar.WellFormed) : stages.epsilonFree.WellFormed := by
  have hreduced := hgrammar.removeEpsilon grammar.nullable
  rcases toEpsilonFree_eq_ok h.epsilonFree with ⟨-, heq⟩ | ⟨-, start, fresh, -, -, hfree, heq⟩
  · exact heq ▸ hreduced
  · exact heq ▸ hreduced.withEmptyStart (mem_free.1 hfree).1 start

theorem wellFormed_unitFree (h : Conversion grammar keepEmptyStart stages)
    (hgrammar : grammar.WellFormed) : stages.unitFree.WellFormed :=
  h.unitFree ▸ (h.wellFormed_epsilonFree hgrammar).removeUnits

theorem wellFormed_isolated (h : Conversion grammar keepEmptyStart stages)
    (hgrammar : grammar.WellFormed) : stages.isolated.WellFormed := by
  have hunitFree := h.wellFormed_unitFree hgrammar
  exact hunitFree.of_grows h.grows_isolated
    ((unique_isolateTerminals_iff hunitFree.unique h.isolated).2
      (h.unitFree_closed.staysApart h.isolated))

theorem wellFormed_binary (h : Conversion grammar keepEmptyStart stages)
    (hgrammar : grammar.WellFormed) : stages.binary.WellFormed := by
  have hisolated := h.wellFormed_isolated hgrammar
  exact hisolated.of_grows h.binarization.toGrows
    ((unique_binarize_iff hisolated.unique h.binary).2 (h.isolated_closed.pairsApart h.binary))

theorem alphabet_epsilonFree (h : Conversion grammar keepEmptyStart stages)
    (hkeys : ∀ key ∈ grammar.keys, key.isNonterminal = true) :
    stages.epsilonFree.alphabet = grammar.alphabet := by
  rcases toEpsilonFree_eq_ok h.epsilonFree with ⟨-, heq⟩ | ⟨-, start, fresh, -, hnullable,
    hfree, heq⟩
  · rw [heq, alphabet_removeEpsilon]
  · have hstart := hkeys start (mem_keys_of_mem_nullable hnullable)
    rw [heq, alphabet_withEmptyStart (notMem_keys_reduced hfree) hstart, alphabet_removeEpsilon]

theorem alphabet_unitFree (h : Conversion grammar keepEmptyStart stages) :
    stages.unitFree.alphabet = stages.epsilonFree.alphabet := by
  rw [h.unitFree, alphabet_removeUnits]

theorem start?_isolated (h : Conversion grammar keepEmptyStart stages) :
    stages.isolated.start? = stages.epsilonFree.start? := by
  rw [h.grows_isolated.start?_eq, h.start?_unitFree]
  rw [h.keys_unitFree]
  exact fun hnil => h.keys_ne_nil (List.subset_nil.1 (hnil ▸ h.keys_subset))

theorem forall_stage (h : Conversion grammar keepEmptyStart stages)
    (hgrammar : grammar.WellFormed) :
    ∀ stage ∈ stages.titled.map Prod.snd,
      stage.WellFormed ∧ stage.Closed ∧ stage.alphabet = grammar.alphabet := by
  have hepsilonFree := h.alphabet_epsilonFree hgrammar.isNonterminal
  have hunitFree := h.alphabet_unitFree.trans hepsilonFree
  have hisolated := (alphabet_isolateTerminals h.isolated).trans hunitFree
  have hbinary := h.binarization.alphabet_eq.trans hisolated
  simp only [Stages.titled, List.map_cons, List.map_nil, List.forall_mem_cons, h.initial]
  exact ⟨⟨hgrammar, h.closed, trivial⟩,
    ⟨h.wellFormed_epsilonFree hgrammar, h.epsilonFree_closed, hepsilonFree⟩,
    ⟨h.wellFormed_unitFree hgrammar, h.unitFree_closed, hunitFree⟩,
    ⟨h.wellFormed_isolated hgrammar, h.isolated_closed, hisolated⟩,
    ⟨h.wellFormed_binary hgrammar, h.binarization.closed h.isolated_closed, hbinary⟩,
    fun _ hmem => absurd hmem List.not_mem_nil⟩

/-- Each stage appends its new symbols to those of the stage before it. -/
theorem isChain_keys (h : Conversion grammar keepEmptyStart stages) :
    (stages.titled.map fun stage => stage.2.keys).IsChain (· <+: ·) := by
  obtain ⟨added, hadded, -⟩ := keys_toEpsilonFree h.epsilonFree
  have hepsilonFree : stages.initial.keys <+: stages.epsilonFree.keys := by
    rw [h.initial, hadded]
    exact List.prefix_append _ _
  have hunitFree : stages.epsilonFree.keys <+: stages.unitFree.keys :=
    h.keys_unitFree ▸ List.prefix_rfl
  have hisolated : stages.unitFree.keys <+: stages.isolated.keys :=
    h.grows_isolated.keys_eq ▸ List.prefix_append _ _
  have hbinary : stages.isolated.keys <+: stages.binary.keys :=
    h.binarization.keys_eq ▸ List.prefix_append _ _
  simp only [Stages.titled, List.map_cons, List.map_nil]
  exact .cons_cons hepsilonFree (.cons_cons hunitFree (.cons_cons hisolated
    (.cons_cons hbinary (.singleton _))))

theorem forall_start?_eq (h : Conversion grammar keepEmptyStart stages) :
    ∀ stage ∈ stages.titled.tail.map Prod.snd, stage.start? = stages.epsilonFree.start? := by
  simp only [Stages.titled, List.tail_cons, List.map_cons, List.map_nil, List.forall_mem_cons]
  exact ⟨trivial, h.start?_unitFree, h.start?_isolated, h.start?_binary,
    fun _ hmem => absurd hmem List.not_mem_nil⟩

end Conversion

/-- **Stage invariant.** A grammar that was declared, or read from whatever text, is well formed. A
successful conversion of a well-formed grammar passes through well-formed grammars without undefined
references, all with the alphabet of the grammar. Each of them lists the symbols of the one before
it first, and all after the first have the same start symbol. -/
theorem convert_keeps_wellFormed :
    (∀ declarations grammar, define declarations = .ok grammar → grammar.WellFormed) ∧
    (∀ text, (Reading.ofText text).grammar.WellFormed) ∧
    ∀ (grammar : Grammar) (keepEmptyStart : Bool) (stages : Stages), grammar.WellFormed →
      grammar.convert keepEmptyStart = .ok stages →
      stages.initial = grammar ∧
      (∀ stage ∈ stages.titled.map Prod.snd,
        stage.WellFormed ∧ stage.undefinedReferences = [] ∧ stage.alphabet = grammar.alphabet) ∧
      (stages.titled.map fun stage => stage.2.keys).IsChain (· <+: ·) ∧
      ∀ stage ∈ stages.titled.tail.map Prod.snd, stage.start? = stages.epsilonFree.start? := by
  refine ⟨fun _ _ => wellFormed_of_define, wellFormed_ofText, ?_⟩
  intro grammar keepEmptyStart stages hgrammar hok
  have h := conversion_of_ok hok
  refine ⟨h.initial, fun stage hstage => ?_, h.isChain_keys, h.forall_start?_eq⟩
  obtain ⟨hwellFormed, hclosed, halphabet⟩ := h.forall_stage hgrammar stage hstage
  exact ⟨hwellFormed, undefinedReferences_eq_nil_iff.2 hclosed, halphabet⟩

theorem convert_keeps_wellFormed_nestedPairs :
    ∃ declarations, define declarations = .ok nestedPairs ∧
    (Reading.ofText "S -> aSb | T | $\nT -> TT | c\n".toList).grammar = nestedPairs ∧
    nestedPairs.WellFormed ∧
    ∃ stages, nestedPairs.convert true = .ok stages ∧
      (∀ stage ∈ stages.titled.map Prod.snd, stage.WellFormed ∧ stage.undefinedReferences = [] ∧
        stage.alphabet = [⟨'a', rfl⟩, ⟨'b', rfl⟩, ⟨'c', rfl⟩]) ∧
      (stages.titled.map fun stage => stage.2.keys).IsChain (· <+: ·) := by
  have hdeclared : define (declareRules [('S', ["aSb", "T", "$"]), ('T', ["TT", "c"])]) =
      .ok nestedPairs := by
    decide +kernel
  have halphabet : nestedPairs.alphabet = [⟨'a', rfl⟩, ⟨'b', rfl⟩, ⟨'c', rfl⟩] := by
    decide +kernel
  obtain ⟨hdefine, -, hconvert⟩ := convert_keeps_wellFormed
  have hwellFormed := hdefine _ _ hdeclared
  obtain ⟨stages, h⟩ := exists_convert_nestedPairs
  obtain ⟨-, hstages, hchain, -⟩ := hconvert nestedPairs true stages hwellFormed h
  rw [halphabet] at hstages
  exact ⟨_, hdeclared, by decide +kernel, hwellFormed, stages, h, hstages, hchain⟩

end Grammar

end ChomskyForm
