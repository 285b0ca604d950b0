import ChomskyForm.Proofs.Language
import ChomskyForm.Proofs.Preservation
import ChomskyForm.Proofs.Recognition
import ChomskyForm.Proofs.WellFormed

/-!
# Grammars with the same rules

Two grammars are compared by their rules and by their choice of a start symbol, and the order in
which they define their symbols does not count. It does not count for what a symbol derives either.
Where no start symbol was chosen, though, it decides which symbol starts.

As long as the start symbols agree, the first two stages of a conversion take grammars with the same
rules to such grammars. The last two hand out fresh letters in the order of the rules, so their
results may differ by more than an order, but they take as many letters from both.
-/

namespace ChomskyForm

theorem OrderedMap.sameBindings_iff {Key Value : Type} [DecidableEq Key]
    {first second : OrderedMap Key Value} :
    first.SameBindings second ↔ ∀ key, first.get? key = second.get? key := by
  constructor
  · rintro ⟨hvalues, hkeys⟩ key
    by_cases hkey : key ∈ first.keys
    · exact hvalues key hkey
    · rw [get?_eq_none_iff.2 hkey, get?_eq_none_iff.2 (mt (hkeys key) hkey)]
  · intro h
    refine ⟨fun key _ => h key, fun key hkey => ?_⟩
    by_contra habsent
    rw [← get?_eq_none_iff, h, get?_eq_none_iff] at habsent
    exact habsent hkey

/-! ### Only the members of a set count -/

namespace Production

variable {set other : List Symbol}

theorem deletions_congr (h : ∀ symbol, symbol ∈ set ↔ symbol ∈ other) (count : Nat)
    (production : Production) :
    deletions set count production = deletions other count production := by
  induction production generalizing count with
  | nil => cases count <;> rfl
  | cons symbol production ih =>
      cases count with
      | zero => rfl
      | succ count => simp only [deletions, h, ih]

theorem variants_congr (h : ∀ symbol, symbol ∈ set ↔ symbol ∈ other) (production : Production) :
    variants set production = variants other production := by
  simp only [variants, h, deletions_congr h]

end Production

namespace Grammar

/-- The walk asks only whether a symbol is still unseen. -/
theorem walk_eq_of_perm {targets : Symbol → List Symbol} {pending unseen other : List Symbol}
    (h : unseen.Perm other) : walk targets pending unseen = walk targets pending other := by
  fun_induction walk targets pending unseen generalizing other with
  | case1 => rw [walk]
  | case2 unseen symbol rest hmem ih =>
      rw [walk, if_pos (h.mem_iff.1 hmem), ih (h.erase symbol)]
  | case3 unseen symbol rest hmem ih => rw [walk, if_neg (mt h.mem_iff.2 hmem), ih h]

variable {grammar first second : Grammar} {keepEmptyStart : Bool} {stages others : Stages}
  {word : List Symbol}

/-- The start symbol derives the word. -/
def HasWord (grammar : Grammar) (word : List Symbol) : Prop :=
  ∃ start, grammar.start? = some start ∧ grammar.Generates start word

theorem WellFormed.mem_words_iff (h : grammar.WellFormed) {maxLength : Nat} :
    word ∈ grammar.words maxLength ↔ word.length ≤ maxLength ∧ grammar.HasWord word :=
  Grammar.mem_words_iff h.isNonterminal fun start hstart =>
    h.isNonterminal start (h.mem_keys_of_start? hstart)

/-! ### The same rules -/

namespace SameRules

theorem get?_eq (h : first.SameRules second) (left : Symbol) :
    first.rules.get? left = second.rules.get? left :=
  OrderedMap.sameBindings_iff.1 h.1 left

theorem symm (h : first.SameRules second) : second.SameRules first :=
  ⟨OrderedMap.sameBindings_iff.2 fun left => (h.get?_eq left).symm, h.2.symm⟩

theorem mem_keys_iff (h : first.SameRules second) {left : Symbol} :
    left ∈ first.keys ↔ left ∈ second.keys := by
  rw [← not_iff_not]
  exact OrderedMap.get?_eq_none_iff.symm.trans (h.get?_eq left ▸ OrderedMap.get?_eq_none_iff)

theorem isNonterminal (h : first.SameRules second)
    (hkeys : ∀ key ∈ first.keys, key.isNonterminal = true) :
    ∀ key ∈ second.keys, key.isNonterminal = true :=
  fun key hkey => hkeys key (h.mem_keys_iff.2 hkey)

theorem perm_keys (h : first.SameRules second) : first.keys.Perm second.keys :=
  (List.perm_ext_iff_of_nodup first.nodup_keys second.nodup_keys).2 fun _ => h.mem_keys_iff

theorem alternatives_eq (h : first.SameRules second) :
    first.alternatives = second.alternatives := by
  funext left
  rw [alternatives, alternatives, h.get?_eq]

/-- The start symbols agree where one was chosen, and otherwise where the first keys do. -/
theorem start?_eq_iff (h : first.SameRules second) :
    first.start? = second.start? ↔
      first.chosenStart ≠ none ∨ first.keys.head? = second.keys.head? := by
  rw [start?, start?, ← h.2]
  cases first.chosenStart <;> simp

theorem free_eq (h : first.SameRules second) : first.free = second.free := by
  simp only [free, h.mem_keys_iff]

theorem closed (h : first.SameRules second) (hclosed : first.Closed) : second.Closed := by
  intro left production hproduction symbol hsymbol hnonterminal
  rw [← h.alternatives_eq] at hproduction
  exact h.mem_keys_iff.1 (hclosed left production hproduction symbol hsymbol hnonterminal)

theorem mapAlternatives {change change' : Symbol → List Production → List Production}
    (h : first.SameRules second)
    (hchange : ∀ left,
      change left (first.alternatives left) = change' left (second.alternatives left)) :
    (first.mapAlternatives change).SameRules (second.mapAlternatives change') := by
  refine ⟨OrderedMap.sameBindings_iff.2 fun left => ?_, h.2⟩
  have hright := hchange left
  rw [Grammar.mapAlternatives, Grammar.mapAlternatives, OrderedMap.get?_mapValues,
    OrderedMap.get?_mapValues, ← h.get?_eq]
  rw [alternatives, alternatives, ← h.get?_eq] at hright
  cases hget : first.rules.get? left with
  | none => rfl
  | some right =>
      rw [hget] at hright
      exact congrArg some hright

theorem addRule (h : first.SameRules second) (left : Symbol) (productions : List Production) :
    (first.addRule left productions).SameRules (second.addRule left productions) := by
  refine ⟨OrderedMap.sameBindings_iff.2 fun sought => ?_, h.2⟩
  simp only [Grammar.addRule, OrderedMap.get?_update, h.get?_eq]

theorem setStart (h : first.SameRules second) (start : Symbol) :
    (first.setStart start).SameRules (second.setStart start) :=
  ⟨h.1, rfl⟩

/-! ### Words -/

theorem generates_iff (h : first.SameRules second) {symbol : Symbol} :
    first.Generates symbol word ↔ second.Generates symbol word :=
  generates_iff_of_alternatives_eq (congrFun h.alternatives_eq)

theorem derives_iff (h : first.SameRules second) {form : List Symbol} :
    first.Derives form word ↔ second.Derives form word :=
  derives_iff_of_generates_iff fun _ _ _ => h.generates_iff

theorem yields_iff (h : first.SameRules second) {symbol : Symbol} :
    first.Yields symbol word ↔ second.Yields symbol word := by
  simp only [Yields, h.alternatives_eq, h.derives_iff]

theorem normalPart (h : first.SameRules second) : first.normalPart.SameRules second.normalPart :=
  h.mapAlternatives fun left => by rw [h.alternatives_eq]

theorem recognizes_eq (h : first.SameRules second) (hstart : first.start? = second.start?)
    (text : List Char) : first.recognizes text = second.recognizes text := by
  rw [Bool.eq_iff_iff, recognizes_iff_yields, recognizes_iff_yields]
  simp only [hstart, h.alternatives_eq, h.normalPart.yields_iff]

theorem hasWord_iff (h : first.SameRules second) (hstart : first.start? = second.start?) :
    first.HasWord word ↔ second.HasWord word := by
  simp only [HasWord, hstart, h.generates_iff]

theorem words_eq (h : first.SameRules second) (hstart : first.start? = second.start?)
    (hfirst : first.WellFormed) (hsecond : second.WellFormed) (maxLength : Nat) :
    first.words maxLength = second.words maxLength := by
  have hascending := pairwise_words hfirst.isNonterminal maxLength
  refine hascending.eq_of_mem_iff (pairwise_words hsecond.isNonterminal maxLength) fun word => ?_
  rw [hfirst.mem_words_iff, hsecond.mem_words_iff, h.hasWord_iff hstart]

/-! ### The stages of a conversion -/

theorem mem_nullable (h : first.SameRules second)
    (hkeys : ∀ key ∈ first.keys, key.isNonterminal = true) {symbol : Symbol}
    (hsymbol : symbol ∈ first.nullable) : symbol ∈ second.nullable := by
  have hgenerates := generates_nil_of_mem_nullable hkeys hsymbol
  exact mem_nullable_of_generates (h.generates_iff.1 hgenerates)

theorem mem_nullable_iff (h : first.SameRules second)
    (hkeys : ∀ key ∈ first.keys, key.isNonterminal = true) {symbol : Symbol} :
    symbol ∈ first.nullable ↔ symbol ∈ second.nullable :=
  ⟨h.mem_nullable hkeys, h.symm.mem_nullable (h.isNonterminal hkeys)⟩

theorem reduced (h : first.SameRules second)
    (hkeys : ∀ key ∈ first.keys, key.isNonterminal = true) :
    first.reduced.SameRules second.reduced := by
  refine h.mapAlternatives fun left => ?_
  have hvariants := Production.variants_congr fun _ => h.mem_nullable_iff hkeys
  simp only [h.alternatives_eq, funext hvariants]

theorem withEmptyStart (h : first.SameRules second) (start fresh : Symbol) :
    (first.withEmptyStart start fresh).SameRules (second.withEmptyStart start fresh) :=
  (h.addRule fresh _).setStart fresh

theorem needsEmptyStart_iff (h : first.SameRules second) (hstart : first.start? = second.start?)
    (hkeys : ∀ key ∈ first.keys, key.isNonterminal = true) :
    first.NeedsEmptyStart keepEmptyStart ↔ second.NeedsEmptyStart keepEmptyStart := by
  simp only [NeedsEmptyStart, hstart, h.mem_nullable_iff hkeys]

theorem exists_toEpsilonFree (h : first.SameRules second) (hstart : first.start? = second.start?)
    (hkeys : ∀ key ∈ first.keys, key.isNonterminal = true) {result : Grammar}
    (hresult : first.toEpsilonFree keepEmptyStart = .ok result) :
    ∃ other, second.toEpsilonFree keepEmptyStart = .ok other ∧ result.SameRules other := by
  by_cases hneeds : first.NeedsEmptyStart keepEmptyStart
  · have hneeds' := (h.needsEmptyStart_iff hstart hkeys).1 hneeds
    obtain ⟨start, hsome, -⟩ := hneeds.2
    cases hfree : first.free with
    | nil =>
        rw [toEpsilonFree_of_free_nil hneeds hfree] at hresult
        cases hresult
    | cons fresh rest =>
        rw [toEpsilonFree_of_free_cons hneeds hsome hfree] at hresult
        cases hresult
        exact ⟨_, toEpsilonFree_of_free_cons hneeds' (hstart.symm.trans hsome)
          (h.free_eq.symm.trans hfree), (h.reduced hkeys).withEmptyStart start fresh⟩
  · have hneeds' := mt (h.needsEmptyStart_iff hstart hkeys).2 hneeds
    rw [toEpsilonFree_of_not hneeds] at hresult
    cases hresult
    exact ⟨_, toEpsilonFree_of_not hneeds', h.reduced hkeys⟩

theorem unitTargets_eq (h : first.SameRules second) : first.unitTargets = second.unitTargets := by
  funext left
  simp only [unitTargets, h.alternatives_eq, h.mem_keys_iff]

theorem unitReach_eq (h : first.SameRules second) (left : Symbol) :
    first.unitReach left = second.unitReach left := by
  rw [unitReach, unitReach, h.unitTargets_eq]
  exact walk_eq_of_perm (h.perm_keys.erase left)

theorem properAlternatives_eq (h : first.SameRules second) :
    first.properAlternatives = second.properAlternatives := by
  funext left
  simp only [properAlternatives, isUnit, h.alternatives_eq, h.mem_keys_iff]

theorem removeUnits (h : first.SameRules second) :
    first.removeUnits.SameRules second.removeUnits :=
  h.mapAlternatives fun left => by rw [h.properAlternatives_eq, h.unitReach_eq]

theorem perm_rightSides (h : first.SameRules second) :
    first.rightSides.Perm second.rightSides := by
  rw [rightSides_eq, rightSides_eq, h.alternatives_eq]
  exact h.perm_keys.flatMap_right second.alternatives

theorem letterCost_eq (h : first.SameRules second) : first.letterCost = second.letterCost := by
  have hterminals : first.longTerminals.Perm second.longTerminals :=
    ((h.perm_rightSides.filter _).flatten).filter _
  have hexcess : excess first.rightSides = excess second.rightSides :=
    (h.perm_rightSides.map _).sum_eq
  rw [letterCost, letterCost, List.toFinset_eq_of_perm _ _ hterminals, hexcess]

/-- A conversion of one grammar succeeds where one of the other does, for it needs as many
letters. -/
theorem exists_convert (h : first.SameRules second) (hstart : first.start? = second.start?)
    (hkeys : ∀ key ∈ first.keys, key.isNonterminal = true) {stages : Stages}
    (hok : first.convert keepEmptyStart = .ok stages) :
    ∃ others, second.convert keepEmptyStart = .ok others := by
  have hconversion := conversion_of_ok hok
  have hne : second.keys ≠ [] := fun hnil =>
    hconversion.keys_ne_nil (List.perm_nil.1 (hnil ▸ h.perm_keys))
  have hcheck := checkComplete_of_closed hne (h.closed hconversion.closed)
  obtain ⟨epsilonFree, hepsilonFree, hrules⟩ :=
    h.exists_toEpsilonFree hstart hkeys hconversion.epsilonFree
  -- fresh letters may stand for other terminals and ends there, so only their number is compared
  have hroom := hconversion.grows_binary.count_le
  rw [hconversion.unitFree, hrules.removeUnits.letterCost_eq, hrules.removeUnits.free_eq] at hroom
  obtain ⟨others, hothers, -⟩ := convert_of_letterCost_le hcheck hepsilonFree hroom
  exact ⟨others, hothers⟩

end SameRules

/-! ### Meaning -/

/-- The outcome of a conversion has the words of the grammar, the empty one only on request. -/
theorem Conversion.hasWord_binary_iff (h : Conversion grammar keepEmptyStart stages)
    (hgrammar : grammar.WellFormed) :
    stages.binary.HasWord word ↔ grammar.HasWord word ∧ (word = [] → keepEmptyStart = true) := by
  have hkeys := hgrammar.isNonterminal
  by_cases hneeds : grammar.NeedsEmptyStart keepEmptyStart
  · obtain ⟨start, finalStart, hstart, hfinal, hwords⟩ := h.generates_emptyStart_iff hkeys hneeds
    simp only [HasWord, hstart, hfinal, Option.some.injEq, exists_eq_left', hwords, hneeds.1,
      implies_true, and_true]
  · rw [HasWord, HasWord, h.start?_eq_of_not hneeds]
    constructor
    · rintro ⟨start, hstart, hword⟩
      obtain ⟨hgenerates, hne⟩ :=
        (h.generates_iff hkeys (hgrammar.mem_keys_of_start? hstart)).1 hword
      exact ⟨⟨start, hstart, hgenerates⟩, fun hnil => absurd hnil hne⟩
    · rintro ⟨⟨start, hstart, hgenerates⟩, hkeep⟩
      refine ⟨start, hstart, (h.generates_iff hkeys (hgrammar.mem_keys_of_start? hstart)).2 ?_⟩
      refine ⟨hgenerates, ?_⟩
      -- the empty word on request would have led to an empty start
      rintro rfl
      exact hneeds ⟨hkeep rfl, start, hstart, mem_nullable_of_generates hgenerates⟩

/-- Two grammars start with the same symbol, recognize the same texts and list the same words, and
one can be converted where the other can, into a grammar with the same words. -/
structure SameMeaning (first second : Grammar) : Prop where
  start?_eq : first.start? = second.start?
  recognizes_eq : ∀ text, first.recognizes text = second.recognizes text
  words_eq : ∀ maxLength, first.words maxLength = second.words maxLength
  converts_iff : ∀ keepEmptyStart, (∃ stages, first.convert keepEmptyStart = .ok stages) ↔
    ∃ others, second.convert keepEmptyStart = .ok others
  hasWord_iff : ∀ keepEmptyStart stages others, first.convert keepEmptyStart = .ok stages →
    second.convert keepEmptyStart = .ok others →
    ∀ word, stages.binary.HasWord word ↔ others.binary.HasWord word

namespace SameRules

/-- What the keys derive after a conversion does not depend on the start symbols. -/
theorem generates_binary_iff (h : first.SameRules second)
    (hkeys : ∀ key ∈ first.keys, key.isNonterminal = true)
    (hfirst : first.convert keepEmptyStart = .ok stages)
    (hsecond : second.convert keepEmptyStart = .ok others) {key : Symbol}
    (hkey : key ∈ first.keys) :
    stages.binary.Generates key word ↔ others.binary.Generates key word := by
  have hkeys' := h.isNonterminal hkeys
  calc stages.binary.Generates key word
      ↔ first.Generates key word ∧ word ≠ [] := (conversion_of_ok hfirst).generates_iff hkeys hkey
    _ ↔ second.Generates key word ∧ word ≠ [] := by rw [h.generates_iff]
    _ ↔ others.binary.Generates key word :=
        ((conversion_of_ok hsecond).generates_iff hkeys' (h.mem_keys_iff.1 hkey)).symm

theorem sameMeaning (h : first.SameRules second) (hstart : first.start? = second.start?)
    (hfirst : first.WellFormed) (hsecond : second.WellFormed) : first.SameMeaning second where
  start?_eq := hstart
  recognizes_eq := h.recognizes_eq hstart
  words_eq := h.words_eq hstart hfirst hsecond
  converts_iff := fun _ => by
    constructor
    · rintro ⟨stages, hok⟩
      exact h.exists_convert hstart hfirst.isNonterminal hok
    · rintro ⟨others, hok⟩
      exact h.symm.exists_convert hstart.symm hsecond.isNonterminal hok
  hasWord_iff := fun _ _ _ hok hok' _ => by
    rw [(conversion_of_ok hok).hasWord_binary_iff hfirst,
      (conversion_of_ok hok').hasWord_binary_iff hsecond, h.hasWord_iff hstart]

end SameRules

/-- The grammars that are declared step by step or read from a text. -/
inductive Built : Grammar → Prop
  | declared {declarations : List Declaration} {grammar : Grammar}
      (isDefined : define declarations = .ok grammar) : Built grammar
  | read (text : List Char) : Built (Reading.ofText text).grammar

theorem Built.wellFormed (h : grammar.Built) : grammar.WellFormed := by
  cases h with
  | declared isDefined => exact wellFormed_of_define isDefined
  | read text => exact wellFormed_ofText text

/-- **Equality and meaning.** Two grammars with the same rules, however they were built, derive the
same words from every symbol, and their conversions from every key. They mean the same where a start
symbol was chosen. Where none was, they mean the same exactly if they define the same symbol
first. -/
theorem sameRules_meaning_exactly (hfirst : first.Built) (hsecond : second.Built)
    (h : first.SameRules second) :
    (∀ symbol word, first.Generates symbol word ↔ second.Generates symbol word) ∧
    (∀ keepEmptyStart stages others, first.convert keepEmptyStart = .ok stages →
      second.convert keepEmptyStart = .ok others → ∀ key ∈ first.keys, ∀ word,
        stages.binary.Generates key word ↔ others.binary.Generates key word) ∧
    (first.SameMeaning second ↔
      first.chosenStart ≠ none ∨ first.keys.head? = second.keys.head?) := by
  have hkeys := hfirst.wellFormed.isNonterminal
  refine ⟨fun _ _ => h.generates_iff, fun _ _ _ hok hok' key hkey _ => ?_, ?_⟩
  · exact h.generates_binary_iff hkeys hok hok' hkey
  · rw [← h.start?_eq_iff]
    exact ⟨SameMeaning.start?_eq, fun hstart =>
      h.sameMeaning hstart hfirst.wellFormed hsecond.wellFormed⟩

/-- An `a` before a `b`, or nothing. -/
def letterPair : Grammar := sampleGrammar [('S', ["AB", "$"]), ('A', ["a"]), ('B', ["b"])]

/-- The rules of the pair, the last two in the other order. -/
def letterPairText : List Char := "S -> AB | $\nB -> b\nA -> a\n".toList

theorem sameRules_meaning_exactly_letterPair :
    letterPair.Built ∧ letterPair.SameRules (Reading.ofText letterPairText).grammar ∧
    letterPair ≠ (Reading.ofText letterPairText).grammar ∧
    letterPair.SameMeaning (Reading.ofText letterPairText).grammar ∧
    ∃ stages others, letterPair.convert true = .ok stages ∧
      (Reading.ofText letterPairText).grammar.convert true = .ok others ∧
      stages.binary.words 2 = [[], [⟨'a', rfl⟩, ⟨'b', rfl⟩]] ∧
      ∀ word, stages.binary.HasWord word ↔ others.binary.HasWord word := by
  have hdeclared : define (declareRules [('S', ["AB", "$"]), ('A', ["a"]), ('B', ["b"])]) =
      .ok letterPair := by
    decide +kernel
  have hsame : letterPair.SameRules (Reading.ofText letterPairText).grammar := by decide +kernel
  have hfirst : letterPair.keys.head? = (Reading.ofText letterPairText).grammar.keys.head? := by
    decide +kernel
  have hwords : (letterPair.convert true).toOption.map (fun stages => stages.binary.words 2) =
      some [[], [⟨'a', rfl⟩, ⟨'b', rfl⟩]] := by
    decide +kernel
  obtain ⟨stages, hok, hstages⟩ := exists_ok_of_toOption_map hwords
  obtain ⟨-, -, hmeaning⟩ :=
    sameRules_meaning_exactly (.declared hdeclared) (.read letterPairText) hsame
  have hboth := hmeaning.2 (.inr hfirst)
  obtain ⟨others, hok'⟩ := (hboth.converts_iff true).1 ⟨stages, hok⟩
  exact ⟨.declared hdeclared, hsame, by decide +kernel, hboth, stages, others, hok, hok', hstages,
    hboth.hasWord_iff true stages others hok hok'⟩

/-- Two symbols with a letter each. -/
def twoLettersText : List Char := "S -> a\nA -> b\n".toList

def twoLettersTextSwapped : List Char := "A -> b\nS -> a\n".toList

/-- The two rules make the same grammar in either order, but with another start symbol and other
words, before a conversion and after it. -/
theorem exists_sameRules_of_other_meaning :
    (Reading.ofText twoLettersText).grammar.SameRules
      (Reading.ofText twoLettersTextSwapped).grammar ∧
    (Reading.ofText twoLettersText).grammar.start? = some ⟨'S', rfl⟩ ∧
    (Reading.ofText twoLettersTextSwapped).grammar.start? = some ⟨'A', rfl⟩ ∧
    (Reading.ofText twoLettersText).grammar.recognizes ['a'] = true ∧
    (Reading.ofText twoLettersTextSwapped).grammar.recognizes ['a'] = false ∧
    (Reading.ofText twoLettersText).grammar.words 1 = [[⟨'a', rfl⟩]] ∧
    (Reading.ofText twoLettersTextSwapped).grammar.words 1 = [[⟨'b', rfl⟩]] ∧
    ∃ stages others, (Reading.ofText twoLettersText).grammar.convert false = .ok stages ∧
      (Reading.ofText twoLettersTextSwapped).grammar.convert false = .ok others ∧
      stages.binary.HasWord [⟨'a', rfl⟩] ∧ ¬others.binary.HasWord [⟨'a', rfl⟩] := by
  have hwords : ((Reading.ofText twoLettersText).grammar.convert false).toOption.map
      (fun stages => stages.binary.words 1) = some [[⟨'a', rfl⟩]] := by
    decide +kernel
  have hwords' : ((Reading.ofText twoLettersTextSwapped).grammar.convert false).toOption.map
      (fun stages => stages.binary.words 1) = some [[⟨'b', rfl⟩]] := by
    decide +kernel
  obtain ⟨stages, hok, hstages⟩ := exists_ok_of_toOption_map hwords
  obtain ⟨others, hok', hothers⟩ := exists_ok_of_toOption_map hwords'
  have hbinary := (conversion_of_ok hok).wellFormed_binary (wellFormed_ofText _)
  have hbinary' := (conversion_of_ok hok').wellFormed_binary (wellFormed_ofText _)
  refine ⟨by decide +kernel, by decide +kernel, by decide +kernel, by decide +kernel,
    by decide +kernel, by decide +kernel, by decide +kernel, stages, others, hok, hok', ?_, ?_⟩
  · have hmem : [⟨'a', rfl⟩] ∈ stages.binary.words 1 := by
      rw [hstages]
      exact List.mem_cons_self
    exact (hbinary.mem_words_iff.1 hmem).2
  · intro hword
    have hmem := hbinary'.mem_words_iff.2 ⟨Nat.le_refl 1, hword⟩
    rw [hothers] at hmem
    exact absurd hmem (by decide)

end Grammar

end ChomskyForm
