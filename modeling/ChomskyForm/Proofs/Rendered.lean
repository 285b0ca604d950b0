import ChomskyForm.Chart
import ChomskyForm.Grammar.Render
import ChomskyForm.Grammar.Samples
import ChomskyForm.Proofs.Reading
import ChomskyForm.Proofs.WellFormed
import ChomskyForm.Proofs.Words

/-!
# Reading a written grammar

The written line of a rule is read as the rule. So a written grammar is read back with the same
alternatives for every symbol, but with the symbols in ascending order: the smallest of them becomes
the start symbol, whatever the start symbol was. To write and read once more changes nothing, as the
order of the symbols does not show in the written form.
-/

namespace ChomskyForm

variable {left : Symbol} {right : List Production} {grammar first second : Grammar}

/-! ### The line of a rule -/

/-- The token that an alternative is written as. -/
def Production.token (production : Production) : Token :=
  if production = [] then .epsilon else .symbols production

theorem Production.text_token (production : Production) :
    production.token.text = production.text := by
  cases production <;> rfl

theorem Production.token_ne_bar (production : Production) : production.token ≠ .bar := by
  cases production <;> simp [token]

theorem Production.token_ne_symbols_nil (production : Production) :
    production.token ≠ .symbols [] := by
  cases production <;> simp [token]

/-- The tokens of the alternatives, with bars in between. -/
def barred (right : List Production) : List Token := (right.map Production.token).intersperse .bar

theorem barred_cons_cons (first second : Production) (right : List Production) :
    barred (first :: second :: right) = first.token :: .bar :: barred (second :: right) := rfl

theorem mem_barred {token : Token} (h : token ∈ barred right) :
    token = .bar ∨ ∃ production : Production, token = production.token := by
  induction right with
  | nil => cases h
  | cons first right ih =>
      cases right with
      | nil => exact .inr ⟨first, List.mem_singleton.1 h⟩
      | cons second right =>
          rw [barred_cons_cons, List.mem_cons, List.mem_cons] at h
          obtain rfl | rfl | h := h
          · exact .inr ⟨first, rfl⟩
          · exact .inl rfl
          · exact ih h

theorem spaced_barred (right : List Production) :
    spaced (barred right) = [' ', '|'].intercalate (right.map fun p => ' ' :: p.text) := by
  induction right with
  | nil => rfl
  | cons first right ih =>
      cases right with
      | nil => simp [barred, spaced, Production.text_token]
      | cons second right =>
          rw [List.map_cons, List.map_cons, List.intercalate_cons_cons]
          rw [List.map_cons] at ih
          rw [← ih, barred_cons_cons, ← first.text_token]
          simp [spaced, Token.text]

/-- The tokens of the line of a rule. -/
def ruleTokens (left : Symbol) (right : List Production) : List Token :=
  .symbols [left] :: .arrow :: barred right

theorem spaced_ruleTokens (left : Symbol) (right : List Production) :
    spaced (ruleTokens left right) = ' ' :: Grammar.ruleText left right := by
  have hcons : spaced (ruleTokens left right) =
      ' ' :: left.char :: ' ' :: '-' :: '>' :: spaced (barred right) := rfl
  rw [hcons, spaced_barred]
  rfl

theorem tokens?_ruleText (left : Symbol) (right : List Production) :
    tokens? (Grammar.ruleText left right) = some (ruleTokens left right) := by
  rw [← tokens?_cons_of_isSpacing (c := ' ') rfl, ← spaced_ruleTokens]
  refine tokens?_spaced fun hmem => ?_
  rw [ruleTokens, List.mem_cons, List.mem_cons] at hmem
  obtain heq | heq | hmem := hmem
  · cases heq
  · cases heq
  · obtain heq | ⟨production, heq⟩ := mem_barred hmem
    · cases heq
    · exact production.token_ne_symbols_nil heq.symm

namespace Line

theorem segments_cons_bar {token : Token} (h : token ≠ .bar) (tokens : List Token) :
    segments (token :: .bar :: tokens) = [token] :: segments tokens := by
  rw [segments, if_neg h, segments, if_pos rfl]

theorem segments_singleton {token : Token} (h : token ≠ .bar) : segments [token] = [[token]] := by
  rw [segments, if_neg h, segments]

theorem filter_segments_barred (right : List Production) :
    (segments (barred right)).filter (· ≠ []) = right.map fun p => [p.token] := by
  induction right with
  | nil => rfl
  | cons first right ih =>
      cases right with
      | nil =>
          rw [barred, List.map_singleton, List.intersperse_singleton,
            segments_singleton first.token_ne_bar]
          rfl
      | cons second right =>
          rw [barred_cons_cons, segments_cons_bar first.token_ne_bar, List.map_cons, ← ih]
          rfl

theorem readAlternative_token (production : Production) :
    readAlternative [production.token] = .ok production := by
  cases production with
  | nil => rfl
  | cons symbol rest => exact congrArg Except.ok (List.append_nil _)

theorem mapM_readAlternative (right : List Production) :
    (right.map fun p => [p.token]).mapM readAlternative = .ok right := by
  induction right with
  | nil => rfl
  | cons first right ih =>
      rw [List.map_cons, List.mapM_cons, readAlternative_token, ih]
      rfl

/-- The line of a rule is read as the rule. -/
theorem read_ruleText (h : left.isNonterminal = true) (right : List Production) :
    read (Grammar.ruleText left right) = .ok (.rule left right) := by
  have hleft : readLeft ((ruleTokens left right).takeWhile (· ≠ .arrow)) = .ok left := if_pos h
  have hright : ((ruleTokens left right).dropWhile (· ≠ .arrow)).tail = barred right := rfl
  have harrow : .arrow ∈ ruleTokens left right := List.mem_cons_of_mem _ List.mem_cons_self
  rw [read_of_tokens? (tokens?_ruleText left right), ofTokens]
  · rw [if_pos harrow, hleft, hright]
    simp only [filter_segments_barred, mapM_readAlternative]
    rfl
  · simp [ruleTokens]
  · simp [ruleTokens]

end Line

theorem newline_notMem_ruleText (left : Symbol) (right : List Production) :
    '\n' ∉ Grammar.ruleText left right := by
  intro hmem
  have hspaced : '\n' ∈ spaced (ruleTokens left right) := by
    rw [spaced_ruleTokens]
    exact List.mem_cons_of_mem _ hmem
  obtain ⟨token, -, htoken⟩ := List.mem_flatMap.1 hspaced
  obtain heq | htext := List.mem_cons.1 htoken
  · cases heq
  · cases Token.isBlank_of_mem_text htext

/-! ### The symbols in ascending order -/

theorem eraseDups_eq_self {α : Type} [BEq α] [LawfulBEq α] {list : List α} (h : list.Nodup) :
    list.eraseDups = list := by
  induction list with
  | nil => rfl
  | cons item list ih =>
      obtain ⟨habsent, hlist⟩ := List.nodup_cons.1 h
      have hkept : list.filter (fun other => !other == item) = list :=
        List.filter_eq_self.2 fun other hother => by
          simpa using fun heq : other = item => habsent (heq ▸ hother)
      rw [List.eraseDups_cons, hkept, ih hlist]

namespace Grammar

theorem mem_sortedKeys : left ∈ grammar.sortedKeys ↔ left ∈ grammar.keys := by
  simp [sortedKeys, Symbol.mem_all]

theorem pairwise_sortedKeys (grammar : Grammar) : grammar.sortedKeys.Pairwise (· < ·) :=
  Symbol.pairwise_all.filter _

theorem nodup_sortedKeys (grammar : Grammar) : grammar.sortedKeys.Nodup := by
  refine grammar.pairwise_sortedKeys.imp ?_
  rintro symbol _ hlt rfl
  exact Char.lt_irrefl symbol.char hlt

theorem perm_sortedKeys (grammar : Grammar) : grammar.sortedKeys.Perm grammar.keys :=
  (List.perm_ext_iff_of_nodup grammar.nodup_sortedKeys grammar.nodup_keys).2 fun _ => mem_sortedKeys

/-- The rules in ascending order of their left sides. -/
def sortedRules (grammar : Grammar) : List (Symbol × List Production) :=
  grammar.sortedKeys.map fun left => (left, grammar.alternatives left)

theorem keys_ofRules_sortedRules (grammar : Grammar) :
    (ofRules grammar.sortedRules).keys = grammar.sortedKeys := by
  have hkeys : grammar.sortedRules.map Prod.fst = grammar.sortedKeys := by
    rw [sortedRules, List.map_map]
    exact List.map_id _
  rw [keys_ofRules, hkeys, eraseDups_eq_self grammar.nodup_sortedKeys]

theorem flatMap_filter_sortedRules (grammar : Grammar) (left : Symbol) :
    (grammar.sortedRules.filter fun rule => rule.1 = left).flatMap Prod.snd =
      grammar.alternatives left := by
  have hfilter : (grammar.sortedKeys.filter fun key => key = left) =
      List.replicate (grammar.sortedKeys.count left) left := List.filter_eq ..
  rw [sortedRules, List.filter_map, Function.comp_def, hfilter]
  by_cases hkey : left ∈ grammar.keys
  · rw [List.count_eq_one_of_mem grammar.nodup_sortedKeys (mem_sortedKeys.2 hkey)]
    exact List.append_nil _
  · rw [List.count_eq_zero_of_not_mem fun hmem => hkey (mem_sortedKeys.1 hmem),
      alternatives_eq_nil hkey]
    rfl

theorem alternatives_ofRules_sortedRules (h : grammar.Unique) (left : Symbol) :
    (ofRules grammar.sortedRules).alternatives left = grammar.alternatives left := by
  rw [alternatives_ofRules, flatMap_filter_sortedRules, eraseDups_eq_self (h left)]

theorem text_eq (grammar : Grammar) :
    grammar.text = unlines '\n' (grammar.sortedRules.map fun rule => ruleText rule.1 rule.2) := by
  rw [text, unlines, sortedRules, List.map_map, List.flatMap_map]
  rfl

/-- The lines of rules are read as the grammar of the rules, without errors. -/
theorem ofText_unlines_ruleText {rules : List (Symbol × List Production)}
    (h : ∀ rule ∈ rules, rule.1.isNonterminal = true) :
    Reading.ofText (unlines '\n' (rules.map fun rule => ruleText rule.1 rule.2)) =
      ⟨.ofRules rules, []⟩ := by
  have hlines : ∀ line ∈ rules.map fun rule => ruleText rule.1 rule.2, '\n' ∉ line :=
    List.forall_mem_map.2 fun rule _ => newline_notMem_ruleText rule.1 rule.2
  rw [Reading.ofText_unlines hlines]
  refine Reading.ofLines_of_rules ?_ 1 {}
  rw [List.map_map]
  exact List.map_congr_left fun rule hrule => Line.read_ruleText (h rule hrule) rule.2

/-- A written grammar is read rule by rule, without errors. -/
theorem ofText_text (h : ∀ key ∈ grammar.keys, key.isNonterminal = true) :
    Reading.ofText grammar.text = ⟨.ofRules grammar.sortedRules, []⟩ := by
  rw [text_eq]
  refine ofText_unlines_ruleText fun rule hrule => ?_
  obtain ⟨left, hleft, rfl⟩ := List.mem_map.1 hrule
  exact h left (mem_sortedKeys.1 hleft)

/-- The written form shows the rules, but not the order in which the symbols were defined. -/
theorem text_congr (hkeys : ∀ left, left ∈ first.keys ↔ left ∈ second.keys)
    (halternatives : ∀ left, first.alternatives left = second.alternatives left) :
    first.text = second.text := by
  have hsorted : first.sortedKeys = second.sortedKeys := by
    apply List.filter_congr
    intro left _
    rw [decide_eq_decide]
    exact hkeys left
  rw [text, text, hsorted]
  simp only [halternatives]

/-- What is read from a written grammar. -/
theorem exists_ofText_render (h : grammar.SoundRules) :
    ∃ back, Reading.ofText grammar.render.toList = ⟨back, []⟩ ∧ back.chosenStart = none ∧
      back.keys = grammar.sortedKeys ∧
      ∀ left, back.alternatives left = grammar.alternatives left := by
  refine ⟨.ofRules grammar.sortedRules, ?_, chosenStart_addRules {} grammar.sortedRules,
    keys_ofRules_sortedRules grammar, alternatives_ofRules_sortedRules h.unique⟩
  rw [render, String.toList_ofList, ofText_text h.isNonterminal]

theorem render_ofText_render (h : grammar.SoundRules) :
    (Reading.ofText grammar.render.toList).grammar.render = grammar.render := by
  obtain ⟨back, hback, -, hkeys, halternatives⟩ := exists_ofText_render h
  have htext : back.text = grammar.text := by
    refine text_congr (fun left => ?_) halternatives
    rw [hkeys]
    exact mem_sortedKeys
  rw [hback, render, render, htext]

/-- **Round trip.** A grammar that defines nonterminals only, none of them with an alternative
twice, is written as a text that is read without errors: the keys come in ascending order and each
has its alternatives as before. So what was read from whatever text is written, read and written
again as the same text. -/
theorem render_reads_back_exactly :
    (∀ grammar : Grammar, (∀ key ∈ grammar.keys, key.isNonterminal = true) →
      (∀ left, (grammar.alternatives left).Nodup) →
      ∃ back, Reading.ofText grammar.render.toList = ⟨back, []⟩ ∧ back.chosenStart = none ∧
        back.keys.Perm grammar.keys ∧ back.keys.Pairwise (· < ·) ∧
        ∀ left, back.alternatives left = grammar.alternatives left) ∧
    ∀ text,
      (Reading.ofText (Reading.ofText text).grammar.render.toList).grammar.render =
        (Reading.ofText text).grammar.render := by
  refine ⟨fun grammar hkeys hunique => ?_, fun text => ?_⟩
  · have hsound : grammar.SoundRules := ⟨hkeys, hunique⟩
    obtain ⟨back, hback, hnone, hsorted, halternatives⟩ := exists_ofText_render hsound
    refine ⟨back, hback, hnone, ?_, ?_, halternatives⟩
    · rw [hsorted]
      exact grammar.perm_sortedKeys
    · rw [hsorted]
      exact grammar.pairwise_sortedKeys
  · exact render_ofText_render (wellFormed_ofText text).toSoundRules

/-- Keys in descending order, one of them without alternatives, and an epsilon production. -/
def descendingKeys : Grammar := sampleGrammar [('S', ["aB", "$", "SA"]), ('B', []), ('A', ["b"])]

theorem render_reads_back_exactly_descendingKeys :
    (∀ key ∈ descendingKeys.keys, key.isNonterminal = true) ∧ descendingKeys.Unique ∧
    descendingKeys.render = "A -> b\nB ->\nS -> aB | $ | SA\n" ∧
    ∃ back, Reading.ofText descendingKeys.render.toList = ⟨back, []⟩ ∧
      back.keys.Perm [⟨'S', rfl⟩, ⟨'B', rfl⟩, ⟨'A', rfl⟩] ∧ back.keys.Pairwise (· < ·) ∧
      ∀ left, back.alternatives left = descendingKeys.alternatives left := by
  have hkeys : ∀ key ∈ descendingKeys.keys, key.isNonterminal = true := by decide
  have hunique : descendingKeys.Unique := by decide
  have htext : descendingKeys.text = "A -> b\nB ->\nS -> aB | $ | SA\n".toList := by
    decide +kernel
  obtain ⟨back, hback, -, hperm, hsorted, halternatives⟩ :=
    render_reads_back_exactly.1 descendingKeys hkeys hunique
  refine ⟨hkeys, hunique, ?_, back, hback, hperm.trans (by decide), hsorted, halternatives⟩
  rw [render, htext, String.ofList_toList]

/-! ### Results of the conversion -/

variable {source : List Char} {keepEmptyStart : Bool} {stages : Stages} {start : Symbol}

theorem WellFormed.exists_start? (h : grammar.WellFormed) (hkeys : grammar.keys ≠ []) :
    ∃ start, grammar.start? = some start ∧ start ∈ grammar.keys := by
  obtain ⟨first, rest, hcons⟩ := List.exists_cons_of_ne_nil hkeys
  obtain ⟨start, hstart⟩ : ∃ start, grammar.start? = some start := by
    rw [start?, hcons]
    cases grammar.chosenStart <;> simp
  exact ⟨start, hstart, h.mem_keys_of_start? hstart⟩

theorem head?_sortedKeys_eq_iff (h : start ∈ grammar.keys) :
    grammar.sortedKeys.head? = some start ↔ ∀ key ∈ grammar.keys, ¬key < start := by
  have hmem := mem_sortedKeys.2 h
  have hsorted := grammar.pairwise_sortedKeys
  have hkeys : ∀ key, key ∈ grammar.sortedKeys ↔ key ∈ grammar.keys := fun _ => mem_sortedKeys
  simp only [← hkeys]
  cases hlist : grammar.sortedKeys with
  | nil => simp [hlist] at hmem
  | cons least rest =>
      rw [hlist, List.mem_cons] at hmem
      rw [hlist, List.pairwise_cons] at hsorted
      rw [List.head?_cons, Option.some.injEq, List.forall_mem_cons]
      constructor
      · rintro rfl
        exact ⟨Char.lt_irrefl _, fun key hkey hlt => Char.lt_asymm hlt (hsorted.1 key hkey)⟩
      · rintro ⟨hleast, -⟩
        obtain heq | hrest := hmem
        · exact heq.symm
        · exact absurd (hsorted.1 start hrest) hleast

/-- **Reading a result back.** The written result of a conversion is read without errors. Each
symbol keeps its alternatives and so its words, but the symbols come in ascending order. So the
start symbol is kept exactly where no other symbol of the result is smaller. -/
theorem convert_result_reads_back
    (h : (Reading.ofText source).grammar.convert keepEmptyStart = .ok stages) :
    ∃ back, Reading.ofText stages.binary.render.toList = ⟨back, []⟩ ∧
      back.chosenStart = none ∧ back.keys.Perm stages.binary.keys ∧ back.keys.Pairwise (· < ·) ∧
      (∀ left, back.alternatives left = stages.binary.alternatives left) ∧
      (∀ symbol word, back.Generates symbol word ↔ stages.binary.Generates symbol word) ∧
      ∃ start, stages.binary.start? = some start ∧
        (back.start? = some start ↔ ∀ key ∈ stages.binary.keys, ¬key < start) := by
  have hconversion := conversion_of_ok h
  have hwellFormed := hconversion.wellFormed_binary (wellFormed_ofText source)
  obtain ⟨start, hstart, hmem⟩ := hwellFormed.exists_start? hconversion.keys_binary_ne_nil
  have hnone : (ofRules stages.binary.sortedRules).chosenStart = none :=
    chosenStart_addRules {} stages.binary.sortedRules
  have hsorted := keys_ofRules_sortedRules stages.binary
  have halternatives := alternatives_ofRules_sortedRules hwellFormed.unique
  refine ⟨.ofRules stages.binary.sortedRules, ?_, hnone, ?_, ?_, halternatives, ?_, start, hstart,
    ?_⟩
  · rw [render, String.toList_ofList, ofText_text hwellFormed.isNonterminal]
  · rw [hsorted]
    exact stages.binary.perm_sortedKeys
  · rw [hsorted]
    exact stages.binary.pairwise_sortedKeys
  · exact fun _ _ => generates_iff_of_alternatives_eq halternatives
  · rw [start?, hnone, hsorted]
    exact head?_sortedKeys_eq_iff hmem

/-- The start symbol is smaller than the letter that isolation takes. -/
def leastStart : List Char := "A -> bA | b\n".toList

theorem convert_result_reads_back_leastStart :
    ∃ stages back, (Reading.ofText leastStart).grammar.convert false = .ok stages ∧
      Reading.ofText stages.binary.render.toList = ⟨back, []⟩ ∧
      stages.binary.start? = some ⟨'A', rfl⟩ ∧ back.start? = some ⟨'A', rfl⟩ := by
  have hseen : ((Reading.ofText leastStart).grammar.convert false).toOption.map (fun stages =>
      (stages.binary.start?, stages.binary.keys)) =
        some (some ⟨'A', rfl⟩, [⟨'A', rfl⟩, ⟨'B', rfl⟩]) := by
    decide +kernel
  obtain ⟨stages, h, hobserved⟩ := exists_ok_of_toOption_map hseen
  obtain ⟨hstart, hkeys⟩ := Prod.mk.inj hobserved
  obtain ⟨back, hback, -, -, -, -, -, start, hbinary, hleast⟩ := convert_result_reads_back h
  cases hstart.symm.trans hbinary
  refine ⟨stages, back, h, hback, hstart, hleast.2 ?_⟩
  rw [hkeys]
  decide

/-- The start symbol is greater than the letter that isolation takes. -/
def repeatedLetterText : List Char := "S -> aS | a\n".toList

theorem exists_result_with_other_start :
    ∃ stages, (Reading.ofText repeatedLetterText).grammar.convert false = .ok stages ∧
      stages.binary.render = "A -> a\nS -> AS | a\n" ∧
      stages.binary.start? = some ⟨'S', rfl⟩ ∧ stages.binary.recognizes ['a', 'a'] = true ∧
      (Reading.ofText stages.binary.render.toList).errors = [] ∧
      (Reading.ofText stages.binary.render.toList).grammar.start? = some ⟨'A', rfl⟩ ∧
      (Reading.ofText stages.binary.render.toList).grammar.recognizes ['a', 'a'] = false := by
  have hseen : ((Reading.ofText repeatedLetterText).grammar.convert false).toOption.map
      (fun stages => (stages.binary.text, stages.binary.start?,
        stages.binary.recognizes ['a', 'a'])) =
        some ("A -> a\nS -> AS | a\n".toList, some ⟨'S', rfl⟩, true) := by
    decide +kernel
  obtain ⟨stages, h, hobserved⟩ := exists_ok_of_toOption_map hseen
  obtain ⟨htext, hrest⟩ := Prod.mk.inj hobserved
  obtain ⟨hstart, hrecognizes⟩ := Prod.mk.inj hrest
  refine ⟨stages, h, ?_, hstart, hrecognizes, ?_⟩
  · rw [render, htext, String.ofList_toList]
  · rw [render, String.toList_ofList, htext]
    decide +kernel

end Grammar

end ChomskyForm
