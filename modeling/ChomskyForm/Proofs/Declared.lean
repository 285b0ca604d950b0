import ChomskyForm.Proofs.Rendered
import ChomskyForm.Proofs.Spacing

/-!
# Declared and written rules

A declaration reads its alternatives character by character, and a line reads them from its tokens.
Both accept a text without blanks and bars exactly where it is the written form of a production. So
a declaration has a line that says the same, and the lines of all declarations are read as the
grammar that they define.
-/

namespace ChomskyForm

variable {text alternative : List Char} {tokens segment : List Token} {left : Symbol}
  {production : Production} {grammar next result : Grammar} {declaration : Declaration}
  {declarations : List Declaration}

/-! ### Alternatives character by character -/

theorem Symbol.read_eq_ok_iff {c : Char} {symbol : Symbol} :
    read c = .ok symbol ↔ c = symbol.char := by
  rw [read]
  constructor
  · intro h
    split at h
    · rename_i found hfound
      cases h
      exact (char_of_ofChar? hfound).symm
    · cases h
  · rintro rfl
    rw [ofChar?_char]

theorem Symbol.char_of_readNonterminal {c : Char} {symbol : Symbol}
    (h : readNonterminal c = .ok symbol) : c = symbol.char := by
  obtain ⟨found, hfound, h⟩ := exists_ok_of_bind h
  split at h
  · cases h
    exact read_eq_ok_iff.1 hfound
  · cases h

theorem Symbol.char_ne_epsilonMark (symbol : Symbol) : symbol.char ≠ epsilonMark := by
  intro heq
  have hread := ofChar?_char symbol
  rw [heq] at hread
  cases hread

namespace Production

theorem text_of_ne_nil (h : production ≠ []) : production.text = production.map Symbol.char := by
  cases production with
  | nil => exact absurd rfl h
  | cons => rfl

theorem text_ne_nil (production : Production) : production.text ≠ [] := by
  cases production <;> exact List.cons_ne_nil _ _

theorem readSymbols_eq_ok_iff :
    readSymbols alternative text = .ok production ↔ text = production.map Symbol.char := by
  induction text generalizing production with
  | nil =>
      rw [readSymbols, Except.ok.injEq, eq_comm, eq_comm (b := List.map ..), List.map_eq_nil_iff]
  | cons c rest ih =>
      rw [readSymbols]
      split
      · rename_i hmark
        cases production with
        | nil => simp
        | cons symbol production => simp [hmark, symbol.char_ne_epsilonMark.symm]
      · constructor
        · intro h
          obtain ⟨symbol, hsymbol, h⟩ := exists_ok_of_bind h
          obtain ⟨others, hothers, h⟩ := exists_ok_of_bind h
          cases h
          rw [Symbol.read_eq_ok_iff.1 hsymbol, ih.1 hothers, List.map_cons]
        · intro h
          obtain ⟨symbol, others, rfl, hsymbol, hothers⟩ := List.map_eq_cons_iff.1 h.symm
          rw [Symbol.read_eq_ok_iff.2 hsymbol.symm, ih.2 hothers.symm]
          rfl

/-- What is read as a production is its written form. -/
theorem read_eq_ok_iff : read text = .ok production ↔ text = production.text := by
  rw [read]
  split
  · rename_i hmark
    cases production with
    | nil => simp [hmark, Production.text]
    | cons symbol production =>
        simp [hmark, Production.text, symbol.char_ne_epsilonMark.symm]
  · rename_i hmark
    split
    · rename_i hnil
      simp [hnil, production.text_ne_nil.symm]
    · rename_i hnil
      rw [readSymbols_eq_ok_iff]
      cases production with
      | nil => simp [hnil, hmark, Production.text]
      | cons => rfl

theorem mapM_read_eq_ok {texts : List (List Char)} {right : List Production}
    (h : texts.mapM read = .ok right) : texts = right.map Production.text := by
  induction texts generalizing right with
  | nil =>
      cases h
      rfl
  | cons text texts ih =>
      rw [List.mapM_cons] at h
      obtain ⟨production, hproduction, h⟩ := exists_ok_of_bind h
      obtain ⟨others, hothers, h⟩ := exists_ok_of_bind h
      cases h
      rw [List.map_cons, ← ih hothers, ← read_eq_ok_iff.1 hproduction]

end Production

/-! ### Alternatives of a line -/

theorem flatMap_text_eq (h : Lexes text tokens) (hblank : ∀ c ∈ text, isSpacing c = false) :
    tokens.flatMap Token.text = text := by
  rw [← filter_of_tokens? h.tokens?_eq]
  exact List.filter_eq_self.2 fun c hc => by rw [hblank c hc, Bool.not_false]

namespace Line

theorem exists_tokens?_of_read {line : Line} (h : read text = .ok line) :
    ∃ tokens, tokens? text = some tokens := by
  cases htokens : tokens? text with
  | some tokens => exact ⟨tokens, rfl⟩
  | none =>
      obtain ⟨column, hread⟩ := exists_read_of_tokens?_eq_none htokens
      cases hread.symm.trans h

/-- The tokens of a segment that is not empty and adds a production spell its written form. -/
theorem exists_flatMap_text_of_adds {part : List Production} (h : Adds segment part)
    (hne : segment ≠ []) (hempty : .symbols [] ∉ segment) :
    ∃ production, part = [production] ∧ segment.flatMap Token.text = production.text := by
  cases h with
  | nothing => exact absurd rfl hne
  | epsilon => exact ⟨[], rfl, rfl⟩
  | @runs runs hruns =>
      refine ⟨runs.flatten, rfl, ?_⟩
      have hflatten : runs.flatten ≠ [] := by
        intro hnil
        obtain ⟨run, hrun⟩ := List.exists_mem_of_ne_nil runs hruns
        rw [List.flatten_eq_nil_iff.1 hnil run hrun] at hrun
        exact hempty (List.mem_map_of_mem hrun)
      rw [Production.text_of_ne_nil hflatten, List.map_flatten, List.flatMap_map, List.flatMap_def]
      rfl

theorem tokens?_arrow (left : Symbol) (text : List Char) :
    tokens? (left.char :: ' ' :: '-' :: '>' :: ' ' :: text) =
      (tokens? text).map fun tokens => .symbols [left] :: .arrow :: tokens := by
  have hleft : (Token.symbols [left]).Precedes (' ' :: '-' :: '>' :: ' ' :: text) :=
    ⟨List.cons_ne_nil _ _, (startsBlank_cons rfl).startsApart⟩
  have hhead := tokens?_of_next? (Token.next?_text_append hleft)
  have hnext : Token.next? ('-' :: '>' :: ' ' :: text) = some (.arrow, ' ' :: text) := rfl
  have harrow := tokens?_of_next? hnext
  rw [tokens?_cons_of_isSpacing (c := ' ') rfl, harrow, tokens?_cons_of_isSpacing (c := ' ') rfl]
    at hhead
  rw [Option.map_map] at hhead
  exact hhead

/-- An alternative without blanks and bars is the written form of a production where its line is
read. -/
theorem exists_eq_text_of_read {line : Line} (hleft : left.isNonterminal = true)
    (hne : text ≠ []) (hblank : ∀ c ∈ text, isSpacing c = false) (hbar : '|' ∉ text)
    (h : read (left.char :: ' ' :: '-' :: '>' :: ' ' :: text) = .ok line) :
    ∃ production : Production, text = production.text := by
  obtain ⟨tokens, htokens⟩ := exists_tokens?_of_read h
  have hwhole := lexes_of_tokens? htokens
  rw [tokens?_arrow] at htokens
  obtain ⟨right, hright, rfl⟩ := Option.map_eq_some_iff.1 htokens
  have hlexes := lexes_of_tokens? hright
  have htext := flatMap_text_eq hlexes hblank
  have hbar' : .bar ∉ right := fun hmem =>
    hbar (htext ▸ List.mem_flatMap.2 ⟨.bar, hmem, List.mem_cons_self⟩)
  have hseparates : Separates [right] right :=
    ⟨List.cons_ne_nil _ _, by simpa using hbar', by simp [List.intercalate]⟩
  rw [read_of_left hwhole hleft hseparates] at h
  obtain ⟨part, hpart⟩ | ⟨fault, hfault⟩ := adds_or_spoils right
  · have hright' : right ≠ [] := by
      rintro rfl
      exact hne htext.symm
    obtain ⟨production, -, hproduction⟩ :=
      exists_flatMap_text_of_adds hpart hright' hlexes.symbols_nil_notMem
    exact ⟨production, htext.symm.trans hproduction⟩
  · rw [hfault.readSegments_cons] at h
    cases h

end Line

namespace Reading

theorem ofText_of_newline_notMem (hne : text ≠ []) (hnewline : '\n' ∉ text) :
    ofText text = ofLines 1 {} [text] := by
  rw [ofText, lines, breakLines_of_notMem hne hnewline]

theorem exists_read_of_errors_eq_nil (hne : text ≠ []) (hnewline : '\n' ∉ text)
    (h : (ofText text).errors = []) : ∃ line, Line.read text = .ok line := by
  rw [ofText_of_newline_notMem hne hnewline] at h
  cases hread : Line.read text with
  | ok line => exact ⟨line, rfl⟩
  | error fault =>
      rw [ofLines_cons_of_error hread] at h
      cases h

end Reading

/-! ### The lines of declarations -/

/-- The line that says the same as a declaration of rules. -/
def Declaration.line : Declaration → List Char
  | .rule left alternatives =>
      left :: ' ' :: '-' :: '>' :: [' ', '|'].intercalate (alternatives.map (' ' :: ·))
  | .nonterminal name => [name, ' ', '-', '>']
  | .start _ => []

namespace Grammar

theorem line_rule_text (left : Symbol) (right : List Production) :
    (Declaration.rule left.char (right.map Production.text)).line = ruleText left right := by
  rw [Declaration.line, List.map_map]
  rfl

/-- What a declaration of rules adds is what its line says. -/
theorem exists_line_eq_of_applyDeclaration (hstart : ∀ name, declaration ≠ .start name)
    (h : grammar.applyDeclaration declaration = .ok next) :
    ∃ left right, left.isNonterminal = true ∧ declaration.line = ruleText left right ∧
      next = grammar.addRule left right := by
  cases declaration with
  | rule name alternatives =>
      obtain ⟨left, hleft, h⟩ := exists_ok_of_bind h
      obtain ⟨right, hright, h⟩ := exists_ok_of_bind h
      cases h
      refine ⟨left, right, isNonterminal_of_readNonterminal hleft, ?_, rfl⟩
      rw [Symbol.char_of_readNonterminal hleft, Production.mapM_read_eq_ok hright, line_rule_text]
  | nonterminal name =>
      obtain ⟨left, hleft, h⟩ := exists_ok_of_bind h
      cases h
      refine ⟨left, [], isNonterminal_of_readNonterminal hleft, ?_, rfl⟩
      rw [Symbol.char_of_readNonterminal hleft]
      rfl
  | start name => exact absurd rfl (hstart name)

/-- A sequence of declarations adds the rules that their lines say, in order. -/
theorem exists_lines_eq_of_applyDeclarations (hstart : ∀ name, .start name ∉ declarations)
    (h : declarations.foldlM applyDeclaration grammar = .ok result) :
    ∃ rules : List (Symbol × List Production), (∀ rule ∈ rules, rule.1.isNonterminal = true) ∧
      declarations.map Declaration.line = rules.map (fun rule => ruleText rule.1 rule.2) ∧
      result = grammar.addRules rules := by
  induction declarations generalizing grammar with
  | nil =>
      cases h
      exact ⟨[], fun _ hrule => absurd hrule List.not_mem_nil, rfl, rfl⟩
  | cons declaration declarations ih =>
      obtain ⟨next, hnext, h⟩ := exists_ok_of_bind h
      have hhead : ∀ name, declaration ≠ .start name := fun name heq =>
        hstart name (heq ▸ List.mem_cons_self)
      have htail : ∀ name, .start name ∉ declarations := fun name hmem =>
        hstart name (List.mem_cons_of_mem _ hmem)
      obtain ⟨left, right, hleft, hline, rfl⟩ := exists_line_eq_of_applyDeclaration hhead hnext
      obtain ⟨rules, hrules, hlines, rfl⟩ := ih htail h
      refine ⟨(left, right) :: rules, List.forall_mem_cons.2 ⟨hleft, hrules⟩, ?_, rfl⟩
      rw [List.map_cons, List.map_cons, hline, hlines]

theorem ofText_lines_of_define (hstart : ∀ name, .start name ∉ declarations)
    (h : define declarations = .ok grammar) :
    Reading.ofText (unlines '\n' (declarations.map Declaration.line)) = ⟨grammar, []⟩ := by
  obtain ⟨built, hbuilt, h⟩ := exists_ok_of_bind h
  obtain ⟨rules, hrules, hlines, rfl⟩ := exists_lines_eq_of_applyDeclarations hstart hbuilt
  rw [checkStart, chosenStart_addRules] at h
  cases h
  rw [hlines]
  exact ofText_unlines_ruleText hrules

/-! ### The line of one alternative -/

theorem line_rule_singleton (left : Symbol) (alternative : List Char) :
    (Declaration.rule left.char [alternative]).line =
      left.char :: ' ' :: '-' :: '>' :: ' ' :: alternative := by
  simp [Declaration.line, List.intercalate]

theorem ofText_line_rule_text (hleft : left.isNonterminal = true) (production : Production) :
    Reading.ofText (Declaration.rule left.char [production.text]).line =
      ⟨.ofRules [(left, [production])], []⟩ := by
  have hline := line_rule_text left [production]
  rw [List.map_singleton] at hline
  have hne : ruleText left [production] ≠ [] := List.cons_ne_nil _ _
  rw [hline, Reading.ofText_of_newline_notMem hne (newline_notMem_ruleText _ _)]
  refine Reading.ofLines_of_rules ?_ 1 {}
  rw [List.map_singleton, List.map_singleton, Line.read_ruleText hleft]

theorem exists_production_of_errors_eq_nil (hleft : left.isNonterminal = true)
    (hne : alternative ≠ []) (hclean : ∀ c ∈ alternative, isSpacing c = false ∧ c ≠ '\n' ∧ c ≠ '|')
    (h : (Reading.ofText (Declaration.rule left.char [alternative]).line).errors = []) :
    ∃ production, Production.read alternative = .ok production := by
  have hletter : '\n' ≠ left.char := by
    intro heq
    have hblank := left.isBlank_char
    rw [← heq] at hblank
    cases hblank
  have hnewline : '\n' ∉ left.char :: ' ' :: '-' :: '>' :: ' ' :: alternative := by
    simpa [hletter] using fun hmem => (hclean '\n' hmem).2.1 rfl
  rw [line_rule_singleton] at h
  obtain ⟨line, hread⟩ :=
    Reading.exists_read_of_errors_eq_nil (List.cons_ne_nil _ _) hnewline h
  obtain ⟨production, hproduction⟩ := Line.exists_eq_text_of_read hleft hne
    (fun c hc => (hclean c hc).1) (fun hmem => (hclean '|' hmem).2.2 rfl) hread
  exact ⟨production, Production.read_eq_ok_iff.2 hproduction⟩

/-- **Declarations and lines.** An alternative without blanks, bars and newlines is read as a
production exactly where a line with it as the only alternative has no error, and then the line
defines its left side with this production. The lines of declarations that do not fail and choose
no start symbol are read without errors as the grammar that is declared. -/
theorem lines_agree_with_declarations :
    (∀ (left : Symbol) (alternative : List Char), left.isNonterminal = true → alternative ≠ [] →
      (∀ c ∈ alternative, isSpacing c = false ∧ c ≠ '\n' ∧ c ≠ '|') →
      let reading := Reading.ofText (Declaration.rule left.char [alternative]).line
      (reading.errors = [] ↔ ∃ production, Production.read alternative = .ok production) ∧
      ∀ production, Production.read alternative = .ok production →
        reading.grammar.keys = [left] ∧ reading.grammar.alternatives left = [production]) ∧
    ∀ declarations grammar, (∀ name, .start name ∉ declarations) →
      define declarations = .ok grammar →
      Reading.ofText (unlines '\n' (declarations.map Declaration.line)) = ⟨grammar, []⟩ := by
  refine ⟨fun left alternative hleft hne hclean => ?_, fun _ _ => ofText_lines_of_define⟩
  have hwritten : ∀ production, Production.read alternative = .ok production →
      Reading.ofText (Declaration.rule left.char [alternative]).line =
        ⟨.ofRules [(left, [production])], []⟩ := fun production hproduction => by
    rw [Production.read_eq_ok_iff.1 hproduction]
    exact ofText_line_rule_text hleft production
  refine ⟨⟨exists_production_of_errors_eq_nil hleft hne hclean, ?_⟩,
    fun production hproduction => ?_⟩
  · rintro ⟨production, hproduction⟩
    rw [hwritten production hproduction]
  · rw [hwritten production hproduction, keys_ofRules, alternatives_ofRules]
    refine ⟨eraseDups_eq_self (List.nodup_singleton left), ?_⟩
    simpa using eraseDups_eq_self (List.nodup_singleton production)

/-- A left side declared twice, an alternative given again, and a symbol without alternatives. -/
def repeatedRules : List Declaration :=
  .nonterminal 'B' :: declareRules [('S', ["aS", "$"]), ('C', []), ('S', ["b", "aS"])]

theorem lines_agree_with_declarations_repeatedRules :
    (∀ name, .start name ∉ repeatedRules) ∧
    unlines '\n' (repeatedRules.map Declaration.line) =
      "B ->\nS -> aS | $\nC ->\nS -> b | aS\n".toList ∧
    (∃ grammar, define repeatedRules = .ok grammar ∧
      Reading.ofText (unlines '\n' (repeatedRules.map Declaration.line)) = ⟨grammar, []⟩) ∧
    (∀ c ∈ ['a', 'B'], isSpacing c = false ∧ c ≠ '\n' ∧ c ≠ '|') ∧
    (Reading.ofText "A -> aB".toList).grammar.alternatives ⟨'A', rfl⟩ =
      [[⟨'a', rfl⟩, ⟨'B', rfl⟩]] ∧
    (∀ c ∈ ['a', '$'], isSpacing c = false ∧ c ≠ '\n' ∧ c ≠ '|') ∧
    (Reading.ofText "A -> a$".toList).errors ≠ [] := by
  have hstart : ∀ name, .start name ∉ repeatedRules := by simp [repeatedRules, declareRules]
  have hgood : ∀ c ∈ ['a', 'B'], isSpacing c = false ∧ c ≠ '\n' ∧ c ≠ '|' := by
    rw [List.forall_mem_cons, List.forall_mem_singleton]
    decide
  have hbad : ∀ c ∈ ['a', '$'], isSpacing c = false ∧ c ≠ '\n' ∧ c ≠ '|' := by
    rw [List.forall_mem_cons, List.forall_mem_singleton]
    decide
  obtain ⟨hone, hall⟩ := lines_agree_with_declarations
  refine ⟨hstart, by decide, ?_, hgood, ?_, hbad, ?_⟩
  · have hseen : (define repeatedRules).toOption.map (fun _ => ()) = some () := by
      decide +kernel
    obtain ⟨grammar, hgrammar, -⟩ := exists_ok_of_toOption_map hseen
    exact ⟨grammar, hgrammar, hall repeatedRules grammar hstart hgrammar⟩
  · exact ((hone ⟨'A', rfl⟩ ['a', 'B'] rfl (List.cons_ne_nil _ _) hgood).2 _ rfl).2
  · intro herrors
    obtain ⟨production, hproduction⟩ :=
      (hone ⟨'A', rfl⟩ ['a', '$'] rfl (List.cons_ne_nil _ _) hbad).1.1 herrors
    cases hproduction

end Grammar

end ChomskyForm
