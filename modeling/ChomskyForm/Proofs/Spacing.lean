import ChomskyForm.Proofs.LineGrammar

/-!
# Blanks in a line

A blank can break a run of symbols, and between other tokens it makes no difference to a scan. So
two texts without faults that differ in their blanks only have the same marks and the same symbols
in the same order, though not the same runs. A line is read from its marks and symbols: an
alternative joins its runs, and a left side is one symbol, which no blank can break.
-/

namespace ChomskyForm

variable {token other : Token} {tokens first second : List Token}

/-! ### Symbol by symbol -/

namespace Token

/-- A run as one token for each of its symbols, and a mark as it is. -/
def letters : Token → List Token
  | symbols run => run.map fun symbol => symbols [symbol]
  | token => [token]

/-- A mark or a run of one symbol. -/
def IsLetter : Token → Prop
  | symbols run => ∃ symbol, run = [symbol]
  | _ => True

theorem isLetter_of_mem_letters (h : other ∈ token.letters) : other.IsLetter := by
  cases token with
  | symbols run =>
      obtain ⟨symbol, -, rfl⟩ := List.mem_map.1 h
      exact ⟨symbol, rfl⟩
  | _ =>
      rw [List.mem_singleton.1 h]
      trivial

theorem flatMap_text_letters (token : Token) : token.letters.flatMap text = token.text := by
  cases token with
  | symbols run =>
      rw [letters, List.flatMap_map, text, ← List.flatMap_pure_eq_map]
      rfl
  | _ => rfl

theorem letters_ne_nil (h : token ≠ symbols []) : token.letters ≠ [] := by
  cases token with
  | symbols run =>
      rw [letters, Ne, List.map_eq_nil_iff]
      exact fun hnil => h (congrArg symbols hnil)
  | _ => exact List.cons_ne_nil _ _

theorem eq_of_letters_eq_singleton (h : token.letters = [other]) : token = other := by
  cases token with
  | symbols run =>
      obtain ⟨symbol, rfl, hother⟩ := List.map_eq_singleton_iff.1 h
      exact hother
  | _ => exact List.singleton_inj.1 h

theorem IsLetter.text_ne_nil (h : token.IsLetter) : token.text ≠ [] := by
  cases token with
  | symbols run =>
      obtain ⟨symbol, rfl⟩ := h
      exact List.cons_ne_nil _ _
  | _ => exact List.cons_ne_nil _ _

/-- Where a text starts with a letter, it starts with no other one. -/
theorem IsLetter.eq_of_text_append_eq {rest after : List Char} (htoken : token.IsLetter)
    (hother : other.IsLetter) (h : token.text ++ rest = other.text ++ after) :
    token = other ∧ rest = after := by
  have hnext := congrArg next? h
  cases token with
  | symbols run =>
      obtain ⟨symbol, rfl⟩ := htoken
      cases other with
      | symbols run =>
          obtain ⟨symbol', rfl⟩ := hother
          obtain ⟨hchar, hrest⟩ := List.cons_eq_cons.1 h
          exact ⟨by rw [Symbol.ext hchar], hrest⟩
      | _ => cases (next?_char_cons symbol rest).symm.trans hnext
  | _ =>
      cases other with
      | symbols run =>
          obtain ⟨symbol, rfl⟩ := hother
          cases hnext.trans (next?_char_cons symbol after)
      | _ => exact Prod.mk.inj (Option.some.inj hnext)

end Token

/-- The marks and the symbols of the tokens, one by one. -/
def letters (tokens : List Token) : List Token := tokens.flatMap Token.letters

theorem isLetter_of_mem_letters (h : token ∈ letters tokens) : token.IsLetter := by
  obtain ⟨source, -, hsource⟩ := List.mem_flatMap.1 h
  exact Token.isLetter_of_mem_letters hsource

theorem flatMap_text_letters (tokens : List Token) :
    (letters tokens).flatMap Token.text = tokens.flatMap Token.text := by
  rw [letters, List.flatMap_assoc]
  exact List.flatMap_congr fun token _ => token.flatMap_text_letters

/-- Letters are told from the text that they are written as. -/
theorem eq_of_flatMap_text_eq (hfirst : ∀ token ∈ first, token.IsLetter)
    (hsecond : ∀ token ∈ second, token.IsLetter)
    (h : first.flatMap Token.text = second.flatMap Token.text) : first = second := by
  induction first generalizing second with
  | nil =>
      cases second with
      | nil => rfl
      | cons other second =>
          have hother := (hsecond other List.mem_cons_self).text_ne_nil
          exact absurd h.symm (List.append_ne_nil_of_left_ne_nil hother _)
  | cons token first ih =>
      rw [List.forall_mem_cons] at hfirst
      cases second with
      | nil => exact absurd h (List.append_ne_nil_of_left_ne_nil hfirst.1.text_ne_nil _)
      | cons other second =>
          rw [List.forall_mem_cons] at hsecond
          obtain ⟨rfl, hrest⟩ := hfirst.1.eq_of_text_append_eq hsecond.1 h
          rw [ih hfirst.2 hsecond.2 hrest]

/-- The text without its blanks. -/
def withoutBlanks (text : List Char) : List Char := text.filter fun c => !isSpacing c

/-- Texts that differ in their blanks only have the same letters. -/
theorem letters_eq_of_withoutBlanks_eq {text other : List Char} (htext : tokens? text = some first)
    (hother : tokens? other = some second) (h : withoutBlanks text = withoutBlanks other) :
    letters first = letters second := by
  refine eq_of_flatMap_text_eq (fun _ => isLetter_of_mem_letters)
    (fun _ => isLetter_of_mem_letters) ?_
  calc (letters first).flatMap Token.text
    _ = first.flatMap Token.text := flatMap_text_letters first
    _ = withoutBlanks text := (filter_of_tokens? htext).symm
    _ = withoutBlanks other := h
    _ = second.flatMap Token.text := filter_of_tokens? hother
    _ = (letters second).flatMap Token.text := (flatMap_text_letters second).symm

theorem letters_eq_nil_iff (h : .symbols [] ∉ tokens) : letters tokens = [] ↔ tokens = [] := by
  constructor
  · intro hnil
    rw [letters, List.flatMap_eq_nil_iff] at hnil
    refine List.eq_nil_iff_forall_not_mem.2 fun token htoken => ?_
    exact Token.letters_ne_nil (fun hempty => h (hempty ▸ htoken)) (hnil token htoken)
  · rintro rfl
    rfl

theorem eq_singleton_of_letters_eq (h : .symbols [] ∉ tokens) (hletter : letters tokens = [token]) :
    tokens = [token] := by
  cases tokens with
  | nil => cases hletter
  | cons head tail =>
      obtain ⟨hhead, htail⟩ := List.ne_and_not_mem_of_not_mem_cons h
      obtain ⟨hnil, -⟩ | ⟨hsingle, hrest⟩ := List.append_eq_singleton_iff.1 hletter
      · exact absurd hnil (Token.letters_ne_nil hhead.symm)
      · rw [Token.eq_of_letters_eq_singleton hsingle, (letters_eq_nil_iff htail).1 hrest]

/-- A mark stays where it is when runs are broken up. -/
theorem mem_letters_iff (hmark : ∀ run, token ≠ .symbols run) :
    token ∈ letters tokens ↔ token ∈ tokens := by
  rw [letters, List.mem_flatMap]
  constructor
  · rintro ⟨source, hsource, hmem⟩
    cases source with
    | symbols run =>
        obtain ⟨symbol, -, rfl⟩ := List.mem_map.1 hmem
        exact absurd rfl (hmark [symbol])
    | _ => exact List.mem_singleton.1 hmem ▸ hsource
  · intro hmem
    refine ⟨token, hmem, ?_⟩
    cases token with
    | symbols run => exact absurd rfl (hmark run)
    | _ => exact List.mem_cons_self

theorem Lexes.symbols_nil_notMem {text : List Char} (h : Lexes text tokens) :
    .symbols [] ∉ tokens := by
  induction h with
  | nil => exact List.not_mem_nil
  | blank _ _ ih => exact ih
  | token htoken _ ih =>
      rw [List.mem_cons, not_or]
      refine ⟨?_, ih⟩
      rintro rfl
      exact htoken.1 rfl

/-! ### A line read from its letters -/

namespace Line

variable {segment : List Token} {list : List (List Token)}

theorem intercalate_letters (list : List (List Token)) :
    [Token.bar].intercalate (list.map letters) = letters ([Token.bar].intercalate list) := by
  induction list with
  | nil => rfl
  | cons segment list ih =>
      cases list with
      | nil => simp [List.intercalate]
      | cons next list =>
          rw [List.map_cons] at ih
          rw [List.map_cons, List.map_cons, List.intercalate_cons_cons, List.intercalate_cons_cons,
            ih]
          simp [letters, Token.letters]

theorem segments_letters (tokens : List Token) :
    segments (letters tokens) = (segments tokens).map letters := by
  have hseparates := separates_segments tokens
  refine Separates.segments_eq ⟨?_, ?_, ?_⟩
  · rw [Ne, List.map_eq_nil_iff]
    exact hseparates.ne_nil
  · refine List.forall_mem_map.2 fun segment hsegment => ?_
    rw [mem_letters_iff (fun _ => Token.noConfusion)]
    exact hseparates.bar_notMem segment hsegment
  · rw [intercalate_letters, hseparates.intercalate_eq]

theorem subset_of_mem_segments (tokens : List Token) :
    ∀ segment ∈ segments tokens, segment ⊆ tokens := by
  fun_induction segments tokens with
  | case1 => simp
  | case2 rest ih =>
      rw [List.forall_mem_cons]
      exact ⟨List.nil_subset _,
        fun segment hsegment => List.subset_cons_of_subset _ (ih segment hsegment)⟩
  | case3 token rest hbar hnil ih => simp
  | case4 token rest hbar segment more hsegments ih =>
      rw [hsegments, List.forall_mem_cons] at ih
      rw [List.forall_mem_cons]
      exact ⟨List.cons_subset_cons _ ih.1,
        fun segment hsegment => List.subset_cons_of_subset _ (ih.2 segment hsegment)⟩

theorem readSymbols_letters (tokens : List Token) :
    readSymbols (letters tokens) = readSymbols tokens := by
  induction tokens with
  | nil => rfl
  | cons token tokens ih =>
      cases token with
      | symbols run =>
          have hrun : (run.map fun symbol => [symbol]).flatten = run := by
            rw [← List.flatMap_def, List.flatMap_singleton']
          have hletters : letters (.symbols run :: tokens) =
              (run.map fun symbol => [symbol]).map .symbols ++ letters tokens := by
            simp [letters, Token.letters]
          have hwhole := readSymbols_runs_append [run] tokens
          rw [List.flatten_singleton] at hwhole
          rw [hletters, readSymbols_runs_append, ih, hrun]
          exact hwhole.symm
      | _ => rfl

theorem readAlternative_letters (h : .symbols [] ∉ segment) :
    readAlternative (letters segment) = readAlternative segment := by
  by_cases hlone : segment = [.epsilon]
  · rw [hlone]
    rfl
  · rw [readAlternative_of_ne hlone,
      readAlternative_of_ne fun heq => hlone (eq_singleton_of_letters_eq h heq),
      readSymbols_letters]

theorem readSegments_letters (h : ∀ segment ∈ list, .symbols [] ∉ segment) :
    readSegments (list.map letters) = readSegments list := by
  induction list with
  | nil => rfl
  | cons segment list ih =>
      rw [List.forall_mem_cons] at h
      rw [List.map_cons]
      by_cases hnil : segment = []
      · rw [hnil]
        exact ih h.2
      · rw [readSegments_cons hnil, readSegments_cons (mt (letters_eq_nil_iff h.1).1 hnil),
          readAlternative_letters h.1, ih h.2]

theorem readLeft_letters (h : .symbols [] ∉ tokens) :
    readLeft (letters tokens) = readLeft tokens := by
  by_cases hleft : ∃ left : Symbol, left.isNonterminal = true ∧ tokens = [.symbols [left]]
  · obtain ⟨left, -, rfl⟩ := hleft
    rfl
  · rw [readLeft_eq_error fun left hleft' heq => hleft ⟨left, hleft', heq⟩,
      readLeft_eq_error fun left hleft' heq =>
        hleft ⟨left, hleft', eq_singleton_of_letters_eq h heq⟩]

/-- Where the runs of a line end makes no difference. -/
theorem ofTokens_letters (h : .symbols [] ∉ tokens) :
    ofTokens (letters tokens) = ofTokens tokens := by
  by_cases hblank : tokens = []
  · rw [hblank]
    rfl
  by_cases hending : tokens = [.star]
  · rw [hending]
    rfl
  by_cases harrow : .arrow ∈ tokens
  · obtain ⟨before, after, rfl, habsent⟩ := List.eq_append_cons_of_mem harrow
    rw [List.mem_append, List.mem_cons, not_or, not_or] at h
    have hdivided : letters (before ++ .arrow :: after) =
        letters before ++ .arrow :: letters after := List.flatMap_append
    have habsent' : .arrow ∉ letters before := by
      rwa [mem_letters_iff (fun _ => Token.noConfusion)]
    have hsegments : ∀ segment ∈ segments after, .symbols [] ∉ segment :=
      fun segment hsegment hmem => h.2.2 (subset_of_mem_segments after segment hsegment hmem)
    rw [hdivided, ofTokens_append_arrow habsent', ofTokens_append_arrow habsent,
      readLeft_letters h.1, segments_letters, readSegments_letters hsegments]
  · have harrow' : .arrow ∉ letters tokens := by
      rwa [mem_letters_iff (fun _ => Token.noConfusion)]
    rw [ofTokens_of_arrow_notMem hblank hending harrow,
      ofTokens_of_arrow_notMem (mt (letters_eq_nil_iff h).1 hblank)
        (mt (eq_singleton_of_letters_eq h) hending) harrow']

theorem exists_tokens?_of_fault? {text : List Char} (h : (scan text).fault? = none) :
    ∃ tokens, tokens? text = some tokens :=
  ⟨(scan text).lexemes.map Lexeme.token, by rw [tokens?, Scan.tokens?, h]⟩

/-- **Blanks.** Two texts whose scans do not fail and that are the same text without their blanks
are read as the same line, or refused for the same fault. -/
theorem read_eq_of_withoutBlanks_eq {text other : List Char} (htext : (scan text).fault? = none)
    (hother : (scan other).fault? = none) (h : withoutBlanks text = withoutBlanks other) :
    read text = read other := by
  obtain ⟨first, hfirst⟩ := exists_tokens?_of_fault? htext
  obtain ⟨second, hsecond⟩ := exists_tokens?_of_fault? hother
  have hfirst' := (lexes_of_tokens? hfirst).symbols_nil_notMem
  have hsecond' := (lexes_of_tokens? hsecond).symbols_nil_notMem
  calc read text
    _ = ofTokens first := read_of_tokens? hfirst
    _ = ofTokens (letters first) := (ofTokens_letters hfirst').symm
    _ = ofTokens (letters second) := by rw [letters_eq_of_withoutBlanks_eq hfirst hsecond h]
    _ = ofTokens second := ofTokens_letters hsecond'
    _ = read other := (read_of_tokens? hsecond).symm

/-- Runs broken by blanks, with a blank before and after the line. -/
def spacedLine : List Char := "\tS -> a B0 |\r$ | C ".toList

/-- The same line without blanks. -/
def denseLine : List Char := "S->aB0|$|C".toList

theorem read_eq_of_withoutBlanks_eq_spacedLine :
    (scan spacedLine).fault? = none ∧ (scan denseLine).fault? = none ∧
      withoutBlanks spacedLine = withoutBlanks denseLine ∧
      tokens? spacedLine ≠ tokens? denseLine ∧ read spacedLine = read denseLine ∧
      read denseLine =
        .ok (.rule ⟨'S', rfl⟩ [[⟨'a', rfl⟩, ⟨'B', rfl⟩, ⟨'0', rfl⟩], [], [⟨'C', rfl⟩]]) := by
  have hspaced : (scan spacedLine).fault? = none := by decide +kernel
  have hdense : (scan denseLine).fault? = none := by decide +kernel
  have hsame : withoutBlanks spacedLine = withoutBlanks denseLine := by decide +kernel
  exact ⟨hspaced, hdense, hsame, by decide +kernel,
    read_eq_of_withoutBlanks_eq hspaced hdense hsame, by decide +kernel⟩

end Line

end ChomskyForm
