import ChomskyForm.Proofs.Lexing
import Mathlib.Data.List.Forall2

/-!
# The grammar of lines

A line breaks into tokens first. The tokens of a rule are its left side, an arrow, and segments with
bars in between, each of which adds an alternative or nothing. The faults are tried in one order:
a place where no token starts, a missing arrow, a left side that is not one nonterminal, and the
first segment that is not well-formed. So every line has exactly one outcome, and `read` finds it.
-/

namespace ChomskyForm

namespace Line

variable {text : List Char} {left : Symbol} {segment bad before after right tokens : List Token}
  {good later list : List (List Token)} {part : List Production}
  {parts : List (List Production)} {fault : LineFault} {outcome : Except LineFault Line}

/-! ### Segments -/

/-- What a segment adds to the alternatives. -/
inductive Adds : List Token → List Production → Prop
  | nothing : Adds [] []
  | epsilon : Adds [.epsilon] [[]]
  | runs {runs : List (List Symbol)} (hne : runs ≠ []) : Adds (runs.map .symbols) [runs.flatten]

/-- The fault of a token that is no run of symbols. -/
def tokenFault : Token → LineFault
  | .epsilon => .misplacedEpsilon
  | token => .unexpectedToken token

/-- The first token of the segment that is no run of symbols, unless it is a lone `$`, decides what
is wrong. -/
inductive Spoils : List Token → LineFault → Prop
  | token {runs : List (List Symbol)} {token : Token} {rest : List Token}
      (hrun : ∀ run, token ≠ .symbols run)
      (hlone : runs.map .symbols ++ token :: rest ≠ [.epsilon]) :
      Spoils (runs.map .symbols ++ token :: rest) (tokenFault token)

theorem Spoils.ne_nil (h : Spoils bad fault) : bad ≠ [] := by
  cases h
  exact List.append_ne_nil_of_right_ne_nil _ (List.cons_ne_nil _ _)

theorem exists_runs_append (tokens : List Token) :
    ∃ (runs : List (List Symbol)) (rest : List Token), tokens = runs.map .symbols ++ rest ∧
      ∀ token ∈ rest.head?, ∀ run, token ≠ .symbols run := by
  induction tokens with
  | nil => exact ⟨[], [], rfl, fun _ h => nomatch h⟩
  | cons token tokens ih =>
      by_cases hrun : ∃ run, token = .symbols run
      · obtain ⟨run, rfl⟩ := hrun
        obtain ⟨runs, rest, rfl, hrest⟩ := ih
        exact ⟨run :: runs, rest, rfl, hrest⟩
      · refine ⟨[], token :: tokens, rfl, ?_⟩
        rintro first hfirst run rfl
        cases hfirst
        exact hrun ⟨run, rfl⟩

/-- A segment adds something or is spoilt. -/
theorem adds_or_spoils (segment : List Token) :
    (∃ part, Adds segment part) ∨ ∃ fault, Spoils segment fault := by
  obtain ⟨runs, rest, rfl, hrest⟩ := exists_runs_append segment
  cases rest with
  | nil =>
      rw [List.append_nil]
      cases runs with
      | nil => exact .inl ⟨_, .nothing⟩
      | cons run runs => exact .inl ⟨_, .runs (List.cons_ne_nil run runs)⟩
  | cons token rest =>
      by_cases hlone : runs.map .symbols ++ token :: rest = [.epsilon]
      · rw [hlone]
        exact .inl ⟨_, .epsilon⟩
      · exact .inr ⟨_, .token (hrest token rfl) hlone⟩

/-! ### Results with something in front -/

section InFront

variable {α : Type}

theorem map_nil_append (result : Except LineFault (List α)) : result.map ([] ++ ·) = result := by
  cases result <;> rfl

theorem map_append_map_append (first second : List α) (result : Except LineFault (List α)) :
    (result.map (second ++ ·)).map (first ++ ·) = result.map (first ++ second ++ ·) := by
  cases result with
  | error fault => rfl
  | ok list => exact congrArg Except.ok (List.append_assoc ..).symm

end InFront

/-! ### What is read from a segment -/

theorem readSymbols_runs_append (runs : List (List Symbol)) (tokens : List Token) :
    readSymbols (runs.map .symbols ++ tokens) = (readSymbols tokens).map (runs.flatten ++ ·) := by
  induction runs with
  | nil => exact (map_nil_append _).symm
  | cons run runs ih =>
      rw [List.map_cons, List.cons_append, List.flatten_cons, ← map_append_map_append, ← ih]
      rfl

theorem readAlternative_of_ne (h : tokens ≠ [.epsilon]) :
    readAlternative tokens = readSymbols tokens := by
  unfold readAlternative
  split
  · exact absurd rfl h
  · rfl

theorem readAlternative_runs (runs : List (List Symbol)) :
    readAlternative (runs.map .symbols) = .ok runs.flatten := by
  have hlone : runs.map Token.symbols ≠ [.epsilon] := by cases runs <;> simp
  rw [readAlternative_of_ne hlone, ← List.append_nil (runs.map _), readSymbols_runs_append]
  exact congrArg Except.ok (List.append_nil _)

theorem Spoils.readAlternative_eq (h : Spoils bad fault) : readAlternative bad = .error fault := by
  cases h with
  | @token runs token rest hrun hlone =>
      rw [readAlternative_of_ne hlone, readSymbols_runs_append]
      cases token with
      | symbols run => exact absurd rfl (hrun run)
      | _ => rfl

/-! ### Lists of segments -/

/-- What the segments add, up to the first fault. -/
def readSegments (list : List (List Token)) : Except LineFault (List Production) :=
  (list.filter (· ≠ [])).mapM readAlternative

theorem readSegments_cons (h : segment ≠ []) (list : List (List Token)) :
    readSegments (segment :: list) = (do
      let production ← readAlternative segment
      let productions ← readSegments list
      return production :: productions) := by
  rw [readSegments, List.filter_cons_of_pos (by simpa using h), List.mapM_cons]
  rfl

theorem Adds.readSegments_cons (h : Adds segment part) (list : List (List Token)) :
    readSegments (segment :: list) = (readSegments list).map (part ++ ·) := by
  cases h with
  | nothing =>
      rw [map_nil_append]
      exact congrArg (List.mapM readAlternative) (List.filter_cons_of_neg (by simp))
  | epsilon =>
      rw [Line.readSegments_cons (List.cons_ne_nil _ _)]
      cases readSegments list <;> rfl
  | @runs runs hne =>
      rw [Line.readSegments_cons (by simpa using hne), readAlternative_runs]
      cases readSegments list <;> rfl

theorem Spoils.readSegments_cons (h : Spoils bad fault) (list : List (List Token)) :
    readSegments (bad :: list) = .error fault := by
  rw [Line.readSegments_cons h.ne_nil, h.readAlternative_eq]
  rfl

theorem readSegments_append (h : List.Forall₂ Adds good parts) (list : List (List Token)) :
    readSegments (good ++ list) = (readSegments list).map (parts.flatten ++ ·) := by
  induction h with
  | nil => exact (map_nil_append _).symm
  | cons hadds _ ih =>
      rw [List.cons_append, hadds.readSegments_cons, ih, map_append_map_append, List.flatten_cons]

theorem readSegments_of_forall₂ (h : List.Forall₂ Adds list parts) :
    readSegments list = .ok parts.flatten := by
  rw [← List.append_nil list, readSegments_append h]
  exact congrArg Except.ok (List.append_nil _)

/-- All segments add something, or there is a first one that is spoilt. -/
theorem forall₂_adds_or_exists_spoils (list : List (List Token)) :
    (∃ parts, List.Forall₂ Adds list parts) ∨
      ∃ good parts bad later fault, list = good ++ bad :: later ∧
        List.Forall₂ Adds good parts ∧ Spoils bad fault := by
  induction list with
  | nil => exact .inl ⟨[], .nil⟩
  | cons segment list ih =>
      obtain ⟨part, hpart⟩ | ⟨fault, hfault⟩ := adds_or_spoils segment
      · obtain ⟨parts, hparts⟩ | ⟨good, parts, bad, later, fault, rfl, hgood, hbad⟩ := ih
        · exact .inl ⟨part :: parts, .cons hpart hparts⟩
        · exact .inr ⟨segment :: good, part :: parts, bad, later, fault, rfl, .cons hpart hgood,
            hbad⟩
      · exact .inr ⟨[], [], segment, list, fault, rfl, .nil, hfault⟩

/-- The segments of a list of tokens: what stands between the bars. -/
structure Separates (list : List (List Token)) (right : List Token) : Prop where
  ne_nil : list ≠ []
  bar_notMem : ∀ segment ∈ list, .bar ∉ segment
  intercalate_eq : [Token.bar].intercalate list = right

theorem segments_eq_splitOn (tokens : List Token) : segments tokens = tokens.splitOn .bar := by
  induction tokens with
  | nil => rfl
  | cons token tokens ih =>
      rw [segments, List.splitOn_cons_eq_if_modifyHead, ih]
      simp only [beq_iff_eq]
      split
      · rfl
      · cases hsplit : tokens.splitOn .bar with
        | nil => exact absurd hsplit (List.splitOn_ne_nil _ _)
        | cons => rfl

theorem bar_notMem_of_mem_segments (tokens : List Token) :
    ∀ segment ∈ segments tokens, .bar ∉ segment := by
  fun_induction segments tokens with
  | case1 => simp
  | case2 rest ih => simpa using ih
  | case3 token rest hbar hnil ih => simpa using Ne.symm hbar
  | case4 token rest hbar segment more hsegments ih =>
      rw [hsegments, List.forall_mem_cons] at ih
      simpa [Ne.symm hbar] using ih

theorem separates_segments (right : List Token) : Separates (segments right) right where
  ne_nil := by
    rw [segments_eq_splitOn]
    exact List.splitOn_ne_nil _ _
  bar_notMem := bar_notMem_of_mem_segments right
  intercalate_eq := by
    rw [segments_eq_splitOn]
    exact List.intercalate_splitOn Token.bar

theorem Separates.segments_eq (h : Separates list right) : segments right = list := by
  calc segments right
    _ = right.splitOn .bar := segments_eq_splitOn right
    _ = ([Token.bar].intercalate list).splitOn .bar := by rw [h.intercalate_eq]
    _ = list := List.splitOn_intercalate _ h.bar_notMem h.ne_nil

/-! ### Lists of tokens -/

theorem readLeft_eq (h : left.isNonterminal = true) : readLeft [.symbols [left]] = .ok left :=
  if_pos h

theorem readLeft_eq_error
    (h : ∀ left : Symbol, left.isNonterminal = true → before ≠ [.symbols [left]]) :
    readLeft before = .error .badLeftSide := by
  unfold readLeft
  split
  · rename_i symbol
    exact if_neg fun hsymbol => h symbol hsymbol rfl
  · rfl

theorem ofTokens_of_arrow_notMem (hblank : tokens ≠ []) (hending : tokens ≠ [.star])
    (harrow : .arrow ∉ tokens) : ofTokens tokens = .error .missingArrow := by
  rw [ofTokens, if_neg harrow]
  · exact hblank
  · exact hending

/-- The first arrow divides a rule. -/
theorem ofTokens_append_arrow (h : .arrow ∉ before) (after : List Token) :
    ofTokens (before ++ .arrow :: after) = (do
      let left ← readLeft before
      let alternatives ← readSegments (segments after)
      return .rule left alternatives) := by
  have hbefore : ∀ token ∈ before, decide (token ≠ .arrow) = true := fun token htoken =>
    decide_eq_true fun heq => h (heq ▸ htoken)
  have harrow : .arrow ∈ before ++ .arrow :: after :=
    List.mem_append_right _ List.mem_cons_self
  rw [ofTokens, if_pos harrow, List.takeWhile_append_of_pos hbefore,
    List.dropWhile_append_of_pos hbefore]
  · simp [readSegments]
  · exact List.ne_nil_of_mem harrow
  · intro hstar
    rw [hstar] at harrow
    simp at harrow

/-! ### Lines -/

theorem read_of_fault? {position : Position} (h : (scan text).fault? = some position) :
    read text = .error (.invalidCharacter (position.column + 1)) := by
  unfold read
  cases hscan : scan text with
  | mk lexemes fault? =>
      rw [hscan] at h
      cases h
      rfl

/-- A line and its outcome. -/
inductive Reads : List Char → Except LineFault Line → Prop
  | invalidCharacter {before after : List Char} {c : Char} {tokens : List Token}
      (hbefore : Lexes before tokens) (hc : isSpacing c = false)
      (hstuck : ∀ token : Token, token.text <+: c :: after → token = .symbols []) :
      Reads (before ++ c :: after)
        (.error (.invalidCharacter ((Position.origin.advance before).column + 1)))
  | blank {text : List Char} (h : Lexes text []) : Reads text (.ok .blank)
  | ending {text : List Char} (h : Lexes text [.star]) : Reads text (.ok .ending)
  | missingArrow {text : List Char} {tokens : List Token} (h : Lexes text tokens)
      (hblank : tokens ≠ []) (hending : tokens ≠ [.star]) (harrow : .arrow ∉ tokens) :
      Reads text (.error .missingArrow)
  | badLeftSide {text : List Char} {before after : List Token}
      (h : Lexes text (before ++ .arrow :: after)) (harrow : .arrow ∉ before)
      (hleft : ∀ left : Symbol, left.isNonterminal = true → before ≠ [.symbols [left]]) :
      Reads text (.error .badLeftSide)
  | badSegment {text : List Char} {left : Symbol} {right : List Token}
      {good later : List (List Token)} {parts : List (List Production)} {bad : List Token}
      {fault : LineFault} (h : Lexes text (.symbols [left] :: .arrow :: right))
      (hleft : left.isNonterminal = true) (hright : Separates (good ++ bad :: later) right)
      (hgood : List.Forall₂ Adds good parts) (hbad : Spoils bad fault) :
      Reads text (.error fault)
  | rule {text : List Char} {left : Symbol} {right : List Token} {segments : List (List Token)}
      {parts : List (List Production)} (h : Lexes text (.symbols [left] :: .arrow :: right))
      (hleft : left.isNonterminal = true) (hright : Separates segments right)
      (hparts : List.Forall₂ Adds segments parts) :
      Reads text (.ok (.rule left parts.flatten))

theorem read_of_left (h : Lexes text (.symbols [left] :: .arrow :: right))
    (hleft : left.isNonterminal = true) (hright : Separates list right) :
    read text = (readSegments list).map (.rule left) := by
  have harrow : Token.arrow ∉ [Token.symbols [left]] := by simp
  have hdivided := ofTokens_append_arrow harrow right
  rw [readLeft_eq hleft, hright.segments_eq] at hdivided
  calc read text
    _ = ofTokens (.symbols [left] :: .arrow :: right) := read_of_tokens? h.tokens?_eq
    _ = (do return .rule left (← readSegments list)) := hdivided
    _ = (readSegments list).map (.rule left) := by cases readSegments list <;> rfl

theorem Reads.read_eq (h : Reads text outcome) : read text = outcome := by
  cases h with
  | invalidCharacter hbefore hc hstuck =>
      exact read_of_fault? (hbefore.fault?_scan_append hc (Token.next?_eq_none_iff.2 hstuck))
  | blank h =>
      rw [read_of_tokens? h.tokens?_eq]
      rfl
  | ending h =>
      rw [read_of_tokens? h.tokens?_eq]
      rfl
  | missingArrow h hblank hending harrow =>
      rw [read_of_tokens? h.tokens?_eq, ofTokens_of_arrow_notMem hblank hending harrow]
  | badLeftSide h harrow hleft =>
      rw [read_of_tokens? h.tokens?_eq, ofTokens_append_arrow harrow, readLeft_eq_error hleft]
      rfl
  | badSegment h hleft hright hgood hbad =>
      rw [read_of_left h hleft hright, readSegments_append hgood, hbad.readSegments_cons]
      rfl
  | rule h hleft hright hparts =>
      rw [read_of_left h hleft hright, readSegments_of_forall₂ hparts]
      rfl

theorem exists_reads_of_left (h : Lexes text (.symbols [left] :: .arrow :: right))
    (hleft : left.isNonterminal = true) : ∃ outcome, Reads text outcome := by
  have hright := separates_segments right
  obtain ⟨parts, hparts⟩ | ⟨good, parts, bad, later, fault, heq, hgood, hbad⟩ :=
    forall₂_adds_or_exists_spoils (segments right)
  · exact ⟨_, .rule h hleft hright hparts⟩
  · rw [heq] at hright
    exact ⟨_, .badSegment h hleft hright hgood hbad⟩

/-- Every line has an outcome. -/
theorem exists_reads (text : List Char) : ∃ outcome, Reads text outcome := by
  cases htokens : tokens? text with
  | none =>
      obtain ⟨before, tokens, c, after, rfl, hbefore, hc, hnone⟩ :=
        exists_lexes_of_tokens?_eq_none htokens
      exact ⟨_, .invalidCharacter hbefore hc (Token.next?_eq_none_iff.1 hnone)⟩
  | some tokens =>
      have hlexes := tokens?_eq_some_iff.1 htokens
      -- the cases stand in the order in which a line is tried: each needs the earlier ones to fail
      by_cases hblank : tokens = []
      · exact ⟨_, .blank (hblank ▸ hlexes)⟩
      by_cases hending : tokens = [.star]
      · exact ⟨_, .ending (hending ▸ hlexes)⟩
      by_cases harrow : .arrow ∈ tokens
      · obtain ⟨before, after, rfl, habsent⟩ := List.eq_append_cons_of_mem harrow
        by_cases hleft : ∃ left : Symbol, left.isNonterminal = true ∧ before = [.symbols [left]]
        · obtain ⟨left, hleft, rfl⟩ := hleft
          exact exists_reads_of_left hlexes hleft
        · exact ⟨_, .badLeftSide hlexes habsent fun left hnonterminal heq =>
            hleft ⟨left, hnonterminal, heq⟩⟩
      · exact ⟨_, .missingArrow hlexes hblank hending harrow⟩

/-- **Reading a line.** A line is read as the grammar of lines says: there is one outcome for every
text, and no character of a run of symbols is refused as a symbol. -/
theorem read_exactly :
    (∀ text outcome, read text = outcome ↔ Reads text outcome) ∧
    ∀ letters : List Char, (∀ c ∈ letters, IsLetterOrDigit c) →
      ∃ run, letters.mapM Symbol.read = .ok run ∧ (Token.symbols run).text = letters := by
  refine ⟨fun text outcome => ⟨?_, Reads.read_eq⟩, exists_mapM_read⟩
  rintro rfl
  obtain ⟨outcome, h⟩ := exists_reads text
  rw [h.read_eq]
  exact h

/-- Empty segments, a run in two pieces and a lone `$`. -/
def gappedLine : List Char := "S -> a0 B || $ |".toList

/-- Faults of three kinds in two segments. -/
def crowdedLine : List Char := "S -> a | b$* | ->".toList

theorem read_exactly_gappedLine :
    Reads gappedLine (.ok (.rule ⟨'S', rfl⟩ [[⟨'a', rfl⟩, ⟨'0', rfl⟩, ⟨'B', rfl⟩], []])) ∧
    Reads crowdedLine (.error .misplacedEpsilon) ∧
    (∀ c ∈ ['a', '0', 'B'], IsLetterOrDigit c) ∧
    ∃ run, ['a', '0', 'B'].mapM Symbol.read = .ok run ∧
      (Token.symbols run).text = ['a', '0', 'B'] := by
  have hletters : ∀ c ∈ ['a', '0', 'B'], IsLetterOrDigit c := by
    rw [List.forall_mem_cons, List.forall_mem_cons, List.forall_mem_singleton]
    decide
  refine ⟨(read_exactly.1 _ _).1 ?_, (read_exactly.1 _ _).1 ?_, hletters,
    read_exactly.2 _ hletters⟩
  · decide +kernel
  · decide +kernel

end Line

end ChomskyForm
