import ChomskyForm.Text.Source
import ChomskyForm.Proofs.Scan
import Mathlib.Data.List.TakeWhile

/-!
# Reading line by line

Each line is read on its own. So a reading is made of the lines before the ending mark: its grammar
collects their rules in order, and its errors are those of the lines that cannot be read, each with
the number of its line. Collecting lists each left side and each alternative where it occurs first.
-/

namespace ChomskyForm

namespace Grammar

variable {grammar : Grammar} {rules : List (Symbol × List Production)}

/-- Adds the rules one after the other. -/
def addRules (grammar : Grammar) (rules : List (Symbol × List Production)) : Grammar :=
  rules.foldl (fun grammar rule => grammar.addRule rule.1 rule.2) grammar

theorem chosenStart_addRules (grammar : Grammar) (rules : List (Symbol × List Production)) :
    (grammar.addRules rules).chosenStart = grammar.chosenStart := by
  induction rules generalizing grammar with
  | nil => rfl
  | cons rule rules ih => exact ih (grammar.addRule rule.1 rule.2)

theorem keys_addRules (grammar : Grammar) (rules : List (Symbol × List Production)) :
    (grammar.addRules rules).keys = addAllNew grammar.keys (rules.map Prod.fst) := by
  induction rules generalizing grammar with
  | nil => rfl
  | cons rule rules ih =>
      refine (ih (grammar.addRule rule.1 rule.2)).trans ?_
      rw [keys_addRule, List.map_cons, addAllNew_cons, addNew]

theorem alternatives_addRules (grammar : Grammar) (rules : List (Symbol × List Production))
    (left : Symbol) :
    (grammar.addRules rules).alternatives left =
      addAllNew (grammar.alternatives left)
        ((rules.filter fun rule => rule.1 = left).flatMap Prod.snd) := by
  induction rules generalizing grammar with
  | nil => rfl
  | cons rule rules ih =>
      refine (ih (grammar.addRule rule.1 rule.2)).trans ?_
      rw [alternatives_addRule]
      by_cases heq : rule.1 = left
      · rw [if_pos heq.symm, List.filter_cons_of_pos (by simpa using heq), List.flatMap_cons,
          addAllNew_append, heq]
      · rw [if_neg (Ne.symm heq), List.filter_cons_of_neg (by simpa using heq)]

/-- The grammar of the rules: left sides and alternatives stand where they occur first. -/
def ofRules (rules : List (Symbol × List Production)) : Grammar := addRules {} rules

theorem keys_ofRules (rules : List (Symbol × List Production)) :
    (ofRules rules).keys = (rules.map Prod.fst).eraseDups := by
  rw [ofRules, keys_addRules]
  exact addAllNew_nil_left _

theorem alternatives_ofRules (rules : List (Symbol × List Production)) (left : Symbol) :
    (ofRules rules).alternatives left =
      ((rules.filter fun rule => rule.1 = left).flatMap Prod.snd).eraseDups := by
  rw [ofRules, alternatives_addRules]
  exact addAllNew_nil_left _

end Grammar

namespace Line

/-- The rule of a line that has one. -/
def rule? (text : List Char) : Option (Symbol × List Production) :=
  match read text with
  | .ok (.rule left alternatives) => some (left, alternatives)
  | _ => none

end Line

namespace Reading

variable {number : Nat} {grammar : Grammar} {text : List Char} {texts more : List (List Char)}

/-- The lines before the first one that holds the ending mark. -/
def live (texts : List (List Char)) : List (List Char) :=
  texts.takeWhile fun text => !Line.isEnding text

/-- The error of a numbered line that cannot be read. -/
def error? (numbered : List Char × Nat) : Option LineError :=
  match Line.read numbered.1 with
  | .error fault => some ⟨numbered.2, fault⟩
  | .ok _ => none

theorem live_cons_of_isEnding (h : Line.isEnding text = true) (rest : List (List Char)) :
    live (text :: rest) = [] := by
  rw [live, List.takeWhile_cons_of_neg (by simp [h])]

theorem live_cons (h : Line.read text ≠ .ok .ending) (rest : List (List Char)) :
    live (text :: rest) = text :: live rest := by
  rw [Ne, Line.read_eq_ending_iff] at h
  rw [live, List.takeWhile_cons_of_pos (by simpa using h)]
  rfl

theorem ofLines_eq (number : Nat) (grammar : Grammar) (texts : List (List Char)) :
    ofLines number grammar texts =
      ⟨grammar.addRules ((live texts).filterMap Line.rule?),
        ((live texts).zipIdx number).filterMap error?⟩ := by
  induction texts generalizing number grammar with
  | nil => rfl
  | cons text rest ih =>
      unfold ofLines
      cases hread : Line.read text with
      | error fault =>
          rw [live_cons (by simp [hread]), List.zipIdx_cons]
          simp [ih, error?, Line.rule?, hread]
      | ok line =>
          cases line with
          | ending =>
              rw [live_cons_of_isEnding (Line.read_eq_ending_iff.1 hread)]
              rfl
          | blank =>
              rw [live_cons (by simp [hread]), List.zipIdx_cons]
              simp [ih, error?, Line.rule?, hread]
          | rule left alternatives =>
              rw [live_cons (by simp [hread]), List.zipIdx_cons]
              simp [ih, error?, Line.rule?, hread, Grammar.addRules]

theorem ofLines_cons_of_isEnding (h : Line.isEnding text = true) (number : Nat)
    (grammar : Grammar) (rest : List (List Char)) :
    ofLines number grammar (text :: rest) = ⟨grammar, []⟩ := by
  rw [ofLines, Line.read_eq_ending_iff.2 h]

theorem ofLines_cons_of_error {fault : LineFault} (h : Line.read text = .error fault)
    (number : Nat) (grammar : Grammar) (rest : List (List Char)) :
    ofLines number grammar (text :: rest) =
      let later := ofLines (number + 1) grammar rest
      { later with errors := ⟨number, fault⟩ :: later.errors } := by
  rw [ofLines, h]

theorem ofText_eq (text : List Char) :
    ofText text =
      ⟨.ofRules ((live (lines text)).filterMap Line.rule?),
        ((live (lines text)).zipIdx 1).filterMap error?⟩ :=
  ofLines_eq 1 {} (lines text)

theorem error?_eq_some_iff {numbered : List Char × Nat} {error : LineError} :
    error? numbered = some error ↔
      Line.read numbered.1 = .error error.fault ∧ error.line = numbered.2 := by
  obtain ⟨line, fault⟩ := error
  unfold error?
  cases Line.read numbered.1 with
  | error other => simp [and_comm, eq_comm]
  | ok => simp

theorem mem_errors_iff {error : LineError} :
    error ∈ (ofText text).errors ↔
      ∃ index line, (live (lines text))[index]? = some line ∧
        Line.read line = .error error.fault ∧ error.line = index + 1 := by
  rw [ofText_eq, List.mem_filterMap]
  constructor
  · rintro ⟨⟨line, number⟩, hmem, herror⟩
    obtain ⟨hle, hget⟩ := List.mk_mem_zipIdx_iff_le_and_getElem?_sub.1 hmem
    obtain ⟨hread, hnumber⟩ := error?_eq_some_iff.1 herror
    exact ⟨number - 1, line, hget, hread, hnumber.trans (Nat.sub_add_cancel hle).symm⟩
  · rintro ⟨index, line, hget, hread, hnumber⟩
    refine ⟨(line, index + 1), ?_, error?_eq_some_iff.2 ⟨hread, hnumber⟩⟩
    exact List.mk_mem_zipIdx_iff_le_and_getElem?_sub.2 ⟨by omega, hget⟩

theorem pairwise_zipIdx {α : Type} (list : List α) (number : Nat) :
    (list.zipIdx number).Pairwise fun first second => first.2 < second.2 := by
  induction list generalizing number with
  | nil => exact .nil
  | cons item list ih =>
      exact List.pairwise_cons.2 ⟨fun _ h => List.le_snd_of_mem_zipIdx h, ih (number + 1)⟩

theorem pairwise_errors (text : List Char) :
    (ofText text).errors.Pairwise fun first second => first.line < second.line := by
  rw [ofText_eq, List.pairwise_filterMap]
  refine (pairwise_zipIdx _ 1).imp fun hlt first hfirst second hsecond => ?_
  rw [(error?_eq_some_iff.1 hfirst).2, (error?_eq_some_iff.1 hsecond).2]
  exact hlt

/-! ### What makes no difference -/

/-- What is read depends on what each line reads as, and on nothing else. -/
theorem ofLines_congr (h : texts.map Line.read = more.map Line.read) (number : Nat)
    (grammar : Grammar) : ofLines number grammar texts = ofLines number grammar more := by
  induction texts generalizing more number grammar with
  | nil =>
      rw [List.map_eq_nil_iff.1 h.symm]
  | cons text rest ih =>
      obtain ⟨other, others, rfl, hhead, hrest⟩ := List.map_eq_cons_iff.1 h.symm
      have hnext := fun number grammar => ih hrest.symm number grammar
      unfold ofLines
      rw [hhead]
      simp only [hnext]

/-- Lines that are all rules add up without errors. -/
theorem ofLines_of_rules {rules : List (Symbol × List Production)}
    (h : texts.map Line.read = rules.map fun rule => .ok (.rule rule.1 rule.2)) (number : Nat)
    (grammar : Grammar) : ofLines number grammar texts = ⟨grammar.addRules rules, []⟩ := by
  induction rules generalizing texts number grammar with
  | nil =>
      rw [List.map_eq_nil_iff.1 h]
      rfl
  | cons rule rules ih =>
      obtain ⟨text, rest, rfl, hread, hrest⟩ := List.map_eq_cons_iff.1 h
      rw [ofLines, hread]
      exact ih hrest (number + 1) (grammar.addRule rule.1 rule.2)

theorem live_append (h : ∃ line ∈ texts, Line.isEnding line = true) (more : List (List Char)) :
    live (texts ++ more) = live texts := by
  induction texts with
  | nil => simp at h
  | cons text rest ih =>
      rw [List.cons_append]
      by_cases hending : Line.isEnding text = true
      · rw [live_cons_of_isEnding hending, live_cons_of_isEnding hending]
      · have hread : Line.read text ≠ .ok .ending := fun hread =>
          hending (Line.read_eq_ending_iff.1 hread)
        rw [List.exists_mem_cons_iff, or_iff_right hending] at h
        rw [live_cons hread, live_cons hread, ih h]

/-- Lines without an ending mark are read, and then what follows them. -/
theorem ofLines_append (h : ∀ line ∈ texts, Line.isEnding line = false) (number : Nat)
    (grammar : Grammar) (more : List (List Char)) :
    ofLines number grammar (texts ++ more) =
      let first := ofLines number grammar texts
      let second := ofLines (number + texts.length) first.grammar more
      ⟨second.grammar, first.errors ++ second.errors⟩ := by
  have hlive : ∀ line ∈ texts, (!Line.isEnding line) = true := fun line hline => by
    rw [h line hline, Bool.not_false]
  have htexts : live texts = texts := List.takeWhile_eq_self_iff.2 hlive
  have hboth : live (texts ++ more) = texts ++ live more := List.takeWhile_append_of_pos hlive
  simp only [ofLines_eq, htexts, hboth, List.filterMap_append, List.zipIdx_append,
    Grammar.addRules, List.foldl_append]

/-- A text with a newline and more behind it has lines that read like those of the text, and more
behind them. -/
theorem exists_lines_append (text after : List Char) :
    ∃ start more, lines (text ++ '\n' :: after) = start ++ more ∧
      start.map Line.read = (lines text).map Line.read := by
  induction text using lines_induction '\n' with
  | nil => exact ⟨[], _, rfl, rfl⟩
  | last line hne habsent =>
      refine ⟨[dropReturn '\r' line], lines after, breakLines_append_newline habsent after, ?_⟩
      rw [lines, breakLines_of_notMem hne habsent, List.map_singleton, Line.read_dropReturn]
      rfl
  | cons line rest habsent ih =>
      obtain ⟨start, more, hlines, hread⟩ := ih
      refine ⟨dropReturn '\r' line :: start, more, ?_, ?_⟩
      · rw [List.append_assoc, List.cons_append, lines, breakLines_append_newline habsent]
        exact congrArg _ hlines
      · rw [lines, breakLines_append_newline habsent, List.map_cons, List.map_cons, hread]
        rfl

/-- What follows the line of the ending mark is not read. -/
theorem ofText_append_newline (h : ∃ line ∈ lines text, Line.isEnding line = true)
    (after : List Char) : ofText (text ++ '\n' :: after) = ofText text := by
  obtain ⟨start, more, hlines, hread⟩ := exists_lines_append text after
  have hending : ∃ line ∈ start, Line.isEnding line = true := by
    obtain ⟨line, hline, hending⟩ := h
    have hmem := List.mem_map_of_mem (f := Line.read) hline
    rw [← hread, Line.read_eq_ending_iff.2 hending] at hmem
    obtain ⟨other, hother, heq⟩ := List.mem_map.1 hmem
    exact ⟨other, hother, Line.read_eq_ending_iff.1 heq⟩
  rw [ofText, ofText, hlines, ← ofLines_congr hread, ofLines_eq, ofLines_eq, live_append hending]

/-- A carriage return at the end of a line belongs to its ending or is a blank. -/
theorem ofText_unlines (h : ∀ line ∈ texts, '\n' ∉ line) :
    ofText (unlines '\n' texts) = ofLines 1 {} texts := by
  rw [ofText, lines, breakLines_unlines h]
  refine ofLines_congr ?_ 1 {}
  rw [List.map_map]
  exact List.map_congr_left fun line _ => Line.read_dropReturn line

/-- Nothing, in place of a line that cannot be read. -/
def blankIfRejected (line : List Char) : List Char :=
  match Line.read line with
  | .error _ => []
  | .ok _ => line

/-- The lines of the text with nothing in place of those that cannot be read. -/
def blankRejected (text : List Char) : List Char :=
  unlines '\n' ((lines text).map blankIfRejected)

theorem ofLines_map_blankIfRejected (number : Nat) (grammar : Grammar)
    (texts : List (List Char)) :
    ofLines number grammar (texts.map blankIfRejected) =
      ⟨(ofLines number grammar texts).grammar, []⟩ := by
  have hblank : Line.read [] = .ok .blank := by
    rw [Line.read_of_tokens? tokens?_nil]
    rfl
  induction texts generalizing number grammar with
  | nil => rfl
  | cons text rest ih =>
      rw [List.map_cons]
      unfold ofLines
      cases hread : Line.read text with
      | error fault =>
          have hnil : blankIfRejected text = [] := by rw [blankIfRejected, hread]
          rw [hnil, hblank]
          exact ih (number + 1) grammar
      | ok line =>
          have hsame : blankIfRejected text = text := by rw [blankIfRejected, hread]
          rw [hsame, hread]
          cases line with
          | blank => exact ih (number + 1) grammar
          | ending => rfl
          | rule left alternatives => exact ih (number + 1) (grammar.addRule left alternatives)

theorem ofText_blankRejected (text : List Char) :
    ofText (blankRejected text) = ⟨(ofText text).grammar, []⟩ := by
  rw [blankRejected, ofText_unlines, ofLines_map_blankIfRejected]
  · rfl
  · refine List.forall_mem_map.2 fun line hline => ?_
    rw [blankIfRejected]
    split
    · exact List.not_mem_nil
    · exact newline_notMem_of_mem_breakLines text line hline

/-- The rules of the lines before the ending mark. -/
def rules (text : List Char) : List (Symbol × List Production) :=
  (live (lines text)).filterMap Line.rule?

/-- **Reading a text.** There is one error for each line before the ending mark that cannot be read,
in the order of the lines. The rules of the others make up the grammar: each left side and each of
its alternatives stands where it occurs first. So the lines with an error might as well be blank,
and what follows the ending mark might as well be missing. -/
theorem ofText_collects_lines (text : List Char) :
    (∀ error : LineError, error ∈ (ofText text).errors ↔
      ∃ index line, (live (lines text))[index]? = some line ∧
        Line.read line = .error error.fault ∧ error.line = index + 1) ∧
    (ofText text).errors.Pairwise (fun first second => first.line < second.line) ∧
    (ofText text).grammar.chosenStart = none ∧
    (ofText text).grammar.keys = ((rules text).map Prod.fst).eraseDups ∧
    (∀ left, (ofText text).grammar.alternatives left =
      (((rules text).filter fun rule => rule.1 = left).flatMap Prod.snd).eraseDups) ∧
    ofText (blankRejected text) = ⟨(ofText text).grammar, []⟩ ∧
    ((∃ line ∈ lines text, Line.isEnding line = true) →
      ∀ after, ofText (text ++ '\n' :: after) = ofText text) := by
  have hgrammar : (ofText text).grammar = .ofRules (rules text) := by
    rw [ofText_eq]
    rfl
  refine ⟨fun _ => mem_errors_iff, pairwise_errors text, ?_, ?_, fun left => ?_,
    ofText_blankRejected text, ofText_append_newline⟩
  · rw [hgrammar]
    exact Grammar.chosenStart_addRules {} (rules text)
  · rw [hgrammar]
    exact Grammar.keys_ofRules (rules text)
  · rw [hgrammar]
    exact Grammar.alternatives_ofRules (rules text) left

/-- A text with two lines that cannot be read. -/
def badLines : List Char := "S -> aB | b\nS =\n\nB -> b$\nB -> b\nS -> b | $\n * ".toList

theorem ofText_collects_lines_badLines :
    (∃ line ∈ lines badLines, Line.isEnding line = true) ∧
      (ofText badLines).errors.map LineError.line = [2, 4] ∧
      ofText (badLines ++ "\nC -> c".toList) = ofText badLines := by
  have hending : ∃ line ∈ lines badLines, Line.isEnding line = true := by decide +kernel
  exact ⟨hending, by decide +kernel, (ofText_collects_lines badLines).2.2.2.2.2.2 hending _⟩

end Reading

end ChomskyForm
