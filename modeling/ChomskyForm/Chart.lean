import ChomskyForm.Grammar.Basic

/-!
# Recognition by chart

A chart holds, for every factor of a word, the symbols that derive it through alternatives in normal
form: a single terminal, or two nonterminals. Row `n` of the chart is about the factors of length
`n + 1`, and its cell `i` about the one that starts at `i`.
-/

namespace ChomskyForm

abbrev Chart := Array (Array (List Symbol))

/-- The symbols that derive the factor of length `row + 1` at `start`. -/
def Chart.cell? (chart : Chart) (row start : Nat) : Option (List Symbol) := do
  (← chart[row]?)[start]?

namespace Grammar

/-- The symbols with the terminal as an alternative. -/
def lexicalKeys (grammar : Grammar) (terminal : Symbol) : List Symbol :=
  grammar.keys.filter fun left => [terminal] ∈ grammar.alternatives left

/-- The alternatives that consist of two nonterminals, after their left sides. -/
def pairRules (grammar : Grammar) : List (Symbol × Symbol × Symbol) :=
  grammar.rules.entries.flatMap fun (left, right) => right.filterMap fun
    | [first, second] =>
        if first.isNonterminal ∧ second.isNonterminal then some (left, first, second) else none
    | _ => none

/-- The left sides of the pairs whose parts are found in the two cells. -/
def pairKeys (pairs : List (Symbol × Symbol × Symbol)) (firsts seconds : List Symbol) :
    List Symbol :=
  pairs.filterMap fun (left, first, second) =>
    if first ∈ firsts ∧ second ∈ seconds then some left else none

/-- The cell at `start` of the row above a chart, from all ways to cut its factor in two. -/
def nextCell (pairs : List (Symbol × Symbol × Symbol)) (chart : Chart) (start : Nat) :
    List Symbol :=
  (List.range chart.size).foldl
    (fun cell row =>
      match chart.cell? row start, chart.cell? (chart.size - 1 - row) (start + row + 1) with
      | some firsts, some seconds => addAllNew cell (pairKeys pairs firsts seconds)
      | _, _ => cell)
    []

/-- The first `height + 1` rows of the chart of a word. -/
def chart (grammar : Grammar) (word : List Symbol) : Nat → Chart
  | 0 => #[word.toArray.map grammar.lexicalKeys]
  | height + 1 =>
      let rows := grammar.chart word height
      let pairs := grammar.pairRules
      rows.push ((Array.range (word.length - rows.size)).map (nextCell pairs rows))

/-- The empty word takes an epsilon production of the start symbol, and any other word the start
symbol in the top cell of its chart. -/
def recognizesWord (grammar : Grammar) (start : Symbol) (word : List Symbol) : Bool :=
  if word = [] then [] ∈ grammar.alternatives start
  else ((grammar.chart word (word.length - 1)).cell? (word.length - 1) 0).any (start ∈ ·)

/-- A text that is not made of terminals is no word. -/
def recognizes (grammar : Grammar) (text : List Char) : Bool :=
  match grammar.start?, text.mapM Symbol.ofChar? with
  | some start, some word => word.all Symbol.isTerminal && grammar.recognizesWord start word
  | _, _ => false

end Grammar

end ChomskyForm
