import ChomskyForm.Chart
import ChomskyForm.Conversion.Stages
import ChomskyForm.Grammar.Render
import ChomskyForm.Text.Quoted
import ChomskyForm.Text.Source

/-!
# What the command prints

Warnings about the grammar text, the grammars of the conversion, and a verdict for each word to
check.
-/

namespace ChomskyForm.Report

/-- The symbols that are defined without any alternative. -/
def barren (grammar : Grammar) : List Symbol :=
  grammar.keys.filter fun left => grammar.alternatives left = []

def quotedSymbol (symbol : Symbol) : String := "'" ++ symbol.char.toString ++ "'"

def symbolList (symbols : List Symbol) : String :=
  "[" ++ ", ".intercalate (symbols.map quotedSymbol) ++ "]"

def warnings (reading : Reading) : String :=
  String.join (reading.errors.map fun error => "[warning] " ++ error.message ++ "\n") ++
    match barren reading.grammar with
    | [] => ""
    | symbols =>
        "[warning] The following nonterminals have no associated production rule: " ++
          symbolList symbols ++ "\n"

/-- Each grammar under its title, then the nonterminals that stand for terminals, if any. -/
def stages (stages : Stages) : String :=
  String.join
    (stages.titled.map fun (title, grammar) => title ++ ":\n" ++ grammar.render ++ "\n") ++
    match stages.mapping.entries with
    | [] => ""
    | entries =>
        "Isolated terminals:\n" ++
          String.join (entries.map fun (terminal, isolated) =>
            isolated.char.toString ++ " -> " ++ terminal.char.toString ++ "\n") ++ "\n"

def verdict (grammar : Grammar) (word : List Char) : String :=
  quoted word ++ ": " ++ (if grammar.recognizes word then "accepted" else "rejected") ++ "\n"

def verdicts (grammar : Grammar) (words : List String) : String :=
  String.join (words.map fun word => verdict grammar word.toList)

end ChomskyForm.Report
