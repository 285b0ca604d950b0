import ChomskyForm.Text.Token

/-!
# Rule lines

A line is blank, or it is the mark `*` that ends a grammar text, or it is a rule: one nonterminal,
an arrow, and alternatives between bars. Of several faults the first of these decides: a character
that starts no token, no arrow, a bad left side, and then the first bad alternative.
-/

namespace ChomskyForm

inductive LineFault
  | invalidCharacter (column : Nat)
  | missingArrow
  | badLeftSide
  | misplacedEpsilon
  | unexpectedToken (token : Token)
deriving DecidableEq

def LineFault.message : LineFault → String
  | invalidCharacter column => "unrecognized character at column " ++ toString column
  | missingArrow => "missing `->' (expected `A -> b | c')"
  | badLeftSide => "expected a single nonterminal before `->'"
  | misplacedEpsilon => "`$' must be the only content of an alternative"
  | unexpectedToken token => "unexpected `" ++ String.ofList token.text ++ "' in an alternative"

inductive Line
  | blank
  | ending
  | rule (left : Symbol) (alternatives : List Production)
deriving DecidableEq

namespace Line

/-- The left side must be a run of one nonterminal. -/
def readLeft : List Token → Except LineFault Symbol
  | [.symbols [symbol]] => if symbol.isNonterminal then .ok symbol else .error .badLeftSide
  | _ => .error .badLeftSide

/-- What stands between the bars, empty stretches included. -/
def segments : List Token → List (List Token)
  | [] => [[]]
  | token :: rest =>
      if token = .bar then [] :: segments rest
      else
        match segments rest with
        | [] => [[token]]
        | segment :: more => (token :: segment) :: more

/-- Joins runs of symbols; the first token of another kind is at fault. -/
def readSymbols : List Token → Except LineFault Production
  | [] => .ok []
  | .symbols run :: rest => return run ++ (← readSymbols rest)
  | .epsilon :: _ => .error .misplacedEpsilon
  | token :: _ => .error (.unexpectedToken token)

/-- A lone `$` is the epsilon production. -/
def readAlternative : List Token → Except LineFault Production
  | [.epsilon] => .ok []
  | tokens => readSymbols tokens

def ofTokens (tokens : List Token) : Except LineFault Line :=
  match tokens with
  | [] => .ok .blank
  | [.star] => .ok .ending
  | _ =>
      if .arrow ∈ tokens then do
        let left ← readLeft (tokens.takeWhile (· ≠ .arrow))
        let right := (tokens.dropWhile (· ≠ .arrow)).tail
        let alternatives ← ((segments right).filter (· ≠ [])).mapM readAlternative
        return .rule left alternatives
      else .error .missingArrow

/-- The column of a fault counts from one. -/
def read (text : List Char) : Except LineFault Line :=
  match scan text with
  | ⟨_, some position⟩ => .error (.invalidCharacter (position.column + 1))
  | ⟨lexemes, none⟩ => ofTokens (lexemes.map Lexeme.token)

end Line

end ChomskyForm
