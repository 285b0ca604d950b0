import ChomskyForm.Production

/-!
# Tokens

The marks of a rule line and its runs of symbols. Spaces, tabs and carriage returns separate tokens
and are dropped. A scan reports for each token where it starts and stops, and where it had to give
up at a character that starts no token.
-/

namespace ChomskyForm

/-- Columns and bytes before a place in a text. -/
structure Position where
  column : Nat
  byte : Nat
deriving DecidableEq

namespace Position

def origin : Position := ⟨0, 0⟩

/-- A tab is four columns wide and every other character one. -/
def after (position : Position) (c : Char) : Position :=
  ⟨position.column + (if c = '\t' then 4 else 1), position.byte + c.utf8Size⟩

def advance (position : Position) (text : List Char) : Position := text.foldl after position

end Position

inductive Token
  | arrow
  | bar
  | epsilon
  | star
  | symbols (run : List Symbol)
deriving DecidableEq

def isSpacing (c : Char) : Bool := c = ' ' || c = '\t' || c = '\r'

/-- The longest run of symbols at the head of a text, and what follows it. -/
def takeSymbols : List Char → List Symbol × List Char
  | [] => ([], [])
  | c :: rest =>
      match Symbol.ofChar? c with
      | none => ([], c :: rest)
      | some symbol => (symbol :: (takeSymbols rest).1, (takeSymbols rest).2)

namespace Token

def text : Token → List Char
  | arrow => ['-', '>']
  | bar => ['|']
  | epsilon => [epsilonMark]
  | star => ['*']
  | symbols run => run.map Symbol.char

/-- The token at the head of a text, and what follows it. -/
def next? : List Char → Option (Token × List Char)
  | '-' :: '>' :: rest => some (arrow, rest)
  | '|' :: rest => some (bar, rest)
  | '$' :: rest => some (epsilon, rest)
  | '*' :: rest => some (star, rest)
  | text =>
      let taken := takeSymbols text
      if taken.1 = [] then none else some (symbols taken.1, taken.2)

end Token

theorem takeSymbols_append (text : List Char) :
    (takeSymbols text).1.map Symbol.char ++ (takeSymbols text).2 = text := by
  induction text with
  | nil => rfl
  | cons c rest ih =>
      unfold takeSymbols
      split
      · rfl
      · rename_i symbol hsymbol
        simp [ih, Symbol.char_of_ofChar? hsymbol]

/-- Reading a token takes its text off the head. -/
theorem Token.text_append_of_next? {text rest : List Char} {token : Token}
    (h : next? text = some (token, rest)) : token.text ++ rest = text := by
  unfold next? at h
  split at h
  · cases h; rfl
  · cases h; rfl
  · cases h; rfl
  · cases h; rfl
  · dsimp only at h
    split at h
    · cases h
    · cases h
      exact takeSymbols_append _

theorem Token.text_ne_nil_of_next? {text rest : List Char} {token : Token}
    (h : next? text = some (token, rest)) : token.text ≠ [] := by
  unfold next? at h
  split at h
  · cases h; simp [Token.text]
  · cases h; simp [Token.text]
  · cases h; simp [Token.text]
  · cases h; simp [Token.text]
  · dsimp only at h
    split at h
    · cases h
    · rename_i hne
      cases h
      simpa [Token.text] using hne

theorem Token.length_lt_of_next? {text rest : List Char} {token : Token}
    (h : next? text = some (token, rest)) : rest.length < text.length := by
  rw [← text_append_of_next? h, List.length_append]
  have := List.length_pos_iff.2 (text_ne_nil_of_next? h)
  omega

/-- A token with the places where it starts and stops. -/
structure Lexeme where
  token : Token
  start : Position
  stop : Position
deriving DecidableEq

/-- The tokens of a text up to its end or up to the first place where no token can be read. -/
structure Scan where
  lexemes : List Lexeme
  fault? : Option Position
deriving DecidableEq

/-- Scans a text that stands at the given place. -/
def scanFrom (position : Position) (text : List Char) : Scan :=
  match text with
  | [] => ⟨[], none⟩
  | c :: rest =>
      if isSpacing c then scanFrom (position.after c) rest
      else
        match _h : Token.next? (c :: rest) with
        | none => ⟨[], some position⟩
        | some (token, tail) =>
            let stop := position.advance token.text
            let later := scanFrom stop tail
            ⟨⟨token, position, stop⟩ :: later.lexemes, later.fault?⟩
termination_by text.length
decreasing_by
  · simp
  · exact Token.length_lt_of_next? _h

def scan (text : List Char) : Scan := scanFrom .origin text

end ChomskyForm
