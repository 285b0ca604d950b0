/-!
# Grammar symbols

A symbol is an ASCII letter or digit. Its case alone decides its kind: the 26 uppercase letters are
the nonterminals, and every other symbol is a terminal.
-/

namespace ChomskyForm

/-- An ASCII letter or digit. -/
@[ext]
structure Symbol where
  char : Char
  isAlphanum_char : char.isAlphanum = true
deriving DecidableEq

namespace Symbol

def ofChar? (c : Char) : Option Symbol :=
  if h : c.isAlphanum = true then some ⟨c, h⟩ else none

def isNonterminal (symbol : Symbol) : Bool := symbol.char.isUpper

def isTerminal (symbol : Symbol) : Bool := !symbol.isNonterminal

/-- Symbols are ordered by code point: digits, then uppercase, then lowercase letters. -/
instance : LT Symbol := ⟨fun a b => a.char < b.char⟩

instance (a b : Symbol) : Decidable (a < b) := inferInstanceAs (Decidable (a.char < b.char))

/-- Every symbol once, in ascending order. -/
def all : List Symbol := (List.range 128).filterMap fun code => ofChar? (Char.ofNat code)

/-- The nonterminals in the order in which fresh ones are taken. -/
def pool : List Symbol := all.filter isNonterminal

@[simp]
theorem ofChar?_char (symbol : Symbol) : ofChar? symbol.char = some symbol := by
  simp [ofChar?, symbol.isAlphanum_char]

theorem char_of_ofChar? {c : Char} {symbol : Symbol} (h : ofChar? c = some symbol) :
    symbol.char = c := by
  unfold ofChar? at h
  split at h
  · cases h
    rfl
  · cases h

theorem toNat_char_lt (symbol : Symbol) : symbol.char.toNat < 128 := by
  have h : (decide (symbol.char.val ≥ 65 ∧ symbol.char.val ≤ 90) ||
      (decide (symbol.char.val ≥ 97) && decide (symbol.char.val ≤ 122)) ||
      (decide (symbol.char.val ≥ 48) && decide (symbol.char.val ≤ 57))) = true :=
    symbol.isAlphanum_char
  simp only [Bool.or_eq_true, Bool.and_eq_true, decide_eq_true_eq, UInt32.le_iff_toNat_le,
    ge_iff_le] at h
  change ((65 ≤ symbol.char.toNat ∧ symbol.char.toNat ≤ 90) ∨
    (97 ≤ symbol.char.toNat ∧ symbol.char.toNat ≤ 122)) ∨
    (48 ≤ symbol.char.toNat ∧ symbol.char.toNat ≤ 57) at h
  omega

theorem mem_all (symbol : Symbol) : symbol ∈ all := by
  refine List.mem_filterMap.2 ⟨symbol.char.toNat, List.mem_range.2 symbol.toNat_char_lt, ?_⟩
  rw [Char.ofNat_toNat, ofChar?_char]

theorem mem_pool {symbol : Symbol} : symbol ∈ pool ↔ symbol.isNonterminal = true := by
  simp [pool, mem_all]

theorem length_pool : pool.length = 26 := by decide

end Symbol

end ChomskyForm
