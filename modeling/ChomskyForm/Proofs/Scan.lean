import ChomskyForm.Text.Blank
import ChomskyForm.Text.Line
import ChomskyForm.Proofs.Lines
import ChomskyForm.Proofs.Rules
import Mathlib.Data.List.Basic

/-!
# What a scan sees

A token is read whole before the end of a text and before a blank. So the scan of a text with more
behind it, from a blank on, is the scan of the text and, where that does not fail, the scan of the
rest. A scan that does not fail spells the text without its blanks.
-/

namespace ChomskyForm

variable {c : Char} {text rest suffix : List Char} {position : Position} {token : Token}
  {tokens : List Token}

/-! ### Letters and digits -/

/-- The characters that a run of symbols is written with. -/
def IsLetterOrDigit (c : Char) : Prop :=
  ('A' ≤ c ∧ c ≤ 'Z') ∨ ('a' ≤ c ∧ c ≤ 'z') ∨ ('0' ≤ c ∧ c ≤ '9')

instance : DecidablePred IsLetterOrDigit := fun _ => inferInstanceAs (Decidable (_ ∨ _ ∨ _))

theorem isLetterOrDigit_iff_isAlphanum : IsLetterOrDigit c ↔ c.isAlphanum = true := by
  change _ ↔ (decide (c.val ≥ 65 ∧ c.val ≤ 90) || (decide (c.val ≥ 97) && decide (c.val ≤ 122)) ||
    (decide (c.val ≥ 48) && decide (c.val ≤ 57))) = true
  simp only [Bool.or_eq_true, Bool.and_eq_true, decide_eq_true_eq, or_assoc]
  rfl

theorem ofChar?_eq_none_iff : Symbol.ofChar? c = none ↔ ¬IsLetterOrDigit c := by
  rw [isLetterOrDigit_iff_isAlphanum, Symbol.ofChar?]
  split <;> simp_all

/-! ### Blanks -/

theorem isSpacing_iff : isSpacing c = true ↔ c = ' ' ∨ c = '\t' ∨ c = '\r' := by
  simp [isSpacing, or_assoc]

theorem ofChar?_of_isSpacing (h : isSpacing c = true) : Symbol.ofChar? c = none := by
  obtain rfl | rfl | rfl := isSpacing_iff.1 h <;> decide

theorem isBlank_of_isSpacing (h : isSpacing c = true) : isBlank c = true := by
  obtain rfl | rfl | rfl := isSpacing_iff.1 h <;> decide

theorem Symbol.isBlank_char (symbol : Symbol) : isBlank symbol.char = false := by
  have hall : ∀ symbol ∈ all, isBlank symbol.char = false := by decide +kernel
  exact hall symbol (mem_all symbol)

/-! ### Tokens at the head of a text -/

/-- Nothing, or a text that starts with a blank. -/
def StartsBlank (text : List Char) : Prop := ∀ c ∈ text.head?, isSpacing c = true

theorem startsBlank_nil : StartsBlank [] := fun _ h => by cases h

theorem startsBlank_cons (h : isSpacing c = true) : StartsBlank (c :: text) := by
  intro first hfirst
  cases hfirst
  exact h

/-- Nothing, or a text that starts with no letter or digit. -/
def StartsApart (text : List Char) : Prop := ∀ c ∈ text.head?, ¬IsLetterOrDigit c

theorem startsApart_nil : StartsApart [] := fun _ h => by cases h

theorem StartsBlank.startsApart (h : StartsBlank text) : StartsApart text := fun c hc =>
  ofChar?_eq_none_iff.1 (ofChar?_of_isSpacing (h c hc))

theorem takeSymbols_of_startsApart (h : StartsApart rest) : takeSymbols rest = ([], rest) := by
  cases rest with
  | nil => rfl
  | cons c rest => rw [takeSymbols, ofChar?_eq_none_iff.2 (h c rfl)]

theorem takeSymbols_append_startsBlank (h : StartsBlank suffix) (text : List Char) :
    takeSymbols (text ++ suffix) = ((takeSymbols text).1, (takeSymbols text).2 ++ suffix) := by
  induction text with
  | nil => exact takeSymbols_of_startsApart h.startsApart
  | cons c rest ih =>
      rw [List.cons_append, takeSymbols, takeSymbols, ih]
      cases Symbol.ofChar? c <;> rfl

theorem takeSymbols_map_char_append (run : List Symbol) (h : StartsApart rest) :
    takeSymbols (run.map Symbol.char ++ rest) = (run, rest) := by
  induction run with
  | nil => exact takeSymbols_of_startsApart h
  | cons symbol run ih =>
      rw [List.map_cons, List.cons_append, takeSymbols, Symbol.ofChar?_char, ih]

namespace Token

/-- The first character decides which token it can be. -/
theorem next?_cons (c : Char) (rest : List Char) :
    next? (c :: rest) =
      if c = '-' then (if rest.head? = some '>' then some (arrow, rest.tail) else none)
      else if c = '|' then some (bar, rest)
      else if c = '$' then some (epsilon, rest)
      else if c = '*' then some (star, rest)
      else (Symbol.ofChar? c).map fun symbol =>
        (symbols (symbol :: (takeSymbols rest).1), (takeSymbols rest).2) := by
  split_ifs with hdash harrow hbar hepsilon hstar
  · obtain ⟨tail, rfl⟩ := List.head?_eq_some_iff.1 harrow
    rw [hdash]
    rfl
  · have hrest : ∀ tail, rest ≠ '>' :: tail := fun tail heq => harrow (heq ▸ rfl)
    rw [hdash, next?]
    · rfl
    -- a dash alone is no mark
    all_goals simp_all
  · rw [hbar]
    rfl
  · rw [hepsilon]
    rfl
  · rw [hstar]
    rfl
  · rw [next?]
    · cases hsymbol : Symbol.ofChar? c <;> simp [takeSymbols, hsymbol]
    all_goals simp_all

/-- A symbol at the head of a text starts a run. -/
theorem next?_char_cons (symbol : Symbol) (rest : List Char) :
    next? (symbol.char :: rest) =
      some (symbols (symbol :: (takeSymbols rest).1), (takeSymbols rest).2) := by
  have hmark : ∀ mark, Symbol.ofChar? mark = none → symbol.char ≠ mark := by
    rintro mark hnone rfl
    rw [Symbol.ofChar?_char] at hnone
    cases hnone
  rw [next?_cons, if_neg (hmark '-' rfl), if_neg (hmark '|' rfl), if_neg (hmark '$' rfl),
    if_neg (hmark '*' rfl), Symbol.ofChar?_char]
  rfl

theorem next?_of_startsBlank (h : StartsBlank suffix) : next? suffix = none := by
  cases suffix with
  | nil => rfl
  | cons c rest =>
      have hblank := h c rfl
      rw [next?_cons, ofChar?_of_isSpacing hblank]
      obtain rfl | rfl | rfl := isSpacing_iff.1 hblank <;> rfl

theorem next?_append (h : StartsBlank suffix) (text : List Char) :
    next? (text ++ suffix) = (next? text).map fun taken => (taken.1, taken.2 ++ suffix) := by
  cases text with
  | nil => exact next?_of_startsBlank h
  | cons c rest =>
      have harrow : (rest ++ suffix).head? = some '>' ↔ rest.head? = some '>' := by
        cases rest with
        | nil =>
            refine ⟨fun hhead => ?_, fun hhead => nomatch hhead⟩
            cases h '>' hhead
        | cons => rfl
      rw [List.cons_append, next?_cons, next?_cons, takeSymbols_append_startsBlank h]
      simp only [harrow]
      split_ifs with hdash hhead
      · obtain ⟨tail, rfl⟩ := List.head?_eq_some_iff.1 hhead
        rfl
      · rfl
      · rfl
      · rfl
      · rfl
      · cases Symbol.ofChar? c <;> rfl

/-- A token that can stand before a text: any mark, or a run that the text does not go on with. -/
def Precedes : Token → List Char → Prop
  | symbols run, rest => run ≠ [] ∧ StartsApart rest
  | _, _ => True

theorem precedes_nil (h : token ≠ symbols []) : token.Precedes [] := by
  cases token with
  | symbols run => exact ⟨fun hnil => h (hnil ▸ rfl), startsApart_nil⟩
  | _ => trivial

theorem next?_text_append (h : token.Precedes rest) :
    next? (token.text ++ rest) = some (token, rest) := by
  cases token with
  | symbols run =>
      obtain ⟨hne, hrest⟩ := h
      cases run with
      | nil => exact absurd rfl hne
      | cons symbol run =>
          rw [text, List.map_cons, List.cons_append, next?_char_cons,
            takeSymbols_map_char_append run hrest]
  | _ => rfl

/-- No token contains white space. -/
theorem isBlank_of_mem_text (h : c ∈ token.text) : isBlank c = false := by
  cases token with
  | symbols run =>
      obtain ⟨symbol, -, rfl⟩ := List.mem_map.1 h
      exact symbol.isBlank_char
  | arrow => obtain rfl | rfl := List.mem_pair.1 h <;> decide
  | _ =>
      rw [List.mem_singleton.1 h]
      decide

theorem isSpacing_of_mem_text (h : c ∈ token.text) : isSpacing c = false := by
  by_contra hspacing
  have hblank := isBlank_of_isSpacing (eq_true_of_ne_false hspacing)
  rw [isBlank_of_mem_text h] at hblank
  cases hblank

end Token

/-! ### Scans -/

namespace Position

theorem advance_append (position : Position) (text rest : List Char) :
    position.advance (text ++ rest) = (position.advance text).advance rest :=
  List.foldl_append

end Position

namespace Scan

/-- One scan, and another where it ends unless it fails. -/
def andThen (first second : Scan) : Scan :=
  match first.fault? with
  | some _ => first
  | none => ⟨first.lexemes ++ second.lexemes, second.fault?⟩

/-- The tokens of a scan that does not fail. -/
def tokens? (scan : Scan) : Option (List Token) :=
  match scan.fault? with
  | some _ => none
  | none => some (scan.lexemes.map Lexeme.token)

theorem andThen_assoc (first second third : Scan) :
    (first.andThen second).andThen third = first.andThen (second.andThen third) := by
  obtain ⟨lexemes, fault?⟩ := first
  obtain ⟨more, later?⟩ := second
  cases fault? with
  | some => rfl
  | none => cases later? <;> simp [andThen]

theorem andThen_empty (scan : Scan) : scan.andThen ⟨[], none⟩ = scan := by
  obtain ⟨lexemes, fault?⟩ := scan
  cases fault? <;> simp [andThen]

theorem tokens?_andThen (first second : Scan) :
    (first.andThen second).tokens? =
      first.tokens?.bind fun tokens => second.tokens?.map (tokens ++ ·) := by
  obtain ⟨lexemes, fault?⟩ := first
  obtain ⟨more, later?⟩ := second
  cases fault? with
  | some => rfl
  | none => cases later? <;> simp [andThen, tokens?]

end Scan

theorem scanFrom_nil (position : Position) : scanFrom position [] = ⟨[], none⟩ := by
  rw [scanFrom]

theorem scanFrom_cons_of_isSpacing (h : isSpacing c = true) (rest : List Char) :
    scanFrom position (c :: rest) = scanFrom (position.after c) rest := by
  rw [scanFrom, if_pos h]

theorem scanFrom_of_next?_eq_none (h : Token.next? (c :: rest) = none)
    (hblank : isSpacing c = false) : scanFrom position (c :: rest) = ⟨[], some position⟩ := by
  rw [scanFrom, if_neg (by simp [hblank])]
  split
  · rfl
  · rename_i token tail hsome
    rw [hsome] at h
    cases h

theorem scanFrom_of_next? (h : Token.next? text = some (token, rest)) :
    scanFrom position text =
      Scan.andThen ⟨[⟨token, position, position.advance token.text⟩], none⟩
        (scanFrom (position.advance token.text) rest) := by
  cases text with
  | nil => cases h
  | cons c text =>
      have hblank : isSpacing c ≠ true := fun hblank => by
        rw [Token.next?_of_startsBlank (startsBlank_cons hblank)] at h
        cases h
      rw [scanFrom, if_neg hblank]
      split
      · rename_i hnone
        rw [hnone] at h
        cases h
      · rename_i taken tail hsome
        rw [hsome] at h
        cases h
        rfl

/-- Induction along a scan: a blank is dropped, a token is taken, or the scan is stuck. -/
theorem scan_induction {motive : List Char → Prop} (nil : motive [])
    (blank : ∀ c rest, isSpacing c = true → motive rest → motive (c :: rest))
    (stuck : ∀ c rest, isSpacing c = false → Token.next? (c :: rest) = none → motive (c :: rest))
    (token : ∀ text token rest, Token.next? text = some (token, rest) → motive rest → motive text)
    (text : List Char) : motive text := by
  suffices ∀ position : Position, motive text from this .origin
  intro position
  fun_induction scanFrom position text with
  | case1 => exact nil
  | case2 position c rest hblank ih => exact blank c rest hblank ih
  | case3 position c rest hblank hnone => exact stuck c rest (by simpa using hblank) hnone
  | case4 position c rest hblank taken tail hsome stop later ih => exact token _ taken tail hsome ih

/-- What follows a text from a blank on is scanned where the text ends. -/
theorem scanFrom_append (h : StartsBlank suffix) (text : List Char) (position : Position) :
    scanFrom position (text ++ suffix) =
      (scanFrom position text).andThen (scanFrom (position.advance text) suffix) := by
  induction text using scan_induction generalizing position with
  | nil =>
      rw [scanFrom_nil]
      rfl
  | blank c rest hblank ih =>
      rw [List.cons_append, scanFrom_cons_of_isSpacing hblank, scanFrom_cons_of_isSpacing hblank,
        ih]
      rfl
  | stuck c rest hblank hnone =>
      have hnone' : Token.next? (c :: (rest ++ suffix)) = none := by
        rw [← List.cons_append, Token.next?_append h, hnone]
        rfl
      rw [List.cons_append, scanFrom_of_next?_eq_none hnone hblank,
        scanFrom_of_next?_eq_none hnone' hblank]
      rfl
  | token text token rest hsome ih =>
      have hlonger : Token.next? (text ++ suffix) = some (token, rest ++ suffix) := by
        rw [Token.next?_append h, hsome]
        rfl
      rw [scanFrom_of_next? hsome, scanFrom_of_next? hlonger, ih, Scan.andThen_assoc,
        ← Token.text_append_of_next? hsome, Position.advance_append]

theorem scanFrom_eq_empty (h : ∀ c ∈ text, isSpacing c = true) (position : Position) :
    scanFrom position text = ⟨[], none⟩ := by
  induction text generalizing position with
  | nil => exact scanFrom_nil position
  | cons c rest ih =>
      rw [List.forall_mem_cons] at h
      rw [scanFrom_cons_of_isSpacing h.1, ih h.2]

/-- Blanks at the end make no difference. -/
theorem scan_append_blanks (h : ∀ c ∈ suffix, isSpacing c = true) (text : List Char) :
    scan (text ++ suffix) = scan text := by
  have hstart : StartsBlank suffix := fun c hc => h c (List.mem_of_mem_head? hc)
  rw [scan, scanFrom_append hstart, scanFrom_eq_empty h, Scan.andThen_empty]
  rfl

/-- Where a scan starts makes no difference to its tokens. -/
theorem tokens?_scanFrom (text : List Char) (position other : Position) :
    (scanFrom position text).tokens? = (scanFrom other text).tokens? := by
  induction text using scan_induction generalizing position other with
  | nil => rw [scanFrom_nil, scanFrom_nil]
  | blank c rest hblank ih =>
      rw [scanFrom_cons_of_isSpacing hblank, scanFrom_cons_of_isSpacing hblank]
      exact ih _ _
  | stuck c rest hblank hnone =>
      rw [scanFrom_of_next?_eq_none hnone hblank, scanFrom_of_next?_eq_none hnone hblank]
      rfl
  | token text token rest hsome ih =>
      rw [scanFrom_of_next? hsome, scanFrom_of_next? hsome, Scan.tokens?_andThen,
        Scan.tokens?_andThen, ih _ (other.advance token.text)]
      rfl

/-! ### Tokens of a text -/

/-- The tokens of a text, unless it has a character that starts no token. -/
def tokens? (text : List Char) : Option (List Token) := (scan text).tokens?

theorem tokens?_nil : tokens? [] = some [] := by
  rw [tokens?, scan, scanFrom_nil]
  rfl

theorem tokens?_cons_of_isSpacing (h : isSpacing c = true) (rest : List Char) :
    tokens? (c :: rest) = tokens? rest := by
  rw [tokens?, scan, scanFrom_cons_of_isSpacing h]
  exact tokens?_scanFrom rest _ _

theorem tokens?_of_next?_eq_none (h : Token.next? (c :: rest) = none)
    (hblank : isSpacing c = false) : tokens? (c :: rest) = none := by
  rw [tokens?, scan, scanFrom_of_next?_eq_none h hblank]
  rfl

theorem tokens?_of_next? (h : Token.next? text = some (token, rest)) :
    tokens? text = (tokens? rest).map (token :: ·) := by
  rw [tokens?, scan, scanFrom_of_next? h, Scan.tokens?_andThen, tokens?_scanFrom rest _ .origin]
  rfl

theorem tokens?_append (h : StartsBlank suffix) (text : List Char) :
    tokens? (text ++ suffix) =
      (tokens? text).bind fun first => (tokens? suffix).map (first ++ ·) := by
  rw [tokens?, scan, scanFrom_append h, Scan.tokens?_andThen, tokens?_scanFrom suffix _ .origin]
  rfl

/-- The tokens of a text spell it without its blanks. -/
theorem filter_of_tokens? (h : tokens? text = some tokens) :
    text.filter (fun c => !isSpacing c) = tokens.flatMap Token.text := by
  induction text using scan_induction generalizing tokens with
  | nil =>
      cases tokens?_nil.symm.trans h
      rfl
  | blank c rest hblank ih =>
      rw [tokens?_cons_of_isSpacing hblank] at h
      rw [List.filter_cons_of_neg (by simp [hblank]), ih h]
  | stuck c rest hblank hnone => cases (tokens?_of_next?_eq_none hnone hblank).symm.trans h
  | token text token rest hsome ih =>
      rw [tokens?_of_next? hsome, Option.map_eq_some_iff] at h
      obtain ⟨more, hmore, rfl⟩ := h
      have htoken : token.text.filter (fun c => !isSpacing c) = token.text :=
        List.filter_eq_self.2 fun c hc => by simp [Token.isSpacing_of_mem_text hc]
      rw [← Token.text_append_of_next? hsome, List.filter_append, htoken, ih hmore,
        List.flatMap_cons]

/-- The tokens, each after a space. -/
def spaced (tokens : List Token) : List Char := tokens.flatMap fun token => ' ' :: token.text

theorem startsBlank_spaced (tokens : List Token) : StartsBlank (spaced tokens) := by
  cases tokens with
  | nil => exact startsBlank_nil
  | cons => exact startsBlank_cons rfl

theorem tokens?_text (h : token ≠ .symbols []) : tokens? token.text = some [token] := by
  rw [← List.append_nil token.text,
    tokens?_of_next? (Token.next?_text_append (Token.precedes_nil h)), tokens?_nil]
  rfl

/-- Tokens with a space before each are read back. -/
theorem tokens?_spaced (h : .symbols [] ∉ tokens) : tokens? (spaced tokens) = some tokens := by
  induction tokens with
  | nil => exact tokens?_nil
  | cons token tokens ih =>
      obtain ⟨htoken, htokens⟩ := List.ne_and_not_mem_of_not_mem_cons h
      have hcons : spaced (token :: tokens) = ' ' :: (token.text ++ spaced tokens) := rfl
      rw [hcons, tokens?_cons_of_isSpacing rfl, tokens?_append (startsBlank_spaced tokens),
        tokens?_text htoken.symm, ih htokens]
      rfl

theorem tokens?_blanks_append {blanks : List Char} (h : ∀ c ∈ blanks, isSpacing c = true)
    (text : List Char) : tokens? (blanks ++ text) = tokens? text := by
  induction blanks with
  | nil => rfl
  | cons c blanks ih =>
      rw [List.forall_mem_cons] at h
      rw [List.cons_append, tokens?_cons_of_isSpacing h.1, ih h.2]

/-- The text is `*` between blanks. -/
theorem tokens?_eq_star_iff :
    tokens? text = some [.star] ↔ text.filter (fun c => !isSpacing c) = ['*'] := by
  constructor
  · intro h
    rw [filter_of_tokens? h]
    rfl
  · intro h
    obtain ⟨before, after, rfl, hbefore, -, hafter⟩ := List.filter_eq_cons_iff.1 h
    rw [List.filter_eq_nil_iff] at hafter
    have hblank : tokens? (after ++ []) = some [] := by
      rw [tokens?_blanks_append (by simpa using hafter), tokens?_nil]
    have hstar : Token.next? ('*' :: after) = some (.star, after) := rfl
    rw [tokens?_blanks_append (by simpa using hbefore), tokens?_of_next? hstar,
      ← List.append_nil after, hblank]
    rfl

/-! ### Lines -/

namespace Line

theorem read_of_tokens? (h : tokens? text = some tokens) : read text = ofTokens tokens := by
  unfold tokens? at h
  unfold read
  cases hscan : scan text with
  | mk lexemes fault? =>
      rw [hscan] at h
      cases fault? with
      | none => exact congrArg ofTokens (Option.some.inj h)
      | some position => cases h

theorem exists_read_of_tokens?_eq_none (h : tokens? text = none) :
    ∃ column, read text = .error (.invalidCharacter column) := by
  unfold tokens? at h
  unfold read
  cases hscan : scan text with
  | mk lexemes fault? =>
      rw [hscan] at h
      cases fault? with
      | none => cases h
      | some position => exact ⟨_, rfl⟩

theorem read_dropReturn (text : List Char) : read (dropReturn '\r' text) = read text := by
  rcases dropReturn_cases '\r' text with heq | heq
  · rw [heq]
  · conv => rhs; rw [heq]
    rw [read, read, scan_append_blanks (by simp [isSpacing])]

theorem ofTokens_eq_ending_iff : ofTokens tokens = .ok .ending ↔ tokens = [.star] := by
  refine ⟨fun h => ?_, fun h => h ▸ rfl⟩
  unfold ofTokens at h
  split at h
  · cases h
  · rfl
  · split at h
    · obtain ⟨left, -, h⟩ := exists_ok_of_bind h
      obtain ⟨alternatives, -, h⟩ := exists_ok_of_bind h
      cases h
    · cases h

/-- The only token of the line is the mark that ends a grammar text. -/
def isEnding (text : List Char) : Bool := tokens? text = some [.star]

theorem isEnding_iff : isEnding text = true ↔ text.filter (fun c => !isSpacing c) = ['*'] := by
  rw [isEnding, decide_eq_true_iff, tokens?_eq_star_iff]

theorem read_eq_ending_iff : read text = .ok .ending ↔ isEnding text = true := by
  rw [isEnding, decide_eq_true_iff]
  cases htokens : tokens? text with
  | none =>
      obtain ⟨column, hread⟩ := exists_read_of_tokens?_eq_none htokens
      simp [hread]
  | some tokens => rw [read_of_tokens? htokens, ofTokens_eq_ending_iff, Option.some.injEq]

end Line

end ChomskyForm
