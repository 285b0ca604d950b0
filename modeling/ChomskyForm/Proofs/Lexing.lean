import ChomskyForm.Grammar.Definition
import ChomskyForm.Proofs.Scan

/-!
# The tokens of a text

A text breaks into tokens where blanks are dropped and each token stands as it is written, a run of
symbols up to the first character that is no letter or digit. A scan finds these tokens and no
others. Where it fails, the text before the fault breaks into tokens, and no token starts at the
fault. A run is written with letters and digits only, and each of these is a symbol.
-/

namespace ChomskyForm

variable {c : Char} {text before after rest : List Char} {token : Token} {tokens : List Token}

theorem exists_read_of_isLetterOrDigit (h : IsLetterOrDigit c) :
    ∃ symbol, Symbol.read c = .ok symbol ∧ symbol.char = c := by
  refine ⟨⟨c, isLetterOrDigit_iff_isAlphanum.1 h⟩, ?_, rfl⟩
  rw [Symbol.read, Symbol.ofChar?, dif_pos]

/-- No character of a run is refused as a symbol. -/
theorem exists_mapM_read (letters : List Char) (h : ∀ c ∈ letters, IsLetterOrDigit c) :
    ∃ run, letters.mapM Symbol.read = .ok run ∧ (Token.symbols run).text = letters := by
  induction letters with
  | nil => exact ⟨[], rfl, rfl⟩
  | cons c letters ih =>
      rw [List.forall_mem_cons] at h
      obtain ⟨symbol, hread, hchar⟩ := exists_read_of_isLetterOrDigit h.1
      obtain ⟨run, hrun, htext⟩ := ih h.2
      refine ⟨symbol :: run, ?_, congrArg₂ List.cons hchar htext⟩
      rw [List.mapM_cons, hread, hrun]
      rfl

/-! ### The token at the head of a text -/

theorem startsApart_append (hrest : StartsApart rest) (hafter : StartsApart after) :
    StartsApart (rest ++ after) := by
  cases rest with
  | nil => exact hafter
  | cons => exact hrest

theorem startsApart_of_append (h : StartsApart (before ++ after)) : StartsApart before := by
  cases before with
  | nil => exact startsApart_nil
  | cons => exact h

theorem startsApart_takeSymbols (text : List Char) : StartsApart (takeSymbols text).2 := by
  induction text with
  | nil => exact startsApart_nil
  | cons c rest ih =>
      rw [takeSymbols]
      cases hsymbol : Symbol.ofChar? c with
      | some symbol => exact ih
      | none =>
          intro first hfirst
          cases hfirst
          exact ofChar?_eq_none_iff.1 hsymbol

namespace Token

theorem Precedes.append (h : token.Precedes rest) (hafter : StartsApart after) :
    token.Precedes (rest ++ after) := by
  cases token with
  | symbols run => exact ⟨h.1, startsApart_append h.2 hafter⟩
  | _ => trivial

theorem Precedes.of_append (h : token.Precedes (before ++ after)) : token.Precedes before := by
  cases token with
  | symbols run => exact ⟨h.1, startsApart_of_append h.2⟩
  | _ => trivial

theorem precedes_of_next? (h : next? text = some (token, rest)) : token.Precedes rest := by
  cases token with
  | symbols run =>
      refine ⟨?_, ?_⟩
      · rintro rfl
        exact text_ne_nil_of_next? h rfl
      · cases text with
        | nil => cases h
        | cons c text =>
            rw [next?_cons] at h
            split_ifs at h
            all_goals try cases h
            obtain ⟨symbol, -, heq⟩ := Option.map_eq_some_iff.1 h
            cases heq
            exact startsApart_takeSymbols text
  | _ => trivial

/-- Reading a token takes its text off the head, as much of a run as there is. -/
theorem next?_eq_some_iff :
    next? text = some (token, rest) ↔ token.text ++ rest = text ∧ token.Precedes rest := by
  constructor
  · intro h
    exact ⟨text_append_of_next? h, precedes_of_next? h⟩
  · rintro ⟨rfl, h⟩
    exact next?_text_append h

theorem exists_next?_text_append (h : token ≠ symbols []) (rest : List Char) :
    ∃ taken, next? (token.text ++ rest) = some taken := by
  cases token with
  | symbols run =>
      cases run with
      | nil => exact absurd rfl h
      | cons symbol run => exact ⟨_, next?_char_cons symbol _⟩
  | _ => exact ⟨_, rfl⟩

/-- Nothing is read where no token is written. -/
theorem next?_eq_none_iff :
    next? text = none ↔ ∀ token : Token, token.text <+: text → token = symbols [] := by
  constructor
  · rintro h token ⟨rest, rfl⟩
    by_contra hne
    obtain ⟨taken, htaken⟩ := exists_next?_text_append hne rest
    rw [h] at htaken
    cases htaken
  · intro h
    cases hnext : next? text with
    | none => rfl
    | some taken =>
        have hempty := h taken.1 ⟨taken.2, text_append_of_next? hnext⟩
        exact absurd (congrArg Token.text hempty) (text_ne_nil_of_next? hnext)

end Token

/-! ### Texts and tokens -/

/-- A text and the tokens it breaks into: blanks are dropped, and a run goes on as far as it can. -/
inductive Lexes : List Char → List Token → Prop
  | nil : Lexes [] []
  | blank {c : Char} {rest : List Char} {tokens : List Token} (hc : isSpacing c = true)
      (h : Lexes rest tokens) : Lexes (c :: rest) tokens
  | token {token : Token} {rest : List Char} {tokens : List Token} (htoken : token.Precedes rest)
      (h : Lexes rest tokens) : Lexes (token.text ++ rest) (token :: tokens)

theorem Lexes.tokens?_eq (h : Lexes text tokens) : tokens? text = some tokens := by
  induction h with
  | nil => exact tokens?_nil
  | blank hc _ ih => rw [tokens?_cons_of_isSpacing hc, ih]
  | token htoken _ ih =>
      rw [tokens?_of_next? (Token.next?_text_append htoken), ih]
      rfl

theorem lexes_of_tokens? (h : tokens? text = some tokens) : Lexes text tokens := by
  induction text using scan_induction generalizing tokens with
  | nil =>
      cases tokens?_nil.symm.trans h
      exact .nil
  | blank c rest hblank ih =>
      rw [tokens?_cons_of_isSpacing hblank] at h
      exact .blank hblank (ih h)
  | stuck c rest hblank hnone => cases (tokens?_of_next?_eq_none hnone hblank).symm.trans h
  | token text token rest hsome ih =>
      rw [tokens?_of_next? hsome, Option.map_eq_some_iff] at h
      obtain ⟨more, hmore, rfl⟩ := h
      obtain ⟨rfl, htoken⟩ := Token.next?_eq_some_iff.1 hsome
      exact .token htoken (ih hmore)

theorem tokens?_eq_some_iff : tokens? text = some tokens ↔ Lexes text tokens :=
  ⟨lexes_of_tokens?, Lexes.tokens?_eq⟩

theorem startsApart_of_next?_eq_none (h : Token.next? text = none) : StartsApart text := by
  intro c hc hletter
  obtain ⟨symbol, -, rfl⟩ := exists_read_of_isLetterOrDigit hletter
  obtain ⟨rest, rfl⟩ := List.head?_eq_some_iff.1 hc
  cases (Token.next?_char_cons symbol rest).symm.trans h

/-- What follows a text that breaks into tokens is scanned where the text ends. -/
theorem Lexes.scanFrom_append (h : Lexes before tokens) (hafter : StartsApart after)
    (position : Position) :
    scanFrom position (before ++ after) =
      (scanFrom position before).andThen (scanFrom (position.advance before) after) := by
  induction h generalizing position with
  | nil =>
      rw [scanFrom_nil]
      rfl
  | blank hc _ ih =>
      rw [List.cons_append, scanFrom_cons_of_isSpacing hc, scanFrom_cons_of_isSpacing hc, ih]
      rfl
  | token htoken _ ih =>
      rw [List.append_assoc, scanFrom_of_next? (Token.next?_text_append (htoken.append hafter)),
        scanFrom_of_next? (Token.next?_text_append htoken), ih, Scan.andThen_assoc,
        Position.advance_append]

theorem Lexes.fault?_scan (h : Lexes text tokens) : (scan text).fault? = none := by
  have htokens := h.tokens?_eq
  rw [tokens?, Scan.tokens?] at htokens
  split at htokens
  · cases htokens
  · assumption

/-- A scan stops where no token starts. -/
theorem Lexes.fault?_scan_append (h : Lexes before tokens) (hc : isSpacing c = false)
    (hnone : Token.next? (c :: after) = none) :
    (scan (before ++ c :: after)).fault? = some (Position.origin.advance before) := by
  have hbefore : (scan before).fault? = none := h.fault?_scan
  have hstop : scanFrom (Position.origin.advance before) (c :: after) =
      ⟨[], some (Position.origin.advance before)⟩ := scanFrom_of_next?_eq_none hnone hc
  have hscan := h.scanFrom_append (startsApart_of_next?_eq_none hnone) .origin
  calc (scan (before ++ c :: after)).fault?
    _ = ((scan before).andThen ⟨[], some (Position.origin.advance before)⟩).fault? := by
        rw [scan, hscan, hstop]
        rfl
    _ = some (Position.origin.advance before) := by rw [Scan.andThen, hbefore]

/-- A text without tokens breaks into tokens up to a place where none starts. -/
theorem exists_lexes_of_tokens?_eq_none (h : tokens? text = none) :
    ∃ before tokens c after, text = before ++ c :: after ∧ Lexes before tokens ∧
      isSpacing c = false ∧ Token.next? (c :: after) = none := by
  induction text using scan_induction with
  | nil => cases tokens?_nil.symm.trans h
  | blank c rest hblank ih =>
      rw [tokens?_cons_of_isSpacing hblank] at h
      obtain ⟨before, tokens, fault, after, rfl, hbefore, hfault⟩ := ih h
      exact ⟨c :: before, tokens, fault, after, rfl, .blank hblank hbefore, hfault⟩
  | stuck c rest hblank hnone => exact ⟨[], [], c, rest, rfl, .nil, hblank, hnone⟩
  | token text token rest hsome ih =>
      rw [tokens?_of_next? hsome, Option.map_eq_none_iff] at h
      obtain ⟨before, tokens, fault, after, rfl, hbefore, hfault⟩ := ih h
      obtain ⟨rfl, htoken⟩ := Token.next?_eq_some_iff.1 hsome
      exact ⟨token.text ++ before, token :: tokens, fault, after, (List.append_assoc ..).symm,
        .token htoken.of_append hbefore, hfault⟩

end ChomskyForm
