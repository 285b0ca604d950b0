import ChomskyForm.Proofs.Lexing
import ChomskyForm.Proofs.StandardInput
import Mathlib.Algebra.GroupWithZero.Nat

/-!
# Where tokens stand

A scan passes over a text from left to right, so a place is the sum of the widths and of the bytes
in front of it, and a lexeme is the part of the text between its two places. What is left over
between the lexemes is blank. The scan stops at the first character that belongs neither to a token
nor to a blank: as no token ends in a dash, a dash or a half arrow in the wrong place is always that
character itself.
-/

namespace ChomskyForm

variable {c : Char} {text before after rest : List Char} {position : Position} {token : Token}
  {tokens : List Token}

/-! ### Places -/

/-- The columns that a character takes up: a tab four, any other character one. -/
def columnWidth (c : Char) : Nat := if c = '\t' then 4 else 1

namespace Position

/-- The place behind a text. -/
def behind (text : List Char) : Position :=
  ⟨(text.map columnWidth).sum, (text.map Char.utf8Size).sum⟩

theorem advance_eq (position : Position) (text : List Char) :
    position.advance text =
      ⟨position.column + (behind text).column, position.byte + (behind text).byte⟩ := by
  induction text generalizing position with
  | nil => rfl
  | cons c text ih =>
      refine (ih (position.after c)).trans ?_
      simp [after, behind, columnWidth, Nat.add_assoc]

theorem advance_origin (text : List Char) : origin.advance text = behind text := by
  rw [advance_eq]
  simp [origin]

theorem byte_advance (position : Position) (text : List Char) :
    (position.advance text).byte = position.byte + (behind text).byte := by
  rw [advance_eq]

theorem byte_behind_append (before text : List Char) :
    (behind (before ++ text)).byte = (behind before).byte + (behind text).byte := by
  simp [behind]

theorem byte_behind (text : List Char) : (behind text).byte = (encode text).length := by
  rw [encode, List.length_flatMap]
  simp [behind]

theorem byte_behind_pos (h : text ≠ []) : 0 < (behind text).byte := by
  cases text with
  | nil => exact absurd rfl h
  | cons c text =>
      have hc := c.utf8Size_pos
      simp only [behind, List.map_cons, List.sum_cons]
      omega

end Position

/-- A character of two joined texts stands in the first one or in the second one. -/
theorem append_eq_append_cons {front : List Char} (h : front ++ rest = before ++ c :: after) :
    (∃ more, front = before ++ c :: more ∧ after = more ++ rest) ∨
      ∃ more, before = front ++ more ∧ rest = more ++ c :: after := by
  obtain ⟨more, rfl, hrest⟩ | ⟨more, rfl, hmore⟩ := List.append_eq_append_iff.1 h
  · exact .inr ⟨more, rfl, hrest⟩
  · obtain ⟨rfl, hafter⟩ | ⟨later, rfl, hafter⟩ := List.cons_eq_append_iff.1 hmore
    · exact .inr ⟨[], by simp, hafter⟩
    · exact .inl ⟨later, rfl, hafter⟩

/-! ### Lexemes in their text -/

/-- Nothing, or a text that ends in no letter or digit. -/
def EndsApart (text : List Char) : Prop := ∀ c ∈ text.getLast?, ¬IsLetterOrDigit c

theorem endsApart_nil : EndsApart [] := fun _ h => by cases h

theorem endsApart_singleton (h : ¬IsLetterOrDigit c) : EndsApart [c] := by
  intro last hlast
  cases hlast
  exact h

theorem EndsApart.append (hbefore : EndsApart before) (h : EndsApart text) :
    EndsApart (before ++ text) := by
  by_cases hnil : text = []
  · rw [hnil, List.append_nil]
    exact hbefore
  · rw [EndsApart, List.getLast?_append_of_ne_nil _ hnil]
    exact h

theorem EndsApart.cons_of_isSpacing (hc : isSpacing c = true) (h : EndsApart text) :
    EndsApart (c :: text) :=
  (endsApart_singleton (ofChar?_eq_none_iff.1 (ofChar?_of_isSpacing hc))).append h

/-- What stands between a token and a later run ends apart, together with the token. -/
theorem Token.Precedes.endsApart_append {run : List Symbol} (hrun : run ≠ [])
    (h : token.Precedes (before ++ run.map Symbol.char ++ after)) (hbefore : EndsApart before) :
    EndsApart (token.text ++ before) := by
  cases token with
  | symbols first =>
      cases before with
      | nil =>
          -- a run goes on as far as it can, so that no other one follows it directly
          obtain ⟨symbol, run, rfl⟩ := List.exists_cons_of_ne_nil hrun
          exact absurd (isLetterOrDigit_iff_isAlphanum.2 symbol.isAlphanum_char) (h.2 _ rfl)
      | cons c before =>
          rw [EndsApart, List.getLast?_append_of_ne_nil _ (List.cons_ne_nil c before)]
          exact hbefore
  | arrow =>
      have harrow : EndsApart ['-', '>'] := by
        intro last hlast
        cases hlast
        decide
      exact harrow.append hbefore
  | _ => exact (endsApart_singleton (by decide)).append hbefore

theorem Token.Precedes.text_ne_nil (h : token.Precedes rest) : token.text ≠ [] := by
  cases token with
  | symbols run => exact mt List.map_eq_nil_iff.1 h.1
  | _ => exact List.cons_ne_nil _ _

/-- The place lies within the lexeme. -/
def Lexeme.Covers (lexeme : Lexeme) (position : Position) : Prop :=
  lexeme.start.byte ≤ position.byte ∧ position.byte < lexeme.stop.byte

instance (lexeme : Lexeme) (position : Position) : Decidable (lexeme.Covers position) :=
  inferInstanceAs (Decidable (_ ∧ _))

/-- What a scan reports about a text that stands at the place: its lexemes are parts of the text, in
order, and what they leave over is blank or comes after the fault. -/
structure Locates (position : Position) (text : List Char) (scan : Scan) : Prop where
  standing : ∀ lexeme ∈ scan.lexemes, lexeme.token.text ≠ [] ∧
    ∃ before after, text = before ++ lexeme.token.text ++ after ∧
      lexeme.start = position.advance before ∧
      lexeme.stop = position.advance (before ++ lexeme.token.text) ∧
      ∀ run, lexeme.token = .symbols run → EndsApart before ∧ StartsApart after
  ordered : scan.lexemes.Pairwise fun first second => first.stop.byte ≤ second.start.byte
  covered : ∀ before c after, text = before ++ c :: after →
    isSpacing c = true ∨ (∃ lexeme ∈ scan.lexemes, lexeme.Covers (position.advance before)) ∨
      ∃ fault, scan.fault? = some fault ∧ fault.byte ≤ (position.advance before).byte

namespace Locates

theorem nil (position : Position) : Locates position [] ⟨[], none⟩ where
  standing := fun _ h => absurd h List.not_mem_nil
  ordered := .nil
  covered := fun before c after h => by simp at h

theorem stuck (position : Position) (text : List Char) :
    Locates position text ⟨[], some position⟩ where
  standing := fun _ h => absurd h List.not_mem_nil
  ordered := .nil
  covered := fun before _ _ _ => by
    refine .inr (.inr ⟨position, rfl, ?_⟩)
    rw [Position.byte_advance]
    exact Nat.le_add_right _ _

theorem blank {scan : Scan} (hc : isSpacing c = true) (h : Locates (position.after c) rest scan) :
    Locates position (c :: rest) scan where
  standing := fun lexeme hlexeme => by
    obtain ⟨hne, before, after, hrest, hstart, hstop, hapart⟩ := h.standing lexeme hlexeme
    refine ⟨hne, c :: before, after, congrArg _ hrest, hstart, hstop, fun run hrun => ?_⟩
    exact ⟨(hapart run hrun).1.cons_of_isSpacing hc, (hapart run hrun).2⟩
  ordered := h.ordered
  covered := fun before other after htext => by
    cases before with
    | nil =>
        cases htext
        exact .inl hc
    | cons first before =>
        obtain ⟨rfl, hrest⟩ := List.cons_eq_cons.1 htext
        exact h.covered before other after hrest

theorem token_append {scan : Scan} (htoken : token.Precedes rest)
    (h : Locates (position.advance token.text) rest scan) :
    Locates position (token.text ++ rest)
      (Scan.andThen ⟨[⟨token, position, position.advance token.text⟩], none⟩ scan) where
  standing := fun lexeme hlexeme => by
    obtain rfl | hlater := List.mem_cons.1 hlexeme
    · refine ⟨htoken.text_ne_nil, [], rest, rfl, rfl, rfl, ?_⟩
      rintro run rfl
      exact ⟨endsApart_nil, htoken.2⟩
    · obtain ⟨hne, before, after, rfl, hstart, hstop, hapart⟩ := h.standing lexeme hlater
      rw [← Position.advance_append, ← List.append_assoc] at hstop
      refine ⟨hne, token.text ++ before, after, by simp, ?_, hstop, fun run hrun => ?_⟩
      · rw [hstart, Position.advance_append]
      · rw [hrun] at htoken hne
        have hrunNe : run ≠ [] := mt (congrArg (List.map Symbol.char)) hne
        exact ⟨htoken.endsApart_append hrunNe (hapart run hrun).1, (hapart run hrun).2⟩
  ordered := by
    refine List.pairwise_cons.2 ⟨fun lexeme hlexeme => ?_, h.ordered⟩
    obtain ⟨-, before, -, -, hstart, -⟩ := h.standing lexeme hlexeme
    rw [hstart, Position.byte_advance _ before]
    exact Nat.le_add_right _ _
  covered := fun before c after htext => by
    obtain ⟨more, hmore, -⟩ | ⟨more, rfl, hrest⟩ := append_eq_append_cons htext
    · have hpos := Position.byte_behind_pos (List.cons_ne_nil c more)
      refine .inr (.inl ⟨_, List.mem_cons_self, ?_, ?_⟩)
      · rw [Position.byte_advance]
        exact Nat.le_add_right _ _
      · simp only [hmore, Position.advance_append, Position.byte_advance]
        omega
    · rw [Position.advance_append]
      obtain hblank | ⟨lexeme, hlexeme, hcovers⟩ | hfault := h.covered more c after hrest
      · exact .inl hblank
      · exact .inr (.inl ⟨lexeme, List.mem_cons_of_mem _ hlexeme, hcovers⟩)
      · exact .inr (.inr hfault)

end Locates

theorem locates_scanFrom (position : Position) (text : List Char) :
    Locates position text (scanFrom position text) := by
  induction text using scan_induction generalizing position with
  | nil =>
      rw [scanFrom_nil]
      exact .nil position
  | blank c rest hblank ih =>
      rw [scanFrom_cons_of_isSpacing hblank]
      exact (ih _).blank hblank
  | stuck c rest hblank hnone =>
      rw [scanFrom_of_next?_eq_none hnone hblank]
      exact .stuck position _
  | token text token rest hsome ih =>
      obtain ⟨rfl, htoken⟩ := Token.next?_eq_some_iff.1 hsome
      rw [scanFrom_of_next? hsome]
      exact (ih _).token_append htoken

/-! ### The first fault -/

/-- The character between the two parts of a text belongs to a run, to a blank, to a mark of its own
or to an arrow whose other half stands next to it. -/
def Belongs (before : List Char) (c : Char) (after : List Char) : Prop :=
  IsLetterOrDigit c ∨ isSpacing c = true ∨ c = '|' ∨ c = '$' ∨ c = '*' ∨
    (c = '-' ∧ after.head? = some '>') ∨ (c = '>' ∧ before.getLast? = some '-')

instance (before : List Char) (c : Char) (after : List Char) : Decidable (Belongs before c after) :=
  inferInstanceAs (Decidable (_ ∨ _))

theorem Belongs.append (h : Belongs before c after) (start finish : List Char) :
    Belongs (start ++ before) c (after ++ finish) := by
  obtain h | h | h | h | h | ⟨hc, hhead⟩ | ⟨hc, hlast⟩ := h
  · exact .inl h
  · exact .inr (.inl h)
  · exact .inr (.inr (.inl h))
  · exact .inr (.inr (.inr (.inl h)))
  · exact .inr (.inr (.inr (.inr (.inl h))))
  · obtain ⟨more, rfl⟩ := List.head?_eq_some_iff.1 hhead
    exact .inr (.inr (.inr (.inr (.inr (.inl ⟨hc, rfl⟩)))))
  · obtain ⟨more, rfl⟩ := List.getLast?_eq_some_iff.1 hlast
    refine .inr (.inr (.inr (.inr (.inr (.inr ⟨hc, ?_⟩)))))
    rw [← List.append_assoc, List.getLast?_concat]

theorem belongs_of_text_eq (h : token.text = before ++ c :: after) : Belongs before c after := by
  cases token with
  | symbols run =>
      have hmem : c ∈ run.map Symbol.char := by
        rw [← Token.text, h]
        exact List.mem_append_right _ List.mem_cons_self
      obtain ⟨symbol, -, rfl⟩ := List.mem_map.1 hmem
      exact .inl (isLetterOrDigit_iff_isAlphanum.2 symbol.isAlphanum_char)
  | arrow =>
      obtain ⟨rfl, hdash⟩ | ⟨more, rfl, hmore⟩ := List.cons_eq_append_iff.1 h
      · cases hdash
        decide
      · obtain ⟨rfl, harrow⟩ | ⟨-, hnil⟩ := List.singleton_eq_append_iff.1 hmore
        · cases harrow
          decide
        · cases hnil
  | _ =>
      obtain ⟨rfl, hmark⟩ | ⟨-, hnil⟩ := List.singleton_eq_append_iff.1 h
      · cases hmark
        decide
      · cases hnil

theorem Lexes.belongs (h : Lexes text tokens) (before : List Char) (c : Char) (after : List Char)
    (htext : text = before ++ c :: after) : Belongs before c after := by
  induction h generalizing before with
  | nil => simp at htext
  | @blank first rest tokens hfirst _ ih =>
      cases before with
      | nil =>
          cases htext
          exact .inr (.inl hfirst)
      | cons other before =>
          have hrest := ih before (List.cons_eq_cons.1 htext).2
          simpa using hrest.append [other] []
  | @token token rest tokens htoken _ ih =>
      obtain ⟨more, hmore, rfl⟩ | ⟨more, rfl, hrest⟩ := append_eq_append_cons htext
      · exact (belongs_of_text_eq hmore).append [] rest
      · simpa using (ih more hrest).append token.text []

/-- Half an arrow does not end a text that breaks into tokens. -/
theorem Lexes.getLast?_ne_dash (h : Lexes text tokens) : text.getLast? ≠ some '-' := by
  intro hlast
  obtain ⟨before, rfl⟩ := List.getLast?_eq_some_iff.1 hlast
  have hdash := h.belongs before '-' [] rfl
  have hfalse : ¬Belongs before '-' [] := by
    rintro (hc | hc | hc | hc | hc | ⟨-, hc⟩ | ⟨hc, -⟩)
    · exact absurd hc (by decide)
    all_goals cases hc
  exact hfalse hdash

/-- Where no token starts, the character belongs to none. -/
theorem Lexes.not_belongs (h : Lexes before tokens) (hc : isSpacing c = false)
    (hnone : Token.next? (c :: after) = none) : ¬Belongs before c after := by
  rintro (hletter | hblank | rfl | rfl | rfl | ⟨rfl, hhead⟩ | ⟨rfl, hlast⟩)
  · exact startsApart_of_next?_eq_none hnone c rfl hletter
  · rw [hc] at hblank
    cases hblank
  · cases hnone
  · cases hnone
  · cases hnone
  · rw [Token.next?_cons, if_pos rfl, if_pos hhead] at hnone
    cases hnone
  · exact h.getLast?_ne_dash hlast

/-- A scan fails at the first character that belongs to nothing, and nowhere else. -/
theorem scan_fault (text : List Char) :
    ((scan text).fault? = none ∧
        ∀ before c after, text = before ++ c :: after → Belongs before c after) ∨
      ∃ before c after, text = before ++ c :: after ∧
        (scan text).fault? = some (.behind before) ∧ ¬Belongs before c after ∧
        ∀ earlier other later, before = earlier ++ other :: later →
          Belongs earlier other (later ++ c :: after) := by
  cases htokens : tokens? text with
  | some tokens =>
      have hlexes := lexes_of_tokens? htokens
      exact .inl ⟨hlexes.fault?_scan, hlexes.belongs⟩
  | none =>
      obtain ⟨before, tokens, c, after, rfl, hbefore, hc, hnone⟩ :=
        exists_lexes_of_tokens?_eq_none htokens
      refine .inr ⟨before, c, after, rfl, ?_, hbefore.not_belongs hc hnone, ?_⟩
      · rw [hbefore.fault?_scan_append hc hnone, Position.advance_origin]
      · intro earlier other later hearlier
        exact (hbefore.belongs earlier other later hearlier).append [] (c :: after)

/-! ### What a scan reports -/

/-- The bytes between the places before and after a part of a text are those of the part. -/
theorem extract_encode (before text after : List Char) :
    (encode (before ++ text ++ after)).extract (Position.behind before).byte
      (Position.behind (before ++ text)).byte = encode text := by
  have hwhole : encode (before ++ text ++ after) =
      encode before ++ (encode text ++ encode after) := by simp [encode]
  have hstop : (Position.behind (before ++ text)).byte =
      (encode before).length + (encode text).length := by
    rw [Position.byte_behind_append, Position.byte_behind, Position.byte_behind]
  rw [Position.byte_behind, hstop, List.extract_eq_take_drop, hwhole, List.drop_left,
    Nat.add_sub_cancel_left, List.take_left]

/-- **Scanning.** Each lexeme is the part of the text between its two places, and a run has no
letter or digit next to it. The lexemes stand in order and apart, and what they leave over up to the
end of the scan is blank. A scan fails exactly where some character belongs to nothing, and it stops
at the first such character. -/
theorem scan_exactly (text : List Char) :
    (∀ lexeme ∈ (scan text).lexemes,
      lexeme.start.byte < lexeme.stop.byte ∧
      (encode text).extract lexeme.start.byte lexeme.stop.byte = encode lexeme.token.text ∧
      ∃ before after, text = before ++ lexeme.token.text ++ after ∧
        lexeme.start = .behind before ∧ lexeme.stop = .behind (before ++ lexeme.token.text) ∧
        ∀ run, lexeme.token = .symbols run → EndsApart before ∧ StartsApart after) ∧
    (scan text).lexemes.Pairwise (fun first second => first.stop.byte ≤ second.start.byte) ∧
    (∀ before c after, text = before ++ c :: after →
      (∀ lexeme ∈ (scan text).lexemes, ¬lexeme.Covers (.behind before)) →
      (∀ fault, (scan text).fault? = some fault → (Position.behind before).byte < fault.byte) →
      isSpacing c = true) ∧
    ((scan text).fault? = none ↔
      ∀ before c after, text = before ++ c :: after → Belongs before c after) ∧
    ∀ fault, (scan text).fault? = some fault →
      ∃ before c after, text = before ++ c :: after ∧ fault = .behind before ∧
        ¬Belongs before c after ∧
        ∀ earlier other later, before = earlier ++ other :: later →
          Belongs earlier other (later ++ c :: after) := by
  have hlocates := locates_scanFrom .origin text
  refine ⟨fun lexeme hlexeme => ?_, hlocates.ordered, fun before c after htext hbetween hend => ?_,
    ?_, fun fault hfault => ?_⟩
  · obtain ⟨hne, before, after, rfl, hstart, hstop, hapart⟩ := hlocates.standing lexeme hlexeme
    rw [Position.advance_origin] at hstart hstop
    refine ⟨?_, ?_, before, after, rfl, hstart, hstop, hapart⟩
    · have hpos := Position.byte_behind_pos hne
      rw [hstart, hstop, Position.byte_behind_append]
      omega
    · rw [hstart, hstop, extract_encode]
  · obtain hblank | ⟨lexeme, hlexeme, hcovers⟩ | ⟨fault, hfault, hle⟩ :=
      hlocates.covered before c after htext
    · exact hblank
    · rw [Position.advance_origin] at hcovers
      exact absurd hcovers (hbetween lexeme hlexeme)
    · rw [Position.advance_origin] at hle
      exact absurd (hend fault hfault) (Nat.not_lt.2 hle)
  · obtain ⟨hnone, hbelongs⟩ | ⟨before, c, after, rfl, hfault, hstray, -⟩ := scan_fault text
    · exact iff_of_true hnone hbelongs
    · rw [hfault]
      exact iff_of_false (by simp) fun hbelongs => hstray (hbelongs before c after rfl)
  · obtain ⟨hnone, -⟩ | ⟨before, c, after, htext, hplace, hstray, hfirst⟩ := scan_fault text
    · rw [hnone] at hfault
      cases hfault
    · rw [hplace] at hfault
      exact ⟨before, c, after, htext, (Option.some.inj hfault).symm, hstray, hfirst⟩

/-- A tab in front, a run between marks, and a character of two bytes that starts no token. -/
def accentedLine : List Char := "\tS -> aB0|é$".toList

theorem scan_exactly_accentedLine :
    ∃ lexeme ∈ (scan accentedLine).lexemes,
      lexeme = ⟨.symbols [⟨'a', rfl⟩, ⟨'B', rfl⟩, ⟨'0', rfl⟩], ⟨9, 6⟩, ⟨12, 9⟩⟩ ∧
      (encode accentedLine).extract 6 9 = encode "aB0".toList ∧
      (∀ lexeme ∈ (scan accentedLine).lexemes, ¬lexeme.Covers (.behind ['\t', 'S'])) ∧
      isSpacing ' ' = true ∧ (scan accentedLine).fault? = some ⟨13, 10⟩ ∧
      ∃ before c after, accentedLine = before ++ c :: after ∧ ⟨13, 10⟩ = Position.behind before ∧
        ¬Belongs before c after := by
  have hmem : ⟨.symbols [⟨'a', rfl⟩, ⟨'B', rfl⟩, ⟨'0', rfl⟩], ⟨9, 6⟩, ⟨12, 9⟩⟩ ∈
      (scan accentedLine).lexemes := by
    decide +kernel
  have hfault : (scan accentedLine).fault? = some ⟨13, 10⟩ := by decide +kernel
  have hbetween : ∀ lexeme ∈ (scan accentedLine).lexemes,
      ¬lexeme.Covers (.behind ['\t', 'S']) := by
    decide +kernel
  obtain ⟨hlexemes, -, hgaps, -, hfaults⟩ := scan_exactly accentedLine
  have hblank : isSpacing ' ' = true := by
    refine hgaps ['\t', 'S'] ' ' "-> aB0|é$".toList rfl hbetween fun fault hsome => ?_
    cases hfault.symm.trans hsome
    decide
  obtain ⟨before, c, after, htext, hplace, hstray, -⟩ := hfaults _ hfault
  exact ⟨_, hmem, rfl, (hlexemes _ hmem).2.1, hbetween, hblank, hfault, before, c, after, htext,
    hplace, hstray⟩

end ChomskyForm
