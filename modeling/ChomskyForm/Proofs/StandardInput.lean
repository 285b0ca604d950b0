import ChomskyForm.Command.Input
import ChomskyForm.Proofs.Reading

/-!
# Standard input

Standard input stops at a line that is `*` between white space, a file at one that is `*` between
blanks. Blanks are white space, so standard input never reads past the ending mark of a file; other
white space around the mark makes it stop at a line that cannot be read in a file.
-/

namespace ChomskyForm

variable {c : Char} {text line : List Char} {bytes : List UInt8}

/-! ### Encoded lines -/

/-- The bytes of a text. -/
def encode (text : List Char) : List UInt8 := text.flatMap String.utf8EncodeChar

theorem decode?_eq_some_iff : decode? bytes = some text ↔ bytes = encode text := by
  have hencode : ∀ string : String, string.toByteArray.data.toList = encode string.toList := by
    intro string
    rw [← String.utf8Encode_toList, List.utf8Encode, List.data_toByteArray, List.toList_toArray]
    rfl
  constructor
  · intro h
    obtain ⟨string, hstring, rfl⟩ := Option.map_eq_some_iff.1 h
    unfold String.fromUTF8? at hstring
    split at hstring
    · cases hstring
      rw [← hencode]
      rfl
    · cases hstring
  · rintro rfl
    have hbytes : (⟨(encode text).toArray⟩ : ByteArray) = (String.ofList text).toByteArray := by
      refine ByteArray.ext ?_
      rw [String.toByteArray_ofList, List.utf8Encode, List.data_toByteArray]
      rfl
    rw [decode?, hbytes, String.fromUTF8?, dif_pos (String.ofList text).isValidUTF8]
    exact congrArg some String.toList_ofList

/-- A byte below 128 is the code of one character and occurs in no other code. -/
theorem toNat_of_mem_utf8EncodeChar {unit : UInt8} (h : unit ∈ String.utf8EncodeChar c)
    (hascii : unit.toNat < 128) : c.toNat = unit.toNat := by
  have hhigh : ∀ value width base : Nat, 0 < width ∧ 128 ≤ base ∧ width + base ≤ 256 →
      unit ≠ UInt8.ofNat (value % width + base) := by
    rintro value width base ⟨hpos, hbase, hfits⟩ rfl
    have hlt := Nat.mod_lt value hpos
    rw [UInt8.toNat_ofNat', Nat.mod_eq_of_lt (by omega)] at hascii
    omega
  unfold String.utf8EncodeChar at h
  simp only at h
  split_ifs at h
  · rw [List.mem_singleton.1 h, UInt8.toNat_ofNat']
    change c.val.toNat = _
    omega
  · obtain h | h := List.mem_pair.1 h <;> exact absurd h (hhigh _ _ _ (by decide))
  · simp only [List.mem_cons, List.not_mem_nil, or_false] at h
    obtain h | h | h := h <;> exact absurd h (hhigh _ _ _ (by decide))
  · simp only [List.mem_cons, List.not_mem_nil, or_false] at h
    obtain h | h | h | h := h <;> exact absurd h (hhigh _ _ _ (by decide))

theorem keepsEndings_utf8EncodeChar : KeepsEndings String.utf8EncodeChar '\n' '\r' 10 13 where
  encode_ne_nil := fun _ => String.utf8EncodeChar_ne_nil
  encode_newline := rfl
  encode_return := rfl
  newline_notMem := fun _ hne hmem =>
    hne (Char.toNat_inj.1 (toNat_of_mem_utf8EncodeChar hmem (by decide)))
  return_notMem := fun _ hne hmem =>
    hne (Char.toNat_inj.1 (toNat_of_mem_utf8EncodeChar hmem (by decide)))

/-! ### The end of the input -/

theorem filter_dropWhile_isBlank (text : List Char) :
    (text.dropWhile isBlank).filter (fun c => !isBlank c) = text.filter fun c => !isBlank c := by
  have hnil : (text.takeWhile isBlank).filter (fun c => !isBlank c) = [] :=
    List.filter_eq_nil_iff.2 fun c hc => by simp [List.mem_takeWhile_imp hc]
  conv => rhs; rw [← List.takeWhile_append_dropWhile (p := isBlank) (l := text)]
  rw [List.filter_append, hnil, List.nil_append]

/-- Trimming takes nothing but white space away. -/
theorem filter_trim (text : List Char) :
    (trim text).filter (fun c => !isBlank c) = text.filter fun c => !isBlank c := by
  rw [trim, List.filter_reverse, filter_dropWhile_isBlank, List.filter_reverse,
    List.reverse_reverse, filter_dropWhile_isBlank]

theorem isEndLine_iff : isEndLine line = true ↔ line.filter (fun c => !isBlank c) = ['*'] := by
  rw [isEndLine, decide_eq_true_iff]
  constructor
  · intro h
    rw [← filter_trim, h]
    rfl
  · intro h
    obtain ⟨before, after, rfl, hbefore, hstar, hafter⟩ := List.filter_eq_cons_iff.1 h
    rw [List.filter_eq_nil_iff] at hafter
    have hblank : ∀ c ∈ after.reverse, isBlank c = true := by simpa using hafter
    rw [trim, List.dropWhile_append_of_pos (by simpa using hbefore),
      List.dropWhile_cons_of_neg (by simpa using hstar), List.reverse_cons,
      List.dropWhile_append_of_pos hblank]
    rfl

/-- What ends a file ends standard input. -/
theorem isEndLine_of_isEnding (h : Line.isEnding line = true) : isEndLine line = true := by
  rw [Line.isEnding_iff] at h
  rw [isEndLine_iff]
  have hkept : (line.filter fun c => !isSpacing c).filter (fun c => !isBlank c) = ['*'] := by
    rw [h]
    rfl
  rw [List.filter_filter] at hkept
  rw [← hkept]
  refine List.filter_congr fun c _ => ?_
  cases hspacing : isSpacing c with
  | true =>
      rw [isBlank_of_isSpacing hspacing]
      rfl
  | false => rw [Bool.not_false, Bool.and_true]

/-- The white space around the ending mark is what a file allows there. -/
def PlainEnd (line : List Char) : Prop := ∀ c ∈ line, c = '*' ∨ isSpacing c = true

theorem PlainEnd.isEnding (hplain : PlainEnd line) (h : isEndLine line = true) :
    Line.isEnding line = true := by
  rw [isEndLine_iff] at h
  rw [Line.isEnding_iff, ← h]
  refine List.filter_congr fun c hc => ?_
  obtain rfl | hspacing := hplain c hc
  · rfl
  · rw [hspacing, isBlank_of_isSpacing hspacing]

/-- Other white space around the ending mark starts no token. -/
theorem exists_read_of_not_plainEnd (hplain : ¬PlainEnd line) (h : isEndLine line = true) :
    ∃ column, Line.read line = .error (.invalidCharacter column) := by
  cases htokens : tokens? line with
  | none => exact Line.exists_read_of_tokens?_eq_none htokens
  | some tokens =>
      refine absurd (fun c hc => ?_) hplain
      by_contra hother
      obtain ⟨hstar, hspacing⟩ := not_or.1 hother
      -- a scan drops none of it, and no token contains white space
      have hkept : c ∈ line.filter fun c => !isSpacing c :=
        List.mem_filter.2 ⟨hc, by simpa using hspacing⟩
      rw [filter_of_tokens? htokens, List.mem_flatMap] at hkept
      obtain ⟨token, -, hmem⟩ := hkept
      have hblank : c ∈ line.filter fun c => !isBlank c :=
        List.mem_filter.2 ⟨hc, by simp [Token.isBlank_of_mem_text hmem]⟩
      rw [isEndLine_iff.1 h] at hblank
      exact hstar (List.mem_singleton.1 hblank)

/-! ### What is kept -/

/-- The lines that standard input keeps. -/
def keptLines (text : List Char) : List (List Char) :=
  (lines text).takeWhile fun line => !isEndLine line

theorem decodeLines?_map_encode (texts : List (List Char)) :
    decodeLines? (texts.map encode) =
      some (unlines '\n' (texts.takeWhile fun line => !isEndLine line)) := by
  induction texts with
  | nil => rfl
  | cons line texts ih =>
      rw [List.map_cons, decodeLines?, decode?_eq_some_iff.2 rfl, ih]
      by_cases hend : isEndLine line = true
      · rw [List.takeWhile_cons_of_neg (by simp [hend])]
        simp [hend, unlines]
      · rw [List.takeWhile_cons_of_pos (by simpa using hend)]
        simp [hend, unlines]

theorem decodeInput?_encode (text : List Char) :
    decodeInput? (encode text) = some (unlines '\n' (keptLines text)) := by
  have hlines : breakLines 10 13 (encode text) = (lines text).map encode :=
    keepsEndings_utf8EncodeChar.breakLines_flatMap text
  rw [decodeInput?, hlines, decodeLines?_map_encode]
  rfl

theorem ofText_kept (text : List Char) :
    Reading.ofText (unlines '\n' (keptLines text)) = Reading.ofLines 1 {} (keptLines text) := by
  refine Reading.ofText_unlines fun line hline => ?_
  exact newline_notMem_of_mem_breakLines text line ((List.takeWhile_prefix _).subset hline)

/-- What is kept reads like the whole text exactly where the end of the input is plain. -/
theorem ofLines_keptLines_iff (text : List Char) :
    Reading.ofLines 1 {} (keptLines text) = Reading.ofText text ↔
      ∀ line, (lines text).find? isEndLine = some line → PlainEnd line := by
  cases hfind : (lines text).find? isEndLine with
  | none =>
      have hkept : keptLines text = lines text :=
        List.takeWhile_eq_self_iff.2 (by simpa using List.find?_eq_none.1 hfind)
      rw [hkept]
      exact iff_of_true rfl fun _ h => by cases h
  | some line =>
      obtain ⟨hend, before, after, hlines, hbefore⟩ := List.find?_eq_some_iff_append.1 hfind
      have hkept : keptLines text = before := by
        rw [keptLines, hlines, List.takeWhile_append_of_pos hbefore,
          List.takeWhile_cons_of_neg (by simp [hend]), List.append_nil]
      have hending : ∀ other ∈ before, Line.isEnding other = false := fun other hother => by
        by_contra hending
        have hstop := isEndLine_of_isEnding (eq_true_of_ne_false hending)
        simpa [hstop] using hbefore other hother
      rw [hkept, Reading.ofText, hlines, Reading.ofLines_append hending]
      dsimp only
      by_cases hplain : PlainEnd line
      · rw [Reading.ofLines_cons_of_isEnding (hplain.isEnding hend)]
        refine iff_of_true ?_ fun other hother => Option.some.inj hother ▸ hplain
        rw [List.append_nil]
      · obtain ⟨column, hread⟩ := exists_read_of_not_plainEnd hplain hend
        rw [Reading.ofLines_cons_of_error hread]
        -- the file has one more error, that of the line itself
        refine iff_of_false (fun heq => ?_) fun h => hplain (h line rfl)
        have herrors := congrArg Reading.errors heq
        simp at herrors

/-- **Standard input.** What standard input keeps of a text is read line by line, as in a file, up
to the line that ends it. The file has the same grammar and the same errors exactly where nothing
but a space, a tab or a carriage return stands beside the mark on that line. -/
theorem standard_input_agrees_exactly (h : decode? bytes = some text) :
    ∃ kept, decodeInput? bytes = some kept ∧
      Reading.ofText kept =
        Reading.ofLines 1 {} ((lines text).takeWhile fun line => !isEndLine line) ∧
      (Reading.ofText kept = Reading.ofText text ↔
        ∀ line, (lines text).find? isEndLine = some line →
          ∀ c ∈ line, c = '*' ∨ isSpacing c = true) := by
  obtain rfl := decode?_eq_some_iff.1 h
  refine ⟨unlines '\n' (keptLines text), decodeInput?_encode text, ofText_kept text, ?_⟩
  rw [ofText_kept]
  exact ofLines_keptLines_iff text

/-- A text whose end is marked between a tab and a space. -/
def blankEnd : List Char := "S -> a\r\n\t* \r\nS -> b".toList

theorem standard_input_agrees_exactly_blankEnd :
    decode? (encode blankEnd) = some blankEnd ∧
      ∃ kept, decodeInput? (encode blankEnd) = some kept ∧
        Reading.ofText kept = Reading.ofText blankEnd := by
  have hdecode : decode? (encode blankEnd) = some blankEnd := decode?_eq_some_iff.2 rfl
  obtain ⟨kept, hkept, -, hagree⟩ := standard_input_agrees_exactly hdecode
  refine ⟨hdecode, kept, hkept, hagree.2 fun line hline => ?_⟩
  have hfind : (lines blankEnd).find? isEndLine = some ['\t', '*', ' '] := by
    decide +kernel
  rw [hfind, Option.some.injEq] at hline
  rw [← hline]
  simp [isSpacing]

/-- A text with a no-break space before the mark. -/
def paddedEnd : List Char := "\u00a0*\nS -> a\n".toList

theorem exists_input_read_apart :
    decode? (encode paddedEnd) = some paddedEnd ∧ decodeInput? (encode paddedEnd) = some [] ∧
      Reading.ofText [] = ⟨{}, []⟩ ∧
      (Reading.ofText paddedEnd).errors = [⟨1, .invalidCharacter 1⟩] ∧
      (Reading.ofText paddedEnd).grammar.keys.map Symbol.char = ['S'] ∧
      Reading.ofText [] ≠ Reading.ofText paddedEnd := by
  refine ⟨decode?_eq_some_iff.2 rfl, decodeInput?_encode paddedEnd, rfl, ?_⟩
  decide +kernel

end ChomskyForm
