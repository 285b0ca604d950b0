import ChomskyForm.Text.Lines
import Mathlib.Data.List.Basic

/-!
# Lines and their endings

A sequence is nothing, or a last line without an ending, or a line with its ending before another
sequence. Induction along these cases says what breaking into lines does: a line is returned as it
stands before its newline, up to one carriage return. No line has a newline, and an encoding
that keeps newlines and carriage returns apart from everything else keeps the lines.
-/

namespace ChomskyForm

variable {α β : Type} [DecidableEq α] [DecidableEq β] {newline carriageReturn : α}
  {line text : List α}

/-- The lines, each followed by a newline. -/
def unlines (newline : α) (lines : List (List α)) : List α := lines.flatMap (· ++ [newline])

/-- A line without the carriage return at its end. -/
def dropReturn (carriageReturn : α) (line : List α) : List α :=
  if line.getLast? = some carriageReturn then line.dropLast else line

theorem dropReturn_nil : dropReturn carriageReturn [] = [] := rfl

theorem dropReturn_concat (line : List α) (c : α) :
    dropReturn carriageReturn (line ++ [c]) = if c = carriageReturn then line else line ++ [c] := by
  simp [dropReturn]

theorem dropReturn_cons (c : α) (h : line ≠ []) :
    dropReturn carriageReturn (c :: line) = c :: dropReturn carriageReturn line := by
  obtain ⟨start, last, rfl⟩ := List.eq_nil_or_concat' line |>.resolve_left h
  rw [← List.cons_append, dropReturn_concat, dropReturn_concat]
  split <;> rfl

/-- A line either keeps all it has or loses a carriage return at its end. -/
theorem dropReturn_cases (carriageReturn : α) (line : List α) :
    dropReturn carriageReturn line = line ∨
      line = dropReturn carriageReturn line ++ [carriageReturn] := by
  rcases List.eq_nil_or_concat' line with rfl | ⟨start, last, rfl⟩
  · exact .inl rfl
  · rw [dropReturn_concat]
    split
    · rename_i hlast
      exact .inr (by rw [hlast])
    · exact .inl rfl

/-- Induction along the lines of a sequence. -/
theorem lines_induction {motive : List α → Prop} (newline : α) (nil : motive [])
    (last : ∀ line, line ≠ [] → newline ∉ line → motive line)
    (cons : ∀ line rest, newline ∉ line → motive rest → motive (line ++ newline :: rest))
    (text : List α) : motive text := by
  by_cases hmem : newline ∈ text
  · obtain ⟨line, rest, heq, habsent⟩ := List.eq_append_cons_of_mem hmem
    have hshorter : rest.length < text.length := by
      rw [heq, List.length_append, List.length_cons]
      omega
    exact heq ▸ cons line rest habsent (lines_induction newline nil last cons rest)
  · by_cases hnil : text = []
    · exact hnil ▸ nil
    · exact last text hnil hmem
termination_by text.length

theorem breakLines_of_notMem (hne : line ≠ []) (h : newline ∉ line) :
    breakLines newline carriageReturn line = [line] := by
  induction line with
  | nil => exact absurd rfl hne
  | cons c line ih =>
      obtain ⟨hc, hline⟩ := List.ne_and_not_mem_of_not_mem_cons h
      have hhead : ¬(c = carriageReturn ∧ line.head? = some newline) := fun hend =>
        hline (List.mem_of_mem_head? hend.2)
      rw [breakLines, if_neg hc.symm, if_neg hhead]
      by_cases hnil : line = []
      · rw [hnil]
        rfl
      · rw [ih hnil hline]

theorem breakLines_append_newline (h : newline ∉ line) (rest : List α) :
    breakLines newline carriageReturn (line ++ newline :: rest) =
      dropReturn carriageReturn line :: breakLines newline carriageReturn rest := by
  induction line with
  | nil => exact if_pos rfl
  | cons c line ih =>
      obtain ⟨hc, hline⟩ := List.ne_and_not_mem_of_not_mem_cons h
      rw [List.cons_append, breakLines, if_neg hc.symm, ih hline]
      by_cases hnil : line = []
      · subst hnil
        rw [← List.nil_append [c], dropReturn_concat]
        by_cases hreturn : c = carriageReturn <;> simp [hreturn, dropReturn_nil]
      · have hhead : ¬(c = carriageReturn ∧ (line ++ newline :: rest).head? = some newline) := by
          rintro ⟨-, hhead⟩
          rw [List.head?_append_of_ne_nil _ hnil] at hhead
          exact hline (List.mem_of_mem_head? hhead)
        rw [if_neg hhead, dropReturn_cons c hnil]

theorem breakLines_unlines {lines : List (List α)} (h : ∀ line ∈ lines, newline ∉ line) :
    breakLines newline carriageReturn (unlines newline lines) =
      lines.map (dropReturn carriageReturn) := by
  induction lines with
  | nil => rfl
  | cons line lines ih =>
      rw [List.forall_mem_cons] at h
      have hcons : unlines newline (line :: lines) = line ++ newline :: unlines newline lines := by
        simp [unlines]
      rw [hcons, breakLines_append_newline h.1, ih h.2, List.map_cons]

theorem newline_notMem_dropReturn (h : newline ∉ line) :
    newline ∉ dropReturn carriageReturn line := by
  rcases dropReturn_cases carriageReturn line with heq | heq
  · rwa [heq]
  · rw [heq] at h
    exact fun hmem => h (List.mem_append_left _ hmem)

theorem newline_notMem_of_mem_breakLines (text : List α) :
    ∀ line ∈ breakLines newline carriageReturn text, newline ∉ line := by
  induction text using lines_induction newline with
  | nil => exact fun _ hline => absurd hline List.not_mem_nil
  | last line hne habsent =>
      rw [breakLines_of_notMem hne habsent]
      exact List.forall_mem_singleton.2 habsent
  | cons line rest habsent ih =>
      rw [breakLines_append_newline habsent, List.forall_mem_cons]
      exact ⟨newline_notMem_dropReturn habsent, ih⟩

/-! ### Encoded lines -/

/-- Newline and carriage return have codes of one unit that occur in the codes of nothing else. -/
structure KeepsEndings (encode : α → List β) (newline carriageReturn : α)
    (newlineUnit returnUnit : β) : Prop where
  encode_ne_nil : ∀ c, encode c ≠ []
  encode_newline : encode newline = [newlineUnit]
  encode_return : encode carriageReturn = [returnUnit]
  newline_notMem : ∀ c, c ≠ newline → newlineUnit ∉ encode c
  return_notMem : ∀ c, c ≠ carriageReturn → returnUnit ∉ encode c

namespace KeepsEndings

variable {encode : α → List β} {newlineUnit returnUnit : β}

omit [DecidableEq α] [DecidableEq β] in
theorem newline_notMem_flatMap
    (h : KeepsEndings encode newline carriageReturn newlineUnit returnUnit)
    (hline : newline ∉ line) : newlineUnit ∉ line.flatMap encode := by
  intro hmem
  obtain ⟨c, hc, hunit⟩ := List.mem_flatMap.1 hmem
  exact h.newline_notMem c (fun heq => hline (heq ▸ hc)) hunit

theorem dropReturn_flatMap
    (h : KeepsEndings encode newline carriageReturn newlineUnit returnUnit) (line : List α) :
    dropReturn returnUnit (line.flatMap encode) =
      (dropReturn carriageReturn line).flatMap encode := by
  rcases List.eq_nil_or_concat' line with rfl | ⟨start, last, rfl⟩
  · rfl
  · rw [dropReturn_concat, List.flatMap_append, List.flatMap_singleton]
    split
    · rename_i hlast
      rw [hlast, h.encode_return, dropReturn_concat, if_pos rfl]
    · rename_i hlast
      obtain ⟨units, unit, hcode⟩ :=
        List.eq_nil_or_concat' (encode last) |>.resolve_left (h.encode_ne_nil last)
      have hunit : unit ≠ returnUnit := fun heq =>
        h.return_notMem last hlast (by simp [hcode, heq])
      rw [hcode, ← List.append_assoc, dropReturn_concat, if_neg hunit, List.flatMap_append,
        List.flatMap_singleton, hcode, List.append_assoc]

/-- The lines of an encoded sequence are the encoded lines. -/
theorem breakLines_flatMap
    (h : KeepsEndings encode newline carriageReturn newlineUnit returnUnit) (text : List α) :
    breakLines newlineUnit returnUnit (text.flatMap encode) =
      (breakLines newline carriageReturn text).map (List.flatMap encode) := by
  induction text using lines_induction newline with
  | nil => rfl
  | last line hne habsent =>
      have hcode : line.flatMap encode ≠ [] := by
        obtain ⟨c, hc⟩ := List.exists_mem_of_ne_nil line hne
        exact fun hnil => h.encode_ne_nil c (List.flatMap_eq_nil_iff.1 hnil c hc)
      rw [breakLines_of_notMem hne habsent,
        breakLines_of_notMem hcode (h.newline_notMem_flatMap habsent), List.map_singleton]
  | cons line rest habsent ih =>
      rw [breakLines_append_newline habsent, List.flatMap_append, List.flatMap_cons,
        h.encode_newline, List.singleton_append,
        breakLines_append_newline (h.newline_notMem_flatMap habsent), ih, h.dropReturn_flatMap,
        List.map_cons]

end KeepsEndings

end ChomskyForm
