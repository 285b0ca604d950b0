import ChomskyForm.Grammar.Samples
import ChomskyForm.Proofs.Complete
import ChomskyForm.Proofs.Unique
import ChomskyForm.Session

/-!
# Repeated alternatives in sessions

A session may edit its grammar in any order. As long as no isolation and no binarization merges two
alternatives of a symbol, the grammar never has an alternative twice, and the first such edit makes
it have one. On a closed grammar binarization never merges, and the first isolation does not either.
Where a later one finds something to isolate, the letters it knows may stand beside their terminals.
-/

namespace ChomskyForm.Session

variable {session : Session} {edit : Edit} {edits : List Edit} {extended : TerminalMapping}
  {result : Grammar}

/-- The edit succeeds and makes two different alternatives of a symbol the same. -/
def Merges (session : Session) : Edit → Prop
  | .isolateTerminals => ∃ extended result,
      session.grammar.isolateTerminals session.mapping = (extended, .ok result) ∧
        ¬session.grammar.StaysApart extended
  | .binarize => ∃ result,
      session.grammar.binarize = .ok result ∧ ¬session.grammar.PairsApart result
  | _ => False

theorem merges_isolateTerminals_iff
    (h : session.grammar.isolateTerminals session.mapping = (extended, .ok result)) :
    session.Merges .isolateTerminals ↔ ¬session.grammar.StaysApart extended := by
  constructor
  · rintro ⟨other, outcome, hok, hmerges⟩
    rw [h] at hok
    cases hok
    exact hmerges
  · exact fun hmerges => ⟨extended, result, h, hmerges⟩

theorem merges_binarize_iff (h : session.grammar.binarize = .ok result) :
    session.Merges .binarize ↔ ¬session.grammar.PairsApart result := by
  constructor
  · rintro ⟨outcome, hok, hmerges⟩
    rw [h] at hok
    cases hok
    exact hmerges
  · exact fun hmerges => ⟨result, h, hmerges⟩

/-- **Step.** Only a merging edit makes an alternative appear twice, and each of them does. -/
theorem unique_apply_iff (h : session.grammar.Unique) (edit : Edit) :
    (session.apply edit).1.grammar.Unique ↔ ¬session.Merges edit := by
  cases edit with
  | declare left => exact iff_of_true (h.addRule left []) not_false
  | addProduction left production => exact iff_of_true (h.addRule left [production]) not_false
  | setStart start => exact iff_of_true (h.setStart start) not_false
  | removeEpsilon => exact iff_of_true (h.removeEpsilon _) not_false
  | removeUnits => exact iff_of_true h.removeUnits not_false
  | addEmptyStart =>
      refine iff_of_true ?_ not_false
      rw [apply]
      cases hstart : session.grammar.addEmptyStart with
      | error fault => exact h
      | ok outcome => exact h.addEmptyStart hstart
  | isolateTerminals =>
      rw [apply]
      rcases hisolated : session.grammar.isolateTerminals session.mapping with ⟨extended, outcome⟩
      cases outcome with
      | error fault =>
          refine iff_of_true h ?_
          rintro ⟨other, result, hok, -⟩
          rw [hisolated] at hok
          cases hok
      | ok result =>
          rw [merges_isolateTerminals_iff hisolated, not_not]
          exact Grammar.unique_isolateTerminals_iff h hisolated
  | binarize =>
      rw [apply]
      cases hbinary : session.grammar.binarize with
      | error fault =>
          refine iff_of_true h ?_
          rintro ⟨result, hok, -⟩
          rw [hbinary] at hok
          cases hok
      | ok result =>
          rw [merges_binarize_iff hbinary, not_not]
          exact Grammar.unique_binarize_iff h hbinary

/-- **Run.** The alternatives are unique after every number of edits exactly where none of the edits
merges. -/
theorem unique_applyAll_iff (h : session.grammar.Unique) :
    (∀ count, (session.applyAll (edits.take count)).grammar.Unique) ↔
      ∀ count edit, edits[count]? = some edit →
        ¬(session.applyAll (edits.take count)).Merges edit := by
  induction edits generalizing session with
  | nil =>
      refine iff_of_true (fun count => ?_) (fun count edit hedit => ?_)
      · rw [List.take_nil]
        exact h
      · cases hedit
  | cons first edits ih =>
      constructor
      · intro hall count edit hedit
        have hfirst : (session.apply first).1.grammar.Unique := hall 1
        cases count with
        | zero =>
            cases hedit
            exact (unique_apply_iff h first).1 hfirst
        | succ count => exact (ih hfirst).1 (fun count => hall (count + 1)) count edit hedit
      · intro hnone count
        cases count with
        | zero => exact h
        | succ count =>
            have hfirst := (unique_apply_iff h first).2 (hnone 0 first rfl)
            exact (ih hfirst).2 (fun count edit => hnone (count + 1) edit) count

/-! ### Edits that merge nothing -/

/-- Binarization meets a closed grammar. So does isolation, as the first one of its session, or else
there is nothing to isolate. -/
def Careful (session : Session) : Edit → Prop
  | .isolateTerminals =>
      session.grammar.longTerminals = [] ∨ session.grammar.Closed ∧ session.mapping = .empty
  | .binarize => session.grammar.Closed
  | _ => True

theorem Careful.not_merges (h : session.Careful edit) : ¬session.Merges edit := by
  cases edit with
  | isolateTerminals =>
      rintro ⟨extended, result, hok, hmerges⟩
      apply hmerges
      rcases h with hnone | ⟨hclosed, hempty⟩
      · exact Grammar.staysApart_of_longTerminals_eq_nil hnone
      · rw [hempty] at hok
        exact hclosed.staysApart hok
  | binarize =>
      rintro ⟨result, hok, hmerges⟩
      exact hmerges (h.pairsApart hok)
  | _ => exact not_false

instance (session : Session) : (edit : Edit) → Decidable (session.Careful edit)
  | .isolateTerminals => inferInstanceAs (Decidable (session.grammar.longTerminals = [] ∨
      session.grammar.Closed ∧ session.mapping = .empty))
  | .binarize => inferInstanceAs (Decidable session.grammar.Closed)
  | .declare _ | .addProduction _ _ | .setStart _ | .removeEpsilon | .addEmptyStart
  | .removeUnits => instDecidableTrue

/-- **Uniqueness.** A session that starts from nothing has unique alternatives all along exactly
where none of its edits merges two of them. Careful edits never do. -/
theorem alternatives_unique_exactly (edits : List Edit) :
    ((∀ count, (applyAll {} (edits.take count)).grammar.Unique) ↔
      ∀ count edit, edits[count]? = some edit →
        ¬(applyAll {} (edits.take count)).Merges edit) ∧
    ((∀ count edit, edits[count]? = some edit → (applyAll {} (edits.take count)).Careful edit) →
      ∀ count, (applyAll {} (edits.take count)).grammar.Unique) := by
  have hstart : ({} : Session).grammar.Unique := Grammar.unique_empty
  refine ⟨unique_applyAll_iff hstart, fun hcareful => ?_⟩
  exact (unique_applyAll_iff hstart).2 fun count edit hedit =>
    (hcareful count edit hedit).not_merges

/-- Adds the alternatives of a grammar one by one, and then takes the steps of a conversion. -/
def conversionEdits (grammar : Grammar) : List Edit :=
  (grammar.keys.flatMap fun left => (grammar.alternatives left).map (.addProduction left)) ++
    [.removeEpsilon, .addEmptyStart, .removeUnits, .isolateTerminals, .binarize]

theorem alternatives_unique_exactly_nestedPairs :
    (∀ count edit, (conversionEdits nestedPairs)[count]? = some edit →
      (applyAll {} ((conversionEdits nestedPairs).take count)).Careful edit) ∧
    ∀ count, (applyAll {} ((conversionEdits nestedPairs).take count)).grammar.Unique := by
  have hcareful : ∀ count (h : count < (conversionEdits nestedPairs).length),
      (applyAll {} ((conversionEdits nestedPairs).take count)).Careful
        (conversionEdits nestedPairs)[count] := by
    decide +kernel
  have hall : ∀ count edit, (conversionEdits nestedPairs)[count]? = some edit →
      (applyAll {} ((conversionEdits nestedPairs).take count)).Careful edit := by
    intro count edit hedit
    obtain ⟨hlt, rfl⟩ := List.getElem?_eq_some_iff.1 hedit
    exact hcareful count hlt
  exact ⟨hall, (alternatives_unique_exactly (conversionEdits nestedPairs)).2 hall⟩

/-- An alternative is added again after its terminal was isolated, and isolated again. -/
def repeatedIsolation : List Edit :=
  [.addProduction ⟨'S', rfl⟩ [⟨'a', rfl⟩, ⟨'B', rfl⟩], .addProduction ⟨'B', rfl⟩ [⟨'b', rfl⟩],
    .isolateTerminals, .addProduction ⟨'S', rfl⟩ [⟨'a', rfl⟩, ⟨'B', rfl⟩], .isolateTerminals]

theorem exists_repeated_alternative :
    ¬∀ edits count, (applyAll {} (List.take count edits)).grammar.Unique := by
  intro hall
  have hunique := hall repeatedIsolation 5
  revert hunique
  decide +kernel

end ChomskyForm.Session
