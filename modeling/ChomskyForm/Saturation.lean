/-!
# Saturation

Repeats a step until it changes nothing. Where every step that changes something makes a measure
grow, and the measure never exceeds the number of steps allowed, the outcome is a fixed point.
-/

namespace ChomskyForm

variable {α : Type}

/-- The first of `start`, `step start`, … that the step leaves alone, or the last one allowed. -/
def saturate [DecidableEq α] (step : α → α) : Nat → α → α
  | 0, start => start
  | rounds + 1, start =>
      if step start = start then start else saturate step rounds (step start)

variable [DecidableEq α] {step : α → α}

/-- What the start satisfies and the step keeps holds of the outcome. -/
theorem saturate_induction {motive : α → Prop} (hstep : ∀ x, motive x → motive (step x))
    (rounds : Nat) {start : α} (hstart : motive start) : motive (saturate step rounds start) := by
  induction rounds generalizing start with
  | zero => exact hstart
  | succ rounds ih =>
      unfold saturate
      split
      · exact hstart
      · exact ih (hstep start hstart)

/-- More rounds than lead to a fixed point make no difference. -/
theorem saturate_of_le {rounds more : Nat} {start : α}
    (h : step (saturate step rounds start) = saturate step rounds start) (hle : rounds ≤ more) :
    saturate step more start = saturate step rounds start := by
  induction rounds generalizing more start with
  | zero =>
      have hfixed : step start = start := h
      cases more with
      | zero => rfl
      | succ more => exact if_pos hfixed
  | succ rounds ih =>
      cases more with
      | zero => omega
      | succ more =>
          rw [saturate] at h ⊢
          rw [saturate]
          split
          · rfl
          · rename_i hne
            rw [if_neg hne] at h
            exact ih h (Nat.le_of_succ_le_succ hle)

/-- A measure that grows with every change and stays within `size start + rounds` forces a fixed
point. -/
theorem step_saturate {motive : α → Prop} {size : α → Nat} {bound : Nat}
    (hstep : ∀ x, motive x → motive (step x))
    (hgrow : ∀ x, motive x → step x ≠ x → size x < size (step x))
    (hbound : ∀ x, motive x → size x ≤ bound) (rounds : Nat) {start : α} (hstart : motive start)
    (henough : bound ≤ size start + rounds) :
    step (saturate step rounds start) = saturate step rounds start := by
  induction rounds generalizing start with
  | zero =>
      refine Decidable.byContradiction fun hne => ?_
      have hlt := hgrow start hstart hne
      have hle := hbound _ (hstep start hstart)
      omega
  | succ rounds ih =>
      unfold saturate
      split
      · assumption
      · rename_i hne
        exact ih (hstep start hstart) (by have := hgrow start hstart hne; omega)

end ChomskyForm
