import SHMemora.Verified.StepRun

/-!
# Noninterference by unwinding

The inputs of a system are marked as visible or hidden.  If a visible input
gives the same output in related states and leads to related states, and a
hidden input does not leave the relation, then the outputs of the visible
inputs are those of the run in which the hidden ones are left out.

The relation is between the states of two systems, and the conditions need to
hold at the steps of the run only.  `run_filter` is the same for inputs that
carry no mark and are told apart by a test.
-/

namespace SHMemora.Verified.Unwinding

open SHMemora.Verified.StepRun

variable {σ τ ι ω α : Type*}

/-- The items that are marked as visible. -/
def visible (xs : List (Bool × α)) : List α :=
  xs.filterMap fun x => if x.1 then some x.2 else none

@[simp] theorem visible_nil : visible ([] : List (Bool × α)) = [] := rfl

@[simp] theorem visible_cons_true (x : α) (xs : List (Bool × α)) :
    visible ((true, x) :: xs) = x :: visible xs := by
  simp [visible]

@[simp] theorem visible_cons_false (x : α) (xs : List (Bool × α)) :
    visible ((false, x) :: xs) = visible xs := by
  simp [visible]

/-- A step on a marked input, with the mark passed on to the output. -/
def marked (step : σ → ι → Option (ω × σ)) (s : σ) (i : Bool × ι) :
    Option ((Bool × ω) × σ) :=
  (step s i.2).map fun r => ((i.1, r.1), r.2)

theorem marked_eq_some_iff {step : σ → ι → Option (ω × σ)} {s s' : σ}
    {i : Bool × ι} {o : Bool × ω} :
    marked step s i = some (o, s') ↔
      step s i.2 = some (o.2, s') ∧ o.1 = i.1 := by
  obtain ⟨mark, o⟩ := o
  rw [marked, Option.map_eq_some_iff]
  constructor
  · rintro ⟨r, hr, heq⟩
    cases heq
    exact ⟨hr, rfl⟩
  · rintro ⟨hstep, rfl⟩
    exact ⟨(o, s'), hstep, rfl⟩

/-- **Unwinding**: a run seen through its visible inputs. -/
theorem run_visible {step : σ → ι → Option (ω × σ)}
    {step' : τ → ι → Option (ω × τ)} {R : σ → τ → Prop}
    {Q : σ → Bool × ι → Prop}
    (hvisible : ∀ s t i o s', R s t → Q s (true, i) →
      step s i = some (o, s') → ∃ t', step' t i = some (o, t') ∧ R s' t')
    (hhidden : ∀ s t i o s', R s t → Q s (false, i) →
      step s i = some (o, s') → R s' t)
    {s s' : σ} {t : τ} {is : List (Bool × ι)} {os : List (Bool × ω)}
    (h0 : R s t) (hall : AtEveryStep (marked step) Q s is)
    (hrun : run (marked step) s is = some (os, s')) :
    ∃ t', run step' t (visible is) = some (visible os, t') ∧ R s' t' := by
  induction is generalizing s t os with
  | nil =>
      cases hrun
      exact ⟨t, rfl, h0⟩
  | cons i is ih =>
      obtain ⟨⟨mark, o⟩, s₁, os, hmarked, hrest, rfl⟩ :=
        run_cons_eq_some_iff.mp hrun
      have hall₁ := hall.2 _ _ hmarked
      obtain ⟨hstep, hmark⟩ := marked_eq_some_iff.mp hmarked
      obtain ⟨mark', i⟩ := i
      cases hmark
      cases mark with
      | true =>
          obtain ⟨t₁, hstep', h1⟩ := hvisible s t i o s₁ h0 hall.1 hstep
          obtain ⟨t', hrun', h'⟩ := ih h1 hall₁ hrest
          rw [visible_cons_true, visible_cons_true]
          exact ⟨t', run_cons_eq_some_iff.mpr
            ⟨o, t₁, _, hstep', hrun', rfl⟩, h'⟩
      | false =>
          rw [visible_cons_false, visible_cons_false]
          exact ih (hhidden s t i o s₁ h0 hall.1 hstep) hall₁ hrest

/-- **Unwinding**, for inputs that are chosen by a test. -/
theorem run_filter {step : σ → ι → Option (ω × σ)}
    {step' : τ → ι → Option (ω × τ)} {R : σ → τ → Prop} {Q : σ → ι → Prop}
    {see : ι → Bool}
    (hvisible : ∀ s t i o s', R s t → Q s i → see i = true →
      step s i = some (o, s') → ∃ t', step' t i = some (o, t') ∧ R s' t')
    (hhidden : ∀ s t i o s', R s t → Q s i → see i = false →
      step s i = some (o, s') → R s' t)
    {s s' : σ} {t : τ} {is : List ι} {os : List ω} (h0 : R s t)
    (hall : AtEveryStep step Q s is) (hrun : run step s is = some (os, s')) :
    ∃ t', run step' t (is.filter see) =
        some (((is.zip os).filter fun r => see r.1).map Prod.snd, t') ∧
      R s' t' := by
  induction is generalizing s t os with
  | nil =>
      cases hrun
      exact ⟨t, rfl, h0⟩
  | cons i is ih =>
      obtain ⟨o, s₁, os, hstep, hrest, rfl⟩ := run_cons_eq_some_iff.mp hrun
      have hall₁ := hall.2 o s₁ hstep
      rw [List.zip_cons_cons]
      cases hsee : see i with
      | true =>
          obtain ⟨t₁, hstep', h1⟩ := hvisible s t i o s₁ h0 hall.1 hsee hstep
          obtain ⟨t', hrun', h'⟩ := ih h1 hall₁ hrest
          simp only [List.filter_cons, hsee, if_true, List.map_cons]
          exact ⟨t', run_cons_eq_some_iff.mpr
            ⟨o, t₁, _, hstep', hrun', rfl⟩, h'⟩
      | false =>
          simp only [List.filter_cons, hsee, Bool.false_eq_true, if_false]
          exact ih (hhidden s t i o s₁ h0 hall.1 hsee hstep) hall₁ hrest

end SHMemora.Verified.Unwinding
