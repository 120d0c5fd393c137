import Mathlib.Tactic.TypeStar

/-!
# Runs of a partial step function

A step takes an input in a state and either produces an output and the next
state or does not return.  `run` feeds a list of inputs and collects the
outputs.

`run_invariant` and `run_simulates` are plain induction over the run.  Two
rules are for facts that do not hold of every step.  `run_history_below` is
for facts about what has come out so far that hold only as long as some
consumed resource stays within a bound (the numbers drawn from a random
source, for instance): `cost` never decreases, so a bound at the end of a run
is a bound at every step of it.  `run_simulates_where` assumes a condition at
every step of the run (`AtEveryStep`) and shows that the run returns, too.
-/

namespace SHMemora.Verified.StepRun

variable {σ τ ι ω : Type*}

/-- Feed the inputs in order; `none` as soon as one step does not return. -/
def run (step : σ → ι → Option (ω × σ)) : σ → List ι → Option (List ω × σ)
  | s, [] => some ([], s)
  | s, i :: is =>
      match step s i with
      | none => none
      | some (o, s₁) =>
          match run step s₁ is with
          | none => none
          | some (os, s') => some (o :: os, s')

variable {step : σ → ι → Option (ω × σ)}

theorem run_cons_of_step {s s₁ : σ} {i : ι} {is : List ι} {o : ω}
    (h : step s i = some (o, s₁)) :
    run step s (i :: is) =
      (run step s₁ is).map fun r => (o :: r.1, r.2) := by
  simp only [run, h]
  cases run step s₁ is <;> rfl

theorem run_cons_eq_some_iff {s s' : σ} {i : ι} {is : List ι} {out : List ω} :
    run step s (i :: is) = some (out, s') ↔
      ∃ o s₁ os, step s i = some (o, s₁) ∧ run step s₁ is = some (os, s') ∧
        out = o :: os := by
  constructor
  · intro h
    cases hstep : step s i with
    | none => simp [run, hstep] at h
    | some r =>
        obtain ⟨o, s₁⟩ := r
        rw [run_cons_of_step hstep, Option.map_eq_some_iff] at h
        obtain ⟨⟨os, s₂⟩, hrun, heq⟩ := h
        cases heq
        exact ⟨o, s₁, os, rfl, hrun, rfl⟩
  · intro h
    rcases h with ⟨o, s₁, os, hstep, hrun, rfl⟩
    rw [run_cons_of_step hstep, hrun]
    rfl

/-- Two runs, one after the other. -/
theorem run_append {s s₁ s' : σ} {is js : List ι} {os us : List ω}
    (hfirst : run step s is = some (os, s₁))
    (hsecond : run step s₁ js = some (us, s')) :
    run step s (is ++ js) = some (os ++ us, s') := by
  induction is generalizing s os with
  | nil =>
      cases hfirst
      exact hsecond
  | cons i is ih =>
      obtain ⟨o, s₂, os, hs, hr, rfl⟩ := run_cons_eq_some_iff.mp hfirst
      exact run_cons_eq_some_iff.mpr ⟨o, s₂, os ++ us, hs, ih hr, rfl⟩

/-- A run that returns, cut in two. -/
theorem run_append_eq_some {s s' : σ} {is js : List ι} {out : List ω}
    (h : run step s (is ++ js) = some (out, s')) :
    ∃ os us s₁, run step s is = some (os, s₁) ∧
      run step s₁ js = some (us, s') ∧ out = os ++ us := by
  induction is generalizing s out with
  | nil => exact ⟨[], out, s, rfl, h, rfl⟩
  | cons i is ih =>
      obtain ⟨o, s₂, rest, hs, hr, rfl⟩ := run_cons_eq_some_iff.mp h
      obtain ⟨os, us, s₁, hfirst, hsecond, rfl⟩ := ih hr
      exact ⟨o :: os, us, s₁,
        run_cons_eq_some_iff.mpr ⟨o, s₂, os, hs, hfirst, rfl⟩, hsecond, rfl⟩

/-- A step that first rewrites its input. -/
theorem run_comp {κ : Type*} (f : κ → ι) (s : σ) (ks : List κ) :
    run (fun s k => step s (f k)) s ks = run step s (ks.map f) := by
  induction ks generalizing s with
  | nil => rfl
  | cons k ks ih =>
      simp only [run, List.map_cons]
      cases step s (f k) with
      | none => rfl
      | some r =>
          show (match run (fun s k => step s (f k)) r.2 ks with
            | none => none
            | some (os, s') => some (r.1 :: os, s')) = _
          rw [ih]

/-! ## Invariants -/

/-- What steps on inputs with `Q` preserve holds at the end of every run of
such steps. -/
theorem run_invariant_all {P : σ → Prop} {Q : ι → Prop}
    (hstep : ∀ s i o s', P s → Q i → step s i = some (o, s') → P s')
    {s s' : σ} {is : List ι} {os : List ω} (h0 : P s)
    (hall : ∀ i, i ∈ is → Q i) (hrun : run step s is = some (os, s')) :
    P s' := by
  induction is generalizing s os with
  | nil => cases hrun; exact h0
  | cons i is ih =>
      obtain ⟨o, s₁, os, hs, hr, rfl⟩ := run_cons_eq_some_iff.mp hrun
      exact ih (hstep s i o s₁ h0 (hall i (by simp)) hs)
        (fun j hj => hall j (by simp [hj])) hr

/-- What every step preserves holds at the end of every run. -/
theorem run_invariant {P : σ → Prop}
    (hstep : ∀ s i o s', P s → step s i = some (o, s') → P s')
    {s s' : σ} {is : List ι} {os : List ω} (h0 : P s)
    (hrun : run step s is = some (os, s')) : P s' :=
  run_invariant_all (Q := fun _ => True)
    (fun s i o s' hs _ h => hstep s i o s' hs h) h0 (fun _ _ => trivial) hrun

/-- A cost that no step lowers is not lowered by a run. -/
theorem run_cost_le {cost : σ → Nat}
    (hcost : ∀ s i o s', step s i = some (o, s') → cost s ≤ cost s')
    {s s' : σ} {is : List ι} {os : List ω}
    (hrun : run step s is = some (os, s')) : cost s ≤ cost s' := by
  have hstep : ∀ x i o y, cost s ≤ cost x → step x i = some (o, y) →
      cost s ≤ cost y :=
    fun x i o y hx hs => Nat.le_trans hx (hcost x i o y hs)
  exact run_invariant hstep (Nat.le_refl _) hrun

/-- The invariant rule with a history: what has been fed and what came out so
far.  The steps are only known to be sound for inputs with `Q` and as long as
the cost stays within `bound`. -/
theorem run_history_below {Inv : σ → List (ι × ω) → Prop} {Q : ι → Prop}
    {cost : σ → Nat} {bound : Nat}
    (hcost : ∀ s i o s', step s i = some (o, s') → cost s ≤ cost s')
    (hstep : ∀ s past i o s', Inv s past → Q i → step s i = some (o, s') →
      cost s' ≤ bound → Inv s' (past ++ [(i, o)]))
    {s s' : σ} {past : List (ι × ω)} {is : List ι} {os : List ω}
    (h0 : Inv s past) (hall : ∀ i, i ∈ is → Q i)
    (hrun : run step s is = some (os, s')) (hbound : cost s' ≤ bound) :
    Inv s' (past ++ is.zip os) := by
  induction is generalizing s past os with
  | nil =>
      cases hrun
      rw [List.zip_nil_left, List.append_nil]
      exact h0
  | cons i is ih =>
      obtain ⟨o, s₁, os, hs, hr, rfl⟩ := run_cons_eq_some_iff.mp hrun
      have hle : cost s₁ ≤ bound := Nat.le_trans (run_cost_le hcost hr) hbound
      have hnext := hstep s past i o s₁ h0 (hall i (by simp)) hs hle
      have hrest := ih hnext (fun j hj => hall j (by simp [hj])) hr
      rw [List.append_assoc] at hrest
      exact hrest

/-! ## Simulations -/

/-- A step-by-step simulation with equal outputs extends to runs. -/
theorem run_simulates {step' : τ → ι → Option (ω × τ)} {R : σ → τ → Prop}
    (hsim : ∀ s t i o s', R s t → step s i = some (o, s') →
      ∃ t', step' t i = some (o, t') ∧ R s' t')
    {s s' : σ} {t : τ} {is : List ι} {os : List ω} (h0 : R s t)
    (hrun : run step s is = some (os, s')) :
    ∃ t', run step' t is = some (os, t') ∧ R s' t' := by
  induction is generalizing s t os with
  | nil => cases hrun; exact ⟨t, rfl, h0⟩
  | cons i is ih =>
      obtain ⟨o, s₁, os, hs, hr, rfl⟩ := run_cons_eq_some_iff.mp hrun
      obtain ⟨t₁, ht, hR⟩ := hsim s t i o s₁ h0 hs
      obtain ⟨t', hr', hR'⟩ := ih hR hr
      exact ⟨t', run_cons_eq_some_iff.mpr ⟨o, t₁, os, ht, hr', rfl⟩, hR'⟩

/-- A system each of whose steps on inputs with `Q` a finer one carries out in
a run of its own.  `feeds` and `shows` pick the inputs and outputs of the finer
system that stand for those of the coarser one. -/
theorem run_refines_all {κ υ : Type*} {fine : τ → κ → Option (υ × τ)}
    {R : σ → τ → Prop} {Q : ι → Prop} {feeds : κ → Option ι}
    {shows : υ → Option ω}
    (hsim : ∀ s t i o s', R s t → Q i → step s i = some (o, s') →
      ∃ ks us t', run fine t ks = some (us, t') ∧ R s' t' ∧
        ks.filterMap feeds = [i] ∧ us.filterMap shows = [o])
    {s s' : σ} {t : τ} {is : List ι} {os : List ω} (h0 : R s t)
    (hall : ∀ i ∈ is, Q i) (hrun : run step s is = some (os, s')) :
    ∃ ks us t', run fine t ks = some (us, t') ∧ R s' t' ∧
      ks.filterMap feeds = is ∧ us.filterMap shows = os := by
  induction is generalizing s t os with
  | nil =>
      cases hrun
      exact ⟨[], [], t, rfl, h0, rfl, rfl⟩
  | cons i is ih =>
      obtain ⟨o, s₁, os, hs, hr, rfl⟩ := run_cons_eq_some_iff.mp hrun
      obtain ⟨ks, us, t₁, hfine, hR, hks, hus⟩ :=
        hsim s t i o s₁ h0 (hall i List.mem_cons_self) hs
      obtain ⟨ks', us', t', hrest, hR', hks', hus'⟩ :=
        ih hR (fun j hj => hall j (List.mem_cons_of_mem _ hj)) hr
      refine ⟨ks ++ ks', us ++ us', t', run_append hfine hrest, hR', ?_, ?_⟩
      · rw [List.filterMap_append, hks, hks', List.singleton_append]
      · rw [List.filterMap_append, hus, hus', List.singleton_append]

/-- The same for steps on all inputs. -/
theorem run_refines {κ υ : Type*} {fine : τ → κ → Option (υ × τ)}
    {R : σ → τ → Prop} {feeds : κ → Option ι} {shows : υ → Option ω}
    (hsim : ∀ s t i o s', R s t → step s i = some (o, s') →
      ∃ ks us t', run fine t ks = some (us, t') ∧ R s' t' ∧
        ks.filterMap feeds = [i] ∧ us.filterMap shows = [o])
    {s s' : σ} {t : τ} {is : List ι} {os : List ω} (h0 : R s t)
    (hrun : run step s is = some (os, s')) :
    ∃ ks us t', run fine t ks = some (us, t') ∧ R s' t' ∧
      ks.filterMap feeds = is ∧ us.filterMap shows = os :=
  run_refines_all (Q := fun _ => True)
    (fun s t i o s' hR _ hs => hsim s t i o s' hR hs) h0
    (fun _ _ => trivial) hrun

/-! ## Every step of a run -/

/-- `P` holds of every step of the run: of the state it is taken in and its
input. -/
def AtEveryStep (step : σ → ι → Option (ω × σ)) (P : σ → ι → Prop) :
    σ → List ι → Prop
  | _, [] => True
  | s, i :: is =>
      P s i ∧ ∀ o s', step s i = some (o, s') → AtEveryStep step P s' is

/-- Running decides whether a decidable property holds at every step. -/
instance decidableAtEveryStep {P : σ → ι → Prop}
    [∀ s i, Decidable (P s i)] (s : σ) (is : List ι) :
    Decidable (AtEveryStep step P s is) :=
  match is with
  | [] => .isTrue trivial
  | i :: is =>
      match hs : step s i with
      | none => decidable_of_iff (P s i)
          ⟨fun h => ⟨h, fun _ _ h' => nomatch hs.symm.trans h'⟩, And.left⟩
      | some (o, s') =>
          have := decidableAtEveryStep (P := P) s' is
          decidable_of_iff (P s i ∧ AtEveryStep step P s' is)
            ⟨fun h => ⟨h.1, fun _ _ h' => by
                cases hs.symm.trans h'
                exact h.2⟩,
              fun h => ⟨h.1, h.2 o s' hs⟩⟩

theorem atEveryStep_true (s : σ) (is : List ι) :
    AtEveryStep step (fun _ _ => True) s is := by
  induction is generalizing s with
  | nil => exact trivial
  | cons i is ih => exact ⟨trivial, fun _ s' _ => ih s'⟩

/-- What follows from an invariant on some inputs holds at every step of a run
on them; keeping the invariant may rest on it. -/
theorem atEveryStep_of_invariant {P : σ → Prop} {Q : σ → ι → Prop}
    {R : ι → Prop} (hQ : ∀ s i, P s → R i → Q s i)
    (hstep : ∀ s i o s', P s → R i → Q s i → step s i = some (o, s') → P s')
    {s : σ} {is : List ι} (h0 : P s) (hall : ∀ i ∈ is, R i) :
    AtEveryStep step Q s is := by
  induction is generalizing s with
  | nil => exact trivial
  | cons i is ih =>
      have hi := hQ s i h0 (hall i List.mem_cons_self)
      refine ⟨hi, fun o s' hs => ?_⟩
      exact ih (hstep s i o s' h0 (hall i List.mem_cons_self) hi hs)
        fun j hj => hall j (List.mem_cons_of_mem _ hj)

/-- A weaker property holds at every step, too. -/
theorem atEveryStep_mono {P Q : σ → ι → Prop} (h : ∀ s i, P s i → Q s i)
    {s : σ} {is : List ι} (hall : AtEveryStep step P s is) :
    AtEveryStep step Q s is := by
  induction is generalizing s with
  | nil => exact trivial
  | cons i is ih =>
      exact ⟨h s i hall.1, fun o s' hstep => ih (hall.2 o s' hstep)⟩

/-- Properties that agree on single steps agree on runs. -/
theorem atEveryStep_congr {P Q : σ → ι → Prop} (h : ∀ s i, P s i ↔ Q s i)
    (s : σ) (is : List ι) :
    AtEveryStep step P s is ↔ AtEveryStep step Q s is :=
  ⟨atEveryStep_mono fun s i => (h s i).mp,
    atEveryStep_mono fun s i => (h s i).mpr⟩

/-- A condition on all inputs of a run holds at every step of it. -/
theorem atEveryStep_and_all {P : σ → ι → Prop} {R : ι → Prop} {s : σ}
    {is : List ι} (h : AtEveryStep step P s is) (hall : ∀ i ∈ is, R i) :
    AtEveryStep step (fun s i => R i ∧ P s i) s is := by
  induction is generalizing s with
  | nil => exact trivial
  | cons i is ih =>
      refine ⟨⟨hall i List.mem_cons_self, h.1⟩, fun o s' hstep => ?_⟩
      exact ih (h.2 o s' hstep) fun j hj => hall j (List.mem_cons_of_mem _ hj)

/-- What holds at every step of a run holds at every step of its second
part. -/
theorem atEveryStep_append {P : σ → ι → Prop} {s s' : σ} {is js : List ι}
    {os : List ω} (h : AtEveryStep step P s (is ++ js))
    (hrun : run step s is = some (os, s')) : AtEveryStep step P s' js := by
  induction is generalizing s os with
  | nil => cases hrun; exact h
  | cons i is ih =>
      obtain ⟨o, s₁, os, hstep, hrest, rfl⟩ := run_cons_eq_some_iff.mp hrun
      exact ih (h.2 o s₁ hstep) hrest

/-- What holds at every step of a run holds at every step of its first part. -/
theorem atEveryStep_take {P : σ → ι → Prop} {s : σ} {is : List ι}
    (h : AtEveryStep step P s is) (k : Nat) :
    AtEveryStep step P s (is.take k) := by
  induction is generalizing s k with
  | nil =>
      rw [List.take_nil]
      exact h
  | cons i is ih =>
      cases k with
      | zero => exact trivial
      | succ k => exact ⟨h.1, fun o s' hstep => ih (h.2 o s' hstep) k⟩

/-- What steps preserve along a run on which `Q` holds, with something every
step says about its output that later steps do not make false. -/
theorem run_outputs_where {P : σ → Prop} {Q : σ → ι → Prop}
    {O : ω → σ → Prop}
    (hstep : ∀ s i o s', P s → Q s i → step s i = some (o, s') → P s' ∧ O o s')
    (hkeep : ∀ s i o s' o', step s i = some (o, s') → O o' s → O o' s')
    {s s' : σ} {is : List ι} {os : List ω} (h0 : P s)
    (hall : AtEveryStep step Q s is)
    (hrun : run step s is = some (os, s')) : P s' ∧ ∀ o ∈ os, O o s' := by
  have hafter : ∀ o s s' is os, O o s → run step s is = some (os, s') →
      O o s' :=
    fun o _ _ _ _ ho hr => run_invariant (P := O o)
      (fun s i o' s' hs h => hkeep s i o' s' o h hs) ho hr
  induction is generalizing s os with
  | nil =>
      cases hrun
      exact ⟨h0, fun o ho => absurd ho List.not_mem_nil⟩
  | cons i is ih =>
      obtain ⟨o, s₁, os, hs, hr, rfl⟩ := run_cons_eq_some_iff.mp hrun
      have hfirst := hstep s i o s₁ h0 hall.1 hs
      have hrest := ih hfirst.1 (hall.2 o s₁ hs) hr
      refine ⟨hrest.1, fun o' ho' => ?_⟩
      rcases List.mem_cons.mp ho' with heq | hmem
      · rw [heq]
        exact hafter o _ _ _ _ hfirst.2 hr
      · exact hrest.2 o' hmem

/-- Two systems that both return with equal outputs wherever `P` holds do so
on every run along which it holds. -/
theorem run_simulates_where {step' : τ → ι → Option (ω × τ)}
    {R : σ → τ → Prop} {P : σ → ι → Prop}
    (hsim : ∀ s t i, R s t → P s i → ∃ o s' t', step s i = some (o, s') ∧
      step' t i = some (o, t') ∧ R s' t')
    {s : σ} {t : τ} {is : List ι} (h0 : R s t)
    (hall : AtEveryStep step P s is) :
    ∃ os s' t', run step s is = some (os, s') ∧
      run step' t is = some (os, t') ∧ R s' t' := by
  induction is generalizing s t with
  | nil => exact ⟨[], s, t, rfl, rfl, h0⟩
  | cons i is ih =>
      obtain ⟨o, s₁, t₁, hs, ht, hR⟩ := hsim s t i h0 hall.1
      obtain ⟨os, s', t', hr, hr', hR'⟩ := ih hR (hall.2 o s₁ hs)
      exact ⟨o :: os, s', t',
        run_cons_eq_some_iff.mpr ⟨o, s₁, os, hs, hr, rfl⟩,
        run_cons_eq_some_iff.mpr ⟨o, t₁, os, ht, hr', rfl⟩, hR'⟩

end SHMemora.Verified.StepRun
