import SHMemora.Verified.StepRun
import Mathlib.Logic.Function.Basic

/-!
# Threads that share a state

Threads take turns in any order.  A turn of one thread changes the shared
state and the place the thread has reached in its own code, its phase; the
others stay where they are.

The proof rule is the one of Owicki and Gries: an assertion for each phase of
each thread, about the shared state, that the thread itself establishes on the
way into the phase and that the turns of the other threads leave true
(`poolStep_annotated`).  As in `StepRun`, the turns may be restricted by a
condition on the state they are taken in.

How long a thread goes on does not depend on the others if its own turns lower
a rank (`run_turns_le`).

A thread that runs alone has no choices: `Leads` says where its turns lead
from the beginning of a call to its result, and `Leads.run` makes them a run of
the system in which the others wait.
-/

namespace SHMemora.Verified.ThreadPool

open SHMemora.Verified.StepRun

/-- A shared state and the phase of each thread. -/
structure Pool (σ ι φ : Type*) where
  shared : σ
  phase : ι → φ

variable {σ ι φ α ω : Type*} [DecidableEq ι]

/-- Thread `i` has moved to another phase and changed the shared state. -/
def Pool.advance (p : Pool σ ι φ) (i : ι) (phase : φ) (shared : σ) :
    Pool σ ι φ :=
  ⟨shared, Function.update p.phase i phase⟩

@[simp] theorem Pool.advance_shared (p : Pool σ ι φ) (i : ι) (phase : φ)
    (shared : σ) : (p.advance i phase shared).shared = shared := rfl

@[simp] theorem Pool.advance_phase_self (p : Pool σ ι φ) (i : ι) (phase : φ)
    (shared : σ) : (p.advance i phase shared).phase i = phase :=
  Function.update_self ..

theorem Pool.advance_phase_of_ne (p : Pool σ ι φ) {i j : ι} (h : j ≠ i)
    (phase : φ) (shared : σ) :
    (p.advance i phase shared).phase j = p.phase j :=
  Function.update_of_ne h ..

theorem Pool.advance_advance (p : Pool σ ι φ) (i : ι) (phase phase' : φ)
    (shared shared' : σ) :
    (p.advance i phase shared).advance i phase' shared' =
      p.advance i phase' shared' := by
  unfold Pool.advance
  rw [Function.update_idem]

/-- One thread takes a turn.  `act` is the code of the threads: what a turn on
input `α` does in a phase, if it is possible there. -/
def poolStep (act : ι → α → φ → σ → Option (ω × φ × σ)) (p : Pool σ ι φ)
    (turn : ι × α) : Option (ω × Pool σ ι φ) :=
  match act turn.1 turn.2 (p.phase turn.1) p.shared with
  | none => none
  | some (o, phase, shared) => some (o, p.advance turn.1 phase shared)

variable {act : ι → α → φ → σ → Option (ω × φ × σ)}

theorem poolStep_eq_some_iff {p p' : Pool σ ι φ} {turn : ι × α} {o : ω} :
    poolStep act p turn = some (o, p') ↔
      ∃ phase shared, act turn.1 turn.2 (p.phase turn.1) p.shared =
        some (o, phase, shared) ∧ p' = p.advance turn.1 phase shared := by
  unfold poolStep
  cases hact : act turn.1 turn.2 (p.phase turn.1) p.shared with
  | none => simp
  | some r =>
      constructor
      · intro h
        cases h
        exact ⟨r.2.1, r.2.2, rfl, rfl⟩
      · intro h
        rcases h with ⟨phase, shared, heq, rfl⟩
        cases heq
        rfl

/-! ## Assertions -/

/-- An assertion about the shared state and one for the phase of each thread
hold. -/
structure Annotated (G : σ → Prop) (L : ι → φ → σ → Prop) (p : Pool σ ι φ) :
    Prop where
  common : G p.shared
  each : ∀ i, L i (p.phase i) p.shared

/-- What is to be shown of one turn: the assertion about the shared state, the
assertion of the phase entered, and that the turn does not interfere with the
assertions of the other threads. -/
structure TurnSound (G : σ → Prop) (L : ι → φ → σ → Prop) (p : Pool σ ι φ)
    (i : ι) (phase : φ) (shared : σ) : Prop where
  common : G shared
  own : L i phase shared
  others : ∀ j, j ≠ i → L j (p.phase j) shared

variable {G : σ → Prop} {L : ι → φ → σ → Prop} {p p' : Pool σ ι φ}

theorem Annotated.advance {i : ι} {phase : φ} {shared : σ}
    (h : TurnSound G L p i phase shared) :
    Annotated G L (p.advance i phase shared) := by
  refine ⟨h.common, fun j => ?_⟩
  by_cases hj : j = i
  · rw [hj, Pool.advance_phase_self]
    exact h.own
  · rw [Pool.advance_phase_of_ne p hj]
    exact h.others j hj

omit [DecidableEq ι] in
/-- A turn that leaves the shared state alone. -/
theorem Annotated.quiet {i : ι} {phase : φ} (h : Annotated G L p)
    (hown : L i phase p.shared) : TurnSound G L p i phase p.shared :=
  ⟨h.common, hown, fun j _ => h.each j⟩

/-- **Step lemma**: turns that keep the assertions and do not interfere. -/
theorem poolStep_annotated {Q : Pool σ ι φ → ι × α → Prop}
    {O : ω → σ → Prop}
    (hturn : ∀ p i a o phase shared, Annotated G L p → Q p (i, a) →
      act i a (p.phase i) p.shared = some (o, phase, shared) →
      TurnSound G L p i phase shared ∧ O o shared)
    {turn : ι × α} {o : ω} (h : Annotated G L p) (hQ : Q p turn)
    (hstep : poolStep act p turn = some (o, p')) :
    Annotated G L p' ∧ O o p'.shared := by
  obtain ⟨phase, shared, hact, rfl⟩ := poolStep_eq_some_iff.mp hstep
  have hdone := hturn p turn.1 turn.2 o phase shared h hQ hact
  exact ⟨Annotated.advance hdone.1, hdone.2⟩

/-- **Run lemma**: along a run whose turns meet `Q` the assertions hold, and
what the turns say about their outputs, if later turns do not make it
false. -/
theorem run_annotated {Q : Pool σ ι φ → ι × α → Prop} {O : ω → σ → Prop}
    (hturn : ∀ p i a o phase shared, Annotated G L p → Q p (i, a) →
      act i a (p.phase i) p.shared = some (o, phase, shared) →
      TurnSound G L p i phase shared ∧ O o shared)
    (hkeep : ∀ i a phase shared o phase' shared' o',
      act i a phase shared = some (o, phase', shared') → O o' shared →
        O o' shared')
    {turns : List (ι × α)} {os : List ω} (h : Annotated G L p)
    (hall : AtEveryStep (poolStep act) Q p turns)
    (hrun : run (poolStep act) p turns = some (os, p')) :
    Annotated G L p' ∧ ∀ o ∈ os, O o p'.shared := by
  refine run_outputs_where (P := Annotated G L)
    (O := fun o p => O o p.shared)
    (fun p turn o p' hp hQ hstep => poolStep_annotated hturn hp hQ hstep)
    (fun p turn o p' o' hstep ho => ?_) h hall hrun
  obtain ⟨phase, shared, hact, rfl⟩ := poolStep_eq_some_iff.mp hstep
  exact hkeep turn.1 turn.2 _ _ o phase shared o' hact ho

/-! ## Turns left -/

/-- **Run lemma**: a thread whose turns lower the rank of its phase takes no
more turns than the rank it started with, whatever the others do.  `P` is an
invariant that lowering the rank may rest on, and `fine` the inputs on which it
is lowered. -/
theorem run_turns_le (P : Pool σ ι φ → Prop) (fine : α → Prop)
    (rank : φ → Nat) {i : ι}
    (hkeep : ∀ p turn o p', P p → poolStep act p turn = some (o, p') → P p')
    (hrank : ∀ (p : Pool σ ι φ) a o phase shared, P p → fine a →
      act i a (p.phase i) p.shared = some (o, phase, shared) →
      rank phase < rank (p.phase i))
    {turns : List (ι × α)} {os : List ω} (h0 : P p)
    (hfine : ∀ a, (i, a) ∈ turns → fine a)
    (hrun : run (poolStep act) p turns = some (os, p')) :
    turns.countP (fun turn => decide (turn.1 = i)) + rank (p'.phase i) ≤
      rank (p.phase i) := by
  induction turns generalizing p os with
  | nil =>
      cases hrun
      simp
  | cons turn turns ih =>
      obtain ⟨o, p₁, os, hstep, hrest, rfl⟩ := run_cons_eq_some_iff.mp hrun
      have hle := ih (hkeep p turn o p₁ h0 hstep)
        (fun a ha => hfine a (List.mem_cons_of_mem _ ha)) hrest
      obtain ⟨phase, shared, hact, rfl⟩ := poolStep_eq_some_iff.mp hstep
      obtain ⟨j, a⟩ := turn
      rw [List.countP_cons]
      by_cases hj : j = i
      · subst hj
        have hlt := hrank p a o phase shared h0
          (hfine a List.mem_cons_self) hact
        rw [Pool.advance_phase_self] at hle
        simp only [decide_true, if_true]
        omega
      · rw [Pool.advance_phase_of_ne p (Ne.symm hj)] at hle
        simp only [hj, decide_false, Bool.false_eq_true, if_false]
        exact hle

/-! ## One thread alone -/

/-- Where the turns of a thread lead that runs alone: past turns that show
`quiet` to the first that shows something else.  A turn is given by what it
shows, the phase entered and the state left behind. -/
inductive Leads (turn : φ → σ → Option (ω × φ × σ)) (quiet : ω) :
    ω × φ × σ → ω × φ × σ → Prop
  | shown {r : ω × φ × σ} (hshows : r.1 ≠ quiet) : Leads turn quiet r r
  | next {phase : φ} {shared : σ} {r r' : ω × φ × σ}
      (hturn : turn phase shared = some r) (hrest : Leads turn quiet r r') :
      Leads turn quiet (quiet, phase, shared) r'

section Alone

variable {turn : φ → σ → Option (ω × φ × σ)} {quiet : ω}
  {r r' r'' : ω × φ × σ}

theorem Leads.unique (h : Leads turn quiet r r')
    (h' : Leads turn quiet r r'') : r' = r'' := by
  induction h with
  | shown hshows =>
      cases h' with
      | shown => rfl
      | next => exact absurd rfl hshows
  | next hturn _ ih =>
      cases h' with
      | shown hshows => exact absurd rfl hshows
      | next hturn' hrest' =>
          cases hturn.symm.trans hturn'
          exact ih hrest'

/-- A system whose turns mirror those of another one leads to what the other
one leads to. -/
theorem Leads.mirror {τ : Type*} {turn' : φ → τ → Option (ω × φ × τ)}
    {R : σ → τ → Prop}
    (hmirror : ∀ phase shared t r, R shared t → turn phase shared = some r →
      ∃ t', turn' phase t = some (r.1, r.2.1, t') ∧ R r.2.2 t')
    (h : Leads turn quiet r r') {t : τ} (hR : R r.2.2 t) :
    ∃ t', Leads turn' quiet (r.1, r.2.1, t) (r'.1, r'.2.1, t') ∧
      R r'.2.2 t' := by
  induction h generalizing t with
  | shown hshows => exact ⟨t, .shown hshows, hR⟩
  | next hturn _ ih =>
      obtain ⟨t₁, hturn', hR₁⟩ := hmirror _ _ t _ hR hturn
      obtain ⟨t', hrest, hR'⟩ := ih hR₁
      exact ⟨t', .next hturn' hrest, hR'⟩

/-- The turns of a thread that runs alone, as a run of the system. -/
theorem Leads.run {i : ι} {a₀ a : α} {p : Pool σ ι φ}
    (h : Leads (act i a) quiet r r')
    (hfirst : act i a₀ (p.phase i) p.shared = some r) :
    ∃ k, StepRun.run (poolStep act) p
        ((i, a₀) :: List.replicate k (i, a)) =
      some (List.replicate k quiet ++ [r'.1],
        p.advance i r'.2.1 r'.2.2) := by
  induction h generalizing a₀ p with
  | @shown r =>
      have hstep : poolStep act p (i, a₀) =
          some (r.1, p.advance i r.2.1 r.2.2) :=
        poolStep_eq_some_iff.mpr ⟨r.2.1, r.2.2, hfirst, rfl⟩
      exact ⟨0, run_cons_eq_some_iff.mpr ⟨_, _, [], hstep, rfl, rfl⟩⟩
  | @next phase shared r₁ r' hturn _ ih =>
      have hstep : poolStep act p (i, a₀) =
          some (quiet, p.advance i phase shared) :=
        poolStep_eq_some_iff.mpr ⟨phase, shared, hfirst, rfl⟩
      have hphase : act i a ((p.advance i phase shared).phase i)
          (p.advance i phase shared).shared = some r₁ := by
        rw [Pool.advance_phase_self, Pool.advance_shared]
        exact hturn
      obtain ⟨k, hrun⟩ := ih hphase
      rw [Pool.advance_advance] at hrun
      exact ⟨k + 1, run_cons_eq_some_iff.mpr ⟨_, _, _, hstep, hrun, rfl⟩⟩

end Alone

end SHMemora.Verified.ThreadPool
