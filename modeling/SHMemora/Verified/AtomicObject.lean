import SHMemora.Verified.StepRun
import Mathlib.Logic.Function.Basic
import Mathlib.Tactic.TypeStar

/-!
# Calls that take effect at once

Threads call an object that serves one call at a time.  Between the
invocation of a call and its response there is one instant at which it takes
effect, according to a sequential specification `spec`: a relation between a
state, the calling thread, the call, its reply and the next state.  `Exec` has
the executions of this object; only the invocations and responses are seen.

A concurrent implementation whose histories are histories of this object is
linearizable.  Where the place of a call in the order of effects depends on
what happens later, one has to go backwards: `exec_of_run` explains a state
before a step from an explanation of the state behind it.
-/

namespace SHMemora.Verified.AtomicObject

open SHMemora.Verified.StepRun

variable {σ ι κ ρ : Type*}

/-- What is seen of a call. -/
inductive Event (ι κ ρ : Type*) where
  | invoke (thread : ι) (call : κ)
  | respond (thread : ι) (reply : ρ)

/-- Where a thread is in its call. -/
inductive Status (κ ρ : Type*) where
  | idle
  | pending (call : κ)
  | done (call : κ) (reply : ρ)

/-- The object and its callers. -/
@[ext]
structure Object (σ ι κ ρ : Type*) where
  state : σ
  status : ι → Status κ ρ

variable [DecidableEq ι]

/-- The object served one call after another. -/
inductive Exec (spec : σ → ι → κ → ρ → σ → Prop) :
    Object σ ι κ ρ → List (Event ι κ ρ) → Object σ ι κ ρ → Prop
  | done (c : Object σ ι κ ρ) : Exec spec c [] c
  | invoke {c c' : Object σ ι κ ρ} {i : ι} {call : κ}
      {history : List (Event ι κ ρ)} (hidle : c.status i = .idle)
      (rest : Exec spec
        ⟨c.state, Function.update c.status i (.pending call)⟩ history c') :
      Exec spec c (.invoke i call :: history) c'
  | effect {c c' : Object σ ι κ ρ} {i : ι} {call : κ} {reply : ρ} {s : σ}
      {history : List (Event ι κ ρ)} (hpending : c.status i = .pending call)
      (hspec : spec c.state i call reply s)
      (rest : Exec spec
        ⟨s, Function.update c.status i (.done call reply)⟩ history c') :
      Exec spec c history c'
  | respond {c c' : Object σ ι κ ρ} {i : ι} {call : κ} {reply : ρ}
      {history : List (Event ι κ ρ)} (hdone : c.status i = .done call reply)
      (rest : Exec spec
        ⟨c.state, Function.update c.status i .idle⟩ history c') :
      Exec spec c (.respond i reply :: history) c'

variable {spec : σ → ι → κ → ρ → σ → Prop} {c c₁ c' : Object σ ι κ ρ}
  {history history' : List (Event ι κ ρ)} {i : ι} {call : κ} {reply : ρ}
  {s : σ}

namespace Exec

theorem trans (h : Exec spec c history c₁) (h' : Exec spec c₁ history' c') :
    Exec spec c (history ++ history') c' := by
  induction h with
  | done => exact h'
  | invoke hidle _ ih => exact .invoke hidle (ih h')
  | effect hpending hspec _ ih => exact .effect hpending hspec (ih h')
  | respond hdone _ ih => exact .respond hdone (ih h')

/-- A call begins. -/
theorem begin (hidle : c.status i = .idle) (call : κ) :
    Exec spec c [.invoke i call]
      ⟨c.state, Function.update c.status i (.pending call)⟩ :=
  .invoke hidle (.done _)

/-- A call takes effect. -/
theorem happen (hpending : c.status i = .pending call)
    (hspec : spec c.state i call reply s) :
    Exec spec c [] ⟨s, Function.update c.status i (.done call reply)⟩ :=
  .effect hpending hspec (.done _)

/-- A call that has taken effect returns. -/
theorem answer (call : κ) (hdone : c.status i = .done call reply) :
    Exec spec c [.respond i reply]
      ⟨c.state, Function.update c.status i .idle⟩ :=
  .respond hdone (.done _)

/-- A call takes effect and returns. -/
theorem serve (call : κ) (hpending : c.status i = .pending call)
    (hspec : spec c.state i call reply s) :
    Exec spec c [.respond i reply]
      ⟨s, Function.update c.status i .idle⟩ := by
  have h : Exec spec ⟨s, Function.update c.status i (.done call reply)⟩
      [.respond i reply] ⟨s, Function.update (Function.update c.status i
        (.done call reply)) i .idle⟩ :=
    answer call (Function.update_self ..)
  rw [Function.update_idem] at h
  exact (happen hpending hspec).trans h

end Exec

/-! ## Several effects -/

/-- Calls of the sequential specification, one after another. -/
inductive Plays (spec : σ → ι → κ → ρ → σ → Prop) :
    σ → List (ι × κ × ρ) → σ → Prop
  | done (s : σ) : Plays spec s [] s
  | next {s s₁ s' : σ} {i : ι} {call : κ} {reply : ρ}
      {effects : List (ι × κ × ρ)} (hspec : spec s i call reply s₁)
      (rest : Plays spec s₁ effects s') :
      Plays spec s ((i, call, reply) :: effects) s'

/-- Pending calls of different threads take effect. -/
theorem Exec.happen_all {effects : List (ι × κ × ρ)} {s' : σ}
    (hplays : Plays spec c.state effects s')
    (hnodup : (effects.map Prod.fst).Nodup)
    (hpending : ∀ x ∈ effects, c.status x.1 = .pending x.2.1)
    (hstate : c'.state = s')
    (hdone : ∀ x ∈ effects, c'.status x.1 = .done x.2.1 x.2.2)
    (hothers : ∀ i, i ∉ effects.map Prod.fst → c'.status i = c.status i) :
    Exec spec c [] c' := by
  induction effects generalizing c with
  | nil =>
      cases hplays
      have heq : c' = c :=
        Object.ext hstate (funext fun i => hothers i List.not_mem_nil)
      rw [heq]
      exact .done c
  | cons x effects ih =>
      cases hplays with
      | @next _ s₁ _ i call reply _ hspec hrest =>
          rw [List.map_cons, List.nodup_cons] at hnodup
          refine .effect (hpending _ List.mem_cons_self) hspec
            (ih hrest hnodup.2 (fun y hy => ?_)
              (fun y hy => hdone y (List.mem_cons_of_mem _ hy))
              fun j hj => ?_)
          · have hne : y.1 ≠ i := fun heq =>
              hnodup.1 (List.mem_map.mpr ⟨y, hy, heq⟩)
            show Function.update c.status i _ y.1 = _
            rw [Function.update_of_ne hne]
            exact hpending y (List.mem_cons_of_mem _ hy)
          · show c'.status j = Function.update c.status i _ j
            by_cases hji : j = i
            · rw [hji, Function.update_self]
              exact hdone _ List.mem_cons_self
            · rw [Function.update_of_ne hji]
              apply hothers j
              simp [hji, hj]

/-! ## Explaining a run from its end -/

/-- **Run lemma**: every state of a run that explains the one behind it.
`seen` is what is seen of a step. -/
theorem exec_of_run {τ α ω : Type*} {step : τ → α → Option (ω × τ)}
    (Inv : τ → Prop) {Q : τ → α → Prop} (explains : τ → Object σ ι κ ρ → Prop)
    (seen : α → ω → List (Event ι κ ρ))
    (hinv : ∀ t a o t', Inv t → Q t a → step t a = some (o, t') → Inv t')
    (hstep : ∀ t a o t' c', Inv t → Q t a → step t a = some (o, t') →
      explains t' c' → ∃ c, explains t c ∧ Exec spec c (seen a o) c')
    {t t' : τ} {as : List α} {os : List ω} (h0 : Inv t)
    (hall : AtEveryStep step Q t as) (hrun : run step t as = some (os, t'))
    (hend : explains t' c') :
    ∃ c, explains t c ∧
      Exec spec c ((as.zip os).flatMap fun x => seen x.1 x.2) c' := by
  induction as generalizing t os with
  | nil =>
      cases hrun
      exact ⟨c', hend, .done c'⟩
  | cons a as ih =>
      obtain ⟨o, t₁, os, hs, hr, rfl⟩ := run_cons_eq_some_iff.mp hrun
      obtain ⟨c₁, hc₁, hrest⟩ :=
        ih (hinv t a o t₁ h0 hall.1 hs) (hall.2 o t₁ hs) hr
      obtain ⟨c, hc, hfirst⟩ := hstep t a o t₁ c₁ h0 hall.1 hs hc₁
      refine ⟨c, hc, ?_⟩
      rw [List.zip_cons_cons, List.flatMap_cons]
      exact hfirst.trans hrest

end SHMemora.Verified.AtomicObject
