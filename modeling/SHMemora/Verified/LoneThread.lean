import SHMemora.Verified.ThreadPool

/-!
# A thread that runs alone

`Leads` says where the turns of a thread lead between the beginning of a call
and its result.  Here this is read backwards: if every call that a thread can
begin leads to the result it has as a whole, then any run in which only this
thread takes turns, wherever it stops, has made whole calls up to a last one
that may be under way.
-/

namespace SHMemora.Verified.ThreadPool

open SHMemora.Verified.StepRun

section LoneThread

variable {σ ι φ α ω κ β υ : Type*} [DecidableEq ι]
  {act : ι → α → φ → σ → Option (ω × φ × σ)}
  {call : κ → β → Option (υ × κ)} {R : σ → κ → Prop} {begins : α → Option β}
  {shows : ω → Option υ} {i : ι} {cont : α} {rest : φ} {quiet : ω}

variable (act call R shows i cont rest quiet) in
/-- A thread between two turns, with the calls that are under way: it rests, or
its next turns lead to the result of its call. -/
inductive LoneThread (p : Pool σ ι φ) (c : κ) : List β → Prop
  | rests (hrest : p.phase i = rest) (hR : R p.shared c) : LoneThread p c []
  | calls {b : β} {result : υ} {c' : κ} {o : ω} {s : σ}
      (hcall : call c b = some (result, c')) (hshows : shows o = some result)
      (hleads : Leads (act i cont) quiet (quiet, p.phase i, p.shared)
        (o, rest, s)) (hR : R s c') : LoneThread p c [b]

omit [DecidableEq ι] in
theorem Leads.turn_of_quiet {turn : φ → σ → Option (ω × φ × σ)} {phase : φ}
    {s : σ} {r : ω × φ × σ} (h : Leads turn quiet (quiet, phase, s) r) :
    ∃ r₁, turn phase s = some r₁ ∧ Leads turn quiet r₁ r := by
  cases h with
  | shown hshows => exact absurd rfl hshows
  | next hturn hrest => exact ⟨_, hturn, hrest⟩

omit [DecidableEq ι] in
theorem Leads.eq_of_shows {turn : φ → σ → Option (ω × φ × σ)}
    {r r' : ω × φ × σ} (h : Leads turn quiet r r') (hshows : r.1 ≠ quiet) :
    r' = r := by
  cases h with
  | shown => rfl
  | next => exact absurd rfl hshows

variable (hcont : ∀ a, begins a = none → a = cont)
  (hquiet : shows quiet = none)
  (hrest : ∀ s, act i cont rest s = none)
  (hbusy : ∀ a b phase s r, begins a = some b →
    act i a phase s = some r → phase = rest)
  (hbegin : ∀ s c a b r, R s c → begins a = some b →
    act i a rest s = some r → r.1 = quiet ∧
      ∃ result c' o s', call c b = some (result, c') ∧
        shows o = some result ∧ Leads (act i cont) quiet r (o, rest, s') ∧
        R s' c')
include hcont hquiet hrest hbusy hbegin

/-- **Run lemma**: the turns of a thread that runs alone make whole calls, up to
a last one that is under way. -/
theorem run_loneThread {p p' : Pool σ ι φ} {c : κ} {pending : List β}
    {turns : List (ι × α)} {os : List ω}
    (h : LoneThread act call R shows i cont rest quiet p c pending)
    (halone : ∀ turn ∈ turns, turn.1 = i)
    (hrun : run (poolStep act) p turns = some (os, p')) :
    ∃ c', run call c ((pending ++ turns.filterMap fun turn =>
          begins turn.2).take (os.filterMap shows).length) =
        some (os.filterMap shows, c') ∧
      (pending ++ turns.filterMap fun turn => begins turn.2).length ≤
        (os.filterMap shows).length + 1 ∧
      (p'.phase i = rest →
        (pending ++ turns.filterMap fun turn => begins turn.2).length =
          (os.filterMap shows).length ∧ R p'.shared c') := by
  induction turns generalizing p c pending os with
  | nil =>
      cases hrun
      refine ⟨c, by simp [run], ?_, fun hphase => ?_⟩
      · cases h <;> simp
      · cases h with
        | rests _ hR => exact ⟨rfl, hR⟩
        | calls _ _ hleads =>
            obtain ⟨r, hturn, -⟩ := hleads.turn_of_quiet
            rw [hphase, hrest] at hturn
            cases hturn
  | cons turn turns ih =>
      obtain ⟨o, p₁, os, hstep, hrun, rfl⟩ := run_cons_eq_some_iff.mp hrun
      obtain ⟨phase, s, hact, rfl⟩ := poolStep_eq_some_iff.mp hstep
      obtain ⟨j, a⟩ := turn
      obtain rfl : j = i := halone _ List.mem_cons_self
      replace ih := @ih (p.advance j phase s)
      replace halone : ∀ turn ∈ turns, turn.1 = j := fun turn hmem =>
        halone turn (List.mem_cons_of_mem _ hmem)
      cases h with
      | rests hphase hR =>
          simp only [hphase] at hact
          cases hbegins : begins a with
          | none =>
              rw [hcont a hbegins, hrest] at hact
              cases hact
          | some b =>
              obtain ⟨ho, result, c', o', s', hcall, hshows, hleads, hR'⟩ :=
                hbegin _ _ _ _ _ hR hbegins hact
              obtain rfl : o = quiet := ho
              have hnext : LoneThread act call R shows j cont rest o
                  (p.advance j phase s) c [b] := by
                refine .calls hcall hshows ?_ hR'
                rw [Pool.advance_phase_self, Pool.advance_shared]
                exact hleads
              simpa only [List.filterMap_cons, hbegins, hquiet, List.nil_append,
                List.singleton_append] using ih hnext halone hrun
      | @calls b result c' o' s' hcall hshows hleads hR =>
          obtain ⟨r, hturn, hleads⟩ := hleads.turn_of_quiet
          cases hbegins : begins a with
          | some b' =>
              rw [hbusy _ _ _ _ _ hbegins hact, hrest] at hturn
              cases hturn
          | none =>
              obtain rfl := hcont a hbegins
              cases hact.symm.trans hturn
              by_cases ho : o = quiet
              · subst ho
                have hnext : LoneThread act call R shows j a rest o
                    (p.advance j phase s) c [b] := by
                  refine .calls hcall hshows ?_ hR
                  rw [Pool.advance_phase_self, Pool.advance_shared]
                  exact hleads
                simpa only [List.filterMap_cons, hbegins, hquiet]
                  using ih hnext halone hrun
              · -- The call returns, and the thread rests.
                cases hleads.eq_of_shows ho
                have hnext : LoneThread act call R shows j a rest quiet
                    (p.advance j rest s) c' [] :=
                  .rests (Pool.advance_phase_self ..) hR
                obtain ⟨c'', hcalls, hle, hend⟩ := ih hnext halone hrun
                refine ⟨c'', ?_, ?_, fun hphase => ?_⟩
                · simp only [List.filterMap_cons, hbegins, hshows,
                    List.singleton_append, List.length_cons,
                    List.take_succ_cons]
                  exact run_cons_eq_some_iff.mpr
                    ⟨_, _, _, hcall, hcalls, rfl⟩
                · simpa [List.filterMap_cons, hbegins, hshows] using hle
                · simpa [List.filterMap_cons, hbegins, hshows] using hend hphase

end LoneThread

end SHMemora.Verified.ThreadPool
