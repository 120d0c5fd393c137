import SHMemora.Ports.Publication
import SHMemora.Ports.TableThreads

/-!
# How long a call takes

The number of accesses a call makes is bounded, whatever the calls of other
hosts do in between.

The loops of the protection table go from slot to slot until they are back at
the first one, so that their rounds do not depend on what they find.  A walk of
`gshm_upr` follows pointers that other objects write, and ends because no
pointer ever leads on from an entry (`StoreSound`).

`rank` counts the turns a thread has left in its call.

## Main results

* `table_calls_wait_free` — calls on the table with `n` slots take at most
  `2 * n + 7` turns.
* `upr_calls_wait_free` — calls of `gshm_upr` take at most seven.
-/

namespace SHMemora.Ports

open SHMemora.Verified.ByteMemory
open SHMemora.Verified.OrbitSearch
open SHMemora.Verified.StepRun
open SHMemora.Verified.ThreadPool

/-- The turns of thread `i`. -/
def turnsOf {ι α : Type} [DecidableEq ι] (i : ι) (turns : List (ι × α)) :
    Nat :=
  turns.countP fun turn => decide (turn.1 = i)

/-! ## The protection table -/

section Table

variable {ι τ : Type} {n : Nat} [NeZero n] (S : TokenScheme τ n)

/-- The slots from `i` on until a loop is back at the hash of the token. -/
def slotsLeft (shkey : τ) (i : Fin n) : Nat :=
  n - gap (S.hashFunction shkey) i

/-- The turns a call on the table has left at most. -/
def TablePhase.rank : TablePhase ι τ n → Nat
  | .idle => 0
  | .claim call i => 2 * slotsLeft S call.shkey i + 1
  | .testShkey call i => 2 * slotsLeft S call.shkey i
  | .storeShkey _ _ => 2
  | .storePentry _ _ => 1
  | .loopValid query i => 2 * slotsLeft S query.shkey i + 7
  | .loopShkey query i => 2 * slotsLeft S query.shkey i + 6
  | .finalValid _ _ => 7
  | .finalShkey _ _ => 6
  | .regionSize _ _ _ _ => 5
  | .regionOffset _ _ _ _ => 4
  | .endOffset _ _ _ _ => 3
  | .endSize _ _ _ _ _ => 2
  | .permission _ _ _ _ => 1
  | .storeValid _ _ => 1

omit [NeZero n] in
theorem slotsLeft_pos (shkey : τ) (i : Fin n) : 0 < slotsLeft S shkey i := by
  have hlt := gap_lt (S.hashFunction shkey) i
  unfold slotsLeft
  omega

theorem slotsLeft_home (shkey : τ) :
    slotsLeft S shkey (S.hashFunction shkey) = n := by
  simp [slotsLeft]

/-- A loop that goes on has one slot less in front of it. -/
theorem slotsLeft_succ {shkey : τ} {i : Fin n}
    (hgoes : i + 1 ≠ S.hashFunction shkey) :
    slotsLeft S shkey (i + 1) + 1 = slotsLeft S shkey i := by
  have hlt := gap_lt (S.hashFunction shkey) i
  have hle := gap_succ_le (S.hashFunction shkey) i
  have hlt' := gap_lt (S.hashFunction shkey) (i + 1)
  have hwalk : (· + 1)^[gap (S.hashFunction shkey) i + 1]
      (S.hashFunction shkey) = i + 1 := by
    rw [Function.iterate_succ_apply', iterate_gap]
  have hgap : gap (S.hashFunction shkey) (i + 1) =
      gap (S.hashFunction shkey) i + 1 := by
    by_cases hend : gap (S.hashFunction shkey) i + 1 < n
    · rw [← hwalk, gap_iterate hend]
    · have hfull : gap (S.hashFunction shkey) i + 1 = n := by omega
      rw [hfull] at hwalk
      refine absurd (hwalk.symm.trans (Fin.ext ?_)) hgoes
      rw [val_iterate_succ, Nat.add_mod_right,
        Nat.mod_eq_of_lt (S.hashFunction shkey).isLt]
  unfold slotsLeft
  omega

omit [NeZero n] in
theorem rank_proceed_le (query : Query ι τ) (i : Fin n) :
    (query.proceed i).rank S ≤ 5 := by
  unfold Query.proceed
  split <;> simp [TablePhase.rank]

variable [DecidableEq τ]

/-- **Step lemma**: every access of a call lowers the number of those left. -/
theorem rank_lt_of_hostAccess {phase phase' : TablePhase ι τ n}
    {σ σ' : SharedTable ι τ n} {o : TableEvent ι τ}
    (hact : hostAccess S phase σ = some (o, phase', σ')) :
    phase'.rank S < phase.rank S := by
  cases phase with
  | idle => cases hact
  | claim call i =>
      have hpos := slotsLeft_pos S call.shkey i
      simp only [hostAccess] at hact
      split at hact <;> cases hact <;> simp only [TablePhase.rank] <;> omega
  | testShkey call i =>
      have hpos := slotsLeft_pos S call.shkey i
      simp only [hostAccess] at hact
      split at hact
      · cases hact
        simp only [TablePhase.rank]
        omega
      · split at hact
        · cases hact
          simp only [TablePhase.rank]
          omega
        · rename_i hgoes
          have hless := slotsLeft_succ S hgoes
          cases hact
          simp only [TablePhase.rank]
          omega
  | loopShkey query i =>
      have hpos := slotsLeft_pos S query.shkey i
      simp only [hostAccess] at hact
      split at hact
      · split at hact
        · cases hact
          simp only [TablePhase.rank]
          omega
        · rename_i hgoes
          have hless := slotsLeft_succ S hgoes
          cases hact
          simp only [TablePhase.rank]
          omega
      · cases hact
        simp only [TablePhase.rank]
        omega
  | loopValid query i =>
      simp only [hostAccess] at hact
      have hpos := slotsLeft_pos S query.shkey i
      split at hact <;> cases hact <;> simp only [TablePhase.rank] <;> omega
  | finalValid query i =>
      have hproceed := rank_proceed_le S query i
      simp only [hostAccess] at hact
      split at hact
      · cases hact
        simp [TablePhase.rank]
      · split at hact <;> cases hact
        · simp [TablePhase.rank]
        · exact Nat.lt_of_le_of_lt hproceed (show 5 < 7 by decide)
  | finalShkey query i =>
      have hproceed := rank_proceed_le S query i
      simp only [hostAccess] at hact
      split at hact <;> cases hact
      · simp [TablePhase.rank]
      · exact Nat.lt_of_le_of_lt hproceed (show 5 < 6 by decide)
  | _ =>
      simp only [hostAccess] at hact
      repeat' split at hact
      all_goals
        cases hact
        simp [TablePhase.rank]

/-- A thread in a call can always make its next access. -/
theorem exists_hostAccess {phase : TablePhase ι τ n} (hbusy : phase ≠ .idle)
    (σ : SharedTable ι τ n) : ∃ r, hostAccess S phase σ = some r := by
  cases phase with
  | idle => exact absurd rfl hbusy
  | _ =>
      simp only [hostAccess]
      repeat' split
      all_goals exact ⟨_, rfl⟩

omit [DecidableEq τ] in
theorem rank_begin_le (op : HostCall τ) (host : ι) (σ : SharedTable ι τ n) :
    (op.begin S host σ).rank S ≤ 2 * n + 7 := by
  cases op <;> simp [HostCall.begin, TablePhase.rank, slotsLeft_home]

variable [DecidableEq ι]

/-- Whatever other hosts do to the table in between, a call returns after at
most `2 * n + 7` accesses of its own, and up to then its next access is
possible. -/
theorem table_calls_wait_free {p p' : TablePool ι τ n} {host : ι}
    {op : HostCall τ} {turns : List (ι × Option (HostCall τ))}
    {events : List (TableEvent ι τ)}
    (hcall : ∀ op', (host, some op') ∉ turns)
    (hrun : run (hostStep S) p ((host, some op) :: turns) =
      some (events, p')) :
    turnsOf host turns ≤ 2 * n + 7 ∧
      (p'.phase host ≠ .idle → turnsOf host turns < 2 * n + 7 ∧
        ∃ o p'', hostStep S p' (host, none) = some (o, p'')) := by
  obtain ⟨o, p₁, os, hstep, hrest, rfl⟩ := run_cons_eq_some_iff.mp hrun
  obtain ⟨phase, shared, hact, rfl⟩ := poolStep_eq_some_iff.mp hstep
  have hfirst : phase.rank S ≤ 2 * n + 7 := by
    cases hphase : p.phase host <;> simp only [hphase, hostTurn] at hact <;>
      cases hact
    exact rank_begin_le S op host p.shared
  have hle := run_turns_le (fun _ : TablePool ι τ n => True)
    (fun a : Option (HostCall τ) => a = none) (TablePhase.rank S) (i := host)
    (fun _ _ _ _ _ _ => trivial)
    (fun p a o phase shared _ ha hact => by
      rw [ha] at hact
      exact rank_lt_of_hostAccess S hact)
    trivial (fun a ha => by
      cases a with
      | none => rfl
      | some op' => exact absurd ha (hcall op')) hrest
  rw [Pool.advance_phase_self] at hle
  refine ⟨?_, fun hbusy => ⟨?_, ?_⟩⟩
  · unfold turnsOf
    omega
  · obtain ⟨r, hr⟩ := exists_hostAccess S hbusy p'.shared
    have hlt := rank_lt_of_hostAccess S hr
    unfold turnsOf
    omega
  · obtain ⟨r, hr⟩ := exists_hostAccess S hbusy p'.shared
    exact ⟨r.1, _, poolStep_eq_some_iff.mpr ⟨r.2.1, r.2.2, hr, rfl⟩⟩

end Table

/-- Host `true` inserts a token while host `false` looks for it. -/
theorem table_calls_wait_free_two_hosts :
    ∃ events p, run (hostStep shmpScheme) (.start (zeroTable shmpScheme))
        [(true, some (.insert 1 0 8 3)), (false, some (.access 1 1 0 8)),
          (true, none), (false, none), (true, none)] = some (events, p) ∧
      turnsOf true [(false, some (HostCall.access (1 : UInt16) 1 0 8)),
        (true, none), (false, none), (true, none)] ≤ 2 * hashTableSize + 7 ∧
      (p.phase true ≠ .idle →
        turnsOf true [(false, some (HostCall.access (1 : UInt16) 1 0 8)),
          (true, none), (false, none), (true, none)] < 2 * hashTableSize + 7 ∧
        ∃ o p', hostStep shmpScheme p (true, none) = some (o, p')) := by
  have hdone : ∃ events p,
      run (hostStep shmpScheme) (.start (zeroTable shmpScheme))
        [(true, some (.insert 1 0 8 3)), (false, some (.access 1 1 0 8)),
          (true, none), (false, none), (true, none)] = some (events, p) :=
    ⟨_, _, rfl⟩
  obtain ⟨events, p, hrun⟩ := hdone
  exact ⟨events, p, hrun,
    table_calls_wait_free shmpScheme (fun op' hmem => by simp at hmem) hrun⟩

/-! ## The stores -/

section Stores

variable {ι : Type}

/-- The turns a call of `gshm_upr` has left at most. -/
def UprPhase.rank : UprPhase → Nat
  | .idle => 0
  | .readBucket _ => 7
  | .compare _ _ _ => 6
  | .readNext _ _ => 5
  | .readValue _ _ _ => 1
  | .overwrite _ _ _ _ => 1
  | .readSuccessor _ _ _ => 2
  | .writeLink _ _ _ => 1
  | .writeKey _ => 4
  | .writeValue _ => 3
  | .writeNext _ => 2
  | .writeBucket _ => 1

theorem rank_missing_le (u : GshmUpr) (search : Search) :
    (search.missing u).2.rank ≤ 4 := by
  cases search with
  | put key value =>
      simp only [Search.missing]
      split <;> simp [UprPhase.rank]
  | _ => simp [Search.missing, UprPhase.rank]

theorem rank_begin_le_seven (u : GshmUpr) (op : UprOp) :
    (beginCall u op).2.1.rank ≤ 7 := by
  cases op with
  | insert key value =>
      simp only [beginCall, beginInsert]
      repeat' split
      all_goals simp [UprPhase.rank]
  | _ => simp [beginCall, UprPhase.rank]

/-- An object in a call can always make its next access. -/
theorem exists_uprAccess {phase : UprPhase} (hbusy : phase ≠ .idle)
    (u : GshmUpr) : ∃ r, uprAccess u phase = some r := by
  cases phase with
  | idle => exact absurd rfl hbusy
  | compare search prevNextPtr entry =>
      simp only [uprAccess]
      split <;> exact ⟨_, rfl⟩
  | _ => exact ⟨_, rfl⟩

variable [DecidableEq ι] {p p' : UprPool ι} {i : ι}

/-- **Step lemma**: every access of a call lowers the number of those left; the
one that reads a next pointer does since the pointer is zero. -/
theorem rank_lt_of_uprTurn (h : Annotated StoreSound ObjectSound p)
    {phase : UprPhase} {o : UprEvent} {σ' : UprShared ι}
    (hact : uprTurn i none (p.phase i) p.shared = some (o, phase, σ')) :
    phase.rank < (p.phase i).rank := by
  have hown := h.each i
  cases hphase : p.phase i <;> rw [hphase] at hact hown
  case readBucket search =>
    have hmissing := rank_missing_le (p.shared.seenBy i) search
    rw [uprTurn_readBucket] at hact
    cases hact
    unfold Search.visit
    split
    · exact Nat.lt_of_le_of_lt hmissing (show 4 < 7 by decide)
    · simp [UprPhase.rank]
  case compare search prevNextPtr entry =>
    rw [uprTurn_compare] at hact
    cases hact
    split
    · cases search <;> simp [Search.found, UprPhase.rank]
    · simp [UprPhase.rank]
  case readNext search entry =>
    have hmissing := rank_missing_le (p.shared.seenBy i) search
    rw [uprTurn_readNext, link_zero h.common search hown.2, Search.visit,
      if_pos rfl] at hact
    cases hact
    exact Nat.lt_of_le_of_lt hmissing (show 4 < 5 by decide)
  case idle => cases hact
  all_goals
    cases hact
    simp [UprPhase.rank]

/-- Objects on hosts of their own, from 1 on, take turns in any order, access by
access, on a data area that is zero at first.  Whatever the others do in
between, a call returns after at most seven accesses of its own, and up to then
its next access is possible. -/
theorem upr_calls_wait_free (dataAddr : ι → DataAddr)
    (mac : ι → Option UInt8) (hpos : ∀ i, 0 < getMac (mac i))
    (hinj : ∀ i j, getMac (mac i) = getMac (mac j) → i = j)
    (before : List (ι × Option UprOp)) {turns : List (ι × Option UprOp)}
    {op : UprOp} {events : List UprEvent} (hcall : ∀ op', (i, some op') ∉ turns)
    (hrun : run uprPoolStep
      (UprPool.start (.construct (fun _ => 0) dataAddr mac))
        (before ++ (i, some op) :: turns) = some (events, p')) :
    turnsOf i turns ≤ 7 ∧ (p'.phase i ≠ .idle → turnsOf i turns < 7 ∧
      ∃ o p'', uprPoolStep p' (i, none) = some (o, p'')) := by
  obtain ⟨events₀, events₁, p, hbefore, hafter, rfl⟩ :=
    run_append_eq_some hrun
  obtain ⟨o, p₁, os, hstep, hrest, rfl⟩ := run_cons_eq_some_iff.mp hafter
  have hsound := annotated_run (annotated_construct dataAddr mac hpos hinj)
    hbefore
  have hkeep : ∀ (p : UprPool ι) turn o p',
      Annotated StoreSound ObjectSound p →
      uprPoolStep p turn = some (o, p') →
      Annotated StoreSound ObjectSound p' := by
    intro p turn o p' h hstep
    obtain ⟨phase, σ', hact, rfl⟩ := poolStep_eq_some_iff.mp hstep
    exact Annotated.advance (uprTurn_sound h hact)
  have hsound₁ := hkeep p _ o p₁ hsound hstep
  obtain ⟨phase, shared, hact, rfl⟩ := poolStep_eq_some_iff.mp hstep
  have hfirst : phase.rank ≤ 7 := by
    cases hphase : p.phase i <;> simp only [hphase, uprTurn] at hact <;>
      cases hact
    exact rank_begin_le_seven _ op
  have hle := run_turns_le (Annotated StoreSound ObjectSound)
    (fun a : Option UprOp => a = none) UprPhase.rank (i := i) hkeep
    (fun p a o phase shared h ha hact => by
      rw [ha] at hact
      exact rank_lt_of_uprTurn h hact)
    hsound₁ (fun a ha => by
      cases a with
      | none => rfl
      | some op' => exact absurd ha (hcall op')) hrest
  have hsound' := annotated_run hsound₁ hrest
  rw [Pool.advance_phase_self] at hle
  refine ⟨?_, fun hbusy => ?_⟩
  · unfold turnsOf
    omega
  · obtain ⟨r, hr⟩ := exists_uprAccess hbusy (p'.shared.seenBy i)
    have hact' : uprTurn i none (p'.phase i) p'.shared = some (r.1, r.2.1,
        { p'.shared.leftBy i r.2.2 with
          written := (p'.phase i).writes ++ p'.shared.written }) := by
      rw [uprTurn, hr]
      rfl
    have hlt := rank_lt_of_uprTurn hsound' hact'
    refine ⟨?_, r.1, _, poolStep_eq_some_iff.mpr ⟨_, _, hact', rfl⟩⟩
    unfold turnsOf
    omega

end Stores

set_option maxRecDepth 4000 in
/-- Host `true` inserts a key while host `false` looks for it. -/
theorem upr_calls_wait_free_two_hosts :
    ∃ events p, run uprPoolStep
        (UprPool.start (.construct (fun _ => 0)
          (fun _ : Bool => Instance.firstHost.dataAddr) hostOneTwo))
        getDuringInsert = some (events, p) ∧
      turnsOf true getDuringInsert.tail ≤ 7 ∧
      (p.phase true ≠ .idle → turnsOf true getDuringInsert.tail < 7 ∧
        ∃ o p', uprPoolStep p (true, none) = some (o, p')) := by
  have hdone : ∃ events p, run uprPoolStep
      (UprPool.start (.construct (fun _ => 0)
        (fun _ : Bool => Instance.firstHost.dataAddr) hostOneTwo))
      getDuringInsert = some (events, p) := ⟨_, _, rfl⟩
  obtain ⟨events, p, hrun⟩ := hdone
  exact ⟨events, p, hrun, upr_calls_wait_free _ hostOneTwo
    (fun i => by cases i <;> decide)
    (fun i j => by cases i <;> cases j <;> decide)
    [] (fun op' hmem => by simp [getDuringInsert] at hmem) hrun⟩

end SHMemora.Ports
