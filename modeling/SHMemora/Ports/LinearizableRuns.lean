import SHMemora.Ports.AtomicCalls

/-!
# Linearizable runs

Runs of several `gshm_upr` objects, access by access, from the beginning on.
Deletions can undo insertions that run beside them, so that something has to
be assumed of them: that no bucket word is written while a `del` of another
object is going to write it (`SparesDeletions`).  Whether this is so depends
on the interleaving; it never happens if the callers see to it that keys of a
bucket in which one object deletes are inserted, put and deleted by no other
object (`DeletesAlone`).

## Main result

* `calls_linearizable` — runs that spare deletions are linearizable, and the
  buckets and blocks they leave behind are those of the sequential object.
-/

namespace SHMemora.Ports

open SHMemora.Verified.ByteMemory
open SHMemora.Verified.StepRun
open SHMemora.Verified.ThreadPool
open SHMemora.Verified.AtomicObject

/-! ## Callers that delete alone -/

/-- The call an object is in. -/
def UprPhase.call : UprPhase → Option UprOp
  | .idle => none
  | .readBucket search | .compare search _ _ | .readNext search _ =>
      some search.op
  | .readValue key value _ => some (.get key value)
  | .overwrite op _ _ _ => some op
  | .readSuccessor key _ _ | .writeLink key _ _ => some (.del key)
  | .writeKey filling | .writeValue filling | .writeNext filling
  | .writeBucket filling => some filling.op

/-- The call may write a bucket word. -/
def UprOp.mayRelink : UprOp → Bool
  | .insert _ _ | .put _ _ | .del _ => true
  | _ => false

/-- No other object inserts, puts or deletes keys of a bucket in which an
object deletes. -/
def DeletesAlone {ι : Type} (turns : List (ι × Option UprOp)) : Prop :=
  ∀ i key, (i, some (.del key)) ∈ turns → ∀ j op, j ≠ i →
    (j, some op) ∈ turns → op.mayRelink = true →
      entryOffset key ≠ entryOffset op.key

section Calls

variable {ι : Type} {σ σ' : UprShared ι} {i : ι} {phase phase' : UprPhase}
  {o : UprEvent} {op : Option UprOp}

theorem call_of_unlinks {m : Bytes} {key : Key}
    (h : phase.unlinks m = some key) : phase.call = some (.del key) := by
  cases phase with
  | compare search prevNextPtr entry =>
      cases search with
      | del key' =>
          simp only [UprPhase.unlinks] at h
          split at h
          · cases h
            rfl
          · cases h
      | _ => cases h
  | readSuccessor | writeLink =>
      cases h
      rfl
  | _ => cases h

theorem call_of_relinks (hsound : CallSound i phase σ) {key : Key}
    (h : phase.relinks = some key) :
    ∃ call, phase.call = some call ∧ call.mayRelink = true ∧
      call.key = key := by
  cases phase with
  | writeLink key' prevNextPtr nextEntry =>
      cases h
      exact ⟨.del key, rfl, rfl, rfl⟩
  | writeBucket filling =>
      cases h
      refine ⟨filling.op, rfl, ?_, hsound.object.1.key⟩
      rcases hsound.right with hop | hop <;> rw [hop] <;> rfl
  | _ => cases h

theorem call_of_visit (u : GshmUpr) (search : Search) (prevNextPtr entry : Nat)
    {call : UprOp}
    (h : (search.visit u prevNextPtr entry).2.call = some call) :
    call = search.op := by
  unfold Search.visit at h
  split at h
  · cases search with
    | put key value =>
        simp only [Search.missing] at h
        split at h <;> cases h
        rfl
    | _ => cases h
  · cases h
    rfl

theorem call_of_begin (u : GshmUpr) {call call' : UprOp}
    (h : (beginCall u call).2.1.call = some call') : call' = call := by
  cases call with
  | insert key value =>
      simp only [beginCall, beginInsert] at h
      repeat' split at h
      all_goals
        cases h
        try rfl
  | _ =>
      cases h
      rfl

variable [DecidableEq ι]

/-- An object is in the call it has begun. -/
theorem call_of_turn (hact : uprTurn i op phase σ = some (o, phase', σ'))
    {call : UprOp} (h : phase'.call = some call) :
    op = some call ∨ phase.call = some call := by
  rcases op_of_act hact with ⟨rfl, call', rfl⟩ | ⟨_, rfl⟩
  · cases hact
    exact .inl (congrArg some (call_of_begin _ h).symm)
  · obtain ⟨r, haccess, hr⟩ := Option.map_eq_some_iff.mp hact
    cases hr
    right
    cases phase with
    | idle => cases haccess
    | readBucket search | readNext search =>
        cases haccess
        exact congrArg some (call_of_visit _ search _ _ h).symm
    | compare search prevNextPtr entry =>
        simp only [uprAccess] at haccess
        split at haccess
        · cases haccess
          cases search <;> exact h
        · cases haccess
          exact h
    | _ =>
        cases haccess
        first | exact h | cases h

end Calls

section Runs

variable {ι : Type} [DecidableEq ι] {p p' : UprPool ι}
  {turns : List (ι × Option UprOp)} {events : List UprEvent}

/-- Runs of callers that delete alone spare deletions. -/
theorem sparesDeletions_of_alone (h : Annotated StoreSound CallSound p)
    (hidle : ∀ i, p.phase i = .idle) (halone : DeletesAlone turns) :
    AtEveryStep uprPoolStep SparesDeletions p turns := by
  have hcalls : ∀ p : UprPool ι, Annotated StoreSound CallSound p →
      (∀ j call, (p.phase j).call = some call → (j, some call) ∈ turns) →
      ∀ turn, SparesDeletions p turn := by
    intro p h hcalls turn key hrelinks j hj key' hunlinks
    obtain ⟨call, hcall, hmay, rfl⟩ :=
      call_of_relinks (h.each turn.1) hrelinks
    exact halone j key' (hcalls j _ (call_of_unlinks hunlinks)) turn.1 call
      (Ne.symm hj) (hcalls _ _ hcall) hmay
  refine atEveryStep_of_invariant
    (P := fun p => Annotated StoreSound CallSound p ∧
      ∀ j call, (p.phase j).call = some call → (j, some call) ∈ turns)
    (R := fun turn => turn ∈ turns)
    (fun p turn hp _ => hcalls p hp.1 hp.2 turn)
    (fun p turn o p' hp hmem hspares hstep => ?_)
    ⟨h, fun j call hcall => by simp [hidle j, UprPhase.call] at hcall⟩
    fun _ hmem => hmem
  obtain ⟨phase, σ', hact, rfl⟩ := poolStep_eq_some_iff.mp hstep
  refine ⟨Annotated.advance (turn_callSound hp.1 hspares hact),
    fun j call hcall => ?_⟩
  by_cases hj : j = turn.1
  · rw [hj, Pool.advance_phase_self] at hcall
    rcases call_of_turn hact hcall with hop | hwas
    · rw [hj, ← hop]
      exact hmem
    · rw [hj]
      exact hp.2 turn.1 call hwas
  · rw [Pool.advance_phase_of_ne p hj] at hcall
    exact hp.2 j call hcall

/-- **Run lemma**: the buckets of a run whose deletions are not disturbed. -/
theorem linearizable_of_undisturbed
    (h : Annotated StoreSound CallSound p) (hidle : ∀ i, p.phase i = .idle)
    (hspares : AtEveryStep uprPoolStep SparesDeletions p turns)
    (hrun : run uprPoolStep p turns = some (events, p')) :
    ∃ status, Exec Buckets.Serves ⟨storedBuckets p.shared, fun _ => .idle⟩
      (history turns events) ⟨storedBuckets p'.shared, status⟩ := by
  have hend : LateSound p' fun _ => [] :=
    ⟨fun e hne => absurd rfl hne, fun _ => List.nodup_nil,
      fun _ _ hx => absurd hx List.not_mem_nil, fun _ => ⟨_, .done _⟩⟩
  obtain ⟨c, ⟨late, hlate, rfl⟩, hexec⟩ := exec_of_run
    (Annotated StoreSound CallSound)
    (fun p c => ∃ late, LateSound p late ∧ c = explained p late) seen
    (fun p turn o p' h hspares hstep => by
      obtain ⟨phase, σ', hact, rfl⟩ := poolStep_eq_some_iff.mp hstep
      exact Annotated.advance (turn_callSound h hspares hact))
    (fun p turn o p' c' h _ hstep hc' => by
      obtain ⟨phase, σ', hact, rfl⟩ := poolStep_eq_some_iff.mp hstep
      obtain ⟨late', hlate', rfl⟩ := hc'
      obtain ⟨late, hlate, hexec⟩ := explain_turn h hact hlate'
      exact ⟨_, ⟨late, hlate, rfl⟩, hexec⟩)
    h hspares hrun ⟨_, hend, rfl⟩
  refine ⟨(explained p' fun _ => []).status, ?_⟩
  have hstart : explained p late = ⟨storedBuckets p.shared, fun _ => .idle⟩ :=
    Object.ext rfl (funext fun i => by simp [explained, hidle i, statusOf])
  rw [← hstart]
  exact hexec

/-! ## From the beginning on -/

omit [DecidableEq ι] in
theorem callSound_construct (dataAddr : ι → DataAddr)
    (mac : ι → Option UInt8) (hpos : ∀ i, 0 < getMac (mac i))
    (hinj : ∀ i j, getMac (mac i) = getMac (mac j) → i = j) :
    Annotated StoreSound CallSound
      (UprPool.start (.construct (fun _ => 0) dataAddr mac)) :=
  ⟨(annotated_construct dataAddr mac hpos hinj).common,
    fun _ => ⟨trivial, trivial, trivial⟩⟩

omit [DecidableEq ι] in
/-- Nothing is stored, and all blocks are left. -/
theorem storedBuckets_construct (dataAddr : ι → DataAddr)
    (mac : ι → Option UInt8) (hpos : ∀ i, 0 < getMac (mac i))
    (hinj : ∀ i j, getMac (mac i) = getMac (mac j) → i = j) :
    storedBuckets (UprPool.start (.construct (fun _ => 0) dataAddr mac)).shared
      = .empty (2 ^ 30 / 328) := by
  have hhosts := (annotated_construct dataAddr mac hpos hinj).common.hosts
  refine Buckets.ext (funext fun b => ?_) (funext fun i => ?_)
  · show cellAt (fun _ => 0) b = none
    exact if_pos rfl
  · have hend := (hhosts.place i).2.2.2.1
    show ((Instance.construct (dataAddr i) (mac i)).partitionEnd -
      (Instance.construct (dataAddr i) (mac i)).partitionStart) / 328 =
        2 ^ 30 / 328
    rw [show (Instance.construct (dataAddr i) (mac i)).partitionEnd =
      (Instance.construct (dataAddr i) (mac i)).partitionStart + 2 ^ 30 from
        hend, Nat.add_sub_cancel_left]

/-- Objects on hosts of their own, from 1 on, work on a data area that is zero
at first.  They take turns in any order, access by access, such that no bucket
word is written while a `del` of another object is going to write it.  Then the
invocations and responses are those of an object that serves one call at a
time, and what its buckets hold in the end is what is stored. -/
theorem calls_linearizable (dataAddr : ι → DataAddr)
    (mac : ι → Option UInt8) (hpos : ∀ i, 0 < getMac (mac i))
    (hinj : ∀ i j, getMac (mac i) = getMac (mac j) → i = j)
    (hspares : AtEveryStep uprPoolStep SparesDeletions
      (UprPool.start (.construct (fun _ => 0) dataAddr mac)) turns)
    (hrun : run uprPoolStep
      (UprPool.start (.construct (fun _ => 0) dataAddr mac)) turns =
        some (events, p)) :
    ∃ status, Exec Buckets.Serves
      ⟨.empty (2 ^ 30 / 328), fun _ => .idle⟩ (history turns events)
      ⟨storedBuckets p.shared, status⟩ := by
  have hexec := linearizable_of_undisturbed
    (callSound_construct dataAddr mac hpos hinj) (fun _ => rfl) hspares hrun
  rw [storedBuckets_construct dataAddr mac hpos hinj] at hexec
  exact hexec

end Runs

/-! ## Two hosts -/

/-- Host `true` inserts a key and begins to delete it, while host `false` looks
for it; both have been led to the entry. -/
def getDuringDelete : List (Bool × Option UprOp) :=
  [(true, some (.insert (fun _ => 7) fun _ => 1)), (true, none), (true, none),
    (true, none), (true, none), (true, some (.del fun _ => 7)),
    (false, some (.get (fun _ => 7) fun _ => 0)), (true, none),
    (false, none)]

set_option maxRecDepth 4000 in
theorem calls_linearizable_during_delete :
    ∃ events p, run uprPoolStep
        (UprPool.start (.construct (fun _ => 0)
          (fun _ : Bool => Instance.firstHost.dataAddr) hostOneTwo))
        getDuringDelete = some (events, p) ∧
      ∃ status, Exec Buckets.Serves
        ⟨.empty (2 ^ 30 / 328), fun _ => .idle⟩
        (history getDuringDelete events)
        ⟨storedBuckets p.shared, status⟩ := by
  have hpos : ∀ i, 0 < getMac (hostOneTwo i) := fun i => by
    cases i <;> decide
  have hinj : ∀ i j, getMac (hostOneTwo i) = getMac (hostOneTwo j) → i = j :=
    fun i j => by cases i <;> cases j <;> decide
  have halone : DeletesAlone getDuringDelete := by
    intro i key hdel j op hne hcall hmay
    simp only [getDuringDelete, List.mem_cons, Prod.mk.injEq,
      List.not_mem_nil, or_false, Option.some.injEq, reduceCtorEq, and_false,
      false_or, UprOp.del.injEq] at hdel hcall
    obtain ⟨rfl, -⟩ := hdel
    rcases hcall with ⟨rfl, -⟩ | ⟨rfl, -⟩ | ⟨rfl, rfl⟩
    · exact absurd rfl hne
    · exact absurd rfl hne
    · cases hmay
  have hdone : ∃ events p, run uprPoolStep
      (UprPool.start (.construct (fun _ => 0)
        (fun _ : Bool => Instance.firstHost.dataAddr) hostOneTwo))
      getDuringDelete = some (events, p) := ⟨_, _, rfl⟩
  obtain ⟨events, p, hrun⟩ := hdone
  exact ⟨events, p, hrun, calls_linearizable _ hostOneTwo hpos hinj
    (sparesDeletions_of_alone (callSound_construct _ hostOneTwo hpos hinj)
      (fun _ => rfl) halone) hrun⟩

end SHMemora.Ports
