import SHMemora.Ports.UndisturbedDeletions

/-!
# Interleaved calls take effect at once

The calls of several `gshm_upr` objects on hosts of their own, access by
access, against the object of `BucketObject` that serves one call at a time.

An insertion takes effect with its bucket write.  A call that looks for a key
is bound to miss, or to work on the entry it is led to, from its first access
on.  Such an entry can be replaced while the call goes on working on it; the
call then took effect just before the replacement, in the order in which it
and others get to the value afterwards.  `late` lists these effects for each
replaced entry, and states are explained backwards, since what a `get` of a
replaced entry delivers is settled later than its effect.

## Main result

* `explain_turn` — the state before a turn that spares deletions is explained
  by the object, given an explanation of the state behind it.
-/

namespace SHMemora.Ports

open SHMemora.Verified.ByteMemory
open SHMemora.Verified.ThreadPool
open SHMemora.Verified.AtomicObject

/-! ## Where a call is -/

/-- The effects on an entry that come after it has been replaced. -/
abbrev LateEffects (ι : Type) := List (ι × UprOp × Reply)

/-- A call that finds an entry with its key, and the entry. -/
def UprPhase.worksOn (m : Bytes) : UprPhase → Option (UprOp × Nat)
  | .compare search _ entry =>
      if keyAt m entry = search.key then some (search.op, entry) else none
  | .readValue key value entry => some (.get key value, entry)
  | .overwrite op _ _ entry => some (op, entry)
  | _ => none

/-- A call that does not find its key; `put` goes on to insert it. -/
def Search.missed (obj : Instance) : Search → Status UprOp Reply
  | .get key value => .done (.get key value) (.fetched false value)
  | .update key value => .done (.update key value) (.answer false)
  | .del key => .done (.del key) (.answer false)
  | .put key value =>
      if HasRoom obj then .pending (.put key value)
      else .done (.put key value) (.answer false)

/-- A step of the same value: what a call does to an entry with its key. -/
def Rewrites {ι : Type} (key : Key) (v : Value) (_ : ι) (op : UprOp)
    (reply : Reply) (v' : Value) : Prop :=
  op.key = key ∧ ∀ n, CellEffect (some (key, v)) n op reply (some (key, v')) n

section Explanation

variable {ι : Type} [DecidableEq ι]

/-- A call on an entry has taken effect if it is late. -/
def held (late : LateEffects ι) (i : ι) (op : UprOp) : Status UprOp Reply :=
  match late.find? fun x => decide (x.1 = i) with
  | some x => .done x.2.1 x.2.2
  | none => .pending op

/-- Whether the call of object `i` has taken effect. -/
def statusOf (σ : UprShared ι) (late : Nat → LateEffects ι) (i : ι) :
    UprPhase → Status UprOp Reply
  | .idle => .idle
  | .readBucket search => .pending search.op
  | .compare search _ entry =>
      if keyAt σ.data entry = search.key then held (late entry) i search.op
      else search.missed (σ.members i)
  | .readNext search _ => search.missed (σ.members i)
  | .readValue key value entry => held (late entry) i (.get key value)
  | .overwrite op _ _ entry => held (late entry) i op
  | .readSuccessor key _ _ => .pending (.del key)
  | .writeLink key _ _ => .pending (.del key)
  | .writeKey filling => .pending filling.op
  | .writeValue filling => .pending filling.op
  | .writeNext filling => .pending filling.op
  | .writeBucket filling => .pending filling.op

/-- The state of the object that explains a state of the stores. -/
def explained (p : UprPool ι) (late : Nat → LateEffects ι) :
    Object (Buckets ι) ι UprOp Reply where
  state := storedBuckets p.shared
  status := fun i => statusOf p.shared late i (p.phase i)

omit [DecidableEq ι] in
/-- Late effects are on replaced entries, of calls that are working on
them. -/
structure LateSound (p : UprPool ι) (late : Nat → LateEffects ι) : Prop where
  replaced : ∀ e, late e ≠ [] → Allocated p.shared.members e ∧
    bucket p.shared.data (keyAt p.shared.data e) ≠ e
  nodup : ∀ e, ((late e).map Prod.fst).Nodup
  working : ∀ e, ∀ x ∈ late e,
    (p.phase x.1).worksOn p.shared.data = some (x.2.1, e)
  plays : ∀ e, ∃ v, Plays (Rewrites (keyAt p.shared.data e))
    (storedValue p.shared.data 256 e) (late e) v

/-- What is seen of a turn. -/
def seen (turn : ι × Option UprOp) (event : UprEvent) :
    List (Event ι UprOp Reply) :=
  (match turn.2 with
    | some op => [.invoke turn.1 op]
    | none => []) ++
  match event with
  | .quiet => []
  | .returned _ reply => [.respond turn.1 reply]

/-- The invocations and responses of a run. -/
def history (turns : List (ι × Option UprOp)) (events : List UprEvent) :
    List (Event ι UprOp Reply) :=
  (turns.zip events).flatMap fun x => seen x.1 x.2

/-! ## Statuses -/

@[simp] theorem held_nil (i : ι) (op : UprOp) :
    held [] i op = .pending op := rfl

@[simp] theorem held_cons_self (i : ι) (op op' : UprOp) (reply : Reply)
    (late : LateEffects ι) :
    held ((i, op, reply) :: late) i op' = .done op reply := by
  simp [held]

theorem held_cons_of_ne {i j : ι} (hne : i ≠ j) (op op' : UprOp)
    (reply : Reply) (late : LateEffects ι) :
    held ((i, op, reply) :: late) j op' = held late j op' := by
  simp [held, hne]

theorem held_of_not_mem {late : LateEffects ι} {i : ι}
    (h : i ∉ late.map Prod.fst) (op : UprOp) :
    held late i op = .pending op := by
  induction late with
  | nil => rfl
  | cons x late ih =>
      simp only [List.map_cons, List.mem_cons, not_or] at h
      rw [held_cons_of_ne (Ne.symm h.1), ih h.2]

theorem held_of_mem {late : LateEffects ι} (hnodup : (late.map Prod.fst).Nodup)
    {x : ι × UprOp × Reply} (hx : x ∈ late) (op : UprOp) :
    held late x.1 op = .done x.2.1 x.2.2 := by
  induction late with
  | nil => cases hx
  | cons y late ih =>
      rw [List.map_cons, List.nodup_cons] at hnodup
      rcases List.mem_cons.mp hx with rfl | hmem
      · exact held_cons_self ..
      · have hne : y.1 ≠ x.1 := fun heq =>
          hnodup.1 (heq ▸ List.mem_map.mpr ⟨x, hmem, rfl⟩)
        rw [held_cons_of_ne hne, ih hnodup.2 hmem]

variable {p : UprPool ι} {σ σ' : UprShared ι} {late late' : Nat → LateEffects ι}
  {i : ι} {phase : UprPhase} {o : UprEvent} {op : Option UprOp}

/-- What the status of a call depends on. -/
theorem statusOf_congr (hobject : ObjectSound i phase σ)
    (hkeys : ∀ e, Allocated σ.members e → keyAt σ'.data e = keyAt σ.data e)
    (hmember : σ'.members i = σ.members i)
    (hlate : ∀ call e, phase.worksOn σ.data = some (call, e) →
      held (late' e) i call = held (late e) i call) :
    statusOf σ' late' i phase = statusOf σ late i phase := by
  cases phase with
  | compare search prevNextPtr entry =>
      simp only [statusOf, hkeys entry hobject.2.2, hmember]
      split
      · rename_i hkey
        exact hlate _ _ (by simp [UprPhase.worksOn, hkey])
      · rfl
  | readNext search entry => simp only [statusOf, hmember]
  | readValue key value entry => exact hlate _ _ rfl
  | overwrite call value size entry => exact hlate _ _ rfl
  | _ => rfl

omit [DecidableEq ι] in
theorem worksOn_congr (hobject : ObjectSound i phase σ)
    (hkeys : ∀ e, Allocated σ.members e → keyAt σ'.data e = keyAt σ.data e) :
    phase.worksOn σ'.data = phase.worksOn σ.data := by
  cases phase with
  | compare search prevNextPtr entry =>
      simp only [UprPhase.worksOn, hkeys entry hobject.2.2]
  | _ => rfl

omit [DecidableEq ι] in
/-- A call works on an entry that has its key. -/
theorem worksOn_spec (hobject : ObjectSound i phase σ) {call : UprOp} {e : Nat}
    (hworks : phase.worksOn σ.data = some (call, e)) :
    Allocated σ.members e ∧ keyAt σ.data e = call.key := by
  cases phase with
  | compare search prevNextPtr entry =>
      simp only [UprPhase.worksOn] at hworks
      split at hworks
      · rename_i hkey
        cases hworks
        refine ⟨hobject.2.2, hkey.trans ?_⟩
        cases search <;> rfl
      · cases hworks
  | readValue key value entry =>
      cases hworks
      exact hobject
  | overwrite call value size entry =>
      cases hworks
      exact hobject.2.2.2
  | _ => cases hworks

theorem statusOf_of_worksOn {call : UprOp} {e : Nat}
    (hworks : phase.worksOn σ.data = some (call, e)) :
    statusOf σ late i phase = held (late e) i call := by
  cases phase with
  | compare search prevNextPtr entry =>
      simp only [UprPhase.worksOn] at hworks
      split at hworks
      · rename_i hkey
        cases hworks
        simp [statusOf, hkey]
      · cases hworks
  | readValue key value entry => cases hworks; rfl
  | overwrite call value size entry => cases hworks; rfl
  | _ => cases hworks

/-! ## The end of a walk -/

omit [DecidableEq ι] in
/-- What happens behind a walk that has found nothing: the call is over, or it
goes on as an insertion. -/
theorem missing_spec (hσ : StoreSound σ) (search : Search) :
    (∃ reply, search.missing (σ.seenBy i) =
        (.returned search.op reply, .idle) ∧
      search.missed (σ.members i) = .done search.op reply ∧
      ∀ cell : Cell, cell.Lacks search.key →
        CellEffect cell (blocksLeft (σ.members i)) search.op reply cell
          (blocksLeft (σ.members i))) ∨
    ∃ filling : Filling, search.missing (σ.seenBy i) =
        (.quiet, .writeKey filling) ∧ filling.op = search.op ∧
      search.missed (σ.members i) = .pending search.op := by
  cases search with
  | get key value =>
      exact .inl ⟨_, rfl, rfl, fun _ hlacks => .getMissing hlacks ..⟩
  | update key value =>
      exact .inl ⟨_, rfl, rfl, fun _ hlacks => .updateMissing hlacks ..⟩
  | del key =>
      exact .inl ⟨_, rfl, rfl, fun _ hlacks => .delMissing hlacks ..⟩
  | put key value =>
      have hplain := hσ.hosts.plain i
      have hsize := hσ.hosts.size i
      have hsizes := hplain.sizes
      have hfull := hplain.full_iff
      rw [show (σ.members i).entrySize = 328 by omega] at hfull
      by_cases hroom : HasRoom (σ.members i)
      · refine .inr ⟨_, if_neg fun hover => hfull.mp hover hroom, rfl, ?_⟩
        simp [Search.missed, hroom, Search.op]
      · have hleft := mt (hasRoom_iff_blocksLeft hplain hsize).mpr hroom
        rw [not_not] at hleft
        refine .inl ⟨_, if_pos (hfull.mpr hroom), ?_, fun _ hlacks => ?_⟩
        · simp [Search.missed, hroom, Search.op]
        · rw [hleft]
          exact .putFull hlacks value

/-! ## One turn back -/

/-- The other objects do not change. -/
theorem members_of_ne (h : Annotated StoreSound CallSound p)
    (hact : uprTurn i op (p.phase i) p.shared = some (o, phase, σ')) {j : ι}
    (hj : j ≠ i) : σ'.members j = p.shared.members j := by
  have hobjects := objects_annotated h
  by_cases hcommits : (p.phase i).commits
  · rcases op_of_act hact with ⟨hidle, _⟩ | ⟨_, rfl⟩
    · rw [hidle] at hcommits
      exact hcommits.elim
    · cases hphase : p.phase i
      case overwrite call value size entry =>
        obtain ⟨_, _, rfl⟩ := overwrite_act hobjects hphase hact
        rfl
      case writeLink key prevNextPtr nextEntry =>
        obtain ⟨_, _, rfl⟩ := writeLink_act hobjects hphase hact
        rfl
      case writeBucket filling =>
        obtain ⟨_, _, rfl⟩ := writeBucket_act hobjects hphase hact
        exact Function.update_of_ne hj ..
      all_goals
        rw [hphase] at hcommits
        exact hcommits.elim
  · rw [(turn_sameEntries hobjects hcommits hact).2]

/-- The explanation of the state behind a turn. -/
theorem explained_advance (h : Annotated StoreSound CallSound p)
    (hact : uprTurn i op (p.phase i) p.shared = some (o, phase, σ'))
    (hlate : ∀ j, j ≠ i → ∀ call e,
      (p.phase j).worksOn p.shared.data = some (call, e) →
        held (late' e) j call = held (late e) j call) :
    explained (p.advance i phase σ') late' =
      ⟨storedBuckets σ', Function.update (explained p late).status i
        (statusOf σ' late' i phase)⟩ := by
  have hkeeps := turn_keepsWords (objects_annotated h) hact
  refine Object.ext rfl (funext fun j => ?_)
  show statusOf σ' late' j ((p.advance i phase σ').phase j) =
    Function.update (explained p late).status i _ j
  by_cases hj : j = i
  · simp [hj]
  · rw [Function.update_of_ne hj, Pool.advance_phase_of_ne p hj]
    exact statusOf_congr (h.each j).object hkeeps.keys (members_of_ne h hact hj)
      (hlate j hj)

omit [DecidableEq ι] in
/-- Calls working on an entry before a turn and behind it. -/
theorem worksOn_before [DecidableEq ι] (h : Annotated StoreSound CallSound p)
    (hkeys : ∀ e, Allocated p.shared.members e →
      keyAt σ'.data e = keyAt p.shared.data e) {j : ι} (hj : j ≠ i) :
    ((p.advance i phase σ').phase j).worksOn σ'.data =
      (p.phase j).worksOn p.shared.data := by
  rw [Pool.advance_phase_of_ne p hj]
  exact worksOn_congr (h.each j).object hkeys

/-- Late effects stay late effects one turn earlier, as long as no word
changes. -/
theorem LateSound.back (h : Annotated StoreSound CallSound p)
    (hlate : LateSound (p.advance i phase σ') late)
    (hbuckets : ∀ key, bucket σ'.data key = bucket p.shared.data key)
    (hkeys : ∀ e, Allocated p.shared.members e →
      keyAt σ'.data e = keyAt p.shared.data e)
    (hmembers : σ'.members = p.shared.members)
    (hvalues : ∀ e, late e ≠ [] →
      storedValue σ'.data 256 e = storedValue p.shared.data 256 e)
    (hworks : ∀ call e, bucket p.shared.data (keyAt p.shared.data e) ≠ e →
      phase.worksOn σ'.data = some (call, e) →
        (p.phase i).worksOn p.shared.data = some (call, e)) :
    LateSound p late := by
  have halloc : ∀ e, late e ≠ [] → Allocated p.shared.members e := by
    intro e hne
    rw [← hmembers]
    exact (hlate.replaced e hne).1
  have hreplaced : ∀ e, late e ≠ [] →
      bucket p.shared.data (keyAt p.shared.data e) ≠ e := by
    intro e hne
    have hword : bucket σ'.data (keyAt σ'.data e) ≠ e :=
      (hlate.replaced e hne).2
    rw [hkeys e (halloc e hne), hbuckets] at hword
    exact hword
  refine ⟨fun e hne => ⟨halloc e hne, hreplaced e hne⟩, hlate.nodup,
    fun e x hx => ?_, fun e => ?_⟩
  · have hwas : ((p.advance i phase σ').phase x.1).worksOn σ'.data =
        some (x.2.1, e) := hlate.working e x hx
    by_cases hxi : x.1 = i
    · rw [hxi, Pool.advance_phase_self] at hwas
      rw [hxi]
      exact hworks _ e (hreplaced e (List.ne_nil_of_mem hx)) hwas
    · rwa [worksOn_before h hkeys hxi] at hwas
  · by_cases hnil : late e = []
    · rw [hnil]
      exact ⟨_, .done _⟩
    · obtain ⟨v, hplays⟩ := hlate.plays e
      have hkey : keyAt σ'.data e = keyAt p.shared.data e :=
        hkeys e (halloc e hnil)
      have hvalue := hvalues e hnil
      simp only [Pool.advance_shared, hkey, hvalue] at hplays
      exact ⟨v, hplays⟩

/-- The state before a turn can be explained, too. -/
def Explains (p : UprPool ι) (i : ι) (op : Option UprOp) (o : UprEvent)
    (phase : UprPhase) (σ' : UprShared ι) (late' : Nat → LateEffects ι) :
    Prop :=
  ∃ late, LateSound p late ∧ Exec Buckets.Serves (explained p late)
    (seen (i, op) o) (explained (p.advance i phase σ') late')

/-- A turn that leaves the entries as they are. -/
theorem quiet_turn (h : Annotated StoreSound CallSound p)
    (hquiet : ¬ (p.phase i).commits)
    (hact : uprTurn i op (p.phase i) p.shared = some (o, phase, σ'))
    (hlate : LateSound (p.advance i phase σ') late)
    (hworks : ∀ call e, bucket p.shared.data (keyAt p.shared.data e) ≠ e →
      phase.worksOn σ'.data = some (call, e) →
        (p.phase i).worksOn p.shared.data = some (call, e))
    (hexec : Exec Buckets.Serves (explained p late) (seen (i, op) o)
      ⟨storedBuckets p.shared, Function.update (explained p late).status i
        (statusOf σ' late i phase)⟩) :
    Explains p i op o phase σ' late := by
  obtain ⟨hsame, hmembers⟩ :=
    turn_sameEntries (objects_annotated h) hquiet hact
  have hkeys : ∀ e, Allocated p.shared.members e →
      keyAt σ'.data e = keyAt p.shared.data e :=
    fun e he => hsame.keys h.common he
  refine ⟨late, hlate.back h hsame.buckets hkeys hmembers (fun e hne => ?_)
    hworks, ?_⟩
  · have halloc := (hlate.replaced e hne).1
    rw [Pool.advance_shared, hmembers] at halloc
    exact storedValue_congr ((hsame.entries e halloc).mono (Nat.le_refl _)
      (by omega))
  · rw [explained_advance h hact fun _ _ _ _ _ => rfl,
      hsame.buckets_eq h.common hmembers]
    exact hexec

/-- A quiet turn during which the call does not take effect. -/
theorem silent_turn (h : Annotated StoreSound CallSound p)
    (hquiet : ¬ (p.phase i).commits)
    (hact : uprTurn i none (p.phase i) p.shared = some (.quiet, phase, σ'))
    (hlate : LateSound (p.advance i phase σ') late)
    (hworks : ∀ call e, bucket p.shared.data (keyAt p.shared.data e) ≠ e →
      phase.worksOn σ'.data = some (call, e) →
        (p.phase i).worksOn p.shared.data = some (call, e))
    (hstatus : statusOf σ' late i phase =
      statusOf p.shared late i (p.phase i)) :
    Explains p i none .quiet phase σ' late := by
  refine quiet_turn h hquiet hact hlate hworks ?_
  have hsame : Function.update (explained p late).status i
      (statusOf σ' late i phase) = (explained p late).status := by
    rw [hstatus]
    exact Function.update_eq_self i _
  rw [hsame]
  exact .done _

/-! ### Turns that change nothing -/

variable (h : Annotated StoreSound CallSound p)
include h

theorem explain_begin {call : UprOp} (hidle : p.phase i = .idle)
    (hact : uprTurn i (some call) (p.phase i) p.shared = some (o, phase, σ'))
    (hlate : LateSound (p.advance i phase σ') late) :
    Explains p i (some call) o phase σ' late := by
  have hplain := h.common.hosts.plain i
  have hsize := h.common.hosts.size i
  have hquiet : ¬ (p.phase i).commits := by
    rw [hidle]
    exact id
  have hstatus : (explained p late).status i = .idle := by
    simp [explained, hidle, statusOf]
  have hbegin : Exec Buckets.Serves (explained p late) [.invoke i call]
      ⟨storedBuckets p.shared, Function.update (explained p late).status i
        (.pending call)⟩ := Exec.begin hstatus call
  have hsearch : ∀ search : Search, call = search.op →
      Explains p i (some call) o phase σ' late := by
    intro search heq
    rw [hidle, heq, uprTurn_begin] at hact
    cases hact
    refine quiet_turn h hquiet (by rw [hidle, heq, uprTurn_begin]) hlate
      (fun _ _ _ hworks => by cases hworks) ?_
    rw [heq] at hbegin ⊢
    exact hbegin
  cases call with
  | get key value => exact hsearch (.get key value) rfl
  | update key value => exact hsearch (.update key value) rfl
  | put key value => exact hsearch (.put key value) rfl
  | del key => exact hsearch (.del key) rfl
  | insert key value =>
      by_cases hroom : HasRoom (p.shared.members i)
      · have hturn := uprTurn_insert_of_room p.shared i hplain hroom key value
        rw [hidle, hturn] at hact
        cases hact
        refine quiet_turn h hquiet (by rw [hidle, hturn]) hlate
          (fun _ _ _ hworks => by cases hworks) hbegin
      · have hturn := uprTurn_insert_of_full p.shared i hplain hroom key value
        have hleft := mt (hasRoom_iff_blocksLeft hplain hsize).mpr hroom
        rw [not_not] at hleft
        rw [hidle, hturn] at hact
        cases hact
        refine quiet_turn h hquiet (by rw [hidle, hturn]) hlate
          (fun _ _ _ hworks => by cases hworks) ?_
        have hserves : Buckets.Serves (storedBuckets p.shared) i
            (.insert key value) (.answer false) (storedBuckets p.shared) := by
          apply Buckets.serves_self
          show CellEffect _ (blocksLeft (p.shared.members i)) _ _ _
            (blocksLeft (p.shared.members i))
          rw [hleft]
          exact .insertFull ..
        have hserve := Exec.serve (c := ⟨storedBuckets p.shared,
          Function.update (explained p late).status i
            (.pending (.insert key value))⟩) (.insert key value)
          (Function.update_self ..) hserves
        rw [Function.update_idem] at hserve
        exact hbegin.trans hserve

/-- The bucket word is read. -/
theorem explain_readBucket {search : Search}
    (hphase : p.phase i = .readBucket search)
    (hact : uprTurn i none (p.phase i) p.shared = some (o, phase, σ'))
    (hlate : LateSound (p.advance i phase σ') late) :
    Explains p i none o phase σ' late := by
  have hquiet : ¬ (p.phase i).commits := by
    rw [hphase]
    exact id
  have hstatus : (explained p late).status i = .pending search.op := by
    simp [explained, hphase, statusOf]
  have hturn := uprTurn_readBucket p.shared i search
  have hkey : search.op.key = search.key := by cases search <;> rfl
  -- A call that misses takes effect here.
  have hmiss : (bucket p.shared.data search.key ≠ 0 →
      keyAt p.shared.data (bucket p.shared.data search.key) ≠ search.key) →
      ∀ reply, (∀ cell : Cell, cell.Lacks search.key →
        CellEffect cell (blocksLeft (p.shared.members i)) search.op reply cell
          (blocksLeft (p.shared.members i))) →
      Buckets.Serves (storedBuckets p.shared) i search.op reply
        (storedBuckets p.shared) := by
    intro hmiss reply heffect
    apply Buckets.serves_self
    rw [hkey]
    exact heffect _ (lacks_of_miss hmiss)
  have hspec := missing_spec (i := i) h.common search
  by_cases hzero : bucket p.shared.data search.key = 0
  · rw [hzero, Search.visit, if_pos rfl] at hturn
    have hserves := hmiss fun hne => absurd hzero hne
    rcases hspec with ⟨reply, hmissing, _, heffect⟩ |
      ⟨filling, hmissing, hop, _⟩
    · rw [hmissing] at hturn
      rw [hphase, hturn] at hact
      cases hact
      exact quiet_turn h hquiet (by rw [hphase, hturn]) hlate
        (fun _ _ _ hworks => by cases hworks)
        (Exec.serve search.op hstatus (hserves reply heffect))
    · rw [hmissing] at hturn
      rw [hphase, hturn] at hact
      cases hact
      refine silent_turn h hquiet (by rw [hphase, hturn]) hlate
        (fun _ _ _ hworks => by cases hworks) ?_
      simp [hphase, statusOf, hop]
  · rw [Search.visit, if_neg hzero] at hturn
    rw [hphase, hturn] at hact
    cases hact
    by_cases hmatch : keyAt p.shared.data
        (bucket p.shared.data search.key) = search.key
    · have hcurrent : late (bucket p.shared.data search.key) = [] := by
        apply Classical.byContradiction
        intro hne
        apply (hlate.replaced _ hne).2
        simp [hmatch]
      refine silent_turn h hquiet (by rw [hphase, hturn]) hlate
        (fun call e hreplaced hworks => ?_) ?_
      · simp only [UprPhase.worksOn, if_pos hmatch] at hworks
        cases hworks
        exact absurd (by rw [hmatch]) hreplaced
      · simp [hphase, statusOf, hmatch, hcurrent]
    · have hworks : ∀ call e, bucket p.shared.data
          (keyAt p.shared.data e) ≠ e →
          (UprPhase.compare search (entryOffset search.key)
            (bucket p.shared.data search.key)).worksOn p.shared.data =
              some (call, e) →
          (p.phase i).worksOn p.shared.data = some (call, e) := by
        intro call e _ hworks
        simp [UprPhase.worksOn, hmatch] at hworks
      rcases hspec with ⟨reply, _, hmissed, heffect⟩ |
        ⟨filling, _, _, hmissed⟩
      · refine quiet_turn h hquiet (by rw [hphase, hturn]) hlate hworks ?_
        have hdone : statusOf p.shared late i (.compare search
            (entryOffset search.key) (bucket p.shared.data search.key)) =
              .done search.op reply := by
          simp [statusOf, hmatch, hmissed]
        rw [hdone]
        exact Exec.happen hstatus (hmiss (fun _ => hmatch) reply heffect)
      · refine silent_turn h hquiet (by rw [hphase, hturn]) hlate hworks ?_
        simp [hphase, statusOf, hmatch, hmissed]

/-- The key of an entry is compared. -/
theorem explain_compare {search : Search} {prevNextPtr entry : Nat}
    (hphase : p.phase i = .compare search prevNextPtr entry)
    (hact : uprTurn i none (p.phase i) p.shared = some (o, phase, σ'))
    (hlate : LateSound (p.advance i phase σ') late) :
    Explains p i none o phase σ' late := by
  have hown := h.each i
  rw [hphase] at hown
  have hquiet : ¬ (p.phase i).commits := by
    rw [hphase]
    exact id
  have hturn := uprTurn_compare p.shared i search prevNextPtr entry
  rw [hphase, hturn] at hact
  cases hact
  by_cases hmatch : keyAt p.shared.data entry = search.key
  · simp only [if_pos hmatch] at hturn hlate ⊢
    refine silent_turn h hquiet (by rw [hphase, hturn]) hlate
      (fun call e _ hworks => ?_) ?_
    · simp only [hphase, UprPhase.worksOn, if_pos hmatch]
      cases search <;> cases hworks <;> rfl
    · rw [hphase, statusOf.eq_def p.shared late i (.compare ..)]
      simp only [if_pos hmatch]
      cases search with
      | del key =>
          have hcurrent : late entry = [] := by
            apply Classical.byContradiction
            intro hne
            apply (hlate.replaced _ hne).2
            rw [Pool.advance_shared, hmatch]
            exact hown.del hmatch
          rw [hcurrent]
          rfl
      | _ => rfl
  · simp only [if_neg hmatch] at hturn hlate ⊢
    refine silent_turn h hquiet (by rw [hphase, hturn]) hlate
      (fun _ _ _ hworks => by cases hworks) ?_
    simp [hphase, statusOf, hmatch]

/-- The next pointer of an entry is read. -/
theorem explain_readNext {search : Search} {entry : Nat}
    (hphase : p.phase i = .readNext search entry)
    (hact : uprTurn i none (p.phase i) p.shared = some (o, phase, σ'))
    (hlate : LateSound (p.advance i phase σ') late) :
    Explains p i none o phase σ' late := by
  have hown := h.each i
  rw [hphase] at hown
  have hquiet : ¬ (p.phase i).commits := by
    rw [hphase]
    exact id
  have hturn := uprTurn_readNext p.shared i search entry
  rw [link_zero h.common search hown.object.2, Search.visit, if_pos rfl]
    at hturn
  rcases missing_spec (i := i) h.common search with
    ⟨reply, hmissing, hmissed, _⟩ | ⟨filling, hmissing, hop, hmissed⟩
  · rw [hmissing] at hturn
    rw [hphase, hturn] at hact
    cases hact
    refine quiet_turn h hquiet (by rw [hphase, hturn]) hlate
      (fun _ _ _ hworks => by cases hworks) (Exec.answer search.op ?_)
    simp [explained, hphase, statusOf, hmissed]
  · rw [hmissing] at hturn
    rw [hphase, hturn] at hact
    cases hact
    refine silent_turn h hquiet (by rw [hphase, hturn]) hlate
      (fun _ _ _ hworks => by cases hworks) ?_
    simp [hphase, statusOf, hmissed, hop]

/-! ### Turns that work on a value -/

/-- What one call does to the value of an entry. -/
structure OnlyValue (σ σ' : UprShared ι) (e : Nat) : Prop where
  buckets : ∀ key, bucket σ'.data key = bucket σ.data key
  keys : ∀ e', Allocated σ.members e' → keyAt σ'.data e' = keyAt σ.data e'
  members : σ'.members = σ.members
  values : ∀ e', Allocated σ.members e' → e' ≠ e →
    storedValue σ'.data 256 e' = storedValue σ.data 256 e'

/-- The call ends working on an entry that has been replaced: its effect was
before that. -/
theorem replaced_turn {call : UprOp} {reply : Reply} {e : Nat}
    (hact : uprTurn i none (p.phase i) p.shared =
      some (.returned call reply, .idle, σ'))
    (hlate : LateSound (p.advance i .idle σ') late)
    (hworks : (p.phase i).worksOn p.shared.data = some (call, e))
    (hreplaced : bucket p.shared.data (keyAt p.shared.data e) ≠ e)
    (honly : OnlyValue p.shared σ' e)
    (hrewrites : Rewrites (keyAt p.shared.data e)
      (storedValue p.shared.data 256 e) i call reply
      (storedValue σ'.data 256 e)) :
    Explains p i none (.returned call reply) .idle σ' late := by
  have halloc := (worksOn_spec (h.each i).object hworks).1
  have hbehind := h.common.hosts.blockSet.behind e halloc
  have hfree : i ∉ (late e).map Prod.fst := by
    intro hmem
    obtain ⟨x, hx, hxi⟩ := List.mem_map.mp hmem
    have hwas := hlate.working e x hx
    rw [hxi, Pool.advance_phase_self] at hwas
    cases hwas
  refine ⟨Function.update late e ((i, call, reply) :: late e), ?_, ?_⟩
  · refine ⟨fun e' hne => ?_, fun e' => ?_, fun e' x hx => ?_, fun e' => ?_⟩
    · by_cases he : e' = e
      · rw [he]
        exact ⟨halloc, hreplaced⟩
      · rw [Function.update_of_ne he] at hne
        have hwas := hlate.replaced e' hne
        simp only [Pool.advance_shared, honly.members] at hwas
        rw [honly.keys e' hwas.1, honly.buckets] at hwas
        exact hwas
    · by_cases he : e' = e
      · rw [he, Function.update_self, List.map_cons, List.nodup_cons]
        exact ⟨hfree, hlate.nodup e⟩
      · rw [Function.update_of_ne he]
        exact hlate.nodup e'
    · have hback : ∀ y ∈ late e',
          (p.phase y.1).worksOn p.shared.data = some (y.2.1, e') := by
        intro y hy
        have hwas : ((p.advance i .idle σ').phase y.1).worksOn σ'.data =
            some (y.2.1, e') := hlate.working e' y hy
        have hyi : y.1 ≠ i := by
          rintro hyi
          rw [hyi, Pool.advance_phase_self] at hwas
          cases hwas
        rwa [worksOn_before h honly.keys hyi] at hwas
      by_cases he : e' = e
      · subst he
        rw [Function.update_self] at hx
        rcases List.mem_cons.mp hx with rfl | hx
        · exact hworks
        · exact hback x hx
      · rw [Function.update_of_ne he] at hx
        exact hback x hx
    · obtain ⟨v, hplays⟩ := hlate.plays e'
      by_cases he : e' = e
      · subst he
        rw [Pool.advance_shared, honly.keys e' halloc] at hplays
        rw [Function.update_self]
        exact ⟨v, .next hrewrites hplays⟩
      · rw [Function.update_of_ne he]
        by_cases hnil : late e' = []
        · rw [hnil]
          exact ⟨_, .done _⟩
        · have halloc' := (hlate.replaced e' hnil).1
          rw [Pool.advance_shared, honly.members] at halloc'
          rw [Pool.advance_shared, honly.keys e' halloc',
            honly.values e' halloc' he] at hplays
          exact ⟨v, hplays⟩
  · have hstate : storedBuckets σ' = storedBuckets p.shared := by
      refine Buckets.ext (funext fun b => ?_) ?_
      · obtain ⟨key, rfl⟩ := exists_home b
        refine cellAt_eq_of_value (e := e) h.common (honly.buckets key)
          (fun hword => hreplaced ?_) honly.keys honly.values
        exact h.common.current_of_bucket (by omega) hword
      · simp [storedBuckets, honly.members]
    have hheld : ∀ j, j ≠ i → ∀ call' e',
        (p.phase j).worksOn p.shared.data = some (call', e') →
        held (late e') j call' = held (Function.update late e
          ((i, call, reply) :: late e) e') j call' := by
      intro j hj call' e' _
      by_cases he : e' = e
      · rw [he, Function.update_self, held_cons_of_ne (Ne.symm hj)]
      · rw [Function.update_of_ne he]
    rw [explained_advance h hact hheld, hstate]
    refine Exec.answer (c := explained p _) call ?_
    show statusOf _ _ i (p.phase i) = _
    rw [statusOf_of_worksOn hworks, Function.update_self, held_cons_self]

omit h in
/-- An entry in use has no late effects. -/
theorem late_eq_nil {key : Key} {e : Nat}
    (hlate : LateSound (p.advance i phase σ') late)
    (hkey : keyAt σ'.data e = key) (hword : bucket σ'.data key = e) :
    late e = [] := by
  apply Classical.byContradiction
  intro hne
  apply (hlate.replaced e hne).2
  rw [Pool.advance_shared, hkey]
  exact hword

/-- The value of an entry is copied out. -/
theorem explain_readValue {key : Key} {value : Bytes} {entry : Nat}
    (hphase : p.phase i = .readValue key value entry)
    (hact : uprTurn i none (p.phase i) p.shared = some (o, phase, σ'))
    (hlate : LateSound (p.advance i phase σ') late) :
    Explains p i none o phase σ' late := by
  have hown := h.each i
  rw [hphase] at hown
  rcases hown.object with ⟨halloc, hkey⟩
  have hle := h.common.end_le halloc
  have hbehind := h.common.hosts.blockSet.behind entry halloc
  have hsize : (p.shared.members i).valueSize = 256 := h.common.hosts.size i
  have hworks : (p.phase i).worksOn p.shared.data =
      some (.get key value, entry) := by rw [hphase]; rfl
  have hturn : uprTurn i none (p.phase i) p.shared =
      some (.returned (.get key value) (.fetched true
        (overlay (storedValue p.shared.data 256 entry) value)), .idle,
        p.shared) := by
    rw [hphase, ← fetch_eq_overlay hle]
    simp only [uprTurn, uprAccess, Option.map_some, UprPhase.writes,
      leftBy_seenBy, GshmUpr.readCxl]
    rw [show (p.shared.seenBy i).self.valueSize = 256 from hsize]
    rfl
  rw [hturn] at hact
  cases hact
  by_cases hword : bucket p.shared.data key = entry
  · have hnil := late_eq_nil hlate hkey hword
    refine quiet_turn h (by rw [hphase]; exact id) hturn hlate
      (fun _ _ _ hworks => by cases hworks) (Exec.serve (.get key value) ?_ ?_)
    · show statusOf _ _ i (p.phase i) = _
      rw [statusOf_of_worksOn hworks, hnil, held_nil]
    · apply Buckets.serves_self
      show CellEffect (cellAt p.shared.data (home key)) _ _ _
        (cellAt p.shared.data (home key)) _
      rw [cellAt_home_of_hit hword (by omega) hkey]
      exact .get ..
  · refine replaced_turn h hturn hlate hworks (by rw [hkey]; exact hword)
      ⟨fun _ => rfl, fun _ _ => rfl, rfl, fun _ _ _ => rfl⟩
      ⟨hkey.symm, fun n => ?_⟩
    rw [hkey]
    exact .get ..

/-- The value of an entry is overwritten. -/
theorem explain_overwrite {call : UprOp} {value : Bytes} {size entry : Nat}
    (hphase : p.phase i = .overwrite call value size entry)
    (hact : uprTurn i none (p.phase i) p.shared = some (o, phase, σ'))
    (hlate : LateSound (p.advance i phase σ') late) :
    Explains p i none o phase σ' late := by
  have hobjects := objects_annotated h
  have hown := h.each i
  have hturn := hact
  obtain ⟨rfl, rfl, rfl⟩ := overwrite_act hobjects hphase hact
  have hkeeps := turn_keepsWords hobjects hact
  rw [hphase] at hown hkeeps
  rcases hown with ⟨⟨_, _, _, halloc, hkey⟩, _, hright⟩
  have hset := h.common.hosts.blockSet
  have hle := h.common.end_le halloc
  have hbehind := hset.behind entry halloc
  have hworks : (p.phase i).worksOn p.shared.data = some (call, entry) := by
    rw [hphase]
    rfl
  have honly : OnlyValue p.shared { p.shared with
      data := writeValue p.shared.data 256 entry value } entry := by
    refine ⟨fun key => hkeeps.buckets key fun _ hnone => (by cases hnone),
      hkeeps.keys, rfl, fun e' he' hne => ?_⟩
    have hapart := hset.apart e' entry he' halloc hne
    refine storedValue_congr (agree_writeValue hle ?_)
    unfold Apart at hapart ⊢
    omega
  by_cases hword : bucket p.shared.data call.key = entry
  · have hnil := late_eq_nil hlate ((honly.keys entry halloc).trans hkey)
      ((honly.buckets call.key).trans hword)
    refine ⟨late, hlate.back h honly.buckets honly.keys rfl
      (fun e hne => ?_) (fun _ _ _ hworks => by cases hworks), ?_⟩
    · apply honly.values e (hlate.replaced e hne).1
      rintro rfl
      exact hne hnil
    · rw [explained_advance h hturn fun _ _ _ _ _ => rfl]
      refine Exec.serve (c := explained p late) call ?_ ⟨some (call.key,
        Value.ofBuf value), blocksLeft (p.shared.members i), ?_, ?_⟩
      · show statusOf _ _ i (p.phase i) = _
        rw [statusOf_of_worksOn hworks, hnil, held_nil]
      · show CellEffect (cellAt p.shared.data (home call.key)) _ _ _ _ _
        rw [cellAt_home_of_hit hword (by omega) hkey]
        exact .overwrite hright ..
      · refine Buckets.ext (funext fun b => ?_) ?_
        · show cellAt _ b = Function.update (cellAt p.shared.data)
            (home call.key) _ b
          by_cases hb : b = home call.key
          · have hkey' := (honly.keys entry halloc).trans hkey
            rw [hb, Function.update_self, ← storedValue_writeValue_self hle]
            exact cellAt_home_of_hit ((honly.buckets call.key).trans hword)
              (by omega) hkey'
          · rw [Function.update_of_ne hb]
            obtain ⟨key, rfl⟩ := exists_home b
            refine cellAt_eq_of_value (e := entry) h.common
              (honly.buckets key) (fun hsame => hb ?_) honly.keys honly.values
            have hhome := h.common.chained.home key
              (show bucket p.shared.data key ≠ 0 by
                rw [show bucket p.shared.data key = entry from hsame]
                omega)
            rw [show bucket p.shared.data key = entry from hsame, hkey]
              at hhome
            exact home_eq_iff.mpr hhome.symm
        · exact (Function.update_eq_self ..).symm
  · refine replaced_turn h hturn hlate hworks (by rw [hkey]; exact hword)
      honly ⟨hkey.symm, fun n => ?_⟩
    rw [hkey, storedValue_writeValue_self hle]
    exact .overwrite hright ..

/-! ### Turns that write a bucket word -/

omit h in
/-- Effects on an entry are effects on its bucket. -/
theorem plays_buckets {s : Buckets ι} {key : Key} {v v' : Value}
    {effects : LateEffects ι} (hplays : Plays (Rewrites key) v effects v')
    (hcell : s.cells (home key) = some (key, v)) :
    Plays Buckets.Serves s effects
      ⟨Function.update s.cells (home key) (some (key, v')), s.left⟩ := by
  induction hplays generalizing s with
  | done v =>
      rw [← hcell, Function.update_eq_self]
      exact .done s
  | @next v v₁ v' i call reply effects hspec _ ih =>
      rcases hspec with ⟨rfl, heffect⟩
      have hserves : s.Serves i call reply
          ⟨Function.update s.cells (home call.key) (some (call.key, v₁)),
            s.left⟩ := by
        refine ⟨some (call.key, v₁), s.left i, ?_, ?_⟩
        · rw [hcell]
          exact heffect _
        · simp [Buckets.put]
      have hrest := ih (s := ⟨Function.update s.cells (home call.key)
        (some (call.key, v₁)), s.left⟩) (Function.update_self ..)
      simp only [Function.update_idem] at hrest
      exact .next hserves hrest

/-- The late effects on the entry that is going to be replaced take place. -/
theorem settle {key : Key}
    (hworking : ∀ x ∈ late (bucket p.shared.data key),
      (p.phase x.1).worksOn p.shared.data =
        some (x.2.1, bucket p.shared.data key))
    (hnodup : ((late (bucket p.shared.data key)).map Prod.fst).Nodup)
    (hplays : ∃ v, Plays
      (Rewrites (keyAt p.shared.data (bucket p.shared.data key)))
      (storedValue p.shared.data 256 (bucket p.shared.data key))
      (late (bucket p.shared.data key)) v) :
    ∃ cell : Cell, cell.map Prod.fst =
        (cellAt p.shared.data (home key)).map Prod.fst ∧
      Exec Buckets.Serves
        (explained p (Function.update late (bucket p.shared.data key) [])) []
        ⟨⟨Function.update (cellAt p.shared.data) (home key) cell,
          (storedBuckets p.shared).left⟩, (explained p late).status⟩ := by
  by_cases hnil : late (bucket p.shared.data key) = []
  · refine ⟨_, rfl, ?_⟩
    rw [Function.update_eq_self, ← hnil, Function.update_eq_self]
    exact .done _
  · obtain ⟨x, hx⟩ := List.exists_mem_of_ne_nil _ hnil
    have halloc := (worksOn_spec (h.each x.1).object (hworking x hx)).1
    have hbehind := h.common.hosts.blockSet.behind _ halloc
    have hne : bucket p.shared.data key ≠ 0 := by omega
    have hcell := cellAt_home_of_ne hne
    have hhome : home (keyAt p.shared.data (bucket p.shared.data key)) =
        home key := home_eq_iff.mpr (h.common.chained.home key hne)
    obtain ⟨v, hplays⟩ := hplays
    have heffects := plays_buckets (s := storedBuckets p.shared) hplays
      (by rw [hhome]; exact hcell)
    rw [hhome] at heffects
    refine ⟨_, ?_, Exec.happen_all heffects hnodup (fun y hy => ?_) rfl
      (fun y hy => ?_) fun j hj => ?_⟩
    · rw [hcell]
      rfl
    · show statusOf _ _ y.1 (p.phase y.1) = _
      rw [statusOf_of_worksOn (hworking y hy), Function.update_self, held_nil]
    · show statusOf _ _ y.1 (p.phase y.1) = _
      rw [statusOf_of_worksOn (hworking y hy), held_of_mem hnodup hy]
    · refine statusOf_congr (h.each j).object (fun _ _ => rfl) rfl
        fun call e _ => ?_
      by_cases he : e = bucket p.shared.data key
      · rw [he, Function.update_self, held_nil, held_of_not_mem hj]
      · rw [Function.update_of_ne he]

/-- The explanation of a turn that writes a bucket word. -/
theorem relink_turn (key : Key) (cell' : Cell) (n' : Nat) {call : UprOp}
    {reply : Reply} {w : Nat} (hcall : call.key = key)
    (hact : uprTurn i none (p.phase i) p.shared =
      some (.returned call reply, .idle, σ'))
    (hlate : LateSound (p.advance i .idle σ') late)
    (hdata : σ'.data = setBucket p.shared.data key w) (hw : w < 2 ^ 64)
    (halloc : ∀ e, Allocated σ'.members e →
      Allocated p.shared.members e ∨ e = w)
    (hpending : statusOf p.shared late i (p.phase i) = .pending call)
    (hstate : storedBuckets σ' =
      (storedBuckets p.shared).put i (home key) cell' n')
    (heffect : ∀ cell : Cell, cell.map Prod.fst =
      (cellAt p.shared.data (home key)).map Prod.fst →
        CellEffect cell (blocksLeft (p.shared.members i)) call reply
          cell' n') :
    Explains p i none (.returned call reply) .idle σ' late := by
  have hobjects := objects_annotated h
  have hstore := (uprTurn_sound hobjects hact).common
  have hkeys := (turn_keepsWords hobjects hact).keys
  have hlinked : bucket σ'.data key = w := by
    rw [hdata]
    exact bucket_setBucket hw rfl
  -- The entry put into the bucket word has not been replaced.
  have hold : ∀ e, late e ≠ [] → Allocated p.shared.members e := by
    intro e hne
    obtain ⟨he, hreplaced⟩ := hlate.replaced e hne
    rcases halloc e he with hold | rfl
    · exact hold
    · have hbehind := hstore.hosts.blockSet.behind e he
      exact absurd (hstore.current_of_bucket (by omega) hlinked) hreplaced
  have hvalues : ∀ e, Allocated p.shared.members e →
      storedValue σ'.data 256 e = storedValue p.shared.data 256 e := by
    intro e he
    rw [hdata]
    exact storedValue_congr ((h.common.hosts.blockSet.agree_setBucket he key
      w).mono (Nat.le_refl _) (by omega))
  have hworking : ∀ e, ∀ x ∈ late e,
      (p.phase x.1).worksOn p.shared.data = some (x.2.1, e) := by
    intro e x hx
    have hwas : ((p.advance i .idle σ').phase x.1).worksOn σ'.data =
        some (x.2.1, e) := hlate.working e x hx
    by_cases hxi : x.1 = i
    · rw [hxi, Pool.advance_phase_self] at hwas
      cases hwas
    · rwa [worksOn_before h hkeys hxi] at hwas
  have hplays : ∀ e, ∃ v, Plays (Rewrites (keyAt p.shared.data e))
      (storedValue p.shared.data 256 e) (late e) v := by
    intro e
    by_cases hnil : late e = []
    · rw [hnil]
      exact ⟨_, .done _⟩
    · obtain ⟨v, hplays⟩ := hlate.plays e
      rw [Pool.advance_shared, hkeys e (hold e hnil),
        hvalues e (hold e hnil)] at hplays
      exact ⟨v, hplays⟩
  obtain ⟨cell, hcell, hsettle⟩ := settle h (hworking (bucket p.shared.data
    key)) (hlate.nodup _) (hplays _)
  refine ⟨Function.update late (bucket p.shared.data key) [], ?_, ?_⟩
  · refine ⟨fun e hne => ?_, fun e => ?_, fun e x hx => ?_, fun e => ?_⟩
    · by_cases he : e = bucket p.shared.data key
      · rw [he, Function.update_self] at hne
        exact absurd rfl hne
      · rw [Function.update_of_ne he] at hne
        refine ⟨hold e hne, fun hword => ?_⟩
        have hreplaced : bucket σ'.data (keyAt σ'.data e) ≠ e :=
          (hlate.replaced e hne).2
        rw [hkeys e (hold e hne)] at hreplaced
        by_cases hhome : entryOffset (keyAt p.shared.data e) = entryOffset key
        · rw [bucket, hhome] at hword
          exact he hword.symm
        · rw [hdata, bucket_setBucket_of_ne hhome] at hreplaced
          exact hreplaced hword
    · by_cases he : e = bucket p.shared.data key
      · simp [he]
      · rw [Function.update_of_ne he]
        exact hlate.nodup e
    · by_cases he : e = bucket p.shared.data key
      · rw [he, Function.update_self] at hx
        cases hx
      · rw [Function.update_of_ne he] at hx
        exact hworking e x hx
    · by_cases he : e = bucket p.shared.data key
      · rw [he, Function.update_self]
        exact ⟨_, .done _⟩
      · rw [Function.update_of_ne he]
        exact hplays e
  · have hserves : Buckets.Serves ⟨Function.update (cellAt p.shared.data)
        (home key) cell, (storedBuckets p.shared).left⟩ i call reply
        (storedBuckets σ') := by
      refine ⟨cell', n', ?_, ?_⟩
      · rw [hcall]
        simp only [Function.update_self]
        exact heffect cell hcell
      · rw [hstate, hcall]
        simp only [Buckets.put, Function.update_idem]
        rfl
    rw [explained_advance h hact fun _ _ _ _ _ => rfl]
    exact hsettle.trans (Exec.serve (c := ⟨_, (explained p late).status⟩)
      call hpending hserves)

/-- The bucket word is zeroed. -/
theorem explain_writeLink {key : Key} {prevNextPtr nextEntry : Nat}
    (hphase : p.phase i = .writeLink key prevNextPtr nextEntry)
    (hact : uprTurn i none (p.phase i) p.shared = some (o, phase, σ'))
    (hlate : LateSound (p.advance i phase σ') late) :
    Explains p i none o phase σ' late := by
  have hdel := (h.each i).del
  rw [hphase] at hdel
  rcases hdel with ⟨hne, hkey⟩
  have hturn := hact
  obtain ⟨rfl, rfl, rfl⟩ := writeLink_act (objects_annotated h) hphase hact
  refine relink_turn h key none (blocksLeft (p.shared.members i)) rfl hturn
    hlate rfl (by decide) (fun e he => .inl he) (by rw [hphase]; rfl) ?_
    fun cell hcell => ?_
  · refine Buckets.ext (funext fun b => ?_) (Function.update_eq_self ..).symm
    show cellAt _ b = Function.update (cellAt p.shared.data) (home key) _ b
    by_cases hb : b = home key
    · rw [hb, Function.update_self]
      exact cellAt_home_of_zero (bucket_setBucket (by decide) rfl)
    · rw [Function.update_of_ne hb]
      obtain ⟨key', rfl⟩ := exists_home b
      exact cellAt_setBucket_of_ne h.common hb
  · rw [cellAt_home_of_ne hne, hkey] at hcell
    obtain ⟨⟨key', v⟩, rfl, hsame⟩ := Option.map_eq_some_iff.mp hcell
    rw [show key' = key from hsame]
    exact .del key v _

/-- The new entry is put into the bucket word. -/
theorem explain_writeBucket {filling : Filling}
    (hphase : p.phase i = .writeBucket filling)
    (hact : uprTurn i none (p.phase i) p.shared = some (o, phase, σ'))
    (hlate : LateSound (p.advance i phase σ') late) :
    Explains p i none o phase σ' late := by
  have hown := h.each i
  have hturn := hact
  obtain ⟨rfl, rfl, rfl⟩ := writeBucket_act (objects_annotated h) hphase hact
  rw [hphase] at hown
  rcases hown with ⟨⟨hfills, hplaced, hvalue, _⟩, _, hright⟩
  have hkey : filling.op.key = filling.key := hfills.key
  have hle := hfills.end_le h.common.hosts
  have hnew := h.common.hosts.blockSet_next hfills.room
  rw [← hfills.start] at hnew
  have hbehind := hnew.behind filling.start (.inr rfl)
  have hentry := hnew.agree_setBucket (m := p.shared.data) (.inr rfl)
    filling.key filling.start
  have hleft := blocksLeft_advance (h.common.hosts.plain i)
    (h.common.hosts.size i) hfills.room
  refine relink_turn h filling.key
    (some (filling.op.key, Value.ofBuf filling.value))
    (blocksLeft (p.shared.members i).advance) hkey hturn hlate rfl (by omega)
    (fun e he => ?_) (by rw [hphase]; rfl) ?_ fun cell _ => ?_
  · rw [hfills.start]
    exact (h.common.hosts.allocated_advance_iff i e).mp he
  · refine Buckets.ext (funext fun b => ?_) (funext fun j => ?_)
    · show cellAt _ b =
        Function.update (cellAt p.shared.data) (home filling.key) _ b
      by_cases hb : b = home filling.key
      · have hvalue' : storedValue (setBucket p.shared.data filling.key
            filling.start) 256 filling.start = Value.ofBuf filling.value := by
          rw [storedValue_congr (hentry.mono (Nat.le_refl _) (by omega))]
          exact funext fun k => hvalue.1 k k.isLt
        rw [hb, Function.update_self, ← hvalue', hkey]
        refine cellAt_home_of_hit (bucket_setBucket (by omega) rfl)
          (by omega) ?_
        rw [keyAt_congr (by omega) (hentry.mono (Nat.le_refl _) (by omega))]
        exact hplaced.1
      · rw [Function.update_of_ne hb]
        obtain ⟨key', rfl⟩ := exists_home b
        exact cellAt_setBucket_of_ne h.common hb
    · show blocksLeft (Function.update p.shared.members i
        (p.shared.members i).advance j) = Function.update (fun j =>
          blocksLeft (p.shared.members j)) i _ j
      by_cases hj : j = i
      · simp [hj]
      · rw [Function.update_of_ne hj, Function.update_of_ne hj]
  · rw [hleft]
    exact .place hright cell _

/-- **Step lemma**: whatever an object does next, the state before can be
explained. -/
theorem explain_turn
    (hact : uprTurn i op (p.phase i) p.shared = some (o, phase, σ'))
    (hlate : LateSound (p.advance i phase σ') late) :
    Explains p i op o phase σ' late := by
  rcases op_of_act hact with ⟨hidle, call, rfl⟩ | ⟨hbusy, rfl⟩
  · exact explain_begin h hidle hact hlate
  · cases hphase : p.phase i
    case idle => exact absurd hphase hbusy
    case readBucket => exact explain_readBucket h hphase hact hlate
    case compare => exact explain_compare h hphase hact hlate
    case readNext => exact explain_readNext h hphase hact hlate
    case readValue => exact explain_readValue h hphase hact hlate
    case overwrite => exact explain_overwrite h hphase hact hlate
    case writeLink => exact explain_writeLink h hphase hact hlate
    case writeBucket => exact explain_writeBucket h hphase hact hlate
    all_goals
      have hturn := hact
      rw [hphase] at hact
      cases hact
      exact silent_turn h (by rw [hphase]; exact id) hturn hlate
        (fun _ _ _ hworks => by cases hworks) (by rw [hphase]; rfl)

end Explanation

end SHMemora.Ports
