import SHMemora.Verified.ArenaAllocation
import SHMemora.Ports.GshmRuns

/-!
# Several store objects on one shared memory

Any number of `gshm` objects are mapped on the same table and data area.  What
they do not share is `next_free_offset`: each object starts at the beginning
of the partition of its host and moves on by itself.  So the objects are the
owners of `ArenaAllocation`, and their insertions, in any order, are requests
to it (`fleetStep_simulates`).

The partitions of different hosts do not overlap.  Objects on the same host,
as the threads of `kv.cpp` construct them, share a partition without knowing,
and their first entries are put in the same place.
-/

namespace SHMemora.Ports

open SHMemora.Verified.ByteMemory
open SHMemora.Verified.StepRun
open SHMemora.Verified.ArenaAllocation

/-! ## The system -/

/-- What an object keeps to itself. -/
structure Member (τ : Type) where
  batchKey : τ
  useMac : Bool
  self : Instance

/-- Objects on one shared memory. -/
structure Fleet (τ : Type) (n : Nat) (ι : Type) where
  table : ProtectionTable τ n
  data : Bytes
  members : ι → Member τ

/-- A call of `insert` by one of the objects; `rand` lists what `rand()`
returns during the call, in whichever process it is. -/
structure Turn (ι : Type) where
  member : ι
  key : Key
  value : Bytes
  rand : Nat → Nat

section System

variable {τ : Type} [DecidableEq τ] {n : Nat} [NeZero n] {ι : Type}
  [DecidableEq ι]

/-- The shared memory as one object sees it at the start of a call. -/
def Fleet.seenBy (f : Fleet τ n ι) (turn : Turn ι) : Gshm τ n where
  table := f.table
  data := f.data
  rand := turn.rand
  randCalls := 0
  batchKey := (f.members turn.member).batchKey
  useMac := (f.members turn.member).useMac
  self := (f.members turn.member).self

/-- The system when the call has come to an end. -/
def Fleet.after (f : Fleet τ n ι) (turn : Turn ι) (g : Gshm τ n) :
    Fleet τ n ι where
  table := g.table
  data := g.data
  members := Function.update f.members turn.member
    ⟨g.batchKey, g.useMac, g.self⟩

/-- One call of `insert` outside batch mode and the block in which it places
its entry, from `next_free_offset` on.  A call that finds its partition full
places nothing; that it ends its process, and so takes other objects along,
only shortens what is left of a run. -/
def fleetStep (S : TokenScheme τ n) (f : Fleet τ n ι) (turn : Turn ι) :
    Option (Option (Block ι) × Fleet τ n ι) :=
  let obj := (f.members turn.member).self
  match (f.seenBy turn).insert S turn.key turn.value with
  | .returned _ g =>
      some (some ⟨turn.member, obj.nextFreeOffset, obj.entrySize⟩,
        f.after turn g)
  | .exited g => some (none, f.after turn g)
  | .running => none

/-- New objects, each with a host and a size of its own. -/
def Fleet.construct (table : ProtectionTable τ n) (data : Bytes)
    (batchKey : ι → τ) (useMac : ι → Bool) (dataAddr : ι → DataAddr)
    (mac : ι → Option UInt8) (valueSize : ι → Nat) : Fleet τ n ι where
  table := table
  data := data
  members := fun i => ⟨batchKey i, useMac i,
    (Instance.construct (dataAddr i) (mac i)).withValueSize (valueSize i)⟩

/-! ## The objects as owners of their partitions -/

section Simulation

variable (dataAddr : ι → DataAddr) (mac : ι → Option UInt8)
  (valueSize : ι → Nat)

/-- The beginning of the partition of an object. -/
def arenaStart (i : ι) : Nat := 2 ^ 27 + getMac (mac i) * 2 ^ 30

/-- The end of the partition of an object. -/
def arenaLimit (i : ι) : Nat := arenaStart mac i + 2 ^ 30

/-- A call of `insert` as a request. -/
def Turn.request (turn : Turn ι) : ι × Nat :=
  (turn.member, 72 + valueSize turn.member)

omit [DecidableEq ι] in
theorem arenaLimit_le (i : ι) : arenaLimit mac i ≤ 2 ^ 62 := by
  have hmac := getMac_lt (mac i)
  rw [arenaLimit, arenaStart]
  omega

/-- The members of an object with its cursor at `cursor`. -/
def Instance.at (dataAddr : DataAddr) (mac : Option UInt8) (valueSize : Nat)
    (cursor : Nat) : Instance :=
  { (Instance.construct dataAddr mac).withValueSize valueSize with
    nextFreeOffset := cursor }

omit [DecidableEq ι] in
theorem partitionStart_at (i : ι) (cursor : Nat) :
    (Instance.at (dataAddr i) (mac i) (valueSize i) cursor).partitionStart =
      arenaStart mac i :=
  Instance.partitionStart_eq (getMac_lt (mac i))

omit [DecidableEq ι] in
theorem partitionEnd_at (i : ι) (cursor : Nat) :
    (Instance.at (dataAddr i) (mac i) (valueSize i) cursor).partitionEnd =
      arenaLimit mac i := by
  have hle := arenaLimit_le mac i
  have hstart := partitionStart_at dataAddr mac valueSize i cursor
  rw [arenaLimit] at hle ⊢
  rw [Instance.partitionEnd_eq (by omega), hstart]

/-- The objects are as they were constructed, up to their cursors, which have
not left their partitions. -/
structure Tracks (f : Fleet τ n ι) (cursor : ι → Nat) : Prop where
  self_eq : ∀ i, (f.members i).self =
    .at (dataAddr i) (mac i) (valueSize i) (cursor i)
  cursor_le : ∀ i, cursor i ≤ arenaLimit mac i

variable {dataAddr mac valueSize}

omit [DecidableEq τ] [NeZero n] in
/-- A call moves the cursor of its object and of no other. -/
theorem Tracks.after {f : Fleet τ n ι} {cursor : ι → Nat}
    (h : Tracks dataAddr mac valueSize f cursor) (turn : Turn ι) {c : Nat}
    (hle : c ≤ arenaLimit mac turn.member) {g : Gshm τ n}
    (hself : g.self = .at (dataAddr turn.member) (mac turn.member)
      (valueSize turn.member) c) :
    Tracks dataAddr mac valueSize (f.after turn g)
      (Function.update cursor turn.member c) := by
  constructor
  · intro i
    show (Function.update f.members turn.member
      ⟨g.batchKey, g.useMac, g.self⟩ i).self = _
    by_cases hi : i = turn.member
    · rw [hi, Function.update_self, Function.update_self]
      exact hself
    · rw [Function.update_of_ne hi, Function.update_of_ne hi]
      exact h.self_eq i
  · intro i
    by_cases hi : i = turn.member
    · rw [hi, Function.update_self]
      exact hle
    · rw [Function.update_of_ne hi]
      exact h.cursor_le i

section Turn

variable {f : Fleet τ n ι} {cursor : ι → Nat}

omit [DecidableEq τ] [NeZero n] [DecidableEq ι] in
/-- The sum that `insert` compares with the end of the partition. -/
theorem Tracks.wrap_entryEnd (h : Tracks dataAddr mac valueSize f cursor)
    (hsmall : ∀ i, 72 + valueSize i < 2 ^ 31) (turn : Turn ι) :
    wrap ((f.seenBy turn).self.nextFreeOffset +
      (f.seenBy turn).self.entrySize) =
      cursor turn.member + (72 + valueSize turn.member) := by
  have hle := h.cursor_le turn.member
  have hlimit := arenaLimit_le mac turn.member
  have hsize := hsmall turn.member
  have hself : (f.seenBy turn).self = _ := h.self_eq turn.member
  rw [hself]
  exact wrap_of_lt (show cursor turn.member + (72 + valueSize turn.member) <
    2 ^ 64 by omega)

omit [DecidableEq τ] [NeZero n] [DecidableEq ι] in
/-- An object finds its partition full when its owner has no room for the
request. -/
theorem Tracks.full_iff (h : Tracks dataAddr mac valueSize f cursor)
    (hsmall : ∀ i, 72 + valueSize i < 2 ^ 31) (turn : Turn ι) :
    (f.seenBy turn).self.partitionEnd <
        wrap ((f.seenBy turn).self.nextFreeOffset +
          (f.seenBy turn).self.entrySize) ↔
      ¬ cursor turn.member + (72 + valueSize turn.member) ≤
        arenaLimit mac turn.member := by
  have hself : (f.seenBy turn).self = _ := h.self_eq turn.member
  rw [h.wrap_entryEnd hsmall, hself, partitionEnd_at, not_le]

/-- **Step lemma**: a call of `insert` is a request to the owner, and is
granted where the partition is not full. -/
theorem fleetStep_simulates {S : TokenScheme τ n}
    (hsmall : ∀ i, 72 + valueSize i < 2 ^ 31)
    (h : Tracks dataAddr mac valueSize f cursor) (turn : Turn ι) :
    ∃ o f' cursor', fleetStep S f turn = some (o, f') ∧
      alloc (arenaLimit mac) cursor (turn.request valueSize) =
        some (o, cursor') ∧
      Tracks dataAddr mac valueSize f' cursor' := by
  have hself : (f.seenBy turn).self = .at (dataAddr turn.member)
      (mac turn.member) (valueSize turn.member) (cursor turn.member) :=
    h.self_eq turn.member
  have hbatch : (f.seenBy turn).self.useBatch = false := by
    rw [hself]
    rfl
  by_cases hfits : cursor turn.member + (72 + valueSize turn.member) ≤
      arenaLimit mac turn.member
  case pos =>
    have hroom := mt (h.full_iff hsmall turn).mp (not_not.mpr hfits)
    obtain ⟨t, g, hinsert, _, hself'⟩ :=
      insert_of_notFull (S := S) hbatch turn.key turn.value hroom
    rw [h.wrap_entryEnd hsmall, hself] at hself'
    refine ⟨some ⟨turn.member, cursor turn.member,
      72 + valueSize turn.member⟩, f.after turn g, _, ?_, if_pos hfits,
      h.after turn hfits hself'⟩
    rw [fleetStep, hinsert, h.self_eq]
    rfl
  case neg =>
    have hfull := (h.full_iff hsmall turn).mpr hfits
    have hsame := h.after turn (h.cursor_le turn.member)
      (g := ((f.seenBy turn).acquire S (entryOffset turn.key) 8 3).2) hself
    rw [Function.update_eq_self] at hsame
    refine ⟨none, _, cursor, ?_, if_neg hfits, hsame⟩
    rw [fleetStep, insert_of_full hbatch turn.key turn.value hfull]

end Turn

variable (dataAddr mac) in
/-- **Run lemma**: a run of insertions by new objects returns the blocks that
their partitions hand out. -/
theorem fleet_run_simulates (S : TokenScheme τ n)
    (hsmall : ∀ i, 72 + valueSize i < 2 ^ 31) (table : ProtectionTable τ n)
    (data : Bytes) (batchKey : ι → τ) (useMac : ι → Bool)
    (turns : List (Turn ι)) :
    ∃ outs f cursor,
      run (fleetStep S) (.construct table data batchKey useMac dataAddr mac
        valueSize) turns = some (outs, f) ∧
      run (alloc (arenaLimit mac)) (arenaStart mac)
        (turns.map (Turn.request valueSize)) = some (outs, cursor) := by
  have h : Tracks dataAddr mac valueSize (.construct table data batchKey
      useMac dataAddr mac valueSize) (arenaStart mac) := by
    refine ⟨fun i => ?_, fun i => Nat.le_add_right _ _⟩
    have hnext := Instance.partitionStart_construct (dataAddr i) (mac i)
    rw [← Instance.nextFreeOffset_construct] at hnext
    rw [arenaStart, ← hnext]
    rfl
  have hsim : ∀ (f : Fleet τ n ι) (cursor : ι → Nat) (turn : Turn ι),
      Tracks dataAddr mac valueSize f cursor → True →
      ∃ o f' cursor', fleetStep S f turn = some (o, f') ∧
        alloc (arenaLimit mac) cursor (turn.request valueSize) =
          some (o, cursor') ∧
        Tracks dataAddr mac valueSize f' cursor' :=
    fun f cursor turn h _ => fleetStep_simulates hsmall h turn
  obtain ⟨outs, f, cursor, hrun, hrun', _⟩ :=
    run_simulates_where hsim h (atEveryStep_true _ turns)
  rw [run_comp] at hrun'
  exact ⟨outs, f, cursor, hrun, hrun'⟩

omit [DecidableEq ι] in
/-- The partitions of two objects start in the same place or do not
overlap. -/
theorem arenas_apart (i j : ι) (hne : arenaStart mac i ≠ arenaStart mac j) :
    arenaLimit mac i ≤ arenaStart mac j ∨
      arenaLimit mac j ≤ arenaStart mac i := by
  unfold arenaLimit
  unfold arenaStart at hne ⊢
  omega

omit [DecidableEq ι] in
theorem arenaStart_le (i : ι) : arenaStart mac i ≤ arenaLimit mac i :=
  Nat.le_add_right _ _

omit [DecidableEq ι] in
theorem request_pos {turns : List (Turn ι)} (r : ι × Nat)
    (hr : r ∈ turns.map (Turn.request valueSize)) : 0 < r.2 := by
  rcases List.mem_map.mp hr with ⟨turn, _, rfl⟩
  exact Nat.lt_of_lt_of_le (by decide) (Nat.le_add_right 72 _)

omit [DecidableEq ι] in
theorem arenaStart_ne_iff {i j : ι} :
    arenaStart mac i ≠ arenaStart mac j ↔ getMac (mac i) ≠ getMac (mac j) := by
  unfold arenaStart
  omega

end Simulation

/-- The object makes a call of `insert`, and its entries fit into a
partition. -/
def Places (valueSize : ι → Nat) (turns : List (Turn ι)) (i : ι) : Prop :=
  (∃ turn, turn ∈ turns ∧ turn.member = i) ∧
    72 + valueSize i ≤ dataPartitionSize

omit [DecidableEq ι] in
theorem served_iff_places {mac : ι → Option UInt8} {valueSize : ι → Nat}
    {turns : List (Turn ι)} {i : ι} :
    Served (arenaStart mac) (arenaLimit mac)
      (turns.map (Turn.request valueSize)) i ↔ Places valueSize turns i := by
  constructor
  · intro hserved
    rcases hserved with ⟨size, hasked, hfits⟩
    rcases List.mem_map.mp hasked with ⟨turn, hturn, heq⟩
    cases heq
    exact ⟨⟨turn, hturn, rfl⟩, Nat.le_of_add_le_add_left hfits⟩
  · intro hplaces
    rcases hplaces with ⟨⟨turn, hturn, heq⟩, hfits⟩
    subst heq
    exact ⟨72 + valueSize turn.member, List.mem_map.mpr ⟨turn, hturn, rfl⟩,
      Nat.add_le_add_left hfits _⟩

/-- **Exactly when store objects never hand out the same memory twice**: in
every run of insertions, in any order, by any number of objects, the blocks
of all calls are pairwise apart if and only if no two objects that place an
entry are on the same host. -/
theorem blocks_apart_iff_hosts (S : TokenScheme τ n)
    (table : ProtectionTable τ n) (data : Bytes) (batchKey : ι → τ)
    (useMac : ι → Bool) (dataAddr : ι → DataAddr) (mac : ι → Option UInt8)
    (valueSize : ι → Nat) (hsmall : ∀ i, 72 + valueSize i < 2 ^ 31)
    (turns : List (Turn ι)) :
    ∃ outs f,
      run (fleetStep S) (.construct table data batchKey useMac dataAddr mac
        valueSize) turns = some (outs, f) ∧
      (outs.reduceOption.Pairwise Block.Apart ↔
        ∀ i j, Places valueSize turns i → Places valueSize turns j → i ≠ j →
          getMac (mac i) ≠ getMac (mac j)) := by
  obtain ⟨outs, f, cursor, hrun, halloc⟩ := fleet_run_simulates dataAddr mac S
    hsmall table data batchKey useMac turns
  refine ⟨outs, f, hrun, ?_⟩
  rw [pairwise_apart_iff arenaStart_le arenas_apart request_pos halloc]
  simp only [served_iff_places, arenaStart_ne_iff]

end System

/-- The last bytes of the MAC addresses of two machines. -/
def hostOneTwo (i : Bool) : Option UInt8 := if i then some 2 else some 1

/-- One insertion by each of two objects. -/
def oneEach : List (Turn Bool) :=
  [⟨false, fun _ => 0, fun _ => 7, fun i => i + 1⟩,
    ⟨true, fun _ => 1, fun _ => 8, fun i => i + 3⟩]

/-- Two objects on two hosts. -/
theorem blocks_apart_iff_hosts_two_hosts :
    ∃ outs f,
      run (fleetStep shmpScheme) (.construct (zeroTable shmpScheme)
        (fun _ => 0) (fun _ => 0) (fun _ => false)
        (fun _ => Instance.firstHost.dataAddr) hostOneTwo fun _ => 256)
        oneEach = some (outs, f) ∧
      (outs.reduceOption.Pairwise Block.Apart ↔
        ∀ i j, Places (fun _ => 256) oneEach i →
          Places (fun _ => 256) oneEach j → i ≠ j →
            getMac (hostOneTwo i) ≠ getMac (hostOneTwo j)) :=
  blocks_apart_iff_hosts shmpScheme (zeroTable shmpScheme) (fun _ => 0)
    (fun _ => 0) (fun _ => false) (fun _ => Instance.firstHost.dataAddr)
    hostOneTwo (fun _ => 256) (fun _ => by decide) oneEach

/-- Two objects on one host put their first entries in the same place. -/
theorem not_blocks_apart_same_host :
    ∃ outs f,
      run (fleetStep shmpScheme) (.construct (zeroTable shmpScheme)
        (fun _ => 0) (fun _ => 0) (fun _ => false)
        (fun _ => Instance.firstHost.dataAddr) (fun _ => some 1)
        fun _ : Bool => 256) oneEach = some (outs, f) ∧
      ¬ outs.reduceOption.Pairwise Block.Apart := by
  have hsmall : ∀ _ : Bool, 72 + 256 < 2 ^ 31 := fun _ => by decide
  obtain ⟨outs, f, cursor, hrun, halloc⟩ := fleet_run_simulates
    (fun _ => Instance.firstHost.dataAddr) (fun _ => some 1) shmpScheme
    hsmall (zeroTable shmpScheme) (fun _ => 0) (fun _ => 0) (fun _ => false)
    oneEach
  have hplaces : ∀ i, Places (fun _ => 256) oneEach i := by
    intro i
    have hsize : 72 + 256 ≤ dataPartitionSize := by decide
    refine ⟨?_, hsize⟩
    cases i with
    | false => exact ⟨_, List.mem_cons_self, rfl⟩
    | true => exact ⟨_, List.mem_cons_of_mem _ List.mem_cons_self, rfl⟩
  refine ⟨outs, f, hrun, fun hapart => ?_⟩
  have hstarts := (pairwise_apart_iff arenaStart_le arenas_apart request_pos
    halloc).mp hapart false true (served_iff_places.mpr (hplaces false))
    (served_iff_places.mpr (hplaces true)) (by decide)
  exact hstarts rfl

end SHMemora.Ports
