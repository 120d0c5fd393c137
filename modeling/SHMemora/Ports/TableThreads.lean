import SHMemora.Verified.ThreadPool
import SHMemora.Ports.TableSearch
import SHMemora.Ports.TokenSchemes

/-!
# Threads on one protection table

Several hosts call `insert_protection_entry`, the lookups of `read_cxl`,
`write_cxl` and `compare_cxl`, and `revoke_cxl` on one table at the same time.
Here a step is one access to the `valid` flag, the token or the region of a
slot, in program order: the compare-and-swap of `valid`, each load in a loop
condition or in a test, each store.  `TablePhase` lists the places between two
accesses; the accesses of a lookup to `Pentry` are separate loads, one for each
time the source mentions a member.

The round counter of `write_cxl` and `revoke_cxl` is left out: it is local to
the call and never fires before the loop is back at its first slot, as in
`countedProbeLoop_eq_probeLoop`.

`SharedTable` has the table and a record of what has happened to it, which no
step reads.
-/

namespace SHMemora.Ports

open SHMemora.Verified.ByteMemory
open SHMemora.Verified.ThreadPool

/-! ## State -/

/-- A call of `insert_protection_entry`, with its number among all calls. -/
structure InsertCall (ι τ : Type) where
  host : ι
  id : Nat
  shkey : τ
  pentry : ProtectionEntry

/-- The table and, behind it, the record of what has happened. -/
structure SharedTable (ι τ : Type) (n : Nat) where
  table : ProtectionTable τ n
  /-- The number of calls so far. -/
  calls : Nat
  /-- The insertions whose compare-and-swap succeeded. -/
  claimed : List (InsertCall ι τ)
  /-- The last of them at each slot. -/
  claimedBy : Fin n → Option (InsertCall ι τ)
  /-- The insertion that stored the region of each slot. -/
  storedBy : Fin n → Option (InsertCall ι τ)
  /-- The insertions that have returned 0. -/
  granted : List (InsertCall ι τ)
  /-- For each `revoke_cxl` that has returned 0 its token and the insertion
  whose slot it marked invalid. -/
  revoked : List (τ × InsertCall ι τ)

/-- What a lookup asks for: `size` bytes at `offset`, with the permission
`bit`. -/
structure Wanted where
  bit : BitVec 32
  offset : Nat
  size : Nat

/-- What a search is for. -/
inductive Purpose where
  | access (wanted : Wanted)
  | revoke

/-- A call of a lookup or of `revoke_cxl`.  `before` is the record of the
revocations that had returned when the call began. -/
structure Query (ι τ : Type) where
  shkey : τ
  purpose : Purpose
  before : List (τ × InsertCall ι τ)

/-- The access a thread makes next.  `used` collects the insertions that stored
the regions a lookup has read. -/
inductive TablePhase (ι τ : Type) (n : Nat) where
  | idle
  | claim (call : InsertCall ι τ) (hashIndex : Fin n)
  | testShkey (call : InsertCall ι τ) (hashIndex : Fin n)
  | storeShkey (call : InsertCall ι τ) (hashIndex : Fin n)
  | storePentry (call : InsertCall ι τ) (hashIndex : Fin n)
  | loopValid (query : Query ι τ) (hashIndex : Fin n)
  | loopShkey (query : Query ι τ) (hashIndex : Fin n)
  | finalValid (query : Query ι τ) (hashIndex : Fin n)
  | finalShkey (query : Query ι τ) (hashIndex : Fin n)
  | regionSize (query : Query ι τ) (wanted : Wanted) (hashIndex : Fin n)
      (used : List (Option (InsertCall ι τ)))
  | regionOffset (query : Query ι τ) (wanted : Wanted) (hashIndex : Fin n)
      (used : List (Option (InsertCall ι τ)))
  | endOffset (query : Query ι τ) (wanted : Wanted) (hashIndex : Fin n)
      (used : List (Option (InsertCall ι τ)))
  | endSize (query : Query ι τ) (wanted : Wanted) (hashIndex : Fin n)
      (used : List (Option (InsertCall ι τ))) (regionOffset : Nat)
  | permission (query : Query ι τ) (wanted : Wanted) (hashIndex : Fin n)
      (used : List (Option (InsertCall ι τ)))
  | storeValid (query : Query ι τ) (hashIndex : Fin n)

/-- The calls a thread can begin. -/
inductive HostCall (τ : Type) where
  | insert (shkey : τ) (offset size : Nat) (permission : BitVec 32)
  | access (shkey : τ) (bit : BitVec 32) (offset size : Nat)
  | revoke (shkey : τ)

/-- `acquire`: an insertion of the next token. -/
def HostCall.acquire {τ : Type} {n : Nat} (S : TokenScheme τ n)
    (useMac : Bool) (rand : Nat → Nat) (offset size : Nat)
    (permission : UInt8) : HostCall τ :=
  .insert (S.generateShkey useMac rand).1 offset size
    (.ofNat 32 permission.toNat)

/-- What a step shows: most show nothing, the last step of a call its result,
and the last step of the tests of a lookup that they were passed. -/
inductive TableEvent (ι τ : Type) where
  | quiet
  | inserted (code : Int)
  | passed (query : Query ι τ) (wanted : Wanted)
      (used : List (Option (InsertCall ι τ)))
  | denied (denial : Denial)
  | revoked (code : Int)

section Steps

variable {ι τ : Type} [DecidableEq τ] {n : Nat} [NeZero n]
  (S : TokenScheme τ n)

/-! ## Effects on the table -/

namespace SharedTable

variable (σ : SharedTable ι τ n)

omit [DecidableEq τ] [NeZero n]

/-- A successful compare-and-swap. -/
def claim (call : InsertCall ι τ) (i : Fin n) : SharedTable ι τ n :=
  { σ with
    table := Function.update σ.table i { σ.table i with valid := true }
    claimed := call :: σ.claimed
    claimedBy := Function.update σ.claimedBy i (some call) }

/-- `protection_table[hash_index].shkey = shkey`. -/
def storeShkey (call : InsertCall ι τ) (i : Fin n) : SharedTable ι τ n :=
  { σ with
    table := Function.update σ.table i
      { σ.table i with shkey := call.shkey } }

/-- `protection_table[hash_index].Pentry = …`, after which the call returns
0. -/
def storePentry (call : InsertCall ι τ) (i : Fin n) : SharedTable ι τ n :=
  { σ with
    table := Function.update σ.table i
      { σ.table i with pentry := call.pentry }
    storedBy := Function.update σ.storedBy i (some call)
    granted := call :: σ.granted }

/-- `Hentry.valid = false`, after which `revoke_cxl` returns 0. -/
def revoke (shkey : τ) (i : Fin n) : SharedTable ι τ n :=
  { σ with
    table := invalidate σ.table i
    revoked := ((σ.claimedBy i).map fun call => (shkey, call)).toList ++
      σ.revoked }

section Effects

variable {σ} {call : InsertCall ι τ} {shkey : τ} {i j : Fin n}

@[simp] theorem claim_table_self : (σ.claim call i).table i =
    { σ.table i with valid := true } :=
  Function.update_self ..

theorem claim_table_of_ne (h : j ≠ i) :
    (σ.claim call i).table j = σ.table j :=
  Function.update_of_ne h ..

@[simp] theorem claim_claimedBy_self :
    (σ.claim call i).claimedBy i = some call :=
  Function.update_self ..

theorem claim_claimedBy_of_ne (h : j ≠ i) :
    (σ.claim call i).claimedBy j = σ.claimedBy j :=
  Function.update_of_ne h ..

@[simp] theorem storeShkey_table_self : (σ.storeShkey call i).table i =
    { σ.table i with shkey := call.shkey } :=
  Function.update_self ..

theorem storeShkey_table_of_ne (h : j ≠ i) :
    (σ.storeShkey call i).table j = σ.table j :=
  Function.update_of_ne h ..

@[simp] theorem storePentry_table_self : (σ.storePentry call i).table i =
    { σ.table i with pentry := call.pentry } :=
  Function.update_self ..

theorem storePentry_table_of_ne (h : j ≠ i) :
    (σ.storePentry call i).table j = σ.table j :=
  Function.update_of_ne h ..

@[simp] theorem storePentry_storedBy_self :
    (σ.storePentry call i).storedBy i = some call :=
  Function.update_self ..

theorem storePentry_storedBy_of_ne (h : j ≠ i) :
    (σ.storePentry call i).storedBy j = σ.storedBy j :=
  Function.update_of_ne h ..

@[simp] theorem revoke_table_self : (σ.revoke shkey i).table i =
    { σ.table i with valid := false } :=
  Function.update_self ..

theorem revoke_table_of_ne (h : j ≠ i) :
    (σ.revoke shkey i).table j = σ.table j :=
  Function.update_of_ne h ..

/-- The flags a store of a token leaves alone. -/
@[simp] theorem storeShkey_valid : ((σ.storeShkey call i).table j).valid =
    (σ.table j).valid := by
  by_cases h : j = i
  · rw [h, storeShkey_table_self]
  · rw [storeShkey_table_of_ne h]

@[simp] theorem storePentry_valid : ((σ.storePentry call i).table j).valid =
    (σ.table j).valid := by
  by_cases h : j = i
  · rw [h, storePentry_table_self]
  · rw [storePentry_table_of_ne h]

@[simp] theorem storePentry_shkey : ((σ.storePentry call i).table j).shkey =
    (σ.table j).shkey := by
  by_cases h : j = i
  · rw [h, storePentry_table_self]
  · rw [storePentry_table_of_ne h]

@[simp] theorem claim_shkey : ((σ.claim call i).table j).shkey =
    (σ.table j).shkey := by
  by_cases h : j = i
  · rw [h, claim_table_self]
  · rw [claim_table_of_ne h]

@[simp] theorem revoke_shkey : ((σ.revoke shkey i).table j).shkey =
    (σ.table j).shkey := by
  by_cases h : j = i
  · rw [h, revoke_table_self]
  · rw [revoke_table_of_ne h]

@[simp] theorem revoke_pentry : ((σ.revoke shkey i).table j).pentry =
    (σ.table j).pentry := by
  by_cases h : j = i
  · rw [h, revoke_table_self]
  · rw [revoke_table_of_ne h]

@[simp] theorem claim_granted : (σ.claim call i).granted = σ.granted := rfl

@[simp] theorem storeShkey_granted :
    (σ.storeShkey call i).granted = σ.granted := rfl

@[simp] theorem storePentry_granted :
    (σ.storePentry call i).granted = call :: σ.granted := rfl

@[simp] theorem revoke_granted :
    (σ.revoke shkey i).granted = σ.granted := rfl

theorem mem_revoke_iff {r : τ × InsertCall ι τ} :
    r ∈ (σ.revoke shkey i).revoked ↔
      (r.1 = shkey ∧ σ.claimedBy i = some r.2) ∨ r ∈ σ.revoked := by
  show r ∈ ((σ.claimedBy i).map fun call => (shkey, call)).toList ++ _ ↔ _
  rw [List.mem_append, Option.mem_toList, Option.map_eq_some_iff]
  constructor
  · intro h
    rcases h with ⟨c, hc, rfl⟩ | h
    · exact .inl ⟨rfl, hc⟩
    · exact .inr h
  · intro h
    rcases h with ⟨rfl, hc⟩ | h
    · exact .inl ⟨r.2, hc, rfl⟩
    · exact .inr h

end Effects

end SharedTable

/-! ## Steps -/

omit [DecidableEq τ] in
/-- A call begins. -/
def HostCall.begin (op : HostCall τ) (host : ι) (σ : SharedTable ι τ n) :
    TablePhase ι τ n :=
  match op with
  | .insert shkey offset size permission =>
      .claim ⟨host, σ.calls, shkey, .of offset size permission⟩
        (S.hashFunction shkey)
  | .access shkey bit offset size =>
      .loopValid ⟨shkey, .access ⟨bit, offset, size⟩, σ.revoked⟩
        (S.hashFunction shkey)
  | .revoke shkey =>
      .loopValid ⟨shkey, .revoke, σ.revoked⟩ (S.hashFunction shkey)

/-- A search fails with `-1`. -/
def Query.fail (query : Query ι τ) : TableEvent ι τ :=
  match query.purpose with
  | .access _ => .denied .missing
  | .revoke => .revoked (-1)

/-- The slot has passed the test of flag and token. -/
def Query.proceed (query : Query ι τ) (i : Fin n) : TablePhase ι τ n :=
  match query.purpose with
  | .access wanted => .regionSize query wanted i []
  | .revoke => .storeValid query i

/-- The next access of a thread. -/
def hostAccess (phase : TablePhase ι τ n) (σ : SharedTable ι τ n) :
    Option (TableEvent ι τ × TablePhase ι τ n × SharedTable ι τ n) :=
  match phase with
  | .idle => none
  | .claim call i =>
      if (σ.table i).valid = false then
        some (.quiet, .storeShkey call i, σ.claim call i)
      else some (.quiet, .testShkey call i, σ)
  | .testShkey call i =>
      if (σ.table i).shkey = call.shkey then
        some (.inserted (-2), .idle, σ)
      else if i + 1 = S.hashFunction call.shkey then
        some (.inserted (-1), .idle, σ)
      else some (.quiet, .claim call (i + 1), σ)
  | .storeShkey call i =>
      some (.quiet, .storePentry call i, σ.storeShkey call i)
  | .storePentry call i =>
      some (.inserted 0, .idle, σ.storePentry call i)
  | .loopValid query i =>
      if (σ.table i).valid = true then some (.quiet, .loopShkey query i, σ)
      else some (.quiet, .finalValid query i, σ)
  | .loopShkey query i =>
      if (σ.table i).shkey ≠ query.shkey ∧ query.shkey ≠ S.globalKey then
        if i + 1 = S.hashFunction query.shkey then
          some (query.fail, .idle, σ)
        else some (.quiet, .loopValid query (i + 1), σ)
      else some (.quiet, .finalValid query i, σ)
  | .finalValid query i =>
      if (σ.table i).valid = true then some (.quiet, .finalShkey query i, σ)
      else if query.shkey ≠ S.globalKey then some (query.fail, .idle, σ)
      else some (.quiet, query.proceed i, σ)
  | .finalShkey query i =>
      if (σ.table i).shkey ≠ query.shkey ∧ query.shkey ≠ S.globalKey then
        some (query.fail, .idle, σ)
      else some (.quiet, query.proceed i, σ)
  | .regionSize query wanted i used =>
      if (σ.table i).pentry.size = 0 ∧ query.shkey ≠ S.globalKey then
        some (.denied .invalidRegion, .idle, σ)
      else
        some (.quiet, .regionOffset query wanted i (σ.storedBy i :: used), σ)
  | .regionOffset query wanted i used =>
      if wanted.offset < (σ.table i).pentry.offset then
        if query.shkey ≠ S.globalKey then
          some (.denied .outOfBounds, .idle, σ)
        else
          some (.quiet, .permission query wanted i (σ.storedBy i :: used), σ)
      else some (.quiet, .endOffset query wanted i (σ.storedBy i :: used), σ)
  | .endOffset query wanted i used =>
      some (.quiet, .endSize query wanted i (σ.storedBy i :: used)
        (σ.table i).pentry.offset, σ)
  | .endSize query wanted i used regionOffset =>
      if wrap (regionOffset + (σ.table i).pentry.size) <
          wrap (wanted.offset + wanted.size) ∧ query.shkey ≠ S.globalKey then
        some (.denied .outOfBounds, .idle, σ)
      else some (.quiet, .permission query wanted i (σ.storedBy i :: used), σ)
  | .permission query wanted i used =>
      if (σ.table i).pentry.permission &&& wanted.bit = 0 ∧
          query.shkey ≠ S.globalKey then
        some (.denied .accessDenied, .idle, σ)
      else some (.passed query wanted (σ.storedBy i :: used), .idle, σ)
  | .storeValid query i => some (.revoked 0, .idle, σ.revoke query.shkey i)

/-- A turn of a thread: an idle thread begins a call, another one makes its
next access. -/
def hostTurn (host : ι) (op : Option (HostCall τ)) (phase : TablePhase ι τ n)
    (σ : SharedTable ι τ n) :
    Option (TableEvent ι τ × TablePhase ι τ n × SharedTable ι τ n) :=
  match op, phase with
  | none, _ => hostAccess S phase σ
  | some op, .idle =>
      some (.quiet, op.begin S host σ, { σ with calls := σ.calls + 1 })
  | some _, _ => none

/-- The threads of all hosts. -/
abbrev TablePool (ι τ : Type) (n : Nat) :=
  Pool (SharedTable ι τ n) ι (TablePhase ι τ n)

/-- One host takes a turn. -/
def hostStep [DecidableEq ι] (p : TablePool ι τ n)
    (turn : ι × Option (HostCall τ)) :
    Option (TableEvent ι τ × TablePool ι τ n) :=
  poolStep (hostTurn S) p turn

omit [DecidableEq τ] [NeZero n] in
/-- No host has begun a call on this table. -/
def TablePool.start (table : ProtectionTable τ n) : TablePool ι τ n where
  shared := ⟨table, 0, [], fun _ => none, fun _ => none, [], []⟩
  phase := fun _ => .idle

end Steps

end SHMemora.Ports
