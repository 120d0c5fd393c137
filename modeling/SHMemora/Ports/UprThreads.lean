import SHMemora.Verified.ThreadPool
import SHMemora.Ports.SharedChains

/-!
# Threads on one data area

The calls of several `gshm_upr` objects with their accesses interleaved.  A
step is one call of `read_cxl`, `write_cxl` or `compare_cxl`, with the local
work up to the next one: the tests of the loops, and the members of the object,
which no other object sees.  `UprPhase` lists the places between two accesses.

`UprShared` has the data area and the objects, and a record of the calls begun
and of the fields written while entries are filled, which no step reads.
-/

namespace SHMemora.Ports

open SHMemora.Verified.ByteMemory
open SHMemora.Verified.ThreadPool

/-! ## State -/

/-- The calls that walk along a chain. -/
inductive Search where
  | get (key : Key) (value : Bytes)
  | update (key : Key) (value : Bytes)
  | put (key : Key) (value : Bytes)
  | del (key : Key)

/-- An entry being filled at `start`.  `step` is what `next_free_offset` moves
on by in the end; in batch mode it has moved before. -/
structure Filling where
  op : UprOp
  key : Key
  value : Bytes
  start : Nat
  valueSize : Nat
  step : Option Nat

/-- The access an object makes next.  `prevNextPtr` is
`prev_entry_next_ptr_offset` of `del`. -/
inductive UprPhase where
  | idle
  | readBucket (search : Search)
  | compare (search : Search) (prevNextPtr entry : Nat)
  | readNext (search : Search) (entry : Nat)
  | readValue (key : Key) (value : Bytes) (entry : Nat)
  | overwrite (op : UprOp) (value : Bytes) (size entry : Nat)
  | readSuccessor (key : Key) (prevNextPtr entry : Nat)
  | writeLink (key : Key) (prevNextPtr nextEntry : Nat)
  | writeKey (filling : Filling)
  | writeValue (filling : Filling)
  | writeNext (filling : Filling)
  | writeBucket (filling : Filling)

/-- The parts of an entry. -/
inductive EntryField where
  | key
  | value
  | next
  deriving DecidableEq

/-- The data area and the objects and, behind them, the record of what has
happened. -/
structure UprShared (ι : Type) where
  data : Bytes
  members : ι → Instance
  /-- The calls begun so far. -/
  begun : List UprOp
  /-- The fields of new entries written so far. -/
  written : List (EntryField × Nat)

/-- What a step shows: nothing, or that a call returns. -/
inductive UprEvent where
  | quiet
  | returned (op : UprOp) (reply : Reply)

/-! ## Steps of one object -/

namespace Search

def key : Search → Key
  | get key _ => key
  | update key _ => key
  | put key _ => key
  | del key => key

def op : Search → UprOp
  | get key value => .get key value
  | update key value => .update key value
  | put key value => .put key value
  | del key => .del key

/-- The place of the next pointer in an entry; `put` writes it out. -/
def link (u : GshmUpr) : Search → Nat
  | put _ _ => 320
  | _ => 64 + u.self.valueSize

/-- The walk has come to the end of the chain. -/
def missing (u : GshmUpr) : Search → UprEvent × UprPhase
  | get key value => (.returned (.get key value) (.fetched false value), .idle)
  | update key value => (.returned (.update key value) (.answer false), .idle)
  | del key => (.returned (.del key) (.answer false), .idle)
  | put key value =>
      if u.self.partitionEnd < wrap (u.self.nextFreeOffset + 328) then
        (.returned (.put key value) (.answer false), .idle)
      else
        (.quiet, .writeKey ⟨.put key value, key, value,
          u.self.nextFreeOffset, 256, some 328⟩)

/-- The condition of the loop. -/
def visit (u : GshmUpr) (search : Search) (prevNextPtr entry : Nat) :
    UprEvent × UprPhase :=
  if entry = 0 then search.missing u
  else (.quiet, .compare search prevNextPtr entry)

/-- The walk has come to an entry with the key. -/
def found (u : GshmUpr) (prevNextPtr entry : Nat) : Search → UprPhase
  | get key value => .readValue key value entry
  | update key value =>
      .overwrite (.update key value) value u.self.valueSize entry
  | put key value => .overwrite (.put key value) value 256 entry
  | del key => .readSuccessor key prevNextPtr entry

end Search

/-- An `insert` up to its first access. -/
def beginInsert (u : GshmUpr) (key : Key) (value : Bytes) :
    UprEvent × UprPhase × GshmUpr :=
  let nextFree := u.self.nextFreeOffset
  if u.self.useBatch then
    if u.self.availableSlots = 0 then
      (.quiet, .writeKey ⟨.insert key value, key, value, nextFree,
        u.self.valueSize, none⟩, { u with self := { u.self with
          availableSlots := wrap (u.self.batchKvs + (2 ^ 64 - 1))
          nextFreeOffset :=
            wrap (nextFree + u.self.kvSize * u.self.batchKvs) } })
    else
      (.quiet, .writeKey ⟨.insert key value, key, value,
        wrap (nextFree + (u.self.batchKvs + 2 ^ 64 - u.self.availableSlots) *
          u.self.kvSize), u.self.valueSize, none⟩,
        { u with self := { u.self with
          availableSlots := u.self.availableSlots - 1 } })
  else if u.self.partitionEnd < wrap (nextFree + u.self.entrySize) then
    (.returned (.insert key value) (.answer false), .idle, u)
  else
    (.quiet, .writeKey ⟨.insert key value, key, value, nextFree,
      u.self.valueSize, some u.self.entrySize⟩, u)

/-- A call up to its first access. -/
def beginCall (u : GshmUpr) : UprOp → UprEvent × UprPhase × GshmUpr
  | .get key value => (.quiet, .readBucket (.get key value), u)
  | .update key value => (.quiet, .readBucket (.update key value), u)
  | .put key value => (.quiet, .readBucket (.put key value), u)
  | .del key => (.quiet, .readBucket (.del key), u)
  | .insert key value => beginInsert u key value

/-- `*next_free_offset += entry_size`. -/
def GshmUpr.finishFilling (u : GshmUpr) : Option Nat → GshmUpr
  | none => u
  | some step => { u with self := { u.self with
      nextFreeOffset := wrap (u.self.nextFreeOffset + step) } }

/-- The next access of an object. -/
def uprAccess (u : GshmUpr) : UprPhase → Option (UprEvent × UprPhase × GshmUpr)
  | .idle => none
  | .readBucket search =>
      let offset := entryOffset search.key
      let next := search.visit u offset (u.readWord offset 0)
      some (next.1, next.2, u)
  | .compare search prevNextPtr entry =>
      if u.compareCxl entry 64 search.key.buf = 0 then
        some (.quiet, search.found u prevNextPtr entry, u)
      else some (.quiet, .readNext search entry, u)
  | .readNext search entry =>
      let offset := wrap (entry + search.link u)
      let next := search.visit u offset (u.readWord offset entry)
      some (next.1, next.2, u)
  | .readValue key value entry =>
      some (.returned (.get key value) (.fetched true
        (u.readCxl (wrap (entry + 64)) u.self.valueSize value).2), .idle, u)
  | .overwrite op value size entry =>
      some (.returned op (.answer true), .idle,
        (u.writeCxl (wrap (entry + 64)) size value).2)
  | .readSuccessor key prevNextPtr entry =>
      some (.quiet, .writeLink key prevNextPtr
        (u.readWord (wrap (entry + 64 + u.self.valueSize)) 0), u)
  | .writeLink key prevNextPtr nextEntry =>
      some (.returned (.del key) (.answer true), .idle,
        (u.writeCxl prevNextPtr 8 (ofWord nextEntry)).2)
  | .writeKey filling =>
      some (.quiet, .writeValue filling,
        (u.writeCxl filling.start 64 filling.key.buf).2)
  | .writeValue filling =>
      some (.quiet, .writeNext filling,
        (u.writeCxl (wrap (filling.start + 64)) filling.valueSize
          filling.value).2)
  | .writeNext filling =>
      some (.quiet, .writeBucket filling,
        (u.writeCxl (wrap (filling.start + 64 + filling.valueSize)) 8
          (ofWord 0)).2)
  | .writeBucket filling =>
      some (.returned filling.op (.answer true), .idle,
        ((u.writeCxl (entryOffset filling.key) 8
          (ofWord filling.start)).2).finishFilling filling.step)

/-! ## Steps of the system -/

section System

variable {ι : Type} [DecidableEq ι]

/-- The data area and the objects as object `i` sees them. -/
def UprShared.seenBy (σ : UprShared ι) (i : ι) : GshmUpr :=
  ⟨σ.data, σ.members i⟩

/-- What object `i` leaves behind. -/
def UprShared.leftBy (σ : UprShared ι) (i : ι) (u : GshmUpr) : UprShared ι :=
  { σ with data := u.data, members := Function.update σ.members i u.self }

/-- The field of a new entry an access writes. -/
def UprPhase.writes : UprPhase → List (EntryField × Nat)
  | .writeKey filling => [(.key, filling.start)]
  | .writeValue filling => [(.value, filling.start)]
  | .writeNext filling => [(.next, filling.start)]
  | _ => []

/-- A turn of an object: an idle one begins a call, another one makes its next
access. -/
def uprTurn (i : ι) (op : Option UprOp) (phase : UprPhase) (σ : UprShared ι) :
    Option (UprEvent × UprPhase × UprShared ι) :=
  match op, phase with
  | none, phase =>
      (uprAccess (σ.seenBy i) phase).map fun r => (r.1, r.2.1,
        { σ.leftBy i r.2.2 with written := phase.writes ++ σ.written })
  | some op, .idle =>
      let r := beginCall (σ.seenBy i) op
      some (r.1, r.2.1, { σ.leftBy i r.2.2 with begun := op :: σ.begun })
  | some _, _ => none

/-- The objects and where each of them is in its call. -/
abbrev UprPool (ι : Type) := Pool (UprShared ι) ι UprPhase

/-- One object takes a turn. -/
def uprPoolStep (p : UprPool ι) (turn : ι × Option UprOp) :
    Option (UprEvent × UprPool ι) :=
  poolStep uprTurn p turn

/-- No object has begun a call. -/
def UprPool.start (f : UprFleet ι) : UprPool ι where
  shared := ⟨f.data, f.members, [], []⟩
  phase := fun _ => .idle

/-! ## The effects of the turns -/

section Effects

variable (σ : UprShared ι) (i : ι)

/-- An object that only reads leaves everything as it is. -/
theorem leftBy_seenBy :
    { σ.leftBy i (σ.seenBy i) with written := [] ++ σ.written } = σ := by
  unfold UprShared.leftBy UprShared.seenBy
  rw [Function.update_eq_self]
  rfl

/-- A write leaves the object as it is. -/
theorem leftBy_data (m : Bytes) (w : List (EntryField × Nat)) :
    { σ.leftBy i { σ.seenBy i with data := m } with
      written := w ++ σ.written } =
    { σ with data := m, written := w ++ σ.written } := by
  unfold UprShared.leftBy UprShared.seenBy
  rw [Function.update_eq_self]

/-- So does the beginning of a call. -/
theorem leftBy_begun (begun : List UprOp) :
    { σ.leftBy i (σ.seenBy i) with begun := begun } =
      { σ with begun := begun } := by
  unfold UprShared.leftBy UprShared.seenBy
  rw [Function.update_eq_self]

theorem uprTurn_begin (search : Search) :
    uprTurn i (some search.op) .idle σ = some (.quiet, .readBucket search,
      { σ with begun := search.op :: σ.begun }) := by
  have hbegun := leftBy_begun σ i (search.op :: σ.begun)
  cases search <;>
    exact congrArg (fun σ' => some (_, _, σ')) hbegun

theorem uprTurn_readBucket (search : Search) :
    uprTurn i none (.readBucket search) σ =
      some ((search.visit (σ.seenBy i) (entryOffset search.key)
          (bucket σ.data search.key)).1,
        (search.visit (σ.seenBy i) (entryOffset search.key)
          (bucket σ.data search.key)).2, σ) := by
  simp only [uprTurn, uprAccess, UprPhase.writes, Option.map_some,
    leftBy_seenBy, GshmUpr.readWord_eq]
  rfl

theorem uprTurn_compare (search : Search) (prevNextPtr entry : Nat) :
    uprTurn i none (.compare search prevNextPtr entry) σ =
      some (.quiet, if keyAt σ.data entry = search.key then
        search.found (σ.seenBy i) prevNextPtr entry
        else .readNext search entry, σ) := by
  have hiff := GshmUpr.compareCxl_eq_zero_iff (σ.seenBy i) entry search.key
  by_cases hkey : keyAt σ.data entry = search.key
  · simp only [uprTurn, uprAccess, if_pos (hiff.mpr hkey), if_pos hkey,
      UprPhase.writes, Option.map_some, leftBy_seenBy]
  · simp only [uprTurn, uprAccess, if_neg (fun hzero => hkey (hiff.mp hzero)),
      if_neg hkey, UprPhase.writes, Option.map_some, leftBy_seenBy]

theorem uprTurn_readNext (search : Search) (entry : Nat) :
    uprTurn i none (.readNext search entry) σ =
      some ((search.visit (σ.seenBy i)
          (wrap (entry + search.link (σ.seenBy i)))
          (nextEntry σ.data (search.link (σ.seenBy i)) entry)).1,
        (search.visit (σ.seenBy i)
          (wrap (entry + search.link (σ.seenBy i)))
          (nextEntry σ.data (search.link (σ.seenBy i)) entry)).2, σ) := by
  simp only [uprTurn, uprAccess, UprPhase.writes, Option.map_some,
    leftBy_seenBy, GshmUpr.readWord_eq]
  rfl

theorem uprTurn_readSuccessor (key : Key) (prevNextPtr entry : Nat) :
    uprTurn i none (.readSuccessor key prevNextPtr entry) σ =
      some (.quiet, .writeLink key prevNextPtr
        (nextEntry σ.data (64 + (σ.members i).valueSize) entry), σ) := by
  simp only [uprTurn, uprAccess, UprPhase.writes, Option.map_some,
    leftBy_seenBy, GshmUpr.readWord_eq, Nat.add_assoc]
  rfl

theorem uprTurn_overwrite (op : UprOp) (value : Bytes) (size : Nat)
    {entry : Nat} (hend : entry + 64 < 2 ^ 63) :
    uprTurn i none (.overwrite op value size entry) σ =
      some (.returned op (.answer true), .idle,
        { σ with data := writeValue σ.data size entry value }) := by
  have hwrap : wrap (entry + 64) < 2 ^ 63 := by
    rw [wrap_of_lt (by omega)]
    exact hend
  simp only [uprTurn, uprAccess, Option.map_some,
    GshmUpr.writeCxl_of_lt hwrap, leftBy_data]
  rfl

theorem uprTurn_writeLink (key : Key) (nextEntry : Nat) :
    uprTurn i none (.writeLink key (entryOffset key) nextEntry) σ =
      some (.returned (.del key) (.answer true), .idle,
        { σ with data := setBucket σ.data key nextEntry }) := by
  simp only [uprTurn, uprAccess, Option.map_some, GshmUpr.writeCxl_bucket,
    leftBy_data]
  rfl

variable {filling : Filling}

theorem uprTurn_writeKey (hend : filling.start < 2 ^ 63) :
    uprTurn i none (.writeKey filling) σ =
      some (.quiet, .writeValue filling, { σ with
        data := store σ.data filling.start filling.key.buf 64
        written := (.key, filling.start) :: σ.written }) := by
  simp only [uprTurn, uprAccess, Option.map_some,
    GshmUpr.writeCxl_of_lt hend, leftBy_data]
  rfl

theorem uprTurn_writeValue (hend : filling.start + 64 < 2 ^ 63) :
    uprTurn i none (.writeValue filling) σ =
      some (.quiet, .writeNext filling, { σ with
        data := store σ.data (filling.start + 64) filling.value
          filling.valueSize
        written := (.value, filling.start) :: σ.written }) := by
  simp only [uprTurn, uprAccess, Option.map_some,
    wrap_of_lt (show filling.start + 64 < 2 ^ 64 by omega),
    GshmUpr.writeCxl_of_lt hend, leftBy_data]
  rfl

theorem uprTurn_writeNext
    (hend : filling.start + 64 + filling.valueSize < 2 ^ 63) :
    uprTurn i none (.writeNext filling) σ =
      some (.quiet, .writeBucket filling, { σ with
        data := store σ.data (filling.start + 64 + filling.valueSize)
          (ofWord 0) 8
        written := (.next, filling.start) :: σ.written }) := by
  simp only [uprTurn, uprAccess, Option.map_some,
    wrap_of_lt (show filling.start + 64 + filling.valueSize < 2 ^ 64 by omega),
    GshmUpr.writeCxl_of_lt hend, leftBy_data]
  rfl

variable (hplain : Plain (σ.members i))
include hplain

theorem uprTurn_writeBucket
    (hstep : filling.step = some (σ.members i).entrySize) :
    uprTurn i none (.writeBucket filling) σ =
      some (.returned filling.op (.answer true), .idle, { σ with
        data := setBucket σ.data filling.key filling.start
        members := Function.update σ.members i (σ.members i).advance }) := by
  simp only [uprTurn, uprAccess, Option.map_some, hstep,
    GshmUpr.writeCxl_bucket, GshmUpr.finishFilling, UprShared.leftBy,
    UprShared.seenBy, UprPhase.writes, List.nil_append, hplain.wrap_advance]
  rfl

theorem uprTurn_insert_of_full (hfull : ¬ HasRoom (σ.members i)) (key : Key)
    (value : Bytes) :
    uprTurn i (some (.insert key value)) .idle σ =
      some (.returned (.insert key value) (.answer false), .idle,
        { σ with begun := .insert key value :: σ.begun }) := by
  have hbatch : (σ.seenBy i).self.useBatch = false := hplain.noBatch
  have hover : (σ.seenBy i).self.partitionEnd <
      wrap ((σ.seenBy i).self.nextFreeOffset + (σ.seenBy i).self.entrySize) :=
    hplain.full_iff.mpr hfull
  simp only [uprTurn, beginCall, beginInsert, hbatch, Bool.false_eq_true,
    if_false, hover, if_true, leftBy_begun]

theorem uprTurn_insert_of_room (hroom : HasRoom (σ.members i)) (key : Key)
    (value : Bytes) :
    uprTurn i (some (.insert key value)) .idle σ =
      some (.quiet, .writeKey ⟨.insert key value, key, value,
          (σ.members i).nextFreeOffset, (σ.members i).valueSize,
          some (σ.members i).entrySize⟩,
        { σ with begun := .insert key value :: σ.begun }) := by
  have hbatch : (σ.seenBy i).self.useBatch = false := hplain.noBatch
  have hfits : ¬ (σ.seenBy i).self.partitionEnd <
      wrap ((σ.seenBy i).self.nextFreeOffset + (σ.seenBy i).self.entrySize) :=
    fun hover => hplain.full_iff.mp hover hroom
  simp only [uprTurn, beginCall, beginInsert, hbatch, Bool.false_eq_true,
    if_false, hfits, leftBy_begun]
  rfl

end Effects

end System

end SHMemora.Ports
