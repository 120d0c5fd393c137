import SHMemora.Verified.StepRun
import SHMemora.Ports.Confinement
import SHMemora.Ports.StoreLayout

/-!
# The protected store

`class gshm`: the access functions with their token checks, `acquire`, and the
key-value operations built on them.  The two token schemes share this text, so
the store is generic in its `TokenScheme`.

The operations ignore most of the results of their own calls, and the model
does too: a refused write leaves the memory as it is, a refused read leaves
the variable it reads into as it is, and the operation goes on.

The loops of `get`, `update` and `del` only look at the data through
`global_key`, and `walkFuel` rounds decide them (`chainEnd_eq_none_iff`).  The
loop of `put` looks at it through tokens it has just drawn.  Where such a draw
fails the loop goes round without moving, so no number of rounds bounds it and
`put` takes the number as an argument.

Table and data area are kept apart here.  In the mapping the table comes right
before `data_addr`, and offsets from `2 ^ 64 - tableBytes S` on lead round into
it; the model has data there.  What it says of the code is about calls that
stay below those offsets (`BelowTable`).
-/

namespace SHMemora.Ports

open SHMemora.Verified.ByteMemory
open SHMemora.Verified.StepRun

/-- The shared table and data area as one `gshm` object sees them, and the
object itself.  `rand` lists the results of all calls of `rand()`, of which
`randCalls` have been made. -/
structure Gshm (τ : Type) (n : Nat) where
  table : ProtectionTable τ n
  data : Bytes
  rand : Nat → Nat
  randCalls : Nat
  batchKey : τ
  useMac : Bool
  self : Instance

namespace Gshm

variable {τ : Type} [DecidableEq τ] {n : Nat} [NeZero n]
variable (S : TokenScheme τ n)

/-- The constructor, with the table zeroed by `open_cxl_device`.  `batch_key`
is not initialised. -/
def construct (data : Bytes) (rand : Nat → Nat) (batchKey : τ)
    (useMac : Bool) (self : Instance) : Gshm τ n where
  table := zeroTable S
  data := data
  rand := rand
  randCalls := 0
  batchKey := batchKey
  useMac := useMac
  self := self

/-! ## Tokens -/

/-- The token the next `generate_shkey` returns and its number of calls of
`rand()`. -/
def draw (g : Gshm τ n) : τ × Nat :=
  S.generateShkey g.useMac fun i => g.rand (g.randCalls + i)

/-- `acquire`; the result of the insertion is discarded. -/
def acquire (g : Gshm τ n) (offset size : Nat) (permission : UInt8) :
    τ × Gshm τ n :=
  ((g.draw S).1,
    { g with
      table := (insertProtectionEntry S g.table (g.draw S).1 offset size
        (.ofNat 32 permission.toNat)).2
      randCalls := g.randCalls + (g.draw S).2 })

section Frame

variable (g : Gshm τ n) (offset size : Nat) (permission : UInt8)

@[simp] theorem acquire_data :
    (g.acquire S offset size permission).2.data = g.data := rfl

@[simp] theorem acquire_self :
    (g.acquire S offset size permission).2.self = g.self := rfl

@[simp] theorem acquire_rand :
    (g.acquire S offset size permission).2.rand = g.rand := rfl

@[simp] theorem acquire_useMac :
    (g.acquire S offset size permission).2.useMac = g.useMac := rfl

@[simp] theorem acquire_randCalls :
    (g.acquire S offset size permission).2.randCalls =
      g.randCalls + (g.draw S).2 := rfl

end Frame

/-! ## Access functions -/

/-- `read_cxl`: the result and the buffer. -/
def readCxl (g : Gshm τ n) (offset size : Nat) (buf : Bytes) (shkey : τ) :
    Int × Bytes :=
  match readAccess S g.table offset size shkey with
  | .error _ => (-1, buf)
  | .ok _ => (0, fetch g.data offset buf size)

/-- `write_cxl`.  The table stays as it is, which is right for a range that is
`BelowTable`. -/
def writeCxl (g : Gshm τ n) (offset size : Nat) (buf : Bytes) (shkey : τ) :
    Int × Gshm τ n :=
  match writeAccess S g.table g.self.dataAddr.addr offset size shkey with
  | .error _ => (-1, g)
  | .ok _ => (0, { g with data := store g.data offset buf size })

section Frame

variable (g : Gshm τ n) (offset size : Nat) (buf : Bytes) (shkey : τ)

@[simp] theorem writeCxl_table :
    (g.writeCxl S offset size buf shkey).2.table = g.table := by
  unfold writeCxl; split <;> rfl

@[simp] theorem writeCxl_self :
    (g.writeCxl S offset size buf shkey).2.self = g.self := by
  unfold writeCxl; split <;> rfl

@[simp] theorem writeCxl_rand :
    (g.writeCxl S offset size buf shkey).2.rand = g.rand := by
  unfold writeCxl; split <;> rfl

@[simp] theorem writeCxl_useMac :
    (g.writeCxl S offset size buf shkey).2.useMac = g.useMac := by
  unfold writeCxl; split <;> rfl

@[simp] theorem writeCxl_randCalls :
    (g.writeCxl S offset size buf shkey).2.randCalls = g.randCalls := by
  unfold writeCxl; split <;> rfl

end Frame

/-- `compare_cxl`. -/
def compareCxl (g : Gshm τ n) (offset size : Nat) (buf : Bytes) (shkey : τ) :
    Int :=
  match compareAccess S g.table offset size shkey with
  | .error _ => -2
  | .ok _ => safeMemcmp (fun i => g.data (wrap (offset + i))) buf size

/-- `read_cxl(offset, sizeof(uint64_t), &x, shkey)` for a variable `x` that
holds `init`. -/
def readWord (g : Gshm τ n) (offset init : Nat) (shkey : τ) : Nat :=
  word (g.readCxl S offset 8 (ofWord init) shkey).2

/-! ## Lookup and update -/

/-- The `while` loop of `get` and `update`, which draw a token with different
permissions for every entry they come to.  The result is the entry with the
key, or `0` behind the last entry. -/
def chainLoop (key : Key) (permission : UInt8) :
    Nat → Gshm τ n → Nat → Option (Nat × Gshm τ n)
  | 0, _, _ => none
  | fuel + 1, g, entry =>
      if entry = 0 then some (0, g)
      else
        let g' := (g.acquire S entry g.self.entrySize permission).2
        if g'.compareCxl S entry 64 key.buf S.globalKey = 0 then
          some (entry, g')
        else
          chainLoop key permission fuel g'
            (g'.readWord S (wrap (entry + 64 + g.self.valueSize)) entry
              S.globalKey)

/-- The part that `get` and `update` share: a token for the bucket word, the
bucket word, and the loop. -/
def lookup (g : Gshm τ n) (key : Key) (permission : UInt8) :
    Option (Nat × Gshm τ n) :=
  let g' := (g.acquire S (entryOffset key) 8 permission).2
  chainLoop S key permission walkFuel g'
    (g'.readWord S (entryOffset key) 0 S.globalKey)

/-- `get`: the result and the value buffer. -/
def get (g : Gshm τ n) (key : Key) (value : Bytes) (shkey : τ) :
    Outcome (Gshm τ n) (Bool × Bytes) :=
  match g.lookup S key 1 with
  | none => .running
  | some (entry, g') =>
      if entry = 0 then .returned (false, value) g'
      else
        .returned (true, (g'.readCxl S (wrap (entry + 64)) g.self.valueSize
          value shkey).2) g'

/-- `update`. -/
def update (g : Gshm τ n) (key : Key) (value : Bytes) (shkey : τ) :
    Outcome (Gshm τ n) Bool :=
  match g.lookup S key 3 with
  | none => .running
  | some (entry, g') =>
      if entry = 0 then .returned false g'
      else
        .returned true (g'.writeCxl S (wrap (entry + 64)) g.self.valueSize
          value shkey).2

/-! ## Insertion -/

/-- The three writes that fill an entry: key, value and next pointer. -/
def fillEntry (g : Gshm τ n) (start valueSize : Nat) (key : Key)
    (value : Bytes) (shkey : τ) : Gshm τ n :=
  let g₁ := (g.writeCxl S start 64 key.buf shkey).2
  let g₂ := (g₁.writeCxl S (wrap (start + 64)) valueSize value shkey).2
  (g₂.writeCxl S (wrap (start + 64 + valueSize)) 8 (ofWord 0) shkey).2

/-- `insert` with `use_batch`, after the token for the bucket word was drawn:
blocks of `kv_size` bytes, `batch_kvs` of them under one token. -/
def insertBatched (g : Gshm τ n) (keyHashTable : τ) (key : Key)
    (value : Bytes) : Outcome (Gshm τ n) τ :=
  let nextFree := g.self.nextFreeOffset
  if g.self.availableSlots = 0 then
    let batchBytes := wrap (g.self.kvSize * g.self.batchKvs)
    let g₁ := { g with self := { g.self with
      availableSlots := wrap (g.self.batchKvs + (2 ^ 64 - 1))
      nextFreeOffset := wrap (nextFree + batchBytes) } }
    let r := g₁.acquire S nextFree batchBytes 3
    let g₂ := r.2.fillEntry S nextFree g.self.valueSize key value r.1
    let g₃ := (g₂.writeCxl S (entryOffset key) 8 (ofWord nextFree)
      keyHashTable).2
    .returned r.1 { g₃ with batchKey := r.1 }
  else
    let start := wrap (nextFree +
      (g.self.batchKvs + 2 ^ 64 - g.self.availableSlots) * g.self.kvSize)
    let g₁ := { g with self := { g.self with
      availableSlots := g.self.availableSlots - 1 } }
    let g₂ := g₁.fillEntry S start g.self.valueSize key value g.batchKey
    let g₃ := (g₂.writeCxl S (entryOffset key) 8 (ofWord start)
      keyHashTable).2
    .returned g.batchKey g₃

/-- `insert` without `use_batch`, after the token for the bucket word was
drawn.  A full partition ends the process. -/
def insertPlain (g : Gshm τ n) (keyHashTable : τ) (key : Key)
    (value : Bytes) : Outcome (Gshm τ n) τ :=
  let nextFree := g.self.nextFreeOffset
  if g.self.partitionEnd < wrap (nextFree + g.self.entrySize) then
    .exited g
  else
    let r := g.acquire S nextFree g.self.entrySize 3
    let g₁ := r.2.fillEntry S nextFree g.self.valueSize key value r.1
    let g₂ := (g₁.writeCxl S (entryOffset key) 8 (ofWord nextFree)
      keyHashTable).2
    .returned r.1 { g₂ with self := { g₂.self with
      nextFreeOffset := wrap (nextFree + g.self.entrySize) } }

/-- `insert`. -/
def insert (g : Gshm τ n) (key : Key) (value : Bytes) :
    Outcome (Gshm τ n) τ :=
  let r := g.acquire S (entryOffset key) 8 3
  if g.self.useBatch then r.2.insertBatched S r.1 key value
  else r.2.insertPlain S r.1 key value

/-! ## `put` -/

/-- The `while` loop of `put`, with the entry length written out; the result
says whether the value was written. -/
def putLoop (key : Key) (value : Bytes) :
    Nat → Gshm τ n → Nat → Option (Bool × Gshm τ n)
  | 0, _, _ => none
  | fuel + 1, g, entry =>
      if entry = 0 then some (false, g)
      else
        let r := g.acquire S entry 328 3
        if r.2.compareCxl S entry 64 key.buf r.1 = 0 then
          some (true, (r.2.writeCxl S (wrap (entry + 64)) 256 value r.1).2)
        else
          putLoop key value fuel r.2
            (r.2.readWord S (wrap (entry + 320)) entry r.1)

/-- `put` behind its loop: a new entry where there is room for one. -/
def putNew (g : Gshm τ n) (keyHashTable : τ) (key : Key) (value : Bytes) :
    Outcome (Gshm τ n) Bool :=
  let nextFree := g.self.nextFreeOffset
  if g.self.partitionEnd < wrap (nextFree + 328) then .returned false g
  else
    let r := g.acquire S nextFree 328 3
    let g₁ := r.2.fillEntry S nextFree 256 key value r.1
    let g₂ := (g₁.writeCxl S (entryOffset key) 8 (ofWord nextFree)
      keyHashTable).2
    .returned true { g₂ with self := { g₂.self with
      nextFreeOffset := wrap (nextFree + 328) } }

/-- `put`. -/
def put (fuel : Nat) (g : Gshm τ n) (key : Key) (value : Bytes) :
    Outcome (Gshm τ n) Bool :=
  let r := g.acquire S (entryOffset key) 8 3
  match putLoop S key value fuel r.2
      (r.2.readWord S (entryOffset key) 0 r.1) with
  | none => .running
  | some (true, g') => .returned true g'
  | some (false, g') => putNew S g' r.1 key value

/-! ## `del` -/

/-- The `while` loop of `del`; `prevNextPtr` is
`prev_entry_next_ptr_offset`. -/
def delLoop (key : Key) (shkey : τ) :
    Nat → Gshm τ n → Nat → Nat → Outcome (Gshm τ n) Bool
  | 0, _, _, _ => .running
  | fuel + 1, g, prevNextPtr, entry =>
      if entry = 0 then .returned false g
      else
        let nextPtr := wrap (entry + 64 + g.self.valueSize)
        if g.compareCxl S entry 64 key.buf S.globalKey = 0 then
          let nextEntry := g.readWord S nextPtr 0 shkey
          .returned true
            (g.writeCxl S prevNextPtr 8 (ofWord nextEntry) S.globalKey).2
        else
          delLoop key shkey fuel g nextPtr
            (g.readWord S nextPtr entry S.globalKey)

/-- `del`. -/
def del (g : Gshm τ n) (key : Key) (shkey : τ) : Outcome (Gshm τ n) Bool :=
  delLoop S key shkey walkFuel g (entryOffset key)
    (g.readWord S (entryOffset key) 0 S.globalKey)

end Gshm

end SHMemora.Ports
