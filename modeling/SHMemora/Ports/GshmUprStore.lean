import SHMemora.Verified.StepRun
import SHMemora.Ports.ProtectionTable
import SHMemora.Ports.BucketChains

/-!
# The unprotected store

`class gshm_upr` of `gshmp_upr.cpp`: the key-value operations without tokens.
Its access functions always copy; only `write_cxl` still looks at the
destination pointer.

The first part is the code, the second what the operations come to on a
memory of the shape that a single store leaves behind (`Shape`): every walk
ends, and each operation is one of `insertEntry`, `writeValue`, `setBucket`
on the memory or leaves it alone.
-/

namespace SHMemora.Ports

open SHMemora.Verified.OrbitSearch
open SHMemora.Verified.ByteMemory

/-- The data area as one `gshm_upr` object sees it, and the object. -/
structure GshmUpr where
  data : Bytes
  self : Instance

namespace GshmUpr

/-! ## Access functions -/

/-- `read_cxl`: the result and the buffer. -/
def readCxl (u : GshmUpr) (offset size : Nat) (buf : Bytes) : Int × Bytes :=
  (0, fetch u.data offset buf size)

/-- `write_cxl`. -/
def writeCxl (u : GshmUpr) (offset size : Nat) (buf : Bytes) :
    Int × GshmUpr :=
  if getDataVaddrByOffset u.self.dataAddr.addr offset = 0 then (-1, u)
  else (0, { u with data := store u.data offset buf size })

/-- `compare_cxl`. -/
def compareCxl (u : GshmUpr) (offset size : Nat) (buf : Bytes) : Int :=
  safeMemcmp (fun i => u.data (wrap (offset + i))) buf size

/-- `read_cxl(offset, sizeof(uint64_t), &x)` for a variable `x` that holds
`init`. -/
def readWord (u : GshmUpr) (offset init : Nat) : Nat :=
  word (u.readCxl offset 8 (ofWord init)).2

/-! ## Key-value operations -/

/-- The `while` loop of `get`, `update` and `put`: the entry with the key, or
`0` behind the last entry.  `put` writes the place of the next pointer out. -/
def chainLoop (u : GshmUpr) (link : Nat) (key : Key) : Nat → Nat → Option Nat
  | 0, _ => none
  | fuel + 1, entry =>
      if entry = 0 then some 0
      else if u.compareCxl entry 64 key.buf = 0 then some entry
      else u.chainLoop link key fuel (u.readWord (wrap (entry + link)) entry)

/-- The bucket word and the loop. -/
def lookup (u : GshmUpr) (link : Nat) (key : Key) : Option Nat :=
  u.chainLoop link key walkFuel (u.readWord (entryOffset key) 0)

/-- `get`: the result and the value buffer. -/
def get (u : GshmUpr) (key : Key) (value : Bytes) :
    Outcome GshmUpr (Bool × Bytes) :=
  match u.lookup (64 + u.self.valueSize) key with
  | none => .running
  | some entry =>
      if entry = 0 then .returned (false, value) u
      else
        .returned
          (true, (u.readCxl (wrap (entry + 64)) u.self.valueSize value).2) u

/-- `update`. -/
def update (u : GshmUpr) (key : Key) (value : Bytes) : Outcome GshmUpr Bool :=
  match u.lookup (64 + u.self.valueSize) key with
  | none => .running
  | some entry =>
      if entry = 0 then .returned false u
      else
        .returned true
          (u.writeCxl (wrap (entry + 64)) u.self.valueSize value).2

/-- The three writes that fill an entry. -/
def fillEntry (u : GshmUpr) (start valueSize : Nat) (key : Key)
    (value : Bytes) : GshmUpr :=
  let u₁ := (u.writeCxl start 64 key.buf).2
  let u₂ := (u₁.writeCxl (wrap (start + 64)) valueSize value).2
  (u₂.writeCxl (wrap (start + 64 + valueSize)) 8 (ofWord 0)).2

/-- `insert` with `use_batch`: blocks of `kv_size` bytes, `batch_kvs` of them
reserved at a time. -/
def insertBatched (u : GshmUpr) (key : Key) (value : Bytes) :
    Outcome GshmUpr Bool :=
  let nextFree := u.self.nextFreeOffset
  if u.self.availableSlots = 0 then
    let u₁ := { u with self := { u.self with
      availableSlots := wrap (u.self.batchKvs + (2 ^ 64 - 1))
      nextFreeOffset := wrap (nextFree + u.self.kvSize * u.self.batchKvs) } }
    let u₂ := u₁.fillEntry nextFree u.self.valueSize key value
    .returned true (u₂.writeCxl (entryOffset key) 8 (ofWord nextFree)).2
  else
    let start := wrap (nextFree +
      (u.self.batchKvs + 2 ^ 64 - u.self.availableSlots) * u.self.kvSize)
    let u₁ := { u with self := { u.self with
      availableSlots := u.self.availableSlots - 1 } }
    let u₂ := u₁.fillEntry start u.self.valueSize key value
    .returned true (u₂.writeCxl (entryOffset key) 8 (ofWord start)).2

/-- `insert` without `use_batch`. -/
def insertPlain (u : GshmUpr) (key : Key) (value : Bytes) :
    Outcome GshmUpr Bool :=
  let nextFree := u.self.nextFreeOffset
  if u.self.partitionEnd < wrap (nextFree + u.self.entrySize) then
    .returned false u
  else
    let u₁ := u.fillEntry nextFree u.self.valueSize key value
    let u₂ := (u₁.writeCxl (entryOffset key) 8 (ofWord nextFree)).2
    .returned true { u₂ with self := { u₂.self with
      nextFreeOffset := wrap (nextFree + u.self.entrySize) } }

/-- `insert`. -/
def insert (u : GshmUpr) (key : Key) (value : Bytes) : Outcome GshmUpr Bool :=
  if u.self.useBatch then u.insertBatched key value
  else u.insertPlain key value

/-- `put`, with the lengths of value and entry written out. -/
def put (u : GshmUpr) (key : Key) (value : Bytes) : Outcome GshmUpr Bool :=
  match u.lookup 320 key with
  | none => .running
  | some entry =>
      let nextFree := u.self.nextFreeOffset
      if entry ≠ 0 then
        .returned true (u.writeCxl (wrap (entry + 64)) 256 value).2
      else if u.self.partitionEnd < wrap (nextFree + 328) then
        .returned false u
      else
        let u₁ := u.fillEntry nextFree 256 key value
        let u₂ := (u₁.writeCxl (entryOffset key) 8 (ofWord nextFree)).2
        .returned true { u₂ with self := { u₂.self with
          nextFreeOffset := wrap (nextFree + 328) } }

/-- The `while` loop of `del`; `prevNextPtr` is
`prev_entry_next_ptr_offset`. -/
def delLoop (u : GshmUpr) (key : Key) :
    Nat → Nat → Nat → Outcome GshmUpr Bool
  | 0, _, _ => .running
  | fuel + 1, prevNextPtr, entry =>
      if entry = 0 then .returned false u
      else
        let nextPtr := wrap (entry + 64 + u.self.valueSize)
        if u.compareCxl entry 64 key.buf = 0 then
          .returned true
            (u.writeCxl prevNextPtr 8 (ofWord (u.readWord nextPtr 0))).2
        else u.delLoop key fuel nextPtr (u.readWord nextPtr entry)

/-- `del`. -/
def del (u : GshmUpr) (key : Key) : Outcome GshmUpr Bool :=
  u.delLoop key walkFuel (entryOffset key) (u.readWord (entryOffset key) 0)

/-! ## The walks -/

section Walks

variable (u : GshmUpr)

@[simp] theorem readWord_eq (offset init : Nat) :
    u.readWord offset init = loadWord u.data offset := word_fetch _ _ _

theorem compareCxl_eq_zero_iff (entry : Nat) (key : Key) :
    u.compareCxl entry 64 key.buf = 0 ↔ keyAt u.data entry = key :=
  safeMemcmp_key_iff

theorem chainLoop_eq (link : Nat) (key : Key) (fuel entry : Nat) :
    u.chainLoop link key fuel entry =
      search (nextEntry u.data link) (endsWalk u.data key) fuel entry := by
  induction fuel generalizing entry with
  | zero => rfl
  | succ fuel ih =>
      rw [chainLoop]
      by_cases hzero : entry = 0
      · rw [if_pos hzero,
          search_succ_of_stop (endsWalk_eq_true_iff.mpr (.inl hzero)), hzero]
      · rw [if_neg hzero]
        have hcompare := u.compareCxl_eq_zero_iff entry key
        by_cases hmatch : keyAt u.data entry = key
        · rw [if_pos (hcompare.mpr hmatch),
            search_succ_of_stop (endsWalk_eq_true_iff.mpr (.inr hmatch))]
        · rw [if_neg (fun h => hmatch (hcompare.mp h)), readWord_eq, ih,
            search_succ_of_not_stop
              (endsWalk_eq_false_iff.mpr ⟨hzero, hmatch⟩)]
          rfl

theorem lookup_eq (link : Nat) (key : Key) :
    u.lookup link key = chainEnd u.data link key := by
  rw [lookup, readWord_eq, chainLoop_eq, chainEnd, bucket]

/-- What `del` does at the end of its walk. -/
def unlink (p : Nat × Nat) : Outcome GshmUpr Bool :=
  if p.2 = 0 then .returned false u
  else
    .returned true (u.writeCxl p.1 8
      (ofWord (nextEntry u.data (64 + u.self.valueSize) p.2))).2

theorem delLoop_eq (key : Key) (fuel : Nat) (p : Nat × Nat) :
    u.delLoop key fuel p.1 p.2 =
      match search (nextLink u.data (64 + u.self.valueSize))
        (endsLinkWalk u.data key) fuel p with
      | none => .running
      | some p => u.unlink p := by
  induction fuel generalizing p with
  | zero => rfl
  | succ fuel ih =>
      rw [delLoop, Nat.add_assoc]
      by_cases hzero : p.2 = 0
      · have hends : endsLinkWalk u.data key p = true :=
          endsWalk_eq_true_iff.mpr (.inl hzero)
        rw [search_succ_of_stop hends, if_pos hzero]
        exact (if_pos hzero).symm
      · rw [if_neg hzero]
        have hcompare := u.compareCxl_eq_zero_iff p.2 key
        by_cases hmatch : keyAt u.data p.2 = key
        · have hends : endsLinkWalk u.data key p = true :=
            endsWalk_eq_true_iff.mpr (.inr hmatch)
          rw [search_succ_of_stop hends]
          simp only [if_pos (hcompare.mpr hmatch), readWord_eq]
          exact (if_neg hzero).symm
        · have hgoes : endsLinkWalk u.data key p = false :=
            endsWalk_eq_false_iff.mpr ⟨hzero, hmatch⟩
          rw [search_succ_of_not_stop hgoes]
          simp only [if_neg (fun h => hmatch (hcompare.mp h)), readWord_eq]
          exact ih (nextLink u.data (64 + u.self.valueSize) p)

theorem del_eq (key : Key) :
    u.del key =
      match linkEnd u.data (64 + u.self.valueSize) key with
      | none => .running
      | some p => u.unlink p := by
  rw [del, readWord_eq]
  exact delLoop_eq u key walkFuel (entryOffset key, _)

end Walks

/-! ## The writes -/

section Effects

variable {u : GshmUpr}

@[simp] theorem writeCxl_self (offset size : Nat) (buf : Bytes) :
    (u.writeCxl offset size buf).2.self = u.self := by
  unfold writeCxl
  split <;> rfl

@[simp] theorem fillEntry_self (start valueSize : Nat) (key : Key)
    (value : Bytes) :
    (u.fillEntry start valueSize key value).self = u.self := by
  simp only [fillEntry, writeCxl_self]

/-- Below the middle of the address space no pointer is null. -/
theorem writeCxl_of_lt {offset : Nat} (h : offset < 2 ^ 63) (size : Nat)
    (buf : Bytes) :
    u.writeCxl offset size buf =
      (0, { u with data := store u.data offset buf size }) :=
  if_neg (getDataVaddr_ne_zero u.self.dataAddr h)

theorem fillEntry_eq {start valueSize : Nat}
    (h : start + (72 + valueSize) ≤ 2 ^ 63) (key : Key) (value : Bytes) :
    u.fillEntry start valueSize key value =
      { u with data := writeEntry u.data valueSize start key value } := by
  have hvalue : wrap (start + 64) < 2 ^ 63 := by
    rw [wrap_of_lt (by omega)]
    omega
  have hnext : wrap (start + 64 + valueSize) < 2 ^ 63 := by
    rw [wrap_of_lt (by omega)]
    omega
  simp only [fillEntry, writeCxl_of_lt (show start < 2 ^ 63 by omega),
    writeCxl_of_lt hvalue, writeCxl_of_lt hnext]
  rfl

theorem writeCxl_bucket (key : Key) (w : Nat) :
    u.writeCxl (entryOffset key) 8 (ofWord w) =
      (0, { u with data := setBucket u.data key w }) := by
  have hend := entryOffset_add_le key
  exact writeCxl_of_lt (by omega) 8 _

/-- `insertPlain` where the partition is not full. -/
theorem insertPlain_of_room
    (hnotFull : ¬ u.self.partitionEnd <
      wrap (u.self.nextFreeOffset + u.self.entrySize))
    (hend : u.self.nextFreeOffset + (72 + u.self.valueSize) ≤ 2 ^ 63)
    (hadvance : wrap (u.self.nextFreeOffset + u.self.entrySize) =
      u.self.nextFreeOffset + u.self.entrySize) (key : Key) (value : Bytes) :
    u.insertPlain key value = .returned true
      ⟨insertEntry u.data u.self.valueSize u.self.nextFreeOffset key value,
        u.self.advance⟩ := by
  rw [insertPlain, if_neg hnotFull, fillEntry_eq hend]
  simp only [writeCxl_bucket, hadvance]
  rfl

/-- `put` behind a walk that finds nothing is `insert`. -/
theorem put_of_lookup_zero (hsize : u.self.valueSize = 256)
    (hlength : u.self.entrySize = 328) {key : Key}
    (hlookup : u.lookup 320 key = some 0) (value : Bytes) :
    u.put key value = u.insertPlain key value := by
  rw [put, insertPlain, hlookup, hlength, hsize]
  simp only [ne_eq, not_true_eq_false, if_false]

/-! ## Chains of at most one entry -/

section Short

variable {key : Key} (h : ShortChain u.data u.self.valueSize key)
include h

theorem get_of_short (value : Bytes) :
    u.get key value =
      if entryOf u.data key = 0 then .returned (false, value) u
      else .returned (true, fetch u.data (wrap (entryOf u.data key + 64))
        value u.self.valueSize) u := by
  rw [get, lookup_eq, chainEnd_of_short h]
  rfl

theorem update_of_short (hend : entryOf u.data key ≠ 0 →
      entryOf u.data key + (72 + u.self.valueSize) ≤ 2 ^ 63)
    (value : Bytes) :
    u.update key value =
      if entryOf u.data key = 0 then .returned false u
      else .returned true ⟨writeValue u.data u.self.valueSize
        (entryOf u.data key) value, u.self⟩ := by
  rw [update, lookup_eq, chainEnd_of_short h]
  by_cases hzero : entryOf u.data key = 0
  · simp only [if_pos hzero]
  · have hin := hend hzero
    have hlt : wrap (entryOf u.data key + 64) < 2 ^ 63 := by
      rw [wrap_of_lt (by omega)]
      omega
    simp only [if_neg hzero, writeCxl_of_lt hlt]
    rfl

theorem del_of_short :
    u.del key =
      if entryOf u.data key = 0 then .returned false u
      else .returned true { u with data := setBucket u.data key 0 } := by
  rw [del_eq]
  by_cases hzero : entryOf u.data key = 0
  · have hend := chainEnd_of_short h
    rw [hzero, ← linkEnd_map, Option.map_eq_some_iff] at hend
    obtain ⟨p, hp, hp0⟩ := hend
    rw [hp, if_pos hzero]
    exact if_pos hp0
  · have hlast : nextEntry u.data (64 + u.self.valueSize)
        (entryOf u.data key) = 0 := by
      have hbucket := (entryOf_eq_bucket hzero).1
      rw [hbucket] at hzero ⊢
      exact h hzero
    rw [linkEnd_of_stored hzero, if_neg hzero]
    show unlink u (entryOffset key, entryOf u.data key) = _
    rw [unlink, if_neg hzero, hlast, writeCxl_bucket]

theorem lookup_put_of_short (hsize : u.self.valueSize = 256) :
    u.lookup 320 key = some (entryOf u.data key) := by
  rw [← chainEnd_of_short h, hsize]
  exact u.lookup_eq 320 key

/-- `put` of a stored key, whose entries have the length it assumes. -/
theorem put_of_short_stored (hsize : u.self.valueSize = 256)
    (hne : entryOf u.data key ≠ 0)
    (hend : entryOf u.data key + (72 + u.self.valueSize) ≤ 2 ^ 63)
    (value : Bytes) :
    u.put key value = .returned true ⟨writeValue u.data u.self.valueSize
      (entryOf u.data key) value, u.self⟩ := by
  have hlt : wrap (entryOf u.data key + 64) < 2 ^ 63 := by
    rw [wrap_of_lt (by omega)]
    omega
  rw [put, lookup_put_of_short h hsize, hsize]
  simp only [if_pos hne, writeCxl_of_lt hlt]
  rfl

/-- `put` of a key without an entry is `insert`. -/
theorem put_of_short_absent (hsize : u.self.valueSize = 256)
    (hlength : u.self.entrySize = 328) (hzero : entryOf u.data key = 0)
    (value : Bytes) : u.put key value = u.insertPlain key value :=
  put_of_lookup_zero hsize hlength
    (by rw [lookup_put_of_short h hsize, hzero]) value

end Short

/-! ## The operations on a sound memory -/

variable (h : Sound u.self u.data) (key : Key)
include h

theorem get_eq (value : Bytes) :
    u.get key value =
      if entryOf u.data key = 0 then .returned (false, value) u
      else .returned (true, fetch u.data (wrap (entryOf u.data key + 64))
        value u.self.valueSize) u :=
  get_of_short (h.shape.short key) value

theorem update_eq (value : Bytes) :
    u.update key value =
      if entryOf u.data key = 0 then .returned false u
      else .returned true ⟨writeValue u.data u.self.valueSize
        (entryOf u.data key) value, u.self⟩ :=
  update_of_short (h.shape.short key) (fun hne => h.entry_end_le hne) value

theorem insert_eq_insertPlain (value : Bytes) :
    u.insert key value = u.insertPlain key value :=
  if_neg (by rw [h.noBatch]; decide)

/-- `insert` where the partition is full. -/
theorem insert_of_full (hfull : ¬ HasRoom u.self) (value : Bytes) :
    u.insert key value = .returned false u := by
  rw [insert_eq_insertPlain h key]
  exact if_pos (h.full_iff.mpr hfull)

theorem insert_of_room (hroom : HasRoom u.self) (value : Bytes) :
    u.insert key value = .returned true
      ⟨insertEntry u.data u.self.valueSize u.self.nextFreeOffset key value,
        u.self.advance⟩ := by
  have hnotFull := mt h.full_iff.mp (not_not.mpr hroom)
  rw [insert_eq_insertPlain h key]
  exact insertPlain_of_room hnotFull (h.room hroom) (h.wrap_advance hroom)
    key value

theorem del_eq_of_sound :
    u.del key =
      if entryOf u.data key = 0 then .returned false u
      else .returned true { u with data := setBucket u.data key 0 } :=
  del_of_short (h.shape.short key)

theorem put_of_stored (hsize : u.self.valueSize = 256)
    (hne : entryOf u.data key ≠ 0) (value : Bytes) :
    u.put key value = .returned true ⟨writeValue u.data u.self.valueSize
      (entryOf u.data key) value, u.self⟩ :=
  put_of_short_stored (h.shape.short key) hsize hne (h.entry_end_le hne)
    value

theorem put_of_absent (hsize : u.self.valueSize = 256)
    (hzero : entryOf u.data key = 0) (value : Bytes) :
    u.put key value = u.insert key value := by
  rw [insert_eq_insertPlain h key]
  exact put_of_short_absent (h.shape.short key) hsize
    (by rw [h.sizes, hsize]) hzero value

end Effects

end GshmUpr

/-! ## Calls -/

/-- A call of the public interface. -/
inductive UprOp where
  | get (key : Key) (value : Bytes)
  | update (key : Key) (value : Bytes)
  | insert (key : Key) (value : Bytes)
  | put (key : Key) (value : Bytes)
  | del (key : Key)

/-- What a call hands back: an answer, for `get` with the value buffer. -/
inductive Reply where
  | answer (found : Bool)
  | fetched (found : Bool) (value : Bytes)

/-- One call; a call that does not return has no step. -/
def uprStep (u : GshmUpr) : UprOp → Option (Reply × GshmUpr)
  | .get key value =>
      (u.get key value).next.map fun r => (.fetched r.1.1 r.1.2, r.2)
  | .update key value =>
      (u.update key value).next.map fun r => (.answer r.1, r.2)
  | .insert key value =>
      (u.insert key value).next.map fun r => (.answer r.1, r.2)
  | .put key value => (u.put key value).next.map fun r => (.answer r.1, r.2)
  | .del key => (u.del key).next.map fun r => (.answer r.1, r.2)

end SHMemora.Ports
