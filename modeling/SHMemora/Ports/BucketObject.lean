import SHMemora.Verified.AtomicObject
import SHMemora.Ports.ChainMap
import SHMemora.Ports.ConcurrentDeletion

/-!
# Buckets with one entry

What the stores of several `gshm_upr` objects amount to: each bucket holds one
key with its value or nothing, since an insertion replaces what it finds, and
each object has a number of blocks left.  `CellEffect` says what a call does to
the bucket of its key, and `Buckets.Serves` is the sequential specification of
the whole.  A `put` may overwrite the value of its key or take a new block for
it; both leave the same key and value.

`storedBuckets` is what a data area stands for.
-/

namespace SHMemora.Ports

open SHMemora.Verified.ByteMemory
open SHMemora.Verified.AtomicObject

/-! ## The specification -/

/-- The 256 bytes of a value. -/
abbrev Value := Fin 256 → UInt8

/-- The value a buffer holds. -/
def Value.ofBuf (buf : Bytes) : Value := fun k => buf k

/-- What a bucket holds. -/
abbrev Cell := Option (Key × Value)

/-- The bucket holds another key or none. -/
def Cell.Lacks (cell : Cell) (key : Key) : Prop := ∀ v, cell ≠ some (key, v)

/-- What a call does to the bucket of its key and to the number of blocks its
object has left. -/
inductive CellEffect : Cell → Nat → UprOp → Reply → Cell → Nat → Prop
  | get (key : Key) (v : Value) (buf : Bytes) (n : Nat) :
      CellEffect (some (key, v)) n (.get key buf)
        (.fetched true (overlay v buf)) (some (key, v)) n
  | getMissing {cell : Cell} {key : Key} (hlacks : cell.Lacks key)
      (buf : Bytes) (n : Nat) :
      CellEffect cell n (.get key buf) (.fetched false buf) cell n
  | overwrite {op : UprOp} {value : Bytes}
      (hop : op = .update op.key value ∨ op = .put op.key value) (v : Value)
      (n : Nat) :
      CellEffect (some (op.key, v)) n op (.answer true)
        (some (op.key, .ofBuf value)) n
  | updateMissing {cell : Cell} {key : Key} (hlacks : cell.Lacks key)
      (value : Bytes) (n : Nat) :
      CellEffect cell n (.update key value) (.answer false) cell n
  | place {op : UprOp} {value : Bytes}
      (hop : op = .insert op.key value ∨ op = .put op.key value) (cell : Cell)
      (n : Nat) :
      CellEffect cell (n + 1) op (.answer true) (some (op.key, .ofBuf value)) n
  | insertFull (cell : Cell) (key : Key) (value : Bytes) :
      CellEffect cell 0 (.insert key value) (.answer false) cell 0
  | putFull {cell : Cell} {key : Key} (hlacks : cell.Lacks key)
      (value : Bytes) :
      CellEffect cell 0 (.put key value) (.answer false) cell 0
  | del (key : Key) (v : Value) (n : Nat) :
      CellEffect (some (key, v)) n (.del key) (.answer true) none n
  | delMissing {cell : Cell} {key : Key} (hlacks : cell.Lacks key) (n : Nat) :
      CellEffect cell n (.del key) (.answer false) cell n

/-- The offsets of the bucket words. -/
abbrev Bucket := { b : Nat // ∃ key, entryOffset key = b }

/-- The bucket of a key. -/
def home (key : Key) : Bucket := ⟨entryOffset key, key, rfl⟩

theorem home_eq_iff {key key' : Key} :
    home key = home key' ↔ entryOffset key = entryOffset key' :=
  Subtype.ext_iff

theorem exists_home (b : Bucket) : ∃ key, b = home key := by
  obtain ⟨_, key, rfl⟩ := b
  exact ⟨key, rfl⟩

/-- What all buckets hold, and how many blocks each object has left. -/
@[ext]
structure Buckets (ι : Type) where
  cells : Bucket → Cell
  left : ι → Nat

section Specification

variable {ι : Type} [DecidableEq ι]

/-- Nothing is stored, and nobody has taken a block. -/
def Buckets.empty (blocks : Nat) : Buckets ι where
  cells := fun _ => none
  left := fun _ => blocks

/-- A bucket and the number of blocks of an object have changed. -/
def Buckets.put (s : Buckets ι) (i : ι) (b : Bucket) (cell : Cell) (n : Nat) :
    Buckets ι where
  cells := Function.update s.cells b cell
  left := Function.update s.left i n

/-- The calls, one at a time. -/
def Buckets.Serves (s : Buckets ι) (i : ι) (op : UprOp) (reply : Reply)
    (s' : Buckets ι) : Prop :=
  ∃ cell n, CellEffect (s.cells (home op.key)) (s.left i) op reply cell n ∧
    s' = s.put i (home op.key) cell n

theorem Buckets.put_self (s : Buckets ι) (i : ι) (b : Bucket) :
    s.put i b (s.cells b) (s.left i) = s := by
  simp [Buckets.put]

/-- A call that changes nothing. -/
theorem Buckets.serves_self {s : Buckets ι} {i : ι} {op : UprOp}
    {reply : Reply} (h : CellEffect (s.cells (home op.key)) (s.left i) op reply
      (s.cells (home op.key)) (s.left i)) : s.Serves i op reply s :=
  ⟨_, _, h, (s.put_self i (home op.key)).symm⟩

end Specification

/-! ## What a data area stands for -/

/-- What the bucket at `b` holds. -/
def cellAt (m : Bytes) (b : Bucket) : Cell :=
  if loadWord m b.val = 0 then none
  else some (keyAt m (loadWord m b.val), storedValue m 256 (loadWord m b.val))

/-- The number of blocks an object has left. -/
def blocksLeft (obj : Instance) : Nat :=
  (obj.partitionEnd - obj.nextFreeOffset) / 328

/-- The buckets of a data area and what the objects have left. -/
def storedBuckets {ι : Type} (σ : UprShared ι) : Buckets ι where
  cells := cellAt σ.data
  left := fun i => blocksLeft (σ.members i)

section Cells

variable {m m' : Bytes} {key : Key}

theorem cellAt_home_of_zero (h : bucket m key = 0) :
    cellAt m (home key) = none := if_pos h

theorem cellAt_home_of_ne (h : bucket m key ≠ 0) :
    cellAt m (home key) =
      some (keyAt m (bucket m key), storedValue m 256 (bucket m key)) :=
  if_neg h

/-- The bucket of a key whose word leads to another key or nowhere. -/
theorem lacks_of_miss
    (h : bucket m key ≠ 0 → keyAt m (bucket m key) ≠ key) :
    (cellAt m (home key)).Lacks key := by
  intro v hcell
  by_cases hzero : bucket m key = 0
  · simp [cellAt_home_of_zero hzero] at hcell
  · rw [cellAt_home_of_ne hzero] at hcell
    exact h hzero (congrArg Prod.fst (Option.some.inj hcell))

theorem cellAt_home_of_hit {e : Nat} (hbucket : bucket m key = e) (hne : e ≠ 0)
    (hkey : keyAt m e = key) :
    cellAt m (home key) = some (key, storedValue m 256 e) := by
  rw [cellAt_home_of_ne (by rw [hbucket]; exact hne), hbucket, hkey]

/-- A bucket whose word and entry are the same. -/
theorem cellAt_congr {b : Bucket} (hword : loadWord m' b.val = loadWord m b.val)
    (hentry : loadWord m b.val ≠ 0 → Agree m m' (loadWord m b.val) 328 ∧
      loadWord m b.val + 328 ≤ 2 ^ 63) : cellAt m' b = cellAt m b := by
  unfold cellAt
  rw [hword]
  by_cases hzero : loadWord m b.val = 0
  · simp [hzero]
  · have h := hentry hzero
    have hkey := keyAt_congr (by omega)
      (h.1.mono (Nat.le_refl _) (show _ + 64 ≤ _ + 328 by omega))
    have hvalue : storedValue m' 256 (loadWord m b.val) =
        storedValue m 256 (loadWord m b.val) :=
      storedValue_congr (h.1.mono (Nat.le_refl _) (by omega))
    rw [if_neg hzero, if_neg hzero, hkey, hvalue]

/-- What `get` copies out of an entry. -/
theorem fetch_eq_overlay {e : Nat} (hend : e + 328 ≤ 2 ^ 63) (buf : Bytes) :
    fetch m (wrap (e + 64)) buf 256 = overlay (storedValue m 256 e) buf := by
  funext k
  rw [fetch_apply, overlay]
  by_cases hk : k < 256
  · have hstart : wrap (e + 64) = e + 64 := wrap_of_lt (by omega)
    rw [if_pos hk, dif_pos hk, storedValue, hstart, wrap_of_lt (by omega)]
  · rw [if_neg hk, dif_neg hk]

/-- The value of an entry that has been overwritten. -/
theorem storedValue_writeValue_self {e : Nat} (hend : e + 328 ≤ 2 ^ 63)
    (value : Bytes) :
    storedValue (writeValue m 256 e value) 256 e = Value.ofBuf value :=
  funext fun k => value_writeValue hend k.isLt

variable {ι : Type} {σ σ' : UprShared ι}

/-- An entry in use is the one its bucket leads to. -/
theorem StoreSound.current_of_bucket (hσ : StoreSound σ) {e : Nat}
    (hne : e ≠ 0) (hword : bucket σ.data key = e) :
    bucket σ.data (keyAt σ.data e) = e := by
  rw [← hword] at hne
  have hhome := hσ.chained.home key hne
  rw [hword] at hhome
  rw [bucket, hhome]
  exact hword

/-- The value of one entry has changed at most. -/
theorem cellAt_eq_of_value (hσ : StoreSound σ) {e : Nat} {b : Bucket}
    (hword : loadWord m' b.val = loadWord σ.data b.val)
    (hother : loadWord σ.data b.val ≠ e)
    (hkeys : ∀ e', Allocated σ.members e' →
      keyAt m' e' = keyAt σ.data e')
    (hvalues : ∀ e', Allocated σ.members e' → e' ≠ e →
      storedValue m' 256 e' = storedValue σ.data 256 e') :
    cellAt m' b = cellAt σ.data b := by
  unfold cellAt
  rw [hword]
  by_cases hzero : loadWord σ.data b.val = 0
  · simp [hzero]
  · obtain ⟨key, rfl⟩ := exists_home b
    have halloc : Allocated σ.members (loadWord σ.data (home key).val) :=
      hσ.chained.pointers key hzero
    rw [if_neg hzero, if_neg hzero, hkeys _ halloc, hvalues _ halloc hother]

/-- No entry changes, and none is linked or unlinked. -/
theorem SameEntries.buckets_eq (h : SameEntries σ σ') (hσ : StoreSound σ)
    (hmembers : σ'.members = σ.members) :
    storedBuckets σ' = storedBuckets σ := by
  apply Buckets.ext
  · funext b
    obtain ⟨key, rfl⟩ := exists_home b
    refine cellAt_congr (h.buckets key) fun hne => ?_
    have halloc := hσ.chained.pointers key hne
    exact ⟨h.entries _ halloc, hσ.end_le halloc⟩
  · simp [storedBuckets, hmembers]

/-- A write to a data area without entries in the bucket. -/
theorem cellAt_setBucket_of_ne {w : Nat} {key' : Key} (hσ : StoreSound σ)
    (hne : home key' ≠ home key) :
    cellAt (setBucket σ.data key w) (home key') =
      cellAt σ.data (home key') := by
  have hoffset : entryOffset key' ≠ entryOffset key := fun heq =>
    hne (home_eq_iff.mpr heq)
  refine cellAt_congr (bucket_setBucket_of_ne hoffset) fun hzero => ?_
  have halloc := hσ.chained.pointers key' hzero
  exact ⟨hσ.hosts.blockSet.agree_setBucket halloc key w, hσ.end_le halloc⟩

end Cells

/-! ## Blocks left -/

section Left

variable {obj : Instance} (hplain : Plain obj) (hsize : obj.valueSize = 256)
include hplain hsize

theorem hasRoom_iff_blocksLeft : HasRoom obj ↔ blocksLeft obj ≠ 0 := by
  have hsizes := hplain.sizes
  have hle := hplain.le_end
  unfold HasRoom blocksLeft
  omega

theorem blocksLeft_advance (hroom : HasRoom obj) :
    blocksLeft obj = blocksLeft obj.advance + 1 := by
  have hsizes := hplain.sizes
  unfold HasRoom at hroom
  show (obj.partitionEnd - obj.nextFreeOffset) / 328 =
    (obj.partitionEnd - (obj.nextFreeOffset + obj.entrySize)) / 328 + 1
  omega

end Left

end SHMemora.Ports
