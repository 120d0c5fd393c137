import SHMemora.Ports.TokenSchemes

/-!
# Buckets, entries and chains of the key-value store

The data area holds a table of buckets, one 64-bit word each, and one
partition per host.  A bucket word is `0` or the offset of an entry: 64 bytes
of key, `value_size` bytes of value and the offset of the next entry.  The
layout and the members that steer it are shared by `gshm` and `gshm_upr`.

Offsets are relative to `data_addr` and reduced modulo `2 ^ 64`.  The data
area is taken to be as large as the address space: an access behind the
mapping is a read or a write here, not a fault.

Both classes look a key up by the same walk: from the bucket word along the
next pointers up to a zero or to an entry with the key.  `chainEnd` is that
walk with `walkFuel` rounds; `chainEnd_eq_none_iff` says that the rounds are
enough to tell the walks that end from those that go on for ever.
-/

namespace SHMemora.Ports

open SHMemora.Verified.OrbitSearch
open SHMemora.Verified.ByteMemory

/-! ## Constants of `gshmp.h` -/

/-- `KV_HASH_TABLE_START`. -/
abbrev kvHashTableStart : Nat := 2 ^ 26

/-- `KV_HASH_TABLE_SIZE`, the bytes a partition of the bucket table takes. -/
abbrev kvHashTableSize : Nat := 2 ^ 20

/-- `DATA_SEG_START`. -/
abbrev dataSegStart : Nat := 2 ^ 27

/-- `DATA_PARTITION_SIZE`. -/
abbrev dataPartitionSize : Nat := 2 ^ 30

/-! ## Keys -/

/-- The 64 bytes of a key. -/
abbrev Key := Fin 64 → UInt8

/-- A key as a buffer. -/
def Key.buf (key : Key) : Bytes := fun i => if h : i < 64 then key ⟨i, h⟩ else 0

/-- The 64 bytes at offset `e`. -/
def keyAt (m : Bytes) (e : Nat) : Key := fun i => m (wrap (e + i))

theorem Key.buf_of_lt (key : Key) {i : Nat} (h : i < 64) :
    key.buf i = key ⟨i, h⟩ := dif_pos h

/-- `safe_memcmp`, with the two pointers moved along. -/
def safeMemcmp (a b : Bytes) : Nat → Int
  | 0 => 0
  | len + 1 =>
      if a 0 ≠ b 0 then (a 0).toNat - (b 0).toNat
      else safeMemcmp (fun i => a (i + 1)) (fun i => b (i + 1)) len

theorem safeMemcmp_eq_zero_iff {a b : Bytes} {len : Nat} :
    safeMemcmp a b len = 0 ↔ ∀ i, i < len → a i = b i := by
  induction len generalizing a b with
  | zero => simp [safeMemcmp]
  | succ len ih =>
      rw [safeMemcmp]
      by_cases hhead : a 0 = b 0
      · rw [if_neg (not_not.mpr hhead), ih]
        constructor
        · intro h i hi
          cases i with
          | zero => exact hhead
          | succ i => exact h i (by omega)
        · exact fun h i hi => h (i + 1) (by omega)
      · rw [if_pos hhead]
        have hne : (a 0).toNat ≠ (b 0).toNat :=
          fun h => hhead (UInt8.toNat_inj.mp h)
        constructor
        · intro h; omega
        · intro h; exact absurd (h 0 (by omega)) hhead

/-- Comparing the 64 bytes at `e` with a key. -/
theorem safeMemcmp_key_iff {m : Bytes} {e : Nat} {key : Key} :
    safeMemcmp (fun i => m (wrap (e + i))) key.buf 64 = 0 ↔
      keyAt m e = key := by
  rw [safeMemcmp_eq_zero_iff]
  constructor
  · intro h
    funext i
    rw [keyAt, h i i.isLt, Key.buf_of_lt]
  · rintro rfl i hi
    rw [Key.buf_of_lt _ hi, keyAt]

/-- `entry_offset`: the bucket word of a key, chosen by its top byte and its
17 low bits. -/
def entryOffset (key : Key) : Nat :=
  let partitionId := word key.buf >>> 56
  let hashOffset := word key.buf &&& (2 ^ 17 - 1)
  wrap (kvHashTableStart + partitionId * kvHashTableSize + hashOffset * 8)

/-- The bucket words in closed form. -/
theorem entryOffset_eq (key : Key) :
    entryOffset key = 2 ^ 26 + word key.buf / 2 ^ 56 * 2 ^ 20 +
      word key.buf % 2 ^ 17 * 8 := by
  have hlt := word_lt key.buf
  rw [entryOffset, Nat.shiftRight_eq_div_pow, Nat.and_two_pow_sub_one_eq_mod,
    wrap_of_lt (by unfold kvHashTableStart kvHashTableSize; omega)]

/-- The bucket table ends below the first partition in use. -/
theorem entryOffset_add_le (key : Key) :
    entryOffset key + 8 ≤ 2 ^ 26 + 2 ^ 28 := by
  have hlt := word_lt key.buf
  rw [entryOffset_eq]
  omega

/-- Two bucket words are the same or do not overlap. -/
theorem apart_of_entryOffset_ne {k k' : Key}
    (h : entryOffset k ≠ entryOffset k') :
    Apart (entryOffset k) 8 (entryOffset k') 8 := by
  rw [entryOffset_eq, entryOffset_eq] at *
  unfold Apart
  omega

/-! ## Members of a store object -/

/-- `data_addr`: a user-space address behind the protection table. -/
structure DataAddr where
  addr : Nat
  behind_table : hashTableSize ≤ addr
  lt_userEnd : addr < 2 ^ 47

/-- Below the middle of the address space no pointer is null. -/
theorem getDataVaddr_ne_zero (dataAddr : DataAddr) {offset : Nat}
    (h : offset < 2 ^ 63) : getDataVaddrByOffset dataAddr.addr offset ≠ 0 := by
  have hbehind := dataAddr.behind_table
  have huser := dataAddr.lt_userEnd
  unfold hashTableSize at hbehind
  rw [getDataVaddrByOffset, wrap_of_lt (by omega)]
  omega

/-- The members of `gshm` and `gshm_upr` that place entries.  The two members
of type `int`, `value_size` and `entry_size`, stand here as the code uses
them, converted to `size_t`. -/
structure Instance where
  dataAddr : DataAddr
  hostId : Nat
  nextFreeOffset : Nat
  availableSlots : Nat
  valueSize : Nat
  entrySize : Nat
  kvSize : Nat
  batchKvs : Nat
  useBatch : Bool

/-- `get_mac`: the last byte of the MAC address, `1` where there is none to
be had. -/
def getMac : Option UInt8 → Nat
  | some mac => mac.toNat
  | none => 1

theorem getMac_lt (mac : Option UInt8) : getMac mac < 256 := by
  cases mac with
  | none => decide
  | some mac => exact mac.toNat_lt

namespace Instance

/-- `partition_start`. -/
def partitionStart (self : Instance) : Nat :=
  wrap (dataSegStart + self.hostId * dataPartitionSize)

/-- `partition_end`. -/
def partitionEnd (self : Instance) : Nat :=
  wrap (self.partitionStart + dataPartitionSize)

/-- The members after construction. -/
def construct (dataAddr : DataAddr) (mac : Option UInt8) : Instance where
  dataAddr := dataAddr
  hostId := getMac mac
  nextFreeOffset := wrap (dataSegStart + getMac mac * dataPartitionSize)
  availableSlots := 16
  valueSize := 256
  entrySize := 64 + 8 + 256
  kvSize := 64 + 8 + 256
  batchKvs := 16
  useBatch := false

/-- The public members `value_size` and `entry_size` set to go together. -/
def withValueSize (self : Instance) (valueSize : Nat) : Instance :=
  { self with valueSize := valueSize, entrySize := 72 + valueSize }

/-- The members on host 1 with the default sizes. -/
def firstHost : Instance :=
  construct ⟨2 ^ 46, by decide, by decide⟩ (some 1)

theorem partitionStart_eq {self : Instance} (h : self.hostId < 256) :
    self.partitionStart = 2 ^ 27 + self.hostId * 2 ^ 30 :=
  wrap_of_lt (show 2 ^ 27 + self.hostId * 2 ^ 30 < 2 ^ 64 by omega)

theorem partitionStart_construct (dataAddr : DataAddr) (mac : Option UInt8) :
    (construct dataAddr mac).partitionStart = 2 ^ 27 + getMac mac * 2 ^ 30 :=
  partitionStart_eq (getMac_lt mac)

theorem nextFreeOffset_construct (dataAddr : DataAddr) (mac : Option UInt8) :
    (construct dataAddr mac).nextFreeOffset =
      (construct dataAddr mac).partitionStart := rfl

theorem partitionEnd_eq {self : Instance}
    (h : self.partitionStart < 2 ^ 63) :
    self.partitionEnd = self.partitionStart + 2 ^ 30 :=
  wrap_of_lt (by unfold dataPartitionSize; omega)

end Instance

/-! ## Outcomes -/

/-- How a call ends: it returns, it calls `exit`, or its loop is still going
round when the rounds of the model are used up. -/
inductive Outcome (σ α : Type) where
  | returned (result : α) (state : σ)
  | exited (state : σ)
  | running

/-- The result and the state behind a call that returns. -/
def Outcome.next {σ α : Type} : Outcome σ α → Option (α × σ)
  | .returned result state => some (result, state)
  | .exited _ => none
  | .running => none

theorem Outcome.next_map_eq_some_iff {σ α β : Type} {call : Outcome σ α}
    {f : α × σ → β} {r : β} :
    call.next.map f = some r ↔
      ∃ result state, call = .returned result state ∧
        f (result, state) = r := by
  cases call with
  | returned result state => simp [Outcome.next]
  | exited state => simp [Outcome.next]
  | running => simp [Outcome.next]

/-! ## Chains -/

section Chains

variable (m : Bytes) (link : Nat)

/-- The next pointer of the entry at `e`; `link` is its place in the entry,
`64 + value_size` everywhere but in `put`. -/
def nextEntry (e : Nat) : Nat := loadWord m (wrap (e + link))

/-- A walk for `key` ends here. -/
def endsWalk (key : Key) (e : Nat) : Bool :=
  decide (e = 0) || decide (keyAt m e = key)

/-- As many rounds as there are offsets. -/
def walkFuel : Nat := 2 ^ 64

/-- The bucket word of a key. -/
def bucket (key : Key) : Nat := loadWord m (entryOffset key)

/-- Where a walk for `key` ends: at an entry that holds the key, or in
`0`. -/
def chainEnd (key : Key) : Option Nat :=
  search (nextEntry m link) (endsWalk m key) walkFuel (bucket m key)

/-- The place of the pointer to the next entry, and that entry. -/
def nextLink (p : Nat × Nat) : Nat × Nat :=
  (wrap (p.2 + link), nextEntry m link p.2)

/-- A walk for `key` ends at this entry. -/
def endsLinkWalk (key : Key) (p : Nat × Nat) : Bool := endsWalk m key p.2

/-- Where the walk of `del` ends, and the place of the pointer to there. -/
def linkEnd (key : Key) : Option (Nat × Nat) :=
  search (nextLink m link) (endsLinkWalk m key) walkFuel
    (entryOffset key, bucket m key)

/-- `del` ends where the other walks end. -/
theorem linkEnd_map (key : Key) :
    (linkEnd m link key).map Prod.snd = chainEnd m link key :=
  search_map Prod.snd (fun _ => rfl) (fun _ => rfl) _ _

variable {m link}

theorem endsWalk_eq_true_iff {key : Key} {e : Nat} :
    endsWalk m key e = true ↔ e = 0 ∨ keyAt m e = key := by
  simp [endsWalk]

theorem endsWalk_eq_false_iff {key : Key} {e : Nat} :
    endsWalk m key e = false ↔ e ≠ 0 ∧ keyAt m e ≠ key := by
  simp [endsWalk]

/-- A walk that does not end within `walkFuel` rounds does not end. -/
theorem chainEnd_eq_none_iff {key : Key} :
    chainEnd m link key = none ↔
      ∀ d, endsWalk m key ((nextEntry m link)^[d] (bucket m key)) =
        false := by
  constructor
  · intro h d
    refine never_of_search_eq_none (s := Finset.range (2 ^ 64)) ?_ ?_ h d
    · intro d
      rw [Finset.mem_range]
      cases d with
      | zero => exact loadWord_lt m _
      | succ d =>
          rw [Function.iterate_succ_apply']
          exact loadWord_lt m _
    · rw [Finset.card_range, walkFuel]
  · exact fun h => search_eq_none_iff.mpr fun d _ => h d

/-- A walk ends in `0` or at an entry with the key. -/
theorem keyAt_of_chainEnd {key : Key} {e : Nat}
    (h : chainEnd m link key = some e) : e = 0 ∨ keyAt m e = key := by
  obtain ⟨_, _, _, hend, _⟩ := search_eq_some_iff.mp h
  exact endsWalk_eq_true_iff.mp hend

end Chains

end SHMemora.Ports
