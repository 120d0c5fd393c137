import SHMemora.Ports.StoreLayout

/-!
# The memory of a store with one writer

What the key-value operations leave in the data area as long as one object
with a partition of its own works on it.  Blocks of `72 + value_size` bytes
are handed out one after another, and since an insertion writes a zero next
pointer and then overwrites the bucket word, no chain ever has more than one
entry (`Shape`).

The three ways in which an operation changes the memory are functions on it:
`insertEntry`, `writeValue` and `setBucket`.  Each keeps the shape, and the
frame lemmas say what stays as it is: all blocks but one, all bucket words but
one.
-/

namespace SHMemora.Ports

open SHMemora.Verified.OrbitSearch
open SHMemora.Verified.ByteMemory

/-! ## Blocks -/

section Blocks

variable (valueSize start nextFree : Nat)

/-- A block that has been handed out. -/
def IsBlock (e : Nat) : Prop :=
  ∃ i, e = start + i * (72 + valueSize) ∧ e + (72 + valueSize) ≤ nextFree

/-- The block at `e` holds an entry of the chain of `key`, the last one. -/
structure HoldsEntry (m : Bytes) (key : Key) (e : Nat) : Prop where
  block : IsBlock valueSize start nextFree e
  last : nextEntry m (64 + valueSize) e = 0
  home : entryOffset (keyAt m e) = entryOffset key

/-- The shape of the data area. -/
structure Shape (m : Bytes) : Prop where
  start_ge : 2 ^ 26 + 2 ^ 28 ≤ start
  nextFree_le : nextFree ≤ 2 ^ 63
  cursor : ∃ i, nextFree = start + i * (72 + valueSize)
  entries : ∀ key, bucket m key ≠ 0 →
    HoldsEntry valueSize start nextFree m key (bucket m key)

variable {valueSize start nextFree}

theorem IsBlock.start_le {e : Nat} (h : IsBlock valueSize start nextFree e) :
    start ≤ e := by
  obtain ⟨i, rfl, _⟩ := h
  exact Nat.le_add_right _ _

theorem IsBlock.end_le {e : Nat} (h : IsBlock valueSize start nextFree e) :
    e + (72 + valueSize) ≤ nextFree := by
  obtain ⟨_, _, hend⟩ := h
  exact hend

theorem IsBlock.mono {e nextFree' : Nat}
    (h : IsBlock valueSize start nextFree e) (hle : nextFree ≤ nextFree') :
    IsBlock valueSize start nextFree' e := by
  obtain ⟨i, he, hend⟩ := h
  exact ⟨i, he, Nat.le_trans hend hle⟩

/-- Two blocks are the same or have no byte in common. -/
theorem IsBlock.apart {e e' : Nat} (h : IsBlock valueSize start nextFree e)
    (h' : IsBlock valueSize start nextFree e') (hne : e ≠ e') :
    Apart e (72 + valueSize) e' (72 + valueSize) := by
  obtain ⟨i, rfl, _⟩ := h
  obtain ⟨j, rfl, _⟩ := h'
  rcases Nat.lt_trichotomy i j with hlt | heq | hgt
  · have hstep := Nat.mul_le_mul_right (72 + valueSize) hlt
    rw [Nat.succ_mul] at hstep
    exact .inl (by omega)
  · exact absurd (by rw [heq]) hne
  · have hstep := Nat.mul_le_mul_right (72 + valueSize) hgt
    rw [Nat.succ_mul] at hstep
    exact .inr (by omega)

/-- A bucket word is below every block. -/
theorem entryOffset_add_le_start (hstart : 2 ^ 26 + 2 ^ 28 ≤ start)
    (key : Key) : entryOffset key + 8 ≤ start :=
  Nat.le_trans (entryOffset_add_le key) hstart

end Blocks

/-! ## What depends on a block -/

section Frame

variable {valueSize start nextFree : Nat} {m m' : Bytes} {e : Nat}

theorem keyAt_congr (hend : e + 64 ≤ 2 ^ 64) (h : Agree m m' e 64) :
    keyAt m' e = keyAt m e := by
  funext i
  have hi := i.isLt
  rw [keyAt, keyAt, wrap_of_lt (by omega)]
  exact h _ (by omega) (by omega)

theorem nextEntry_congr (hend : e + (72 + valueSize) ≤ 2 ^ 64)
    (h : Agree m m' e (72 + valueSize)) :
    nextEntry m' (64 + valueSize) e = nextEntry m (64 + valueSize) e := by
  rw [nextEntry, nextEntry]
  by_cases hwrap : e + (64 + valueSize) < 2 ^ 64
  · rw [wrap_of_lt hwrap]
    exact loadWord_congr (by omega) (h.mono (by omega) (by omega))
  · omega

theorem bucket_congr {key : Key} (h : Agree m m' (entryOffset key) 8) :
    bucket m' key = bucket m key := by
  have hend := entryOffset_add_le key
  exact loadWord_congr (by omega) h

theorem HoldsEntry.congr {key : Key} (hle : nextFree ≤ 2 ^ 63)
    (h : HoldsEntry valueSize start nextFree m key e)
    (hagree : Agree m m' e (72 + valueSize)) :
    HoldsEntry valueSize start nextFree m' key e := by
  have hend := h.block.end_le
  refine ⟨h.block, ?_, ?_⟩
  · rw [nextEntry_congr (by omega) hagree, h.last]
  · rw [keyAt_congr (by omega) (hagree.mono (Nat.le_refl _) (by omega)),
      h.home]

theorem HoldsEntry.mono {key : Key} {nextFree' : Nat}
    (h : HoldsEntry valueSize start nextFree m key e)
    (hle : nextFree ≤ nextFree') :
    HoldsEntry valueSize start nextFree' m key e :=
  ⟨h.block.mono hle, h.last, h.home⟩

end Frame

/-! ## The entry of a key -/

/-- The entry that holds the key, `0` if there is none. -/
def entryOf (m : Bytes) (key : Key) : Nat :=
  if keyAt m (bucket m key) = key then bucket m key else 0

section Entry

variable {valueSize start nextFree : Nat} {m : Bytes}

/-- The chain of a key has at most one entry. -/
def ShortChain (m : Bytes) (valueSize : Nat) (key : Key) : Prop :=
  bucket m key ≠ 0 → nextEntry m (64 + valueSize) (bucket m key) = 0

/-- A chain of at most one entry is walked in at most two rounds. -/
theorem chainEnd_of_short {key : Key} (h : ShortChain m valueSize key) :
    chainEnd m (64 + valueSize) key = some (entryOf m key) := by
  have hfuel : walkFuel = (2 ^ 64 - 2) + 1 + 1 := by decide
  rw [chainEnd, hfuel]
  by_cases hzero : bucket m key = 0
  · rw [search_succ_of_stop (endsWalk_eq_true_iff.mpr (.inl hzero)), entryOf,
      hzero, ite_self]
  · by_cases hmatch : keyAt m (bucket m key) = key
    · rw [search_succ_of_stop (endsWalk_eq_true_iff.mpr (.inr hmatch)),
        entryOf, if_pos hmatch]
    · have hlast := h hzero
      rw [search_succ_of_not_stop
          (endsWalk_eq_false_iff.mpr ⟨hzero, hmatch⟩),
        search_succ_of_stop (endsWalk_eq_true_iff.mpr (.inl hlast)), entryOf,
        if_neg hmatch]
      exact congrArg some hlast

theorem Shape.short (h : Shape valueSize start nextFree m) (key : Key) :
    ShortChain m valueSize key :=
  fun hne => (h.entries key hne).last

theorem chainEnd_eq (h : Shape valueSize start nextFree m) (key : Key) :
    chainEnd m (64 + valueSize) key = some (entryOf m key) :=
  chainEnd_of_short (h.short key)

/-- A stored key is in the first entry of its chain. -/
theorem entryOf_eq_bucket {key : Key} (hne : entryOf m key ≠ 0) :
    entryOf m key = bucket m key ∧ keyAt m (bucket m key) = key := by
  unfold entryOf at hne ⊢
  split at hne
  case isTrue hmatch =>
    rw [if_pos hmatch]
    exact ⟨rfl, hmatch⟩
  case isFalse => exact absurd rfl hne

/-- The entry of a stored key. -/
theorem Shape.entryOf_spec (h : Shape valueSize start nextFree m) {key : Key}
    (hne : entryOf m key ≠ 0) :
    entryOf m key = bucket m key ∧ keyAt m (entryOf m key) = key ∧
      HoldsEntry valueSize start nextFree m key (entryOf m key) := by
  obtain ⟨hbucket, hmatch⟩ := entryOf_eq_bucket hne
  rw [hbucket] at hne ⊢
  exact ⟨rfl, hmatch, h.entries key hne⟩

/-- The walk of `del` finds the entry of a stored key behind the bucket
word. -/
theorem linkEnd_of_stored {key : Key} (hne : entryOf m key ≠ 0) :
    linkEnd m (64 + valueSize) key =
      some (entryOffset key, entryOf m key) := by
  obtain ⟨hbucket, hmatch⟩ := entryOf_eq_bucket hne
  have hfuel : walkFuel = (2 ^ 64 - 1) + 1 := by decide
  have hends : endsLinkWalk m key (entryOffset key, bucket m key) = true :=
    endsWalk_eq_true_iff.mpr (.inr hmatch)
  rw [linkEnd, hfuel, search_succ_of_stop hends, hbucket]

/-- A zeroed bucket table is a store without entries. -/
theorem shape_of_zero (hstart : 2 ^ 26 + 2 ^ 28 ≤ start)
    (hlt : start ≤ 2 ^ 63) (hzero : ∀ key, bucket m key = 0) :
    Shape valueSize start start m :=
  ⟨hstart, hlt, ⟨0, by omega⟩, fun key hne => absurd (hzero key) hne⟩

end Entry

/-! ## Writing an entry -/

/-- Key, value and a zero next pointer written at `e`. -/
def writeEntry (m : Bytes) (valueSize e : Nat) (key : Key) (value : Bytes) :
    Bytes :=
  store (store (store m e key.buf 64) (wrap (e + 64)) value valueSize)
    (wrap (e + 64 + valueSize)) (ofWord 0) 8

/-- A word written to the bucket of a key. -/
def setBucket (m : Bytes) (key : Key) (w : Nat) : Bytes :=
  store m (entryOffset key) (ofWord w) 8

/-- A value written into the entry at `e`. -/
def writeValue (m : Bytes) (valueSize e : Nat) (value : Bytes) : Bytes :=
  store m (wrap (e + 64)) value valueSize

/-- What an insertion leaves in memory. -/
def insertEntry (m : Bytes) (valueSize e : Nat) (key : Key) (value : Bytes) :
    Bytes :=
  setBucket (writeEntry m valueSize e key value) key e

section Write

variable {valueSize e : Nat} {m : Bytes} {key : Key} {value : Bytes}

theorem writeEntry_eq (hend : e + (72 + valueSize) ≤ 2 ^ 63) :
    writeEntry m valueSize e key value =
      store (store (store m e key.buf 64) (e + 64) value valueSize)
        (e + 64 + valueSize) (ofWord 0) 8 := by
  rw [writeEntry, wrap_of_lt (by omega), wrap_of_lt (by omega)]

theorem agree_writeEntry (hend : e + (72 + valueSize) ≤ 2 ^ 63) {a k : Nat}
    (hapart : Apart a k e (72 + valueSize)) :
    Agree m (writeEntry m valueSize e key value) a k := by
  unfold Apart at hapart
  rw [writeEntry_eq hend]
  have hkey : Agree m (store m e key.buf 64) a k :=
    agree_store (by omega) (by unfold Apart; omega)
  have hvalue : Agree (store m e key.buf 64)
      (store (store m e key.buf 64) (e + 64) value valueSize) a k :=
    agree_store (by omega) (by unfold Apart; omega)
  exact (hkey.trans hvalue).trans
    (agree_store (by omega) (by unfold Apart; omega))

/-- A key that has been written is read back. -/
theorem keyAt_store_self (hend : e + 64 ≤ 2 ^ 64) :
    keyAt (store m e key.buf 64) e = key := by
  funext i
  have hi := i.isLt
  rw [keyAt, wrap_of_lt (by omega), store_apply hend, if_pos (by omega),
    Nat.add_sub_cancel_left, Key.buf_of_lt key hi]

theorem keyAt_writeEntry (hend : e + (72 + valueSize) ≤ 2 ^ 63) :
    keyAt (writeEntry m valueSize e key value) e = key := by
  have hvalue : Agree (store m e key.buf 64)
      (store (store m e key.buf 64) (e + 64) value valueSize) e 64 :=
    agree_store (by omega) (.inl (Nat.le_refl _))
  have hnext : Agree (store (store m e key.buf 64) (e + 64) value valueSize)
      (store (store (store m e key.buf 64) (e + 64) value valueSize)
        (e + 64 + valueSize) (ofWord 0) 8) e 64 :=
    agree_store (by omega) (.inl (by omega))
  rw [writeEntry_eq hend, keyAt_congr (by omega) (hvalue.trans hnext),
    keyAt_store_self (by omega)]

theorem nextEntry_writeEntry (hend : e + (72 + valueSize) ≤ 2 ^ 63) :
    nextEntry (writeEntry m valueSize e key value) (64 + valueSize) e = 0 := by
  rw [writeEntry_eq hend, nextEntry, ← Nat.add_assoc, wrap_of_lt (by omega)]
  exact loadWord_store_self (by omega) (by decide)

/-- The value is where `get` looks for it. -/
theorem value_writeEntry (hend : e + (72 + valueSize) ≤ 2 ^ 63) {i : Nat}
    (hi : i < valueSize) :
    writeEntry m valueSize e key value (e + 64 + i) = value i := by
  rw [writeEntry_eq hend, store_apply (by omega), if_neg (by omega),
    store_apply (by omega), if_pos (by omega), Nat.add_sub_cancel_left]

theorem agree_setBucket {w a k : Nat} (hapart : Apart a k (entryOffset key) 8) :
    Agree m (setBucket m key w) a k := by
  have hend := entryOffset_add_le key
  exact agree_store (by omega) hapart

theorem bucket_setBucket {w : Nat} (hw : w < 2 ^ 64) {k : Key}
    (hhome : entryOffset k = entryOffset key) :
    bucket (setBucket m key w) k = w := by
  have hend := entryOffset_add_le key
  rw [bucket, setBucket, hhome]
  exact loadWord_store_self (by omega) hw

theorem bucket_setBucket_of_ne {w : Nat} {k : Key}
    (hne : entryOffset k ≠ entryOffset key) :
    bucket (setBucket m key w) k = bucket m k :=
  bucket_congr (agree_setBucket (apart_of_entryOffset_ne hne))

theorem agree_writeValue (hend : e + (72 + valueSize) ≤ 2 ^ 63) {a k : Nat}
    (hapart : Apart a k (e + 64) valueSize) :
    Agree m (writeValue m valueSize e value) a k := by
  rw [writeValue, wrap_of_lt (by omega)]
  exact agree_store (by omega) hapart

theorem value_writeValue (hend : e + (72 + valueSize) ≤ 2 ^ 63) {i : Nat}
    (hi : i < valueSize) :
    writeValue m valueSize e value (e + 64 + i) = value i := by
  rw [writeValue, wrap_of_lt (by omega), store_apply (by omega),
    if_pos (by omega), Nat.add_sub_cancel_left]

end Write

/-! ## The shape is kept -/

section Preservation

variable {valueSize start nextFree : Nat} {m : Bytes} {key : Key}
  {value : Bytes}

/-- What an operation must leave alone to keep the shape: the blocks handed
out, up to the values in them, and the bucket words, up to those it zeroes. -/
theorem Shape.of_frame (h : Shape valueSize start nextFree m) {m' : Bytes}
    (hbucket : ∀ k, bucket m' k = bucket m k ∨ bucket m' k = 0)
    (hlink : ∀ e, IsBlock valueSize start nextFree e →
      nextEntry m' (64 + valueSize) e = nextEntry m (64 + valueSize) e)
    (hkey : ∀ e, IsBlock valueSize start nextFree e →
      keyAt m' e = keyAt m e) :
    Shape valueSize start nextFree m' := by
  refine ⟨h.start_ge, h.nextFree_le, h.cursor, fun k hne => ?_⟩
  rcases hbucket k with hsame | hzero
  · rw [hsame] at hne ⊢
    obtain ⟨hblock, hlast, hhome⟩ := h.entries k hne
    exact ⟨hblock, (hlink _ hblock).trans hlast, by rw [hkey _ hblock, hhome]⟩
  · exact absurd hzero hne

/-! ### Insertion -/

/-- The blocks handed out so far are not touched by an insertion. -/
theorem Shape.agree_insertEntry (h : Shape valueSize start nextFree m)
    (hroom : nextFree + (72 + valueSize) ≤ 2 ^ 63) {e : Nat}
    (hblock : IsBlock valueSize start nextFree e) :
    Agree m (insertEntry m valueSize nextFree key value) e
      (72 + valueSize) := by
  have hbelow := entryOffset_add_le_start h.start_ge key
  have hstart := hblock.start_le
  have hend := hblock.end_le
  have hentry : Agree m (writeEntry m valueSize nextFree key value) e
      (72 + valueSize) := agree_writeEntry hroom (.inl hend)
  exact hentry.trans (agree_setBucket (.inr (by omega)))

/-- The bucket words of other chains are not touched by an insertion. -/
theorem Shape.bucket_insertEntry_of_ne (h : Shape valueSize start nextFree m)
    (hroom : nextFree + (72 + valueSize) ≤ 2 ^ 63) {k : Key}
    (hne : entryOffset k ≠ entryOffset key) :
    bucket (insertEntry m valueSize nextFree key value) k = bucket m k := by
  obtain ⟨i, hcursor⟩ := h.cursor
  have hbelow := entryOffset_add_le_start h.start_ge k
  rw [insertEntry, bucket_setBucket_of_ne hne]
  exact bucket_congr (agree_writeEntry hroom (.inl (by omega)))

theorem Shape.bucket_insertEntry (h : Shape valueSize start nextFree m)
    {k : Key} (hhome : entryOffset k = entryOffset key) :
    bucket (insertEntry m valueSize nextFree key value) k = nextFree := by
  have hlt := h.nextFree_le
  exact bucket_setBucket (by omega) hhome

/-- The new block after an insertion. -/
theorem Shape.agree_new (h : Shape valueSize start nextFree m) (key : Key)
    (value : Bytes) :
    Agree (writeEntry m valueSize nextFree key value)
      (insertEntry m valueSize nextFree key value) nextFree
      (72 + valueSize) := by
  obtain ⟨i, hcursor⟩ := h.cursor
  have hbelow := entryOffset_add_le_start h.start_ge key
  exact agree_setBucket (.inr (by omega))

theorem Shape.keyAt_new (h : Shape valueSize start nextFree m)
    (hroom : nextFree + (72 + valueSize) ≤ 2 ^ 63) :
    keyAt (insertEntry m valueSize nextFree key value) nextFree = key := by
  have hagree := h.agree_new key value
  rw [keyAt_congr (by omega) (hagree.mono (Nat.le_refl _) (by omega)),
    keyAt_writeEntry hroom]

theorem Shape.value_new (h : Shape valueSize start nextFree m)
    (hroom : nextFree + (72 + valueSize) ≤ 2 ^ 63) {i : Nat}
    (hi : i < valueSize) :
    insertEntry m valueSize nextFree key value (nextFree + 64 + i) =
      value i := by
  rw [h.agree_new key value _ (by omega) (by omega),
    value_writeEntry hroom hi]

/-- **Insertion keeps the shape** and moves the cursor on by one block. -/
theorem Shape.insertEntry (h : Shape valueSize start nextFree m)
    (hroom : nextFree + (72 + valueSize) ≤ 2 ^ 63) (key : Key)
    (value : Bytes) :
    Shape valueSize start (nextFree + (72 + valueSize))
      (insertEntry m valueSize nextFree key value) := by
  obtain ⟨i, hcursor⟩ := h.cursor
  refine ⟨h.start_ge, hroom, ⟨i + 1, by rw [hcursor, Nat.succ_mul]; omega⟩,
    fun k hne => ?_⟩
  by_cases hhome : entryOffset k = entryOffset key
  · rw [h.bucket_insertEntry hhome]
    refine ⟨⟨i, hcursor, Nat.le_refl _⟩, ?_, ?_⟩
    · rw [nextEntry_congr (by omega) (h.agree_new key value),
        nextEntry_writeEntry hroom]
    · rw [h.keyAt_new hroom, hhome]
  · rw [h.bucket_insertEntry_of_ne hroom hhome] at hne ⊢
    have hold := h.entries k hne
    exact (hold.congr h.nextFree_le
      (h.agree_insertEntry hroom hold.block)).mono (Nat.le_add_right _ _)

/-- The entry of the inserted key is the new block. -/
theorem Shape.entryOf_insertEntry (h : Shape valueSize start nextFree m)
    (hroom : nextFree + (72 + valueSize) ≤ 2 ^ 63) :
    entryOf (Ports.insertEntry m valueSize nextFree key value) key =
      nextFree := by
  rw [entryOf, h.bucket_insertEntry rfl, h.keyAt_new hroom, if_pos rfl]

/-- Any other key of the same bucket is gone. -/
theorem Shape.entryOf_insertEntry_of_home
    (h : Shape valueSize start nextFree m)
    (hroom : nextFree + (72 + valueSize) ≤ 2 ^ 63) {k : Key} (hne : k ≠ key)
    (hhome : entryOffset k = entryOffset key) :
    entryOf (Ports.insertEntry m valueSize nextFree key value) k = 0 := by
  rw [entryOf, h.bucket_insertEntry hhome, h.keyAt_new hroom,
    if_neg (Ne.symm hne)]

/-- The keys of other buckets keep their entries. -/
theorem Shape.entryOf_insertEntry_of_ne
    (h : Shape valueSize start nextFree m)
    (hroom : nextFree + (72 + valueSize) ≤ 2 ^ 63) {k : Key}
    (hne : entryOffset k ≠ entryOffset key) :
    entryOf (Ports.insertEntry m valueSize nextFree key value) k =
      entryOf m k := by
  rw [entryOf, entryOf, h.bucket_insertEntry_of_ne hroom hne]
  by_cases hzero : bucket m k = 0
  · rw [hzero, ite_self, ite_self]
  · have hblock := (h.entries k hzero).block
    have hend := hblock.end_le
    have hagree : Agree m (Ports.insertEntry m valueSize nextFree key value)
        (bucket m k) (72 + valueSize) := h.agree_insertEntry hroom hblock
    rw [keyAt_congr (by omega) (hagree.mono (Nat.le_refl _) (by omega))]

/-! ### Overwriting a value -/

variable {e : Nat}

/-- A value is written behind every bucket word. -/
theorem Shape.bucket_writeValue (h : Shape valueSize start nextFree m)
    (hblock : IsBlock valueSize start nextFree e) (k : Key) :
    bucket (writeValue m valueSize e value) k = bucket m k := by
  have hbelow := entryOffset_add_le_start h.start_ge k
  have hstart := hblock.start_le
  have hend := Nat.le_trans hblock.end_le h.nextFree_le
  exact bucket_congr (agree_writeValue hend (.inl (by omega)))

/-- Another block is not touched. -/
theorem Shape.agree_writeValue_of_ne (h : Shape valueSize start nextFree m)
    (hblock : IsBlock valueSize start nextFree e) {b : Nat}
    (hb : IsBlock valueSize start nextFree b) (hne : b ≠ e) :
    Agree m (writeValue m valueSize e value) b (72 + valueSize) := by
  have hend := Nat.le_trans hblock.end_le h.nextFree_le
  have hapart := hb.apart hblock hne
  unfold Apart at hapart
  exact agree_writeValue hend (by unfold Apart; omega)

theorem Shape.keyAt_writeValue (h : Shape valueSize start nextFree m)
    (hblock : IsBlock valueSize start nextFree e) {b : Nat}
    (hb : IsBlock valueSize start nextFree b) :
    keyAt (writeValue m valueSize e value) b = keyAt m b := by
  have hend := Nat.le_trans hb.end_le h.nextFree_le
  by_cases hne : b = e
  · rw [hne] at hend ⊢
    exact keyAt_congr (by omega) (agree_writeValue hend (.inl (by omega)))
  · have hagree : Agree m (Ports.writeValue m valueSize e value) b
        (72 + valueSize) := h.agree_writeValue_of_ne hblock hb hne
    exact keyAt_congr (by omega) (hagree.mono (Nat.le_refl _) (by omega))

theorem Shape.nextEntry_writeValue (h : Shape valueSize start nextFree m)
    (hblock : IsBlock valueSize start nextFree e) {b : Nat}
    (hb : IsBlock valueSize start nextFree b) :
    nextEntry (writeValue m valueSize e value) (64 + valueSize) b =
      nextEntry m (64 + valueSize) b := by
  have hend := Nat.le_trans hb.end_le h.nextFree_le
  by_cases hne : b = e
  · rw [hne] at hend ⊢
    rw [nextEntry, nextEntry, wrap_of_lt (by omega)]
    exact loadWord_congr (by omega)
      (agree_writeValue hend (.inr (by omega)))
  · exact nextEntry_congr (by omega) (h.agree_writeValue_of_ne hblock hb hne)

/-- **Overwriting a value keeps the shape.** -/
theorem Shape.writeValue (h : Shape valueSize start nextFree m)
    (hblock : IsBlock valueSize start nextFree e) (value : Bytes) :
    Shape valueSize start nextFree (writeValue m valueSize e value) :=
  h.of_frame (fun k => .inl (h.bucket_writeValue hblock k))
    (fun _ hb => h.nextEntry_writeValue hblock hb)
    (fun _ hb => h.keyAt_writeValue hblock hb)

/-- Every key keeps its entry. -/
theorem Shape.entryOf_writeValue (h : Shape valueSize start nextFree m)
    (hblock : IsBlock valueSize start nextFree e) (k : Key) :
    entryOf (Ports.writeValue m valueSize e value) k = entryOf m k := by
  rw [entryOf, entryOf, h.bucket_writeValue hblock]
  by_cases hzero : bucket m k = 0
  · rw [hzero, ite_self, ite_self]
  · rw [h.keyAt_writeValue hblock (h.entries k hzero).block]

/-! ### Emptying a bucket -/

/-- The blocks are behind every bucket word. -/
theorem Shape.agree_setBucket (h : Shape valueSize start nextFree m)
    (hblock : IsBlock valueSize start nextFree e) (w : Nat) :
    Agree m (setBucket m key w) e (72 + valueSize) := by
  have hbelow := entryOffset_add_le_start h.start_ge key
  have hstart := hblock.start_le
  exact Ports.agree_setBucket (.inr (by omega))

/-- **Emptying a bucket keeps the shape.** -/
theorem Shape.emptyBucket (h : Shape valueSize start nextFree m)
    (key : Key) : Shape valueSize start nextFree (setBucket m key 0) := by
  refine h.of_frame (fun k => ?_) (fun b hb => ?_) (fun b hb => ?_)
  · by_cases hhome : entryOffset k = entryOffset key
    · exact .inr (bucket_setBucket (by decide) hhome)
    · exact .inl (bucket_setBucket_of_ne hhome)
  · have hend := Nat.le_trans hb.end_le h.nextFree_le
    exact nextEntry_congr (by omega) (h.agree_setBucket hb 0)
  · have hend := Nat.le_trans hb.end_le h.nextFree_le
    exact keyAt_congr (by omega)
      ((h.agree_setBucket hb 0).mono (Nat.le_refl _) (by omega))

/-- The keys of the emptied bucket have no entry, the others keep theirs. -/
theorem Shape.entryOf_emptyBucket (h : Shape valueSize start nextFree m)
    (k : Key) :
    entryOf (setBucket m key 0) k =
      if entryOffset k = entryOffset key then 0 else entryOf m k := by
  by_cases hhome : entryOffset k = entryOffset key
  · rw [if_pos hhome, entryOf, bucket_setBucket (by decide) hhome, ite_self]
  · rw [if_neg hhome, entryOf, entryOf, bucket_setBucket_of_ne hhome]
    by_cases hzero : bucket m k = 0
    · rw [hzero, ite_self, ite_self]
    · have hblock := (h.entries k hzero).block
      have hend := Nat.le_trans hblock.end_le h.nextFree_le
      rw [keyAt_congr (by omega)
        ((h.agree_setBucket hblock 0).mono (Nat.le_refl _) (by omega))]

end Preservation

/-! ## A store object and its memory -/

/-- The members of an object outside batch mode with its sizes in step, its
partition behind the bucket table, and the memory it has left behind. -/
structure Sound (obj : Instance) (m : Bytes) : Prop where
  noBatch : obj.useBatch = false
  sizes : obj.entrySize = 72 + obj.valueSize
  small : obj.entrySize < 2 ^ 31
  partition : obj.partitionEnd ≤ 2 ^ 62
  shape : Shape obj.valueSize obj.partitionStart obj.nextFreeOffset m

/-- There is room for one more entry in the partition. -/
def HasRoom (obj : Instance) : Prop :=
  obj.nextFreeOffset + obj.entrySize ≤ obj.partitionEnd

instance (obj : Instance) : Decidable (HasRoom obj) :=
  inferInstanceAs (Decidable (_ ≤ _))

/-- The members after one more block was handed out. -/
def Instance.advance (obj : Instance) : Instance :=
  { obj with nextFreeOffset := obj.nextFreeOffset + obj.entrySize }

namespace Sound

variable {obj : Instance} {m : Bytes}

/-- A new object on host 1 or above over a zeroed bucket table. -/
theorem construct {dataAddr : DataAddr} {mac : Option UInt8}
    (hmac : 0 < getMac mac) {valueSize : Nat}
    (hsmall : 72 + valueSize < 2 ^ 31) (hzero : ∀ key, bucket m key = 0) :
    Sound ((Instance.construct dataAddr mac).withValueSize valueSize) m := by
  have hlt := getMac_lt mac
  have hstart : ((Instance.construct dataAddr mac).withValueSize
      valueSize).partitionStart = 2 ^ 27 + getMac mac * 2 ^ 30 :=
    Instance.partitionStart_construct dataAddr mac
  have hend := Instance.partitionEnd_eq
    (show ((Instance.construct dataAddr mac).withValueSize
      valueSize).partitionStart < 2 ^ 63 by omega)
  have hshape : Shape valueSize (2 ^ 27 + getMac mac * 2 ^ 30)
      (2 ^ 27 + getMac mac * 2 ^ 30) m :=
    shape_of_zero (by omega) (by omega) hzero
  rw [← hstart] at hshape
  exact ⟨rfl, rfl, hsmall, by omega, hshape⟩

/-- The test for a full partition. -/
theorem full_iff (h : Sound obj m) :
    obj.partitionEnd < wrap (obj.nextFreeOffset + obj.entrySize) ↔
      ¬ HasRoom obj := by
  have hsmall := h.small
  have hle := h.shape.nextFree_le
  rw [wrap_of_lt (by omega), HasRoom, Nat.not_le]

theorem room (h : Sound obj m) (hroom : HasRoom obj) :
    obj.nextFreeOffset + (72 + obj.valueSize) ≤ 2 ^ 63 := by
  have hpartition := h.partition
  have hsizes := h.sizes
  unfold HasRoom at hroom
  omega

theorem wrap_advance (h : Sound obj m) (hroom : HasRoom obj) :
    wrap (obj.nextFreeOffset + obj.entrySize) =
      obj.nextFreeOffset + obj.entrySize := by
  have hle := h.room hroom
  have hsizes := h.sizes
  exact wrap_of_lt (by omega)

theorem insertEntry (h : Sound obj m) (hroom : HasRoom obj) (key : Key)
    (value : Bytes) :
    Sound obj.advance
      (insertEntry m obj.valueSize obj.nextFreeOffset key value) := by
  have hshape := h.shape.insertEntry (h.room hroom) key value
  rw [← h.sizes] at hshape
  exact ⟨h.noBatch, h.sizes, h.small, h.partition, hshape⟩

theorem writeValue (h : Sound obj m) {key : Key} (hne : entryOf m key ≠ 0)
    (value : Bytes) :
    Sound obj (writeValue m obj.valueSize (entryOf m key) value) :=
  ⟨h.noBatch, h.sizes, h.small, h.partition,
    h.shape.writeValue (h.shape.entryOf_spec hne).2.2.block value⟩

theorem emptyBucket (h : Sound obj m) (key : Key) :
    Sound obj (setBucket m key 0) :=
  ⟨h.noBatch, h.sizes, h.small, h.partition, h.shape.emptyBucket key⟩

/-- Entries end below the middle of the address space. -/
theorem entry_end_le (h : Sound obj m) {key : Key}
    (hne : entryOf m key ≠ 0) :
    entryOf m key + (72 + obj.valueSize) ≤ 2 ^ 63 :=
  Nat.le_trans (h.shape.entryOf_spec hne).2.2.block.end_le h.shape.nextFree_le

end Sound

end SHMemora.Ports
