import SHMemora.Ports.SoundCalls
import SHMemora.Ports.GshmUprStore

/-!
# Bucket words and entries in one data area

The bucket table begins at `KV_HASH_TABLE_START` and its 256 parts of
`KV_HASH_TABLE_SIZE` bytes end at `2 ^ 26 + 2 ^ 28`.  The partition of host 0
begins at `2 ^ 27`, in the middle of the table: the bucket words of all keys
with a top byte of 64 or more lie among its entries.  The partitions of the
other hosts lie behind the table.

The first half of this module is about the layout.  The second half follows a
single object whose calls stay with keys whose bucket words are outside its
partition.  `Effect` is what such a call may come to, in either class and with
any number of writes refused; it keeps `Linked`.
-/

namespace SHMemora.Ports

open SHMemora.Verified.ByteMemory
open SHMemora.Verified.StepRun

/-! ## The place of a bucket word -/

/-- The bucket word of a key is outside the partition of an object. -/
def OffPartition (obj : Instance) (key : Key) : Prop :=
  entryOffset key + 8 ≤ obj.partitionStart ∨
    obj.partitionEnd ≤ entryOffset key

instance (obj : Instance) (key : Key) : Decidable (OffPartition obj key) :=
  inferInstanceAs (Decidable (_ ∨ _))

/-! ## Objects with their cursor in their partition -/

/-- The members of an object outside batch mode with its sizes in step, whose
cursor has passed a number of blocks. -/
structure Plain (obj : Instance) : Prop where
  noBatch : obj.useBatch = false
  sizes : obj.entrySize = 72 + obj.valueSize
  small : obj.entrySize < 2 ^ 31
  host : obj.hostId < 256
  cursor : ∃ i, obj.nextFreeOffset =
    obj.partitionStart + i * (72 + obj.valueSize)
  le_end : obj.nextFreeOffset ≤ obj.partitionEnd

namespace Plain

variable {obj : Instance}

theorem construct (dataAddr : DataAddr) (mac : Option UInt8) {valueSize : Nat}
    (hsmall : 72 + valueSize < 2 ^ 31) :
    Plain ((Instance.construct dataAddr mac).withValueSize valueSize) := by
  have hlt := getMac_lt mac
  have hstart : ((Instance.construct dataAddr mac).withValueSize
      valueSize).partitionStart = 2 ^ 27 + getMac mac * 2 ^ 30 :=
    Instance.partitionStart_construct dataAddr mac
  have hend := Instance.partitionEnd_eq
    (show ((Instance.construct dataAddr mac).withValueSize
      valueSize).partitionStart < 2 ^ 63 by omega)
  have hnext : ((Instance.construct dataAddr mac).withValueSize
      valueSize).nextFreeOffset = ((Instance.construct dataAddr
        mac).withValueSize valueSize).partitionStart := rfl
  exact ⟨rfl, rfl, hsmall, hlt, ⟨0, by rw [hnext, Nat.zero_mul,
    Nat.add_zero]⟩, by rw [hnext, hend]; exact Nat.le_add_right _ _⟩

variable (h : Plain obj)
include h

theorem partitionStart_eq :
    obj.partitionStart = 2 ^ 27 + obj.hostId * 2 ^ 30 :=
  Instance.partitionStart_eq h.host

theorem partitionEnd_eq : obj.partitionEnd = obj.partitionStart + 2 ^ 30 := by
  have hstart := h.partitionStart_eq
  have hhost := h.host
  exact Instance.partitionEnd_eq (by omega)

theorem partitionEnd_le : obj.partitionEnd ≤ 2 ^ 39 := by
  have hstart := h.partitionStart_eq
  have hhost := h.host
  rw [h.partitionEnd_eq]
  omega

theorem start_le : obj.partitionStart ≤ obj.nextFreeOffset := by
  obtain ⟨i, hi⟩ := h.cursor
  rw [hi]
  exact Nat.le_add_right _ _

/-- The sum that is compared with the end of the partition. -/
theorem wrap_advance :
    wrap (obj.nextFreeOffset + obj.entrySize) =
      obj.nextFreeOffset + obj.entrySize := by
  have hle := h.le_end
  have hend := h.partitionEnd_le
  have hsmall := h.small
  exact wrap_of_lt (by omega)

theorem full_iff :
    obj.partitionEnd < wrap (obj.nextFreeOffset + obj.entrySize) ↔
      ¬ HasRoom obj := by
  rw [h.wrap_advance, HasRoom, Nat.not_le]

theorem room (hroom : HasRoom obj) :
    obj.nextFreeOffset + (72 + obj.valueSize) ≤ 2 ^ 39 := by
  have hend := h.partitionEnd_le
  have hsizes := h.sizes
  unfold HasRoom at hroom
  omega

theorem advance (hroom : HasRoom obj) : Plain obj.advance := by
  obtain ⟨i, hi⟩ := h.cursor
  refine ⟨h.noBatch, h.sizes, h.small, h.host, ⟨i + 1, ?_⟩, hroom⟩
  show obj.nextFreeOffset + obj.entrySize =
    obj.partitionStart + (i + 1) * (72 + obj.valueSize)
  rw [h.sizes, hi, Nat.succ_mul, Nat.add_assoc]

/-- The block that comes next. -/
theorem isBlock_next :
    IsBlock obj.valueSize obj.partitionStart
      (obj.nextFreeOffset + obj.entrySize) obj.nextFreeOffset := by
  obtain ⟨i, hi⟩ := h.cursor
  exact ⟨i, hi, by rw [h.sizes]⟩

/-- The blocks handed out after one more of them. -/
theorem isBlock_advance_iff {e : Nat} :
    IsBlock obj.valueSize obj.partitionStart
        (obj.nextFreeOffset + obj.entrySize) e ↔
      IsBlock obj.valueSize obj.partitionStart obj.nextFreeOffset e ∨
        e = obj.nextFreeOffset := by
  constructor
  · intro hblock
    by_cases hend : e + (72 + obj.valueSize) ≤ obj.nextFreeOffset
    · obtain ⟨i, hi, _⟩ := hblock
      exact .inl ⟨i, hi, hend⟩
    · have hnext := h.isBlock_next
      have hbound := hblock.end_le
      have hsizes := h.sizes
      refine .inr ?_
      by_contra hne
      have hapart := hblock.apart hnext hne
      unfold Apart at hapart
      omega
  · intro hor
    rcases hor with hblock | heq
    · exact hblock.mono (Nat.le_add_right _ _)
    · rw [heq]
      exact h.isBlock_next

end Plain

/-- A bucket word off the partition is apart from the blocks, those handed
out and those to come. -/
theorem OffPartition.apart {obj : Instance} {key : Key}
    (hoff : OffPartition obj key) {a k : Nat} (hlo : obj.partitionStart ≤ a)
    (hhi : a + k ≤ obj.partitionEnd) : Apart a k (entryOffset key) 8 := by
  unfold OffPartition at hoff
  unfold Apart
  omega

/-! ## What a call may do -/

/-- A write that was made or refused. -/
def Written (m m' : Bytes) (off : Nat) (src : Bytes) (size : Nat) : Prop :=
  m' = m ∨ m' = store m off src size

/-- The four writes of an insertion, each made or refused. -/
def Placed (m m' : Bytes) (valueSize e : Nat) (key : Key) (value : Bytes) :
    Prop :=
  ∃ m₁ m₂ m₃, Written m m₁ e key.buf 64 ∧
    Written m₁ m₂ (wrap (e + 64)) value valueSize ∧
    Written m₂ m₃ (wrap (e + 64 + valueSize)) (ofWord 0) 8 ∧
    Written m₃ m' (entryOffset key) (ofWord e) 8

/-- What a call for `key` may do to an object and its memory: leave both as
they are, write to the value of the entry of the key, empty its bucket, or put
a new entry where the cursor stands. -/
inductive Effect (key : Key) (obj : Instance) (m : Bytes) :
    Instance → Bytes → Prop
  | keep : Effect key obj m obj m
  | value {m' : Bytes} (value : Bytes) (hne : entryOf m key ≠ 0)
      (hwritten : Written m m' (wrap (entryOf m key + 64)) value
        obj.valueSize) : Effect key obj m obj m'
  | unlink : Effect key obj m obj (setBucket m key 0)
  | place {m' : Bytes} (value : Bytes) (hroom : HasRoom obj)
      (hplaced : Placed m m' obj.valueSize obj.nextFreeOffset key value) :
      Effect key obj m obj.advance m'

/-- A call hands out one block or none. -/
theorem Effect.instance_eq {key : Key} {obj obj' : Instance} {m m' : Bytes}
    (h : Effect key obj m obj' m') :
    obj' = obj ∨ HasRoom obj ∧ obj' = obj.advance := by
  cases h with
  | keep => exact .inl rfl
  | value value hne hwritten => exact .inl rfl
  | unlink => exact .inl rfl
  | place value hroom hplaced => exact .inr ⟨hroom, rfl⟩

theorem Written.agree {m m' src : Bytes} {off size a k : Nat}
    (h : Written m m' off src size) (hend : off + size ≤ 2 ^ 64)
    (hapart : Apart a k off size) : Agree m m' a k := by
  rcases h with rfl | rfl
  · exact .refl m' a k
  · exact agree_store hend hapart

/-- A word is as before or the one written. -/
theorem Written.loadWord {m m' : Bytes} {off w : Nat}
    (h : Written m m' off (ofWord w) 8) (hend : off + 8 ≤ 2 ^ 64)
    (hw : w < 2 ^ 64) :
    Verified.ByteMemory.loadWord m' off = Verified.ByteMemory.loadWord m off ∨
      Verified.ByteMemory.loadWord m' off = w := by
  rcases h with rfl | rfl
  · exact .inl rfl
  · exact .inr (loadWord_store_self hend hw)

section Placement

variable {m m' : Bytes} {valueSize e : Nat} {key : Key} {value : Bytes}

/-- The memory between the entry and the write of the bucket word. -/
theorem Placed.split (h : Placed m m' valueSize e key value)
    (hend : e + (72 + valueSize) ≤ 2 ^ 63) :
    ∃ m₃, (∀ a k, Apart a k e (72 + valueSize) → Agree m m₃ a k) ∧
      (nextEntry m₃ (64 + valueSize) e = nextEntry m (64 + valueSize) e ∨
        nextEntry m₃ (64 + valueSize) e = 0) ∧
      Written m₃ m' (entryOffset key) (ofWord e) 8 := by
  rcases h with ⟨m₁, m₂, m₃, hkey, hvalue, hnext, hbucket⟩
  rw [wrap_of_lt (by omega)] at hvalue hnext
  refine ⟨m₃, fun a k hapart => ?_, ?_, hbucket⟩
  · unfold Apart at hapart
    have hkey' : Agree m m₁ a k :=
      hkey.agree (by omega) (by unfold Apart; omega)
    have hvalue' : Agree m₁ m₂ a k :=
      hvalue.agree (by omega) (by unfold Apart; omega)
    exact (hkey'.trans hvalue').trans
      (hnext.agree (by omega) (by unfold Apart; omega))
  · have hkey' : Agree m m₁ (e + 64 + valueSize) 8 :=
      hkey.agree (by omega) (.inr (by omega))
    have hvalue' : Agree m₁ m₂ (e + 64 + valueSize) 8 :=
      hvalue.agree (by omega) (.inr (by omega))
    have hbefore := loadWord_congr (by omega) (hkey'.trans hvalue')
    rw [nextEntry, nextEntry, ← Nat.add_assoc, wrap_of_lt (by omega),
      ← hbefore]
    exact hnext.loadWord (by omega) (by decide)

end Placement

/-! ## Pointers that lead to blocks -/

/-- The memory of an object whose calls have stayed with keys off its
partition: their bucket words are zero or lead to blocks handed out, the
blocks are the last of their chains, and behind the cursor all is zero. -/
structure Linked (obj : Instance) (m : Bytes) : Prop where
  plain : Plain obj
  pointers : ∀ key, OffPartition obj key → bucket m key ≠ 0 →
    IsBlock obj.valueSize obj.partitionStart obj.nextFreeOffset (bucket m key)
  last : ∀ e, IsBlock obj.valueSize obj.partitionStart obj.nextFreeOffset e →
    nextEntry m (64 + obj.valueSize) e = 0
  free : ∀ x, obj.nextFreeOffset ≤ x → x < obj.partitionEnd → m x = 0

namespace Linked

variable {obj : Instance} {m m' : Bytes} {key : Key}

/-- A new object over a zeroed data area. -/
theorem construct (dataAddr : DataAddr) (mac : Option UInt8) {valueSize : Nat}
    (hsmall : 72 + valueSize < 2 ^ 31) :
    Linked ((Instance.construct dataAddr mac).withValueSize valueSize)
      fun _ => 0 := by
  refine ⟨.construct dataAddr mac hsmall, fun key _ hne => ?_, fun e _ => ?_,
    fun _ _ _ => rfl⟩
  · exact absurd rfl hne
  · exact rfl

theorem block_le (h : Linked obj m) {e : Nat}
    (hblock : IsBlock obj.valueSize obj.partitionStart obj.nextFreeOffset e) :
    e + (72 + obj.valueSize) ≤ 2 ^ 39 := by
  have hend := hblock.end_le
  have hle := h.plain.le_end
  have hbound := h.plain.partitionEnd_le
  omega

theorem short (h : Linked obj m) (hoff : OffPartition obj key) :
    ShortChain m obj.valueSize key :=
  fun hne => h.last _ (h.pointers key hoff hne)

/-- The entry of a stored key is a block. -/
theorem isBlock_entryOf (h : Linked obj m) (hoff : OffPartition obj key)
    (hne : entryOf m key ≠ 0) :
    IsBlock obj.valueSize obj.partitionStart obj.nextFreeOffset
      (entryOf m key) := by
  have hbucket := (entryOf_eq_bucket hne).1
  rw [hbucket] at hne ⊢
  exact h.pointers key hoff hne

end Linked

/-! ## The effects of calls -/

section Preservation

variable {obj obj' : Instance} {m m' : Bytes} {key : Key}

/-- The blocks handed out are behind every bucket word that may be written. -/
theorem Linked.apart_bucket (h : Linked obj m) (hoff : OffPartition obj key)
    {e : Nat} (hblock :
      IsBlock obj.valueSize obj.partitionStart obj.nextFreeOffset e) :
    Apart e (72 + obj.valueSize) (entryOffset key) 8 :=
  hoff.apart hblock.start_le (Nat.le_trans hblock.end_le h.plain.le_end)

/-- What must stay as it is: the next pointers of the blocks, the bytes
behind the cursor, and the bucket words up to those that are zeroed. -/
theorem Linked.of_frame (h : Linked obj m)
    (hbucket : ∀ k, OffPartition obj k →
      bucket m' k = bucket m k ∨ bucket m' k = 0)
    (hlast : ∀ e, IsBlock obj.valueSize obj.partitionStart
      obj.nextFreeOffset e → nextEntry m' (64 + obj.valueSize) e =
        nextEntry m (64 + obj.valueSize) e)
    (hfree : Agree m m' obj.nextFreeOffset
      (obj.partitionEnd - obj.nextFreeOffset)) : Linked obj m' := by
  have hle := h.plain.le_end
  refine ⟨h.plain, fun k hk hne => ?_, fun e he => ?_, fun x hlo hhi => ?_⟩
  · rcases hbucket k hk with hsame | hzero
    · rw [hsame] at hne ⊢
      exact h.pointers k hk hne
    · exact absurd hzero hne
  · rw [hlast e he]
    exact h.last e he
  · rw [hfree x hlo (by omega)]
    exact h.free x hlo hhi

/-- Bytes outside the value that is overwritten. -/
theorem Linked.agree_value (h : Linked obj m) (hoff : OffPartition obj key)
    (hne : entryOf m key ≠ 0) {value : Bytes}
    (hwritten : Written m m' (wrap (entryOf m key + 64)) value obj.valueSize)
    {a k : Nat}
    (hapart : Apart a k (entryOf m key + 64) obj.valueSize) :
    Agree m m' a k := by
  have hle := h.block_le (h.isBlock_entryOf hoff hne)
  rw [wrap_of_lt (by omega)] at hwritten
  exact hwritten.agree (by omega) hapart

theorem Linked.effect_value (h : Linked obj m) (hoff : OffPartition obj key)
    (hne : entryOf m key ≠ 0) {value : Bytes}
    (hwritten : Written m m' (wrap (entryOf m key + 64)) value
      obj.valueSize) : Linked obj m' := by
  have hblock := h.isBlock_entryOf hoff hne
  have hstart := hblock.start_le
  have hend := hblock.end_le
  have hagree : ∀ a k, Apart a k (entryOf m key + 64) obj.valueSize →
      Agree m m' a k := fun a k => h.agree_value hoff hne hwritten
  refine h.of_frame (fun k hk => .inl ?_) (fun e he => ?_) ?_
  · have hapart := hk.apart (k := obj.valueSize) (a := entryOf m key + 64)
      (by omega) (by have := h.plain.le_end; omega)
    unfold Apart at hapart
    exact bucket_congr (hagree _ _ (by unfold Apart; omega))
  · have hle := h.block_le he
    by_cases heq : e = entryOf m key
    · rw [heq] at hle ⊢
      rw [nextEntry, nextEntry, wrap_of_lt (by omega)]
      exact loadWord_congr (by omega) (hagree _ _ (.inr (by omega)))
    · have hapart := he.apart hblock heq
      unfold Apart at hapart
      exact nextEntry_congr (by omega)
        (hagree _ _ (by unfold Apart; omega))
  · exact hagree _ _ (.inr (by omega))

theorem Linked.effect_unlink (h : Linked obj m)
    (hoff : OffPartition obj key) : Linked obj (setBucket m key 0) := by
  refine h.of_frame (fun k hk => ?_) (fun e he => ?_) ?_
  · by_cases hhome : entryOffset k = entryOffset key
    · exact .inr (bucket_setBucket (by decide) hhome)
    · exact .inl (bucket_setBucket_of_ne hhome)
  · have hle := h.block_le he
    exact nextEntry_congr (by omega)
      (agree_setBucket (h.apart_bucket hoff he))
  · have hle := h.plain.le_end
    exact agree_setBucket (hoff.apart h.plain.start_le (by omega))

/-- Bytes apart from the new entry and from the bucket word. -/
theorem Linked.agree_place (h : Linked obj m) (hroom : HasRoom obj)
    {value : Bytes}
    (hplaced : Placed m m' obj.valueSize obj.nextFreeOffset key value)
    {a k : Nat} (hnew : Apart a k obj.nextFreeOffset (72 + obj.valueSize))
    (hbucket : Apart a k (entryOffset key) 8) : Agree m m' a k := by
  have hle := h.plain.room hroom
  have hword := entryOffset_add_le key
  obtain ⟨m₃, hagree, _, hwritten⟩ := hplaced.split (by omega)
  exact (hagree a k hnew).trans (hwritten.agree (by omega) hbucket)

/-- The next pointer of the new entry, written or not. -/
theorem Linked.nextEntry_place (h : Linked obj m)
    (hoff : OffPartition obj key) (hroom : HasRoom obj) {value : Bytes}
    (hplaced : Placed m m' obj.valueSize obj.nextFreeOffset key value) :
    nextEntry m' (64 + obj.valueSize) obj.nextFreeOffset = 0 := by
  have hle := h.plain.room hroom
  have hsizes := h.plain.sizes
  have hword := entryOffset_add_le key
  obtain ⟨m₃, _, hnext, hwritten⟩ := hplaced.split (by omega)
  have hapart := hoff.apart h.plain.start_le hroom
  rw [hsizes] at hapart
  have hkept := nextEntry_congr (by omega) (hwritten.agree (by omega) hapart)
  rw [hkept]
  rcases hnext with hsame | hzero
  · rw [hsame, nextEntry, wrap_of_lt (by omega)]
    have hzeros : Agree (fun _ => 0) m
        (obj.nextFreeOffset + (64 + obj.valueSize)) 8 := by
      intro x hlo hhi
      unfold HasRoom at hroom
      exact h.free x (by omega) (by omega)
    rw [loadWord_congr (by omega) hzeros]
    rfl
  · exact hzero

/-- The bucket word of the new entry. -/
theorem Linked.bucket_place (h : Linked obj m) (hroom : HasRoom obj)
    {value : Bytes}
    (hplaced : Placed m m' obj.valueSize obj.nextFreeOffset key value)
    {k : Key} (hk : OffPartition obj k) :
    bucket m' k = bucket m k ∨ bucket m' k = obj.nextFreeOffset := by
  have hle := h.plain.room hroom
  have hsizes := h.plain.sizes
  have hword := entryOffset_add_le key
  have hword' := entryOffset_add_le k
  obtain ⟨m₃, hagree, _, hwritten⟩ := hplaced.split (by omega)
  have hapart := hk.apart h.plain.start_le hroom
  rw [hsizes] at hapart
  unfold Apart at hapart
  have hkept : bucket m₃ k = bucket m k :=
    bucket_congr (hagree _ _ (by unfold Apart; omega))
  by_cases hhome : entryOffset k = entryOffset key
  · rw [← hkept, bucket, bucket, hhome]
    exact hwritten.loadWord (by omega) (by omega)
  · rw [← hkept]
    exact .inl (bucket_congr (hwritten.agree (by omega)
      (apart_of_entryOffset_ne hhome)))

theorem Linked.effect_place (h : Linked obj m) (hoff : OffPartition obj key)
    (hroom : HasRoom obj) {value : Bytes}
    (hplaced : Placed m m' obj.valueSize obj.nextFreeOffset key value) :
    Linked obj.advance m' := by
  have hle := h.plain.room hroom
  have hsizes := h.plain.sizes
  refine ⟨h.plain.advance hroom, fun k hk hne => ?_, fun e he => ?_,
    fun x hlo hhi => ?_⟩
  · rw [show obj.advance.nextFreeOffset =
      obj.nextFreeOffset + obj.entrySize from rfl]
    rcases h.bucket_place hroom hplaced hk with hsame | hnew
    · rw [hsame] at hne ⊢
      exact (h.pointers k hk hne).mono (Nat.le_add_right _ _)
    · rw [hnew]
      exact h.plain.isBlock_next
  · rcases h.plain.isBlock_advance_iff.mp he with hold | heq
    · have hend := hold.end_le
      have hbound := h.block_le hold
      have hagree : Agree m m' e (72 + obj.valueSize) :=
        h.agree_place hroom hplaced (.inl hend) (h.apart_bucket hoff hold)
      exact (nextEntry_congr (by omega) hagree).trans (h.last e hold)
    · rw [heq]
      exact h.nextEntry_place hoff hroom hplaced
  · have hstart := h.plain.start_le
    have hnext : obj.nextFreeOffset + obj.entrySize ≤ x := hlo
    have hlimit : x < obj.partitionEnd := hhi
    have hagree : Agree m m' x 1 :=
      h.agree_place hroom hplaced (.inr (by omega))
        (hoff.apart (by omega) (by omega))
    rw [hagree x (Nat.le_refl _) (by omega)]
    exact h.free x (by omega) hlimit

/-- **Step lemma**: the memory stays linked. -/
theorem Effect.linked (heffect : Effect key obj m obj' m')
    (h : Linked obj m) (hoff : OffPartition obj key) : Linked obj' m' := by
  cases heffect with
  | keep => exact h
  | value value hne hwritten => exact h.effect_value hoff hne hwritten
  | unlink => exact h.effect_unlink hoff
  | place value hroom hplaced => exact h.effect_place hoff hroom hplaced

end Preservation

end SHMemora.Ports
