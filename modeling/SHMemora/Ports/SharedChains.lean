import SHMemora.Ports.LayoutCalls
import SHMemora.Ports.SharedAllocation

/-!
# Chains in a memory with several writers

Any number of `gshm_upr` objects on hosts of their own share a data area.
Each fills the blocks of its own partition, but all of them write the bucket
words, and `update`, `put` and `del` go to entries of every host.

What holds the chains together is that an insertion does not link the entry it
finds: it writes a zero next pointer and overwrites the bucket word.  `Chained`
says so for any set of blocks: bucket words are zero or lead to a block whose
key belongs there, and the blocks are the last of their chains.  It is kept by
writes off the keys, next pointers and bucket words (`Chained.of_agree`), by
emptying a bucket (`Chained.emptyBucket`) and by linking a new block
(`Chained.link`), whoever does it and in whichever order.

## Main result

* `chains_well_formed` — in every state that calls in any order lead to, every
  chain ends, visits no entry twice, leads to entries that were allocated and
  belong to the bucket, and every further call returns.
-/

namespace SHMemora.Ports

open SHMemora.Verified.ByteMemory
open SHMemora.Verified.StepRun

/-! ## Blocks behind the bucket table -/

/-- Places of blocks: behind the bucket table and apart from each other. -/
structure BlockSet (valueSize : Nat) (block : Nat → Prop) : Prop where
  behind : ∀ e, block e → 2 ^ 26 + 2 ^ 28 ≤ e
  end_le : ∀ e, block e → e + (72 + valueSize) ≤ 2 ^ 63
  apart : ∀ e e', block e → block e' → e ≠ e' →
    Apart e (72 + valueSize) e' (72 + valueSize)

/-- The memory of stores that put their entries into blocks. -/
structure Chained (valueSize : Nat) (block : Nat → Prop) (m : Bytes) :
    Prop where
  pointers : ∀ key, bucket m key ≠ 0 → block (bucket m key)
  last : ∀ e, block e → nextEntry m (64 + valueSize) e = 0
  home : ∀ key, bucket m key ≠ 0 →
    entryOffset (keyAt m (bucket m key)) = entryOffset key

section Chains

variable {valueSize : Nat} {block : Nat → Prop} {m m' : Bytes} {key : Key}

theorem Chained.short (h : Chained valueSize block m) (key : Key) :
    ShortChain m valueSize key :=
  fun hne => h.last _ (h.pointers key hne)

/-- The entry of a stored key is a block. -/
theorem Chained.block_entryOf (h : Chained valueSize block m)
    (hne : entryOf m key ≠ 0) : block (entryOf m key) := by
  have hbucket := (entryOf_eq_bucket hne).1
  rw [hbucket] at hne ⊢
  exact h.pointers key hne

theorem Chained.congr {block' : Nat → Prop} (h : Chained valueSize block m)
    (hiff : ∀ e, block' e ↔ block e) : Chained valueSize block' m :=
  ⟨fun k hne => (hiff _).mpr (h.pointers k hne),
    fun e he => h.last e ((hiff e).mp he), h.home⟩

/-- A zeroed data area without blocks. -/
theorem Chained.zero (valueSize : Nat) (hnone : ∀ e, ¬ block e) :
    Chained valueSize block fun _ => 0 :=
  ⟨fun _ hne => absurd rfl hne, fun e he => absurd he (hnone e),
    fun _ hne => absurd rfl hne⟩

/-- A bucket word is apart from everything behind the table. -/
theorem apart_bucket_of_behind {a k : Nat} (hbehind : 2 ^ 26 + 2 ^ 28 ≤ a)
    (key : Key) : Apart (entryOffset key) 8 a k :=
  .inl (Nat.le_trans (entryOffset_add_le key) hbehind)

/-- Whatever happens behind the table and off keys and next pointers keeps the
chains. -/
theorem Chained.of_agree (h : Chained valueSize block m)
    (hset : BlockSet valueSize block) (off size : Nat)
    (hbehind : 2 ^ 26 + 2 ^ 28 ≤ off)
    (hkey : ∀ e, block e → Apart e 64 off size)
    (hnext : ∀ e, block e → Apart (e + (64 + valueSize)) 8 off size)
    (hagree : ∀ a k, Apart a k off size → Agree m m' a k) :
    Chained valueSize block m' := by
  have hbucket : ∀ k, bucket m' k = bucket m k := fun k =>
    bucket_congr (hagree _ _ (apart_bucket_of_behind hbehind k))
  refine ⟨fun k hne => ?_, fun e he => ?_, fun k hne => ?_⟩
  · rw [hbucket] at hne ⊢
    exact h.pointers k hne
  · have hle := hset.end_le e he
    have hsame := hagree _ _ (hnext e he)
    rw [nextEntry, wrap_of_lt (by omega), loadWord_congr (by omega) hsame]
    have hlast := h.last e he
    rw [nextEntry, wrap_of_lt (by omega)] at hlast
    exact hlast
  · rw [hbucket] at hne ⊢
    have hblock := h.pointers k hne
    have hle := hset.end_le _ hblock
    rw [keyAt_congr (by omega) (hagree _ _ (hkey _ hblock))]
    exact h.home k hne

/-- The keys of blocks are apart from the values. -/
theorem BlockSet.key_apart_value (hset : BlockSet valueSize block)
    {e e' : Nat} (he : block e) (he' : block e') :
    Apart e' 64 (e + 64) valueSize := by
  by_cases heq : e' = e
  · rw [heq]
    exact .inl (Nat.le_refl _)
  · have hapart := hset.apart e' e he' he heq
    unfold Apart at hapart ⊢
    omega

/-- The next pointer of a block is apart from its value and from those of
blocks apart from it. -/
theorem next_apart_value {e e' : Nat}
    (hapart : e' ≠ e → Apart e' (72 + valueSize) e (72 + valueSize)) :
    Apart (e' + (64 + valueSize)) 8 (e + 64) valueSize := by
  by_cases heq : e' = e
  · rw [heq]
    exact .inr (by omega)
  · have hblocks := hapart heq
    unfold Apart at hblocks ⊢
    omega

/-- The bucket words are apart from the blocks. -/
theorem BlockSet.agree_setBucket (hset : BlockSet valueSize block) {e : Nat}
    (he : block e) (key : Key) (w : Nat) :
    Agree m (setBucket m key w) e (72 + valueSize) := by
  have hbehind := hset.behind e he
  have hend := entryOffset_add_le key
  exact Ports.agree_setBucket (.inr (by omega))

/-- The value of an entry overwritten. -/
theorem Chained.writeValue (h : Chained valueSize block m)
    (hset : BlockSet valueSize block) {e : Nat} (he : block e)
    (value : Bytes) :
    Chained valueSize block (writeValue m valueSize e value) := by
  have hle := hset.end_le e he
  have hbehind := hset.behind e he
  exact h.of_agree hset (e + 64) valueSize (by omega)
    (fun e' he' => hset.key_apart_value he he')
    (fun e' he' => next_apart_value (hset.apart e' e he' he))
    fun a k hapart => agree_writeValue hle hapart

/-- Writes to a place where there is no block yet. -/
theorem Chained.fill (h : Chained valueSize block m) {e : Nat}
    (hset : BlockSet valueSize fun x => block x ∨ x = e) (hnew : ¬ block e)
    (hagree : ∀ a k, Apart a k e (72 + valueSize) → Agree m m' a k) :
    Chained valueSize block m' := by
  have hset' : BlockSet valueSize block :=
    ⟨fun x hx => hset.behind x (.inl hx), fun x hx => hset.end_le x (.inl hx),
      fun x x' hx hx' => hset.apart x x' (.inl hx) (.inl hx')⟩
  have hapart : ∀ x, block x → Apart x (72 + valueSize) e (72 + valueSize) :=
    fun x hx => hset.apart x e (.inl hx) (.inr rfl) fun heq =>
      hnew (heq ▸ hx)
  refine h.of_agree hset' e (72 + valueSize) (hset.behind e (.inr rfl))
    (fun x hx => ?_) (fun x hx => ?_) hagree
  · have := hapart x hx
    unfold Apart at this ⊢
    omega
  · have := hapart x hx
    unfold Apart at this ⊢
    omega

/-- A bucket emptied. -/
theorem Chained.emptyBucket (h : Chained valueSize block m)
    (hset : BlockSet valueSize block) (key : Key) :
    Chained valueSize block (setBucket m key 0) := by
  have hagree : ∀ e, block e →
      Agree m (setBucket m key 0) e (72 + valueSize) :=
    fun e he => hset.agree_setBucket he key 0
  have hbucket : ∀ k, bucket (setBucket m key 0) k ≠ 0 →
      bucket (setBucket m key 0) k = bucket m k := by
    intro k hne
    by_cases hhome : entryOffset k = entryOffset key
    · exact absurd (bucket_setBucket (by decide) hhome) hne
    · exact bucket_setBucket_of_ne hhome
  refine ⟨fun k hne => ?_, fun e he => ?_, fun k hne => ?_⟩
  · have hsame := hbucket k hne
    rw [hsame] at hne ⊢
    exact h.pointers k hne
  · have hle := hset.end_le e he
    rw [nextEntry_congr (by omega) (hagree e he)]
    exact h.last e he
  · have hsame := hbucket k hne
    rw [hsame] at hne ⊢
    have hblock := h.pointers k hne
    have hle := hset.end_le _ hblock
    rw [keyAt_congr (by omega) ((hagree _ hblock).mono (Nat.le_refl _)
      (by omega))]
    exact h.home k hne

/-- A new block linked to the bucket of its key. -/
theorem Chained.link (h : Chained valueSize block m) {e : Nat}
    (hset : BlockSet valueSize fun x => block x ∨ x = e)
    (hlast : nextEntry m (64 + valueSize) e = 0)
    (hhome : entryOffset (keyAt m e) = entryOffset key) :
    Chained valueSize (fun x => block x ∨ x = e) (setBucket m key e) := by
  have hagree : ∀ x, block x ∨ x = e →
      Agree m (setBucket m key e) x (72 + valueSize) :=
    fun x hx => hset.agree_setBucket hx key e
  have hle := hset.end_le e (.inr rfl)
  have hkeys : ∀ x, block x ∨ x = e →
      keyAt (setBucket m key e) x = keyAt m x := by
    intro x hx
    have hle := hset.end_le x hx
    exact keyAt_congr (by omega) ((hagree x hx).mono (Nat.le_refl _)
      (by omega))
  have hbucket : ∀ k, bucket (setBucket m key e) k = bucket m k ∨
      (bucket (setBucket m key e) k = e ∧
        entryOffset k = entryOffset key) := by
    intro k
    by_cases hk : entryOffset k = entryOffset key
    · exact .inr ⟨bucket_setBucket (by omega) hk, hk⟩
    · exact .inl (bucket_setBucket_of_ne hk)
  refine ⟨fun k hne => ?_, fun x hx => ?_, fun k hne => ?_⟩
  · rcases hbucket k with hsame | ⟨hnew, _⟩
    · rw [hsame] at hne ⊢
      exact .inl (h.pointers k hne)
    · exact .inr hnew
  · have hend := hset.end_le x hx
    rw [nextEntry_congr (by omega) (hagree x hx)]
    rcases hx with hx | hx
    · exact h.last x hx
    · rw [hx]
      exact hlast
  · rcases hbucket k with hsame | ⟨hnew, hk⟩
    · rw [hsame] at hne ⊢
      rw [hkeys _ (.inl (h.pointers k hne))]
      exact h.home k hne
    · rw [hnew, hkeys e (.inr rfl), hhome, hk]

/-- An entry put into a new block. -/
theorem Chained.insertEntry (h : Chained valueSize block m) {e : Nat}
    (hset : BlockSet valueSize fun x => block x ∨ x = e) (hnew : ¬ block e)
    (key : Key) (value : Bytes) :
    Chained valueSize (fun x => block x ∨ x = e)
      (insertEntry m valueSize e key value) := by
  have hle := hset.end_le e (.inr rfl)
  have hfilled : Chained valueSize block
      (writeEntry m valueSize e key value) :=
    h.fill hset hnew fun a k hapart => agree_writeEntry hle hapart
  refine hfilled.link hset (nextEntry_writeEntry hle) ?_
  rw [keyAt_writeEntry hle]

end Chains

/-! ## Several objects -/

/-- `gshm_upr` objects on one data area. -/
structure UprFleet (ι : Type) where
  data : Bytes
  members : ι → Instance

section Fleet

variable {ι : Type}

/-- New objects over a data area. -/
def UprFleet.construct (data : Bytes) (dataAddr : ι → DataAddr)
    (mac : ι → Option UInt8) : UprFleet ι where
  data := data
  members := fun i => .construct (dataAddr i) (mac i)

/-- A call by one of the objects. -/
def uprFleetStep [DecidableEq ι] (f : UprFleet ι) (call : ι × UprOp) :
    Option (Reply × UprFleet ι) :=
  match uprStep ⟨f.data, f.members call.1⟩ call.2 with
  | none => none
  | some (reply, u) =>
      some (reply, ⟨u.data, Function.update f.members call.1 u.self⟩)

/-! ### Hosts of their own -/

/-- An object that moves on keeps its host and its value size. -/
theorem sameAs_advance [DecidableEq ι] (members : ι → Instance) (i j : ι) :
    (Function.update members i (members i).advance j).hostId =
        (members j).hostId ∧
      (Function.update members i (members i).advance j).valueSize =
        (members j).valueSize := by
  by_cases hj : j = i
  · subst hj
    rw [Function.update_self]
    exact ⟨rfl, rfl⟩
  · rw [Function.update_of_ne hj]
    exact ⟨rfl, rfl⟩

/-- Objects with one value size on hosts of their own. -/
structure Hosts (valueSize : Nat) (members : ι → Instance) : Prop where
  plain : ∀ i, Plain (members i)
  size : ∀ i, (members i).valueSize = valueSize
  host_inj : ∀ i j, (members i).hostId = (members j).hostId → i = j

/-- A block that one of the objects has handed out: it lies in the partition
of the object and below its `next_free_offset`. -/
def HandedOut (valueSize : Nat) (members : ι → Instance) (e : Nat) : Prop :=
  ∃ i, IsBlock valueSize (members i).partitionStart
    (members i).nextFreeOffset e

namespace Hosts

variable {valueSize : Nat} {members : ι → Instance}

/-- New objects with sizes that go together. -/
theorem construct (dataAddr : ι → DataAddr) (mac : ι → Option UInt8)
    (hsmall : 72 + valueSize < 2 ^ 31)
    (hinj : ∀ i j, getMac (mac i) = getMac (mac j) → i = j) :
    Hosts valueSize fun i =>
      (Instance.construct (dataAddr i) (mac i)).withValueSize valueSize :=
  ⟨fun i => .construct (dataAddr i) (mac i) hsmall, fun _ => rfl, hinj⟩

/-- New objects have handed out nothing. -/
theorem not_handedOut_construct (dataAddr : ι → DataAddr)
    (mac : ι → Option UInt8) (e : Nat) :
    ¬ HandedOut valueSize (fun i =>
      (Instance.construct (dataAddr i) (mac i)).withValueSize valueSize)
        e := by
  intro he
  rcases he with ⟨i, he⟩
  have hlo := he.start_le
  have hhi : e + (72 + valueSize) ≤ ((Instance.construct (dataAddr i)
    (mac i)).withValueSize valueSize).partitionStart := he.end_le
  exact absurd (Nat.le_trans hhi hlo) (by omega)

variable (h : Hosts valueSize members)
include h

/-- The partition of an object, and its cursor in it. -/
theorem place (i : ι) :
    (members i).partitionStart = 2 ^ 27 + (members i).hostId * 2 ^ 30 ∧
      (members i).partitionStart ≤ (members i).nextFreeOffset ∧
      (members i).nextFreeOffset ≤ (members i).partitionEnd ∧
      (members i).partitionEnd = (members i).partitionStart + 2 ^ 30 ∧
      (members i).partitionEnd ≤ 2 ^ 39 :=
  ⟨(h.plain i).partitionStart_eq, (h.plain i).start_le, (h.plain i).le_end,
    (h.plain i).partitionEnd_eq, (h.plain i).partitionEnd_le⟩

/-- The partitions of two objects do not overlap. -/
theorem partitions_apart {i j : ι} (hne : i ≠ j) :
    (members i).partitionEnd ≤ (members j).partitionStart ∨
      (members j).partitionEnd ≤ (members i).partitionStart := by
  have hhost : (members i).hostId ≠ (members j).hostId :=
    fun heq => hne (h.host_inj i j heq)
  have hi := h.place i
  have hj := h.place j
  omega

theorem bounds {e : Nat} (he : HandedOut valueSize members e) :
    2 ^ 27 ≤ e ∧ e + (72 + valueSize) ≤ 2 ^ 39 := by
  rcases he with ⟨i, he⟩
  have hplace := h.place i
  have hlo := he.start_le
  have hhi := he.end_le
  omega

/-- Two blocks do not overlap. -/
theorem apart {e e' : Nat} (he : HandedOut valueSize members e)
    (he' : HandedOut valueSize members e') (hne : e ≠ e') :
    Apart e (72 + valueSize) e' (72 + valueSize) := by
  rcases he with ⟨i, he⟩
  rcases he' with ⟨j, he'⟩
  by_cases hij : i = j
  · subst hij
    exact he.apart he' hne
  · have hparts := h.partitions_apart hij
    have hi := h.place i
    have hj := h.place j
    have hlo := he.start_le
    have hhi := he.end_le
    have hlo' := he'.start_le
    have hhi' := he'.end_le
    unfold Apart
    omega

/-- Without host 0 the blocks are behind the bucket table. -/
theorem blockSet (hpos : ∀ i, 0 < (members i).hostId) :
    BlockSet valueSize (HandedOut valueSize members) := by
  refine ⟨fun e he => ?_, fun e he => ?_, fun _ _ => h.apart⟩
  · rcases he with ⟨i, he⟩
    have hplace := h.place i
    have hhost := hpos i
    have hlo := he.start_le
    omega
  · have hbounds := h.bounds he
    omega

/-- A block handed out is apart from what an object has left of its
partition. -/
theorem apart_rest {e : Nat} (he : HandedOut valueSize members e) (i : ι) :
    Apart e (72 + valueSize) (members i).nextFreeOffset
      ((members i).partitionEnd - (members i).nextFreeOffset) := by
  rcases he with ⟨j, he⟩
  have hlo := he.start_le
  have hhi := he.end_le
  have hi := h.place i
  have hj := h.place j
  unfold Apart
  by_cases hij : i = j
  · subst hij
    omega
  · have hparts := h.partitions_apart hij
    omega

/-- So it is from the block that comes next. -/
theorem apart_next {e : Nat} (he : HandedOut valueSize members e) {i : ι}
    (hroom : HasRoom (members i)) :
    Apart e (72 + valueSize) (members i).nextFreeOffset (72 + valueSize) := by
  have hrest := h.apart_rest he i
  have hsizes := (h.plain i).sizes
  have hsize := h.size i
  unfold HasRoom at hroom
  unfold Apart at hrest ⊢
  omega

/-- The next block of an object has not been handed out. -/
theorem not_handedOut_next {i : ι} (hroom : HasRoom (members i)) :
    ¬ HandedOut valueSize members (members i).nextFreeOffset := by
  intro he
  have hapart := h.apart_rest he i
  have hsizes := (h.plain i).sizes
  unfold HasRoom at hroom
  unfold Apart at hapart
  omega

variable [DecidableEq ι]

/-- An object moves on to its next block. -/
theorem advance {i : ι} (hroom : HasRoom (members i)) :
    Hosts valueSize (Function.update members i (members i).advance) := by
  have hsame := sameAs_advance members i
  refine ⟨fun j => ?_, fun j => ?_, fun j k heq => ?_⟩
  · by_cases hj : j = i
    · subst hj
      rw [Function.update_self]
      exact (h.plain j).advance hroom
    · rw [Function.update_of_ne hj]
      exact h.plain j
  · rw [(hsame j).2]
    exact h.size j
  · rw [(hsame j).1, (hsame k).1] at heq
    exact h.host_inj j k heq

/-- The blocks handed out then. -/
theorem handedOut_advance_iff (i : ι) (e : Nat) :
    HandedOut valueSize (Function.update members i (members i).advance) e ↔
      HandedOut valueSize members e ∨ e = (members i).nextFreeOffset := by
  have hnext := (h.plain i).isBlock_advance_iff (e := e)
  rw [h.size i] at hnext
  constructor
  · intro he
    rcases he with ⟨j, he⟩
    by_cases hj : j = i
    · subst hj
      rw [Function.update_self] at he
      rcases hnext.mp he with hold | hnew
      · exact .inl ⟨j, hold⟩
      · exact .inr hnew
    · rw [Function.update_of_ne hj] at he
      exact .inl ⟨j, he⟩
  · intro he
    rcases he with ⟨j, he⟩ | hnew
    · by_cases hj : j = i
      · subst hj
        refine ⟨j, ?_⟩
        rw [Function.update_self]
        exact hnext.mpr (.inl he)
      · refine ⟨j, ?_⟩
        rw [Function.update_of_ne hj]
        exact he
    · refine ⟨i, ?_⟩
      rw [Function.update_self]
      exact hnext.mpr (.inr hnew)

end Hosts

/-! ### The default sizes -/

/-- Objects with the default sizes on hosts of their own, none of which is
host 0. -/
structure OwnHosts (members : ι → Instance) : Prop where
  plain : ∀ i, Plain (members i)
  size : ∀ i, (members i).valueSize = 256
  host_pos : ∀ i, 0 < (members i).hostId
  host_inj : ∀ i j, (members i).hostId = (members j).hostId → i = j

/-- A block that one of the objects has allocated: it lies in the partition of
the object and below its `next_free_offset`. -/
def Allocated (members : ι → Instance) (e : Nat) : Prop :=
  ∃ i, IsBlock 256 (members i).partitionStart (members i).nextFreeOffset e

/-- Such a block of an object whose cursor has not left its partition. -/
def AllocatedInside (members : ι → Instance) (e : Nat) : Prop :=
  ∃ i, IsBlock 256 (members i).partitionStart (members i).nextFreeOffset e ∧
    e + 328 ≤ (members i).partitionEnd

namespace OwnHosts

variable {members : ι → Instance} (h : OwnHosts members)
include h

theorem hosts : Hosts 256 members :=
  ⟨h.plain, h.size, h.host_inj⟩

theorem place (i : ι) :
    (members i).partitionStart = 2 ^ 27 + (members i).hostId * 2 ^ 30 ∧
      (members i).partitionStart ≤ (members i).nextFreeOffset ∧
      (members i).nextFreeOffset ≤ (members i).partitionEnd ∧
      (members i).partitionEnd = (members i).partitionStart + 2 ^ 30 ∧
      (members i).partitionEnd ≤ 2 ^ 39 :=
  h.hosts.place i

theorem blockSet : BlockSet 256 (Allocated members) :=
  h.hosts.blockSet h.host_pos

/-- Blocks end inside the partition of their object. -/
theorem inside {e : Nat} (he : Allocated members e) :
    AllocatedInside members e := by
  obtain ⟨i, hblock⟩ := he
  have hplace := h.place i
  exact ⟨i, hblock, Nat.le_trans hblock.end_le hplace.2.2.1⟩

theorem not_allocated_next {i : ι} (hroom : HasRoom (members i)) :
    ¬ Allocated members (members i).nextFreeOffset :=
  h.hosts.not_handedOut_next hroom

variable [DecidableEq ι]

/-- An object moves on to its next block. -/
theorem advance {i : ι} (hroom : HasRoom (members i)) :
    OwnHosts (Function.update members i (members i).advance) := by
  have hnext := h.hosts.advance hroom
  refine ⟨hnext.plain, hnext.size, fun j => ?_, hnext.host_inj⟩
  rw [(sameAs_advance members i j).1]
  exact h.host_pos j

theorem allocated_advance_iff (i : ι) (e : Nat) :
    Allocated (Function.update members i (members i).advance) e ↔
      Allocated members e ∨ e = (members i).nextFreeOffset :=
  h.hosts.handedOut_advance_iff i e

theorem blockSet_next {i : ι} (hroom : HasRoom (members i)) :
    BlockSet 256 fun e =>
      Allocated members e ∨ e = (members i).nextFreeOffset := by
  have hall := (h.advance hroom).blockSet
  have hiff := h.allocated_advance_iff i
  exact ⟨fun e he => hall.behind e ((hiff e).mpr he),
    fun e he => hall.end_le e ((hiff e).mpr he),
    fun e e' he he' => hall.apart e e' ((hiff e).mpr he) ((hiff e').mpr he')⟩

omit [DecidableEq ι] in
/-- The next blocks of two objects. -/
theorem next_apart {i j : ι} (hne : i ≠ j) (hi : HasRoom (members i))
    (hj : HasRoom (members j)) :
    Apart (members i).nextFreeOffset 328 (members j).nextFreeOffset 328 := by
  have hparts := h.hosts.partitions_apart hne
  have hplace := h.place i
  have hplace' := h.place j
  have hsizes := (h.plain i).sizes
  have hsizes' := (h.plain j).sizes
  have hsize := h.size i
  have hsize' := h.size j
  unfold HasRoom at hi hj
  unfold Apart
  omega

end OwnHosts

/-! ## The invariant -/

/-- The objects and the chains behind every call. -/
structure FleetSound (f : UprFleet ι) : Prop where
  hosts : OwnHosts f.members
  chained : Chained 256 (Allocated f.members) f.data

/-- New objects have allocated nothing. -/
theorem FleetSound.not_allocated_construct (dataAddr : ι → DataAddr)
    (mac : ι → Option UInt8) (e : Nat) :
    ¬ Allocated (fun i => .construct (dataAddr i) (mac i)) e := by
  have hnone : ¬ HandedOut 256 (fun i => (Instance.construct (dataAddr i)
      (mac i)).withValueSize 256) e :=
    Hosts.not_handedOut_construct dataAddr mac e
  exact hnone

/-- New objects on hosts of their own over a zeroed data area. -/
theorem FleetSound.construct (dataAddr : ι → DataAddr)
    (mac : ι → Option UInt8) (hpos : ∀ i, 0 < getMac (mac i))
    (hinj : ∀ i j, getMac (mac i) = getMac (mac j) → i = j) :
    FleetSound (.construct (fun _ => 0) dataAddr mac) := by
  refine ⟨⟨fun i => ?_, fun i => rfl, hpos, hinj⟩,
    Chained.zero 256 (FleetSound.not_allocated_construct dataAddr mac)⟩
  exact Plain.construct (dataAddr i) (mac i)
    (show 72 + 256 < 2 ^ 31 by decide)

variable {f : UprFleet ι}

/-! ## Chains -/

/-- Following the words at `link` from an entry on leads through `nodes` and
ends at `0`. -/
inductive ChainFrom (m : Bytes) (link : Nat) : Nat → List Nat → Prop
  | done : ChainFrom m link 0 []
  | visit {e : Nat} {nodes : List Nat} (hne : e ≠ 0)
      (rest : ChainFrom m link (nextEntry m link e) nodes) :
      ChainFrom m link e (e :: nodes)

/-- The chain of a bucket: every entry once, each allocated inside a
partition, and each with a key of the bucket. -/
theorem FleetSound.chain (h : FleetSound f) (key : Key) :
    ∃ nodes, ChainFrom f.data 320 (bucket f.data key) nodes ∧
      nodes.Nodup ∧ ∀ e ∈ nodes, AllocatedInside f.members e ∧
        entryOffset (keyAt f.data e) = entryOffset key := by
  by_cases hne : bucket f.data key = 0
  · rw [hne]
    exact ⟨[], .done, List.nodup_nil, fun e he => absurd he List.not_mem_nil⟩
  · have hlast : nextEntry f.data 320 (bucket f.data key) = 0 :=
      h.chained.short key hne
    have hchain : ChainFrom f.data 320 (bucket f.data key)
        [bucket f.data key] := by
      apply ChainFrom.visit hne
      rw [hlast]
      exact .done
    refine ⟨_, hchain, List.nodup_singleton _, fun e he => ?_⟩
    rw [List.mem_singleton] at he
    rw [he]
    exact ⟨h.hosts.inside (h.chained.pointers key hne), h.chained.home key hne⟩

variable [DecidableEq ι]

/-! ## Whole calls in any order -/

namespace FleetSound

variable (h : FleetSound f)
include h

/-- **Step lemma**: a call of any object keeps the chains. -/
theorem made {i : ι} {key : Key} {obj : Instance} {m : Bytes}
    (hmade : Made key (f.members i) f.data obj m) :
    FleetSound ⟨m, Function.update f.members i obj⟩ := by
  have hset := h.hosts.blockSet
  have hsize := h.hosts.size i
  cases hmade with
  | keep =>
      rw [Function.update_eq_self]
      exact h
  | value value hne =>
      rw [Function.update_eq_self, hsize]
      exact ⟨h.hosts, h.chained.writeValue hset (h.chained.block_entryOf hne)
        value⟩
  | unlink =>
      rw [Function.update_eq_self]
      exact ⟨h.hosts, h.chained.emptyBucket hset key⟩
  | place value hroom =>
      have hhosts := h.hosts.advance hroom
      have hiff := h.hosts.allocated_advance_iff i
      have hset' := h.hosts.blockSet_next hroom
      rw [hsize]
      exact ⟨hhosts, (h.chained.insertEntry hset'
        (h.hosts.not_allocated_next hroom) key value).congr hiff⟩

/-- Every call returns. -/
theorem step (call : ι × UprOp) :
    ∃ reply f', uprFleetStep f call = some (reply, f') ∧ FleetSound f' := by
  have hsize := h.hosts.size call.1
  have hshort := h.chained.short call.2.key
  rw [← hsize] at hshort
  have hend : entryOf f.data call.2.key ≠ 0 →
      entryOf f.data call.2.key + (72 + (f.members call.1).valueSize) ≤
        2 ^ 63 := by
    intro hne
    rw [hsize]
    exact h.hosts.blockSet.end_le _ (h.chained.block_entryOf hne)
  obtain ⟨reply, u, hstep, hmade⟩ := uprStep_of_short
    (u := ⟨f.data, f.members call.1⟩) (h.hosts.plain call.1)
    (fun _ => hsize) hshort hend
  exact ⟨reply, _, by rw [uprFleetStep, hstep], h.made hmade⟩

/-- **Run lemma**: so do all calls of a run. -/
theorem run (calls : List (ι × UprOp)) :
    ∃ replies f', run uprFleetStep f calls = some (replies, f') ∧
      FleetSound f' := by
  induction calls generalizing f with
  | nil => exact ⟨[], f, rfl, h⟩
  | cons call calls ih =>
      obtain ⟨reply, f₁, hstep, h₁⟩ := h.step call
      obtain ⟨replies, f', hrun, h'⟩ := ih h₁
      exact ⟨reply :: replies, f', run_cons_eq_some_iff.mpr
        ⟨reply, f₁, replies, hstep, hrun, rfl⟩, h'⟩

end FleetSound

/-- Objects on hosts of their own make calls in any order.  In the state they
lead to every chain ends and visits no entry twice, its entries are allocated,
lie inside a partition and belong to the bucket, and whichever call comes next
returns. -/
theorem chains_well_formed (dataAddr : ι → DataAddr)
    (mac : ι → Option UInt8) (hpos : ∀ i, 0 < getMac (mac i))
    (hinj : ∀ i j, getMac (mac i) = getMac (mac j) → i = j)
    (calls : List (ι × UprOp)) :
    ∃ replies f', run uprFleetStep
        (UprFleet.construct (fun _ => 0) dataAddr mac) calls =
          some (replies, f') ∧
      (∀ key, ∃ nodes, ChainFrom f'.data 320 (bucket f'.data key) nodes ∧
        nodes.Nodup ∧ ∀ e ∈ nodes, AllocatedInside f'.members e ∧
          entryOffset (keyAt f'.data e) = entryOffset key) ∧
      ∀ call, ∃ reply f'', uprFleetStep f' call = some (reply, f'') := by
  have hstart := FleetSound.construct dataAddr mac hpos hinj
  obtain ⟨replies, f', hrun, h'⟩ := hstart.run calls
  refine ⟨replies, f', hrun, h'.chain, fun call => ?_⟩
  obtain ⟨reply, f'', hstep, _⟩ := h'.step call
  exact ⟨reply, f'', hstep⟩

/-- Two hosts that insert the same key. -/
theorem chains_well_formed_two_hosts :
    ∃ replies f', run uprFleetStep
        (UprFleet.construct (fun _ => 0)
          (fun _ : Bool => Instance.firstHost.dataAddr) hostOneTwo)
        [(true, .insert (fun _ => 7) fun _ => 1),
          (false, .insert (fun _ => 7) fun _ => 2)] =
          some (replies, f') ∧
      (∀ key, ∃ nodes, ChainFrom f'.data 320 (bucket f'.data key) nodes ∧
        nodes.Nodup ∧ ∀ e ∈ nodes, AllocatedInside f'.members e ∧
          entryOffset (keyAt f'.data e) = entryOffset key) ∧
      ∀ call, ∃ reply f'', uprFleetStep f' call = some (reply, f'') :=
  chains_well_formed _ hostOneTwo (fun i => by cases i <;> decide)
    (fun i j => by cases i <;> cases j <;> decide) _

end Fleet

end SHMemora.Ports
