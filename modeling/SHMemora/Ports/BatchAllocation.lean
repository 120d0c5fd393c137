import SHMemora.Ports.GshmUprStore

/-!
# Batched allocation

With `use_batch` an insertion takes the next slot of a batch of `batch_kvs`
slots of `kv_size` bytes.  Three members that belong together are set at
different times.  `available_slots` starts with 16 for the first batch whatever
`batch_kvs` is, and since that batch was never reserved, `next_free_offset`
still points to its beginning.  `kv_size` stays 328 when `value_size` is
changed.  And nothing compares a slot with the end of the partition.

So the first 16 calls take the slots `batch_kvs - 16`, …, `batch_kvs - 1` of
the partition, the next call slot `0`, and from there on call number `k` takes
slot `k - 16` if it opens a batch and slot `k - 16 + batch_kvs` if it does not
(`slotNumber`).  With the default `batch_kvs` of 16 the 17th call writes over
the entry of the first.

## Main results

* `run_batchStep` — the slots of a run of calls;
* `batch_sound_iff` — for which `batch_kvs`, `value_size` and number of calls
  the blocks are apart and inside the partition.
-/

namespace SHMemora.Ports

open SHMemora.Verified.ByteMemory
open SHMemora.Verified.StepRun

/-! ## The slot of a call -/

namespace Instance

/-- `start_offset` of the next insertion with `use_batch`. -/
def batchSlot (self : Instance) : Nat :=
  if self.availableSlots = 0 then self.nextFreeOffset
  else
    wrap (self.nextFreeOffset +
      (self.batchKvs + 2 ^ 64 - self.availableSlots) * self.kvSize)

/-- The members after that insertion. -/
def nextBatch (self : Instance) : Instance :=
  if self.availableSlots = 0 then
    { self with
      availableSlots := wrap (self.batchKvs + (2 ^ 64 - 1))
      nextFreeOffset :=
        wrap (self.nextFreeOffset + self.kvSize * self.batchKvs) }
  else { self with availableSlots := self.availableSlots - 1 }

/-- The members for batched insertion, `value_size` set with `entry_size` and
`batch_kvs` set after construction. -/
def forBatch (dataAddr : DataAddr) (mac : Option UInt8)
    (valueSize batchKvs : Nat) : Instance :=
  { (construct dataAddr mac).withValueSize valueSize with
    batchKvs := batchKvs
    useBatch := true }

end Instance

/-- Both branches of `insert` with `use_batch`: an entry at the slot, and the
bucket word. -/
theorem GshmUpr.insertBatched_eq (u : GshmUpr) (key : Key) (value : Bytes) :
    u.insertBatched key value = .returned true
      ((GshmUpr.fillEntry { u with self := u.self.nextBatch } u.self.batchSlot
        u.self.valueSize key value).writeCxl (entryOffset key) 8
        (ofWord u.self.batchSlot)).2 := by
  rw [GshmUpr.insertBatched, Instance.batchSlot, Instance.nextBatch]
  by_cases hempty : u.self.availableSlots = 0
  · simp only [if_pos hempty]
  · simp only [if_neg hempty]

/-- A call of `insert` that returns `true`, and the offset from which on it
writes its block. -/
def batchStep (u : GshmUpr) (call : Key × Bytes) : Option (Nat × GshmUpr) :=
  match u.insert call.1 call.2 with
  | .returned true u' => some (u.self.batchSlot, u')
  | _ => none

theorem batchStep_eq {u : GshmUpr} (hbatch : u.self.useBatch = true)
    (call : Key × Bytes) :
    ∃ u', batchStep u call = some (u.self.batchSlot, u') ∧
      u'.self = u.self.nextBatch := by
  have hinsert := u.insertBatched_eq call.1 call.2
  have hbranch : u.insert call.1 call.2 = u.insertBatched call.1 call.2 :=
    if_pos hbatch
  rw [← hbranch] at hinsert
  refine ⟨_, by rw [batchStep, hinsert], ?_⟩
  rw [GshmUpr.writeCxl_self, GshmUpr.fillEntry_self]

/-! ## The slots of a run -/

/-- Call number `k` opens a batch that has been reserved. -/
def OpensBatch (batchKvs k : Nat) : Prop := 16 ≤ k ∧ batchKvs ∣ k - 16

instance (batchKvs k : Nat) : Decidable (OpensBatch batchKvs k) :=
  inferInstanceAs (Decidable (_ ∧ _))

/-- The slot of call number `k`, counted from the beginning of the partition
and modulo `2 ^ 64`. -/
def slotNumber (batchKvs k : Nat) : Nat :=
  if OpensBatch batchKvs k then k - 16 else batchKvs + 2 ^ 64 + k - 16

/-- How far the calls have come: in the batch that was never reserved, or with
`r` slots taken of the last of `q + 1` batches. -/
inductive BatchPlace (start batchKvs k : Nat) (obj : Instance) : Prop
  | first (hk : k ≤ 16) (hleft : obj.availableSlots = 16 - k)
      (hcursor : obj.nextFreeOffset = start)
  | later (q r : Nat) (hk : k = 16 + (batchKvs * q + r)) (hpos : 1 ≤ r)
      (hle : r ≤ batchKvs) (hleft : obj.availableSlots = batchKvs - r)
      (hcursor :
        obj.nextFreeOffset = wrap (start + 328 * (batchKvs * q + batchKvs)))

/-- The members before call number `k`. -/
structure BatchAt (start batchKvs k : Nat) (obj : Instance) : Prop where
  useBatch : obj.useBatch = true
  kvSize : obj.kvSize = 328
  batchKvs_eq : obj.batchKvs = batchKvs
  place : BatchPlace start batchKvs k obj

section Run

variable {start batchKvs k : Nat} {obj : Instance}

/-- Reduction of a summand may be put off. -/
theorem wrap_add_wrap (a b : Nat) : wrap (wrap a + b) = wrap (a + b) :=
  Nat.mod_add_mod a _ b

theorem wrap_add_mul (a b : Nat) : wrap (a + b * 2 ^ 64) = wrap a :=
  Nat.add_mul_mod_self_right a b _

theorem BatchAt.init (dataAddr : DataAddr) (mac : Option UInt8)
    (valueSize batchKvs : Nat) :
    BatchAt (Instance.construct dataAddr mac).partitionStart batchKvs 0
      (Instance.forBatch dataAddr mac valueSize batchKvs) :=
  ⟨rfl, rfl, rfl, .first (Nat.zero_le 16) rfl rfl⟩

/-- Where the next call puts its entry. -/
theorem BatchAt.slot (h : BatchAt start batchKvs k obj)
    (hstart : start < 2 ^ 64) (hpos : 1 ≤ batchKvs) :
    obj.batchSlot = wrap (start + 328 * slotNumber batchKvs k) := by
  rw [Instance.batchSlot, slotNumber, h.kvSize, h.batchKvs_eq]
  rcases h.place with ⟨hk, hleft, hcursor⟩ |
    ⟨q, r, hk, hr, hle, hleft, hcursor⟩
  · rw [hleft, hcursor]
    by_cases hlast : k = 16
    · have hopens : OpensBatch batchKvs k := by
        rw [hlast]
        exact ⟨Nat.le_refl 16, Nat.dvd_zero batchKvs⟩
      rw [if_pos (by omega), if_pos hopens, hlast]
      exact (wrap_of_lt hstart).symm
    · have hopens : ¬ OpensBatch batchKvs k := fun h => hlast (by
        have := h.1
        omega)
      have hsub : batchKvs + 2 ^ 64 - (16 - k) =
          batchKvs + 2 ^ 64 + k - 16 := by omega
      rw [if_neg (by omega), if_neg hopens, Nat.mul_comm, hsub]
  · rw [hleft, hcursor]
    by_cases hlast : r = batchKvs
    · have hopens : OpensBatch batchKvs k := by
        refine ⟨by omega, q + 1, ?_⟩
        rw [hk, hlast, Nat.add_sub_cancel_left]
        rfl
      rw [if_pos (by omega), if_pos hopens, hk, hlast,
        Nat.add_sub_cancel_left]
    · have hopens : ¬ OpensBatch batchKvs k := by
        intro h
        have hdvd := h.2
        rw [hk, Nat.add_sub_cancel_left,
          Nat.dvd_add_right (Nat.dvd_mul_right batchKvs q)] at hdvd
        have := Nat.le_of_dvd hr hdvd
        omega
      have hsum : start + 328 * (batchKvs * q + batchKvs) +
          (batchKvs + 2 ^ 64 - (batchKvs - r)) * 328 =
          start + 328 * (batchKvs + 2 ^ 64 + k - 16) := by omega
      rw [if_neg (by omega), if_neg hopens, wrap_add_wrap, hsum]

theorem BatchAt.next (h : BatchAt start batchKvs k obj)
    (hpos : 1 ≤ batchKvs) (hlt : batchKvs < 2 ^ 64) :
    BatchAt start batchKvs (k + 1) obj.nextBatch := by
  by_cases hempty : obj.availableSlots = 0
  · have hnext : obj.nextBatch = { obj with
        availableSlots := wrap (obj.batchKvs + (2 ^ 64 - 1))
        nextFreeOffset :=
          wrap (obj.nextFreeOffset + obj.kvSize * obj.batchKvs) } :=
      if_pos hempty
    have hleft : wrap (obj.batchKvs + (2 ^ 64 - 1)) = batchKvs - 1 := by
      have hsum : obj.batchKvs + (2 ^ 64 - 1) =
          batchKvs - 1 + 1 * 2 ^ 64 := by
        rw [h.batchKvs_eq]
        omega
      rw [hsum, wrap_add_mul, wrap_of_lt (by omega)]
    rw [hnext]
    refine ⟨h.useBatch, h.kvSize, h.batchKvs_eq, ?_⟩
    rcases h.place with ⟨hk, havail, hcursor⟩ |
      ⟨q, r, hk, hr, hle, havail, hcursor⟩
    · refine .later 0 1 (by omega) (Nat.le_refl 1) hpos hleft ?_
      show wrap (obj.nextFreeOffset + obj.kvSize * obj.batchKvs) = _
      rw [hcursor, h.kvSize, h.batchKvs_eq, Nat.mul_zero, Nat.zero_add]
    · have hfull : r = batchKvs := by omega
      refine .later (q + 1) 1 ?_ (Nat.le_refl 1) hpos hleft ?_
      · rw [hk, hfull, Nat.mul_succ]
        omega
      · show wrap (obj.nextFreeOffset + obj.kvSize * obj.batchKvs) = _
        rw [hcursor, h.kvSize, h.batchKvs_eq, wrap_add_wrap, Nat.mul_succ,
          Nat.add_assoc, ← Nat.mul_add]
  · have hnext : obj.nextBatch =
        { obj with availableSlots := obj.availableSlots - 1 } :=
      if_neg hempty
    rw [hnext]
    refine ⟨h.useBatch, h.kvSize, h.batchKvs_eq, ?_⟩
    rcases h.place with ⟨hk, havail, hcursor⟩ |
      ⟨q, r, hk, hr, hle, havail, hcursor⟩
    · refine .first (by omega) ?_ hcursor
      show obj.availableSlots - 1 = _
      omega
    · refine .later q (r + 1) (by omega) (by omega) (by omega) ?_ hcursor
      show obj.availableSlots - 1 = _
      omega

/-- **Run lemma**: every call returns `true`, and the slots are those of
`slotNumber`. -/
theorem run_batchStep (hstart : start < 2 ^ 64) (hpos : 1 ≤ batchKvs)
    (hlt : batchKvs < 2 ^ 64) {u : GshmUpr}
    (h : BatchAt start batchKvs k u.self) (calls : List (Key × Bytes)) :
    ∃ u', run batchStep u calls =
      some ((List.range calls.length).map fun i =>
        wrap (start + 328 * slotNumber batchKvs (k + i)), u') := by
  induction calls generalizing u k with
  | nil => exact ⟨u, rfl⟩
  | cons call calls ih =>
      obtain ⟨u₁, hstep, hself⟩ := batchStep_eq h.useBatch call
      have hnext := h.next hpos hlt
      rw [← hself] at hnext
      obtain ⟨u', hrun⟩ := ih hnext
      refine ⟨u', ?_⟩
      rw [run_cons_of_step hstep, hrun, h.slot hstart hpos,
        List.length_cons, List.range_succ_eq_map]
      have hshift : ((fun i => wrap (start + 328 *
          slotNumber batchKvs (k + i))) ∘ Nat.succ) =
          fun i => wrap (start + 328 * slotNumber batchKvs (k + 1 + i)) := by
        funext i
        rw [Function.comp_apply, Nat.succ_eq_add_one, Nat.add_assoc,
          Nat.add_comm 1 i]
      simp only [Option.map_some, List.map_cons, List.map_map, Nat.add_zero,
        hshift]

end Run

/-! ## Blocks inside the partition -/

/-- Blocks of `len` bytes are apart and inside the partition. -/
structure ApartWithin (obj : Instance) (len : Nat) (starts : List Nat) :
    Prop where
  apart : starts.Pairwise fun a b => Apart a len b len
  within : ∀ a, a ∈ starts →
    obj.partitionStart ≤ a ∧ a + len ≤ obj.partitionEnd

/-- Where the slot of call number `k` begins, counted from the beginning of
the partition. -/
def slotOffset (batchKvs k : Nat) : Nat := wrap (328 * slotNumber batchKvs k)

/-- `kv_size * batch_kvs` as the code computes it: the bytes of a batch. -/
def batchBytes (batchKvs : Nat) : Nat := wrap (328 * batchKvs)

/-- The last of `n` calls that takes a slot within a batch. -/
def lastWithin (batchKvs n : Nat) : Nat :=
  if n ≤ 16 then n - 1
  else if batchKvs ∣ n - 17 then n - 2
  else n - 1

/-- When `n` batched insertions are sound.  The first call takes a slot 16
slots before the end of the first batch, and that must not be before the
partition; entries of more than 328 bytes overlap; the 17th call goes back to
the beginning of the partition, which must not be taken; and the last entry
must not go beyond the end. -/
def BatchSound (valueSize batchKvs n : Nat) : Prop :=
  n = 0 ∨
    5248 ≤ batchBytes batchKvs ∧
    (n = 1 ∨ valueSize ≤ 256) ∧
    (n ≤ 16 ∨ 5248 + (72 + valueSize) ≤ batchBytes batchKvs) ∧
    batchBytes batchKvs + 328 * lastWithin batchKvs n + (72 + valueSize) ≤
      2 ^ 30 + 5248

instance (valueSize batchKvs n : Nat) :
    Decidable (BatchSound valueSize batchKvs n) :=
  inferInstanceAs (Decidable (_ ∨ _))

section Offsets

variable {batchKvs k : Nat}

theorem slotOffset_of_opens (h : OpensBatch batchKvs k) :
    slotOffset batchKvs k = wrap (328 * (k - 16)) := by
  rw [slotOffset, slotNumber, if_pos h]

/-- The other slots are a batch further on. -/
theorem slotOffset_of_not_opens (h : ¬ OpensBatch batchKvs k) :
    slotOffset batchKvs k =
      wrap (batchBytes batchKvs + 328 * k + (2 ^ 64 - 5248)) := by
  have hsum : 328 * (batchKvs + 2 ^ 64 + k - 16) =
      328 * batchKvs + (328 * k + (2 ^ 64 - 5248)) + 327 * 2 ^ 64 := by omega
  rw [slotOffset, slotNumber, if_neg h, hsum, wrap_add_mul, batchBytes,
    Nat.add_assoc, wrap_add_wrap]

theorem not_opensBatch_of_lt (h : k < 16) : ¬ OpensBatch batchKvs k :=
  fun hopens => Nat.not_lt.mpr hopens.1 h

/-- A slot within a batch, as long as its address does not wrap around. -/
theorem slotOffset_within (h : ¬ OpensBatch batchKvs k)
    (hbytes : 5248 ≤ batchBytes batchKvs)
    (hlt : batchBytes batchKvs + 328 * k < 2 ^ 64) :
    slotOffset batchKvs k = batchBytes batchKvs + 328 * k - 5248 := by
  have hsum : batchBytes batchKvs + 328 * k + (2 ^ 64 - 5248) =
      batchBytes batchKvs + 328 * k - 5248 + 1 * 2 ^ 64 := by omega
  rw [slotOffset_of_not_opens h, hsum, wrap_add_mul, wrap_of_lt (by omega)]

end Offsets

/-- An address modulo `2 ^ 64` lies in a partition if and only if the offset
modulo `2 ^ 64` does. -/
theorem within_iff {start x len : Nat} (hstart : start ≤ 2 ^ 39)
    (hlen : len < 2 ^ 31) :
    (start ≤ wrap (start + x) ∧ wrap (start + x) + len ≤ start + 2 ^ 30) ↔
      wrap x + len ≤ 2 ^ 30 := by
  unfold wrap
  omega

theorem wrap_of_within {start x len : Nat} (hstart : start ≤ 2 ^ 39)
    (h : wrap x + len ≤ 2 ^ 30) : wrap (start + x) = start + wrap x := by
  unfold wrap at *
  omega

/-- The slots of a run, counted from the beginning of the partition. -/
theorem apartWithin_iff {obj : Instance} (hhost : obj.hostId < 256)
    {len : Nat} (hlen : len < 2 ^ 31) (batchKvs n : Nat) :
    ApartWithin obj len ((List.range n).map fun k =>
        wrap (obj.partitionStart + 328 * slotNumber batchKvs k)) ↔
      (∀ k, k < n → slotOffset batchKvs k + len ≤ 2 ^ 30) ∧
        ∀ i j, i < j → j < n →
          Apart (slotOffset batchKvs i) len (slotOffset batchKvs j) len := by
  have hstart := Instance.partitionStart_eq hhost
  have hend := Instance.partitionEnd_eq
    (show obj.partitionStart < 2 ^ 63 by omega)
  have hle : obj.partitionStart ≤ 2 ^ 39 := by omega
  constructor
  · intro h
    have hbound : ∀ k, k < n → slotOffset batchKvs k + len ≤ 2 ^ 30 := by
      intro k hk
      have hin := h.within _ (List.mem_map_of_mem (List.mem_range.mpr hk))
      rw [hend] at hin
      exact (within_iff hle hlen).mp hin
    refine ⟨hbound, fun i j hij hj => ?_⟩
    have hpair := List.pairwise_iff_getElem.mp h.apart i j
      (by simp; omega) (by simp; omega) hij
    simp only [List.getElem_map, List.getElem_range] at hpair
    rw [wrap_of_within hle (hbound i (by omega)),
      wrap_of_within hle (hbound j hj)] at hpair
    unfold Apart at hpair
    unfold Apart slotOffset
    omega
  · intro h
    rcases h with ⟨hbound, hapart⟩
    constructor
    · rw [List.pairwise_iff_getElem]
      intro i j hi hj hij
      simp only [List.length_map, List.length_range] at hi hj
      simp only [List.getElem_map, List.getElem_range]
      have hpair := hapart i j hij hj
      rw [wrap_of_within hle (hbound i hi), wrap_of_within hle (hbound j hj)]
      unfold Apart slotOffset at hpair
      unfold Apart
      omega
    · intro a ha
      rcases List.mem_map.mp ha with ⟨k, hk, rfl⟩
      rw [hend]
      exact (within_iff hle hlen).mpr (hbound k (List.mem_range.mp hk))

/-! ## The exact condition -/

section Exact

variable {batchKvs n k : Nat}

theorem le_lastWithin (hk : k < n) (hwithin : ¬ OpensBatch batchKvs k) :
    k ≤ lastWithin batchKvs n := by
  unfold lastWithin
  by_cases hfirst : n ≤ 16
  · rw [if_pos hfirst]
    omega
  · rw [if_neg hfirst]
    by_cases hdvd : batchKvs ∣ n - 17
    · rw [if_pos hdvd]
      by_cases hlast : k = n - 1
      · refine absurd ⟨by omega, ?_⟩ hwithin
        rw [hlast, Nat.sub_sub]
        exact hdvd
      · omega
    · rw [if_neg hdvd]
      omega

theorem sub_two_le_lastWithin (batchKvs n : Nat) :
    n - 2 ≤ lastWithin batchKvs n := by
  unfold lastWithin
  split
  case isTrue => omega
  case isFalse => split <;> omega

theorem lastWithin_lt (batchKvs : Nat) (hn : n ≠ 0) :
    lastWithin batchKvs n < n := by
  unfold lastWithin
  split
  case isTrue => omega
  case isFalse => split <;> omega

/-- Neighbouring calls open batches only if a batch is a single slot. -/
theorem not_opens_of_opens_succ (hbatch : batchKvs ≠ 1)
    (h : OpensBatch batchKvs (k + 1)) : ¬ OpensBatch batchKvs k := by
  intro hk
  have hdvd := Nat.dvd_sub h.2 hk.2
  have hone : k + 1 - 16 - (k - 16) = 1 := by
    have := hk.1
    omega
  rw [hone, Nat.dvd_one] at hdvd
  exact hbatch hdvd

theorem not_opens_lastWithin (hbatch : batchKvs ≠ 1) (n : Nat) :
    ¬ OpensBatch batchKvs (lastWithin batchKvs n) := by
  unfold lastWithin
  by_cases hfirst : n ≤ 16
  · rw [if_pos hfirst]
    exact not_opensBatch_of_lt (by omega)
  · rw [if_neg hfirst]
    by_cases hdvd : batchKvs ∣ n - 17
    · rw [if_pos hdvd]
      refine not_opens_of_opens_succ hbatch ⟨by omega, ?_⟩
      rw [show n - 2 + 1 - 16 = n - 17 by omega]
      exact hdvd
    · rw [if_neg hdvd]
      intro h
      apply hdvd
      rw [show n - 17 = n - 1 - 16 by omega]
      exact h.2

/-- A first batch that does not reach before the partition has more than one
slot. -/
theorem batchKvs_ne_one (hbytes : 5248 ≤ batchBytes batchKvs) :
    batchKvs ≠ 1 := by
  intro hone
  rw [hone] at hbytes
  exact absurd hbytes (by decide)

section Sufficient

variable {valueSize : Nat} (hbytes : 5248 ≤ batchBytes batchKvs)
  (hend : batchBytes batchKvs + 328 * lastWithin batchKvs n +
    (72 + valueSize) ≤ 2 ^ 30 + 5248)

include hbytes hend

theorem offset_within (hk : k < n) (hwithin : ¬ OpensBatch batchKvs k) :
    slotOffset batchKvs k = batchBytes batchKvs + 328 * k - 5248 := by
  have hle := le_lastWithin hk hwithin
  exact slotOffset_within hwithin hbytes (by omega)

theorem offset_opens (hk : k < n) (hopens : OpensBatch batchKvs k) :
    slotOffset batchKvs k = 328 * (k - 16) := by
  have hle := sub_two_le_lastWithin batchKvs n
  have hfrom := hopens.1
  rw [slotOffset_of_opens hopens, wrap_of_lt (by omega)]

theorem offset_end_le (hk : k < n) :
    slotOffset batchKvs k + (72 + valueSize) ≤ 2 ^ 30 := by
  by_cases hopens : OpensBatch batchKvs k
  · have hle := sub_two_le_lastWithin batchKvs n
    have hfrom := hopens.1
    rw [offset_opens hbytes hend hk hopens]
    omega
  · have hle := le_lastWithin hk hopens
    rw [offset_within hbytes hend hk hopens]
    omega

/-- A slot within a batch is not the beginning of a later one. -/
theorem offset_apart_opens {i j : Nat} (hsize : valueSize ≤ 256)
    (hfirst : 5248 + (72 + valueSize) ≤ batchBytes batchKvs) (hij : i < j)
    (hj : j < n) (hi : ¬ OpensBatch batchKvs i)
    (hopens : OpensBatch batchKvs j) :
    Apart (slotOffset batchKvs i) (72 + valueSize)
      (slotOffset batchKvs j) (72 + valueSize) := by
  have hfrom := hopens.1
  have hle := sub_two_le_lastWithin batchKvs n
  rw [offset_within hbytes hend (by omega) hi, offset_opens hbytes hend hj
    hopens]
  rcases hopens.2 with ⟨q, hq⟩
  unfold Apart
  cases q with
  | zero =>
      rw [Nat.mul_zero] at hq
      omega
  | succ q =>
      rw [Nat.mul_succ] at hq
      have hnowrap : batchBytes batchKvs = 328 * batchKvs :=
        wrap_of_lt (by omega)
      rw [hnowrap]
      have hne : i ≠ 16 + batchKvs * q := by
        intro heq
        apply hi
        rw [heq]
        exact ⟨Nat.le_add_right _ _, by
          rw [Nat.add_sub_cancel_left]; exact Nat.dvd_mul_right _ _⟩
      generalize batchKvs * q = taken at hq hne
      omega

theorem offset_apart {i j : Nat} (hsize : valueSize ≤ 256)
    (hfirst : n ≤ 16 ∨ 5248 + (72 + valueSize) ≤ batchBytes batchKvs)
    (hij : i < j) (hj : j < n) :
    Apart (slotOffset batchKvs i) (72 + valueSize)
      (slotOffset batchKvs j) (72 + valueSize) := by
  by_cases hi : OpensBatch batchKvs i
  · have hfrom := hi.1
    by_cases hopens : OpensBatch batchKvs j
    · rw [offset_opens hbytes hend (by omega) hi,
        offset_opens hbytes hend hj hopens]
      exact .inl (by omega)
    · rw [offset_opens hbytes hend (by omega) hi,
        offset_within hbytes hend hj hopens]
      exact .inl (by omega)
  · by_cases hopens : OpensBatch batchKvs j
    · have hfrom := hopens.1
      exact offset_apart_opens hbytes hend hsize
        (hfirst.resolve_left (by omega)) hij hj hi hopens
    · rw [offset_within hbytes hend (by omega) hi,
        offset_within hbytes hend hj hopens]
      exact .inl (by omega)

end Sufficient

section Necessary

variable {valueSize : Nat}
  (hbound : ∀ k, k < n → slotOffset batchKvs k + (72 + valueSize) ≤ 2 ^ 30)
include hbound

theorem bytes_of_bound (hn : n ≠ 0) : 5248 ≤ batchBytes batchKvs := by
  have hlt : batchBytes batchKvs < 2 ^ 64 := wrap_lt _
  have hzero := hbound 0 (by omega)
  rw [slotOffset_of_not_opens (not_opensBatch_of_lt (by decide))] at hzero
  unfold wrap at hzero
  omega

theorem slotOffset_zero_of_bound (hn : n ≠ 0) :
    slotOffset batchKvs 0 = batchBytes batchKvs - 5248 := by
  have hlt : batchBytes batchKvs < 2 ^ 64 := wrap_lt _
  exact slotOffset_within (not_opensBatch_of_lt (by decide))
    (bytes_of_bound hbound hn) (by omega)

/-- The slots never get as far as to wrap around: they would have gone beyond
the end of the partition long before. -/
theorem lt_of_bound (hk : k < n) :
    batchBytes batchKvs + 328 * k < 2 ^ 64 := by
  have hbytes := bytes_of_bound hbound (by omega)
  have hzero := hbound 0 (by omega)
  rw [slotOffset_zero_of_bound hbound (by omega)] at hzero
  by_contra hge
  have hbeyond : ∀ j, j < n → 2 ^ 22 ≤ j → j ≤ 2 ^ 23 →
      OpensBatch batchKvs j := by
    intro j hj hlo hhi
    by_contra hwithin
    have hin := hbound j hj
    rw [slotOffset_within hwithin hbytes (by omega)] at hin
    omega
  exact not_opens_of_opens_succ (batchKvs_ne_one hbytes)
    (hbeyond (2 ^ 22 + 1) (by omega) (by decide) (by decide))
    (hbeyond (2 ^ 22) (by omega) (by decide) (by decide))

end Necessary

theorem offsets_sound_iff (valueSize : Nat) :
    (∀ k, k < n → slotOffset batchKvs k + (72 + valueSize) ≤ 2 ^ 30) ∧
      (∀ i j, i < j → j < n →
        Apart (slotOffset batchKvs i) (72 + valueSize)
          (slotOffset batchKvs j) (72 + valueSize)) ↔
      BatchSound valueSize batchKvs n := by
  constructor
  · intro h
    rcases h with ⟨hbound, hapart⟩
    by_cases hn : n = 0
    · exact .inl hn
    · have hbytes := bytes_of_bound hbound hn
      have hzero := slotOffset_zero_of_bound hbound hn
      refine .inr ⟨hbytes, ?_, ?_, ?_⟩
      · by_cases hone : n = 1
        · exact .inl hone
        · have hpair := hapart 0 1 (by decide) (by omega)
          rw [hzero, slotOffset_within (not_opensBatch_of_lt (by decide))
            hbytes (lt_of_bound hbound (by omega))] at hpair
          unfold Apart at hpair
          exact .inr (by omega)
      · by_cases hfirst : n ≤ 16
        · exact .inl hfirst
        · have hpair := hapart 0 16 (by decide) (by omega)
          rw [hzero, slotOffset_of_opens
            ⟨Nat.le_refl 16, Nat.dvd_zero batchKvs⟩,
            wrap_of_lt (by decide)] at hpair
          unfold Apart at hpair
          exact .inr (by omega)
      · have hwithin := not_opens_lastWithin (batchKvs_ne_one hbytes) n
        have hlt := lastWithin_lt batchKvs hn
        have hin := hbound _ hlt
        rw [slotOffset_within hwithin hbytes (lt_of_bound hbound hlt)] at hin
        omega
  · intro h
    rcases h with hn | ⟨hbytes, hsize, hfirst, hend⟩
    · exact ⟨fun k hk => by omega, fun i j _ hj => by omega⟩
    · refine ⟨fun k hk => offset_end_le hbytes hend hk, fun i j hij hj => ?_⟩
      exact offset_apart hbytes hend (hsize.resolve_left (by omega)) hfirst
        hij hj

end Exact

/-! ## The main result -/

/-- **When batched insertion is sound.**  Every call returns `true`, and the
blocks it writes are apart and inside the partition exactly if `BatchSound`
holds of `value_size`, `batch_kvs` and the number of calls. -/
theorem batch_sound_iff (dataAddr : DataAddr) (mac : Option UInt8) (m : Bytes)
    {valueSize batchKvs : Nat} (hsmall : 72 + valueSize < 2 ^ 31)
    (hpos : 1 ≤ batchKvs) (hlt : batchKvs < 2 ^ 64)
    (calls : List (Key × Bytes)) :
    ∃ starts u', run batchStep
        ⟨m, Instance.forBatch dataAddr mac valueSize batchKvs⟩ calls =
          some (starts, u') ∧
      (ApartWithin (Instance.forBatch dataAddr mac valueSize batchKvs)
          (72 + valueSize) starts ↔
        BatchSound valueSize batchKvs calls.length) := by
  have hstart : (Instance.construct dataAddr mac).partitionStart < 2 ^ 64 :=
    wrap_lt _
  obtain ⟨u', hrun⟩ := run_batchStep hstart hpos hlt
    (u := ⟨m, Instance.forBatch dataAddr mac valueSize batchKvs⟩)
    (BatchAt.init dataAddr mac valueSize batchKvs) calls
  refine ⟨_, u', hrun, ?_⟩
  simp only [Nat.zero_add]
  rw [← offsets_sound_iff]
  exact apartWithin_iff (getMac_lt mac) hsmall batchKvs calls.length

/-- With batches of 33 slots the first 33 insertions are sound. -/
theorem batch_sound_thirty_three :
    ∃ starts u', run batchStep
        ⟨fun _ => 0, Instance.forBatch Instance.firstHost.dataAddr (some 1)
          256 33⟩ (List.replicate 33 (fun _ => 0, fun _ => 7)) =
          some (starts, u') ∧
      ApartWithin (Instance.forBatch Instance.firstHost.dataAddr (some 1)
        256 33) 328 starts := by
  obtain ⟨starts, u', hrun, hiff⟩ := batch_sound_iff
    Instance.firstHost.dataAddr (some 1) (fun _ => 0)
    (show 72 + 256 < 2 ^ 31 by decide) (show 1 ≤ 33 by decide)
    (show 33 < 2 ^ 64 by decide)
    (List.replicate 33 (fun _ => 0, fun _ => 7))
  refine ⟨starts, u', hrun, hiff.mpr ?_⟩
  rw [List.length_replicate]
  decide

/-- With the default batches of 16 slots the 17th insertion writes where the
first one has written. -/
theorem not_batch_sound_default :
    ∃ starts u', run batchStep
        ⟨fun _ => 0, Instance.forBatch Instance.firstHost.dataAddr (some 1)
          256 16⟩ (List.replicate 17 (fun _ => 0, fun _ => 7)) =
          some (starts, u') ∧
      ¬ ApartWithin (Instance.forBatch Instance.firstHost.dataAddr (some 1)
        256 16) 328 starts := by
  have hstart : (Instance.construct Instance.firstHost.dataAddr
      (some 1)).partitionStart < 2 ^ 64 := wrap_lt _
  obtain ⟨u', hrun⟩ := run_batchStep hstart (show 1 ≤ 16 by decide)
    (show 16 < 2 ^ 64 by decide)
    (u := ⟨fun _ => 0, Instance.forBatch Instance.firstHost.dataAddr (some 1)
      256 16⟩)
    (BatchAt.init Instance.firstHost.dataAddr (some 1) 256 16)
    (List.replicate 17 (fun _ => 0, fun _ => 7))
  refine ⟨_, u', hrun, fun h => ?_⟩
  simp only [Nat.zero_add, List.length_replicate] at h
  have hoffsets := (apartWithin_iff (getMac_lt (some 1))
    (show 328 < 2 ^ 31 by decide) 16 17).mp h
  have hapart := hoffsets.2 0 16 (by decide) (by decide)
  revert hapart
  unfold Apart
  decide

end SHMemora.Ports
