import Mathlib.Order.Interval.Finset.Nat
import SHMemora.Ports.BatchAllocation
import SHMemora.Ports.ProbeInterference
import SHMemora.Ports.FreshTokens

/-!
# The token of a batch

In batch mode `insert` of `gshmp.cpp` acquires one token for a whole batch and
returns it for every slot.  Two things go wrong.  For the first batch, which
is never reserved, nothing is acquired: `batch_key` is what the constructor
has left there.  And when a batch is reserved, `next_free_offset` moves to its
end at once, so that the slots of all calls but the reserving one lie behind
the region of the token.

## Main result

* `batch_covered_iff` — in every run with new tokens, an insertion is covered
  by the token it returns exactly if it is the one that reserves a batch and
  the batch holds an entry.
-/

namespace SHMemora.Ports

open SHMemora.Verified.ByteMemory
open SHMemora.Verified.StepRun

/-! ## The insertion in batch mode -/

/-- The token of the next insertion. -/
def batchToken (g : ShmpStore) : UInt16 :=
  if g.self.availableSlots = 0 then
    tokenAt g.useMac g.rand (g.randCalls + 1)
  else g.batchKey

/-- The store after the draws of an insertion, with the members moved on: a
token for the bucket word and, where a batch is reserved, one for the
batch. -/
def batchDraws (g : ShmpStore) (key : Key) : ShmpStore :=
  let g₁ : ShmpStore :=
    { (g.acquire shmpScheme (entryOffset key) 8 3).2 with
      self := g.self.nextBatch }
  if g.self.availableSlots = 0 then
    (g₁.acquire shmpScheme g.self.nextFreeOffset
      (wrap (g.self.kvSize * g.self.batchKvs)) 3).2
  else g₁

/-- The store after an insertion. -/
def batchInserted (g : ShmpStore) (key : Key) (value : Bytes) : ShmpStore :=
  { (((batchDraws g key).fillEntry shmpScheme g.self.batchSlot
      g.self.valueSize key value (batchToken g)).writeCxl shmpScheme
      (entryOffset key) 8 (ofWord g.self.batchSlot)
      (tokenAt g.useMac g.rand g.randCalls)).2 with
    batchKey := batchToken g }

/-- One insertion: the token and the store behind it. -/
def batchInsert (g : ShmpStore) (call : Key × Bytes) :
    Option (UInt16 × ShmpStore) :=
  (g.insert shmpScheme call.1 call.2).next

section Insertion

variable {g : ShmpStore}

theorem writeCxl_batchKey (g : ShmpStore) (offset size : Nat) (buf : Bytes)
    (shkey : UInt16) :
    (g.writeCxl shmpScheme offset size buf shkey).2.batchKey =
      g.batchKey := by
  unfold Gshm.writeCxl
  split <;> rfl

theorem fillEntry_batchKey (g : ShmpStore) (start valueSize : Nat)
    (key : Key) (value : Bytes) (shkey : UInt16) :
    (g.fillEntry shmpScheme start valueSize key value shkey).batchKey =
      g.batchKey := by
  simp only [Gshm.fillEntry, writeCxl_batchKey]

/-- A call without a reservation. -/
theorem insert_of_left (hbatch : g.self.useBatch = true)
    (hleft : g.self.availableSlots ≠ 0) (key : Key) (value : Bytes) :
    g.insert shmpScheme key value =
      .returned (batchToken g) (batchInserted g key value) := by
  have hfirst : (g.acquire shmpScheme (entryOffset key) 8 3).1 =
      tokenAt g.useMac g.rand g.randCalls := rfl
  rw [batchInserted, batchToken, batchDraws, Instance.batchSlot,
    Instance.nextBatch, if_neg hleft, if_neg hleft, if_neg hleft,
    if_neg hleft, Gshm.insert, if_pos hbatch, Gshm.insertBatched,
    Gshm.acquire_self, if_neg hleft, hfirst]
  have hkept : ∀ g₁ : ShmpStore, g₁.batchKey = g.batchKey →
      { g₁ with batchKey := g.batchKey } = g₁ := by
    intro g₁ hkey
    rw [← hkey]
  rw [hkept]
  · rfl
  · rw [writeCxl_batchKey, fillEntry_batchKey]
    rfl

/-- A call that reserves a batch. -/
theorem insert_of_empty (hbatch : g.self.useBatch = true)
    (hempty : g.self.availableSlots = 0) (key : Key) (value : Bytes) :
    g.insert shmpScheme key value =
      .returned (batchToken g) (batchInserted g key value) := by
  have hfirst : (g.acquire shmpScheme (entryOffset key) 8 3).1 =
      tokenAt g.useMac g.rand g.randCalls := rfl
  have hsecond : ∀ (obj : Instance) (offset size : Nat),
      (Gshm.acquire shmpScheme
        { (g.acquire shmpScheme (entryOffset key) 8 3).2 with self := obj }
        offset size 3).1 =
      tokenAt g.useMac g.rand (g.randCalls + 1) := by
    intro obj offset size
    rw [← randCalls_acquire g (entryOffset key) 8 3]
    rfl
  have hcursor : wrap (g.self.nextFreeOffset +
        wrap (g.self.kvSize * g.self.batchKvs)) =
      wrap (g.self.nextFreeOffset + g.self.kvSize * g.self.batchKvs) :=
    Nat.add_mod_mod _ _ _
  rw [batchInserted, batchToken, batchDraws, Instance.batchSlot,
    Instance.nextBatch, if_pos hempty, if_pos hempty, if_pos hempty,
    if_pos hempty, Gshm.insert, if_pos hbatch, Gshm.insertBatched,
    Gshm.acquire_self, if_pos hempty, hfirst]
  simp only [hsecond, hcursor]

/-- **`insert` in batch mode** always returns. -/
theorem batchInsert_eq (hbatch : g.self.useBatch = true)
    (call : Key × Bytes) :
    batchInsert g call =
      some (batchToken g, batchInserted g call.1 call.2) := by
  have hinsert : g.insert shmpScheme call.1 call.2 =
      .returned (batchToken g) (batchInserted g call.1 call.2) := by
    by_cases hempty : g.self.availableSlots = 0
    · exact insert_of_empty hbatch hempty call.1 call.2
    · exact insert_of_left hbatch hempty call.1 call.2
  rw [batchInsert, hinsert]
  rfl

/-! ### What an insertion leaves behind -/

theorem randCalls_le_of_batchInsert {g' : ShmpStore} {call : Key × Bytes}
    {t : UInt16} (h : batchInsert g call = some (t, g')) :
    g.randCalls ≤ g'.randCalls := by
  rw [batchInsert] at h
  cases hinsert : g.insert shmpScheme call.1 call.2 with
  | returned t₁ g₁ =>
      rw [hinsert] at h
      cases h
      exact insert_randCalls_le hinsert
  | exited g₁ =>
      rw [hinsert] at h
      contradiction
  | running =>
      rw [hinsert] at h
      contradiction

theorem batchInserted_table (key : Key) (value : Bytes) :
    (batchInserted g key value).table = (batchDraws g key).table := by
  simp [batchInserted, Gshm.fillEntry]

theorem batchInserted_randCalls (key : Key) (value : Bytes) :
    (batchInserted g key value).randCalls = (batchDraws g key).randCalls := by
  simp [batchInserted]

theorem batchDraws_self (key : Key) :
    (batchDraws g key).self = g.self.nextBatch := by
  unfold batchDraws
  split <;> rfl

theorem batchInserted_self (key : Key) (value : Bytes) :
    (batchInserted g key value).self = g.self.nextBatch := by
  simp [batchInserted, batchDraws_self]

theorem batchDraws_rand (key : Key) :
    (batchDraws g key).rand = g.rand ∧
      (batchDraws g key).useMac = g.useMac := by
  unfold batchDraws
  split <;> exact ⟨rfl, rfl⟩

theorem batchInserted_rand (key : Key) (value : Bytes) :
    (batchInserted g key value).rand = (batchDraws g key).rand ∧
      (batchInserted g key value).useMac = (batchDraws g key).useMac := by
  simp [batchInserted, Gshm.fillEntry]

theorem batchDraws_randCalls (key : Key) :
    (batchDraws g key).randCalls =
      g.randCalls + if g.self.availableSlots = 0 then 2 else 1 := by
  unfold batchDraws
  by_cases hempty : g.self.availableSlots = 0
  · simp only [if_pos hempty, randCalls_acquire]
  · simp only [if_neg hempty, randCalls_acquire]

end Insertion

/-! ## The record of the tokens -/

/-- Each new token is another of the 65535 that are not `global_key`. -/
theorem FreshBelow.lt {useMac : Bool} {rand : Nat → Nat} {count : Nat}
    (h : FreshBelow useMac rand count) : count < 2 ^ 16 := by
  have hmaps : Set.MapsTo (fun i => (tokenAt useMac rand i).toNat)
      (Finset.range count) (Finset.Ico 1 (2 ^ 16)) := by
    intro i hi
    have hlt := Finset.mem_range.mp hi
    have hne := (h i hlt).1
    refine Finset.mem_coe.mpr (Finset.mem_Ico.mpr ⟨?_, UInt16.toNat_lt _⟩)
    apply Nat.pos_of_ne_zero
    intro hzero
    exact hne (UInt16.toNat_inj.mp hzero)
  have hinj : Set.InjOn (fun i => (tokenAt useMac rand i).toNat)
      (Finset.range count) := by
    intro i hi j hj heq
    by_contra hne
    exact h.ne (Finset.mem_range.mp hi) (Finset.mem_range.mp hj) hne
      (UInt16.toNat_inj.mp heq)
  have hcard := Finset.card_le_card_of_injOn _ hmaps hinj
  rw [Finset.card_range, Nat.card_Ico] at hcard
  omega

/-- The regions of the tokens behind an insertion. -/
def batchMap (g : ShmpStore) (m : TokenMap UInt16) (key : Key) :
    TokenMap UInt16 :=
  let m₁ := Function.update m (tokenAt g.useMac g.rand g.randCalls)
    (some (request (entryOffset key) 8 3))
  if g.self.availableSlots = 0 then
    Function.update m₁ (tokenAt g.useMac g.rand (g.randCalls + 1))
      (some (request g.self.nextFreeOffset
        (wrap (g.self.kvSize * g.self.batchKvs)) 3))
  else m₁

section Record

variable {g : ShmpStore} {m : TokenMap UInt16}

theorem Issued.batchDraws (h : Issued g m) {key : Key}
    (hfresh : FreshBelow g.useMac g.rand
      (Ports.batchDraws g key).randCalls) :
    Issued (Ports.batchDraws g key) (batchMap g m key) := by
  rw [batchDraws_randCalls] at hfresh
  have hcalls := randCalls_acquire g (entryOffset key) 8 3
  unfold Ports.batchDraws batchMap
  by_cases hempty : g.self.availableSlots = 0
  · simp only [if_pos hempty] at hfresh ⊢
    have hfirst := h.acquire (entryOffset key) 8 3 (hfresh.mono (by omega))
    have hmoved : Issued
        { (g.acquire shmpScheme (entryOffset key) 8 3).2 with
          self := g.self.nextBatch } _ :=
      hfirst.of_table_eq rfl rfl rfl rfl
    have hsecond := hmoved.acquire g.self.nextFreeOffset
      (wrap (g.self.kvSize * g.self.batchKvs)) 3
      (by rw [hcalls]; exact hfresh)
    rw [hcalls] at hsecond
    exact hsecond
  · simp only [if_neg hempty] at hfresh ⊢
    have hfirst := h.acquire (entryOffset key) 8 3 hfresh
    exact hfirst.of_table_eq rfl rfl rfl rfl

end Record

section Insert

variable {τ : Type} [DecidableEq τ] {n : Nat} [NeZero n]
variable {S : TokenScheme τ n} {table : ProtectionTable τ n}

/-- An insertion takes no binding away. -/
theorem binding_insert_of_some (u : τ) (offset size : Nat)
    (permission : BitVec 32) {shkey : τ} {entry : ProtectionEntry}
    (h : binding S table shkey = some entry) :
    binding S (insertProtectionEntry S table u offset size permission).2
      shkey = some entry := by
  rw [insertProtectionEntry_eq]
  cases hslot : stopSlot S table u with
  | none => exact h
  | some j =>
      by_cases hfree : (table j).valid = false
      · obtain ⟨i, hfind, hentry⟩ := Option.map_eq_some_iff.mp h
        have hne : i ≠ j := by
          intro heq
          have hvalid := valid_of_find hfind
          rw [heq, hfree] at hvalid
          contradiction
        simp only [if_pos hfree]
        rw [binding, find_fill_of_some u _ hfree hfind, Option.map_some,
          Function.update_of_ne hne, hentry]
      · simp only [if_neg hfree]
        exact h

end Insert

/-! ## Runs -/

section Members

variable {start batchKvs k : Nat} {obj : Instance}

/-- Where the cursor is when a batch is reserved. -/
theorem BatchAt.cursor_of_empty (h : BatchAt start batchKvs k obj)
    (hstart : start < 2 ^ 64) (hempty : obj.availableSlots = 0) :
    16 ≤ k ∧ obj.nextFreeOffset = wrap (start + 328 * (k - 16)) := by
  rcases h.place with ⟨hk, hleft, hcursor⟩ |
    ⟨q, r, hk, hr, hle, hleft, hcursor⟩
  · have hlast : k = 16 := by omega
    rw [hcursor, hlast]
    exact ⟨Nat.le_refl 16, (wrap_of_lt hstart).symm⟩
  · have hfull : r = batchKvs := by omega
    rw [hcursor, hk, hfull, Nat.add_sub_cancel_left]
    exact ⟨Nat.le_add_right _ _, rfl⟩

/-- In a batch that was reserved the slots are behind the cursor, which
stands at the end of the batch. -/
theorem BatchAt.slot_of_left (h : BatchAt start batchKvs k obj)
    (hreserved : 16 < k) (hleft : obj.availableSlots ≠ 0) :
    ∃ r, 1 ≤ r ∧ r ≤ k ∧
      obj.batchSlot = wrap (obj.nextFreeOffset + 328 * r) := by
  rcases h.place with ⟨hk, _, _⟩ | ⟨q, r, hk, hr, hle, hslots, hcursor⟩
  · omega
  · refine ⟨r, hr, by omega, ?_⟩
    have hsum : obj.nextFreeOffset +
        (batchKvs + 2 ^ 64 - obj.availableSlots) * obj.kvSize =
        obj.nextFreeOffset + 328 * r + 328 * 2 ^ 64 := by
      rw [hslots, h.kvSize]
      omega
    rw [Instance.batchSlot, if_neg hleft, h.batchKvs_eq, hsum, wrap_add_mul]

end Members

/-- The store before call number `k` of a run in batch mode, whose tokens are
recorded in `m`.  Before the first reservation all tokens are for bucket
words; after it, `batch_key` is bound to a batch that ends at the cursor. -/
structure BatchRun (start batchKvs k : Nat) (g : ShmpStore)
    (m : TokenMap UInt16) : Prop where
  members : BatchAt start batchKvs k g.self
  valueSize : g.self.valueSize = 256
  issued : Issued g m
  le_draws : k ≤ g.randCalls
  draws_le : g.randCalls ≤ 2 * k
  first : k ≤ 16 → ∀ t entry, m t = some entry → entry.size = 8
  later : 16 < k → ∃ s, start ≤ s ∧ s ≤ 2 ^ 40 ∧
    m g.batchKey = some (request s (batchBytes batchKvs) 3) ∧
    g.self.nextFreeOffset = wrap (s + batchBytes batchKvs)

section Runs

variable {start batchKvs k : Nat} {g : ShmpStore} {m : TokenMap UInt16}

theorem BatchRun.init (data : Bytes) (rand : Nat → Nat) (batchKey : UInt16)
    (useMac : Bool) (dataAddr : DataAddr) (mac : Option UInt8)
    (batchKvs : Nat) :
    BatchRun (Instance.construct dataAddr mac).partitionStart batchKvs 0
      (.construct shmpScheme data rand batchKey useMac
        (.forBatch dataAddr mac 256 batchKvs)) fun _ => none where
  members := BatchAt.init dataAddr mac 256 batchKvs
  valueSize := rfl
  issued := issued_construct _ _ _ _ _
  le_draws := Nat.le_refl 0
  draws_le := Nat.le_refl 0
  first := fun _ _ _ hm => by cases hm
  later := fun hk => absurd hk (by decide)

/-- A token of the record is not the one drawn next. -/
theorem Issued.ne_next (h : Issued g m) {count : Nat}
    (hfresh : FreshBelow g.useMac g.rand count) (hlt : g.randCalls < count)
    {t : UInt16} {entry : ProtectionEntry} (hm : m t = some entry) :
    t ≠ tokenAt g.useMac g.rand g.randCalls ∧ t ≠ 0 := by
  obtain ⟨i, hi, heq⟩ := h.drawn t entry hm
  rw [← heq]
  exact ⟨hfresh.ne (by omega) hlt (by omega), (hfresh i (by omega)).1⟩

theorem BatchRun.step (h : BatchRun start batchKvs k g m)
    (hstart : start ≤ 2 ^ 39) (hpos : 1 ≤ batchKvs)
    (hlt : batchKvs < 2 ^ 64) {key : Key} {value : Bytes}
    (hfresh : FreshBelow g.useMac g.rand
      (batchInserted g key value).randCalls) :
    BatchRun start batchKvs (k + 1) (batchInserted g key value)
      (batchMap g m key) := by
  have hdraws := batchDraws_randCalls (g := g) key
  rw [batchInserted_randCalls] at hfresh
  have hcount := hfresh.lt
  have hle := h.le_draws
  have hle' := h.draws_le
  have hissued : Issued (batchInserted g key value) (batchMap g m key) :=
    (h.issued.batchDraws hfresh).of_table_eq (batchInserted_table key value)
      (batchInserted_rand key value).1 (batchInserted_rand key value).2
      (batchInserted_randCalls key value)
  have hself := batchInserted_self (g := g) key value
  refine ⟨?_, ?_, hissued, ?_, ?_, ?_, ?_⟩
  · rw [hself]
    exact h.members.next hpos hlt
  · rw [hself, Instance.nextBatch]
    split <;> exact h.valueSize
  · rw [batchInserted_randCalls, hdraws]
    split <;> omega
  · rw [batchInserted_randCalls, hdraws]
    split <;> omega
  · intro hk t entry hm
    have hleft : g.self.availableSlots ≠ 0 := by
      intro hempty
      have := (h.members.cursor_of_empty (by omega) hempty).1
      omega
    rw [batchMap, if_neg hleft] at hm
    by_cases ht : t = tokenAt g.useMac g.rand g.randCalls
    · rw [ht, Function.update_self] at hm
      cases hm
      exact wrap_of_lt (by decide)
    · rw [Function.update_of_ne ht] at hm
      exact h.first (by omega) t entry hm
  · intro hk
    rw [hself]
    by_cases hempty : g.self.availableSlots = 0
    · obtain ⟨_, hcursor⟩ := h.members.cursor_of_empty (by omega) hempty
      rw [wrap_of_lt (by omega)] at hcursor
      refine ⟨g.self.nextFreeOffset, by omega, by omega, ?_, ?_⟩
      · show batchMap g m key (batchToken g) = _
        rw [batchMap, batchToken, if_pos hempty, if_pos hempty,
          Function.update_self, h.members.kvSize, h.members.batchKvs_eq]
        rfl
      · rw [Instance.nextBatch, if_pos hempty, h.members.kvSize,
          h.members.batchKvs_eq]
        exact (Nat.add_mod_mod _ _ _).symm
    · have hlast : 16 < k := by
        rcases h.members.place with ⟨_, hleft, _⟩ | ⟨_, _, _, _, _, _, _⟩
        · omega
        · omega
      obtain ⟨s, hlo, hhi, hbound, hcursor⟩ := h.later hlast
      rw [hdraws, if_neg hempty] at hfresh
      have hne := (h.issued.ne_next hfresh (by omega) hbound).1
      refine ⟨s, hlo, hhi, ?_, ?_⟩
      · show batchMap g m key (batchToken g) = _
        rw [batchMap, batchToken, if_neg hempty, if_neg hempty,
          Function.update_of_ne hne, hbound]
      · rw [Instance.nextBatch, if_neg hempty]
        exact hcursor

/-- Every insertion of a run returns, and draws at most two tokens. -/
theorem exists_batch_run (hpos : 1 ≤ batchKvs) (hlt : batchKvs < 2 ^ 64)
    (h : BatchAt start batchKvs k g.self) (calls : List (Key × Bytes)) :
    ∃ tokens g', run batchInsert g calls = some (tokens, g') ∧
      BatchAt start batchKvs (k + calls.length) g'.self ∧
      g'.randCalls ≤ g.randCalls + 2 * calls.length := by
  induction calls generalizing k g with
  | nil => exact ⟨[], g, rfl, h, Nat.le_refl _⟩
  | cons call calls ih =>
      have hnext := h.next hpos hlt
      rw [← batchInserted_self call.1 call.2] at hnext
      obtain ⟨tokens, g', hrun, hat, hle⟩ := ih hnext
      refine ⟨_, g', run_cons_eq_some_iff.mpr
        ⟨_, _, tokens, batchInsert_eq h.useBatch call, hrun, rfl⟩, ?_, ?_⟩
      · rw [List.length_cons, ← Nat.add_assoc, Nat.add_right_comm]
        exact hat
      · rw [batchInserted_randCalls, batchDraws_randCalls] at hle
        rw [List.length_cons]
        split at hle <;> omega

/-- **Run lemma**: the record of a run of insertions. -/
theorem batchRun_of_run {useMac : Bool} {rand : Nat → Nat}
    (hstart : start ≤ 2 ^ 39) (hpos : 1 ≤ batchKvs)
    (hlt : batchKvs < 2 ^ 64) {calls : List (Key × Bytes)}
    {tokens : List UInt16} {g' : ShmpStore}
    (h : BatchRun start batchKvs k g m) (hrand : g.rand = rand)
    (hmac : g.useMac = useMac)
    (hrun : run batchInsert g calls = some (tokens, g'))
    (hfresh : FreshBelow useMac rand g'.randCalls) :
    g'.rand = rand ∧ g'.useMac = useMac ∧
      ∃ m', BatchRun start batchKvs (k + calls.length) g' m' := by
  induction calls generalizing k g m tokens with
  | nil =>
      cases hrun
      exact ⟨hrand, hmac, m, h⟩
  | cons call calls ih =>
      obtain ⟨t, g₁, ts, hstep, hrest, rfl⟩ :=
        run_cons_eq_some_iff.mp hrun
      have hle := run_cost_le (fun _ _ _ _ => randCalls_le_of_batchInsert)
        hrest
      rw [batchInsert_eq h.members.useBatch] at hstep
      cases hstep
      have hfresh₁ := hfresh.mono hle
      rw [← hrand, ← hmac] at hfresh₁
      have hnext := h.step hstart hpos hlt hfresh₁
      have hsame := batchInserted_rand (g := g) call.1 call.2
      have hdraws := batchDraws_rand (g := g) call.1
      rw [List.length_cons, ← Nat.add_assoc, Nat.add_right_comm]
      exact ih hnext (hsame.1.trans (hdraws.1.trans hrand))
        (hsame.2.trans (hdraws.2.trans hmac)) hrest

end Runs

/-! ## Coverage -/

/-- Key and value one behind the other, as an entry holds them. -/
def entryBytes (key : Key) (value : Bytes) : Bytes :=
  fun i => if i < 64 then key.buf i else value (i - 64)

/-- The bucket word of a key is not among the bytes of key and value of the
entry at `e`, or only where these are the bytes of `e`. -/
def SparesEntry (e : Nat) (key : Key) (value : Bytes) : Prop :=
  ∀ i, i < 8 → e ≤ entryOffset key + i → entryOffset key + i < e + 320 →
    entryBytes key value (entryOffset key + i - e) = ofWord e i

/-- An insertion that put its entry to `slot` and returned `shkey` is covered:
the slot is inside the region for which the token was acquired, the three
writes of the entry are accepted, and `get` delivers the value. -/
structure BatchCovered (slot : Nat) (key : Key) (value : Bytes)
    (shkey : UInt16) (g : ShmpStore) : Prop where
  region : ∃ entry, binding shmpScheme g.table shkey = some entry ∧
    entry.offset ≤ slot ∧ slot + 328 ≤ entry.offset + entry.size
  writesKey : Accepted shmpScheme g .write slot 64 shkey
  writesValue : Accepted shmpScheme g .write (wrap (slot + 64)) 256 shkey
  writesNext : Accepted shmpScheme g .write (wrap (slot + 320)) 8 shkey
  delivers : ∀ buf, ∃ buf' g', g.get shmpScheme key buf shkey =
    .returned (true, buf') g' ∧ ∀ i, i < 256 → buf' i = value i

/-- The condition on the members before an insertion: the call reserves a
batch, the batch holds an entry and does not wrap around, and the bucket word
is not in the way. -/
def ReservesRoom (obj : Instance) (key : Key) (value : Bytes) : Prop :=
  obj.availableSlots = 0 ∧ 328 ≤ batchBytes obj.batchKvs ∧
    obj.nextFreeOffset + batchBytes obj.batchKvs < 2 ^ 64 ∧
    SparesEntry obj.nextFreeOffset key value

section Coverage

variable {start batchKvs k : Nat} {g : ShmpStore} {m : TokenMap UInt16}
  {key : Key} {value : Bytes}

/-- What an accepted write says about the region of its token. -/
theorem bounds_of_accepted {shkey : UInt16} (hkey : shkey ≠ 0)
    {entry : ProtectionEntry}
    (hbound : binding shmpScheme g.table shkey = some entry)
    {offset size : Nat}
    (haccept : Accepted shmpScheme g .write offset size shkey) :
    entry.offset ≤ offset ∧
      wrap (offset + size) ≤ wrap (entry.offset + entry.size) := by
  obtain ⟨entry', hentry, hrefusal, _⟩ := (exists_access_iff hkey).mp haccept
  rw [hbound] at hentry
  cases hentry
  obtain ⟨_, hlo, hhi, _⟩ := ProtectionEntry.refusal_eq_none_iff.mp hrefusal
  exact ⟨hlo, hhi⟩

/-- A slot a little behind `cursor` is not in a region that ends there, even
if one of the two wraps around. -/
theorem slot_outside {s cursor slot r : Nat} (hs : 2 ^ 27 ≤ s) (hpos : 1 ≤ r)
    (hr : r < 2 ^ 16) (hcursor : cursor < 2 ^ 64)
    (hslot : slot = wrap (cursor + 328 * r)) (hlo : s ≤ slot)
    (hhi : wrap (slot + 64) ≤ cursor) (hvalue : s ≤ wrap (slot + 64)) :
    False := by
  by_cases hwraps : cursor + 328 * r < 2 ^ 64
  · rw [wrap_of_lt hwraps] at hslot
    by_cases hend : slot + 64 < 2 ^ 64
    · rw [wrap_of_lt hend] at hhi
      omega
    · have hsmall : wrap (slot + 64) < 64 := by
        unfold wrap
        omega
      omega
  · have hsmall : wrap (cursor + 328 * r) < 2 ^ 25 := by
      unfold wrap
      omega
    omega

/-- **A call that reserves nothing is not covered**: its token is bound to a
bucket word, or to the batch before the slot, or to nothing. -/
theorem not_covered_of_left (h : BatchRun start batchKvs k g m)
    (hstart : 2 ^ 27 ≤ start) (hleft : g.self.availableSlots ≠ 0)
    (hfresh : FreshBelow g.useMac g.rand
      (batchInserted g key value).randCalls) :
    ¬ BatchCovered g.self.batchSlot key value (batchToken g)
      (batchInserted g key value) := by
  intro hcovered
  rw [batchInserted_randCalls] at hfresh
  have hissued := h.issued.batchDraws hfresh
  have hcount := hfresh.lt
  rw [batchDraws_randCalls, if_neg hleft] at hfresh hcount
  have hle := h.le_draws
  obtain ⟨entry, hentry, hlo, hhi⟩ := hcovered.region
  rw [batchInserted_table, hissued.binding_eq, batchMap, if_neg hleft,
    batchToken, if_neg hleft] at hentry
  by_cases hreserved : 16 < k
  · obtain ⟨s, hfrom, hto, hbound, hcursor⟩ := h.later hreserved
    obtain ⟨hne, hkey⟩ := h.issued.ne_next hfresh (by omega) hbound
    rw [Function.update_of_ne hne, hbound] at hentry
    cases hentry
    obtain ⟨r, hr, hrk, hslot⟩ := h.members.slot_of_left hreserved hleft
    have hbinding : binding shmpScheme (batchInserted g key value).table
        g.batchKey = some (request s (batchBytes batchKvs) 3) := by
      rw [batchInserted_table, hissued.binding_eq, batchMap, if_neg hleft,
        Function.update_of_ne hne, hbound]
    have htoken : batchToken g = g.batchKey := if_neg hleft
    have hwriteKey := hcovered.writesKey
    have hwriteValue := hcovered.writesValue
    rw [htoken] at hwriteKey hwriteValue
    obtain ⟨hkeyLo, hkeyHi⟩ := bounds_of_accepted hkey hbinding hwriteKey
    have hvalueLo := (bounds_of_accepted hkey hbinding hwriteValue).1
    have hoffset : (request s (batchBytes batchKvs) 3).offset = s :=
      wrap_of_lt (by omega)
    have hsize : (request s (batchBytes batchKvs) 3).size =
        batchBytes batchKvs := wrap_of_lt (wrap_lt _)
    rw [hoffset, hsize, ← hcursor] at hkeyHi
    rw [hoffset] at hkeyLo hvalueLo
    have hlt : g.self.nextFreeOffset < 2 ^ 64 := by
      rw [hcursor]
      exact wrap_lt _
    exact slot_outside (by omega) hr (by omega) hlt hslot hkeyLo hkeyHi
      hvalueLo
  · have hsmall : entry.size = 8 := by
      by_cases ht : g.batchKey = tokenAt g.useMac g.rand g.randCalls
      · rw [ht, Function.update_self] at hentry
        cases hentry
        exact wrap_of_lt (by decide)
      · rw [Function.update_of_ne ht] at hentry
        exact h.first (by omega) _ entry hentry
    omega

/-! ### The entry in memory -/

/-- Key and value are in memory at `e`. -/
def HoldsBytes (m : Bytes) (e : Nat) (key : Key) (value : Bytes) : Prop :=
  ∀ j, j < 320 → m (e + j) = entryBytes key value j

theorem holdsBytes_iff {data : Bytes} {e : Nat} (hend : e + 320 ≤ 2 ^ 64) :
    HoldsBytes data e key value ↔
      keyAt data e = key ∧ ∀ i, i < 256 → data (e + 64 + i) = value i := by
  constructor
  · intro h
    constructor
    · funext i
      have hi := i.isLt
      rw [keyAt, wrap_of_lt (by omega), h i (by omega), entryBytes,
        if_pos hi, Key.buf_of_lt key hi]
    · intro i hi
      rw [Nat.add_assoc, h (64 + i) (by omega), entryBytes,
        if_neg (by omega), Nat.add_sub_cancel_left]
  · intro h j hj
    rcases h with ⟨hkey, hvalue⟩
    rw [entryBytes]
    by_cases hlt : j < 64
    · rw [if_pos hlt, Key.buf_of_lt key hlt, ← hkey, keyAt,
        wrap_of_lt (by omega)]
    · rw [if_neg hlt, ← hvalue (j - 64) (by omega)]
      congr 1
      omega

theorem holdsBytes_writeEntry {data : Bytes} {e : Nat}
    (hend : e + 328 ≤ 2 ^ 63) :
    HoldsBytes (writeEntry data 256 e key value) e key value :=
  (holdsBytes_iff (by omega)).mpr
    ⟨keyAt_writeEntry (by omega), fun _ hi => value_writeEntry (by omega) hi⟩

/-- What the bucket word does to the entry. -/
theorem holdsBytes_insertEntry_iff {data : Bytes} {e : Nat}
    (hend : e + 328 ≤ 2 ^ 63) :
    HoldsBytes (insertEntry data 256 e key value) e key value ↔
      SparesEntry e key value := by
  have hword := entryOffset_add_le key
  have hwritten : HoldsBytes (writeEntry data 256 e key value) e key value :=
    holdsBytes_writeEntry hend
  constructor
  · intro h i hi hlo hhi
    have hbyte := h (entryOffset key + i - e) (by omega)
    rw [insertEntry, setBucket, store_apply (by omega), if_pos (by omega)]
      at hbyte
    rw [← hbyte]
    congr 1
    omega
  · intro h j hj
    rw [insertEntry, setBucket, store_apply (by omega)]
    by_cases hin : entryOffset key ≤ e + j ∧ e + j < entryOffset key + 8
    · have hbyte := h (e + j - entryOffset key) (by omega) (by omega)
        (by omega)
      rw [if_pos hin, ← hbyte]
      congr 1
      omega
    · rw [if_neg hin]
      exact hwritten j hj

/-! ### The lookup behind an insertion -/

/-- The next pointer of an entry whose key the bucket word has overwritten. -/
theorem shortChain_of_key_ne {data : Bytes} {e : Nat}
    (hend : e + 328 ≤ 2 ^ 63)
    (hne : keyAt (insertEntry data 256 e key value) e ≠ key) :
    ShortChain (insertEntry data 256 e key value) 256 key := by
  have hbucket : bucket (insertEntry data 256 e key value) key = e :=
    bucket_setBucket (by omega) rfl
  intro _
  rw [hbucket]
  have hover : ¬ Apart e 64 (entryOffset key) 8 := by
    intro hapart
    apply hne
    rw [insertEntry, keyAt_congr (by omega) (agree_setBucket hapart)]
    exact keyAt_writeEntry (by omega)
  unfold Apart at hover
  have hnext : Agree (writeEntry data 256 e key value)
      (insertEntry data 256 e key value) (e + 320) 8 :=
    agree_setBucket (.inr (by omega))
  rw [nextEntry, wrap_of_lt (by omega), loadWord_congr (by omega) hnext]
  have hzero : nextEntry (writeEntry data 256 e key value) 320 e = 0 :=
    nextEntry_writeEntry (by omega)
  rw [nextEntry, wrap_of_lt (by omega)] at hzero
  exact hzero

/-- An accepted token stays accepted while others are drawn. -/
theorem binding_of_draws {g g' : ShmpStore} {shkey : UInt16}
    {entry : ProtectionEntry} (hdraws : Draws shmpScheme g g')
    (hbound : binding shmpScheme g.table shkey = some entry) :
    binding shmpScheme g'.table shkey = some entry := by
  induction hdraws with
  | refl g => exact hbound
  | acquire offset size permission hdraws ih =>
      exact ih (binding_insert_of_some _ _ _ _ hbound)

/-- `get` of a key whose bucket word leads straight to it. -/
theorem get_of_match {g : ShmpStore} {e : Nat} {shkey : UInt16}
    (hsize : g.self.valueSize = 256) (hpos : e ≠ 0) (hend : e + 64 < 2 ^ 64)
    (hbucket : bucket g.data key = e) (hmatch : keyAt g.data e = key)
    (hread : Accepted shmpScheme (lookedUp shmpScheme g key 1) .read (e + 64)
      256 shkey) (buf : Bytes) :
    g.get shmpScheme key buf shkey = .returned
      (true, fetch g.data (e + 64) buf 256) (lookedUp shmpScheme g key 1) := by
  have hdraws := draws_lookedUp (S := shmpScheme) (g := g) key 1
  rw [← hbucket] at hpos hmatch
  rw [Gshm.get, lookup_of_match hpos hmatch 1]
  simp only [if_neg hpos]
  rw [hbucket, hsize, wrap_of_lt hend, readCxl_of_accepted hread,
    hdraws.data_eq]

/-- **`get` delivers the value** exactly if key and value are still there. -/
theorem delivers_iff {g : ShmpStore} {data : Bytes} {e : Nat} {shkey : UInt16}
    {entry : ProtectionEntry} (hsize : g.self.valueSize = 256)
    (hpos : 0 < e) (hend : e + 328 ≤ 2 ^ 63)
    (hdata : g.data = insertEntry data 256 e key value)
    (hkey : shkey ≠ 0) (hbound : binding shmpScheme g.table shkey = some entry)
    (hperm : entry.permission &&& 1 ≠ 0) (hlo : entry.offset ≤ e)
    (hhi : e + 328 ≤ entry.offset + entry.size)
    (hlt : entry.offset + entry.size < 2 ^ 64) :
    (∀ buf, ∃ buf' g', g.get shmpScheme key buf shkey =
        .returned (true, buf') g' ∧ ∀ i, i < 256 → buf' i = value i) ↔
      HoldsBytes g.data e key value := by
  have hbucket : bucket g.data key = e := by
    rw [hdata]
    exact bucket_setBucket (by omega) rfl
  have hread : Accepted shmpScheme (lookedUp shmpScheme g key 1) .read
      (e + 64) 256 shkey :=
    accepted_of_binding hkey (binding_of_draws (draws_lookedUp key 1) hbound)
      .read hperm (by omega) (by omega) (by omega) hlt (by omega)
  have hget := fun hmatch => get_of_match hsize (by omega) (by omega) hbucket
    hmatch hread
  rw [holdsBytes_iff (by omega)]
  constructor
  · intro hdelivers
    obtain ⟨buf', g', hcall, hvalue⟩ := hdelivers fun _ => 0
    have hmatch : keyAt g.data e = key := by
      by_contra hne
      have hnone : entryOf g.data key = 0 := by
        rw [entryOf, hbucket, if_neg hne]
      rw [hdata] at hne
      have hshort := shortChain_of_key_ne hend hne
      rw [← hdata, ← hsize] at hshort
      rw [get_of_short hshort, if_pos hnone] at hcall
      cases hcall
    refine ⟨hmatch, fun i hi => ?_⟩
    rw [hget hmatch] at hcall
    cases hcall
    have hbyte := hvalue i hi
    rw [fetch_apply, if_pos hi, wrap_of_lt (by omega)] at hbyte
    exact hbyte
  · intro hholds buf
    rcases hholds with ⟨hmatch, hvalue⟩
    refine ⟨_, _, hget hmatch buf, fun i hi => ?_⟩
    rw [fetch_apply, if_pos hi, wrap_of_lt (by omega)]
    exact hvalue i hi

/-! ### The call that reserves a batch -/

/-- The token of the batch is bound to it. -/
theorem binding_batch (h : BatchRun start batchKvs k g m)
    (hempty : g.self.availableSlots = 0)
    (hfresh : FreshBelow g.useMac g.rand
      (batchInserted g key value).randCalls) :
    binding shmpScheme (batchDraws g key).table (batchToken g) =
      some (request g.self.nextFreeOffset (batchBytes batchKvs) 3) := by
  rw [batchInserted_randCalls] at hfresh
  rw [(h.issued.batchDraws hfresh).binding_eq, batchMap, batchToken,
    if_pos hempty, if_pos hempty, Function.update_self, h.members.kvSize,
    h.members.batchKvs_eq]
  rfl

/-- The token of the bucket word is bound to it. -/
theorem binding_word (h : BatchRun start batchKvs k g m)
    (hempty : g.self.availableSlots = 0)
    (hfresh : FreshBelow g.useMac g.rand
      (batchInserted g key value).randCalls) :
    binding shmpScheme (batchDraws g key).table
      (tokenAt g.useMac g.rand g.randCalls) =
      some (request (entryOffset key) 8 3) := by
  rw [batchInserted_randCalls] at hfresh
  have hissued := h.issued.batchDraws hfresh
  rw [batchDraws_randCalls, if_pos hempty] at hfresh
  have hne := hfresh.ne (show g.randCalls < g.randCalls + 2 by omega)
    (show g.randCalls + 1 < g.randCalls + 2 by omega) (by omega)
  rw [hissued.binding_eq, batchMap, if_pos hempty, Function.update_of_ne hne,
    Function.update_self]

theorem batchToken_ne_zero (hempty : g.self.availableSlots = 0)
    (hfresh : FreshBelow g.useMac g.rand
      (batchInserted g key value).randCalls) : batchToken g ≠ 0 := by
  rw [batchInserted_randCalls, batchDraws_randCalls, if_pos hempty] at hfresh
  rw [batchToken, if_pos hempty]
  exact (hfresh (g.randCalls + 1) (by omega)).1

section Reserving

variable (h : BatchRun start batchKvs k g m)
  (hempty : g.self.availableSlots = 0)
  (hfresh : FreshBelow g.useMac g.rand (batchInserted g key value).randCalls)
include h hempty hfresh

/-- Where the batch begins. -/
theorem cursor_bounds (hstart : start ≤ 2 ^ 39) :
    start ≤ g.self.nextFreeOffset ∧ g.self.nextFreeOffset ≤ 2 ^ 40 := by
  have hcount := hfresh.lt
  have hle := h.le_draws
  rw [batchInserted_randCalls, batchDraws_randCalls] at hcount
  have hcursor := (h.members.cursor_of_empty (by omega) hempty).2
  rw [wrap_of_lt (by omega)] at hcursor
  omega

/-- All writes are made where the batch holds an entry. -/
theorem data_of_room (hcursor : g.self.nextFreeOffset ≤ 2 ^ 40)
    (hroom : 328 ≤ batchBytes batchKvs)
    (hend : g.self.nextFreeOffset + batchBytes batchKvs < 2 ^ 64) :
    (batchInserted g key value).data =
      insertEntry g.data 256 g.self.nextFreeOffset key value := by
  have hoffset : (request g.self.nextFreeOffset (batchBytes batchKvs)
      3).offset = g.self.nextFreeOffset := wrap_of_lt (by omega)
  have hsize : (request g.self.nextFreeOffset (batchBytes batchKvs) 3).size =
      batchBytes batchKvs := wrap_of_lt (by omega)
  have hperm : (request g.self.nextFreeOffset (batchBytes batchKvs)
      3).permission &&& 2 ≠ 0 :=
    show BitVec.ofNat 32 (3 : UInt8).toNat &&& 2 ≠ 0 by decide
  have hfill : (batchDraws g key).fillEntry shmpScheme
      g.self.nextFreeOffset 256 key value (batchToken g) =
        { batchDraws g key with
          data := writeEntry (batchDraws g key).data 256
            g.self.nextFreeOffset key value } :=
    fillEntry_of_bound (batchToken_ne_zero hempty hfresh)
      (binding_batch h hempty hfresh) hperm (by omega) (by omega) (by omega)
      (by omega)
  have hword : tokenAt g.useMac g.rand g.randCalls ≠ 0 := by
    rw [batchInserted_randCalls, batchDraws_randCalls, if_pos hempty]
      at hfresh
    exact (hfresh g.randCalls (by omega)).1
  have hbucket : ∀ data, Gshm.writeCxl shmpScheme
      { batchDraws g key with data := data } (entryOffset key) 8
      (ofWord g.self.nextFreeOffset) (tokenAt g.useMac g.rand g.randCalls) =
        (0, { batchDraws g key with
          data := setBucket data key g.self.nextFreeOffset }) :=
    fun data => writeBucket_of_bound
      (g := { batchDraws g key with data := data }) hword
      (binding_word h hempty hfresh) g.self.nextFreeOffset
  have hdata : (batchDraws g key).data = g.data := by
    unfold batchDraws
    split <;> rfl
  rw [batchInserted, Instance.batchSlot, if_pos hempty, h.valueSize, hfill,
    hbucket, hdata]
  rfl

/-- **A call that reserves a batch is covered** if the batch holds an entry,
unless the bucket word is in the way. -/
theorem covered_iff_of_empty (hstart : 2 ^ 27 ≤ start)
    (hstart' : start ≤ 2 ^ 39) :
    BatchCovered g.self.batchSlot key value (batchToken g)
        (batchInserted g key value) ↔
      328 ≤ batchBytes batchKvs ∧
        g.self.nextFreeOffset + batchBytes batchKvs < 2 ^ 64 ∧
        SparesEntry g.self.nextFreeOffset key value := by
  have hslot : g.self.batchSlot = g.self.nextFreeOffset := if_pos hempty
  have hbound := binding_batch h hempty hfresh
  rw [← batchInserted_table key value] at hbound
  have hkey := batchToken_ne_zero hempty hfresh
  obtain ⟨hlo, hhi⟩ := cursor_bounds h hempty hfresh hstart'
  have hoffset : (request g.self.nextFreeOffset (batchBytes batchKvs)
      3).offset = g.self.nextFreeOffset := wrap_of_lt (by omega)
  have hsize : (request g.self.nextFreeOffset (batchBytes batchKvs) 3).size =
      batchBytes batchKvs := wrap_of_lt (wrap_lt _)
  have hbytes : batchBytes batchKvs < 2 ^ 64 := wrap_lt _
  have hvalueSize : (batchInserted g key value).self.valueSize = 256 := by
    rw [batchInserted_self, Instance.nextBatch]
    split <;> exact h.valueSize
  rw [hslot]
  -- with a batch that holds an entry only the bucket word is left
  have hiff : 328 ≤ batchBytes batchKvs →
      g.self.nextFreeOffset + batchBytes batchKvs < 2 ^ 64 →
      ((∀ buf, ∃ buf' g', (batchInserted g key value).get shmpScheme key buf
        (batchToken g) = .returned (true, buf') g' ∧
          ∀ i, i < 256 → buf' i = value i) ↔
        SparesEntry g.self.nextFreeOffset key value) := by
    intro hroom hend
    have hdata := data_of_room h hempty hfresh hhi hroom hend
    rw [delivers_iff hvalueSize (by omega) (by omega) hdata hkey hbound
      (show BitVec.ofNat 32 (3 : UInt8).toNat &&& 1 ≠ 0 by decide)
      (by omega) (by omega) (by omega), hdata]
    exact holdsBytes_insertEntry_iff (by omega)
  constructor
  · intro hcovered
    obtain ⟨entry, hentry, _, hinside⟩ := hcovered.region
    rw [hbound] at hentry
    cases hentry
    have hbounds := bounds_of_accepted hkey hbound hcovered.writesKey
    rw [hoffset, hsize, wrap_of_lt (by omega)] at hbounds
    rw [hoffset, hsize] at hinside
    have hend : g.self.nextFreeOffset + batchBytes batchKvs < 2 ^ 64 := by
      by_contra hover
      unfold wrap at hbounds
      omega
    exact ⟨by omega, hend, (hiff (by omega) hend).mp hcovered.delivers⟩
  · intro hroom
    rcases hroom with ⟨hroom, hend, hspares⟩
    have hwrite : ∀ offset size, g.self.nextFreeOffset ≤ offset →
        offset + size ≤ g.self.nextFreeOffset + 328 →
        Accepted shmpScheme (batchInserted g key value) .write offset size
          (batchToken g) := by
      intro offset size hfrom hto
      exact accepted_of_binding hkey hbound .write
        (show BitVec.ofNat 32 (3 : UInt8).toNat &&& 2 ≠ 0 by decide)
        (by omega) (by omega) (by omega) (by omega) (by omega)
    refine ⟨⟨_, hbound, by omega, by omega⟩, ?_, ?_, ?_,
      (hiff hroom hend).mpr hspares⟩
    · exact hwrite _ _ (by omega) (by omega)
    · rw [wrap_of_lt (by omega)]
      exact hwrite _ _ (by omega) (by omega)
    · rw [wrap_of_lt (by omega)]
      exact hwrite _ _ (by omega) (by omega)

end Reserving

end Coverage

/-! ## The main result -/

/-- The store of a run in batch mode before its first insertion. -/
def batchStore (data : Bytes) (rand : Nat → Nat) (batchKey : UInt16)
    (useMac : Bool) (dataAddr : DataAddr) (mac : Option UInt8)
    (batchKvs : Nat) : ShmpStore :=
  .construct shmpScheme data rand batchKey useMac
    (.forBatch dataAddr mac 256 batchKvs)

/-- **When the token of a batch covers an entry.**  In every run of insertions
in which all tokens are new, an insertion is covered by the token it returns
exactly if `ReservesRoom` holds of the members before it. -/
theorem batch_covered_iff (data : Bytes) (rand : Nat → Nat)
    (batchKey : UInt16) (useMac : Bool) (dataAddr : DataAddr)
    (mac : Option UInt8) {batchKvs : Nat} (hpos : 1 ≤ batchKvs)
    (hlt : batchKvs < 2 ^ 64) (calls : List (Key × Bytes))
    {tokens : List UInt16} {g : ShmpStore}
    (hrun : run batchInsert
      (batchStore data rand batchKey useMac dataAddr mac batchKvs) calls =
      some (tokens, g)) (key : Key) (value : Bytes) {t : UInt16}
    {g' : ShmpStore} (hcall : batchInsert g (key, value) = some (t, g'))
    (hfresh : FreshBelow useMac rand g'.randCalls) :
    BatchCovered g.self.batchSlot key value t g' ↔
      ReservesRoom g.self key value := by
  have hhost := getMac_lt mac
  have hstart := Instance.partitionStart_construct dataAddr mac
  have hle : (Instance.construct dataAddr mac).partitionStart ≤ 2 ^ 39 := by
    omega
  have hge : 2 ^ 27 ≤ (Instance.construct dataAddr mac).partitionStart := by
    omega
  have hinit := BatchRun.init data rand batchKey useMac dataAddr mac batchKvs
  have hcost := randCalls_le_of_batchInsert hcall
  obtain ⟨hrand, hmac, m, h⟩ : g.rand = rand ∧ g.useMac = useMac ∧
      ∃ m, BatchRun _ batchKvs (0 + calls.length) g m :=
    batchRun_of_run hle hpos hlt hinit rfl rfl hrun (hfresh.mono hcost)
  rw [batchInsert_eq h.members.useBatch] at hcall
  cases hcall
  rw [← hrand, ← hmac] at hfresh
  by_cases hempty : g.self.availableSlots = 0
  · rw [covered_iff_of_empty h hempty hfresh hge hle, ReservesRoom,
      h.members.batchKvs_eq]
    simp only [hempty, true_and]
  · exact iff_of_false (not_covered_of_left h hge hempty hfresh)
      fun hroom => hempty hroom.1

/-- The 17th insertion of a store on host 1 with the default batches reserves
a batch. -/
theorem batch_covered_seventeenth_call :
    ∃ tokens g t g',
      run batchInsert (batchStore (fun _ => 0) (fun i => i + 1) 77 false
        Instance.firstHost.dataAddr (some 1) 16)
        (List.replicate 16 (fun _ => 0, fun _ => 7)) = some (tokens, g) ∧
      batchInsert g (fun _ => 0, fun _ => 7) = some (t, g') ∧
      BatchCovered g.self.batchSlot (fun _ => 0) (fun _ => 7) t g' := by
  obtain ⟨tokens, g, hrun, hat, hle⟩ := exists_batch_run
    (g := batchStore (fun _ => 0) (fun i => i + 1) 77 false
      Instance.firstHost.dataAddr (some 1) 16)
    (by decide) (by decide) (BatchAt.init _ _ 256 16)
    (List.replicate 16 (fun _ => 0, fun _ => 7))
  have hcall := batchInsert_eq (g := g) hat.useBatch
    (fun _ => 0, fun _ => 7)
  have hfresh : FreshBelow false (fun i => i + 1) 34 := by
    unfold FreshBelow
    decide
  have hcalls := batchDraws_randCalls (g := g) fun _ => 0
  rw [← batchInserted_randCalls _ fun _ => 7] at hcalls
  have hstart : (Instance.construct Instance.firstHost.dataAddr
      (some 1)).partitionStart = 2 ^ 27 + 2 ^ 30 := by decide
  refine ⟨tokens, g, _, _, hrun, hcall, ?_⟩
  refine (batch_covered_iff (fun _ => 0) (fun i => i + 1) 77 false
    Instance.firstHost.dataAddr (some 1) (by decide) (by decide) _ hrun _ _
    hcall (hfresh.mono ?_)).mpr ?_
  · show (batchInserted g (fun _ => 0) fun _ => 7).randCalls ≤ 34
    have hlength : g.randCalls ≤ 0 + 2 * 16 := hle
    split at hcalls <;> omega
  · rcases hat.place with ⟨_, hleft, hcursor⟩ | ⟨_, _, hk, hr, _, _, _⟩
    · rw [hstart] at hcursor
      refine ⟨hleft, ?_, ?_, fun i _ hlo _ => ?_⟩
      · rw [hat.batchKvs_eq]
        decide
      · rw [hat.batchKvs_eq, hcursor]
        decide
      · have hword := entryOffset_add_le fun _ => 0
        omega
    · simp only [List.length_replicate] at hk
      omega

/-- The first call of a store on host 1 with the default batches returns the
token that memory happened to hold and writes nothing but the bucket word. -/
theorem not_batch_covered_first_call :
    ∃ t g', batchInsert (batchStore (fun _ => 0) (fun i => i + 1) 77 false
        Instance.firstHost.dataAddr (some 1) 16) (fun _ => 0, fun _ => 7) =
        some (t, g') ∧
      ¬ BatchCovered (2 ^ 27 + 2 ^ 30) (fun _ => 0) (fun _ => 7) t g' := by
  have h := BatchRun.init (fun _ => 0) (fun i => i + 1) 77 false
    Instance.firstHost.dataAddr (some 1) 16
  refine ⟨_, _, batchInsert_eq rfl _, ?_⟩
  refine not_covered_of_left h (by decide) (by decide) ?_
  rw [batchInserted_randCalls, batchDraws_randCalls]
  unfold FreshBelow
  decide

end SHMemora.Ports
