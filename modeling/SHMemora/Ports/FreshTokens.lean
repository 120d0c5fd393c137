import SHMemora.Ports.TokenMap
import SHMemora.Ports.SoundCalls

/-!
# Runs in which every token is new

With 16-bit tokens a draw may repeat a live token or hit `global_key`.  This
module is about the runs in which neither happens: the tokens drawn by one
store, `tokenAt 0`, `tokenAt 1`, …, are pairwise distinct and not `0` up to the
last one used (`FreshBelow`).

Then the table is a faithful record of the draws.  `Issued` says that it
represents a map from tokens to regions in which only drawn tokens are bound,
and every draw adds one binding and leaves the bindings of the tokens drawn
before alone (`Issued.acquire`, `Issued.draws`).  Accesses inside a recorded
region are accepted (`accepted_of_binding`), and `insert` does all of its
writes (`insert_of_fresh`).
-/

namespace SHMemora.Ports

open SHMemora.Verified.ByteMemory

/-! ## Tokens in the order of their draws -/

/-- The token drawn by call number `i` of `generate_shkey`, which calls
`rand()` once. -/
def tokenAt (useMac : Bool) (rand : Nat → Nat) (i : Nat) : UInt16 :=
  (generateShkey useMac fun k => rand (i + k)).1

/-- The first `count` tokens are new: none is `global_key` and none was drawn
before. -/
def FreshBelow (useMac : Bool) (rand : Nat → Nat) (count : Nat) : Prop :=
  ∀ i, i < count → tokenAt useMac rand i ≠ 0 ∧
    ∀ j, j < i → tokenAt useMac rand j ≠ tokenAt useMac rand i

instance (useMac : Bool) (rand : Nat → Nat) (count : Nat) :
    Decidable (FreshBelow useMac rand count) :=
  inferInstanceAs (Decidable (∀ i, i < count → _ ∧ ∀ j, j < i → _ ≠ _))

theorem FreshBelow.mono {useMac : Bool} {rand : Nat → Nat} {count n : Nat}
    (h : FreshBelow useMac rand count) (hle : n ≤ count) :
    FreshBelow useMac rand n :=
  fun i hi => h i (Nat.lt_of_lt_of_le hi hle)

theorem FreshBelow.ne {useMac : Bool} {rand : Nat → Nat} {count i j : Nat}
    (h : FreshBelow useMac rand count) (hi : i < count) (hj : j < count)
    (hne : i ≠ j) : tokenAt useMac rand i ≠ tokenAt useMac rand j := by
  rcases Nat.lt_or_gt_of_ne hne with hlt | hgt
  · exact (h j hj).2 i hlt
  · exact ((h i hi).2 j hgt).symm

/-! ## Accepted accesses -/

section Access

variable {τ : Type} [DecidableEq τ] {n : Nat} [NeZero n]
variable {S : TokenScheme τ n} {g : Gshm τ n} {offset size : Nat}
  {buf : Bytes} {shkey : τ}

theorem readCxl_of_accepted (h : Accepted S g .read offset size shkey) :
    g.readCxl S offset size buf shkey =
      (0, fetch g.data offset buf size) := by
  obtain ⟨i, hi⟩ := h
  have haccess : readAccess S g.table offset size shkey = .ok i := hi
  rw [Gshm.readCxl, haccess]

theorem readCxl_of_refused (h : ¬ Accepted S g .read offset size shkey) :
    g.readCxl S offset size buf shkey = (-1, buf) := by
  rw [Gshm.readCxl]
  split
  · rfl
  · next i hi => exact absurd ⟨i, hi⟩ h

theorem writeCxl_of_accepted (h : Accepted S g .write offset size shkey) :
    g.writeCxl S offset size buf shkey =
      (0, { g with data := store g.data offset buf size }) := by
  obtain ⟨i, hi⟩ := h
  have haccess : writeAccess S g.table g.self.dataAddr.addr offset size
      shkey = .ok i := hi
  rw [Gshm.writeCxl, haccess]

theorem writeCxl_of_refused (h : ¬ Accepted S g .write offset size shkey) :
    g.writeCxl S offset size buf shkey = (-1, g) := by
  rw [Gshm.writeCxl]
  split
  · rfl
  · next i hi => exact absurd ⟨i, hi⟩ h

/-- A range inside the region bound to a token is accepted. -/
theorem accepted_of_binding (hkey : shkey ≠ S.globalKey)
    {entry : ProtectionEntry} (hbound : binding S g.table shkey = some entry)
    (kind : AccessKind) (hperm : entry.permission &&& kind.bit ≠ 0)
    (hsize : entry.size ≠ 0) (hlo : entry.offset ≤ offset)
    (hhi : offset + size ≤ entry.offset + entry.size)
    (hend : entry.offset + entry.size < 2 ^ 64) (hoffset : offset < 2 ^ 63) :
    Accepted S g kind offset size shkey := by
  refine (exists_access_iff hkey).mpr ⟨entry, hbound, ?_, fun hnull => ?_⟩
  · refine ProtectionEntry.refusal_eq_none_iff.mpr ⟨hsize, hlo, ?_, hperm⟩
    rw [wrap_of_lt (by omega), wrap_of_lt (by omega)]
    exact hhi
  · exact getDataVaddr_ne_zero g.self.dataAddr hoffset hnull.2

/-- A range that is not inside the region bound to a token is refused. -/
theorem refused_of_binding (hkey : shkey ≠ S.globalKey) {kind : AccessKind}
    (hbound : ∀ entry, binding S g.table shkey = some entry →
      entry.offset + entry.size ≤ 2 ^ 63 ∧ offset + size < 2 ^ 64 ∧
        (offset < entry.offset ∨
          entry.offset + entry.size < offset + size)) :
    ¬ Accepted S g kind offset size shkey := by
  intro haccept
  obtain ⟨entry, hentry, hrefusal, _⟩ := (exists_access_iff hkey).mp haccept
  obtain ⟨hend, hlt, hout⟩ := hbound entry hentry
  obtain ⟨_, hlo, hhi, _⟩ :=
    ProtectionEntry.refusal_eq_none_iff.mp hrefusal
  rw [wrap_of_lt hlt, wrap_of_lt (by omega)] at hhi
  omega

end Access

/-! ## The record of the draws -/

/-- The stores of `gshmp.cpp`. -/
abbrev ShmpStore := Gshm UInt16 hashTableSize

/-- One call of `rand()` a token. -/
theorem randCalls_acquire (g : ShmpStore) (offset size : Nat)
    (permission : UInt8) :
    (g.acquire shmpScheme offset size permission).2.randCalls =
      g.randCalls + 1 := by
  have hdraw : g.draw shmpScheme =
      generateShkey g.useMac fun i => g.rand (g.randCalls + i) := rfl
  rw [Gshm.acquire_randCalls, hdraw, generateShkey_snd]

/-- A lookup draws at most two tokens. -/
theorem randCalls_lookedUp_le (g : ShmpStore) (key : Key)
    (permission : UInt8) :
    (lookedUp shmpScheme g key permission).randCalls ≤ g.randCalls + 2 := by
  rw [lookedUp]
  split
  · rw [randCalls_acquire]
    omega
  · rw [randCalls_acquire, randCalls_acquire]

/-- The table represents a map in which only drawn tokens are bound. -/
structure Issued (g : ShmpStore) (m : TokenMap UInt16) : Prop where
  represents : Represents shmpScheme g.table m
  drawn : ∀ shkey entry, m shkey = some entry →
    ∃ i, i < g.randCalls ∧ tokenAt g.useMac g.rand i = shkey

/-- A new store has issued nothing. -/
theorem issued_construct (data : Bytes) (rand : Nat → Nat)
    (batchKey : UInt16) (useMac : Bool) (obj : Instance) :
    Issued (Gshm.construct shmpScheme data rand batchKey useMac obj)
      fun _ => none :=
  ⟨represents_of_invalid fun _ => rfl, fun _ _ hm => by cases hm⟩

namespace Issued

variable {g g' : ShmpStore} {m : TokenMap UInt16}

theorem binding_eq (h : Issued g m) (shkey : UInt16) :
    binding shmpScheme g.table shkey = m shkey :=
  h.represents.binding_eq hashFunction_injective shkey

/-- A token that is drawn for the first time is not bound. -/
theorem unbound (h : Issued g m)
    (hfresh : FreshBelow g.useMac g.rand (g.randCalls + 1)) :
    m (tokenAt g.useMac g.rand g.randCalls) = none := by
  cases hm : m (tokenAt g.useMac g.rand g.randCalls) with
  | none => rfl
  | some entry =>
      obtain ⟨i, hi, heq⟩ := h.drawn _ entry hm
      exact absurd heq ((hfresh g.randCalls (by omega)).2 i hi)

/-- **A new token is entered with its region** and nothing else changes. -/
theorem acquire (h : Issued g m) (offset size : Nat) (permission : UInt8)
    (hfresh : FreshBelow g.useMac g.rand (g.randCalls + 1)) :
    Issued (g.acquire shmpScheme offset size permission).2
      (Function.update m (tokenAt g.useMac g.rand g.randCalls)
        (some (request offset size permission))) := by
  have hinsert := h.represents.insert hashFunction_injective
    (tokenAt g.useMac g.rand g.randCalls) offset size
    (.ofNat 32 permission.toNat)
  rw [TokenMap.insert, h.unbound hfresh] at hinsert
  refine ⟨hinsert.2, fun shkey entry hm => ?_⟩
  rw [randCalls_acquire]
  by_cases hshkey : shkey = tokenAt g.useMac g.rand g.randCalls
  · exact ⟨g.randCalls, Nat.lt_succ_self _, hshkey.symm⟩
  · rw [Function.update_of_ne hshkey] at hm
    obtain ⟨i, hi, heq⟩ := h.drawn shkey entry hm
    exact ⟨i, Nat.lt_succ_of_lt hi, heq⟩

/-- The data area plays no part. -/
theorem of_table_eq (h : Issued g m) (htable : g'.table = g.table)
    (hrand : g'.rand = g.rand) (hmac : g'.useMac = g.useMac)
    (hcalls : g'.randCalls = g.randCalls) : Issued g' m := by
  refine ⟨by rw [htable]; exact h.represents, ?_⟩
  rw [hrand, hmac, hcalls]
  exact h.drawn

/-- A revocation takes at most the binding of its token away. -/
theorem revoke (h : Issued g m) (shkey : UInt16) :
    Issued { g with table := (revokeCxl shmpScheme g.table shkey).2 }
      (m.revoke 0 shkey).2 := by
  refine ⟨(h.represents.revoke hashFunction_injective shkey).2,
    fun u entry hu => ?_⟩
  rcases m.revoke_eq_none_or 0 shkey u with hnone | hsame
  · rw [hnone] at hu
    contradiction
  · rw [hsame] at hu
    exact h.drawn u entry hu

/-- Clearing takes all bindings away. -/
theorem clear (g : ShmpStore) :
    Issued { g with table := clearProtectionTable shmpScheme g.table }
      fun _ => none :=
  ⟨represents_of_invalid fun i => shmpScheme.clearSlot_valid (g.table i),
    fun _ _ hm => by cases hm⟩

end Issued

/-- The maps agree on every token among the first `count` draws. -/
def SameBefore (useMac : Bool) (rand : Nat → Nat) (count : Nat)
    (m m' : TokenMap UInt16) : Prop :=
  ∀ i, i < count → m' (tokenAt useMac rand i) = m (tokenAt useMac rand i)

/-- A draw does not touch the tokens drawn before. -/
theorem sameBefore_update {useMac : Bool} {rand : Nat → Nat} {count i : Nat}
    (hfresh : FreshBelow useMac rand (i + 1)) (hle : count ≤ i)
    (m : TokenMap UInt16) (entry : Option ProtectionEntry) :
    SameBefore useMac rand count m
      (Function.update m (tokenAt useMac rand i) entry) := by
  intro j hj
  have hne := hfresh.ne (show j < i + 1 by omega) (Nat.lt_succ_self i)
    (by omega)
  exact Function.update_of_ne hne _ _

namespace Draws

variable {g g' : ShmpStore}

theorem rand_eq (h : Draws shmpScheme g g') : g'.rand = g.rand := by
  induction h with
  | refl g => rfl
  | acquire offset size permission h ih => exact ih

theorem useMac_eq (h : Draws shmpScheme g g') : g'.useMac = g.useMac := by
  induction h with
  | refl g => rfl
  | acquire offset size permission h ih => exact ih

end Draws

/-- **Draws that are all new** keep the record, and the bindings of the tokens
drawn before. -/
theorem Issued.draws {g g' : ShmpStore} {m : TokenMap UInt16}
    (h : Issued g m) (hdraws : Draws shmpScheme g g')
    (hfresh : FreshBelow g.useMac g.rand g'.randCalls) :
    ∃ m', Issued g' m' ∧
      SameBefore g.useMac g.rand g.randCalls m m' := by
  induction hdraws generalizing m with
  | refl g => exact ⟨m, h, fun _ _ => rfl⟩
  | @acquire g g' offset size permission hdraws ih =>
      have hone := hfresh.mono hdraws.randCalls_le
      rw [randCalls_acquire] at hone
      obtain ⟨m', hissued, hsame⟩ := ih (h.acquire offset size permission
        hone) hfresh
      refine ⟨m', hissued, fun i hi => ?_⟩
      have hlt : i < (g.acquire shmpScheme offset size
          permission).2.randCalls := by
        rw [randCalls_acquire]
        exact Nat.lt_succ_of_lt hi
      apply (hsame i hlt).trans
      exact sameBefore_update hone (Nat.le_refl _) m _ i hi

/-! ## Insertion with new tokens -/

section Insert

variable {τ : Type} [DecidableEq τ] {n : Nat} [NeZero n]
variable {S : TokenScheme τ n} {g : Gshm τ n} {shkey : τ} {key : Key}
  {value : Bytes}

/-- Under a token whose region holds the new entry all three writes are
made. -/
theorem fillEntry_of_bound {start valueSize : Nat} {entry : ProtectionEntry}
    (hkey : shkey ≠ S.globalKey)
    (hbound : binding S g.table shkey = some entry)
    (hperm : entry.permission &&& 2 ≠ 0) (hlo : entry.offset ≤ start)
    (hhi : start + (72 + valueSize) ≤ entry.offset + entry.size)
    (hlt : entry.offset + entry.size < 2 ^ 64)
    (hend : start + (72 + valueSize) ≤ 2 ^ 63) :
    g.fillEntry S start valueSize key value shkey =
      { g with data := writeEntry g.data valueSize start key value } := by
  -- every range inside the entry may be written, whatever is in memory
  have hwrite : ∀ (data : Bytes) (offset size : Nat), start ≤ offset →
      offset + size ≤ start + (72 + valueSize) → offset < 2 ^ 63 →
      ∀ buf, Gshm.writeCxl S { g with data := data } offset size buf shkey =
        (0, { g with data := store data offset buf size }) := by
    intro data offset size hfrom hto hoffset buf
    exact writeCxl_of_accepted (accepted_of_binding hkey hbound .write hperm
      (by omega) (by omega) (by omega) hlt hoffset)
  have hfirst := hwrite g.data start 64 (by omega) (by omega) (by omega)
    key.buf
  rw [Gshm.fillEntry, writeEntry, wrap_of_lt (by omega),
    wrap_of_lt (by omega)]
  simp only [hfirst, hwrite _ (start + 64) valueSize (by omega) (by omega)
    (by omega), hwrite _ (start + 64 + valueSize) 8 (by omega) (by omega)
    (by omega)]

/-- Under a token bound to the bucket word it is written. -/
theorem writeBucket_of_bound (hkey : shkey ≠ S.globalKey)
    (hbound : binding S g.table shkey =
      some (request (entryOffset key) 8 3)) (e : Nat) :
    g.writeCxl S (entryOffset key) 8 (ofWord e) shkey =
      (0, { g with data := setBucket g.data key e }) := by
  have hend := entryOffset_add_le key
  have hoffset : (request (entryOffset key) 8 3).offset = entryOffset key :=
    wrap_of_lt (by omega)
  have hlength : (request (entryOffset key) 8 3).size = 8 :=
    wrap_of_lt (by omega)
  have hperm : (request (entryOffset key) 8 3).permission &&& 2 ≠ 0 :=
    show BitVec.ofNat 32 (3 : UInt8).toNat &&& 2 ≠ 0 by decide
  exact writeCxl_of_accepted (accepted_of_binding hkey hbound .write hperm
    (by omega) (by omega) (by omega) (by omega) (by omega))

end Insert

section ShmpInsert

variable {g : ShmpStore} {m : TokenMap UInt16}

/-- The store after the two draws of an insertion. -/
def afterDraws (g : ShmpStore) (key : Key) : ShmpStore :=
  ((g.acquire shmpScheme (entryOffset key) 8 3).2.acquire shmpScheme
    g.self.nextFreeOffset g.self.entrySize 3).2

theorem randCalls_afterDraws (g : ShmpStore) (key : Key) :
    (afterDraws g key).randCalls = g.randCalls + 2 := by
  rw [afterDraws, randCalls_acquire, randCalls_acquire]

/-- The regions bound by the two draws. -/
def insertMap (g : ShmpStore) (m : TokenMap UInt16) (key : Key) :
    TokenMap UInt16 :=
  Function.update
    (Function.update m (tokenAt g.useMac g.rand g.randCalls)
      (some (request (entryOffset key) 8 3)))
    (tokenAt g.useMac g.rand (g.randCalls + 1))
    (some (request g.self.nextFreeOffset g.self.entrySize 3))

theorem Issued.afterDraws (h : Issued g m) (key : Key)
    (hfresh : FreshBelow g.useMac g.rand (g.randCalls + 2)) :
    Issued (afterDraws g key) (insertMap g m key) := by
  have hfirst := h.acquire (entryOffset key) 8 3 (hfresh.mono (by omega))
  have hcalls := randCalls_acquire g (entryOffset key) 8 3
  have hsecond := hfirst.acquire g.self.nextFreeOffset g.self.entrySize 3
    (by rw [hcalls]; exact hfresh)
  rw [hcalls] at hsecond
  exact hsecond

theorem sameBefore_insertMap
    (hfresh : FreshBelow g.useMac g.rand (g.randCalls + 2))
    (m : TokenMap UInt16) (key : Key) :
    SameBefore g.useMac g.rand g.randCalls m (insertMap g m key) := by
  intro i hi
  have hsecond := sameBefore_update hfresh
    (show g.randCalls ≤ g.randCalls + 1 by omega)
    (Function.update m (tokenAt g.useMac g.rand g.randCalls)
      (some (request (entryOffset key) 8 3)))
    (some (request g.self.nextFreeOffset g.self.entrySize 3)) i hi
  have hfirst := sameBefore_update (hfresh.mono (by omega))
    (Nat.le_refl g.randCalls) m (some (request (entryOffset key) 8 3)) i hi
  exact hsecond.trans hfirst

/-- The store behind an insertion all of whose writes are made. -/
def afterInsert (g : ShmpStore) (key : Key) (value : Bytes) : ShmpStore :=
  { afterDraws g key with
    data := insertEntry g.data g.self.valueSize g.self.nextFreeOffset key
      value
    self := g.self.advance }

theorem Issued.afterInsert (h : Issued g m) (key : Key) (value : Bytes)
    (hfresh : FreshBelow g.useMac g.rand (g.randCalls + 2)) :
    Issued (afterInsert g key value) (insertMap g m key) :=
  (h.afterDraws key hfresh).of_table_eq rfl rfl rfl rfl

theorem sound_afterInsert (hsound : Sound g.self g.data)
    (hroom : HasRoom g.self) (key : Key) (value : Bytes) :
    Sound (afterInsert g key value).self (afterInsert g key value).data :=
  hsound.insertEntry hroom key value

theorem entryOf_afterInsert (hsound : Sound g.self g.data)
    (hroom : HasRoom g.self) (key : Key) (value : Bytes) :
    entryOf (afterInsert g key value).data key = g.self.nextFreeOffset :=
  hsound.shape.entryOf_insertEntry (hsound.room hroom)

/-! ### The accesses of an insertion -/

/-- The second token is bound to the new entry. -/
theorem Issued.binding_entry (h : Issued g m) (key : Key)
    (hfresh : FreshBelow g.useMac g.rand (g.randCalls + 2)) :
    binding shmpScheme (Ports.afterDraws g key).table
      (tokenAt g.useMac g.rand (g.randCalls + 1)) =
      some (request g.self.nextFreeOffset g.self.entrySize 3) := by
  rw [(h.afterDraws key hfresh).binding_eq]
  exact Function.update_self _ _ _

/-- The first token is bound to the bucket word, and stays so. -/
theorem Issued.binding_bucket (h : Issued g m) (key : Key)
    (hfresh : FreshBelow g.useMac g.rand (g.randCalls + 2)) :
    binding shmpScheme (Ports.afterDraws g key).table
      (tokenAt g.useMac g.rand g.randCalls) =
      some (request (entryOffset key) 8 3) := by
  rw [(h.afterDraws key hfresh).binding_eq, insertMap,
    Function.update_of_ne (hfresh.ne (by omega) (by omega) (by omega))]
  exact Function.update_self _ _ _

/-- The entry is filled under the second token. -/
theorem fillEntry_afterDraws (h : Issued g m) (hsound : Sound g.self g.data)
    (hroom : HasRoom g.self)
    (hfresh : FreshBelow g.useMac g.rand (g.randCalls + 2)) (key : Key)
    (value : Bytes) :
    (afterDraws g key).fillEntry shmpScheme g.self.nextFreeOffset
        g.self.valueSize key value
        (tokenAt g.useMac g.rand (g.randCalls + 1)) =
      { afterDraws g key with
        data := writeEntry g.data g.self.valueSize g.self.nextFreeOffset key
          value } := by
  have hle := hsound.room hroom
  have hsmall := hsound.small
  have hsizes := hsound.sizes
  have hperm : (request g.self.nextFreeOffset g.self.entrySize
      3).permission &&& 2 ≠ 0 :=
    show BitVec.ofNat 32 (3 : UInt8).toNat &&& 2 ≠ 0 by decide
  have hkey := (hfresh (g.randCalls + 1) (by omega)).1
  have hoffset : (request g.self.nextFreeOffset g.self.entrySize 3).offset =
      g.self.nextFreeOffset := wrap_of_lt (by omega)
  have hlength : (request g.self.nextFreeOffset g.self.entrySize 3).size =
      g.self.entrySize := wrap_of_lt (by omega)
  exact fillEntry_of_bound hkey (h.binding_entry key hfresh) hperm
    (by omega) (by omega) (by omega) hle

/-- The bucket word is written under the first token, whatever is in
memory. -/
theorem writeBucket_afterDraws (h : Issued g m)
    (hfresh : FreshBelow g.useMac g.rand (g.randCalls + 2)) (key : Key)
    (data : Bytes) (e : Nat) :
    Gshm.writeCxl shmpScheme { afterDraws g key with data := data }
        (entryOffset key) 8 (ofWord e)
        (tokenAt g.useMac g.rand g.randCalls) =
      (0, { afterDraws g key with data := setBucket data key e }) :=
  writeBucket_of_bound (g := { Ports.afterDraws g key with data := data })
    (hfresh g.randCalls (by omega)).1 (h.binding_bucket key hfresh) e

/-- **`insert` with two new tokens** writes the whole entry and the bucket
word, and returns the token of the entry. -/
theorem insert_of_fresh (h : Issued g m) (hsound : Sound g.self g.data)
    (hroom : HasRoom g.self)
    (hfresh : FreshBelow g.useMac g.rand (g.randCalls + 2)) (key : Key)
    (value : Bytes) :
    g.insert shmpScheme key value =
      .returned (tokenAt g.useMac g.rand (g.randCalls + 1))
        (afterInsert g key value) := by
  have hbatch : ¬ g.self.useBatch = true := by
    rw [hsound.noBatch]
    decide
  have hnotFull := mt hsound.full_iff.mp (not_not.mpr hroom)
  have hfirst : (g.acquire shmpScheme (entryOffset key) 8 3).1 =
      tokenAt g.useMac g.rand g.randCalls := rfl
  have hsecond : ((g.acquire shmpScheme (entryOffset key) 8 3).2.acquire
      shmpScheme g.self.nextFreeOffset g.self.entrySize 3).1 =
      tokenAt g.useMac g.rand (g.randCalls + 1) := by
    rw [← randCalls_acquire g (entryOffset key) 8 3]
    rfl
  have hfill := fillEntry_afterDraws h hsound hroom hfresh key value
  have hlink := writeBucket_afterDraws h hfresh key
    (writeEntry g.data g.self.valueSize g.self.nextFreeOffset key value)
    g.self.nextFreeOffset
  rw [Gshm.insert, if_neg hbatch, Gshm.insertPlain, Gshm.acquire_self,
    if_neg hnotFull]
  simp only [hfirst, hsecond]
  rw [afterDraws] at hfill hlink
  simp only [hfill, hlink, hsound.wrap_advance hroom]
  rfl

/-- The same as a step of a run. -/
theorem step_insert_of_fresh {fuel : Nat} (h : Issued g m)
    (hsound : Sound g.self g.data) (hroom : HasRoom g.self)
    (hfresh : FreshBelow g.useMac g.rand (g.randCalls + 2)) (key : Key)
    (value : Bytes) :
    gshmStep shmpScheme fuel g (.insert key value) =
      some (.shkey (tokenAt g.useMac g.rand (g.randCalls + 1)),
        afterInsert g key value) := by
  rw [gshmStep, insert_of_fresh h hsound hroom hfresh]
  rfl

end ShmpInsert

/-! ## A store with counted tokens -/

/-- An empty store on host 1 whose tokens are `1`, `2`, `3`, …. -/
def countingStore : ShmpStore :=
  .construct shmpScheme (fun _ => 0) (fun i => i + 1) 0 false .firstHost

theorem issued_countingStore : Issued countingStore fun _ => none :=
  issued_construct _ _ _ _ _

theorem sound_countingStore : Sound countingStore.self countingStore.data := by
  have hmac : 0 < getMac (some 1) := by decide
  have hsmall : 72 + 256 < 2 ^ 31 := by decide
  exact Sound.construct hmac hsmall fun _ => rfl

theorem freshBelow_countingStore :
    FreshBelow countingStore.useMac countingStore.rand
      (countingStore.randCalls + 2) := by
  unfold FreshBelow
  decide

end SHMemora.Ports
