import SHMemora.Ports.Acquisition
import SHMemora.Ports.BatchTokens
import SHMemora.Ports.RefusedWrites

/-!
# Insertions that are cut in half

`insert` of `gshm` draws one token for the bucket word and one for the new
entry, and makes three writes under the second and one under the first.  It
looks neither at what became of the two acquisitions nor at the results of the
writes.  When the draw for the entry hits a token that is in use, key and value
are refused, but the bucket word is written all the same and leads to a block
without an entry; the former entry of the bucket is lost with it.

In the memory of `RefusedWrites` this is the only way in which an insertion
fails halfway: blocks are zero before they are filled, so the next pointer is
right whether it was written or not, and so is a key or a value that is zero.

## Main result

* `all_or_nothing_iff` — in every state that calls in any order lead to, when
  an insertion is all or nothing.
-/

namespace SHMemora.Ports

open SHMemora.Verified.ByteMemory
open SHMemora.Verified.StepRun

/-! ## Four writes -/

/-- A write that is made if it is accepted. -/
structure MadeIf (accepted : Prop) (m m' : Bytes) (off : Nat) (src : Bytes)
    (size : Nat) : Prop where
  made : accepted → m' = store m off src size
  refused : ¬ accepted → m' = m

theorem MadeIf.written {accepted : Prop} {m m' src : Bytes} {off size : Nat}
    (h : MadeIf accepted m m' off src size) : Written m m' off src size := by
  by_cases haccept : accepted
  · exact .inr (h.made haccept)
  · exact .inl (h.refused haccept)

/-- The writes of an insertion: key, value, next pointer and bucket word. -/
def FilledIf (onKey onValue onNext onBucket : Prop) (m m' : Bytes)
    (valueSize e : Nat) (key : Key) (value : Bytes) : Prop :=
  ∃ m₁ m₂ m₃, MadeIf onKey m m₁ e key.buf 64 ∧
    MadeIf onValue m₁ m₂ (wrap (e + 64)) value valueSize ∧
    MadeIf onNext m₂ m₃ (wrap (e + 64 + valueSize)) (ofWord 0) 8 ∧
    MadeIf onBucket m₃ m' (entryOffset key) (ofWord e) 8

/-- The entry at `e` is written: key, value and a zero next pointer, and the
bucket word leads to it. -/
structure Complete (m : Bytes) (valueSize e : Nat) (key : Key)
    (value : Bytes) : Prop where
  key_at : keyAt m e = key
  value_at : ∀ k, k < valueSize → m (e + 64 + k) = value k
  last : nextEntry m (64 + valueSize) e = 0
  linked : bucket m key = e

/-- No bucket word has changed and no entry. -/
structure Unchanged {ι : Type} (valueSize : Nat) (members : ι → Instance)
    (m m' : Bytes) : Prop where
  buckets : ∀ k, bucket m' k = bucket m k
  entries : ∀ e, HandedOut valueSize members e →
    Agree m m' e (72 + valueSize)

section Filling

variable {ι : Type} {valueSize : Nat} {members : ι → Instance} {m m' : Bytes}
  {key : Key} {value : Bytes} {onKey onValue onNext onBucket : Prop} {i : ι}

theorem FilledIf.placed {e : Nat}
    (h : FilledIf onKey onValue onNext onBucket m m' valueSize e key value) :
    Placed m m' valueSize e key value := by
  obtain ⟨m₁, m₂, m₃, hkey, hvalue, hnext, hbucket⟩ := h
  exact ⟨m₁, m₂, m₃, hkey.written, hvalue.written, hnext.written,
    hbucket.written⟩

variable (h : Arranged valueSize members m) (hroom : HasRoom (members i))
  (hfilled : FilledIf onKey onValue onNext onBucket m m' valueSize
    (members i).nextFreeOffset key value)
include h hroom hfilled

/-- The key of the new entry is there if it was written or is zero. -/
theorem Arranged.key_filled_iff :
    keyAt m' (members i).nextFreeOffset = key ↔
      onKey ∨ key = fun _ => 0 := by
  obtain ⟨m₁, m₂, m₃, hkey, hvalue, hnext, hbucket⟩ := hfilled
  have hend := h.next_end hroom
  have hfront : entryOffset key + 8 ≤ _ := h.front_rest trivial i
  rw [wrap_of_lt (by omega)] at hvalue hnext
  have hafter : Agree m₁ m' (members i).nextFreeOffset 64 :=
    ((hvalue.written.agree (by omega) (.inl (Nat.le_refl _))).trans
      (hnext.written.agree (by omega) (.inl (by omega)))).trans
      (hbucket.written.agree (by omega) (.inr (by omega)))
  rw [keyAt_congr (by omega) hafter]
  by_cases haccept : onKey
  · rw [hkey.made haccept, keyAt_store_self (by omega)]
    simp [haccept]
  · have hzero : keyAt m₁ (members i).nextFreeOffset = fun _ => 0 := by
      rw [hkey.refused haccept, keyAt_congr (by omega)
        ((h.agree_next hroom).mono (Nat.le_refl _) (by omega))]
      rfl
    rw [hzero]
    simp [haccept, eq_comm]

/-- So is its value. -/
theorem Arranged.value_filled_iff :
    (∀ k, k < valueSize →
      m' ((members i).nextFreeOffset + 64 + k) = value k) ↔
      onValue ∨ ∀ k, k < valueSize → value k = 0 := by
  obtain ⟨m₁, m₂, m₃, hkey, hvalue, hnext, hbucket⟩ := hfilled
  have hend := h.next_end hroom
  have hfront : entryOffset key + 8 ≤ _ := h.front_rest trivial i
  rw [wrap_of_lt (by omega)] at hvalue hnext
  have hafter : Agree m₂ m' ((members i).nextFreeOffset + 64) valueSize :=
    (hnext.written.agree (by omega) (.inl (Nat.le_refl _))).trans
      (hbucket.written.agree (by omega) (.inr (by omega)))
  by_cases haccept : onValue
  · refine iff_of_true (fun k hk => ?_) (.inl haccept)
    rw [hafter _ (by omega) (by omega), hvalue.made haccept,
      store_apply (by omega), if_pos (by omega), Nat.add_sub_cancel_left]
  · have hzero : ∀ k, k < valueSize →
        m' ((members i).nextFreeOffset + 64 + k) = 0 := by
      intro k hk
      have hfirst : Agree m m₁ ((members i).nextFreeOffset + 64) valueSize :=
        hkey.written.agree (by omega) (.inr (Nat.le_refl _))
      rw [hafter _ (by omega) (by omega), hvalue.refused haccept,
        hfirst _ (by omega) (by omega)]
      exact h.agree_next hroom _ (by omega) (by omega)
    constructor
    · intro hread
      exact .inr fun k hk => (hread k hk).symm.trans (hzero k hk)
    · intro hor k hk
      rw [hzero k hk, hor.resolve_left haccept k hk]

/-- The bucket word leads to the new entry if it was written. -/
theorem Arranged.bucket_filled :
    (onBucket → bucket m' key = (members i).nextFreeOffset) ∧
      (¬ onBucket → ∀ k, bucket m' k = bucket m k) := by
  obtain ⟨m₁, m₂, m₃, hkey, hvalue, hnext, hbucket⟩ := hfilled
  have hend := h.next_end hroom
  rw [wrap_of_lt (by omega)] at hvalue hnext
  refine ⟨fun haccept => ?_, fun hrefused k => ?_⟩
  · rw [hbucket.made haccept]
    exact bucket_setBucket (by omega) rfl
  · have hfront : entryOffset k + 8 ≤ _ := h.front_rest trivial i
    rw [hbucket.refused hrefused]
    exact bucket_congr (((hkey.written.agree (by omega)
      (.inl (by omega))).trans (hvalue.written.agree (by omega)
        (.inl (by omega)))).trans (hnext.written.agree (by omega)
          (.inl (by omega))))

omit hfilled in
/-- The new entry is not where the bucket word led before. -/
theorem Arranged.bucket_ne_next :
    bucket m key ≠ (members i).nextFreeOffset := by
  intro heq
  have hplace := h.hosts.place i
  have hold := h.pointers key trivial (by omega)
  rw [heq] at hold
  exact h.hosts.not_handedOut_next hroom hold

/-- **The entry is complete** if the bucket word was written, and key and
value were or are zero. -/
theorem Arranged.complete_iff :
    Complete m' valueSize (members i).nextFreeOffset key value ↔
      onBucket ∧ (onKey ∨ key = fun _ => 0) ∧
        (onValue ∨ ∀ k, k < valueSize → value k = 0) := by
  obtain ⟨hmade, hrefused⟩ := h.bucket_filled hroom hfilled
  constructor
  · intro hcomplete
    refine ⟨?_, (h.key_filled_iff hroom hfilled).mp hcomplete.key_at,
      (h.value_filled_iff hroom hfilled).mp hcomplete.value_at⟩
    by_contra haccept
    have hlinked := hcomplete.linked
    rw [hrefused haccept key] at hlinked
    exact h.bucket_ne_next hroom hlinked
  · intro hwritten
    exact ⟨(h.key_filled_iff hroom hfilled).mpr hwritten.2.1,
      (h.value_filled_iff hroom hfilled).mpr hwritten.2.2,
      h.nextEntry_place hroom hfilled.placed trivial, hmade hwritten.1⟩

/-- **Nothing has changed** if the bucket word was not written. -/
theorem Arranged.unchanged_iff [DecidableEq ι] :
    Unchanged valueSize members m m' ↔ ¬ onBucket := by
  obtain ⟨hmade, hrefused⟩ := h.bucket_filled hroom hfilled
  constructor
  · intro hsame haccept
    have hlinked := hmade haccept
    rw [hsame.buckets key] at hlinked
    exact h.bucket_ne_next hroom hlinked
  · intro haccept
    exact ⟨hrefused haccept, fun e he =>
      h.agree_block hroom hfilled.placed trivial he⟩

end Filling

/-! ## What the two tokens open -/

section Tokens

variable {τ : Type} [DecidableEq τ] {n : Nat} [NeZero n]
variable {S : TokenScheme τ n}

/-- What a token opens for writing once `acquire` has asked for a region for
it: what is in the region it was bound to before, or in the one asked for if it
was not bound and a slot is left; `global_key` opens everything. -/
def OpensWrite (S : TokenScheme τ n) (table : ProtectionTable τ n)
    (shkey : τ) (asked : ProtectionEntry) (offset size : Nat) : Prop :=
  shkey = S.globalKey ∨
    ∃ entry, (match binding S table shkey with
        | some older => some older
        | none => (stopSlot S table shkey).map fun _ => asked) = some entry ∧
      entry.refusal 2 offset size = none

/-- Writes below the middle of the address space are accepted according to
the binding of the token. -/
theorem accepted_write_iff {g : Gshm τ n} {offset size : Nat} {shkey : τ}
    (hoffset : offset < 2 ^ 63) :
    Accepted S g .write offset size shkey ↔
      shkey = S.globalKey ∨ ∃ entry, binding S g.table shkey = some entry ∧
        entry.refusal 2 offset size = none := by
  have haddr : ¬ NullWrite g.self.dataAddr.addr .write offset :=
    fun hnull => getDataVaddr_ne_zero g.self.dataAddr hoffset hnull.2
  by_cases hkey : shkey = S.globalKey
  · refine iff_of_true ?_ (.inl hkey)
    rw [hkey]
    exact ⟨_, access_globalKey_eq_ok_iff.mpr ⟨rfl, haddr⟩⟩
  · rw [Accepted, exists_access_iff hkey]
    simp [hkey, haddr, AccessKind.bit]

/-- The token drawn last. -/
theorem accepted_acquired_iff {g : Gshm τ n} {offset size o s : Nat}
    {permission : UInt8} (ho : o < 2 ^ 63) :
    Accepted S (g.acquire S offset size permission).2 .write o s (drawn S g) ↔
      OpensWrite S g.table (drawn S g) (request offset size permission) o
        s := by
  rw [accepted_write_iff ho, binding_acquire]
  rfl

/-- Into a full table nothing is entered. -/
theorem insertProtectionEntry_of_full {table : ProtectionTable τ n}
    {shkey : τ} (hfull : stopSlot S table shkey = none) (u : τ)
    (offset size : Nat) (permission : BitVec 32) :
    (insertProtectionEntry S table u offset size permission).2 = table := by
  rw [insertProtectionEntry_eq]
  cases hslot : stopSlot S table u with
  | none => rfl
  | some i =>
      have hvalid := (stopSlot_eq_none_iff.mp hfull i).1
      simp [hvalid]

/-- A token keeps its binding, or its lack of one, when another token is drawn
after it. -/
theorem binding_drawn_acquire (g : Gshm τ n) (offset size : Nat)
    (permission : UInt8) (offset' size' : Nat) (permission' : UInt8) :
    binding S ((g.acquire S offset size permission).2.acquire S offset' size'
        permission').2.table (drawn S g) =
      binding S (g.acquire S offset size permission).2.table (drawn S g) := by
  rcases binding_acquire_cases S g offset size permission with
    ⟨entry, _, _, hbound⟩ | ⟨_, _, hbound⟩ | ⟨_, hfull, _⟩
  · rw [hbound]
    exact binding_insert_of_some _ _ _ _ hbound
  · rw [hbound]
    exact binding_insert_of_some _ _ _ _ hbound
  · have htable : (g.acquire S offset size permission).2.table = g.table :=
      insertProtectionEntry_of_full hfull _ _ _ _
    have hslot : stopSlot S (g.acquire S offset size permission).2.table
        (drawn S g) = none := by
      rw [htable]
      exact hfull
    exact congrArg (binding S · (drawn S g))
      (insertProtectionEntry_of_full hslot _ _ _ _)

/-- The token drawn before the last. -/
theorem accepted_drawn_acquire_iff {g : Gshm τ n} {offset size o s : Nat}
    {permission : UInt8} (offset' size' : Nat) (permission' : UInt8)
    (ho : o < 2 ^ 63) :
    Accepted S ((g.acquire S offset size permission).2.acquire S offset' size'
        permission').2 .write o s (drawn S g) ↔
      OpensWrite S g.table (drawn S g) (request offset size permission) o
        s := by
  rw [accepted_write_iff ho, binding_drawn_acquire, ← accepted_write_iff ho]
  exact accepted_acquired_iff ho

/-! ## Insertion -/

/-- A write leaves the tokens and the object alone, and so what may be
accessed. -/
theorem accepted_writeCxl_iff {g : Gshm τ n} {offset size : Nat} {buf : Bytes}
    {shkey : τ} {kind : AccessKind} {o s : Nat} {t : τ} :
    Accepted S (g.writeCxl S offset size buf shkey).2 kind o s t ↔
      Accepted S g kind o s t := by
  rw [Accepted, Accepted, Gshm.writeCxl_table, Gshm.writeCxl_self]

theorem writeCxl_madeIf (S : TokenScheme τ n) (g : Gshm τ n)
    (offset size : Nat) (buf : Bytes) (shkey : τ) :
    MadeIf (Accepted S g .write offset size shkey) g.data
      (g.writeCxl S offset size buf shkey).2.data offset buf size :=
  ⟨fun haccept => by rw [writeCxl_of_accepted haccept],
    fun hrefused => by rw [writeCxl_of_refused hrefused]⟩

/-- The writes of an insertion under the tokens for the entry and for the
bucket word. -/
theorem fillEntry_filledIf (S : TokenScheme τ n) (g : Gshm τ n)
    (e valueSize : Nat) (key : Key) (value : Bytes) (shkey shkey' : τ) :
    FilledIf (Accepted S g .write e 64 shkey)
      (Accepted S g .write (wrap (e + 64)) valueSize shkey)
      (Accepted S g .write (wrap (e + 64 + valueSize)) 8 shkey)
      (Accepted S g .write (entryOffset key) 8 shkey') g.data
      ((g.fillEntry S e valueSize key value shkey).writeCxl S
        (entryOffset key) 8 (ofWord e) shkey').2.data valueSize e key
      value := by
  have hkey := writeCxl_madeIf S g e 64 key.buf shkey
  have hvalue := writeCxl_madeIf S (g.writeCxl S e 64 key.buf shkey).2
    (wrap (e + 64)) valueSize value shkey
  have hnext := writeCxl_madeIf S ((g.writeCxl S e 64 key.buf shkey).2.writeCxl
    S (wrap (e + 64)) valueSize value shkey).2 (wrap (e + 64 + valueSize)) 8
    (ofWord 0) shkey
  have hbucket := writeCxl_madeIf S (g.fillEntry S e valueSize key value shkey)
    (entryOffset key) 8 (ofWord e) shkey'
  simp only [Gshm.fillEntry, accepted_writeCxl_iff] at hvalue hnext hbucket ⊢
  exact ⟨_, _, _, hkey, hvalue, hnext, hbucket⟩

/-- The store after the two draws of an insertion. -/
def bothDrawn (S : TokenScheme τ n) (g : Gshm τ n) (key : Key) : Gshm τ n :=
  ((g.acquire S (entryOffset key) 8 3).2.acquire S g.self.nextFreeOffset
    g.self.entrySize 3).2

/-- `insert` where the partition has room. -/
theorem insert_filledIf {g g' : Gshm τ n} (h : Plain g.self) {key : Key}
    {value : Bytes} {t : τ} (hinsert : g.insert S key value = .returned t g') :
    HasRoom g.self ∧
      FilledIf
        (Accepted S (bothDrawn S g key) .write g.self.nextFreeOffset 64
          (drawn S (g.acquire S (entryOffset key) 8 3).2))
        (Accepted S (bothDrawn S g key) .write
          (wrap (g.self.nextFreeOffset + 64)) g.self.valueSize
          (drawn S (g.acquire S (entryOffset key) 8 3).2))
        (Accepted S (bothDrawn S g key) .write
          (wrap (g.self.nextFreeOffset + 64 + g.self.valueSize)) 8
          (drawn S (g.acquire S (entryOffset key) 8 3).2))
        (Accepted S (bothDrawn S g key) .write (entryOffset key) 8 (drawn S g))
        g.data g'.data g.self.valueSize g.self.nextFreeOffset key value := by
  have hplain : ¬ g.self.useBatch = true := by
    rw [h.noBatch]
    decide
  rw [Gshm.insert, if_neg hplain, Gshm.insertPlain] at hinsert
  simp only at hinsert
  split at hinsert
  case isTrue => contradiction
  case isFalse hnotFull =>
    refine ⟨not_not.mp (mt h.full_iff.mpr hnotFull), ?_⟩
    cases hinsert
    exact fillEntry_filledIf S (bothDrawn S g key) g.self.nextFreeOffset
      g.self.valueSize key value _ (drawn S g)

end Tokens

/-! ## All or nothing -/

section Fleet

variable {τ : Type} [DecidableEq τ] {n : Nat} [NeZero n] {ι : Type}
  [DecidableEq ι]

/-- An insertion by one of the objects, when it returns, has written the new
entry and linked it, or has left all bucket words and all entries alone. -/
def AllOrNothing (S : TokenScheme τ n) (valueSize : Nat) (f : Fleet τ n ι)
    (i : ι) (rand : Nat → Nat) (key : Key) (value : Bytes) : Prop :=
  ∀ t g', (f.view i rand).insert S key value = .returned t g' →
    Complete g'.data valueSize (f.instances i).nextFreeOffset key value ∨
      Unchanged valueSize f.instances f.data g'.data

/-- If there is room for an entry and the token drawn for the bucket word opens
it, then the token drawn for the entry opens its key, unless that is zero, and
its value, unless that is zero. -/
def OpensWhatItLinks (S : TokenScheme τ n) (g : Gshm τ n) (key : Key)
    (value : Bytes) : Prop :=
  let e := g.self.nextFreeOffset
  let g₁ := (g.acquire S (entryOffset key) 8 3).2
  HasRoom g.self →
    OpensWrite S g.table (drawn S g) (request (entryOffset key) 8 3)
      (entryOffset key) 8 →
    (OpensWrite S g₁.table (drawn S g₁) (request e g.self.entrySize 3) e 64 ∨
      key = fun _ => 0) ∧
    (OpensWrite S g₁.table (drawn S g₁) (request e g.self.entrySize 3)
        (e + 64) g.self.valueSize ∨
      ∀ k, k < g.self.valueSize → value k = 0)

/-- **Exactly when an insertion is all or nothing.** -/
theorem Arranged.allOrNothing_iff {S : TokenScheme τ n} {valueSize : Nat}
    {f : Fleet τ n ι} (h : Arranged valueSize f.instances f.data) (i : ι)
    (rand : Nat → Nat) (key : Key) (value : Bytes) :
    AllOrNothing S valueSize f i rand key value ↔
      OpensWhatItLinks S (f.view i rand) key value := by
  have hplain : Plain (f.view i rand).self := h.hosts.plain i
  have hsize : (f.view i rand).self.valueSize = valueSize := h.hosts.size i
  -- what the writes of a call that returns come to
  have hiff : ∀ t g', (f.view i rand).insert S key value = .returned t g' →
      ((Complete g'.data valueSize (f.instances i).nextFreeOffset key value ∨
        Unchanged valueSize f.instances f.data g'.data) ↔
          OpensWhatItLinks S (f.view i rand) key value) := by
    intro t g' hinsert
    obtain ⟨hroom, hfilled⟩ := insert_filledIf hplain hinsert
    have hend := h.next_end (i := i) hroom
    have hword := entryOffset_add_le key
    have hstart : (f.view i rand).self.nextFreeOffset + (72 + valueSize) ≤
        2 ^ 39 := Nat.le_trans hend.1 hend.2
    rw [hsize] at hfilled
    rw [h.complete_iff hroom hfilled, h.unchanged_iff hroom hfilled,
      wrap_of_lt (by omega), OpensWhatItLinks, hsize, bothDrawn,
      accepted_drawn_acquire_iff _ _ _ (by omega)]
    have hopens : ∀ o s, o < 2 ^ 63 →
        (Accepted S ((((f.view i rand).acquire S (entryOffset key) 8
            3).2.acquire S (f.view i rand).self.nextFreeOffset
              (f.view i rand).self.entrySize 3).2) .write o s
            (drawn S ((f.view i rand).acquire S (entryOffset key) 8 3).2) ↔
          OpensWrite S ((f.view i rand).acquire S (entryOffset key) 8 3).2.table
            (drawn S ((f.view i rand).acquire S (entryOffset key) 8 3).2)
            (request (f.view i rand).self.nextFreeOffset
              (f.view i rand).self.entrySize 3) o s) :=
      fun o s ho => accepted_acquired_iff ho
    rw [hopens _ _ (by omega), hopens _ _ (by omega)]
    constructor
    · intro hor _ hlinks
      rcases hor with hcomplete | hrefused
      · exact hcomplete.2
      · exact absurd hlinks hrefused
    · intro himp
      by_cases hlinks : OpensWrite S (f.view i rand).table
          (drawn S (f.view i rand)) (request (entryOffset key) 8 3)
          (entryOffset key) 8
      · exact .inl ⟨hlinks, himp hroom hlinks⟩
      · exact .inr hlinks
  constructor
  · intro hall hroom
    obtain ⟨t, g', hinsert, _⟩ := insert_of_notFull (S := S) hplain.noBatch key
      value (mt hplain.full_iff.mp (not_not.mpr hroom))
    exact (hiff t g' hinsert).mp (hall t g' hinsert) hroom
  · intro hopens t g' hinsert
    exact (hiff t g' hinsert).mpr hopens

/-- Objects on hosts of their own make calls in any order.  In the state they
lead to, an insertion by any of them, of any key and value and with any tokens,
is all or nothing if and only if the token it draws for the bucket word opens
nothing that the token it draws for the entry does not go with. -/
theorem all_or_nothing_iff (S : TokenScheme τ n) (fuel : Nat)
    {valueSize : Nat} (table : ProtectionTable τ n) (batchKey : ι → τ)
    (useMac : ι → Bool) (dataAddr : ι → DataAddr) (mac : ι → Option UInt8)
    (hsmall : 72 + valueSize < 2 ^ 31) (hpos : ∀ i, 0 < getMac (mac i))
    (hinj : ∀ i j, getMac (mac i) = getMac (mac j) → i = j)
    {calls : List (StoreCall ι τ)}
    (hregular : ∀ call ∈ calls, call.Regular valueSize)
    {results : List (Option (GshmResult τ))} {f : Fleet τ n ι}
    (hrun : run (fleetCall S fuel) (.construct table (fun _ => 0) batchKey
      useMac dataAddr mac fun _ => valueSize) calls = some (results, f))
    (i : ι) (rand : Nat → Nat) (key : Key) (value : Bytes) :
    AllOrNothing S valueSize f i rand key value ↔
      OpensWhatItLinks S (f.view i rand) key value :=
  (arranged_of_run table batchKey useMac dataAddr mac hsmall hpos hinj hregular
    hrun).allOrNothing_iff i rand key value

end Fleet

/-- Two objects on two hosts. -/
def twoStores : Fleet UInt16 hashTableSize Bool :=
  .construct (zeroTable shmpScheme) (fun _ => 0) (fun _ => 0) (fun _ => false)
    (fun _ => Instance.firstHost.dataAddr) hostOneTwo fun _ => 256

theorem twoStores_arranged :
    Arranged 256 twoStores.instances twoStores.data :=
  .construct_of_pos _ hostOneTwo (by decide) (by decide) (by decide)

/-- The second object has inserted the key that the first one inserts. -/
theorem all_or_nothing_iff_two_hosts :
    ∃ results f, run (fleetCall shmpScheme 0) twoStores
        [⟨true, .insert (fun _ => 7) fun _ => 1, fun k => k + 1⟩] =
          some (results, f) ∧
      (AllOrNothing shmpScheme 256 f false (fun k => k + 3) (fun _ => 7)
          (fun _ => 2) ↔
        OpensWhatItLinks shmpScheme (f.view false fun k => k + 3) (fun _ => 7)
          fun _ => 2) := by
  have hplain := twoStores_arranged.hosts.plain true
  have hroom : HasRoom (twoStores.instances true) := by decide
  obtain ⟨t, g, hinsert, _⟩ := insert_of_notFull (S := shmpScheme)
    (g := twoStores.view true fun k => k + 1) hplain.noBatch (fun _ => 7)
    (fun _ => 1) (mt hplain.full_iff.mp (not_not.mpr hroom))
  have hstep : fleetCall shmpScheme 0 twoStores
      ⟨true, .insert (fun _ => 7) fun _ => 1, fun k => k + 1⟩ =
        some (some (.shkey t), twoStores.leave true g) := by
    simp [fleetCall, callEnd, gshmStep, hinsert, Outcome.next]
  have hrun : run (fleetCall shmpScheme 0) twoStores
      [⟨true, .insert (fun _ => 7) fun _ => 1, fun k => k + 1⟩] =
        some ([some (.shkey t)], twoStores.leave true g) := by
    rw [run_cons_of_step hstep]
    rfl
  refine ⟨_, _, hrun, all_or_nothing_iff shmpScheme 0 _ _ _ _ hostOneTwo
    (by decide) (by decide) (by decide) ?_ hrun false _ _ _⟩
  intro call hcall
  rw [List.mem_singleton.mp hcall]
  exact ⟨trivial, fun h => h.elim⟩

/-- A token that is not in use opens the region asked for. -/
theorem opensWrite_asked {τ : Type} [DecidableEq τ] {n : Nat} [NeZero n]
    {S : TokenScheme τ n} {table : ProtectionTable τ n} {shkey : τ}
    {asked : ProtectionEntry} {offset size : Nat}
    (hfresh : binding S table shkey = none)
    (hslot : (stopSlot S table shkey).isSome)
    (hopens : asked.refusal 2 offset size = none) :
    OpensWrite S table shkey asked offset size := by
  obtain ⟨slot, hslot⟩ := Option.isSome_iff_exists.mp hslot
  exact .inr ⟨asked, by rw [hfresh, hslot]; rfl, hopens⟩

/-- Where `rand()` returns the same twice, the first insertion of all links a
block without a key. -/
theorem not_all_or_nothing_same_draw :
    ¬ AllOrNothing shmpScheme 256 twoStores false (fun _ => 1) (fun _ => 7)
      fun _ => 7 := by
  rw [twoStores_arranged.allOrNothing_iff]
  intro hopens
  have hroom : HasRoom (twoStores.instances false) := by decide
  have hslot : (stopSlot shmpScheme (twoStores.view false fun _ => 1).table
      (drawn shmpScheme (twoStores.view false fun _ => 1))).isSome := by decide
  have hfresh : binding shmpScheme (twoStores.view false fun _ => 1).table
      (drawn shmpScheme (twoStores.view false fun _ => 1)) = none := by decide
  obtain ⟨hkey, _⟩ := hopens hroom
    (opensWrite_asked hfresh hslot (by decide))
  have hne : (fun _ => 7 : Key) ≠ fun _ => 0 := by decide
  -- the second token is the first one
  have hbound : binding shmpScheme
      ((twoStores.view false fun _ => 1).acquire shmpScheme
        (entryOffset fun _ => 7) 8 3).2.table
      (drawn shmpScheme ((twoStores.view false fun _ => 1).acquire shmpScheme
        (entryOffset fun _ => 7) 8 3).2) =
        some (request (entryOffset fun _ => 7) 8 3) := by
    obtain ⟨slot, hslot⟩ := Option.isSome_iff_exists.mp hslot
    have hacquired := binding_acquire (S := shmpScheme)
      (g := twoStores.view false fun _ => 1) (entryOffset fun _ => 7) 8 3
    rw [older, hfresh, hslot] at hacquired
    exact hacquired
  have hrefused : (request (entryOffset fun _ => 7) 8 3).refusal 2
      (twoStores.instances false).nextFreeOffset 64 ≠ none := by
    rw [Ne, ProtectionEntry.refusal_eq_none_iff]
    decide
  rcases hkey.resolve_right hne with hglobal | ⟨entry, hentry, hallows⟩
  · exact absurd hglobal (by decide)
  · rw [hbound] at hentry
    obtain rfl := Option.some.inj hentry
    exact hrefused hallows

end SHMemora.Ports
