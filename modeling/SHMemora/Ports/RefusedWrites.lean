import SHMemora.Ports.StoreFleet
import SHMemora.Ports.SharedChains

/-!
# Chains under refused writes

Any number of `gshm` objects on hosts of their own share a table and a data
area.  Any of their writes may be refused, so an entry may be linked without
its key, value or next pointer, and a bucket word may lead to an entry of
another bucket.  What holds all the same is `ArrangedFor`: bucket words are
zero or lead to blocks that were handed out, blocks are the last of their
chains, and what the objects have left of their partitions is still zero.  A
next pointer that was not written is zero for this reason.

It is a statement about the keys whose bucket words lie in front of all
partitions, and calls for these keep it (`ArrangedFor.call`), `put` provided
that entries have the length it assumes, and `write_cxl` where the caller
stays below the bucket table with it.  Without host 0 these are all keys
(`Arranged`).
-/

namespace SHMemora.Ports

open SHMemora.Verified.ByteMemory
open SHMemora.Verified.StepRun

/-! ## The memory -/

section Memory

variable {ι : Type}

/-- The objects and the memory behind every call for keys that have their
bucket words in front of all partitions. -/
structure ArrangedFor (near : Key → Prop) (valueSize : Nat)
    (members : ι → Instance) (m : Bytes) : Prop where
  hosts : Hosts valueSize members
  in_front : ∀ key, near key → ∀ i,
    entryOffset key + 8 ≤ (members i).partitionStart
  pointers : ∀ key, near key → bucket m key ≠ 0 →
    HandedOut valueSize members (bucket m key)
  last : ∀ e, HandedOut valueSize members e →
    nextEntry m (64 + valueSize) e = 0
  free : ∀ i x, (members i).nextFreeOffset ≤ x →
    x < (members i).partitionEnd → m x = 0

/-- The same for all keys. -/
abbrev Arranged (valueSize : Nat) (members : ι → Instance) (m : Bytes) :
    Prop :=
  ArrangedFor (fun _ => True) valueSize members m

variable {near : Key → Prop} {valueSize : Nat} {members : ι → Instance}
  {m m' : Bytes} {key : Key}

namespace ArrangedFor

/-- New objects on hosts of their own over a zeroed data area. -/
theorem construct (dataAddr : ι → DataAddr) (mac : ι → Option UInt8)
    (hsmall : 72 + valueSize < 2 ^ 31)
    (hinj : ∀ i j, getMac (mac i) = getMac (mac j) → i = j)
    (hfront : ∀ key, near key → ∀ i,
      entryOffset key + 8 ≤ 2 ^ 27 + getMac (mac i) * 2 ^ 30) :
    ArrangedFor near valueSize (fun i =>
      (Instance.construct (dataAddr i) (mac i)).withValueSize valueSize)
        fun _ => 0 := by
  have hhosts : Hosts valueSize fun i =>
      (Instance.construct (dataAddr i) (mac i)).withValueSize valueSize :=
    .construct dataAddr mac hsmall hinj
  refine ⟨hhosts, fun key hkey i => ?_, fun _ _ hne => absurd rfl hne,
    fun e he => absurd he (Hosts.not_handedOut_construct dataAddr mac e),
    fun _ _ _ _ => rfl⟩
  have hplace := hhosts.place i
  rw [hplace.1]
  exact hfront key hkey i

/-- Without host 0 all bucket words are in front of the partitions. -/
theorem construct_of_pos (dataAddr : ι → DataAddr) (mac : ι → Option UInt8)
    (hsmall : 72 + valueSize < 2 ^ 31) (hpos : ∀ i, 0 < getMac (mac i))
    (hinj : ∀ i j, getMac (mac i) = getMac (mac j) → i = j) :
    Arranged valueSize (fun i =>
      (Instance.construct (dataAddr i) (mac i)).withValueSize valueSize)
        fun _ => 0 := by
  refine construct dataAddr mac hsmall hinj fun key _ i => ?_
  have hword := entryOffset_add_le key
  have hhost := hpos i
  omega

variable (h : ArrangedFor near valueSize members m)
include h

theorem short (hkey : near key) : ShortChain m valueSize key :=
  fun hne => h.last _ (h.pointers key hkey hne)

/-- The entry of a stored key is a block. -/
theorem handedOut_entryOf (hkey : near key) (hne : entryOf m key ≠ 0) :
    HandedOut valueSize members (entryOf m key) := by
  have hbucket := (entryOf_eq_bucket hne).1
  rw [hbucket] at hne ⊢
  exact h.pointers key hkey hne

/-- The bucket words are in front of the blocks handed out. -/
theorem front_block (hkey : near key) {e : Nat}
    (he : HandedOut valueSize members e) : entryOffset key + 8 ≤ e := by
  obtain ⟨i, hblock⟩ := he
  exact Nat.le_trans (h.in_front key hkey i) hblock.start_le

/-- They are in front of what the objects have left of their partitions. -/
theorem front_rest (hkey : near key) (i : ι) :
    entryOffset key + 8 ≤ (members i).nextFreeOffset :=
  Nat.le_trans (h.in_front key hkey i) (h.hosts.place i).2.1

/-! ### What keeps the memory arranged -/

/-- What must stay as it is: the next pointers of the blocks, what is left of
the partitions, and the bucket words up to those that are zeroed. -/
theorem of_frame
    (hbucket : ∀ k, near k → bucket m' k = bucket m k ∨ bucket m' k = 0)
    (hlast : ∀ e, HandedOut valueSize members e →
      nextEntry m' (64 + valueSize) e = nextEntry m (64 + valueSize) e)
    (hfree : ∀ i, Agree m m' (members i).nextFreeOffset
      ((members i).partitionEnd - (members i).nextFreeOffset)) :
    ArrangedFor near valueSize members m' := by
  refine ⟨h.hosts, h.in_front, fun k hk hne => ?_, fun e he => ?_,
    fun i x hlo hhi => ?_⟩
  · rcases hbucket k hk with hsame | hzero
    · rw [hsame] at hne ⊢
      exact h.pointers k hk hne
    · exact absurd hzero hne
  · rw [hlast e he]
    exact h.last e he
  · rw [hfree i x hlo (by omega)]
    exact h.free i x hlo hhi

/-- What is apart from the value that is written stays as it is. -/
theorem agree_value {e : Nat} (he : HandedOut valueSize members e)
    {value : Bytes} (hwritten : Written m m' (wrap (e + 64)) value valueSize)
    {a k : Nat} (hapart : Apart a k (e + 64) valueSize) : Agree m m' a k := by
  have hbounds := h.hosts.bounds he
  rw [wrap_of_lt (by omega)] at hwritten
  exact hwritten.agree (by omega) hapart

/-- A value written or not. -/
theorem value {e : Nat} (he : HandedOut valueSize members e)
    {value : Bytes} (hwritten : Written m m' (wrap (e + 64)) value valueSize) :
    ArrangedFor near valueSize members m' := by
  have hagree : ∀ a k, Apart a k (e + 64) valueSize → Agree m m' a k :=
    fun a k => h.agree_value he hwritten
  refine h.of_frame (fun k hk => .inl ?_) (fun e' he' => ?_) fun i => ?_
  · have hfront := h.front_block hk he
    exact bucket_congr (hagree _ _ (.inl (by omega)))
  · have hbounds := h.hosts.bounds he'
    rw [nextEntry, nextEntry, wrap_of_lt (by omega)]
    exact loadWord_congr (by omega)
      (hagree _ _ (next_apart_value (h.hosts.apart he' he)))
  · have hrest := h.hosts.apart_rest he i
    refine hagree _ _ ?_
    unfold Apart at hrest ⊢
    omega

/-- A write below the bucket table, made or not. -/
theorem below {off size : Nat} {src : Bytes}
    (hwritten : Written m m' off src size)
    (hbelow : off + size ≤ kvHashTableStart) :
    ArrangedFor near valueSize members m' := by
  have hstart : off + size ≤ 2 ^ 26 := hbelow
  have hagree : ∀ a k, 2 ^ 26 ≤ a → Agree m m' a k := fun a k ha =>
    hwritten.agree (by omega) (.inr (by omega))
  refine h.of_frame (fun k _ => .inl ?_) (fun e he => ?_) fun i => ?_
  · refine bucket_congr (hagree _ _ ?_)
    rw [entryOffset_eq]
    omega
  · have hbounds := h.hosts.bounds he
    exact nextEntry_congr (by omega) (hagree _ _ (by omega))
  · have hplace := h.hosts.place i
    exact hagree _ _ (by omega)

/-- A bucket emptied. -/
theorem unlink (hkey : near key) :
    ArrangedFor near valueSize members (setBucket m key 0) := by
  refine h.of_frame (fun k _ => ?_) (fun e he => ?_) fun i => ?_
  · by_cases hhome : entryOffset k = entryOffset key
    · exact .inr (bucket_setBucket (by decide) hhome)
    · exact .inl (bucket_setBucket_of_ne hhome)
  · have hbounds := h.hosts.bounds he
    exact nextEntry_congr (by omega)
      (agree_setBucket (.inr (h.front_block hkey he)))
  · exact agree_setBucket (.inr (h.front_rest hkey i))

/-! ### A new entry -/

section Place

variable {i : ι} (hroom : HasRoom (members i))
include hroom

theorem next_end :
    (members i).nextFreeOffset + (72 + valueSize) ≤
      (members i).partitionEnd ∧
    (members i).partitionEnd ≤ 2 ^ 39 := by
  have hsizes := (h.hosts.plain i).sizes
  have hsize := h.hosts.size i
  have hplace := h.hosts.place i
  unfold HasRoom at hroom
  omega

/-- The block at the cursor is zero. -/
theorem agree_next :
    Agree (fun _ => 0) m (members i).nextFreeOffset (72 + valueSize) := by
  have hend := h.next_end hroom
  intro x hlo hhi
  exact h.free i x hlo (by omega)

variable {value : Bytes}
  (hplaced : Placed m m' valueSize (members i).nextFreeOffset key value)
include hplaced

/-- Bytes apart from the new entry and from the bucket word. -/
theorem agree_place {a k : Nat}
    (hnew : Apart a k (members i).nextFreeOffset (72 + valueSize))
    (hbucket : Apart a k (entryOffset key) 8) : Agree m m' a k := by
  have hend := h.next_end hroom
  have hword := entryOffset_add_le key
  obtain ⟨m₃, hagree, _, hwritten⟩ := hplaced.split (by omega)
  exact (hagree a k hnew).trans (hwritten.agree (by omega) hbucket)

variable (hkey : near key)
include hkey

/-- The next pointer of the new entry, written or not. -/
theorem nextEntry_place :
    nextEntry m' (64 + valueSize) (members i).nextFreeOffset = 0 := by
  have hend := h.next_end hroom
  have hfront := h.front_rest hkey i
  obtain ⟨m₃, _, hnext, hwritten⟩ := hplaced.split (by omega)
  rw [nextEntry_congr (by omega) (hwritten.agree (by omega) (.inr hfront))]
  rcases hnext with hsame | hzero
  · rw [hsame, nextEntry_congr (by omega) (h.agree_next hroom)]
    rfl
  · exact hzero

omit hkey in
/-- The bucket words then. -/
theorem bucket_place {k : Key} (hk : near k) :
    bucket m' k = bucket m k ∨ bucket m' k = (members i).nextFreeOffset := by
  have hend := h.next_end hroom
  have hword := entryOffset_add_le key
  obtain ⟨m₃, hagree, _, hwritten⟩ := hplaced.split (by omega)
  have hkept : bucket m₃ k = bucket m k :=
    bucket_congr (hagree _ _ (.inl (h.front_rest hk i)))
  by_cases hhome : entryOffset k = entryOffset key
  · rw [← hkept, bucket, bucket, hhome]
    exact hwritten.loadWord (by omega) (by omega)
  · rw [← hkept]
    exact .inl (bucket_congr (hwritten.agree (by omega)
      (apart_of_entryOffset_ne hhome)))

/-- Blocks from before stay as they are. -/
theorem agree_block {e : Nat} (he : HandedOut valueSize members e) :
    Agree m m' e (72 + valueSize) :=
  h.agree_place hroom hplaced (h.hosts.apart_next he hroom)
    (.inr (h.front_block hkey he))

variable [DecidableEq ι]

/-- A new entry, each of its writes made or not. -/
theorem place :
    ArrangedFor near valueSize
      (Function.update members i (members i).advance) m' := by
  have hend := h.next_end hroom
  have hiff := h.hosts.handedOut_advance_iff i
  refine ⟨h.hosts.advance hroom, fun k hk j => ?_,
    fun k hk hne => (hiff _).mpr ?_, fun e he => ?_, fun j x hlo hhi => ?_⟩
  · rw [Instance.partitionStart, (sameAs_advance members i j).1]
    exact h.in_front k hk j
  · rcases h.bucket_place hroom hplaced hk with hsame | hnew
    · rw [hsame] at hne ⊢
      exact .inl (h.pointers k hk hne)
    · exact .inr hnew
  · rcases (hiff e).mp he with hold | hnew
    · have hbounds := h.hosts.bounds hold
      rw [nextEntry_congr (by omega) (h.agree_block hroom hplaced hkey hold)]
      exact h.last e hold
    · rw [hnew]
      exact h.nextEntry_place hroom hplaced hkey
  · have hsizes := (h.hosts.plain i).sizes
    have hsize := h.hosts.size i
    have hfront := h.front_rest hkey j
    have hrest : (members j).nextFreeOffset ≤ x ∧
        x < (members j).partitionEnd ∧
        Apart x 1 (members i).nextFreeOffset (72 + valueSize) := by
      unfold Apart
      by_cases hj : j = i
      · subst hj
        rw [Function.update_self] at hlo hhi
        have hlo' : (members j).nextFreeOffset + (members j).entrySize ≤ x :=
          hlo
        have hhi' : x < (members j).partitionEnd := hhi
        omega
      · rw [Function.update_of_ne hj] at hlo hhi
        have hparts := h.hosts.partitions_apart hj
        have hi := h.hosts.place i
        have hj' := h.hosts.place j
        omega
    have hagree := h.agree_place hroom hplaced hrest.2.2 (.inr (by omega))
    rw [hagree x (Nat.le_refl _) (by omega)]
    exact h.free j x hrest.1 hrest.2.1

end Place

/-- **Step lemma**: whatever a call of one of the objects does to the
memory. -/
theorem effect [DecidableEq ι] (hkey : near key) {i : ι} {obj : Instance}
    (heffect : Effect key (members i) m obj m') :
    ArrangedFor near valueSize (Function.update members i obj) m' := by
  have hsize := h.hosts.size i
  cases heffect with
  | keep =>
      rw [Function.update_eq_self]
      exact h
  | value value hne hwritten =>
      rw [Function.update_eq_self]
      rw [hsize] at hwritten
      exact h.value (h.handedOut_entryOf hkey hne) hwritten
  | unlink =>
      rw [Function.update_eq_self]
      exact h.unlink hkey
  | place value hroom hplaced =>
      rw [hsize] at hplaced
      exact h.place hroom hplaced hkey

end ArrangedFor

end Memory

/-! ## Runs -/

section Runs

variable {τ : Type} [DecidableEq τ] {n : Nat} [NeZero n] {ι : Type}
  [DecidableEq ι] {S : TokenScheme τ n} {fuel valueSize : Nat}
  {near : Key → Prop} {f f' : Fleet τ n ι}

/-- The objects of a system without their tokens. -/
def Fleet.instances (f : Fleet τ n ι) : ι → Instance :=
  fun i => (f.members i).self

/-- A `write_cxl` of the caller's own stays below the bucket table. -/
def GshmOp.WritesBelow : GshmOp τ → Prop
  | .writeCxl offset size _ _ => offset + size ≤ kvHashTableStart
  | _ => True

/-- A call that leaves the layout to the store: `write_cxl` only below the
bucket table, and `put` only for entries of the length it assumes. -/
def StoreCall.Regular (valueSize : Nat) (call : StoreCall ι τ) : Prop :=
  call.op.WritesBelow ∧ (call.op.IsPut → valueSize = 256)

/-- What calls of no key write. -/
theorem gshmStep_below {g g' : Gshm τ n} {op : GshmOp τ}
    {result : GshmResult τ} (hkey : op.key = none) (hbelow : op.WritesBelow)
    (hstep : gshmStep S fuel g op = some (result, g')) :
    g'.self = g.self ∧ ∃ off src size,
      off + size ≤ kvHashTableStart ∧ Written g.data g'.data off src size := by
  by_cases hraw : op.IsWriteCxl
  · cases op with
    | writeCxl offset size buf shkey =>
        cases hstep
        exact ⟨g.writeCxl_self S .., offset, buf, size, hbelow,
          writeCxl_written S g offset size buf shkey⟩
    | _ => exact hraw.elim
  · obtain ⟨hself, hdata⟩ := gshmStep_frame hkey hraw hstep
    exact ⟨hself, 0, fun _ => 0, 0, Nat.zero_le _, .inl hdata⟩

omit [DecidableEq τ] [NeZero n] in
theorem instances_leave (f : Fleet τ n ι) (i : ι) (g : Gshm τ n) :
    (f.leave i g).instances = Function.update f.instances i g.self := by
  funext j
  show (Function.update f.members i ⟨g.batchKey, g.useMac, g.self⟩ j).self = _
  by_cases hj : j = i
  · rw [hj, Function.update_self, Function.update_self]
  · rw [Function.update_of_ne hj, Function.update_of_ne hj]
    rfl

/-- What a call for a key comes to, returned or not. -/
theorem ArrangedFor.effect_of_call
    (h : ArrangedFor near valueSize f.instances f.data)
    {call : StoreCall ι τ} (hput : call.op.IsPut → valueSize = 256)
    {key : Key} (hkey : call.op.key = some key) (hnear : near key)
    {result : Option (GshmResult τ)}
    (hcall : fleetCall S fuel f call = some (result, f')) :
    ∃ obj, f'.instances = Function.update f.instances call.member obj ∧
      Effect key (f.instances call.member) f.data obj f'.data := by
  obtain ⟨g', rfl, hend⟩ := fleetCall_endsIn hcall
  have hplain : Plain (f.view call.member call.rand).self :=
    h.hosts.plain call.member
  have hsize : (f.view call.member call.rand).self.valueSize = valueSize :=
    h.hosts.size call.member
  refine ⟨g'.self, instances_leave f call.member g', ?_⟩
  show Effect key _ _ g'.self g'.data
  cases hend with
  | returned result hstep =>
      have hshort : ShortChain (f.view call.member call.rand).data
          (f.view call.member call.rand).self.valueSize key := by
        rw [hsize]
        exact h.short hnear
      exact gshmStep_effect_of_short hplain hshort
        (fun hop => hsize.trans (hput hop)) hkey hstep
  | exited key value _ hinsert =>
      rw [insert_exited hinsert, Gshm.acquire_self, Gshm.acquire_data]
      exact .keep

/-- **Step lemma**: a call of any object keeps the memory arranged. -/
theorem ArrangedFor.call (h : ArrangedFor near valueSize f.instances f.data)
    {call : StoreCall ι τ} (hregular : call.Regular valueSize)
    (hnear : ∀ key, call.op.key = some key → near key)
    {result : Option (GshmResult τ)}
    (hcall : fleetCall S fuel f call = some (result, f')) :
    ArrangedFor near valueSize f'.instances f'.data := by
  cases hkey : call.op.key with
  | some key =>
      obtain ⟨obj, hobj, heffect⟩ :=
        h.effect_of_call hregular.2 hkey (hnear key hkey) hcall
      rw [hobj]
      exact h.effect (hnear key hkey) heffect
  | none =>
      obtain ⟨g', rfl, hend⟩ := fleetCall_endsIn hcall
      rw [instances_leave]
      show ArrangedFor near valueSize _ g'.data
      cases hend with
      | returned result hstep =>
          obtain ⟨hself, off, src, size, hbelow, hwritten⟩ :=
            gshmStep_below hkey hregular.1 hstep
          have hkeep : Function.update f.instances call.member g'.self =
              f.instances := by
            rw [hself]
            exact Function.update_eq_self call.member f.instances
          rw [hkeep]
          exact h.below hwritten hbelow
      | exited key value hop _ =>
          rw [hop] at hkey
          contradiction

/-- **Run lemma**: in every state that calls in any order lead to, the memory
is arranged. -/
theorem arranged_of_run (table : ProtectionTable τ n) (batchKey : ι → τ)
    (useMac : ι → Bool) (dataAddr : ι → DataAddr) (mac : ι → Option UInt8)
    (hsmall : 72 + valueSize < 2 ^ 31) (hpos : ∀ i, 0 < getMac (mac i))
    (hinj : ∀ i j, getMac (mac i) = getMac (mac j) → i = j)
    {calls : List (StoreCall ι τ)}
    (hregular : ∀ call ∈ calls, call.Regular valueSize)
    {results : List (Option (GshmResult τ))}
    (hrun : run (fleetCall S fuel) (.construct table (fun _ => 0)
      batchKey useMac dataAddr mac fun _ => valueSize) calls =
        some (results, f)) :
    Arranged valueSize f.instances f.data := by
  refine run_invariant_all
    (P := fun f : Fleet τ n ι => Arranged valueSize f.instances f.data)
    (fun f call result f' h hcall hstep =>
      h.call hcall (fun _ _ => trivial) hstep) ?_ hregular hrun
  exact .construct_of_pos dataAddr mac hsmall hpos hinj

end Runs

end SHMemora.Ports
