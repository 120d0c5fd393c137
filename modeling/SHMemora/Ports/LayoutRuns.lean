import SHMemora.Ports.PlainAllocation
import SHMemora.Ports.RefusedWrites

/-!
# Bucket words and the entries of all hosts

Objects of either class share a data area, with one of them on host 0 perhaps.
The partition of host 0 begins in the middle of the bucket table, so that its
entries lie over the bucket words of the keys with a top byte of 64 or more,
and a call for such a key overwrites an entry of host 0 whichever host makes
it.

What a call takes is decided by the cursor alone, for any key, any value size
and over any memory (`uprStep_takes`, `gshmStep_takes`), and so is the place
of every entry that any object can place.  What calls for the other keys do to
the memory is kept by `ArrangedFor`.

## Main result

* `bucket_apart_iff` — the keys whose bucket words are apart from every entry
  that a run of any objects can place, with what this means for the entries of
  other keys.
-/

namespace SHMemora.Ports

open SHMemora.Verified.ByteMemory
open SHMemora.Verified.StepRun

/-! ## Cursors -/

/-- The members of an object outside batch mode with its sizes in step, whose
cursor has not left its partition. -/
structure InPartition (obj : Instance) : Prop where
  noBatch : obj.useBatch = false
  sizes : obj.entrySize = 72 + obj.valueSize
  small : obj.entrySize < 2 ^ 31
  host : obj.hostId < 256
  start_le : obj.partitionStart ≤ obj.nextFreeOffset
  le_end : obj.nextFreeOffset ≤ obj.partitionEnd

/-- A call takes nothing, or bytes at the cursor that are left. -/
def Takes (obj obj' : Instance) : Prop :=
  obj' = obj ∨ ∃ size, obj.nextFreeOffset + size ≤ obj.partitionEnd ∧
    obj' = obj.moved (obj.nextFreeOffset + size)

section Cursor

variable {obj obj' : Instance}

@[simp] theorem Instance.moved_nextFreeOffset (obj : Instance)
    (nextFree : Nat) : (obj.moved nextFree).nextFreeOffset = nextFree := rfl

@[simp] theorem Instance.moved_entrySize (obj : Instance) (nextFree : Nat) :
    (obj.moved nextFree).entrySize = obj.entrySize := rfl

@[simp] theorem Instance.moved_partitionEnd (obj : Instance)
    (nextFree : Nat) : (obj.moved nextFree).partitionEnd = obj.partitionEnd :=
  rfl

theorem Instance.advance_eq (obj : Instance) :
    obj.advance = obj.moved (obj.nextFreeOffset + obj.entrySize) := rfl

theorem Plain.inPartition (h : Plain obj) : InPartition obj :=
  ⟨h.noBatch, h.sizes, h.small, h.host, h.start_le, h.le_end⟩

theorem InPartition.partitionStart_eq (h : InPartition obj) :
    obj.partitionStart = 2 ^ 27 + obj.hostId * 2 ^ 30 :=
  Instance.partitionStart_eq h.host

theorem InPartition.partitionEnd_eq (h : InPartition obj) :
    obj.partitionEnd = obj.partitionStart + 2 ^ 30 := by
  have hstart := h.partitionStart_eq
  have hhost := h.host
  exact Instance.partitionEnd_eq (by omega)

theorem Takes.inPartition (htakes : Takes obj obj') (h : InPartition obj) :
    InPartition obj' := by
  rcases htakes with rfl | ⟨size, hend, rfl⟩
  · exact h
  · exact ⟨h.noBatch, h.sizes, h.small, h.host,
      Nat.le_trans h.start_le (Nat.le_add_right _ _), hend⟩

/-- The sum that the test for a full partition compares does not wrap. -/
theorem InPartition.wrap_moved (h : InPartition obj) {size : Nat}
    (hsize : size < 2 ^ 31) :
    wrap (obj.nextFreeOffset + size) = obj.nextFreeOffset + size := by
  have hstart := h.partitionStart_eq
  have hend := h.partitionEnd_eq
  have hhost := h.host
  have hle := h.le_end
  exact wrap_of_lt (by omega)

/-- What is taken behind that test. -/
theorem InPartition.takes (h : InPartition obj) {size : Nat}
    (hsize : size < 2 ^ 31) (hroom : ¬ obj.Full size) :
    Takes obj (obj.moved (wrap (obj.nextFreeOffset + size))) := by
  have hwrap := h.wrap_moved hsize
  rw [Instance.Full, hwrap, not_lt] at hroom
  rw [hwrap]
  exact .inr ⟨size, hroom, rfl⟩

/-- **No call of `gshm_upr` takes more than one entry**, whatever the
memory. -/
theorem uprStep_takes {u u' : GshmUpr} (h : InPartition u.self) {op : UprOp}
    {reply : Reply} (hstep : uprStep u op = some (reply, u')) :
    Takes u.self u'.self := by
  have hcase := uprStep_allocates h.noBatch hstep
  split at hcase
  next size hgrant =>
    obtain ⟨hroom, hmoved⟩ := hcase
    rw [hmoved]
    refine h.takes ?_ hroom
    unfold GshmUpr.granted at hgrant
    split at hgrant
    · cases hgrant
      exact h.small
    · split at hgrant <;> cases hgrant
      decide
    · cases hgrant
  next => exact .inl hcase

end Cursor

section Protected

variable {τ : Type} [DecidableEq τ] {n : Nat} [NeZero n]
variable {S : TokenScheme τ n} {g g' : Gshm τ n}

theorem insertPlain_takes (h : InPartition g.self) {key : Key} {value : Bytes}
    {t t' : τ} (hcall : g.insertPlain S t key value = .returned t' g') :
    Takes g.self g'.self := by
  rw [Gshm.insertPlain] at hcall
  simp only at hcall
  split at hcall
  case isTrue => contradiction
  case isFalse hroom =>
    cases hcall
    have htakes := h.takes h.small hroom
    simp only [Gshm.writeCxl_self, fillEntry_self, Gshm.acquire_self]
    exact htakes

theorem insert_takes (h : InPartition g.self) {key : Key} {value : Bytes}
    {t : τ} (hcall : g.insert S key value = .returned t g') :
    Takes g.self g'.self := by
  have hplain : ¬ g.self.useBatch = true := by
    rw [h.noBatch]
    decide
  rw [Gshm.insert, if_neg hplain] at hcall
  exact insertPlain_takes (g := (g.acquire S (entryOffset key) 8 3).2) h hcall

theorem putNew_takes (h : InPartition g.self) {key : Key} {value : Bytes}
    {t : τ} {b : Bool} (hcall : g.putNew S t key value = .returned b g') :
    Takes g.self g'.self := by
  rw [Gshm.putNew] at hcall
  simp only at hcall
  split at hcall
  case isTrue =>
    cases hcall
    exact .inl rfl
  case isFalse hroom =>
    cases hcall
    have htakes := h.takes (show 328 < 2 ^ 31 by decide) hroom
    simp only [Gshm.writeCxl_self, fillEntry_self, Gshm.acquire_self]
    exact htakes

theorem put_takes (h : InPartition g.self) {fuel : Nat} {key : Key}
    {value : Bytes} {b : Bool}
    (hcall : g.put S fuel key value = .returned b g') :
    Takes g.self g'.self := by
  rw [Gshm.put] at hcall
  split at hcall
  case h_1 => contradiction
  case h_2 g₁ hloop =>
    cases hcall
    exact .inl ((putLoop_self hloop).trans (g.acquire_self S _ 8 3))
  case h_3 g₁ hloop =>
    have hself : g₁.self = g.self :=
      (putLoop_self hloop).trans (g.acquire_self S _ 8 3)
    have htakes := putNew_takes (S := S) (g := g₁) (by rw [hself]; exact h)
      hcall
    rw [hself] at htakes
    exact htakes

/-- **No call of `gshm` takes more than one entry**, whatever the memory. -/
theorem gshmStep_takes (h : InPartition g.self) {fuel : Nat} {op : GshmOp τ}
    {result : GshmResult τ}
    (hstep : gshmStep S fuel g op = some (result, g')) :
    Takes g.self g'.self := by
  cases op with
  | writeCxl offset size buf shkey =>
      cases hstep
      exact .inl (g.writeCxl_self S ..)
  | get key value shkey =>
      obtain ⟨r, g₁, hcall, heq⟩ := Outcome.next_map_eq_some_iff.mp hstep
      cases heq
      exact .inl (get_self hcall)
  | update key value shkey =>
      obtain ⟨b, g₁, hcall, heq⟩ := Outcome.next_map_eq_some_iff.mp hstep
      cases heq
      exact .inl (update_self hcall)
  | insert key value =>
      obtain ⟨t, g₁, hcall, heq⟩ := Outcome.next_map_eq_some_iff.mp hstep
      cases heq
      exact insert_takes h hcall
  | put key value =>
      obtain ⟨b, g₁, hcall, heq⟩ := Outcome.next_map_eq_some_iff.mp hstep
      cases heq
      exact put_takes h hcall
  | del key shkey =>
      obtain ⟨b, g₁, hcall, heq⟩ := Outcome.next_map_eq_some_iff.mp hstep
      cases heq
      exact .inl (delLoop_self hcall)
  | _ => cases hstep; exact .inl rfl

/-- Neither does one that ends its process. -/
theorem EndsIn.takes {fuel : Nat} {op : GshmOp τ}
    (hend : EndsIn S fuel g op g') (h : InPartition g.self) :
    Takes g.self g'.self := by
  cases hend with
  | returned result hstep => exact gshmStep_takes h hstep
  | exited key value _ hinsert =>
      rw [insert_exited hinsert]
      exact .inl (g.acquire_self S _ 8 3)

end Protected

/-! ## Objects over a common data area -/

/-- What calls of one of the two classes have in common: the object that makes
a call, the key it is for, and what `put` and `write_cxl` must keep to for
entries of this value size. -/
structure Fleets (ι κ ω σ : Type) where
  step : σ → κ → Option (ω × σ)
  member : κ → ι
  key : κ → Option Key
  Regular : Nat → κ → Prop
  instances : σ → ι → Instance
  data : σ → Bytes

/-- The objects of `gshm_upr`. -/
def uprFleets (ι : Type) [DecidableEq ι] :
    Fleets ι (ι × UprOp) Reply (UprFleet ι) where
  step := uprFleetStep
  member := Prod.fst
  key := fun call => some call.2.key
  Regular := fun valueSize call => call.2.IsPut → valueSize = 256
  instances := UprFleet.members
  data := UprFleet.data

/-- The objects of `gshm`. -/
def gshmFleets {τ : Type} [DecidableEq τ] {n : Nat} [NeZero n]
    (S : TokenScheme τ n) (fuel : Nat) (ι : Type) [DecidableEq ι] :
    Fleets ι (StoreCall ι τ) (Option (GshmResult τ)) (Fleet τ n ι) where
  step := fleetCall S fuel
  member := StoreCall.member
  key := fun call => call.op.key
  Regular := fun valueSize call => call.Regular valueSize
  instances := Fleet.instances
  data := Fleet.data

theorem fleetCall_of_step {ι τ : Type} [DecidableEq ι] [DecidableEq τ]
    {n : Nat} [NeZero n] {S : TokenScheme τ n} {fuel : Nat} {f : Fleet τ n ι}
    {call : StoreCall ι τ} {result : GshmResult τ} {g : Gshm τ n}
    (hstep : gshmStep S fuel (f.view call.member call.rand) call.op =
      some (result, g)) :
    fleetCall S fuel f call = some (some result, f.leave call.member g) := by
  rw [fleetCall, callEnd.eq_def, hstep]
  rfl

theorem uprFleetStep_eq_some_iff {ι : Type} [DecidableEq ι]
    {f f' : UprFleet ι} {i : ι} {op : UprOp} {reply : Reply} :
    uprFleetStep f (i, op) = some (reply, f') ↔
      ∃ u, uprStep ⟨f.data, f.members i⟩ op = some (reply, u) ∧
        f' = ⟨u.data, Function.update f.members i u.self⟩ := by
  rw [uprFleetStep]
  cases uprStep ⟨f.data, f.members i⟩ op with
  | none => simp
  | some r => simp [Prod.ext_iff, eq_comm]

/-- `partition_id` of a key: its top byte. -/
def partitionId (key : Key) : Nat := word key.buf >>> 56

/-- The bucket word of a key is in front of all partitions. -/
def Near (key : Key) : Prop := partitionId key < 64

instance (key : Key) : Decidable (Near key) :=
  inferInstanceAs (Decidable (_ < _))

theorem near_iff {key : Key} : Near key ↔ entryOffset key + 8 ≤ 2 ^ 27 := by
  have hlt := word_lt key.buf
  rw [Near, entryOffset_eq, partitionId, Nat.shiftRight_eq_div_pow]
  omega

/-- A call leaves the blocks that hold other keys alone: key, value and next
pointer. -/
def SparesOthers (valueSize : Nat) (block : Nat → Prop) (m m' : Bytes)
    (key : Key) : Prop :=
  ∀ e, block e → keyAt m e ≠ key → Agree m m' e (72 + valueSize)

theorem uprFleetStep_insert {ι : Type} [DecidableEq ι] {f : UprFleet ι}
    {i : ι} (hplain : Plain (f.members i)) (hroom : HasRoom (f.members i))
    (key : Key) (value : Bytes) :
    uprFleetStep f (i, .insert key value) = some (.answer true,
      ⟨insertEntry f.data (f.members i).valueSize
        (f.members i).nextFreeOffset key value,
        Function.update f.members i (f.members i).advance⟩) :=
  uprFleetStep_eq_some_iff.mpr ⟨_, uprStep_insert_of_room
    (u := ⟨f.data, f.members i⟩) hplain hroom key value, rfl⟩

/-- **The entries of other keys are left alone.** -/
theorem ArrangedFor.spares {ι : Type} {near : Key → Prop} {valueSize : Nat}
    {members : ι → Instance} {m m' : Bytes} {key : Key}
    (h : ArrangedFor near valueSize members m) (hkey : near key) {i : ι}
    {obj : Instance} (heffect : Effect key (members i) m obj m') :
    SparesOthers valueSize (HandedOut valueSize members) m m' key := by
  intro e he hother
  have hsize := h.hosts.size i
  cases heffect with
  | keep => exact .refl m e _
  | value value hne hwritten =>
      obtain ⟨hbucket, hmatch⟩ := entryOf_eq_bucket hne
      have hdiff : e ≠ entryOf m key := by
        rintro rfl
        rw [hbucket] at hother
        exact hother hmatch
      have hblock := h.handedOut_entryOf hkey hne
      have hapart := h.hosts.apart he hblock hdiff
      rw [hsize] at hwritten
      refine h.agree_value hblock hwritten ?_
      unfold Apart at hapart ⊢
      omega
  | unlink => exact agree_setBucket (.inr (h.front_block hkey he))
  | place value hroom hplaced =>
      rw [hsize] at hplaced
      exact h.agree_block hroom hplaced hkey he

namespace Fleets

section Property

variable {ι κ ω σ : Type} (F : Fleets ι κ ω σ)

/-- New objects on any hosts with value sizes of their own, over any memory. -/
def New (s : σ) : Prop :=
  ∃ (dataAddr : ι → DataAddr) (mac : ι → Option UInt8) (valueSize : ι → Nat),
    (∀ i, 72 + valueSize i < 2 ^ 31) ∧ F.instances s = fun i =>
      (Instance.construct (dataAddr i) (mac i)).withValueSize (valueSize i)

/-- New objects on hosts of their own with one value size, over a zeroed data
area. -/
def NewApart (valueSize : Nat) (s : σ) : Prop :=
  ∃ (dataAddr : ι → DataAddr) (mac : ι → Option UInt8),
    72 + valueSize < 2 ^ 31 ∧
    (∀ i j, getMac (mac i) = getMac (mac j) → i = j) ∧
    (F.instances s = fun i =>
      (Instance.construct (dataAddr i) (mac i)).withValueSize valueSize) ∧
    F.data s = fun _ => 0

/-- A run from `s` comes to a call that takes the `size` bytes from `e` on for
an entry. -/
def TakesAt (s : σ) (e size : Nat) : Prop :=
  ∃ calls outs s₁ call out s₂, run F.step s calls = some (outs, s₁) ∧
    F.step s₁ call = some (out, s₂) ∧ 0 < size ∧
    (F.instances s₁ (F.member call)).nextFreeOffset = e ∧
    (F.instances s₂ (F.member call)).nextFreeOffset = e + size

/-- A call for a key whose bucket word is in front of all partitions, or for
none. -/
def Calm (valueSize : Nat) (call : κ) : Prop :=
  F.Regular valueSize call ∧ ∀ key, F.key call = some key → Near key

/-- **Buckets and entries are apart, for one key.**  Its bucket word is apart
from every entry that any object can place.  Calls for it do not change key,
value or next pointer of another key's entry, and its bucket word is zero or
leads to an entry, in all runs of calm calls. -/
structure KeepsApart (key : Key) : Prop where
  apart : ∀ s e size, F.New s → F.TakesAt s e size →
    Apart (entryOffset key) 8 e size
  spares : ∀ valueSize s calls outs s₁ call out s₂, F.NewApart valueSize s →
    (∀ c ∈ calls, F.Calm valueSize c) →
    run F.step s calls = some (outs, s₁) → F.Regular valueSize call →
    F.key call = some key → F.step s₁ call = some (out, s₂) →
    SparesOthers valueSize (HandedOut valueSize (F.instances s₁))
      (F.data s₁) (F.data s₂) key
  pointers : ∀ valueSize s calls outs s₁, F.NewApart valueSize s →
    (∀ c ∈ calls, F.Calm valueSize c) →
    run F.step s calls = some (outs, s₁) →
    bucket (F.data s₁) key = 0 ∨
      HandedOut valueSize (F.instances s₁) (bucket (F.data s₁) key)

end Property

/-! ### What the two classes satisfy -/

section Lawful

variable {ι κ ω σ : Type} [DecidableEq ι]

/-- How calls act on the objects and the memory. -/
structure Lawful (F : Fleets ι κ ω σ) : Prop where
  takes : ∀ s call out s', (∀ i, InPartition (F.instances s i)) →
    F.step s call = some (out, s') → ∃ obj,
      F.instances s' = Function.update (F.instances s) (F.member call) obj ∧
        Takes (F.instances s (F.member call)) obj
  inserts : ∀ s i, Plain (F.instances s i) → HasRoom (F.instances s i) →
    ∃ call out s', F.member call = i ∧ F.step s call = some (out, s') ∧
      F.instances s' = Function.update (F.instances s) i
        (F.instances s i).advance
  effect : ∀ valueSize s call out s' key,
    ArrangedFor Near valueSize (F.instances s) (F.data s) →
    F.Regular valueSize call → F.key call = some key → Near key →
    F.step s call = some (out, s') → ∃ obj,
      F.instances s' = Function.update (F.instances s) (F.member call) obj ∧
        Effect key (F.instances s (F.member call)) (F.data s) obj (F.data s')
  keeps : ∀ valueSize s call out s',
    ArrangedFor Near valueSize (F.instances s) (F.data s) →
    F.Regular valueSize call → F.key call = none →
    F.step s call = some (out, s') →
      ArrangedFor Near valueSize (F.instances s') (F.data s')
  exists_new : ∀ instances, ∃ s, F.instances s = instances

variable {F : Fleets ι κ ω σ} (hF : Lawful F)
include hF

/-! ### The places of entries -/

/-- **Run lemma** for the cursors. -/
theorem Lawful.inPartition_of_run {s s' : σ} {calls : List κ}
    {outs : List ω} (h : ∀ i, InPartition (F.instances s i))
    (hrun : run F.step s calls = some (outs, s')) :
    ∀ i, InPartition (F.instances s' i) := by
  refine run_invariant
    (P := fun s => ∀ i, InPartition (F.instances s i)) ?_ h hrun
  intro s call out s' hs hstep i
  obtain ⟨obj, hobj, htakes⟩ := hF.takes s call out s' hs hstep
  rw [hobj]
  by_cases hi : i = F.member call
  · rw [hi, Function.update_self]
    exact htakes.inPartition (hs _)
  · rw [Function.update_of_ne hi]
    exact hs i

omit [DecidableEq ι] hF in
theorem New.inPartition {s : σ} (h : F.New s) (i : ι) :
    InPartition (F.instances s i) := by
  obtain ⟨dataAddr, mac, valueSize, hsmall, hinstances⟩ := h
  rw [hinstances]
  exact (Plain.construct (dataAddr i) (mac i) (hsmall i)).inPartition

/-- Entries lie behind the beginning of the partition of host 0. -/
theorem Lawful.le_of_takesAt {s : σ} (h : F.New s) {e size : Nat}
    (htakes : F.TakesAt s e size) : 2 ^ 27 ≤ e := by
  obtain ⟨calls, outs, s₁, call, out, s₂, hrun, _, _, he, _⟩ := htakes
  have hobj := hF.inPartition_of_run h.inPartition hrun (F.member call)
  have hstart := hobj.partitionStart_eq
  have hcursor := hobj.start_le
  omega

/-- Insertions reach every block of a partition. -/
theorem Lawful.reaches {i : ι} (n : Nat) {s : σ}
    (hobj : Plain (F.instances s i))
    (hroom : (F.instances s i).nextFreeOffset +
      n * (F.instances s i).entrySize ≤ (F.instances s i).partitionEnd) :
    ∃ calls outs s', run F.step s calls = some (outs, s') ∧
      Plain (F.instances s' i) ∧ F.instances s' i =
        (F.instances s i).moved ((F.instances s i).nextFreeOffset +
          n * (F.instances s i).entrySize) := by
  induction n generalizing s with
  | zero =>
      refine ⟨[], [], s, rfl, hobj, ?_⟩
      rw [Nat.zero_mul, Nat.add_zero]
      rfl
  | succ n ih =>
      rw [Nat.succ_mul] at hroom
      have hroom' : HasRoom (F.instances s i) := by
        unfold HasRoom
        omega
      obtain ⟨call, out, s₁, _, hstep, hinstances⟩ :=
        hF.inserts s i hobj hroom'
      have hnext : F.instances s₁ i = (F.instances s i).advance := by
        rw [hinstances, Function.update_self]
      have hobj₁ : Plain (F.instances s₁ i) := by
        rw [hnext]
        exact hobj.advance hroom'
      have hroom₁ : (F.instances s₁ i).nextFreeOffset +
          n * (F.instances s₁ i).entrySize ≤
            (F.instances s₁ i).partitionEnd := by
        simp only [hnext, Instance.advance_eq, Instance.moved_nextFreeOffset,
          Instance.moved_entrySize, Instance.moved_partitionEnd]
        omega
      obtain ⟨calls, outs, s', hrun, hplain, hmoved⟩ := ih hobj₁ hroom₁
      refine ⟨call :: calls, out :: outs, s',
        run_cons_eq_some_iff.mpr ⟨out, s₁, outs, hstep, hrun, rfl⟩, hplain, ?_⟩
      rw [hmoved, hnext, Instance.advance_eq, Nat.succ_mul,
        Nat.add_comm (n * _), ← Nat.add_assoc]
      rfl

/-- The bucket word of any other key lies in an entry of host 0. -/
theorem Lawful.exists_takesAt [Nonempty ι] {key : Key} (hkey : ¬ Near key) :
    ∃ s e size, F.New s ∧ F.TakesAt s e size ∧
      ¬ Apart (entryOffset key) 8 e size := by
  obtain ⟨i⟩ := ‹Nonempty ι›
  have hword := entryOffset_add_le key
  rw [near_iff, not_le] at hkey
  obtain ⟨s, hs⟩ := hF.exists_new fun _ : ι =>
    (Instance.construct Instance.firstHost.dataAddr (some 0)).withValueSize 256
  have hobj : F.instances s i = (Instance.construct Instance.firstHost.dataAddr
      (some 0)).withValueSize 256 := by rw [hs]
  have hplain : Plain (F.instances s i) := by
    rw [hobj]
    exact Plain.construct _ _ (by decide)
  have hcursor : (F.instances s i).nextFreeOffset = 2 ^ 27 := by
    rw [hobj]
    decide
  have hsize : (F.instances s i).entrySize = 328 := by
    rw [hobj]
    rfl
  have hend : (F.instances s i).partitionEnd = 2 ^ 27 + 2 ^ 30 := by
    rw [hobj]
    decide
  -- the entry with the last byte of the word
  obtain ⟨calls, outs, s₁, hrun, hplain₁, hmoved⟩ := hF.reaches
    ((entryOffset key + 7 - 2 ^ 27) / 328) hplain
    (by rw [hcursor, hsize, hend]; omega)
  have hcursor₁ : (F.instances s₁ i).nextFreeOffset =
      2 ^ 27 + (entryOffset key + 7 - 2 ^ 27) / 328 * 328 := by
    rw [hmoved, Instance.moved_nextFreeOffset, hcursor, hsize]
  have hsize₁ : (F.instances s₁ i).entrySize = 328 := by
    rw [hmoved, Instance.moved_entrySize, hsize]
  have hend₁ : (F.instances s₁ i).partitionEnd = 2 ^ 27 + 2 ^ 30 := by
    rw [hmoved, Instance.moved_partitionEnd, hend]
  have hroom : HasRoom (F.instances s₁ i) := by
    rw [HasRoom, hcursor₁, hsize₁, hend₁]
    omega
  obtain ⟨call, out, s₂, hmember, hstep, hinstances⟩ :=
    hF.inserts s₁ i hplain₁ hroom
  have hsmall : 72 + 256 < 2 ^ 31 := by decide
  refine ⟨s, 2 ^ 27 + (entryOffset key + 7 - 2 ^ 27) / 328 * 328, 328,
    ⟨_, _, fun _ => 256, fun _ => hsmall, hs⟩,
    ⟨calls, outs, s₁, call, out, s₂, hrun, hstep, by decide, ?_, ?_⟩, ?_⟩
  · rw [hmember]
    exact hcursor₁
  · rw [hmember, hinstances, Function.update_self, Instance.advance_eq,
      Instance.moved_nextFreeOffset, hcursor₁, hsize₁]
  · unfold Apart
    omega

/-! ### Runs of calm calls -/

omit [DecidableEq ι] hF in
theorem NewApart.arranged {valueSize : Nat} {s : σ}
    (h : F.NewApart valueSize s) :
    ArrangedFor Near valueSize (F.instances s) (F.data s) := by
  obtain ⟨dataAddr, mac, hsmall, hinj, hinstances, hdata⟩ := h
  rw [hinstances, hdata]
  refine .construct dataAddr mac hsmall hinj fun key hkey i => ?_
  have hword := near_iff.mp hkey
  omega

/-- **Run lemma** for the memory. -/
theorem Lawful.arranged_of_run {valueSize : Nat} {s s' : σ}
    (h : F.NewApart valueSize s) {calls : List κ}
    (hcalm : ∀ c ∈ calls, F.Calm valueSize c) {outs : List ω}
    (hrun : run F.step s calls = some (outs, s')) :
    ArrangedFor Near valueSize (F.instances s') (F.data s') := by
  refine run_invariant_all (P := fun s =>
    ArrangedFor Near valueSize (F.instances s) (F.data s)) ?_ h.arranged hcalm
    hrun
  intro s call out s' hs hcall hstep
  cases hkey : F.key call with
  | none => exact hF.keeps valueSize s call out s' hs hcall.1 hkey hstep
  | some key =>
      have hnear := hcall.2 key hkey
      obtain ⟨obj, hobj, heffect⟩ :=
        hF.effect valueSize s call out s' key hs hcall.1 hkey hnear hstep
      rw [hobj]
      exact hs.effect hnear heffect

/-- A system keeps bucket words and entries apart for exactly the keys whose
bucket words are in front of all partitions. -/
theorem Lawful.keepsApart_iff [Nonempty ι] {key : Key} :
    F.KeepsApart key ↔ Near key := by
  constructor
  · intro hkeeps
    by_contra hkey
    obtain ⟨s, e, size, hnew, htakes, hoverlap⟩ := hF.exists_takesAt hkey
    exact hoverlap (hkeeps.apart s e size hnew htakes)
  · intro hkey
    have hword := near_iff.mp hkey
    refine ⟨fun s e size hnew htakes => ?_,
      fun valueSize s calls outs s₁ call out s₂ hnew hcalm hrun hregular
        hcall hstep => ?_,
      fun valueSize s calls outs s₁ hnew hcalm hrun => ?_⟩
    · have hplace := hF.le_of_takesAt hnew htakes
      exact .inl (by omega)
    · have harranged := hF.arranged_of_run hnew hcalm hrun
      obtain ⟨obj, _, heffect⟩ := hF.effect valueSize s₁ call out s₂ key
        harranged hregular hcall hkey hstep
      exact harranged.spares hkey heffect
    · have harranged := hF.arranged_of_run hnew hcalm hrun
      by_cases hzero : bucket (F.data s₁) key = 0
      · exact .inl hzero
      · exact .inr (harranged.pointers key hkey hzero)

end Lawful

end Fleets

/-! ## Both classes -/

section Classes

variable (ι : Type) [DecidableEq ι]

theorem lawful_uprFleets : (uprFleets ι).Lawful where
  takes := by
    rintro f ⟨i, op⟩ reply f' hobj hstep
    obtain ⟨u, hcall, rfl⟩ := uprFleetStep_eq_some_iff.mp hstep
    exact ⟨u.self, rfl, uprStep_takes (hobj i) hcall⟩
  inserts := by
    intro f i hobj hroom
    exact ⟨(i, .insert (fun _ => 0) fun _ => 0), _, _, rfl,
      uprFleetStep_insert hobj hroom _ _, rfl⟩
  effect := by
    rintro valueSize f ⟨i, op⟩ reply f' key h hput hkey hnear hstep
    obtain ⟨u, hcall, rfl⟩ := uprFleetStep_eq_some_iff.mp hstep
    cases hkey
    have hsize : (f.members i).valueSize = valueSize := h.hosts.size i
    have hshort : ShortChain f.data (f.members i).valueSize op.key := by
      rw [hsize]
      exact h.short hnear
    have hend : entryOf f.data op.key ≠ 0 →
        entryOf f.data op.key + (72 + (f.members i).valueSize) ≤ 2 ^ 63 := by
      intro hne
      have hblock : HandedOut valueSize f.members (entryOf f.data op.key) :=
        h.handedOut_entryOf hnear hne
      have hbounds : _ ∧ entryOf f.data op.key + (72 + valueSize) ≤ 2 ^ 39 :=
        h.hosts.bounds hblock
      omega
    obtain ⟨reply', u', hcall', hmade⟩ := uprStep_of_short
      (u := ⟨f.data, f.members i⟩) (h.hosts.plain i)
      (fun hop => hsize.trans (hput hop)) hshort hend
    rw [hcall] at hcall'
    cases hcall'
    exact ⟨u.self, rfl, hmade.effect⟩
  keeps := by
    rintro valueSize f ⟨i, op⟩ reply f' _ _ hkey
    cases hkey
  exists_new := fun instances => ⟨⟨fun _ => 0, instances⟩, rfl⟩

variable {τ : Type} [DecidableEq τ] {n : Nat} [NeZero n]

theorem lawful_gshmFleets (S : TokenScheme τ n) (fuel : Nat) :
    (gshmFleets S fuel ι).Lawful where
  takes := by
    intro f call result f' hobj hstep
    obtain ⟨g, rfl, hend⟩ := fleetCall_endsIn hstep
    exact ⟨g.self, instances_leave f call.member g,
      hend.takes (hobj call.member)⟩
  inserts := by
    intro f i hobj hroom
    obtain ⟨result, g, hcall, hself⟩ := gshmStep_insert (S := S)
      (g := f.view i fun _ => 0) hobj hroom fuel (fun _ => 0) fun _ => 0
    have hmove : fleetCall S fuel f ⟨i, .insert (fun _ => 0) fun _ => 0,
        fun _ => 0⟩ = some (some result, f.leave i g) :=
      fleetCall_of_step hcall
    refine ⟨_, some result, f.leave i g, rfl, hmove, ?_⟩
    show (f.leave i g).instances = _
    rw [instances_leave, hself]
    rfl
  effect := fun valueSize f call result f' key h hregular hkey hnear hstep =>
    h.effect_of_call hregular.2 hkey hnear hstep
  keeps := by
    intro valueSize f call result f' h hregular hkey hstep
    refine h.call hregular (fun key hother => ?_) hstep
    exact absurd (hkey.symm.trans hother) (by simp)
  exists_new := fun instances =>
    ⟨⟨zeroTable S, fun _ => 0, fun i => ⟨S.globalKey, false, instances i⟩⟩, rfl⟩

/-- **Exactly for which keys bucket words and entries are apart**: for those
with a top byte below 64, whichever hosts the objects are on and in both
classes. -/
theorem bucket_apart_iff [Nonempty ι] (S : TokenScheme τ n) (fuel : Nat)
    (key : Key) :
    ((uprFleets ι).KeepsApart key ↔ partitionId key < 64) ∧
      ((gshmFleets S fuel ι).KeepsApart key ↔ partitionId key < 64) :=
  ⟨(lawful_uprFleets ι).keepsApart_iff,
    (lawful_gshmFleets ι S fuel).keepsApart_iff⟩

end Classes

/-- A key with the top byte 64 whose bucket word is the first of its part. -/
def topKey : Key := fun i => if i.val = 7 then 64 else 0

theorem entryOffset_topKey : entryOffset topKey = 2 ^ 27 := by decide

/-- That key, and one with the top byte 7. -/
theorem bucket_apart_iff_two_keys :
    ¬ (uprFleets Bool).KeepsApart topKey ∧
      (gshmFleets shmpScheme 0 Bool).KeepsApart fun _ => 7 :=
  ⟨fun hkeeps => absurd ((bucket_apart_iff Bool shmpScheme 0 topKey).1.mp
      hkeeps) (by decide),
    (bucket_apart_iff Bool shmpScheme 0 fun _ => 7).2.mpr (by decide)⟩

/-- The hosts 0 and 1. -/
def hostZeroOne (i : Bool) : Option UInt8 := if i then some 1 else some 0

/-- Two objects of `gshm_upr` on them. -/
def zeroOneUpr : UprFleet Bool :=
  .construct (fun _ => 0) (fun _ => Instance.firstHost.dataAddr) hostZeroOne

/-- The first entry of host 0 begins with the bucket word of that key, and when
host 1 inserts the key it overwrites the key of host 0's entry. -/
theorem not_bucket_apart_host_zero :
    ∃ replies f reply f',
      run uprFleetStep zeroOneUpr [(false, .insert (fun _ => 0) fun _ => 7)] =
        some (replies, f) ∧
      uprFleetStep f (true, .insert topKey fun _ => 8) = some (reply, f') ∧
      HandedOut 256 f.members (2 ^ 27) ∧
      ¬ Apart (entryOffset topKey) 8 (2 ^ 27) 328 ∧
      ¬ SparesOthers 256 (HandedOut 256 f.members) f.data f'.data topKey := by
  have hsmall : 72 + 256 < 2 ^ 31 := by decide
  have hplain : ∀ i, Plain (zeroOneUpr.members i) := fun i =>
    Plain.construct Instance.firstHost.dataAddr (hostZeroOne i) hsmall
  have hroom : ∀ i, HasRoom (zeroOneUpr.members i) := by decide
  have hstart : (zeroOneUpr.members false).nextFreeOffset = 2 ^ 27 := by decide
  have hstart' : (zeroOneUpr.members true).nextFreeOffset =
      2 ^ 27 + 2 ^ 30 := by decide
  have hsize : ∀ i, (zeroOneUpr.members i).valueSize = 256 := fun _ => rfl
  have hfirst := uprFleetStep_insert (hplain false) (hroom false)
    (fun _ => 0) fun _ => 7
  rw [hstart, hsize] at hfirst
  have hother : Function.update zeroOneUpr.members false
      (zeroOneUpr.members false).advance true = zeroOneUpr.members true :=
    Function.update_of_ne (by decide) _ _
  have hblock : HandedOut 256 (Function.update zeroOneUpr.members false
      (zeroOneUpr.members false).advance) (2 ^ 27) :=
    ⟨false, 0, by decide, by decide⟩
  generalize Function.update zeroOneUpr.members false
    (zeroOneUpr.members false).advance = members at hfirst hother hblock
  have hplain' : Plain (members true) := by
    rw [hother]
    exact hplain true
  have hroom' : HasRoom (members true) := by
    rw [hother]
    exact hroom true
  have hsecond := fun m => uprFleetStep_insert (f := ⟨m, members⟩) hplain'
    hroom' topKey fun _ => 8
  refine ⟨_, _, _, _, run_cons_eq_some_iff.mpr ⟨_, _, _, hfirst, rfl, rfl⟩,
    hsecond _, hblock, ?_, ?_⟩
  · rw [entryOffset_topKey]
    unfold Apart
    decide
  · intro hspares
    have hkey : keyAt (insertEntry zeroOneUpr.data 256 (2 ^ 27) (fun _ => 0)
        fun _ => 7) (2 ^ 27) = fun _ => 0 :=
      keyAt_insertEntry (by decide) (.inr (by decide))
    have hbefore := congrFun hkey 3
    have hne : (fun _ => 0 : Key) ≠ topKey :=
      fun heq => absurd (congrFun heq 7) (by decide)
    have hagree := hspares (2 ^ 27) hblock (by rw [hkey]; exact hne)
      (2 ^ 27 + 3) (by decide) (by decide)
    simp only [hother, hstart', hsize] at hagree
    rw [insertEntry, setBucket, entryOffset_topKey, store_apply (by decide),
      if_pos (by decide)] at hagree
    rw [keyAt, wrap_of_lt (by decide)] at hbefore
    have hdiffer := hagree.trans hbefore
    exact absurd hdiffer (by decide)

end SHMemora.Ports
