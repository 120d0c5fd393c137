import SHMemora.Ports.UprThreads

/-!
# What a walk can meet

Calls of `gshm_upr` objects on hosts of their own, with their accesses
interleaved.  An entry is filled before its offset is put into a bucket word,
and its object moves on to the next block only then: whatever a bucket word
leads to, now or when another object has read it, lies below some cursor and
has been filled.  From then on its key stays, its next pointer stays zero, and
its value is overwritten by calls with the same key only, also after it has
been unlinked.

`StoreSound` says this of the data area, `ObjectSound` what an object knows
between two accesses, and `Leaves` what a step of one object leaves alone of
what another one knows.

## Main results

* `publication_safe` — a `get` that returns `true` delivers a value that a call
  begun before was given for the key, and no object is about to access an entry
  of which a field has not been written.
-/

namespace SHMemora.Ports

open SHMemora.Verified.ByteMemory
open SHMemora.Verified.StepRun
open SHMemora.Verified.ThreadPool

/-! ## The assertions -/

/-- The value a call is given to store. -/
def UprOp.given : UprOp → Option Bytes
  | .get _ _ => none
  | .update _ value => some value
  | .insert _ value => some value
  | .put _ value => some value
  | .del _ => none

/-- One of the calls begun was given the 256 bytes of `value` for `key`. -/
def GivenFor (begun : List UprOp) (key : Key) (value : Bytes) : Prop :=
  ∃ op ∈ begun, op.key = key ∧ ∃ given, op.given = some given ∧
    ∀ k, k < 256 → value k = given k

/-- The value in the entry at `e`. -/
def valueAt (m : Bytes) (e : Nat) : Bytes := fun k => m (e + 64 + k)

section Publication

variable {ι : Type}

/-- The data area between two accesses. -/
structure StoreSound (σ : UprShared ι) : Prop where
  hosts : OwnHosts σ.members
  chained : Chained 256 (Allocated σ.members) σ.data
  written : ∀ e, Allocated σ.members e → ∀ field, (field, e) ∈ σ.written
  given : ∀ e, Allocated σ.members e →
    GivenFor σ.begun (keyAt σ.data e) (valueAt σ.data e)

/-- What object `i` fills, and where. -/
structure Fills (i : ι) (filling : Filling) (σ : UprShared ι) : Prop where
  begun : filling.op ∈ σ.begun
  key : filling.op.key = filling.key
  given : filling.op.given = some filling.value
  start : filling.start = (σ.members i).nextFreeOffset
  valueSize : filling.valueSize = 256
  step : filling.step = some 328
  room : HasRoom (σ.members i)

/-- The key of a new entry has been written. -/
def KeyPlaced (filling : Filling) (σ : UprShared ι) : Prop :=
  keyAt σ.data filling.start = filling.key ∧
    (.key, filling.start) ∈ σ.written

/-- The value of a new entry has been written. -/
def ValuePlaced (filling : Filling) (σ : UprShared ι) : Prop :=
  (∀ k, k < 256 → valueAt σ.data filling.start k = filling.value k) ∧
    (.value, filling.start) ∈ σ.written

/-- The next pointer of a new entry has been written. -/
def NextPlaced (filling : Filling) (σ : UprShared ι) : Prop :=
  nextEntry σ.data 320 filling.start = 0 ∧
    (.next, filling.start) ∈ σ.written

/-- What object `i` knows before its next access. -/
def ObjectSound (i : ι) (phase : UprPhase) (σ : UprShared ι) : Prop :=
  match phase with
  | .idle => True
  | .readBucket search => search.op ∈ σ.begun
  | .compare search prevNextPtr entry =>
      search.op ∈ σ.begun ∧ prevNextPtr = entryOffset search.key ∧
        Allocated σ.members entry
  | .readNext search entry =>
      search.op ∈ σ.begun ∧ Allocated σ.members entry
  | .readValue key _ entry =>
      Allocated σ.members entry ∧ keyAt σ.data entry = key
  | .overwrite op value size entry =>
      op ∈ σ.begun ∧ op.given = some value ∧ size = 256 ∧
        Allocated σ.members entry ∧ keyAt σ.data entry = op.key
  | .readSuccessor key prevNextPtr entry =>
      prevNextPtr = entryOffset key ∧ Allocated σ.members entry
  | .writeLink key prevNextPtr nextEntry =>
      prevNextPtr = entryOffset key ∧ nextEntry = 0
  | .writeKey filling => Fills i filling σ
  | .writeValue filling => Fills i filling σ ∧ KeyPlaced filling σ
  | .writeNext filling =>
      Fills i filling σ ∧ KeyPlaced filling σ ∧ ValuePlaced filling σ
  | .writeBucket filling =>
      Fills i filling σ ∧ KeyPlaced filling σ ∧ ValuePlaced filling σ ∧
        NextPlaced filling σ

/-- What a step of another object leaves alone of what object `i` knows. -/
structure Leaves (i : ι) (σ σ' : UprShared ι) : Prop where
  begun : σ.begun ⊆ σ'.begun
  written : σ.written ⊆ σ'.written
  member : σ'.members i = σ.members i
  allocated : ∀ e, Allocated σ.members e → Allocated σ'.members e
  keys : ∀ e, Allocated σ.members e → keyAt σ'.data e = keyAt σ.data e
  own : HasRoom (σ.members i) →
    Agree σ.data σ'.data (σ.members i).nextFreeOffset 328

variable {σ σ' : UprShared ι} {i : ι}

/-- The block an object fills ends below the middle of the address space. -/
theorem Fills.end_le {filling : Filling} (h : Fills i filling σ)
    (hσ : OwnHosts σ.members) : filling.start + 328 ≤ 2 ^ 63 := by
  have hroom := h.room
  have hplace := hσ.place i
  have hsizes := (hσ.plain i).sizes
  have hsize := hσ.size i
  rw [h.start]
  unfold HasRoom at hroom
  omega

/-! ## Interference -/

namespace Leaves

variable (h : Leaves i σ σ')
include h

theorem fills {filling : Filling} (hfills : Fills i filling σ) :
    Fills i filling σ' := by
  refine ⟨h.begun hfills.begun, hfills.key, hfills.given, ?_,
    hfills.valueSize, hfills.step, ?_⟩
  · rw [h.member]
    exact hfills.start
  · rw [h.member]
    exact hfills.room

/-- The block an object fills. -/
theorem agree_start {filling : Filling} (hfills : Fills i filling σ) :
    Agree σ.data σ'.data filling.start 328 := by
  rw [hfills.start]
  exact h.own hfills.room

theorem valuePlaced {filling : Filling} (hfills : Fills i filling σ)
    (hplaced : ValuePlaced filling σ) : ValuePlaced filling σ' := by
  refine ⟨fun k hk => ?_, h.written hplaced.2⟩
  rw [valueAt, h.agree_start hfills _ (by omega) (by omega)]
  exact hplaced.1 k hk

variable (hσ : OwnHosts σ.members)
include hσ

theorem keyPlaced {filling : Filling} (hfills : Fills i filling σ)
    (hplaced : KeyPlaced filling σ) : KeyPlaced filling σ' := by
  have hle := hfills.end_le hσ
  refine ⟨?_, h.written hplaced.2⟩
  rw [keyAt_congr (by omega)
    ((h.agree_start hfills).mono (Nat.le_refl _) (by omega))]
  exact hplaced.1

theorem nextPlaced {filling : Filling} (hfills : Fills i filling σ)
    (hplaced : NextPlaced filling σ) : NextPlaced filling σ' := by
  have hle := hfills.end_le hσ
  have hsame : nextEntry σ'.data (64 + 256) filling.start =
      nextEntry σ.data (64 + 256) filling.start :=
    nextEntry_congr (by omega) (h.agree_start hfills)
  exact ⟨hsame.trans hplaced.1, h.written hplaced.2⟩

/-- **Interference lemma**: an object goes on knowing what it knows. -/
theorem objectSound {phase : UprPhase} (hobject : ObjectSound i phase σ) :
    ObjectSound i phase σ' := by
  cases phase with
  | idle => exact trivial
  | readBucket search => exact h.begun hobject
  | compare search prevNextPtr entry =>
      exact ⟨h.begun hobject.1, hobject.2.1, h.allocated _ hobject.2.2⟩
  | readNext search entry =>
      exact ⟨h.begun hobject.1, h.allocated _ hobject.2⟩
  | readValue key value entry =>
      exact ⟨h.allocated _ hobject.1,
        (h.keys _ hobject.1).trans hobject.2⟩
  | overwrite op value size entry =>
      rcases hobject with ⟨hbegun, hgiven, hsize, halloc, hkey⟩
      exact ⟨h.begun hbegun, hgiven, hsize, h.allocated _ halloc,
        (h.keys _ halloc).trans hkey⟩
  | readSuccessor key prevNextPtr entry =>
      exact ⟨hobject.1, h.allocated _ hobject.2⟩
  | writeLink key prevNextPtr nextEntry => exact hobject
  | writeKey filling => exact h.fills hobject
  | writeValue filling =>
      exact ⟨h.fills hobject.1, h.keyPlaced hσ hobject.1 hobject.2⟩
  | writeNext filling =>
      rcases hobject with ⟨hfills, hkey, hvalue⟩
      exact ⟨h.fills hfills, h.keyPlaced hσ hfills hkey,
        h.valuePlaced hfills hvalue⟩
  | writeBucket filling =>
      rcases hobject with ⟨hfills, hkey, hvalue, hnext⟩
      exact ⟨h.fills hfills, h.keyPlaced hσ hfills hkey,
        h.valuePlaced hfills hvalue, h.nextPlaced hσ hfills hnext⟩

end Leaves

/-! ## What a step does -/

theorem GivenFor.mono {begun begun' : List UprOp} {key : Key} {value : Bytes}
    (h : GivenFor begun key value) (hsub : begun ⊆ begun') :
    GivenFor begun' key value := by
  rcases h with ⟨op, hmem, hrest⟩
  exact ⟨op, hsub hmem, hrest⟩

/-- A value goes with its key as long as neither is touched. -/
theorem GivenFor.congr {begun : List UprOp} {m m' : Bytes} {e : Nat}
    (h : GivenFor begun (keyAt m e) (valueAt m e))
    (hend : e + 328 ≤ 2 ^ 63) (hagree : Agree m m' e 328) :
    GivenFor begun (keyAt m' e) (valueAt m' e) := by
  rcases h with ⟨op, hmem, hkey, given, hgiven, hvalue⟩
  rw [keyAt_congr (by omega) (hagree.mono (Nat.le_refl _) (by omega))]
  refine ⟨op, hmem, hkey, given, hgiven, fun k hk => ?_⟩
  rw [valueAt, hagree _ (by omega) (by omega)]
  exact hvalue k hk

namespace StoreSound

variable (h : StoreSound σ)
include h

theorem end_le {e : Nat} (he : Allocated σ.members e) : e + 328 ≤ 2 ^ 63 :=
  h.hosts.blockSet.end_le e he

theorem begin (op : UprOp) :
    StoreSound { σ with begun := op :: σ.begun } :=
  ⟨h.hosts, h.chained, h.written,
    fun e he => (h.given e he).mono (List.subset_cons_self _ _)⟩

/-- The value of an entry is overwritten by a call with its key. -/
theorem overwrite {op : UprOp} {e : Nat} {value : Bytes}
    (hop : op ∈ σ.begun) (hgiven : op.given = some value)
    (he : Allocated σ.members e) (hkey : keyAt σ.data e = op.key) :
    StoreSound { σ with data := Ports.writeValue σ.data 256 e value } := by
  have hset := h.hosts.blockSet
  refine ⟨h.hosts, h.chained.writeValue hset he value, h.written,
    fun e' he' => ?_⟩
  have hle := h.end_le he
  have hle' := h.end_le he'
  by_cases heq : e' = e
  · rw [heq]
    have hsame : keyAt (Ports.writeValue σ.data 256 e value) e =
        keyAt σ.data e :=
      keyAt_congr (by omega)
        (agree_writeValue hle (hset.key_apart_value he he))
    refine ⟨op, hop, (hsame.trans hkey).symm, value, hgiven, fun k hk => ?_⟩
    exact value_writeValue hle hk
  · have hapart := hset.apart e' e he' he heq
    apply (h.given e' he').congr hle'
    apply agree_writeValue hle
    unfold Apart at hapart ⊢
    omega

/-- A bucket word is zeroed. -/
theorem unlink (key : Key) :
    StoreSound { σ with data := setBucket σ.data key 0 } := by
  have hset := h.hosts.blockSet
  refine ⟨h.hosts, h.chained.emptyBucket hset key, h.written,
    fun e he => (h.given e he).congr (h.end_le he) ?_⟩
  exact hset.agree_setBucket he key 0

variable [DecidableEq ι]

/-- Something is written in the next block of an object. -/
theorem fill (hroom : HasRoom (σ.members i)) {m : Bytes}
    (field : EntryField)
    (hagree : ∀ a k, Apart a k (σ.members i).nextFreeOffset 328 →
      Agree σ.data m a k) :
    StoreSound { σ with
      data := m
      written := (field, (σ.members i).nextFreeOffset) :: σ.written } := by
  have hset := h.hosts.blockSet_next hroom
  have hnew := h.hosts.not_allocated_next hroom
  refine ⟨h.hosts, h.chained.fill hset hnew hagree,
    fun e he f => List.mem_cons_of_mem _ (h.written e he f), fun e he => ?_⟩
  have hne : e ≠ (σ.members i).nextFreeOffset := fun heq => hnew (heq ▸ he)
  exact (h.given e he).congr (h.end_le he)
    (hagree e 328 (hset.apart e _ (.inl he) (.inr rfl) hne))

/-- A filled block is put into the bucket word. -/
theorem publish {filling : Filling} (hfills : Fills i filling σ)
    (hkey : KeyPlaced filling σ) (hvalue : ValuePlaced filling σ)
    (hnext : NextPlaced filling σ) :
    StoreSound { σ with
      data := setBucket σ.data filling.key filling.start
      members := Function.update σ.members i (σ.members i).advance } := by
  have hstart := hfills.start
  have hiff : ∀ e, Allocated (Function.update σ.members i
      (σ.members i).advance) e ↔
        Allocated σ.members e ∨ e = filling.start := by
    rw [hstart]
    exact h.hosts.allocated_advance_iff i
  have hset : BlockSet 256 fun e =>
      Allocated σ.members e ∨ e = filling.start := by
    rw [hstart]
    exact h.hosts.blockSet_next hfills.room
  have hagree : ∀ e, Allocated σ.members e ∨ e = filling.start →
      Agree σ.data (setBucket σ.data filling.key filling.start) e 328 :=
    fun e he => hset.agree_setBucket he filling.key filling.start
  refine ⟨h.hosts.advance hfills.room, ?_, fun e he field => ?_,
    fun e he => ?_⟩
  · exact (h.chained.link hset hnext.1 (by rw [hkey.1])).congr hiff
  · rcases (hiff e).mp he with hold | hnew
    · exact h.written e hold field
    · rw [hnew]
      cases field
      · exact hkey.2
      · exact hvalue.2
      · exact hnext.2
  · rcases (hiff e).mp he with hold | hnew
    · exact (h.given e hold).congr (h.end_le hold) (hagree e (.inl hold))
    · rw [hnew]
      have hnow : GivenFor σ.begun (keyAt σ.data filling.start)
          (valueAt σ.data filling.start) :=
        ⟨filling.op, hfills.begun, hfills.key.trans hkey.1.symm,
          filling.value, hfills.given, hvalue.1⟩
      exact hnow.congr (hset.end_le _ (.inr rfl)) (hagree _ (.inr rfl))

end StoreSound

/-! ## What a step leaves to the others -/

namespace Leaves

theorem refl (i : ι) (σ : UprShared ι) : Leaves i σ σ :=
  ⟨List.Subset.refl _, List.Subset.refl _, rfl, fun _ he => he,
    fun _ _ => rfl, fun _ => Agree.refl _ _ _⟩

theorem begin (i : ι) (σ : UprShared ι) (op : UprOp) :
    Leaves i σ { σ with begun := op :: σ.begun } :=
  ⟨List.subset_cons_self _ _, List.Subset.refl _, rfl, fun _ he => he,
    fun _ _ => rfl, fun _ => Agree.refl _ _ _⟩

variable (h : StoreSound σ)
include h

/-- A bucket word is written. -/
theorem bucket (i : ι) (key : Key) (w : Nat) :
    Leaves i σ { σ with data := setBucket σ.data key w } := by
  have hend := entryOffset_add_le key
  refine ⟨List.Subset.refl _, List.Subset.refl _, rfl, fun _ he => he,
    fun e he => ?_, fun _ => ?_⟩
  · have hbehind := h.hosts.blockSet.behind e he
    have hle := h.end_le he
    exact keyAt_congr (by omega) (agree_setBucket (.inr (by omega)))
  · have hplace := h.hosts.place i
    have hpos := h.hosts.host_pos i
    exact agree_setBucket (.inr (by omega))

variable [DecidableEq ι]

/-- The value of an entry is overwritten. -/
theorem overwrite (i : ι) {e : Nat} (he : Allocated σ.members e)
    (value : Bytes) :
    Leaves i σ { σ with data := Ports.writeValue σ.data 256 e value } := by
  have hset := h.hosts.blockSet
  have hle := h.end_le he
  refine ⟨List.Subset.refl _, List.Subset.refl _, rfl, fun _ he => he,
    fun e' he' => ?_, fun hroom => ?_⟩
  · have hle' := h.end_le he'
    exact keyAt_congr (by omega)
      (agree_writeValue hle (hset.key_apart_value he he'))
  · have hnew := h.hosts.not_allocated_next hroom
    have hapart := (h.hosts.blockSet_next hroom).apart _ e (.inr rfl)
      (.inl he) fun heq => hnew (heq ▸ he)
    apply agree_writeValue hle
    unfold Apart at hapart ⊢
    omega

/-- Another object writes in its next block. -/
theorem fill {j : ι} (hne : i ≠ j) (hroom : HasRoom (σ.members j))
    {m : Bytes} (field : EntryField)
    (hagree : ∀ a k, Apart a k (σ.members j).nextFreeOffset 328 →
      Agree σ.data m a k) :
    Leaves i σ { σ with
      data := m
      written := (field, (σ.members j).nextFreeOffset) :: σ.written } := by
  have hnew := h.hosts.not_allocated_next hroom
  refine ⟨List.Subset.refl _, List.subset_cons_self _ _, rfl,
    fun _ he => he, fun e he => ?_, fun hroom' => ?_⟩
  · have hle := h.end_le he
    have hapart := (h.hosts.blockSet_next hroom).apart e _ (.inl he)
      (.inr rfl) fun heq => hnew (heq ▸ he)
    exact keyAt_congr (by omega)
      ((hagree e 328 hapart).mono (Nat.le_refl _) (by omega))
  · exact hagree _ _ (h.hosts.next_apart hne hroom' hroom)

/-- Another object puts its new entry into a bucket word. -/
theorem publish {j : ι} (hne : i ≠ j) (key : Key) (w : Nat) :
    Leaves i σ { σ with
      data := setBucket σ.data key w
      members := Function.update σ.members j (σ.members j).advance } := by
  have hbucket := Leaves.bucket h i key w
  refine ⟨hbucket.begun, hbucket.written, Function.update_of_ne hne ..,
    fun e he => ?_, hbucket.keys, hbucket.own⟩
  exact (h.hosts.allocated_advance_iff j e).mpr (.inl he)

end Leaves

/-! ## One turn -/

section Turns

/-- What `put` does behind a walk that has found nothing. -/
theorem missing_sound (h : StoreSound σ) {search : Search}
    (hbegun : search.op ∈ σ.begun) :
    ObjectSound i (search.missing (σ.seenBy i)).2 σ := by
  cases search with
  | get key value => exact trivial
  | update key value => exact trivial
  | del key => exact trivial
  | put key value =>
      have hplain := h.hosts.plain i
      have hsize := h.hosts.size i
      have hsizes := hplain.sizes
      rw [Search.missing]
      split
      · exact trivial
      · rename_i hnotFull
        refine ⟨hbegun, rfl, rfl, rfl, rfl, rfl, ?_⟩
        have hentry : (σ.members i).entrySize = 328 := by omega
        apply Classical.byContradiction
        intro hfull
        apply hnotFull
        have hwrap := hplain.full_iff.mpr hfull
        rw [hentry] at hwrap
        exact hwrap

/-- The condition of the loop at the head of a chain. -/
theorem visit_sound (h : StoreSound σ) {search : Search}
    (hbegun : search.op ∈ σ.begun) {entry : Nat}
    (hentry : entry ≠ 0 → Allocated σ.members entry) :
    ObjectSound i
      (search.visit (σ.seenBy i) (entryOffset search.key) entry).2 σ := by
  rw [Search.visit]
  split
  · exact missing_sound h hbegun
  · rename_i hne
    exact ⟨hbegun, rfl, hentry hne⟩

/-- Where the walk goes from an entry with the key. -/
theorem found_sound (h : StoreSound σ) {search : Search}
    (hbegun : search.op ∈ σ.begun) {entry : Nat}
    (halloc : Allocated σ.members entry)
    (hkey : keyAt σ.data entry = search.key) :
    ObjectSound i
      (search.found (σ.seenBy i) (entryOffset search.key) entry) σ := by
  cases search with
  | get key value => exact ⟨halloc, hkey⟩
  | update key value => exact ⟨hbegun, rfl, h.hosts.size i, halloc, hkey⟩
  | put key value => exact ⟨hbegun, rfl, rfl, halloc, hkey⟩
  | del key => exact ⟨rfl, halloc⟩

/-- Every entry is the last of its chain. -/
theorem link_zero (h : StoreSound σ) (search : Search) {entry : Nat}
    (halloc : Allocated σ.members entry) :
    nextEntry σ.data (search.link (σ.seenBy i)) entry = 0 := by
  have hlink : search.link (σ.seenBy i) = 64 + 256 := by
    have hsize := h.hosts.size i
    cases search with
    | get key value => exact congrArg (64 + ·) hsize
    | update key value => exact congrArg (64 + ·) hsize
    | put key value => rfl
    | del key => exact congrArg (64 + ·) hsize
  rw [hlink]
  exact h.chained.last entry halloc

variable [DecidableEq ι] {p : UprPool ι} {phase : UprPhase} {o : UprEvent}

omit [DecidableEq ι] in
/-- A turn of an object that writes. -/
theorem turn_write (h : Annotated StoreSound ObjectSound p)
    {σ' : UprShared ι} (hstore : StoreSound σ')
    (hown : ObjectSound i phase σ')
    (hleaves : ∀ j, j ≠ i → Leaves j p.shared σ') :
    TurnSound StoreSound ObjectSound p i phase σ' :=
  ⟨hstore, hown,
    fun j hj => (hleaves j hj).objectSound h.common.hosts (h.each j)⟩

/-- A turn of an object that fills its next block. -/
theorem turn_writeField (h : Annotated StoreSound ObjectSound p)
    {filling : Filling} (hfills : Fills i filling p.shared)
    (field : EntryField) {m : Bytes}
    (hagree : ∀ a k, Apart a k filling.start 328 → Agree p.shared.data m a k)
    (hown : ObjectSound i phase { p.shared with
      data := m
      written := (field, filling.start) :: p.shared.written }) :
    TurnSound StoreSound ObjectSound p i phase { p.shared with
      data := m
      written := (field, filling.start) :: p.shared.written } := by
  rw [hfills.start] at hagree hown ⊢
  exact turn_write h (h.common.fill hfills.room field hagree) hown
    fun j hj => Leaves.fill h.common hj hfills.room field hagree

/-- The key goes into the new entry. -/
theorem turn_writeKey (h : Annotated StoreSound ObjectSound p)
    {filling : Filling} (hphase : p.phase i = .writeKey filling)
    {σ' : UprShared ι}
    (hact : uprTurn i none (p.phase i) p.shared = some (o, phase, σ')) :
    TurnSound StoreSound ObjectSound p i phase σ' := by
  have hfills : Fills i filling p.shared := by
    have hown := h.each i
    rw [hphase] at hown
    exact hown
  have hle := hfills.end_le h.common.hosts
  rw [hphase, uprTurn_writeKey _ _ (by omega)] at hact
  cases hact
  refine turn_writeField h hfills .key (fun a k hapart => ?_) ?_
  · apply agree_store (by omega)
    unfold Apart at hapart ⊢
    omega
  · refine ⟨⟨hfills.begun, hfills.key, hfills.given, hfills.start,
      hfills.valueSize, hfills.step, hfills.room⟩, ?_, List.mem_cons_self⟩
    exact keyAt_store_self (by omega)

/-- The value goes into the new entry. -/
theorem turn_writeValue (h : Annotated StoreSound ObjectSound p)
    {filling : Filling} (hphase : p.phase i = .writeValue filling)
    {σ' : UprShared ι}
    (hact : uprTurn i none (p.phase i) p.shared = some (o, phase, σ')) :
    TurnSound StoreSound ObjectSound p i phase σ' := by
  have hown := h.each i
  rw [hphase] at hown hact
  rcases hown with ⟨hfills, hkey⟩
  have hle := hfills.end_le h.common.hosts
  rw [uprTurn_writeValue _ _ (by omega), hfills.valueSize] at hact
  cases hact
  refine turn_writeField h hfills .value (fun a k hapart => ?_) ?_
  · apply agree_store (by omega)
    unfold Apart at hapart ⊢
    omega
  · have hsame : keyAt (store p.shared.data (filling.start + 64)
        filling.value 256) filling.start =
          keyAt p.shared.data filling.start :=
      keyAt_congr (by omega) (agree_store (by omega) (.inl (Nat.le_refl _)))
    refine ⟨⟨hfills.begun, hfills.key, hfills.given, hfills.start,
      hfills.valueSize, hfills.step, hfills.room⟩,
      ⟨hsame.trans hkey.1, List.mem_cons_of_mem _ hkey.2⟩,
      fun k hk => ?_, List.mem_cons_self⟩
    show store p.shared.data (filling.start + 64) filling.value 256
      (filling.start + 64 + k) = filling.value k
    rw [store_apply (by omega), if_pos (by omega), Nat.add_sub_cancel_left]

/-- The next pointer goes into the new entry. -/
theorem turn_writeNext (h : Annotated StoreSound ObjectSound p)
    {filling : Filling} (hphase : p.phase i = .writeNext filling)
    {σ' : UprShared ι}
    (hact : uprTurn i none (p.phase i) p.shared = some (o, phase, σ')) :
    TurnSound StoreSound ObjectSound p i phase σ' := by
  have hown := h.each i
  rw [hphase] at hown hact
  rcases hown with ⟨hfills, hkey, hvalue⟩
  have hle := hfills.end_le h.common.hosts
  have hsize := hfills.valueSize
  rw [uprTurn_writeNext _ _ (by omega), hsize] at hact
  cases hact
  have hentry : Agree p.shared.data (store p.shared.data
      (filling.start + 320) (ofWord 0) 8) filling.start 320 :=
    agree_store (by omega) (.inl (Nat.le_refl _))
  refine turn_writeField h hfills .next (fun a k hapart => ?_) ?_
  · apply agree_store (by omega)
    unfold Apart at hapart ⊢
    omega
  · have hsame : keyAt (store p.shared.data (filling.start + 320) (ofWord 0) 8)
        filling.start = keyAt p.shared.data filling.start :=
      keyAt_congr (by omega) (hentry.mono (Nat.le_refl _) (by omega))
    refine ⟨⟨hfills.begun, hfills.key, hfills.given, hfills.start,
      hfills.valueSize, hfills.step, hfills.room⟩,
      ⟨hsame.trans hkey.1, List.mem_cons_of_mem _ hkey.2⟩,
      ⟨fun k hk => ?_, List.mem_cons_of_mem _ hvalue.2⟩, ?_,
      List.mem_cons_self⟩
    · have hbyte := hentry (filling.start + 64 + k) (by omega) (by omega)
      exact hbyte.trans (hvalue.1 k hk)
    · show nextEntry (store p.shared.data (filling.start + 320) (ofWord 0) 8)
        320 filling.start = 0
      rw [nextEntry, wrap_of_lt (by omega)]
      exact loadWord_store_self (by omega) (by decide)

/-- The new entry is put into the bucket word. -/
theorem turn_writeBucket (h : Annotated StoreSound ObjectSound p)
    {filling : Filling} (hphase : p.phase i = .writeBucket filling)
    {σ' : UprShared ι}
    (hact : uprTurn i none (p.phase i) p.shared = some (o, phase, σ')) :
    TurnSound StoreSound ObjectSound p i phase σ' := by
  have hown := h.each i
  rw [hphase] at hown hact
  rcases hown with ⟨hfills, hkey, hvalue, hnext⟩
  have hplain := h.common.hosts.plain i
  have hsize := h.common.hosts.size i
  have hsizes := hplain.sizes
  have hentry : (p.shared.members i).entrySize = 328 := by omega
  have hstep : filling.step = some (p.shared.members i).entrySize := by
    rw [hfills.step, hentry]
  rw [uprTurn_writeBucket _ _ hplain hstep] at hact
  cases hact
  exact turn_write h (h.common.publish hfills hkey hvalue hnext) trivial
    fun j hj => Leaves.publish h.common hj filling.key filling.start

/-- The value of an entry is overwritten. -/
theorem turn_overwrite (h : Annotated StoreSound ObjectSound p)
    {op : UprOp} {value : Bytes} {size entry : Nat}
    (hphase : p.phase i = .overwrite op value size entry)
    {σ' : UprShared ι}
    (hact : uprTurn i none (p.phase i) p.shared = some (o, phase, σ')) :
    TurnSound StoreSound ObjectSound p i phase σ' := by
  have hown := h.each i
  rw [hphase] at hown hact
  rcases hown with ⟨hop, hgiven, hsize, halloc, hkey⟩
  have hle := h.common.end_le halloc
  rw [uprTurn_overwrite _ _ _ _ _ (by omega), hsize] at hact
  cases hact
  exact turn_write h (h.common.overwrite hop hgiven halloc hkey) trivial
    fun j _ => Leaves.overwrite h.common j halloc value

/-- `del` puts the successor, which is zero, into the bucket word. -/
theorem turn_writeLink (h : Annotated StoreSound ObjectSound p)
    {key : Key} {prevNextPtr nextEntry : Nat}
    (hphase : p.phase i = .writeLink key prevNextPtr nextEntry)
    {σ' : UprShared ι}
    (hact : uprTurn i none (p.phase i) p.shared = some (o, phase, σ')) :
    TurnSound StoreSound ObjectSound p i phase σ' := by
  have hown := h.each i
  rw [hphase] at hown hact
  rcases hown with ⟨rfl, rfl⟩
  rw [uprTurn_writeLink] at hact
  cases hact
  exact turn_write h (h.common.unlink key) trivial
    fun j _ => Leaves.bucket h.common j key 0

/-- A call that walks along a chain begins. -/
theorem turn_beginSearch (h : Annotated StoreSound ObjectSound p)
    (search : Search) {σ' : UprShared ι}
    (hact : uprTurn i (some search.op) .idle p.shared =
      some (o, phase, σ')) :
    TurnSound StoreSound ObjectSound p i phase σ' := by
  rw [uprTurn_begin] at hact
  cases hact
  exact turn_write h (h.common.begin search.op) List.mem_cons_self
    fun j _ => Leaves.begin j p.shared search.op

/-- An `insert` begins. -/
theorem turn_beginInsert (h : Annotated StoreSound ObjectSound p) (key : Key)
    (value : Bytes) {σ' : UprShared ι}
    (hact : uprTurn i (some (.insert key value)) .idle p.shared =
      some (o, phase, σ')) :
    TurnSound StoreSound ObjectSound p i phase σ' := by
  have hplain := h.common.hosts.plain i
  have hstore := h.common.begin (.insert key value)
  have hleaves : ∀ j, j ≠ i → Leaves j p.shared
      { p.shared with begun := .insert key value :: p.shared.begun } :=
    fun j _ => Leaves.begin j p.shared _
  by_cases hroom : HasRoom (p.shared.members i)
  · have hsize := h.common.hosts.size i
    have hsizes := hplain.sizes
    rw [uprTurn_insert_of_room _ _ hplain hroom] at hact
    cases hact
    refine turn_write h hstore ?_ hleaves
    refine ⟨List.mem_cons_self, rfl, rfl, rfl, hsize, ?_, hroom⟩
    show some (p.shared.members i).entrySize = some 328
    rw [hsizes, hsize]
  · rw [uprTurn_insert_of_full _ _ hplain hroom] at hact
    cases hact
    exact turn_write h hstore trivial hleaves

/-- **Turn lemma**: whatever an object does next, the assertions are kept. -/
theorem uprTurn_sound (h : Annotated StoreSound ObjectSound p)
    {op : Option UprOp} {σ' : UprShared ι}
    (hact : uprTurn i op (p.phase i) p.shared = some (o, phase, σ')) :
    TurnSound StoreSound ObjectSound p i phase σ' := by
  have hown := h.each i
  cases op with
  | some op =>
      have hidle : p.phase i = .idle := by
        cases hphase : p.phase i <;> rw [hphase] at hact <;> cases hact
      rw [hidle] at hact
      cases op with
      | get key value => exact turn_beginSearch h (.get key value) hact
      | update key value => exact turn_beginSearch h (.update key value) hact
      | put key value => exact turn_beginSearch h (.put key value) hact
      | del key => exact turn_beginSearch h (.del key) hact
      | insert key value => exact turn_beginInsert h key value hact
  | none =>
      cases hphase : p.phase i
      case idle =>
        rw [hphase] at hact
        cases hact
      case readBucket search =>
        rw [hphase] at hown hact
        rw [uprTurn_readBucket] at hact
        cases hact
        exact h.quiet (visit_sound h.common hown
          (h.common.chained.pointers search.key))
      case compare search prevNextPtr entry =>
        rw [hphase] at hown hact
        rcases hown with ⟨hbegun, rfl, halloc⟩
        rw [uprTurn_compare] at hact
        split at hact
        · rename_i hkey
          cases hact
          exact h.quiet (found_sound h.common hbegun halloc hkey)
        · cases hact
          exact h.quiet ⟨hbegun, halloc⟩
      case readNext search entry =>
        rw [hphase] at hown hact
        rw [uprTurn_readNext, link_zero h.common search hown.2, Search.visit,
          if_pos rfl] at hact
        cases hact
        exact h.quiet (missing_sound h.common hown.1)
      case readValue key value entry =>
        rw [hphase] at hact
        simp only [uprTurn, uprAccess, Option.map_some, UprPhase.writes,
          leftBy_seenBy] at hact
        cases hact
        exact h.quiet trivial
      case overwrite => exact turn_overwrite h hphase hact
      case readSuccessor key prevNextPtr entry =>
        rw [hphase] at hown hact
        rw [uprTurn_readSuccessor] at hact
        cases hact
        exact h.quiet ⟨hown.1, link_zero h.common (.del key) hown.2⟩
      case writeLink => exact turn_writeLink h hphase hact
      case writeKey => exact turn_writeKey h hphase hact
      case writeValue => exact turn_writeValue h hphase hact
      case writeNext => exact turn_writeNext h hphase hact
      case writeBucket => exact turn_writeBucket h hphase hact

end Turns

/-! ## What the assertions say -/

/-- The entry an object is about to access, if it has come to it by a pointer.
`writeLink` accesses an entry unless it writes the bucket word; `link` is the
place of the next pointer. -/
def UprPhase.follows (link : Nat) : UprPhase → Option Nat
  | .compare _ _ entry => some entry
  | .readNext _ entry => some entry
  | .readValue _ _ entry => some entry
  | .overwrite _ _ _ entry => some entry
  | .readSuccessor _ _ entry => some entry
  | .writeLink key prevNextPtr _ =>
      if prevNextPtr = entryOffset key then none
      else some (prevNextPtr - link)
  | _ => none

/-- Pointers lead to blocks that have been allocated. -/
theorem ObjectSound.allocated_of_follows {phase : UprPhase}
    (h : ObjectSound i phase σ) {link e : Nat}
    (hfollows : phase.follows link = some e) : Allocated σ.members e := by
  cases phase with
  | compare search prevNextPtr entry => cases hfollows; exact h.2.2
  | readNext search entry => cases hfollows; exact h.2
  | readValue key value entry => cases hfollows; exact h.1
  | overwrite op value size entry => cases hfollows; exact h.2.2.2.1
  | readSuccessor key prevNextPtr entry => cases hfollows; exact h.2
  | writeLink key prevNextPtr nextEntry =>
      rw [UprPhase.follows, if_pos h.1] at hfollows
      cases hfollows
  | _ => cases hfollows

section Runs

variable [DecidableEq ι] {p p' : UprPool ι}

omit [DecidableEq ι] in
/-- A walk that has come to an end answers `false`. -/
theorem Search.visit_ne_true (u : GshmUpr) (search : Search)
    (prevNextPtr entry : Nat) (op : UprOp) (value : Bytes) :
    (search.visit u prevNextPtr entry).1 ≠
      .returned op (.fetched true value) := by
  unfold Search.visit
  split
  · cases search
    case put =>
      rw [Search.missing]
      split <;> simp
    all_goals simp [Search.missing]
  · simp

omit [DecidableEq ι] in
theorem beginCall_ne_true (u : GshmUpr) (op op' : UprOp) (value : Bytes) :
    (beginCall u op).1 ≠ .returned op' (.fetched true value) := by
  cases op
  case insert =>
    simp only [beginCall, beginInsert]
    repeat' split
    all_goals simp
  all_goals simp [beginCall]

omit [DecidableEq ι] in
/-- Only the last access of `get` answers with a value. -/
theorem phase_of_get {u u' : GshmUpr} {phase phase' : UprPhase}
    {op : UprOp} {value' : Bytes}
    (hact : uprAccess u phase =
      some (.returned op (.fetched true value'), phase', u')) :
    ∃ key value entry, phase = .readValue key value entry ∧
      op = .get key value ∧
      value' = (u.readCxl (wrap (entry + 64)) u.self.valueSize value).2 := by
  cases phase with
  | readValue key value entry =>
      cases hact
      exact ⟨key, value, entry, rfl, rfl, rfl⟩
  | readBucket search =>
      have hevent := congrArg (Option.map Prod.fst) hact
      exact absurd (Option.some.inj hevent)
        (Search.visit_ne_true _ search _ _ _ _)
  | readNext search entry =>
      have hevent := congrArg (Option.map Prod.fst) hact
      exact absurd (Option.some.inj hevent)
        (Search.visit_ne_true _ search _ _ _ _)
  | compare search prevNextPtr entry =>
      simp only [uprAccess] at hact
      split at hact <;> cases hact
  | _ => cases hact

/-- What `get` delivers has been given for its key. -/
theorem given_of_get (h : Annotated StoreSound ObjectSound p)
    {turn : ι × Option UprOp} {key : Key} {value value' : Bytes}
    (hstep : uprPoolStep p turn =
      some (.returned (.get key value) (.fetched true value'), p')) :
    GivenFor p.shared.begun key value' := by
  obtain ⟨phase, σ', hact, _⟩ := poolStep_eq_some_iff.mp hstep
  have hown := h.each turn.1
  cases hop : turn.2 with
  | some op =>
      rw [hop] at hact
      cases hphase : p.phase turn.1 <;> rw [hphase] at hact
      case idle =>
        have hevent := congrArg (Option.map Prod.fst) hact
        exact absurd (Option.some.inj hevent) (beginCall_ne_true _ _ _ _)
      all_goals cases hact
  | none =>
      rw [hop] at hact
      obtain ⟨r, haccess, hr⟩ := Option.map_eq_some_iff.mp hact
      obtain ⟨event, phase', u'⟩ := r
      cases hr
      obtain ⟨key₁, value₁, entry, hphase, hget, rfl⟩ := phase_of_get haccess
      cases hget
      rw [hphase] at hown
      have hle := h.common.end_le hown.1
      have hsize := h.common.hosts.size turn.1
      rcases h.common.given entry hown.1 with
        ⟨op, hop, hkey, given, hgiven, hvalue⟩
      refine ⟨op, hop, hkey.trans hown.2, given, hgiven, fun k hk => ?_⟩
      rw [← hvalue k hk, valueAt]
      show fetch p.shared.data (wrap (entry + 64)) value
        (p.shared.members turn.1).valueSize k = _
      have hwrap : wrap (entry + 64) = entry + 64 := wrap_of_lt (by omega)
      rw [hsize, fetch_apply, if_pos hk, hwrap, wrap_of_lt (by omega)]

/-- The calls on record are those of the turns taken. -/
theorem begun_of_turns {turns : List (ι × Option UprOp)}
    {events : List UprEvent}
    (hrun : run uprPoolStep p turns = some (events, p')) {op : UprOp}
    (hop : op ∈ p'.shared.begun) :
    op ∈ p.shared.begun ∨ ∃ i, (i, some op) ∈ turns := by
  induction turns generalizing p events with
  | nil =>
      cases hrun
      exact .inl hop
  | cons turn turns ih =>
      obtain ⟨o, q, os, hstep, hrest, _⟩ := run_cons_eq_some_iff.mp hrun
      rcases ih hrest with hold | ⟨i, hi⟩
      · obtain ⟨phase, σ', hact, rfl⟩ := poolStep_eq_some_iff.mp hstep
        rw [Pool.advance_shared] at hold
        obtain ⟨i, next⟩ := turn
        cases next with
        | none =>
            obtain ⟨r, _, hr⟩ := Option.map_eq_some_iff.mp hact
            cases hr
            exact .inl hold
        | some op' =>
            cases hphase : p.phase i <;> simp only [hphase] at hact <;>
              cases hact
            rcases List.mem_cons.mp hold with rfl | hold
            · exact .inr ⟨i, List.mem_cons_self⟩
            · exact .inl hold
      · exact .inr ⟨i, List.mem_cons_of_mem _ hi⟩

/-- **Run lemma**: the assertions hold all along. -/
theorem annotated_run {turns : List (ι × Option UprOp)}
    {events : List UprEvent} (h : Annotated StoreSound ObjectSound p)
    (hrun : run uprPoolStep p turns = some (events, p')) :
    Annotated StoreSound ObjectSound p' := by
  refine run_invariant (P := Annotated StoreSound ObjectSound)
    (fun p turn o p' h hstep => ?_) h hrun
  obtain ⟨phase, σ', hact, rfl⟩ := poolStep_eq_some_iff.mp hstep
  exact Annotated.advance (uprTurn_sound h hact)

omit [DecidableEq ι] in
/-- Objects on hosts of their own over a zeroed data area, none of which has
begun a call. -/
theorem annotated_construct (dataAddr : ι → DataAddr)
    (mac : ι → Option UInt8) (hpos : ∀ i, 0 < getMac (mac i))
    (hinj : ∀ i j, getMac (mac i) = getMac (mac j) → i = j) :
    Annotated StoreSound ObjectSound
      (UprPool.start (.construct (fun _ => 0) dataAddr mac)) := by
  have hfleet := FleetSound.construct dataAddr mac hpos hinj
  have hnone := FleetSound.not_allocated_construct dataAddr mac
  exact ⟨⟨hfleet.hosts, hfleet.chained,
    fun e he => absurd he (hnone e), fun e he => absurd he (hnone e)⟩,
    fun _ => trivial⟩

/-- Objects on hosts of their own take turns in any order, access by access.
Whenever a `get` returns `true`, what it delivers is a value that some call
begun before was given for the same key.  And an object that is about to access
an entry to which a pointer has led it finds its key, its value and its next
pointer written. -/
theorem publication_safe (dataAddr : ι → DataAddr)
    (mac : ι → Option UInt8) (hpos : ∀ i, 0 < getMac (mac i))
    (hinj : ∀ i j, getMac (mac i) = getMac (mac j) → i = j)
    {turns : List (ι × Option UprOp)} {events : List UprEvent}
    (hrun : run uprPoolStep
      (UprPool.start (.construct (fun _ => 0) dataAddr mac)) turns =
        some (events, p)) :
    (∀ turn key value value' p', uprPoolStep p turn =
        some (.returned (.get key value) (.fetched true value'), p') →
      ∃ i op, (i, some op) ∈ turns ∧ op.key = key ∧ ∃ given,
        op.given = some given ∧ ∀ k, k < 256 → value' k = given k) ∧
    ∀ i e, (p.phase i).follows 320 = some e →
      ∀ field, (field, e) ∈ p.shared.written := by
  have hsound := annotated_run (annotated_construct dataAddr mac hpos hinj)
    hrun
  constructor
  · intro turn key value value' p' hstep
    rcases given_of_get hsound hstep with ⟨op, hop, hkey, hgiven⟩
    rcases begun_of_turns hrun hop with hnone | ⟨i, hi⟩
    · cases hnone
    · exact ⟨i, op, hi, hkey, hgiven⟩
  · intro i e hfollows field
    exact hsound.common.written e
      ((hsound.each i).allocated_of_follows hfollows) field

end Runs

end Publication

/-! ## Two hosts -/

/-- Host `false` begins to look for a key while host `true` inserts it, and
reads the bucket word when the entry has been linked. -/
def getDuringInsert : List (Bool × Option UprOp) :=
  [(true, some (.insert (fun _ => 7) fun _ => 1)),
    (false, some (.get (fun _ => 7) fun _ => 0)), (true, none), (true, none),
    (true, none), (true, none), (false, none)]

set_option maxRecDepth 4000 in
theorem publication_safe_during_insert :
    ∃ events p, run uprPoolStep
        (UprPool.start (.construct (fun _ => 0)
          (fun _ : Bool => Instance.firstHost.dataAddr) hostOneTwo))
        getDuringInsert = some (events, p) ∧
      (∀ turn key value value' p', uprPoolStep p turn =
          some (.returned (.get key value) (.fetched true value'), p') →
        ∃ i op, (i, some op) ∈ getDuringInsert ∧ op.key = key ∧ ∃ given,
          op.given = some given ∧ ∀ k, k < 256 → value' k = given k) ∧
      ∀ i e, (p.phase i).follows 320 = some e →
        ∀ field, (field, e) ∈ p.shared.written := by
  have hdone : ∃ events p, run uprPoolStep
      (UprPool.start (.construct (fun _ => 0)
        (fun _ : Bool => Instance.firstHost.dataAddr) hostOneTwo))
      getDuringInsert = some (events, p) := ⟨_, _, rfl⟩
  obtain ⟨events, p, hrun⟩ := hdone
  exact ⟨events, p, hrun, publication_safe _ hostOneTwo
    (fun i => by cases i <;> decide)
    (fun i j => by cases i <;> cases j <;> decide) hrun⟩

end SHMemora.Ports
