import SHMemora.Ports.LayoutCalls
import SHMemora.Ports.FreshTokens

/-!
# Accesses and the end of the mapping

`open_cxl_device` maps `2 ^ 32` bytes, of which the protection table takes the
first and the data area the rest.  What the key-value operations touch is
written down next to them as lists of ranges: a range is on the list if the
access is made, and is not if it is refused.  No byte of the data area that is
on no range changes (`data_of_untouched`).

Nothing in the code looks at the end of the mapping.  With its table of
`40 * 2 ^ 25` bytes `gshmp.cpp` has room for the partitions of host 0 and 1
and the lower half of that of host 2; with `72 * 2 ^ 25` bytes
`gshmp_256.cpp` has room for that of host 0 and the lower half of that of
host 1.

## Main result

* `accesses_in_mapping` — a run whose insertions stay below the end of the
  mapping touches nothing behind it.
-/

namespace SHMemora.Ports

open SHMemora.Verified.ByteMemory
open SHMemora.Verified.StepRun

/-- `length` in `open_cxl_device`. -/
abbrev mappingLength : Nat := 2 ^ 32

section Ranges

variable {τ : Type} [DecidableEq τ] {n : Nat} [NeZero n]
variable (S : TokenScheme τ n)

/-- A range of the data area, given by offset and size, ends inside the
mapping. -/
def InMapping (r : Nat × Nat) : Prop :=
  tableBytes S + r.1 + r.2 ≤ mappingLength

/-! ## What the operations copy and compare -/

namespace Gshm

/-- The range that `read_cxl` copies. -/
def readRanges (g : Gshm τ n) (offset size : Nat) (shkey : τ) :
    List (Nat × Nat) :=
  match readAccess S g.table offset size shkey with
  | .error _ => []
  | .ok _ => [(offset, size)]

/-- The range that `compare_cxl` compares. -/
def compareRanges (g : Gshm τ n) (offset size : Nat) (shkey : τ) :
    List (Nat × Nat) :=
  match compareAccess S g.table offset size shkey with
  | .error _ => []
  | .ok _ => [(offset, size)]

/-- The range that `write_cxl` copies. -/
def writeRanges (g : Gshm τ n) (offset size : Nat) (shkey : τ) :
    List (Nat × Nat) :=
  match writeAccess S g.table g.self.dataAddr.addr offset size shkey with
  | .error _ => []
  | .ok _ => [(offset, size)]

/-- The ranges of the loop of `get` and `update`. -/
def chainLoopRanges (key : Key) (permission : UInt8) :
    Nat → Gshm τ n → Nat → List (Nat × Nat)
  | 0, _, _ => []
  | fuel + 1, g, entry =>
      if entry = 0 then []
      else
        let g' := (g.acquire S entry g.self.entrySize permission).2
        let nextPtr := wrap (entry + 64 + g.self.valueSize)
        g'.compareRanges S entry 64 S.globalKey ++
          if g'.compareCxl S entry 64 key.buf S.globalKey = 0 then []
          else
            g'.readRanges S nextPtr 8 S.globalKey ++
              chainLoopRanges key permission fuel g'
                (g'.readWord S nextPtr entry S.globalKey)

/-- The ranges of `lookup`. -/
def lookupRanges (g : Gshm τ n) (key : Key) (permission : UInt8) :
    List (Nat × Nat) :=
  let g' := (g.acquire S (entryOffset key) 8 permission).2
  g'.readRanges S (entryOffset key) 8 S.globalKey ++
    chainLoopRanges S key permission walkFuel g'
      (g'.readWord S (entryOffset key) 0 S.globalKey)

/-- The ranges of `get`. -/
def getRanges (g : Gshm τ n) (key : Key) (shkey : τ) : List (Nat × Nat) :=
  g.lookupRanges S key 1 ++
    match g.lookup S key 1 with
    | none => []
    | some (entry, g') =>
        if entry = 0 then []
        else g'.readRanges S (wrap (entry + 64)) g.self.valueSize shkey

/-- The ranges of `update`. -/
def updateRanges (g : Gshm τ n) (key : Key) (shkey : τ) : List (Nat × Nat) :=
  g.lookupRanges S key 3 ++
    match g.lookup S key 3 with
    | none => []
    | some (entry, g') =>
        if entry = 0 then []
        else g'.writeRanges S (wrap (entry + 64)) g.self.valueSize shkey

/-- The ranges of the three writes that fill an entry. -/
def fillRanges (g : Gshm τ n) (start valueSize : Nat) (shkey : τ) :
    List (Nat × Nat) :=
  g.writeRanges S start 64 shkey ++
    g.writeRanges S (wrap (start + 64)) valueSize shkey ++
    g.writeRanges S (wrap (start + 64 + valueSize)) 8 shkey

/-- The ranges of `insert` without `use_batch`. -/
def insertRanges (g : Gshm τ n) (key : Key) : List (Nat × Nat) :=
  let r := g.acquire S (entryOffset key) 8 3
  let nextFree := g.self.nextFreeOffset
  if g.self.partitionEnd < wrap (nextFree + g.self.entrySize) then []
  else
    let r' := r.2.acquire S nextFree g.self.entrySize 3
    r'.2.fillRanges S nextFree g.self.valueSize r'.1 ++
      r'.2.writeRanges S (entryOffset key) 8 r.1

/-- The ranges of the loop of `del`. -/
def delLoopRanges (g : Gshm τ n) (key : Key) (shkey : τ) :
    Nat → Nat → Nat → List (Nat × Nat)
  | 0, _, _ => []
  | fuel + 1, prevNextPtr, entry =>
      if entry = 0 then []
      else
        let nextPtr := wrap (entry + 64 + g.self.valueSize)
        g.compareRanges S entry 64 S.globalKey ++
          if g.compareCxl S entry 64 key.buf S.globalKey = 0 then
            g.readRanges S nextPtr 8 shkey ++
              g.writeRanges S prevNextPtr 8 S.globalKey
          else
            g.readRanges S nextPtr 8 S.globalKey ++
              g.delLoopRanges key shkey fuel nextPtr
                (g.readWord S nextPtr entry S.globalKey)

/-- The ranges of `del`. -/
def delRanges (g : Gshm τ n) (key : Key) (shkey : τ) : List (Nat × Nat) :=
  g.readRanges S (entryOffset key) 8 S.globalKey ++
    g.delLoopRanges S key shkey walkFuel (entryOffset key)
      (g.readWord S (entryOffset key) 0 S.globalKey)

/-- The ranges of the four operations the log covers. -/
def ranges (g : Gshm τ n) : GshmOp τ → List (Nat × Nat)
  | .get key _ shkey => g.getRanges S key shkey
  | .update key _ shkey => g.updateRanges S key shkey
  | .insert key _ => g.insertRanges S key
  | .del key shkey => g.delRanges S key shkey
  | _ => []

end Gshm

/-! ## Nothing else changes -/

/-- A byte lies in a range. -/
def Touches (x : Nat) (r : Nat × Nat) : Prop :=
  ∃ i, i < r.2 ∧ x = wrap (r.1 + i)

theorem store_of_untouched {m src : Bytes} {off size x : Nat}
    (h : ¬ Touches x (off, size)) : store m off src size x = m x := by
  induction size with
  | zero => rfl
  | succ i ih =>
      have hne : x ≠ wrap (off + i) :=
        fun heq => h ⟨i, Nat.lt_succ_self i, heq⟩
      rw [store, Function.update_of_ne hne]
      apply ih
      intro htouch
      rcases htouch with ⟨j, hj, heq⟩
      exact h ⟨j, Nat.lt_succ_of_lt hj, heq⟩

variable {S} {g : Gshm τ n}

theorem writeCxl_of_untouched {offset size : Nat} {buf : Bytes} {shkey : τ}
    {x : Nat}
    (h : ∀ r ∈ g.writeRanges S offset size shkey, ¬ Touches x r) :
    (g.writeCxl S offset size buf shkey).2.data x = g.data x := by
  rw [Gshm.writeRanges] at h
  rw [Gshm.writeCxl]
  split
  · rfl
  · next i haccess =>
      rw [haccess] at h
      exact store_of_untouched (h _ List.mem_cons_self)

/-- The test in `write_cxl` does not look at the data area. -/
@[simp] theorem writeRanges_writeCxl (offset size offset' size' : Nat)
    (buf : Bytes) (shkey shkey' : τ) :
    (g.writeCxl S offset' size' buf shkey').2.writeRanges S offset size
      shkey = g.writeRanges S offset size shkey := by
  rw [Gshm.writeRanges, Gshm.writeRanges, Gshm.writeCxl_table,
    Gshm.writeCxl_self]

@[simp] theorem writeRanges_fillEntry (offset size start valueSize : Nat)
    (key : Key) (value : Bytes) (shkey shkey' : τ) :
    (g.fillEntry S start valueSize key value shkey').writeRanges S offset
      size shkey = g.writeRanges S offset size shkey := by
  simp only [Gshm.fillEntry, writeRanges_writeCxl]

theorem fillEntry_of_untouched {start valueSize : Nat} {key : Key}
    {value : Bytes} {shkey : τ} {x : Nat}
    (h : ∀ r ∈ g.fillRanges S start valueSize shkey, ¬ Touches x r) :
    (g.fillEntry S start valueSize key value shkey).data x = g.data x := by
  simp only [Gshm.fillRanges, List.mem_append] at h
  simp only [Gshm.fillEntry]
  rw [writeCxl_of_untouched fun r hr => h r (.inr (by simpa using hr)),
    writeCxl_of_untouched fun r hr =>
      h r (.inl (.inr (by simpa using hr))),
    writeCxl_of_untouched fun r hr => h r (.inl (.inl hr))]

theorem insert_of_untouched (hbatch : g.self.useBatch = false) {key : Key}
    {value : Bytes} {t : τ} {g' : Gshm τ n}
    (hcall : g.insert S key value = .returned t g') {x : Nat}
    (h : ∀ r ∈ g.insertRanges S key, ¬ Touches x r) :
    g'.data x = g.data x := by
  have hplain : ¬ g.self.useBatch = true := by
    rw [hbatch]
    decide
  rw [Gshm.insert, if_neg hplain, Gshm.insertPlain, Gshm.acquire_self] at hcall
  rw [Gshm.insertRanges] at h
  split at hcall
  case isTrue => contradiction
  case isFalse hnotFull =>
    simp only [if_neg hnotFull, List.mem_append] at h
    cases hcall
    refine (writeCxl_of_untouched fun r hr => h r (.inr ?_)).trans
      (fillEntry_of_untouched fun r hr => h r (.inl hr))
    rw [writeRanges_fillEntry] at hr
    exact hr

theorem delLoop_of_untouched {key : Key} {shkey : τ}
    {fuel prevNextPtr entry : Nat} {b : Bool} {g' : Gshm τ n}
    (hcall : g.delLoop S key shkey fuel prevNextPtr entry = .returned b g')
    {x : Nat} (h : ∀ r ∈ g.delLoopRanges S key shkey fuel prevNextPtr entry,
      ¬ Touches x r) : g'.data x = g.data x := by
  induction fuel generalizing prevNextPtr entry with
  | zero => contradiction
  | succ fuel ih =>
      rw [Gshm.delLoop] at hcall
      rw [Gshm.delLoopRanges] at h
      split at hcall
      case isTrue => cases hcall; rfl
      case isFalse hne =>
        simp only at hcall
        split at hcall
        case isTrue hmatch =>
          simp only [if_neg hne, if_pos hmatch, List.mem_append] at h
          cases hcall
          exact writeCxl_of_untouched fun r hr => h r (.inr (.inr hr))
        case isFalse hmatch =>
          simp only [if_neg hne, if_neg hmatch, List.mem_append] at h
          exact ih hcall fun r hr => h r (.inr (.inr hr))

/-- A call that the log covers. -/
def IsLogged : GshmOp τ → Prop
  | .get .. => True
  | .update .. => True
  | .insert .. => True
  | .del .. => True
  | _ => False

/-- **The log is complete for writes**: a byte that no range touches does not
change. -/
theorem data_of_untouched (hbatch : g.self.useBatch = false) {fuel : Nat}
    {op : GshmOp τ} (hlogged : IsLogged op) {result : GshmResult τ}
    {g' : Gshm τ n} (hstep : gshmStep S fuel g op = some (result, g'))
    {x : Nat} (h : ∀ r ∈ g.ranges S op, ¬ Touches x r) :
    g'.data x = g.data x := by
  cases op with
  | get key value shkey =>
      obtain ⟨r, g₁, hcall, heq⟩ := Outcome.next_map_eq_some_iff.mp hstep
      cases heq
      rw [Gshm.get] at hcall
      split at hcall
      case h_1 => contradiction
      case h_2 entry g₂ hlookup =>
        have hdata := (draws_of_lookup hlookup).data_eq
        split at hcall <;> cases hcall <;> exact congrFun hdata x
  | update key value shkey =>
      obtain ⟨r, g₁, hcall, heq⟩ := Outcome.next_map_eq_some_iff.mp hstep
      cases heq
      rw [Gshm.update] at hcall
      simp only [Gshm.ranges, Gshm.updateRanges, List.mem_append] at h
      split at hcall
      case h_1 => contradiction
      case h_2 entry g₂ hlookup =>
        have hdata := (draws_of_lookup hlookup).data_eq
        simp only [hlookup] at h
        split at hcall
        case isTrue => cases hcall; exact congrFun hdata x
        case isFalse hne =>
          rw [if_neg hne] at h
          cases hcall
          exact (writeCxl_of_untouched fun r hr => h r (.inr hr)).trans
            (congrFun hdata x)
  | insert key value =>
      obtain ⟨t, g₁, hcall, heq⟩ := Outcome.next_map_eq_some_iff.mp hstep
      cases heq
      exact insert_of_untouched hbatch hcall h
  | del key shkey =>
      obtain ⟨b, g₁, hcall, heq⟩ := Outcome.next_map_eq_some_iff.mp hstep
      cases heq
      simp only [Gshm.ranges, Gshm.delRanges, List.mem_append] at h
      exact delLoop_of_untouched hcall fun r hr => h r (.inr hr)
  | _ => cases hlogged

/-! ## Ranges of a linked memory -/

theorem readRanges_inside {offset size : Nat} (h : InMapping S (offset, size))
    (shkey : τ) :
    ∀ r ∈ g.readRanges S offset size shkey, InMapping S r := by
  intro r hr
  rw [Gshm.readRanges] at hr
  split at hr
  · cases hr
  · rw [List.mem_singleton.mp hr]
    exact h

theorem compareRanges_inside {offset size : Nat}
    (h : InMapping S (offset, size)) (shkey : τ) :
    ∀ r ∈ g.compareRanges S offset size shkey, InMapping S r :=
  readRanges_inside h shkey

theorem writeRanges_inside {offset size : Nat}
    (h : InMapping S (offset, size)) (shkey : τ) :
    ∀ r ∈ g.writeRanges S offset size shkey, InMapping S r := by
  intro r hr
  rw [Gshm.writeRanges] at hr
  split at hr
  · cases hr
  · rw [List.mem_singleton.mp hr]
    exact h

/-- The entry at `e` ends inside the mapping. -/
def EntryInside (S : TokenScheme τ n) (valueSize e : Nat) : Prop :=
  tableBytes S + (e + (72 + valueSize)) ≤ mappingLength

omit [DecidableEq τ] [NeZero n] in
/-- A part of an entry inside the mapping. -/
theorem EntryInside.part {valueSize e : Nat} (h : EntryInside S valueSize e)
    {offset size : Nat} (hend : offset + size ≤ e + (72 + valueSize)) :
    InMapping S (offset, size) := by
  unfold EntryInside at h
  show tableBytes S + offset + size ≤ mappingLength
  omega

omit [DecidableEq τ] [NeZero n] in
theorem EntryInside.wrap_of_le {valueSize e : Nat}
    (h : EntryInside S valueSize e) {offset : Nat}
    (hle : offset ≤ e + (72 + valueSize)) : wrap offset = offset := by
  unfold EntryInside mappingLength at h
  exact wrap_of_lt (by omega)

/-- The end of a chain, or an entry inside the mapping that is the last of its
chain. -/
def EndsInside (S : TokenScheme τ n) (m : Bytes) (valueSize entry : Nat) :
    Prop :=
  entry = 0 ∨ (EntryInside S valueSize entry ∧
    nextEntry m (64 + valueSize) entry = 0)

theorem chainLoopRanges_inside {key : Key} {permission : UInt8}
    {fuel entry : Nat} (h : EndsInside S g.data g.self.valueSize entry) :
    ∀ r ∈ g.chainLoopRanges S key permission fuel entry, InMapping S r := by
  induction fuel generalizing g entry with
  | zero => exact fun r hr => by cases hr
  | succ fuel ih =>
      rw [Gshm.chainLoopRanges]
      rcases h with hzero | ⟨hinside, hlast⟩
      · rw [if_pos hzero]
        exact fun r hr => by cases hr
      · split
        · exact fun r hr => by cases hr
        · intro r hr
          simp only [List.mem_append] at hr
          rw [hinside.wrap_of_le (by omega)] at hr
          rcases hr with hcompare | hrest
          · exact compareRanges_inside (hinside.part (by omega)) _ r hcompare
          · split at hrest
            · cases hrest
            · rcases List.mem_append.mp hrest with hread | hloop
              · exact readRanges_inside (hinside.part (by omega)) _ r hread
              · have hnext : EndsInside S g.data g.self.valueSize
                    (loadWord g.data (entry + 64 + g.self.valueSize)) := by
                  rw [nextEntry, hinside.wrap_of_le (by omega),
                    ← Nat.add_assoc] at hlast
                  exact .inl hlast
                rw [readWord_globalKey, Gshm.acquire_data] at hloop
                exact ih (g := (g.acquire S entry g.self.entrySize
                  permission).2) hnext r hloop

theorem delLoopRanges_inside {key : Key} {shkey : τ}
    {fuel prevNextPtr entry : Nat}
    (h : EndsInside S g.data g.self.valueSize entry)
    (hprev : InMapping S (prevNextPtr, 8)) :
    ∀ r ∈ g.delLoopRanges S key shkey fuel prevNextPtr entry,
      InMapping S r := by
  induction fuel generalizing prevNextPtr entry with
  | zero => exact fun r hr => by cases hr
  | succ fuel ih =>
      rw [Gshm.delLoopRanges]
      rcases h with hzero | ⟨hinside, hlast⟩
      · rw [if_pos hzero]
        exact fun r hr => by cases hr
      · have hnextPtr : InMapping S (entry + 64 + g.self.valueSize, 8) :=
          hinside.part (by omega)
        split
        · exact fun r hr => by cases hr
        · intro r hr
          simp only [List.mem_append] at hr
          rw [hinside.wrap_of_le (by omega)] at hr
          rcases hr with hcompare | hrest
          · exact compareRanges_inside (hinside.part (by omega)) _ r hcompare
          · split at hrest
            · rcases List.mem_append.mp hrest with hread | hwrite
              · exact readRanges_inside hnextPtr _ r hread
              · exact writeRanges_inside hprev _ r hwrite
            · rcases List.mem_append.mp hrest with hread | hloop
              · exact readRanges_inside hnextPtr _ r hread
              · rw [readWord_globalKey] at hloop
                refine ih ?_ hnextPtr r hloop
                rw [nextEntry, hinside.wrap_of_le (by omega),
                  ← Nat.add_assoc] at hlast
                exact .inl hlast

/-! ## Runs below the end of the mapping -/

/-- A linked memory whose entries end inside the mapping. -/
structure Mapped (S : TokenScheme τ n) (g : Gshm τ n) : Prop where
  linked : Linked g.self g.data
  inside : ∀ e, IsBlock g.self.valueSize g.self.partitionStart
    g.self.nextFreeOffset e → EntryInside S g.self.valueSize e

/-- One of the four operations for a key off the partition; an insertion has
its entry inside the mapping. -/
def MappedCall (S : TokenScheme τ n) (g : Gshm τ n) : GshmOp τ → Prop
  | .get key _ _ => OffPartition g.self key
  | .update key _ _ => OffPartition g.self key
  | .insert key _ => OffPartition g.self key ∧ (HasRoom g.self →
      tableBytes S + (g.self.nextFreeOffset + g.self.entrySize) ≤
        mappingLength)
  | .del key _ => OffPartition g.self key
  | _ => False

namespace Mapped

variable (hS : tableBytes S + (2 ^ 26 + 2 ^ 28) ≤ mappingLength)
  (h : Mapped S g) {key : Key} (hoff : OffPartition g.self key)
include hS h hoff

omit [DecidableEq τ] [NeZero n] h hoff in
/-- The bucket table is inside the mapping. -/
theorem bucket_inside (key : Key) : InMapping S (entryOffset key, 8) := by
  have hend := entryOffset_add_le key
  show tableBytes S + entryOffset key + 8 ≤ mappingLength
  omega

omit [DecidableEq τ] [NeZero n] hS in
theorem endsInside_bucket :
    EndsInside S g.data g.self.valueSize (bucket g.data key) := by
  by_cases hzero : bucket g.data key = 0
  · exact .inl hzero
  · have hblock := h.linked.pointers key hoff hzero
    exact .inr ⟨h.inside _ hblock, h.linked.last _ hblock⟩

theorem lookupRanges_inside (permission : UInt8) :
    ∀ r ∈ g.lookupRanges S key permission, InMapping S r := by
  intro r hr
  rcases List.mem_append.mp hr with hread | hloop
  · exact readRanges_inside (bucket_inside hS key) _ r hread
  · rw [readWord_globalKey] at hloop
    exact chainLoopRanges_inside (g := (g.acquire S (entryOffset key) 8
      permission).2) (h.endsInside_bucket hoff) r hloop

omit [DecidableEq τ] [NeZero n] hS in
/-- The value of a stored key. -/
theorem value_inside (hne : entryOf g.data key ≠ 0) :
    InMapping S (wrap (entryOf g.data key + 64), g.self.valueSize) := by
  have hinside := h.inside _ (h.linked.isBlock_entryOf hoff hne)
  rw [hinside.wrap_of_le (by omega)]
  exact hinside.part (by omega)

theorem getRanges_inside (shkey : τ) :
    ∀ r ∈ g.getRanges S key shkey, InMapping S r := by
  intro r hr
  rw [Gshm.getRanges, lookup_of_short (h.linked.short hoff)] at hr
  rcases List.mem_append.mp hr with hlookup | hvalue
  · exact h.lookupRanges_inside hS hoff 1 r hlookup
  · simp only at hvalue
    split at hvalue
    · cases hvalue
    · next hne =>
        exact readRanges_inside (h.value_inside hoff hne) shkey r hvalue

theorem updateRanges_inside (shkey : τ) :
    ∀ r ∈ g.updateRanges S key shkey, InMapping S r := by
  intro r hr
  rw [Gshm.updateRanges, lookup_of_short (h.linked.short hoff)] at hr
  rcases List.mem_append.mp hr with hlookup | hvalue
  · exact h.lookupRanges_inside hS hoff 3 r hlookup
  · simp only at hvalue
    split at hvalue
    · cases hvalue
    · next hne =>
        exact writeRanges_inside (h.value_inside hoff hne) shkey r hvalue

omit hoff in
theorem insertRanges_inside (hfits : HasRoom g.self →
      tableBytes S + (g.self.nextFreeOffset + g.self.entrySize) ≤
        mappingLength) :
    ∀ r ∈ g.insertRanges S key, InMapping S r := by
  intro r hr
  rw [Gshm.insertRanges] at hr
  simp only at hr
  split at hr
  · cases hr
  · next hnotFull =>
      have hroom : HasRoom g.self :=
        not_not.mp (mt h.linked.plain.full_iff.mpr hnotFull)
      have hinside : EntryInside S g.self.valueSize
          g.self.nextFreeOffset := by
        have hsizes := h.linked.plain.sizes
        have hend := hfits hroom
        unfold EntryInside
        omega
      simp only [Gshm.fillRanges, List.mem_append] at hr
      rw [hinside.wrap_of_le (by omega), hinside.wrap_of_le (by omega)] at hr
      rcases hr with ((hkey | hvalue) | hnext) | hbucket
      · exact writeRanges_inside (hinside.part (by omega)) _ r hkey
      · exact writeRanges_inside (hinside.part (by omega)) _ r hvalue
      · exact writeRanges_inside (hinside.part (by omega)) _ r hnext
      · exact writeRanges_inside (bucket_inside hS key) _ r hbucket

theorem delRanges_inside (shkey : τ) :
    ∀ r ∈ g.delRanges S key shkey, InMapping S r := by
  intro r hr
  have hbucket := bucket_inside hS key
  rcases List.mem_append.mp hr with hread | hloop
  · exact readRanges_inside hbucket _ r hread
  · rw [readWord_globalKey] at hloop
    exact delLoopRanges_inside (h.endsInside_bucket hoff) hbucket r hloop

omit h hoff in
/-- **The ranges of a call** are inside the mapping. -/
theorem ranges_inside (h : Mapped S g) {op : GshmOp τ}
    (hcall : MappedCall S g op) : ∀ r ∈ g.ranges S op, InMapping S r := by
  cases op with
  | get key value shkey => exact h.getRanges_inside hS hcall shkey
  | update key value shkey => exact h.updateRanges_inside hS hcall shkey
  | insert key value => exact h.insertRanges_inside hS hcall.2
  | del key shkey => exact h.delRanges_inside hS hcall shkey
  | _ => exact hcall.elim

end Mapped

/-- Only insertions move the cursor. -/
theorem gshmStep_self {fuel : Nat} {op : GshmOp τ} (hlogged : IsLogged op)
    (hinsert : ∀ key value, op ≠ .insert key value) {result : GshmResult τ}
    {g' : Gshm τ n} (hstep : gshmStep S fuel g op = some (result, g')) :
    g'.self = g.self := by
  cases op with
  | get key value shkey =>
      obtain ⟨r, g₁, hcall, heq⟩ := Outcome.next_map_eq_some_iff.mp hstep
      cases heq
      exact get_self hcall
  | update key value shkey =>
      obtain ⟨r, g₁, hcall, heq⟩ := Outcome.next_map_eq_some_iff.mp hstep
      cases heq
      exact update_self hcall
  | insert key value => exact absurd rfl (hinsert key value)
  | del key shkey =>
      obtain ⟨b, g₁, hcall, heq⟩ := Outcome.next_map_eq_some_iff.mp hstep
      cases heq
      exact delLoop_self hcall
  | _ => cases hlogged

omit [DecidableEq τ] [NeZero n] in
theorem MappedCall.key {op : GshmOp τ} (h : MappedCall S g op) :
    ∃ key, op.key = some key ∧ OffPartition g.self key ∧ ¬ op.IsPut ∧
      IsLogged op := by
  cases op with
  | get key value shkey => exact ⟨key, rfl, h, id, trivial⟩
  | update key value shkey => exact ⟨key, rfl, h, id, trivial⟩
  | insert key value => exact ⟨key, rfl, h.1, id, trivial⟩
  | del key shkey => exact ⟨key, rfl, h, id, trivial⟩
  | _ => exact h.elim

/-- **Step lemma**: entries stay inside the mapping. -/
theorem Mapped.step (h : Mapped S g) {fuel : Nat} {op : GshmOp τ}
    (hcall : MappedCall S g op) {result : GshmResult τ} {g' : Gshm τ n}
    (hstep : gshmStep S fuel g op = some (result, g')) : Mapped S g' := by
  obtain ⟨key, hkey, hoff, hput, hlogged⟩ := hcall.key
  have heffect := gshmStep_effect h.linked (fun hp => absurd hp hput) hkey
    hoff hstep
  have hlinked := heffect.linked h.linked hoff
  by_cases hinsert : ∃ k v, op = .insert k v
  · obtain ⟨k, v, rfl⟩ := hinsert
    refine ⟨hlinked, fun e he => ?_⟩
    rcases heffect.instance_eq with hself | ⟨hroom, hself⟩
    · rw [hself] at he ⊢
      exact h.inside e he
    · rw [hself] at he ⊢
      rcases h.linked.plain.isBlock_advance_iff.mp he with hold | hnew
      · exact h.inside e hold
      · have hsizes := h.linked.plain.sizes
        have hend := hcall.2 hroom
        rw [hsizes] at hend
        rw [hnew]
        exact hend
  · have hself := gshmStep_self hlogged
      (fun k v heq => hinsert ⟨k, v, heq⟩) hstep
    refine ⟨hlinked, fun e he => ?_⟩
    rw [hself] at he ⊢
    exact h.inside e he

omit [DecidableEq τ] [NeZero n] in
/-- A new object over a zeroed data area. -/
theorem mapped_construct (rand : Nat → Nat) (batchKey : τ) (useMac : Bool)
    (dataAddr : DataAddr) (mac : Option UInt8) {valueSize : Nat}
    (hsmall : 72 + valueSize < 2 ^ 31) :
    Mapped S (.construct S (fun _ => 0) rand batchKey useMac
      ((Instance.construct dataAddr mac).withValueSize valueSize)) := by
  refine ⟨.construct dataAddr mac hsmall, fun e he => ?_⟩
  -- no block has been handed out
  have hstart := he.start_le
  have hend := he.end_le
  have hempty : (Gshm.construct S (fun _ => 0) rand batchKey useMac
      ((Instance.construct dataAddr mac).withValueSize
        valueSize)).self.nextFreeOffset =
    (Gshm.construct S (fun _ => 0) rand batchKey useMac
      ((Instance.construct dataAddr mac).withValueSize
        valueSize)).self.partitionStart := rfl
  omega

/-- **Run lemma**: no call of a run touches anything behind the mapping. -/
theorem ranges_inside_of_run
    (hS : tableBytes S + (2 ^ 26 + 2 ^ 28) ≤ mappingLength) {fuel : Nat}
    (h : Mapped S g) {calls : List (GshmOp τ)}
    (hall : AtEveryStep (gshmStep S fuel) (MappedCall S) g calls) :
    AtEveryStep (gshmStep S fuel)
      (fun g op => ∀ r ∈ g.ranges S op, InMapping S r) g calls := by
  induction calls generalizing g with
  | nil => exact trivial
  | cons op calls ih =>
      exact ⟨h.ranges_inside hS hall.1, fun result g' hstep =>
        ih (h.step hall.1 hstep) (hall.2 result g' hstep)⟩

end Ranges

/-- **No access behind the mapping**, for both token schemes, every host,
every size of values and every run over a zeroed data area in which each
insertion that finds room has its entry inside the mapping and, on host 0, no
key has a top byte of 64 or more. -/
theorem accesses_in_mapping (sha256 : List UInt8 → Vector UInt8 32)
    (fuel : Nat) (rand : Nat → Nat) (batchKey : UInt16)
    (batchKey' : Shkey256) (useMac : Bool) (dataAddr : DataAddr)
    (mac : Option UInt8) (valueSize : Nat) (hsmall : 72 + valueSize < 2 ^ 31)
    (calls : List (GshmOp UInt16)) (calls' : List (GshmOp Shkey256)) :
    (AtEveryStep (gshmStep shmpScheme fuel) (MappedCall shmpScheme)
        (.construct shmpScheme (fun _ => 0) rand batchKey useMac
          ((Instance.construct dataAddr mac).withValueSize valueSize)) calls →
      AtEveryStep (gshmStep shmpScheme fuel)
        (fun g op => ∀ r ∈ g.ranges shmpScheme op, InMapping shmpScheme r)
        (.construct shmpScheme (fun _ => 0) rand batchKey useMac
          ((Instance.construct dataAddr mac).withValueSize valueSize))
        calls) ∧
    (AtEveryStep (gshmStep (shmp256Scheme sha256) fuel)
        (MappedCall (shmp256Scheme sha256))
        (.construct (shmp256Scheme sha256) (fun _ => 0) rand batchKey' useMac
          ((Instance.construct dataAddr mac).withValueSize valueSize))
        calls' →
      AtEveryStep (gshmStep (shmp256Scheme sha256) fuel)
        (fun g op => ∀ r ∈ g.ranges (shmp256Scheme sha256) op,
          InMapping (shmp256Scheme sha256) r)
        (.construct (shmp256Scheme sha256) (fun _ => 0) rand batchKey' useMac
          ((Instance.construct dataAddr mac).withValueSize valueSize))
        calls') := by
  have hS : tableBytes shmpScheme + (2 ^ 26 + 2 ^ 28) ≤ mappingLength := by
    decide
  have hS' : tableBytes (shmp256Scheme sha256) + (2 ^ 26 + 2 ^ 28) ≤
      mappingLength := by
    show 2 ^ 25 * 72 + (2 ^ 26 + 2 ^ 28) ≤ 2 ^ 32
    decide
  constructor
  · exact ranges_inside_of_run hS
      (mapped_construct rand batchKey useMac dataAddr mac hsmall)
  · exact ranges_inside_of_run hS'
      (mapped_construct rand batchKey' useMac dataAddr mac hsmall)

/-! ## Hosts whose partitions are not mapped -/

/-- A new store on a host, with tokens `1`, `2`, `3`, …. -/
def storeOnHost (mac : UInt8) : ShmpStore :=
  .construct shmpScheme (fun _ => 0) (fun i => i + 1) 0 false
    ((Instance.construct Instance.firstHost.dataAddr (some mac)).withValueSize
      256)

theorem writeRanges_of_accepted {τ : Type} [DecidableEq τ] {n : Nat}
    [NeZero n] {S : TokenScheme τ n} {g : Gshm τ n} {offset size : Nat}
    {shkey : τ} (h : Accepted S g .write offset size shkey) :
    g.writeRanges S offset size shkey = [(offset, size)] := by
  obtain ⟨i, hi⟩ := h
  have haccess : writeAccess S g.table g.self.dataAddr.addr offset size
      shkey = .ok i := hi
  rw [Gshm.writeRanges, haccess]

/-- An insertion with new tokens writes the next pointer of its entry, the
last of the entry's bytes. -/
theorem mem_insertRanges {g : ShmpStore} {m : TokenMap UInt16}
    (h : Issued g m) (hplain : Plain g.self) (hroom : HasRoom g.self)
    (hfresh : FreshBelow g.useMac g.rand (g.randCalls + 2)) (key : Key) :
    (g.self.nextFreeOffset + 64 + g.self.valueSize, 8) ∈
      g.insertRanges shmpScheme key := by
  have hle := hplain.room hroom
  have hsizes := hplain.sizes
  have hsmall := hplain.small
  have hnotFull := mt hplain.full_iff.mp (not_not.mpr hroom)
  have hsecond : ((g.acquire shmpScheme (entryOffset key) 8 3).2.acquire
      shmpScheme g.self.nextFreeOffset g.self.entrySize 3).1 =
      tokenAt g.useMac g.rand (g.randCalls + 1) := by
    rw [← randCalls_acquire g (entryOffset key) 8 3]
    rfl
  have hoffset : (request g.self.nextFreeOffset g.self.entrySize 3).offset =
      g.self.nextFreeOffset := wrap_of_lt (by omega)
  have hlength : (request g.self.nextFreeOffset g.self.entrySize 3).size =
      g.self.entrySize := wrap_of_lt (by omega)
  have hperm : (request g.self.nextFreeOffset g.self.entrySize
      3).permission &&& 2 ≠ 0 :=
    show BitVec.ofNat 32 (3 : UInt8).toNat &&& 2 ≠ 0 by decide
  have haccept : Accepted shmpScheme (afterDraws g key) .write
      (g.self.nextFreeOffset + 64 + g.self.valueSize) 8
      (tokenAt g.useMac g.rand (g.randCalls + 1)) :=
    accepted_of_binding (hfresh (g.randCalls + 1) (by omega)).1
      (h.binding_entry key hfresh) .write hperm (by omega) (by omega)
      (by omega) (by omega) (by omega)
  have hrange := writeRanges_of_accepted haccept
  rw [afterDraws] at hrange
  have hwrap : wrap (g.self.nextFreeOffset + 64 + g.self.valueSize) =
      g.self.nextFreeOffset + 64 + g.self.valueSize := wrap_of_lt (by omega)
  rw [Gshm.insertRanges]
  simp only [if_neg hnotFull, Gshm.fillRanges, hsecond, hwrap, hrange,
    List.mem_append, List.mem_singleton, or_true, true_or]

/-- **When the tokens are new, the condition on an insertion is exact.** -/
theorem insert_in_mapping_iff {g : ShmpStore} {m : TokenMap UInt16}
    (h : Issued g m) (hmapped : Mapped shmpScheme g)
    (hfresh : FreshBelow g.useMac g.rand (g.randCalls + 2)) (key : Key) :
    (∀ r ∈ g.insertRanges shmpScheme key, InMapping shmpScheme r) ↔
      (HasRoom g.self → tableBytes shmpScheme +
        (g.self.nextFreeOffset + g.self.entrySize) ≤ mappingLength) := by
  have hS : tableBytes shmpScheme + (2 ^ 26 + 2 ^ 28) ≤ mappingLength := by
    decide
  constructor
  · intro hinside hroom
    have hend : tableBytes shmpScheme +
        (g.self.nextFreeOffset + 64 + g.self.valueSize) + 8 ≤ mappingLength :=
      hinside _ (mem_insertRanges h hmapped.linked.plain hroom hfresh key)
    have hsizes := hmapped.linked.plain.sizes
    omega
  · exact fun hfits => hmapped.insertRanges_inside hS hfits

theorem freshBelow_storeOnHost (mac : UInt8) :
    FreshBelow (storeOnHost mac).useMac (storeOnHost mac).rand
      ((storeOnHost mac).randCalls + 2) :=
  freshBelow_countingStore

/-- One insertion on host 1. -/
theorem accesses_in_mapping_first_host :
    (AtEveryStep (gshmStep shmpScheme 0)
        (fun g op => ∀ r ∈ g.ranges shmpScheme op, InMapping shmpScheme r)
        (storeOnHost 1) [.insert (fun _ => 0) fun _ => 7]) := by
  have hall : AtEveryStep (gshmStep shmpScheme 0) (MappedCall shmpScheme)
      (storeOnHost 1) [.insert (fun _ => 0) fun _ => 7] :=
    ⟨⟨by decide, fun _ => by decide⟩, fun _ _ _ => trivial⟩
  exact (accesses_in_mapping (fun _ => .replicate 32 0) 0 (fun i => i + 1) 0
    zeroShkey256 false Instance.firstHost.dataAddr (some 1) 256 (by decide)
    [.insert (fun _ => 0) fun _ => 7] []).1 hall

/-- On host 3 the first insertion writes behind the end of the mapping. -/
theorem not_in_mapping_host_three :
    ¬ AtEveryStep (gshmStep shmpScheme 0)
      (fun g op => ∀ r ∈ g.ranges shmpScheme op, InMapping shmpScheme r)
      (storeOnHost 3) [.insert (fun _ => 0) fun _ => 7] := by
  intro hall
  have hplain : Plain (storeOnHost 3).self :=
    Plain.construct Instance.firstHost.dataAddr (some 3) (by decide)
  have hrange := mem_insertRanges (issued_construct _ _ _ _ _) hplain
    (by decide) (freshBelow_storeOnHost 3) (fun _ => 0)
  have hinside := hall.1 _ hrange
  have houtside : ¬ 2 ^ 25 * 40 + (2 ^ 27 + 3 * 2 ^ 30 + 64 + 256) + 8 ≤
      2 ^ 32 := by
    decide
  exact houtside hinside

end SHMemora.Ports
