import SHMemora.Ports.FreshTokens
import SHMemora.Ports.TokenLog

/-!
# Loading a trace

A trace has an operation, a table name and a key on each line.
`load_trace_and_insert` inserts the keys of its `INSERT` lines, all with the
same value, and skips the other lines.

`insert` puts its entry into the bucket word whatever is there, so that a
bucket has the last key inserted into it and no other (`lastOfBucket`).
`Loaded` says this of a store, and every insertion with new tokens keeps it.

## Main result

* `trace_loaded` — what `get` finds in a store behind the loading of a trace.
-/

namespace SHMemora.Ports

open SHMemora.Verified.ByteMemory
open SHMemora.Verified.StepRun
open SHMemora.Verified.TextLines

/-! ## Traces -/

/-- The bytes of a string literal. -/
def ascii (s : String) : Text := s.toList.map fun c => .ofNat c.toNat

/-- `iss >> op >> table >> key_str`. -/
def traceFields (line : Text) : Option (Text × Text × Text) :=
  match words isSpace line with
  | op :: table :: keyStr :: _ => some (op, table, keyStr)
  | _ => none

/-- The key of an `INSERT` line. -/
def insertedKey (line : Text) : Option Text :=
  match traceFields line with
  | some (op, _, keyStr) => if op = ascii "INSERT" then some keyStr else none
  | none => none

/-- `memcpy(key_buf, key_str.data(), key_len)` into a zeroed buffer. -/
def keyBuf (keyStr : Text) : Key := fun i => keyStr.getD i 0

/-- `value_buf`, whose other bytes are zero. -/
def dummyValue : Bytes := fun i => (ascii "dummy_value_for_testing").getD i 0

/-- One line of `load_trace_and_insert`.  The result is `none` for a line that
is skipped; otherwise it says whether the token returned is not 0, as the
message on `std::cerr` does. -/
def loadTraceLine (g : ShmpStore) (line : Text) :
    Option (Option Bool × ShmpStore) :=
  match insertedKey line with
  | none => some (none, g)
  | some keyStr =>
      (g.insert shmpScheme (keyBuf keyStr) dummyValue).next.map fun r =>
        (some (decide (r.1 ≠ 0)), r.2)

/-- `load_trace_and_insert`. -/
def loadTraceAndInsert (g : ShmpStore) (trace : Text) :
    Option (List (Option Bool) × ShmpStore) :=
  run loadTraceLine g (lines newline trace)

/-- The keys of a trace. -/
def traceKeys (trace : Text) : List Key :=
  (lines newline trace).filterMap fun line => (insertedKey line).map keyBuf

/-! ## Buckets and their last keys -/

/-- The last of some keys in the bucket of a key. -/
def lastOfBucket (keys : List Key) (key : Key) : Option Key :=
  keys.reverse.find? fun k => decide (entryOffset k = entryOffset key)

theorem lastOfBucket_append (keys : List Key) (k key : Key) :
    lastOfBucket (keys ++ [k]) key =
      if entryOffset k = entryOffset key then some k
      else lastOfBucket keys key := by
  rw [lastOfBucket, List.reverse_append, List.reverse_singleton,
    List.singleton_append]
  by_cases hhome : entryOffset k = entryOffset key
  · rw [if_pos hhome, List.find?_cons_of_pos]
    exact decide_eq_true hhome
  · rw [if_neg hhome, List.find?_cons_of_neg]
    · rfl
    · simpa using hhome

/-- A store into which these keys were inserted, with one value. -/
structure Loaded (g : ShmpStore) (keys : List Key) (value : Bytes) : Prop where
  issued : ∃ m, Issued g m
  sound : Sound g.self g.data
  stored : ∀ key, entryOf g.data key ≠ 0 ↔ lastOfBucket keys key = some key
  values : ∀ key, entryOf g.data key ≠ 0 → ∀ i, i < g.self.valueSize →
    g.data (entryOf g.data key + 64 + i) = value i

namespace Loaded

variable {g : ShmpStore} {keys : List Key} {value : Bytes}

/-- **Step lemma**: an insertion with new tokens. -/
theorem insert (h : Loaded g keys value) (hroom : HasRoom g.self)
    (hfresh : FreshBelow g.useMac g.rand (g.randCalls + 2)) (key : Key) :
    Loaded (afterInsert g key value) (keys ++ [key]) value := by
  obtain ⟨m, hissued⟩ := h.issued
  have hle := h.sound.room hroom
  have hshape := h.sound.shape
  have hentry : ∀ k, entryOf (afterInsert g key value).data k =
      if entryOffset key = entryOffset k then
        if k = key then g.self.nextFreeOffset else 0
      else entryOf g.data k := by
    intro k
    by_cases hhome : entryOffset key = entryOffset k
    · by_cases hk : k = key
      · rw [hk, if_pos rfl, if_pos rfl]
        exact entryOf_afterInsert h.sound hroom key value
      · rw [if_pos hhome, if_neg hk]
        exact hshape.entryOf_insertEntry_of_home hle hk hhome.symm
    · rw [if_neg hhome]
      exact hshape.entryOf_insertEntry_of_ne hle (Ne.symm hhome)
  have hpos : g.self.nextFreeOffset ≠ 0 := by
    obtain ⟨i, hcursor⟩ := hshape.cursor
    have hstart := hshape.start_ge
    omega
  refine ⟨⟨_, hissued.afterInsert key value hfresh⟩,
    sound_afterInsert h.sound hroom key value, fun k => ?_, fun k hk i hi => ?_⟩
  · rw [hentry, lastOfBucket_append]
    by_cases hhome : entryOffset key = entryOffset k
    · rw [if_pos hhome, if_pos hhome]
      by_cases hk : k = key
      · simp [hk, hpos]
      · simp [hk, Ne.symm hk]
    · rw [if_neg hhome, if_neg hhome]
      exact h.stored k
  · rw [hentry] at hk ⊢
    by_cases hhome : entryOffset key = entryOffset k
    · simp only [if_pos hhome] at hk ⊢
      by_cases hkey : k = key
      · rw [if_pos hkey]
        exact hshape.value_new hle hi
      · simp [hkey] at hk
    · rw [if_neg hhome] at hk ⊢
      have hblock := (hshape.entryOf_spec hk).2.2.block
      rw [← h.values k hk i hi]
      have hlt : i < g.self.valueSize := hi
      exact hshape.agree_insertEntry hle hblock _ (by omega) (by omega)

/-- An insertion that returns, with the tokens drawn until then all new. -/
theorem returned (h : Loaded g keys value) {key : Key} {t : UInt16}
    {g' : ShmpStore}
    (hinsert : g.insert shmpScheme key value = .returned t g')
    (hfresh : FreshBelow g.useMac g.rand g'.randCalls) :
    Loaded g' (keys ++ [key]) value ∧ g' = afterInsert g key value := by
  have hroom : HasRoom g.self := by
    by_contra hfull
    rw [insert_of_full h.sound.noBatch key value
      (h.sound.full_iff.mpr hfull)] at hinsert
    cases hinsert
  obtain ⟨m, hissued⟩ := h.issued
  have hcalls : g'.randCalls = g.randCalls + 2 := by
    obtain ⟨t', g₁, hinsert', hcalls, -⟩ := insert_of_notFull
      (S := shmpScheme) h.sound.noBatch key value
      (mt h.sound.full_iff.mp (not_not.mpr hroom))
    rw [hinsert'] at hinsert
    cases hinsert
    rw [hcalls, randCalls_acquire, randCalls_acquire]
  rw [hcalls] at hfresh
  rw [insert_of_fresh hissued h.sound hroom hfresh] at hinsert
  cases hinsert
  exact ⟨h.insert hroom hfresh key, rfl⟩

/-- What `get` finds, and what it reads with the global key. -/
theorem get (h : Loaded g keys value) (key : Key) (buf : Bytes)
    (shkey : UInt16) :
    ∃ r g', g.get shmpScheme key buf shkey = .returned r g' ∧
      (r.1 = true ↔ lastOfBucket keys key = some key) ∧
      (r.1 = true → shkey = 0 →
        ∀ i, i < g.self.valueSize → r.2 i = value i) := by
  rw [get_of_sound h.sound, ← h.stored key]
  by_cases hzero : entryOf g.data key = 0
  · rw [if_pos hzero]
    exact ⟨_, _, rfl, by simp [hzero], by simp⟩
  · rw [if_neg hzero]
    refine ⟨_, _, rfl, by simp [hzero], fun _ hglobal i hi => ?_⟩
    have hend := (h.sound.shape.entryOf_spec hzero).2.2.block.end_le
    have hle := h.sound.shape.nextFree_le
    have hread : (lookedUp shmpScheme g key 1).readCxl shmpScheme
        (wrap (entryOf g.data key + 64)) g.self.valueSize buf 0 =
          (0, fetch _ (wrap (entryOf g.data key + 64)) buf g.self.valueSize) :=
      readCxl_of_accepted (accepted_globalKey _ _)
    rw [hglobal, hread]
    show fetch _ _ buf _ i = value i
    rw [fetch_apply, if_pos hi, (draws_lookedUp key 1).data_eq,
      wrap_of_lt (show entryOf g.data key + 64 < 2 ^ 64 by omega),
      wrap_of_lt (by omega)]
    exact h.values key hzero i hi

/-- A new store. -/
theorem construct (data : Bytes) (rand : Nat → Nat) (batchKey : UInt16)
    (useMac : Bool) {obj : Instance} (hsound : Sound obj data)
    (hzero : ∀ key, bucket data key = 0) (value : Bytes) :
    Loaded (.construct shmpScheme data rand batchKey useMac obj) [] value := by
  have hnone : ∀ key, entryOf data key = 0 := by
    intro key
    rw [entryOf, hzero, ite_self]
  exact ⟨⟨_, issued_construct data rand batchKey useMac obj⟩, hsound,
    fun key => by simp [Gshm.construct, hnone key, lastOfBucket],
    fun key hne => absurd (hnone key) hne⟩

end Loaded

/-! ## Runs -/

section Runs

variable {g g' : ShmpStore} {keys : List Key} {events : List (Option Bool)}

/-- A line draws no token back. -/
theorem randCalls_le_of_line {line : Text} {event : Option Bool}
    (hstep : loadTraceLine g line = some (event, g')) :
    g.randCalls ≤ g'.randCalls := by
  unfold loadTraceLine at hstep
  split at hstep
  · cases hstep
    exact Nat.le_refl _
  · obtain ⟨t, g₁, hinsert, heq⟩ := Outcome.next_map_eq_some_iff.mp hstep
    cases heq
    exact insert_randCalls_le hinsert

/-- **Run lemma**: the keys of the lines read so far have been inserted. -/
theorem loaded_of_lines {ls : List Text} (h : Loaded g keys dummyValue)
    (hrun : run loadTraceLine g ls = some (events, g'))
    (hfresh : FreshBelow g.useMac g.rand g'.randCalls) :
    Loaded g' (keys ++ ls.filterMap fun line => (insertedKey line).map keyBuf)
      dummyValue ∧ g'.self.valueSize = g.self.valueSize := by
  induction ls generalizing g keys events with
  | nil =>
      cases hrun
      simp [h]
  | cons line ls ih =>
      obtain ⟨event, g₁, events, hstep, hrest, rfl⟩ :=
        run_cons_eq_some_iff.mp hrun
      have hle := run_cost_le (fun _ _ _ _ => randCalls_le_of_line) hrest
      unfold loadTraceLine at hstep
      split at hstep
      · rename_i hskip
        cases hstep
        simpa [hskip] using ih h hrest hfresh
      · rename_i keyStr hline
        obtain ⟨t, g₂, hinsert, heq⟩ := Outcome.next_map_eq_some_iff.mp hstep
        cases heq
        obtain ⟨hloaded, hafter⟩ := h.returned hinsert (hfresh.mono hle)
        have hnext := ih hloaded hrest (by rw [hafter]; exact hfresh)
        have hself : g₂.self.valueSize = g.self.valueSize := by
          rw [hafter]
          rfl
        rw [hself] at hnext
        simpa [hline] using hnext

/-- `load_trace_and_insert` fills a new store on host 1 or above, with values of
at most 256 bytes, over a zeroed bucket table, and the tokens drawn until it
returns are all new.  Then `get`
finds a key if and only if it is the last key of its bucket in the trace, and
with the global key it reads the value that was loaded. -/
theorem trace_loaded (data : Bytes) (rand : Nat → Nat) (batchKey : UInt16)
    (useMac : Bool) (dataAddr : DataAddr) (mac : Option UInt8)
    (hmac : 0 < getMac mac) {valueSize : Nat} (hsize : valueSize ≤ 256)
    (hzero : ∀ key, bucket data key = 0) (trace : Text)
    (hload : loadTraceAndInsert (.construct shmpScheme data rand batchKey useMac
      ((Instance.construct dataAddr mac).withValueSize valueSize)) trace =
        some (events, g))
    (hfresh : FreshBelow useMac rand g.randCalls) (key : Key) (buf : Bytes)
    (shkey : UInt16) :
    ∃ r g', g.get shmpScheme key buf shkey = .returned r g' ∧
      (r.1 = true ↔ lastOfBucket (traceKeys trace) key = some key) ∧
      (r.1 = true → shkey = 0 →
        ∀ i, i < valueSize → r.2 i = dummyValue i) := by
  have hsound : Sound ((Instance.construct dataAddr mac).withValueSize
      valueSize) data := .construct hmac (by omega) hzero
  have hnew := Loaded.construct data rand batchKey useMac hsound hzero
    dummyValue
  obtain ⟨hloaded, hvalue⟩ := loaded_of_lines hnew hload hfresh
  have hget := hloaded.get key buf shkey
  rw [hvalue] at hget
  exact hget

end Runs

/-! ## One line -/

/-- A trace with a line to skip and a line to load. -/
def shortTrace : Text := ascii "READ t a\nINSERT t a\n"

theorem trace_loaded_short :
    ∃ events g,
      loadTraceAndInsert (.construct shmpScheme (fun _ => 0) (fun i => i + 1) 0
        false ((Instance.construct ⟨2 ^ 46, by decide, by decide⟩
          (some 1)).withValueSize 256)) shortTrace = some (events, g) ∧
      ∃ r g', g.get shmpScheme (keyBuf (ascii "a")) (fun _ => 0) 0 =
          .returned r g' ∧
        (r.1 = true ↔ lastOfBucket (traceKeys shortTrace)
          (keyBuf (ascii "a")) = some (keyBuf (ascii "a"))) ∧
        (r.1 = true → (0 : UInt16) = 0 →
          ∀ i, i < 256 → r.2 i = dummyValue i) := by
  have hroom : HasRoom countingStore.self := by decide
  have hlines : lines newline shortTrace =
      [ascii "READ t a", ascii "INSERT t a"] := by decide
  have hskip : insertedKey (ascii "READ t a") = none := by decide
  have hline : insertedKey (ascii "INSERT t a") = some (ascii "a") := by decide
  have hload : loadTraceAndInsert countingStore shortTrace =
      some ([none, some true],
        afterInsert countingStore (keyBuf (ascii "a")) dummyValue) := by
    rw [loadTraceAndInsert, hlines]
    simp only [run, loadTraceLine, hskip, hline]
    rw [insert_of_fresh issued_countingStore sound_countingStore hroom
      freshBelow_countingStore]
    rfl
  refine ⟨_, _, hload, trace_loaded (fun _ => 0) (fun i => i + 1) 0 false
    ⟨2 ^ 46, by decide, by decide⟩ (some 1) (by decide) (by decide)
    (fun _ => rfl) shortTrace hload freshBelow_countingStore _ _ 0⟩

end SHMemora.Ports
