import SHMemora.Ports.LayoutOverlap
import SHMemora.Ports.UprInsertion

/-!
# Calls over the bucket table and the partitions

Every call of `gshm_upr` and of `gshm` outside batch mode is one of the
effects of `LayoutOverlap`, provided that the chain of its key has at most one
entry: `uprStep_of_short` for the class whose writes are all made (`Made`), and
`gshmStep_effect_of_short` for the one whose writes may be refused.  `put` must
find the entries of 328 bytes that it counts on.
-/

namespace SHMemora.Ports

open SHMemora.Verified.ByteMemory
open SHMemora.Verified.StepRun

/-! ## The calls of `gshm_upr` -/

/-- The key of a call. -/
def UprOp.key : UprOp → Key
  | .get key _ => key
  | .update key _ => key
  | .insert key _ => key
  | .put key _ => key
  | .del key => key

/-- `put`, which counts on entries of 328 bytes. -/
def UprOp.IsPut : UprOp → Prop
  | .put .. => True
  | _ => False

section Upr

variable {u u' : GshmUpr} {reply : Reply}

/-- An insertion is made where there is room. -/
theorem GshmUpr.insertPlain_of_plain (h : Plain u.self) (key : Key)
    (value : Bytes) :
    u.insertPlain key value =
      if HasRoom u.self then .returned true
        ⟨insertEntry u.data u.self.valueSize u.self.nextFreeOffset key value,
          u.self.advance⟩
      else .returned false u := by
  by_cases hroom : HasRoom u.self
  · have hle := h.room hroom
    rw [if_pos hroom]
    exact insertPlain_of_room (mt h.full_iff.mp (not_not.mpr hroom))
      (by omega) h.wrap_advance key value
  · rw [if_neg hroom]
    exact if_pos (h.full_iff.mpr hroom)

theorem GshmUpr.insert_of_plain (h : Plain u.self) (key : Key)
    (value : Bytes) : u.insert key value = u.insertPlain key value :=
  if_neg (by rw [h.noBatch]; decide)

theorem placed_insertEntry (m : Bytes) (valueSize e : Nat) (key : Key)
    (value : Bytes) :
    Placed m (insertEntry m valueSize e key value) valueSize e key value :=
  ⟨_, _, _, .inr rfl, .inr rfl, .inr rfl, .inr rfl⟩

/-- What a call for `key` does when all of its writes are made. -/
inductive Made (key : Key) (obj : Instance) (m : Bytes) :
    Instance → Bytes → Prop
  | keep : Made key obj m obj m
  | value (value : Bytes) (hne : entryOf m key ≠ 0) :
      Made key obj m obj (writeValue m obj.valueSize (entryOf m key) value)
  | unlink : Made key obj m obj (setBucket m key 0)
  | place (value : Bytes) (hroom : HasRoom obj) :
      Made key obj m obj.advance
        (insertEntry m obj.valueSize obj.nextFreeOffset key value)

theorem Made.effect {key : Key} {obj obj' : Instance} {m m' : Bytes}
    (h : Made key obj m obj' m') : Effect key obj m obj' m' := by
  cases h with
  | keep => exact .keep
  | value value hne => exact .value value hne (.inr rfl)
  | unlink => exact .unlink
  | place value hroom =>
      exact .place value hroom (placed_insertEntry _ _ _ _ _)

theorem insertPlain_made (h : Plain u.self) (key : Key) (value : Bytes) :
    ∃ b u', u.insertPlain key value = .returned b u' ∧
      Made key u.self u.data u'.self u'.data := by
  rw [GshmUpr.insertPlain_of_plain h]
  by_cases hroom : HasRoom u.self
  · rw [if_pos hroom]
    exact ⟨_, _, rfl, .place value hroom⟩
  · rw [if_neg hroom]
    exact ⟨_, _, rfl, .keep⟩

theorem insertPlain_effect (h : Plain u.self) {key : Key} {value : Bytes}
    {b : Bool} (hcall : u.insertPlain key value = .returned b u') :
    Effect key u.self u.data u'.self u'.data := by
  obtain ⟨_, _, hcall', hmade⟩ := insertPlain_made h key value
  rw [hcall] at hcall'
  cases hcall'
  exact hmade.effect

/-- **Every call returns** where the chain of its key has at most one
entry. -/
theorem uprStep_of_short (hplain : Plain u.self) {op : UprOp}
    (hput : op.IsPut → u.self.valueSize = 256)
    (hshort : ShortChain u.data u.self.valueSize op.key)
    (hend : entryOf u.data op.key ≠ 0 →
      entryOf u.data op.key + (72 + u.self.valueSize) ≤ 2 ^ 63) :
    ∃ reply u', uprStep u op = some (reply, u') ∧
      Made op.key u.self u.data u'.self u'.data := by
  cases op with
  | get key value =>
      simp only [UprOp.key] at hshort hend ⊢
      rw [uprStep, GshmUpr.get_of_short hshort]
      split <;> exact ⟨_, _, rfl, .keep⟩
  | update key value =>
      simp only [UprOp.key] at hshort hend ⊢
      rw [uprStep, GshmUpr.update_of_short hshort hend]
      split
      case isTrue => exact ⟨_, _, rfl, .keep⟩
      case isFalse hne => exact ⟨_, _, rfl, .value value hne⟩
  | insert key value =>
      simp only [UprOp.key] at hshort hend ⊢
      obtain ⟨b, u', hcall, hmade⟩ := insertPlain_made hplain key value
      rw [uprStep, GshmUpr.insert_of_plain hplain, hcall]
      exact ⟨_, _, rfl, hmade⟩
  | put key value =>
      simp only [UprOp.key] at hshort hend ⊢
      have hsize := hput trivial
      rw [uprStep]
      by_cases hzero : entryOf u.data key = 0
      · have hlength : u.self.entrySize = 328 := by
          rw [hplain.sizes, hsize]
        obtain ⟨b, u', hcall, hmade⟩ := insertPlain_made hplain key value
        rw [GshmUpr.put_of_short_absent hshort hsize hlength hzero, hcall]
        exact ⟨_, _, rfl, hmade⟩
      · rw [GshmUpr.put_of_short_stored hshort hsize hzero (hend hzero)]
        exact ⟨_, _, rfl, .value value hzero⟩
  | del key =>
      simp only [UprOp.key] at hshort hend ⊢
      rw [uprStep, GshmUpr.del_of_short hshort]
      split
      case isTrue => exact ⟨_, _, rfl, .keep⟩
      case isFalse => exact ⟨_, _, rfl, .unlink⟩

/-- The key of a new entry whose bucket word is apart from it. -/
theorem keyAt_insertEntry {m : Bytes} {valueSize e : Nat} {key : Key}
    {value : Bytes} (hend : e + (72 + valueSize) ≤ 2 ^ 63)
    (hapart : Apart e 64 (entryOffset key) 8) :
    keyAt (insertEntry m valueSize e key value) e = key := by
  rw [insertEntry, keyAt_congr (by omega) (agree_setBucket hapart),
    keyAt_writeEntry hend]

/-- An insertion into an object with room for it. -/
theorem uprStep_insert_of_room (h : Plain u.self)
    (hroom : HasRoom u.self) (key : Key) (value : Bytes) :
    uprStep u (.insert key value) = some (.answer true,
      ⟨insertEntry u.data u.self.valueSize u.self.nextFreeOffset key value,
        u.self.advance⟩) := by
  have hcall := GshmUpr.insertPlain_of_plain h key value
  rw [if_pos hroom, ← GshmUpr.insert_of_plain h] at hcall
  rw [uprStep, hcall]
  rfl

end Upr

/-! ## The calls of `gshm` -/

section Protected

variable {τ : Type} [DecidableEq τ] {n : Nat} [NeZero n]
variable {S : TokenScheme τ n} {g g' : Gshm τ n}

theorem writeCxl_written (S : TokenScheme τ n) (g : Gshm τ n)
    (offset size : Nat) (buf : Bytes) (shkey : τ) :
    Written g.data (g.writeCxl S offset size buf shkey).2.data offset buf
      size := by
  unfold Gshm.writeCxl
  split
  · exact .inl rfl
  · exact .inr rfl

/-- An entry filled under one token and linked under another. -/
theorem fillEntry_placed (S : TokenScheme τ n) (g : Gshm τ n)
    (e valueSize : Nat) (key : Key) (value : Bytes) (shkey shkey' : τ) :
    Placed g.data ((g.fillEntry S e valueSize key value shkey).writeCxl S
      (entryOffset key) 8 (ofWord e) shkey').2.data valueSize e key value :=
  ⟨_, _, _, writeCxl_written S _ _ _ _ _, writeCxl_written S _ _ _ _ _,
    writeCxl_written S _ _ _ _ _, writeCxl_written S _ _ _ _ _⟩

/-- The same as an effect on an object with room. -/
theorem fillEntry_effect {obj : Instance} (hroom : HasRoom obj)
    (g : Gshm τ n) (key : Key) (value : Bytes) (shkey shkey' : τ) :
    Effect key obj g.data obj.advance
      ((g.fillEntry S obj.nextFreeOffset obj.valueSize key value
        shkey).writeCxl S (entryOffset key) 8 (ofWord obj.nextFreeOffset)
        shkey').2.data :=
  .place value hroom (fillEntry_placed S g _ _ key value shkey shkey')

theorem keyAt_of_compareCxl {e : Nat} {key : Key} {shkey : τ}
    (h : g.compareCxl S e 64 key.buf shkey = 0) : keyAt g.data e = key := by
  rw [Gshm.compareCxl] at h
  split at h
  case h_1 => contradiction
  case h_2 => exact safeMemcmp_key_iff.mp h

/-- A word read by `read_cxl` is the one in memory, or the variable keeps what
it held. -/
theorem readWord_cases (S : TokenScheme τ n) (g : Gshm τ n)
    (offset : Nat) {init : Nat} (hinit : init < 2 ^ 64) (shkey : τ) :
    g.readWord S offset init shkey = init ∨
      g.readWord S offset init shkey = loadWord g.data offset := by
  rw [Gshm.readWord, Gshm.readCxl]
  split
  · exact .inl ((word_ofWord init).trans (wrap_of_lt hinit))
  · exact .inr (word_fetch _ _ _)

/-- The loop of `put` on a chain of at most one entry. -/
theorem putLoop_of_short {key : Key} {value : Bytes} {fuel entry : Nat}
    {b : Bool} (hshort : nextEntry g.data 320 (bucket g.data key) = 0 ∨
      bucket g.data key = 0)
    (hentry : entry = 0 ∨ entry = bucket g.data key)
    (h : g.putLoop S key value fuel entry = some (b, g')) :
    (b = false ∧ g'.data = g.data ∧ g'.self = g.self) ∨
      (b = true ∧ entryOf g.data key ≠ 0 ∧ g'.self = g.self ∧
        Written g.data g'.data (wrap (entryOf g.data key + 64)) value 256) := by
  induction fuel generalizing g entry with
  | zero => contradiction
  | succ fuel ih =>
      rw [Gshm.putLoop] at h
      by_cases hzero : entry = 0
      · rw [if_pos hzero] at h
        cases h
        exact .inl ⟨rfl, rfl, rfl⟩
      · have hbucket : entry = bucket g.data key :=
          hentry.resolve_left hzero
        rw [if_neg hzero] at h
        simp only at h
        split at h
        case isTrue hcompare =>
          have hmatch : keyAt (g.acquire S entry 328 3).2.data entry = key :=
            keyAt_of_compareCxl hcompare
          rw [Gshm.acquire_data] at hmatch
          have hentryOf : entryOf g.data key = entry := by
            rw [entryOf, ← hbucket, if_pos hmatch]
          cases h
          refine .inr ⟨rfl, by rw [hentryOf]; exact hzero, ?_, ?_⟩
          · rw [Gshm.writeCxl_self, Gshm.acquire_self]
          rw [hentryOf]
          exact writeCxl_written S _ _ _ _ _
        case isFalse =>
          have hlt : entry < 2 ^ 64 := hbucket ▸ loadWord_lt g.data _
          refine ih (g := (g.acquire S entry 328 3).2) hshort ?_ h
          rcases readWord_cases S (g.acquire S entry 328 3).2
            (wrap (entry + 320)) hlt (g.acquire S entry 328 3).1
            with hsame | hnext
          · rw [hsame]
            exact .inr hbucket
          · have hlast := hshort.resolve_right (hbucket ▸ hzero)
            rw [← hbucket] at hlast
            exact .inl (hnext.trans hlast)

/-- `put`, which counts on entries of 328 bytes. -/
def GshmOp.IsPut : GshmOp τ → Prop
  | .put .. => True
  | _ => False

/-- The key of a call of the key-value interface. -/
def GshmOp.key : GshmOp τ → Option Key
  | .get key _ _ => some key
  | .update key _ _ => some key
  | .insert key _ => some key
  | .put key _ => some key
  | .del key _ => some key
  | _ => none

theorem lookedUp_data (key : Key) (permission : UInt8) :
    (lookedUp S g key permission).data = g.data :=
  (draws_lookedUp key permission).data_eq

theorem lookedUp_self (key : Key) (permission : UInt8) :
    (lookedUp S g key permission).self = g.self :=
  (draws_lookedUp key permission).self_eq

/-- An insertion places an entry or ends the process. -/
theorem insertPlain_effect' (h : Plain g.self) {key : Key} {value : Bytes}
    {t t' : τ} (hcall : g.insertPlain S t key value = .returned t' g') :
    Effect key g.self g.data g'.self g'.data := by
  rw [Gshm.insertPlain] at hcall
  simp only at hcall
  split at hcall
  case isTrue => contradiction
  case isFalse hnotFull =>
    have hroom : HasRoom g.self := not_not.mp (mt h.full_iff.mpr hnotFull)
    cases hcall
    simp only [Gshm.writeCxl_self, fillEntry_self, Gshm.acquire_self,
      h.wrap_advance]
    exact fillEntry_effect hroom
      (g.acquire S g.self.nextFreeOffset g.self.entrySize 3).2 key value _ t

theorem insertPlain_exited {key : Key} {value : Bytes} {t : τ}
    (hcall : g.insertPlain S t key value = .exited g') : g' = g := by
  rw [Gshm.insertPlain] at hcall
  simp only at hcall
  split at hcall
  case isTrue => cases hcall; rfl
  case isFalse => contradiction

/-- The end of `put` is that of `insert`, but for what it returns. -/
theorem putNew_eq (hsize : g.self.valueSize = 256)
    (hlength : g.self.entrySize = 328) (t : τ) (key : Key) (value : Bytes) :
    g.putNew S t key value =
      match g.insertPlain S t key value with
      | .returned _ g' => .returned true g'
      | .exited g' => .returned false g'
      | .running => .running := by
  rw [Gshm.putNew, ← hlength, ← hsize, Gshm.insertPlain]
  split <;> rfl

theorem putNew_effect (h : Plain g.self) (hsize : g.self.valueSize = 256)
    {key : Key} {value : Bytes} {b : Bool} {t : τ}
    (hcall : g.putNew S t key value = .returned b g') :
    Effect key g.self g.data g'.self g'.data := by
  have hlength : g.self.entrySize = 328 := by
    rw [h.sizes, hsize]
  rw [putNew_eq hsize hlength] at hcall
  cases hplain : g.insertPlain S t key value with
  | returned t' g₁ =>
      rw [hplain] at hcall
      cases hcall
      exact insertPlain_effect' h hplain
  | exited g₁ =>
      rw [hplain] at hcall
      cases hcall
      rw [insertPlain_exited hplain]
      exact .keep
  | running =>
      rw [hplain] at hcall
      contradiction

theorem insert_effect (h : Plain g.self) {key : Key} {value : Bytes} {t : τ}
    (hcall : g.insert S key value = .returned t g') :
    Effect key g.self g.data g'.self g'.data := by
  have hplain : ¬ g.self.useBatch = true := by
    rw [h.noBatch]
    decide
  rw [Gshm.insert, if_neg hplain] at hcall
  exact insertPlain_effect' (g := (g.acquire S (entryOffset key) 8 3).2) h
    hcall

/-- A key-value call of `gshm` for a key whose chain has at most one entry. -/
theorem gshmStep_effect_of_short (h : Plain g.self) {key : Key}
    (hshort : ShortChain g.data g.self.valueSize key) {fuel : Nat}
    {op : GshmOp τ} (hput : op.IsPut → g.self.valueSize = 256)
    {result : GshmResult τ} (hkey : op.key = some key)
    (hstep : gshmStep S fuel g op = some (result, g')) :
    Effect key g.self g.data g'.self g'.data := by
  cases op with
  | get k value shkey =>
      cases hkey
      rw [gshmStep, get_of_short hshort] at hstep
      split at hstep <;> cases hstep <;>
        simp only [lookedUp_data, lookedUp_self] <;> exact .keep
  | update k value shkey =>
      cases hkey
      rw [gshmStep, update_of_short hshort] at hstep
      split at hstep
      case isTrue =>
        cases hstep
        simp only [lookedUp_data, lookedUp_self]
        exact .keep
      case isFalse hne =>
        cases hstep
        have hwritten := writeCxl_written S (lookedUp S g key 3)
          (wrap (entryOf g.data key + 64)) g.self.valueSize value shkey
        rw [lookedUp_data] at hwritten
        simp only [Gshm.writeCxl_self, lookedUp_self]
        exact .value value hne hwritten
  | insert k value =>
      cases hkey
      obtain ⟨t, g₁, hcall, heq⟩ := Outcome.next_map_eq_some_iff.mp hstep
      cases heq
      exact insert_effect h hcall
  | put k value =>
      cases hkey
      have hsize := hput trivial
      obtain ⟨b, g₁, hcall, heq⟩ := Outcome.next_map_eq_some_iff.mp hstep
      cases heq
      rw [Gshm.put] at hcall
      have hlast : nextEntry g.data 320 (bucket g.data key) = 0 ∨
          bucket g.data key = 0 := by
        by_cases hzero : bucket g.data key = 0
        · exact .inr hzero
        · have hnext := hshort hzero
          rw [hsize] at hnext
          exact .inl hnext
      have hentry := readWord_cases S (g.acquire S (entryOffset key) 8 3).2
        (entryOffset key) (show 0 < 2 ^ 64 by decide)
        (g.acquire S (entryOffset key) 8 3).1
      split at hcall
      case h_1 => contradiction
      case h_2 g₂ hloop =>
        cases hcall
        rcases putLoop_of_short (g := (g.acquire S (entryOffset key) 8 3).2)
          hlast hentry hloop with ⟨hfalse, _⟩ | ⟨_, hne, hself, hwritten⟩
        · contradiction
        · rw [hself, Gshm.acquire_self]
          refine .value value hne ?_
          rw [hsize]
          exact hwritten
      case h_3 g₂ hloop =>
        rcases putLoop_of_short (g := (g.acquire S (entryOffset key) 8 3).2)
          hlast hentry hloop with ⟨_, hdata, hself⟩ | ⟨htrue, _⟩
        · rw [Gshm.acquire_data] at hdata
          rw [Gshm.acquire_self] at hself
          have heffect := putNew_effect (S := S) (g := g₂)
            (by rw [hself]; exact h) (by rw [hself]; exact hsize) hcall
          rw [hdata, hself] at heffect
          exact heffect
        · contradiction
  | del k shkey =>
      cases hkey
      rw [gshmStep, del_of_short hshort] at hstep
      split at hstep
      case isTrue => cases hstep; exact .keep
      case isFalse => cases hstep; exact .unlink
  | _ => cases hkey

/-- **Step lemma** for the key-value calls of `gshm`. -/
theorem gshmStep_effect (h : Linked g.self g.data) {fuel : Nat}
    {op : GshmOp τ} (hput : op.IsPut → g.self.valueSize = 256)
    {result : GshmResult τ} {key : Key} (hkey : op.key = some key)
    (hoff : OffPartition g.self key)
    (hstep : gshmStep S fuel g op = some (result, g')) :
    Effect key g.self g.data g'.self g'.data :=
  gshmStep_effect_of_short h.plain (h.short hoff) hput hkey hstep

/-! ## The members of an object -/

theorem get_self {key : Key} {value : Bytes} {shkey : τ} {r : Bool × Bytes}
    (h : g.get S key value shkey = .returned r g') : g'.self = g.self := by
  rw [Gshm.get] at h
  split at h
  case h_1 => contradiction
  case h_2 hlookup =>
    split at h <;> cases h <;> exact (draws_of_lookup hlookup).self_eq

theorem update_self {key : Key} {value : Bytes} {shkey : τ} {b : Bool}
    (h : g.update S key value shkey = .returned b g') : g'.self = g.self := by
  rw [Gshm.update] at h
  split at h
  case h_1 => contradiction
  case h_2 hlookup =>
    split at h
    case isTrue =>
      cases h
      exact (draws_of_lookup hlookup).self_eq
    case isFalse =>
      cases h
      rw [Gshm.writeCxl_self]
      exact (draws_of_lookup hlookup).self_eq

theorem putLoop_self {key : Key} {value : Bytes} {fuel entry : Nat} {b : Bool}
    (h : g.putLoop S key value fuel entry = some (b, g')) :
    g'.self = g.self := by
  induction fuel generalizing g entry with
  | zero => contradiction
  | succ fuel ih =>
      rw [Gshm.putLoop] at h
      split at h
      case isTrue => cases h; rfl
      case isFalse =>
        simp only at h
        split at h
        case isTrue =>
          cases h
          rw [Gshm.writeCxl_self, Gshm.acquire_self]
        case isFalse => exact (ih h).trans (g.acquire_self S entry 328 3)

theorem delLoop_self {key : Key} {shkey : τ} {fuel prevNextPtr entry : Nat}
    {b : Bool}
    (h : g.delLoop S key shkey fuel prevNextPtr entry = .returned b g') :
    g'.self = g.self := by
  induction fuel generalizing prevNextPtr entry with
  | zero => contradiction
  | succ fuel ih =>
      rw [Gshm.delLoop] at h
      split at h
      case isTrue => cases h; rfl
      case isFalse =>
        simp only at h
        split at h
        case isTrue =>
          cases h
          rw [Gshm.writeCxl_self]
        case isFalse => exact ih h

/-- An insertion hands a block out where there is room. -/
theorem gshmStep_insert (h : Plain g.self) (hroom : HasRoom g.self)
    (fuel : Nat) (key : Key) (value : Bytes) :
    ∃ result g', gshmStep S fuel g (.insert key value) = some (result, g') ∧
      g'.self = g.self.advance := by
  obtain ⟨t, g', hcall, _, hself⟩ := insert_of_notFull (S := S) h.noBatch key
    value (mt h.full_iff.mp (not_not.mpr hroom))
  rw [h.wrap_advance] at hself
  exact ⟨.shkey t, g', by rw [gshmStep, hcall]; rfl, hself⟩

/-! ## The other calls -/

/-- `write_cxl`, the call that writes wherever the caller says. -/
def GshmOp.IsWriteCxl : GshmOp τ → Prop
  | .writeCxl .. => True
  | _ => False

/-- The other calls of `gshm` leave object and data area as they are. -/
theorem gshmStep_frame {fuel : Nat} {op : GshmOp τ} {result : GshmResult τ}
    (hkey : op.key = none) (hraw : ¬ op.IsWriteCxl)
    (hstep : gshmStep S fuel g op = some (result, g')) :
    g'.self = g.self ∧ g'.data = g.data := by
  cases op with
  | writeCxl offset size buf shkey => exact absurd trivial hraw
  | get key value shkey => cases hkey
  | update key value shkey => cases hkey
  | insert key value => cases hkey
  | put key value => cases hkey
  | del key shkey => cases hkey
  | _ => cases hstep; exact ⟨rfl, rfl⟩

end Protected

end SHMemora.Ports
