import SHMemora.Ports.GshmUprStore
import SHMemora.Ports.PutRounds

/-!
# A client with the global key

A client that passes the global key wherever a token is asked for is not
checked at all: what is left of the protection are the tokens that `insert` and
`put` draw for themselves.  As long as these are new, the store of `gshmp.cpp`
does what `gshm_upr` does, call by call and with the same memory.

`put`, which draws its tokens in a loop, needs two rounds of it.

## Main result

* `global_client_agrees` — the two stores under any run of calls.
-/

namespace SHMemora.Ports

open SHMemora.Verified.ByteMemory
open SHMemora.Verified.StepRun

/-! ## `put` with new tokens -/

section FreshPut

variable {g : ShmpStore} {m : TokenMap UInt16} {key : Key} {t : UInt16}

/-- The unprotected store over the same memory, mapped at `a`. -/
def unprotected (g : ShmpStore) (a : DataAddr) : GshmUpr :=
  ⟨g.data, { g.self with dataAddr := a }⟩

theorem sound_unprotected (h : Sound g.self g.data) (a : DataAddr) :
    Sound (unprotected g a).self (unprotected g a).data :=
  ⟨h.noBatch, h.sizes, h.small, h.partition, h.shape⟩

theorem unprotected_of_draws {g' : ShmpStore}
    (hdraws : Draws shmpScheme g g') (a : DataAddr) :
    unprotected g' a = unprotected g a := by
  rw [unprotected, unprotected, hdraws.data_eq, hdraws.self_eq]

/-- **The end of `put`**: a new token for the entry, and one that is bound to
the bucket word. -/
theorem putNew_of_fresh (h : Issued g m) (hsound : Sound g.self g.data)
    (hsize : g.self.valueSize = 256) (hroom : HasRoom g.self)
    (hfresh : FreshBelow g.useMac g.rand (g.randCalls + 1)) (hkey : t ≠ 0)
    (hbound : m t = some (request (entryOffset key) 8 3)) (value : Bytes) :
    g.putNew shmpScheme t key value = .returned true
      { (g.acquire shmpScheme g.self.nextFreeOffset 328 3).2 with
        data := insertEntry g.data g.self.valueSize g.self.nextFreeOffset key
          value
        self := g.self.advance } := by
  have hle := hsound.room hroom
  have hlength : g.self.entrySize = 328 := by rw [hsound.sizes, hsize]
  have hnotFull := mt hsound.full_iff.mp (not_not.mpr hroom)
  have hissued := h.acquire g.self.nextFreeOffset 328 3 hfresh
  have hentry : binding shmpScheme
      (g.acquire shmpScheme g.self.nextFreeOffset 328 3).2.table
      (tokenAt g.useMac g.rand g.randCalls) =
        some (request g.self.nextFreeOffset 328 3) := by
    rw [hissued.binding_eq]
    exact Function.update_self _ _ _
  have hother : t ≠ tokenAt g.useMac g.rand g.randCalls := by
    rintro rfl
    rw [h.unbound hfresh] at hbound
    cases hbound
  have hword : binding shmpScheme
      (g.acquire shmpScheme g.self.nextFreeOffset 328 3).2.table t =
        some (request (entryOffset key) 8 3) := by
    rw [hissued.binding_eq, Function.update_of_ne hother]
    exact hbound
  have hperm : (request g.self.nextFreeOffset 328 3).permission &&& 2 ≠ 0 :=
    show BitVec.ofNat 32 (3 : UInt8).toNat &&& 2 ≠ 0 by decide
  have hoffset : (request g.self.nextFreeOffset 328 3).offset =
      g.self.nextFreeOffset := wrap_of_lt (by omega)
  have hregion : (request g.self.nextFreeOffset 328 3).size = 328 :=
    wrap_of_lt (by omega)
  have hfill : (g.acquire shmpScheme g.self.nextFreeOffset 328
      3).2.fillEntry shmpScheme g.self.nextFreeOffset 256 key value
        (tokenAt g.useMac g.rand g.randCalls) =
      { (g.acquire shmpScheme g.self.nextFreeOffset 328 3).2 with
        data := writeEntry g.data 256 g.self.nextFreeOffset key value } :=
    fillEntry_of_bound (hfresh g.randCalls (by omega)).1 hentry hperm
      (by omega) (by omega) (by omega) (by omega)
  have hlink : Gshm.writeCxl shmpScheme
      { (g.acquire shmpScheme g.self.nextFreeOffset 328 3).2 with
        data := writeEntry g.data 256 g.self.nextFreeOffset key value }
      (entryOffset key) 8 (ofWord g.self.nextFreeOffset) t =
        (0, { (g.acquire shmpScheme g.self.nextFreeOffset 328 3).2 with
          data := setBucket (writeEntry g.data 256 g.self.nextFreeOffset key
            value) key g.self.nextFreeOffset }) :=
    writeBucket_of_bound (g :=
      { (g.acquire shmpScheme g.self.nextFreeOffset 328 3).2 with
        data := writeEntry g.data 256 g.self.nextFreeOffset key value })
      hkey hword _
  have hadvance : wrap (g.self.nextFreeOffset + 328) =
      g.self.nextFreeOffset + g.self.entrySize := by
    rw [← hsound.wrap_advance hroom, hlength]
  rw [hlength] at hnotFull
  rw [Gshm.putNew, if_neg hnotFull]
  simp only [acquire_fst, hfill, hlink, hadvance]
  rw [hsize]
  rfl

/-- A token that is drawn for the first time opens its range. -/
theorem accepted_of_new (kind : AccessKind) (hkind : kind ≠ .write)
    (h : Issued g m) (hfresh : FreshBelow g.useMac g.rand (g.randCalls + 1))
    {offset size o s : Nat} (hsize : 0 < size) (hend : offset + size < 2 ^ 64)
    (hlo : offset ≤ o) (hhi : o + s ≤ offset + size) :
    Accepted shmpScheme (g.acquire shmpScheme offset size 3).2 kind o s
      (tokenAt g.useMac g.rand g.randCalls) :=
  (accepted_iff_admits (represents_acquire h.represents offset size)
    hkind).mpr ((admits_drawMap hsize hend hlo hhi).mpr
      (.inl (h.unbound hfresh)))

/-- What `put` has drawn and read when its loop ends without the key. -/
theorem putLoop_of_absent (h : Issued g m) (hsound : Sound g.self g.data)
    (hsize : g.self.valueSize = 256) (habsent : entryOf g.data key = 0)
    (hfresh : FreshBelow g.useMac g.rand (g.randCalls + 1)) (value : Bytes)
    (fuel : Nat) :
    ∃ g', g.putLoop shmpScheme key value (fuel + 2) (bucket g.data key) =
        some (false, g') ∧ Draws shmpScheme g g' ∧
      g'.randCalls ≤ g.randCalls + 1 := by
  by_cases hzero : bucket g.data key = 0
  · refine ⟨g, ?_, .refl g, Nat.le_succ _⟩
    rw [Gshm.putLoop, if_pos hzero]
  · have hholds := hsound.shape.entries key hzero
    have hend := hholds.block.end_le
    have hle := hsound.shape.nextFree_le
    have hlast := hholds.last
    rw [hsize] at hend hlast
    have hother : keyAt g.data (bucket g.data key) ≠ key := by
      intro hmatch
      rw [entryOf, if_pos hmatch] at habsent
      exact hzero habsent
    have hread := accepted_of_new .read (by simp) h hfresh
      (show 0 < 328 by omega)
      (show bucket g.data key + 328 < 2 ^ 64 by omega)
      (show bucket g.data key ≤ bucket g.data key + 320 by omega)
      (show bucket g.data key + 320 + 8 ≤ bucket g.data key + 328 by omega)
    rw [← wrap_of_lt (show bucket g.data key + 320 < 2 ^ 64 by omega)] at hread
    refine ⟨(g.acquire shmpScheme (bucket g.data key) 328 3).2, ?_,
      .acquire _ _ _ (.refl _), (randCalls_acquire ..).le⟩
    rw [Gshm.putLoop, if_neg hzero]
    have hcompare : ¬ (g.acquire shmpScheme (bucket g.data key) 328
        3).2.compareCxl shmpScheme (bucket g.data key) 64 key.buf
          (g.acquire shmpScheme (bucket g.data key) 328 3).1 = 0 :=
      fun hequal => hother (compareCxl_eq_zero_iff.mp hequal).2
    simp only [if_neg hcompare]
    rw [acquire_fst, readWord_of_accepted hread, Gshm.acquire_data]
    rw [show loadWord g.data (wrap (bucket g.data key + 320)) = 0 from hlast]
    rw [Gshm.putLoop, if_pos rfl]

/-- The loop of `put` at the entry of a stored key. -/
theorem putLoop_of_stored (h : Issued g m) (hsound : Sound g.self g.data)
    (hsize : g.self.valueSize = 256) (hstored : entryOf g.data key ≠ 0)
    (hfresh : FreshBelow g.useMac g.rand (g.randCalls + 1)) (value : Bytes)
    (fuel : Nat) :
    g.putLoop shmpScheme key value (fuel + 1) (bucket g.data key) =
      some (true, { (g.acquire shmpScheme (entryOf g.data key) 328 3).2 with
        data := writeValue g.data g.self.valueSize (entryOf g.data key)
          value }) := by
  obtain ⟨hbucket, hmatch⟩ := entryOf_eq_bucket hstored
  have hend := hsound.entry_end_le hstored
  rw [hsize] at hend
  rw [hbucket] at hstored hend ⊢
  have hkey := (hfresh g.randCalls (by omega)).1
  have hequal : (g.acquire shmpScheme (bucket g.data key) 328
      3).2.compareCxl shmpScheme (bucket g.data key) 64 key.buf
        (tokenAt g.useMac g.rand g.randCalls) = 0 :=
    compareCxl_eq_zero_iff.mpr ⟨accepted_of_new .compare (by simp) h hfresh
      (by omega) (by omega) (by omega) (by omega), hmatch⟩
  have hissued := h.acquire (bucket g.data key) 328 3 hfresh
  have hbound : binding shmpScheme
      (g.acquire shmpScheme (bucket g.data key) 328 3).2.table
      (tokenAt g.useMac g.rand g.randCalls) =
        some (request (bucket g.data key) 328 3) := by
    rw [hissued.binding_eq]
    exact Function.update_self _ _ _
  have hoffset : (request (bucket g.data key) 328 3).offset =
      bucket g.data key := wrap_of_lt (by omega)
  have hregion : (request (bucket g.data key) 328 3).size = 328 :=
    wrap_of_lt (by omega)
  have hperm : (request (bucket g.data key) 328 3).permission &&& 2 ≠ 0 :=
    show BitVec.ofNat 32 (3 : UInt8).toNat &&& 2 ≠ 0 by decide
  have hwrite : Accepted shmpScheme
      (g.acquire shmpScheme (bucket g.data key) 328 3).2 .write
      (wrap (bucket g.data key + 64)) 256
      (tokenAt g.useMac g.rand g.randCalls) := by
    rw [wrap_of_lt (by omega)]
    exact accepted_of_binding hkey hbound .write hperm (by omega) (by omega)
      (by omega) (by omega) (by omega)
  rw [Gshm.putLoop, if_neg hstored]
  simp only [acquire_fst, if_pos hequal, writeCxl_of_accepted hwrite]
  rw [hsize]
  rfl

end FreshPut

/-! ## The two stores -/

/-- A call with the global key; `fuel` bounds the loop of `put`. -/
def globalCall (fuel : Nat) (g : ShmpStore) :
    UprOp → Option (Reply × ShmpStore)
  | .get key value =>
      (g.get shmpScheme key value 0).next.map fun r =>
        (.fetched r.1.1 r.1.2, r.2)
  | .update key value =>
      (g.update shmpScheme key value 0).next.map fun r => (.answer r.1, r.2)
  | .insert key value =>
      (g.insert shmpScheme key value).next.map fun r => (.answer true, r.2)
  | .put key value =>
      (g.put shmpScheme fuel key value).next.map fun r => (.answer r.1, r.2)
  | .del key => (g.del shmpScheme key 0).next.map fun r => (.answer r.1, r.2)

/-- The next three tokens are new, and an insertion finds the partition not
full. -/
def FreshCall (g : ShmpStore) (op : UprOp) : Prop :=
  FreshBelow g.useMac g.rand (g.randCalls + 3) ∧
    ∀ key value, op = .insert key value → HasRoom g.self

/-- What every call keeps. -/
structure Ready (g : ShmpStore) : Prop where
  sound : Sound g.self g.data
  size : g.self.valueSize = 256
  issued : ∃ m, Issued g m

/-- Both stores make the call, with the same reply. -/
def MadeAlike (fuel : Nat) (a : DataAddr) (g : ShmpStore) (op : UprOp) :
    Prop :=
  ∃ reply g', globalCall fuel g op = some (reply, g') ∧
    uprStep (unprotected g a) op = some (reply, unprotected g' a) ∧ Ready g'

section Calls

variable {g g' : ShmpStore} {key : Key} {value : Bytes} {fuel : Nat}
  {a : DataAddr}

theorem Ready.draws (h : Ready g) (hdraws : Draws shmpScheme g g')
    (hfresh : FreshBelow g.useMac g.rand g'.randCalls) : Ready g' := by
  obtain ⟨m, hissued⟩ := h.issued
  obtain ⟨m', hissued', _⟩ := hissued.draws hdraws hfresh
  refine ⟨?_, ?_, m', hissued'⟩
  · rw [hdraws.self_eq, hdraws.data_eq]
    exact h.sound
  · rw [hdraws.self_eq]
    exact h.size

/-- A change of the memory leaves the tokens as they are. -/
theorem Ready.with_data (h : Ready g) {data : Bytes} {obj : Instance}
    (hsound : Sound obj data) (hsize : obj.valueSize = g.self.valueSize) :
    Ready { g with data := data, self := obj } := by
  obtain ⟨m, hissued⟩ := h.issued
  exact ⟨hsound, hsize.trans h.size, m, hissued.of_table_eq rfl rfl rfl rfl⟩

theorem madeAlike_get (h : Ready g) (hcall : FreshCall g (.get key value)) :
    MadeAlike fuel a g (.get key value) := by
  have hdraws := draws_lookedUp (S := shmpScheme) (g := g) key 1
  have hcalls := randCalls_lookedUp_le g key 1
  have hready := h.draws hdraws (hcall.1.mono (by omega))
  have hplain : (unprotected g a).get key value = _ :=
    GshmUpr.get_eq (sound_unprotected h.sound a) key value
  refine ⟨.fetched (decide (entryOf g.data key ≠ 0))
    (if entryOf g.data key = 0 then value else fetch g.data
      (wrap (entryOf g.data key + 64)) value g.self.valueSize),
    lookedUp shmpScheme g key 1, ?_, ?_, hready⟩
  · rw [globalCall, get_of_sound h.sound]
    by_cases hzero : entryOf g.data key = 0
    · simp [hzero, Outcome.next]
    · rw [if_neg hzero, if_neg hzero]
      have hread : (lookedUp shmpScheme g key 1).readCxl shmpScheme
          (wrap (entryOf g.data key + 64)) g.self.valueSize value 0 =
            (0, fetch (lookedUp shmpScheme g key 1).data
              (wrap (entryOf g.data key + 64)) value g.self.valueSize) :=
        readCxl_of_accepted (accepted_globalKey _ _)
      simp [hread, hdraws.data_eq, hzero, Outcome.next]
  · rw [uprStep, hplain, unprotected_of_draws hdraws]
    by_cases hzero : entryOf g.data key = 0
    · simp [hzero, Outcome.next, unprotected]
    · simp [hzero, Outcome.next, unprotected]

theorem madeAlike_update (h : Ready g)
    (hcall : FreshCall g (.update key value)) :
    MadeAlike fuel a g (.update key value) := by
  have hdraws := draws_lookedUp (S := shmpScheme) (g := g) key 3
  have hcalls := randCalls_lookedUp_le g key 3
  have hready := h.draws hdraws (hcall.1.mono (by omega))
  have hplain : (unprotected g a).update key value = _ :=
    GshmUpr.update_eq (sound_unprotected h.sound a) key value
  have hupdate := update_of_sound (S := shmpScheme) h.sound key value 0
  by_cases hzero : entryOf g.data key = 0
  · rw [if_pos hzero] at hupdate
    refine ⟨.answer false, lookedUp shmpScheme g key 3, ?_, ?_, hready⟩
    · rw [globalCall, hupdate]
      rfl
    · rw [uprStep, hplain, unprotected_of_draws hdraws]
      exact congrArg _ (congrArg _ (if_pos hzero))
  · have hend := h.sound.entry_end_le hzero
    have hwrite : (lookedUp shmpScheme g key 3).writeCxl shmpScheme
        (wrap (entryOf g.data key + 64)) g.self.valueSize value 0 =
          (0, { lookedUp shmpScheme g key 3 with
            data := store (lookedUp shmpScheme g key 3).data
              (wrap (entryOf g.data key + 64)) value g.self.valueSize }) :=
      writeCxl_globalKey (by rw [wrap_of_lt (by omega)]; omega) _ _
    rw [if_neg hzero, hwrite, hdraws.data_eq] at hupdate
    have hsound : Sound (lookedUp shmpScheme g key 3).self
        (writeValue g.data g.self.valueSize (entryOf g.data key) value) := by
      rw [hdraws.self_eq]
      exact h.sound.writeValue hzero value
    refine ⟨.answer true, _, ?_, ?_, hready.with_data hsound rfl⟩
    · rw [globalCall, hupdate]
      rfl
    · rw [uprStep, hplain]
      refine (congrArg _ (congrArg _ (if_neg hzero))).trans ?_
      rw [unprotected, hdraws.self_eq]
      rfl

theorem madeAlike_del (h : Ready g) : MadeAlike fuel a g (.del key) := by
  have hplain : (unprotected g a).del key = _ :=
    GshmUpr.del_eq_of_sound (sound_unprotected h.sound a) key
  have hdel := del_of_sound (S := shmpScheme) h.sound key 0
  by_cases hzero : entryOf g.data key = 0
  · rw [if_pos hzero] at hdel
    refine ⟨.answer false, g, ?_, ?_, h⟩
    · rw [globalCall, hdel]
      rfl
    · rw [uprStep, hplain]
      exact congrArg _ (congrArg _ (if_pos hzero))
  · rw [if_neg hzero] at hdel
    refine ⟨.answer true, _, ?_, ?_,
      h.with_data (h.sound.emptyBucket key) rfl⟩
    · rw [globalCall, hdel]
      rfl
    · rw [uprStep, hplain]
      exact congrArg _ (congrArg _ (if_neg hzero))

theorem madeAlike_insert (h : Ready g)
    (hcall : FreshCall g (.insert key value)) :
    MadeAlike fuel a g (.insert key value) := by
  have hroom := hcall.2 key value rfl
  obtain ⟨m, hissued⟩ := h.issued
  have hfresh := hcall.1.mono (show g.randCalls + 2 ≤ _ by omega)
  have hinsert := insert_of_fresh hissued h.sound hroom hfresh key value
  have hplain : (unprotected g a).insert key value = _ :=
    GshmUpr.insert_of_room (sound_unprotected h.sound a) key hroom value
  refine ⟨.answer true, _, ?_, ?_, sound_afterInsert h.sound hroom key value,
    h.size, _, hissued.afterInsert key value hfresh⟩
  · rw [globalCall, hinsert]
    rfl
  · rw [uprStep, hplain]
    rfl

/-- The end of `put` behind its loop. -/
theorem putNew_alike (h : Ready g) {t : UInt16} {m : TokenMap UInt16}
    (hissued : Issued g m) (hkey : t ≠ 0)
    (hbound : m t = some (request (entryOffset key) 8 3))
    (hfresh : FreshBelow g.useMac g.rand (g.randCalls + 1)) (value : Bytes)
    (a : DataAddr) :
    ∃ b g', g.putNew shmpScheme t key value = .returned b g' ∧
      (unprotected g a).insert key value =
        .returned b (unprotected g' a) ∧ Ready g' := by
  have hsound := sound_unprotected h.sound a
  by_cases hroom : HasRoom g.self
  · have hnew := putNew_of_fresh hissued h.sound h.size hroom hfresh hkey
      hbound value
    have hplain : (unprotected g a).insert key value = _ :=
      GshmUpr.insert_of_room hsound key hroom value
    refine ⟨true, _, hnew, hplain, ?_, h.size, _,
      (hissued.acquire g.self.nextFreeOffset 328 3 hfresh).of_table_eq rfl rfl
        rfl rfl⟩
    exact h.sound.insertEntry hroom key value
  · have hlength : g.self.entrySize = 328 := by
      rw [h.sound.sizes, h.size]
    have hfull := h.sound.full_iff.mpr hroom
    rw [hlength] at hfull
    refine ⟨false, g, ?_, GshmUpr.insert_of_full hsound key hroom value, h⟩
    rw [Gshm.putNew, if_pos hfull]

theorem madeAlike_put (h : Ready g) (hcall : FreshCall g (.put key value)) :
    MadeAlike (fuel + 2) a g (.put key value) := by
  have hone := hcall.1.mono (show g.randCalls + 1 ≤ _ by omega)
  obtain ⟨m, hissued⟩ := h.issued
  have hbucket := entryOffset_add_le key
  have hcalls := randCalls_acquire g (entryOffset key) 8 3
  have hfirst := hissued.acquire (entryOffset key) 8 3 hone
  have hready : Ready (g.acquire shmpScheme (entryOffset key) 8 3).2 :=
    ⟨h.sound, h.size, _, hfirst⟩
  have hread := accepted_of_new .read (by simp) hissued hone
    (show 0 < 8 by omega) (show entryOffset key + 8 < 2 ^ 64 by omega)
    (Nat.le_refl _) (Nat.le_refl _)
  have hword : (g.acquire shmpScheme (entryOffset key) 8 3).2.readWord
      shmpScheme (entryOffset key) 0 (tokenAt g.useMac g.rand g.randCalls) =
        bucket (g.acquire shmpScheme (entryOffset key) 8 3).2.data key :=
    readWord_of_accepted hread
  have htwo : FreshBelow g.useMac g.rand
      ((g.acquire shmpScheme (entryOffset key) 8 3).2.randCalls + 1) := by
    rw [hcalls]
    exact hcall.1.mono (by omega)
  by_cases hzero : entryOf g.data key = 0
  · obtain ⟨g₁, hloop, hdraws, hle⟩ := putLoop_of_absent hfirst h.sound h.size
      hzero htwo value fuel
    have hfresh₁ : FreshBelow g.useMac g.rand (g₁.randCalls + 1) :=
      hcall.1.mono (by omega)
    obtain ⟨m₁, hissued₁, hsame⟩ := hfirst.draws hdraws
      (hfresh₁.mono (Nat.le_succ _))
    have hbound : m₁ (tokenAt g.useMac g.rand g.randCalls) =
        some (request (entryOffset key) 8 3) := by
      refine (hsame g.randCalls (by omega)).trans ?_
      exact Function.update_self _ _ _
    have hnew : FreshBelow g₁.useMac g₁.rand (g₁.randCalls + 1) := by
      rw [hdraws.useMac_eq, hdraws.rand_eq]
      exact hfresh₁
    have hready₁ := hready.draws hdraws (hfresh₁.mono (Nat.le_succ _))
    obtain ⟨b, g', hput, hplain, hready'⟩ := putNew_alike hready₁ hissued₁
      (hone g.randCalls (by omega)).1 hbound hnew value a
    refine ⟨.answer b, g', ?_, ?_, hready'⟩
    · rw [globalCall, Gshm.put]
      simp only [acquire_fst, hword, hloop, hput]
      rfl
    · rw [unprotected_of_draws hdraws] at hplain
      rw [uprStep, GshmUpr.put_of_absent (sound_unprotected h.sound a) key
        h.size hzero value]
      exact congrArg _ (congrArg _ hplain)
  · have hloop := putLoop_of_stored hfirst h.sound h.size hzero htwo value
      (fuel + 1)
    have hplain : (unprotected g a).put key value = _ :=
      GshmUpr.put_of_stored (sound_unprotected h.sound a) key h.size hzero
        value
    have hissued' := hfirst.acquire (entryOf g.data key) 328 3 htwo
    refine ⟨.answer true,
      { ((g.acquire shmpScheme (entryOffset key) 8 3).2.acquire shmpScheme
          (entryOf g.data key) 328 3).2 with
        data := writeValue g.data g.self.valueSize (entryOf g.data key)
          value }, ?_, ?_, ?_⟩
    · rw [globalCall, Gshm.put]
      simp only [acquire_fst, hword, hloop]
      rfl
    · rw [uprStep, hplain]
      rfl
    · exact ⟨h.sound.writeValue hzero value, h.size, _,
        hissued'.of_table_eq rfl rfl rfl rfl⟩

/-- **Step lemma**: every call with new tokens is made by both alike. -/
theorem madeAlike (h : Ready g) {op : UprOp} (hcall : FreshCall g op) :
    MadeAlike (fuel + 2) a g op := by
  cases op with
  | get key value => exact madeAlike_get h hcall
  | update key value => exact madeAlike_update h hcall
  | insert key value => exact madeAlike_insert h hcall
  | put key value => exact madeAlike_put h hcall
  | del key => exact madeAlike_del h

end Calls

/-! ## Runs -/

theorem ready_construct {data : Bytes} {dataAddr : DataAddr}
    {mac : Option UInt8} (hmac : 0 < getMac mac)
    (hzero : ∀ key, bucket data key = 0) (rand : Nat → Nat)
    (batchKey : UInt16) (useMac : Bool) :
    Ready (.construct shmpScheme data rand batchKey useMac
      (.construct dataAddr mac)) := by
  have hsmall : 72 + 256 < 2 ^ 31 := by decide
  have hsound : Sound (Instance.construct dataAddr mac) data :=
    Sound.construct hmac hsmall hzero
  exact ⟨hsound, rfl, _, issued_construct data rand batchKey useMac _⟩

/-- **With the global key and new tokens the protected store is the unprotected
one**, after every step of every run of `get`, `update`, `insert`, `put` and
`del` on host 1 or above, with the default sizes and without batches, over a
zeroed bucket table: both have returned from all calls so far, with the same
replies, and have the same memory and the same cursor.  Two rounds of the loop
of `put` are enough. -/
theorem global_client_agrees (data : Bytes) (rand : Nat → Nat)
    (batchKey : UInt16) (useMac : Bool) (dataAddr dataAddr' : DataAddr)
    (mac : Option UInt8) (hmac : 0 < getMac mac)
    (hzero : ∀ key, bucket data key = 0) (fuel : Nat) (calls : List UprOp)
    (hfresh : AtEveryStep (globalCall (fuel + 2)) FreshCall
      (.construct shmpScheme data rand batchKey useMac
        (.construct dataAddr mac)) calls) (steps : Nat) :
    ∃ replies g u,
      run (globalCall (fuel + 2)) (.construct shmpScheme data rand batchKey
        useMac (.construct dataAddr mac)) (calls.take steps) =
          some (replies, g) ∧
      run uprStep ⟨data, .construct dataAddr' mac⟩ (calls.take steps) =
        some (replies, u) ∧
      u.data = g.data ∧ u.self.nextFreeOffset = g.self.nextFreeOffset := by
  have hsim : ∀ (g : ShmpStore) (u : GshmUpr) (op : UprOp),
      u = unprotected g dataAddr' ∧ Ready g → FreshCall g op →
      ∃ reply g' u', globalCall (fuel + 2) g op = some (reply, g') ∧
        uprStep u op = some (reply, u') ∧
        u' = unprotected g' dataAddr' ∧ Ready g' := by
    rintro g u op ⟨hsame, h⟩ hcall
    obtain ⟨reply, g', hstep, hstep', h'⟩ := madeAlike h hcall
    rw [← hsame] at hstep'
    exact ⟨reply, g', _, hstep, hstep', rfl, h'⟩
  obtain ⟨replies, g, u, hrun, hrun', hsame, -⟩ := run_simulates_where hsim
    ⟨rfl, ready_construct hmac hzero rand batchKey useMac⟩
    (atEveryStep_take hfresh steps)
  refine ⟨replies, g, u, hrun, hrun', ?_, ?_⟩
  · rw [hsame]
    rfl
  · rw [hsame]
    rfl

/-- A key is put twice, another one is inserted, and the first one deleted. -/
def putTwice : List UprOp :=
  [.put (fun _ => 0) fun _ => 7, .put (fun _ => 0) fun _ => 8,
    .insert (fun _ => 1) fun _ => 9, .del fun _ => 0]

theorem global_client_agrees_put_twice :
    ∃ replies g u,
      run (globalCall 2) countingStore putTwice = some (replies, g) ∧
      run uprStep ⟨fun _ => 0, .firstHost⟩ putTwice = some (replies, u) ∧
      u.data = g.data ∧ u.self.nextFreeOffset = g.self.nextFreeOffset := by
  have hready : AtEveryStep (globalCall 2)
      (fun g _ => FreshBelow g.useMac g.rand (g.randCalls + 3) ∧
        HasRoom g.self) countingStore putTwice := by
    decide +kernel
  have hfresh : AtEveryStep (globalCall (0 + 2)) FreshCall countingStore
      putTwice :=
    atEveryStep_mono (fun _ _ h => ⟨h.1, fun _ _ _ => h.2⟩) hready
  exact global_client_agrees (fun _ => 0) (fun i => i + 1) 0 false
    ⟨2 ^ 46, by decide, by decide⟩ ⟨2 ^ 46, by decide, by decide⟩ (some 1)
    (by decide) (fun _ => rfl) 0 putTwice hfresh 4

end SHMemora.Ports
