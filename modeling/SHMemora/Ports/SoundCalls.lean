import SHMemora.Ports.ChainWalk
import SHMemora.Ports.BucketChains

/-!
# Calls of the protected store on a sound memory

On a memory of the shape that one writer leaves behind (`Sound`) every walk
ends after at most one entry, and so every call of `get`, `update` and `del`
returns, and of `insert` while there is room.  Here is what the calls come to
whatever the table holds; only the last access of `get` and `update`, under
the token of the caller, is left to the table.

`del` is already decided: the entry it finds is the last of its chain, so the
next pointer it puts into the bucket word is `0` whether or not the caller may
read it.
-/

namespace SHMemora.Ports

open SHMemora.Verified.ByteMemory

section Calls

variable {τ : Type} [DecidableEq τ] {n : Nat} [NeZero n]
variable {S : TokenScheme τ n} {g : Gshm τ n}

/-- Under `global_key` a write below the middle of the address space is
always made. -/
theorem writeCxl_globalKey {offset : Nat} (h : offset < 2 ^ 63) (size : Nat)
    (buf : Bytes) :
    g.writeCxl S offset size buf S.globalKey =
      (0, { g with data := store g.data offset buf size }) := by
  have hnull : ¬ NullWrite g.self.dataAddr.addr .write offset :=
    fun hnull => getDataVaddr_ne_zero g.self.dataAddr h hnull.2
  have haccess : access S g.table g.self.dataAddr.addr .write offset size
      S.globalKey = .ok (S.hashFunction S.globalKey) :=
    access_globalKey_eq_ok_iff.mpr ⟨rfl, hnull⟩
  have hwrite : writeAccess S g.table g.self.dataAddr.addr offset size
      S.globalKey = .ok (S.hashFunction S.globalKey) := haccess
  rw [Gshm.writeCxl, hwrite]

/-- The store after the draws of a lookup: a token for the bucket word and
one for the entry behind it. -/
def lookedUp (S : TokenScheme τ n) (g : Gshm τ n) (key : Key)
    (permission : UInt8) : Gshm τ n :=
  let g' := (g.acquire S (entryOffset key) 8 permission).2
  if bucket g.data key = 0 then g'
  else (g'.acquire S (bucket g.data key) g.self.entrySize permission).2

theorem draws_lookedUp (key : Key) (permission : UInt8) :
    Draws S g (lookedUp S g key permission) := by
  rw [lookedUp]
  split
  · exact .acquire _ _ _ (.refl _)
  · exact .acquire _ _ _ (.acquire _ _ _ (.refl _))

/-- **A lookup** ends at the first entry where that holds the key. -/
theorem lookup_of_match {key : Key} (hne : bucket g.data key ≠ 0)
    (hmatch : keyAt g.data (bucket g.data key) = key) (permission : UInt8) :
    g.lookup S key permission =
      some (bucket g.data key, lookedUp S g key permission) := by
  have hfuel : walkFuel = (2 ^ 64 - 2) + 1 + 1 := by decide
  have hcompare := compareCxl_globalKey_iff S
    ((g.acquire S (entryOffset key) 8 permission).2.acquire S
      (bucket g.data key) g.self.entrySize permission).2
    (bucket g.data key) key
  unfold Gshm.lookup lookedUp
  simp only [readWord_globalKey]
  show Gshm.chainLoop S key permission walkFuel _ (bucket g.data key) = _
  rw [hfuel, Gshm.chainLoop, if_neg hne, if_neg hne]
  exact if_pos (hcompare.mpr hmatch)

/-! ## Chains of at most one entry -/

section Short

variable {key : Key} (h : ShortChain g.data g.self.valueSize key)
include h

/-- A lookup finds the entry of the key. -/
theorem lookup_of_short (permission : UInt8) :
    g.lookup S key permission =
      some (entryOf g.data key, lookedUp S g key permission) := by
  have hfuel : walkFuel = (2 ^ 64 - 2) + 1 + 1 := by decide
  by_cases hzero : bucket g.data key = 0
  · unfold Gshm.lookup lookedUp
    simp only [readWord_globalKey]
    show Gshm.chainLoop S key permission walkFuel _ (bucket g.data key) = _
    rw [hfuel, Gshm.chainLoop, if_pos hzero, if_pos hzero, entryOf, hzero,
      ite_self]
  · by_cases hmatch : keyAt g.data (bucket g.data key) = key
    · rw [entryOf, if_pos hmatch]
      exact lookup_of_match hzero hmatch permission
    · have hcompare := compareCxl_globalKey_iff S
        ((g.acquire S (entryOffset key) 8 permission).2.acquire S
          (bucket g.data key) g.self.entrySize permission).2
        (bucket g.data key) key
      have hlast := h hzero
      unfold Gshm.lookup lookedUp
      simp only [readWord_globalKey]
      show Gshm.chainLoop S key permission walkFuel _ (bucket g.data key) = _
      rw [hfuel, Gshm.chainLoop, if_neg hzero, if_neg hzero]
      simp only [readWord_globalKey, Nat.add_assoc]
      rw [entryOf, if_neg hmatch]
      apply (if_neg fun heq => hmatch (hcompare.mp heq)).trans
      rw [Gshm.chainLoop]
      exact if_pos hlast

/-- `get` of a key without an entry, and of a stored key. -/
theorem get_of_short (value : Bytes) (shkey : τ) :
    g.get S key value shkey =
      if entryOf g.data key = 0 then
        .returned (false, value) (lookedUp S g key 1)
      else
        .returned (true, ((lookedUp S g key 1).readCxl S
          (wrap (entryOf g.data key + 64)) g.self.valueSize value
          shkey).2) (lookedUp S g key 1) := by
  rw [Gshm.get, lookup_of_short h]

theorem update_of_short (value : Bytes) (shkey : τ) :
    g.update S key value shkey =
      if entryOf g.data key = 0 then
        .returned false (lookedUp S g key 3)
      else
        .returned true ((lookedUp S g key 3).writeCxl S
          (wrap (entryOf g.data key + 64)) g.self.valueSize value
          shkey).2 := by
  rw [Gshm.update, lookup_of_short h]

/-- The next pointer of a last entry is `0`, read or not read. -/
theorem readWord_next_of_short (hne : entryOf g.data key ≠ 0) (shkey : τ) :
    g.readWord S (wrap (entryOf g.data key + (64 + g.self.valueSize))) 0
      shkey = 0 := by
  have hbucket := (entryOf_eq_bucket hne).1
  rw [hbucket] at hne ⊢
  rw [Gshm.readWord, Gshm.readCxl]
  split
  · exact word_ofWord 0
  · rw [word_fetch]
    exact h hne

/-- **`del` empties the bucket of a stored key**, with any token. -/
theorem del_of_short (shkey : τ) :
    g.del S key shkey =
      if entryOf g.data key = 0 then .returned false g
      else .returned true { g with data := setBucket g.data key 0 } := by
  by_cases hzero : entryOf g.data key = 0
  · have hend := chainEnd_of_short h
    rw [hzero] at hend
    rw [if_pos hzero]
    exact del_of_chainEnd_zero shkey hend
  · have hbucket := entryOffset_add_le key
    rw [if_neg hzero, del_eq, linkEnd_of_stored hzero]
    show unlink S g shkey (entryOffset key, entryOf g.data key) = _
    rw [unlink, if_neg hzero, readWord_next_of_short h hzero,
      writeCxl_globalKey (by omega)]
    rfl

end Short

/-! ## Sound memories -/

variable (h : Sound g.self g.data) (key : Key)
include h

theorem get_of_sound (value : Bytes) (shkey : τ) :
    g.get S key value shkey =
      if entryOf g.data key = 0 then
        .returned (false, value) (lookedUp S g key 1)
      else
        .returned (true, ((lookedUp S g key 1).readCxl S
          (wrap (entryOf g.data key + 64)) g.self.valueSize value
          shkey).2) (lookedUp S g key 1) :=
  get_of_short (h.shape.short key) value shkey

theorem update_of_sound (value : Bytes) (shkey : τ) :
    g.update S key value shkey =
      if entryOf g.data key = 0 then
        .returned false (lookedUp S g key 3)
      else
        .returned true ((lookedUp S g key 3).writeCxl S
          (wrap (entryOf g.data key + 64)) g.self.valueSize value
          shkey).2 :=
  update_of_short (h.shape.short key) value shkey

theorem del_of_sound (shkey : τ) :
    g.del S key shkey =
      if entryOf g.data key = 0 then .returned false g
      else .returned true { g with data := setBucket g.data key 0 } :=
  del_of_short (h.shape.short key) shkey

/-- An insertion ends the process where there is no room. -/
theorem insert_exits (hfull : ¬ HasRoom g.self) (value : Bytes) :
    ∃ g', g.insert S key value = .exited g' :=
  ⟨_, insert_of_full h.noBatch key value (h.full_iff.mpr hfull)⟩

/-- An insertion returns where there is room, with two tokens drawn. -/
theorem insert_returns (hroom : HasRoom g.self) (value : Bytes) :
    ∃ t g', g.insert S key value = .returned t g' ∧
      g'.randCalls = ((g.acquire S (entryOffset key) 8 3).2.acquire S
        g.self.nextFreeOffset g.self.entrySize 3).2.randCalls := by
  have hnotFull := mt h.full_iff.mp (not_not.mpr hroom)
  obtain ⟨t, g', hinsert, hcalls, _⟩ :=
    insert_of_notFull (S := S) h.noBatch key value hnotFull
  exact ⟨t, g', hinsert, hcalls⟩

end Calls

end SHMemora.Ports
