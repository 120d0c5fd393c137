import SHMemora.Ports.GshmRuns

/-!
# The walks of the protected store

`get`, `update` and `del` look for the entry of a key through `global_key`, so
no token can keep them from finding it: they end where `chainEnd` ends, in
every state.  The token of the caller only matters for the last access.

## Main results

* `get_of_chainEnd`, `get_of_chainEnd_zero`, `update_of_chainEnd`,
  `update_of_chainEnd_zero` — what `get` and `update` come to, up to the
  tokens they draw on the way (`Draws`).
* `del_eq` — what `del` comes to.
-/

namespace SHMemora.Ports

open SHMemora.Verified.OrbitSearch
open SHMemora.Verified.ByteMemory

section Walk

variable {τ : Type} [DecidableEq τ] {n : Nat} [NeZero n]

/-! ## Accesses under `global_key` -/

section Global

variable (S : TokenScheme τ n) (g : Gshm τ n)

@[simp] theorem readWord_globalKey (offset init : Nat) :
    g.readWord S offset init S.globalKey = loadWord g.data offset := by
  rw [Gshm.readWord, Gshm.readCxl, readAccess_globalKey]
  exact word_fetch _ _ _

theorem compareCxl_globalKey_iff (entry : Nat) (key : Key) :
    g.compareCxl S entry 64 key.buf S.globalKey = 0 ↔
      keyAt g.data entry = key := by
  rw [Gshm.compareCxl, compareAccess_globalKey]
  exact safeMemcmp_key_iff

end Global

/-! ## Draws -/

/-- `g'` is `g` after some calls of `acquire`. -/
inductive Draws (S : TokenScheme τ n) : Gshm τ n → Gshm τ n → Prop
  | refl (g : Gshm τ n) : Draws S g g
  | acquire {g g' : Gshm τ n} (offset size : Nat) (permission : UInt8)
      (h : Draws S (g.acquire S offset size permission).2 g') : Draws S g g'

namespace Draws

variable {S : TokenScheme τ n} {g g' : Gshm τ n}

theorem data_eq (h : Draws S g g') : g'.data = g.data := by
  induction h with
  | refl g => rfl
  | acquire offset size permission h ih => exact ih

theorem self_eq (h : Draws S g g') : g'.self = g.self := by
  induction h with
  | refl g => rfl
  | acquire offset size permission h ih => exact ih

theorem randCalls_le (h : Draws S g g') : g.randCalls ≤ g'.randCalls := by
  induction h with
  | refl g => exact Nat.le_refl _
  | acquire offset size permission h ih =>
      exact Nat.le_trans (Nat.le_add_right _ _) ih

end Draws

/-! ## The walk of `get` and `update` -/

section Lookup

variable (S : TokenScheme τ n) (key : Key) (permission : UInt8)

/-- A loop of the store has come to where a walk ends, with some tokens drawn
on the way; it goes on for as long as the walk does. -/
def Follows (g : Gshm τ n) (result : Option (Nat × Gshm τ n)) :
    Option Nat → Prop
  | none => result = none
  | some e => ∃ g', Draws S g g' ∧ result = some (e, g')

variable {S} in
theorem Follows.acquire {g : Gshm τ n} {result : Option (Nat × Gshm τ n)}
    {e : Option Nat} (offset size : Nat) (perm : UInt8)
    (h : Follows S (g.acquire S offset size perm).2 result e) :
    Follows S g result e := by
  cases e with
  | none => exact h
  | some e =>
      obtain ⟨g', hdraws, heq⟩ := h
      exact ⟨g', .acquire offset size perm hdraws, heq⟩

/-- The loop of `get` and `update` is the walk along the chain. -/
theorem chainLoop_follows (fuel : Nat) (g : Gshm τ n) (entry : Nat) :
    Follows S g (g.chainLoop S key permission fuel entry)
      (search (nextEntry g.data (64 + g.self.valueSize))
        (endsWalk g.data key) fuel entry) := by
  induction fuel generalizing g entry with
  | zero => rfl
  | succ fuel ih =>
      by_cases hzero : entry = 0
      · rw [search_succ_of_stop (endsWalk_eq_true_iff.mpr (.inl hzero)),
          Gshm.chainLoop, if_pos hzero]
        exact ⟨g, .refl g, by rw [hzero]⟩
      · rw [Gshm.chainLoop, if_neg hzero]
        -- the token drawn for this entry does not change the walk
        apply Follows.acquire entry g.self.entrySize permission
        have hcompare := compareCxl_globalKey_iff S
          (g.acquire S entry g.self.entrySize permission).2 entry key
        by_cases hmatch : keyAt g.data entry = key
        · rw [search_succ_of_stop (endsWalk_eq_true_iff.mpr (.inr hmatch))]
          exact ⟨_, .refl _, if_pos (hcompare.mpr hmatch)⟩
        · rw [search_succ_of_not_stop
            (endsWalk_eq_false_iff.mpr ⟨hzero, hmatch⟩)]
          simp only [if_neg (fun h => hmatch (hcompare.mp h)),
            readWord_globalKey, Nat.add_assoc]
          exact ih (g.acquire S entry g.self.entrySize permission).2 _

/-- The walk from the bucket word. -/
theorem lookup_follows (g : Gshm τ n) :
    Follows S g (g.lookup S key permission)
      (chainEnd g.data (64 + g.self.valueSize) key) := by
  unfold Gshm.lookup
  simp only [readWord_globalKey]
  exact (chainLoop_follows S key permission walkFuel _ _).acquire ..

variable {key} {g : Gshm τ n}

theorem lookup_of_chainEnd {e : Nat}
    (h : chainEnd g.data (64 + g.self.valueSize) key = some e) :
    ∃ g', Draws S g g' ∧ g.lookup S key permission = some (e, g') := by
  have hfollows := lookup_follows S key permission g
  rwa [h] at hfollows

variable {S permission} in
/-- A lookup does nothing but draw tokens. -/
theorem draws_of_lookup {e : Nat} {g' : Gshm τ n}
    (h : g.lookup S key permission = some (e, g')) : Draws S g g' := by
  have hfollows := lookup_follows S key permission g
  rw [h] at hfollows
  cases hend : chainEnd g.data (64 + g.self.valueSize) key with
  | none =>
      rw [hend] at hfollows
      contradiction
  | some e' =>
      rw [hend] at hfollows
      obtain ⟨g₁, hdraws, heq⟩ := hfollows
      cases heq
      exact hdraws

/-- `get` of a key whose chain has no entry for it. -/
theorem get_of_chainEnd_zero (value : Bytes) (shkey : τ)
    (h : chainEnd g.data (64 + g.self.valueSize) key = some 0) :
    ∃ g', Draws S g g' ∧
      g.get S key value shkey = .returned (false, value) g' := by
  obtain ⟨g', hdraws, heq⟩ := lookup_of_chainEnd S 1 h
  exact ⟨g', hdraws, by simp [Gshm.get, heq]⟩

/-- `get` of a key with an entry reads the value under the token. -/
theorem get_of_chainEnd (value : Bytes) (shkey : τ) {e : Nat} (he : e ≠ 0)
    (h : chainEnd g.data (64 + g.self.valueSize) key = some e) :
    ∃ g', Draws S g g' ∧ g.get S key value shkey =
      .returned (true, (g'.readCxl S (wrap (e + 64)) g.self.valueSize value
        shkey).2) g' := by
  obtain ⟨g', hdraws, heq⟩ := lookup_of_chainEnd S 1 h
  exact ⟨g', hdraws, by simp [Gshm.get, heq, he]⟩

theorem update_of_chainEnd_zero (value : Bytes) (shkey : τ)
    (h : chainEnd g.data (64 + g.self.valueSize) key = some 0) :
    ∃ g', Draws S g g' ∧
      g.update S key value shkey = .returned false g' := by
  obtain ⟨g', hdraws, heq⟩ := lookup_of_chainEnd S 3 h
  exact ⟨g', hdraws, by simp [Gshm.update, heq]⟩

/-- `update` of a key with an entry writes the value under the token. -/
theorem update_of_chainEnd (value : Bytes) (shkey : τ) {e : Nat} (he : e ≠ 0)
    (h : chainEnd g.data (64 + g.self.valueSize) key = some e) :
    ∃ g', Draws S g g' ∧ g.update S key value shkey =
      .returned true (g'.writeCxl S (wrap (e + 64)) g.self.valueSize value
        shkey).2 := by
  obtain ⟨g', hdraws, heq⟩ := lookup_of_chainEnd S 3 h
  exact ⟨g', hdraws, by simp [Gshm.update, heq, he]⟩

end Lookup

/-! ## The walk of `del` -/

section Del

variable (S : TokenScheme τ n) (g : Gshm τ n) (key : Key) (shkey : τ)

/-- What `del` does at the end of its walk. -/
def unlink (p : Nat × Nat) : Outcome (Gshm τ n) Bool :=
  if p.2 = 0 then .returned false g
  else
    .returned true (g.writeCxl S p.1 8
      (ofWord (g.readWord S (wrap (p.2 + (64 + g.self.valueSize))) 0 shkey))
      S.globalKey).2

theorem delLoop_eq (fuel : Nat) (p : Nat × Nat) :
    g.delLoop S key shkey fuel p.1 p.2 =
      match search (nextLink g.data (64 + g.self.valueSize))
        (endsLinkWalk g.data key) fuel p with
      | none => .running
      | some p => unlink S g shkey p := by
  induction fuel generalizing p with
  | zero => rfl
  | succ fuel ih =>
      rw [Gshm.delLoop, Nat.add_assoc]
      by_cases hzero : p.2 = 0
      · have hends : endsLinkWalk g.data key p = true :=
          endsWalk_eq_true_iff.mpr (.inl hzero)
        rw [search_succ_of_stop hends, if_pos hzero]
        exact (if_pos hzero).symm
      · rw [if_neg hzero]
        have hcompare := compareCxl_globalKey_iff S g p.2 key
        by_cases hmatch : keyAt g.data p.2 = key
        · have hends : endsLinkWalk g.data key p = true :=
            endsWalk_eq_true_iff.mpr (.inr hmatch)
          rw [search_succ_of_stop hends]
          simp only [if_pos (hcompare.mpr hmatch)]
          exact (if_neg hzero).symm
        · have hgoes : endsLinkWalk g.data key p = false :=
            endsWalk_eq_false_iff.mpr ⟨hzero, hmatch⟩
          rw [search_succ_of_not_stop hgoes]
          simp only [if_neg (fun h => hmatch (hcompare.mp h)),
            readWord_globalKey]
          exact ih (nextLink g.data (64 + g.self.valueSize) p)

/-- `del` in terms of its walk. -/
theorem del_eq :
    g.del S key shkey =
      match linkEnd g.data (64 + g.self.valueSize) key with
      | none => .running
      | some p => unlink S g shkey p := by
  rw [Gshm.del, readWord_globalKey]
  exact delLoop_eq S g key shkey walkFuel (entryOffset key, _)

variable {S g key}

/-- `del` of a key whose chain has no entry for it. -/
theorem del_of_chainEnd_zero
    (h : chainEnd g.data (64 + g.self.valueSize) key = some 0) :
    g.del S key shkey = .returned false g := by
  rw [← linkEnd_map, Option.map_eq_some_iff] at h
  obtain ⟨p, hp, hzero⟩ := h
  rw [del_eq, hp]
  exact if_pos hzero

/-- A `del` that returns `false` has come to the end of the chain. -/
theorem chainEnd_of_del_eq_false {g' : Gshm τ n}
    (h : g.del S key shkey = .returned false g') :
    chainEnd g.data (64 + g.self.valueSize) key = some 0 := by
  rw [del_eq] at h
  rw [← linkEnd_map]
  cases hp : linkEnd g.data (64 + g.self.valueSize) key with
  | none =>
      rw [hp] at h
      contradiction
  | some p =>
      rw [hp] at h
      by_cases hzero : p.2 = 0
      · rw [Option.map_some, hzero]
      · have htrue : unlink S g shkey p = .returned false g' := h
        rw [unlink, if_neg hzero] at htrue
        cases htrue

end Del

end Walk

end SHMemora.Ports
