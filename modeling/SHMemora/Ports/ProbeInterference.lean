import SHMemora.Ports.GshmRuns

/-!
# How tokens with a common probe path get into each other's way

The table has no tombstones: `revoke_cxl` clears a valid flag, and a probe
stops at the first slot whose flag is clear.  A token that was pushed past an
occupied slot is therefore cut off when that slot is revoked, and comes back
when any token at all is put there.

## Main results

* `binding_revoke_iff`, `binding_fill_iff` — the exact condition under which
  revoking or inserting one token leaves the binding of another as it is.
* `noCopy_revoke` — revocation removes the last trace of a token whose valid
  copies are all where the probe stops.
* `not_accepted_of_noCopy`, `NoCopy.run` — without a trace the token is
  refused until it is drawn again.
-/

namespace SHMemora.Ports

open SHMemora.Verified
open SHMemora.Verified.OrbitSearch
open SHMemora.Verified.ByteMemory
open SHMemora.Verified.StepRun

section Interference

variable {τ : Type} [DecidableEq τ] {n : Nat} [NeZero n]
variable (S : TokenScheme τ n) (table : ProtectionTable τ n)

/-! ## What the four lookups find -/

/-- The four lookup loops of two tables come to the same region for a
token, or all to none. -/
def SameLookups (table table' : ProtectionTable τ n) (shkey : τ) : Prop :=
  resolved table' (readLookup S table' shkey) shkey =
      resolved table (readLookup S table shkey) shkey ∧
    resolved table' (writeLookup S table' shkey) shkey =
      resolved table (writeLookup S table shkey) shkey ∧
    resolved table' (compareLookup S table' shkey) shkey =
      resolved table (compareLookup S table shkey) shkey ∧
    resolved table' (revokeLookup S table' shkey) shkey =
      resolved table (revokeLookup S table shkey) shkey

variable {S table} {shkey : τ}

theorem sameLookups_iff (hkey : shkey ≠ S.globalKey)
    {table' : ProtectionTable τ n} :
    SameLookups S table table' shkey ↔
      binding S table' shkey = binding S table shkey := by
  simp only [SameLookups, readLookup_eq hkey, writeLookup_eq hkey,
    compareLookup_eq hkey, revokeLookup_eq hkey, resolved_stopSlot, and_self]

/-! ## Clearing a valid flag -/

omit [NeZero n] [DecidableEq τ] in
theorem invalidate_of_ne {i j : Fin n} (h : i ≠ j) :
    invalidate table j i = table i :=
  Function.update_of_ne h _ _

omit [NeZero n] [DecidableEq τ] in
@[simp] theorem invalidate_self (j : Fin n) :
    (invalidate table j j).valid = false := by
  simp [invalidate]

omit [NeZero n] [DecidableEq τ] in
/-- A slot that is still valid was not touched. -/
theorem ne_of_valid_invalidate {i j : Fin n}
    (h : (invalidate table j i).valid = true) : i ≠ j := by
  intro heq
  rw [heq, invalidate_self] at h
  cases h

/-- Clearing a slot behind the one where a token was found changes
nothing. -/
theorem find_invalidate_of_lt {i j : Fin n}
    (hfind : find S table shkey = some i)
    (hgap : gap (S.hashFunction shkey) i < gap (S.hashFunction shkey) j) :
    find S (invalidate table j) shkey = some i := by
  obtain ⟨hvalid, hkey, hbefore⟩ := find_eq_some_iff.mp hfind
  have hne : ∀ k, gap (S.hashFunction shkey) k ≤
      gap (S.hashFunction shkey) i → k ≠ j := by
    intro k hk heq
    rw [heq] at hk
    omega
  have hi : invalidate table j i = table i :=
    invalidate_of_ne (hne i (Nat.le_refl _))
  rw [find_eq_some_iff, hi]
  refine ⟨hvalid, hkey, fun k hk => ?_⟩
  rw [invalidate_of_ne (hne k (Nat.le_of_lt hk))]
  exact hbefore k hk

/-- Clearing a slot does not make a probe find anything new. -/
theorem find_of_find_invalidate {i j : Fin n}
    (hfind : find S (invalidate table j) shkey = some i) :
    find S table shkey = some i ∧
      gap (S.hashFunction shkey) i < gap (S.hashFunction shkey) j := by
  obtain ⟨hvalid, hkey, hbefore⟩ := find_eq_some_iff.mp hfind
  have hi := ne_of_valid_invalidate hvalid
  rw [invalidate_of_ne hi] at hvalid hkey
  -- the probe has not passed the cleared slot
  have hlt : gap (S.hashFunction shkey) i < gap (S.hashFunction shkey) j := by
    apply Nat.lt_of_le_of_ne
    · apply Nat.le_of_not_lt
      intro hj
      have hcleared := (hbefore j hj).1
      rw [invalidate_self] at hcleared
      cases hcleared
    · exact fun heq => hi (gap_injective _ heq)
  refine ⟨find_eq_some_iff.mpr ⟨hvalid, hkey, fun k hk => ?_⟩, hlt⟩
  have hk' := hbefore k hk
  rw [invalidate_of_ne (ne_of_valid_invalidate hk'.1)] at hk'
  exact hk'

/-- **Clearing a slot leaves the binding of a token alone** unless the token
was found at that slot or past it. -/
theorem binding_invalidate_iff {j : Fin n} :
    binding S (invalidate table j) shkey = binding S table shkey ↔
      ∀ i, find S table shkey = some i →
        gap (S.hashFunction shkey) i < gap (S.hashFunction shkey) j := by
  cases hfind : find S table shkey with
  | none =>
      have hnone : find S (invalidate table j) shkey = none := by
        cases hfind' : find S (invalidate table j) shkey with
        | none => rfl
        | some i =>
            rw [(find_of_find_invalidate hfind').1] at hfind
            cases hfind
      simp [binding, hfind, hnone]
  | some i =>
      constructor
      · intro hsame _ heq
        cases heq
        cases hfind' : find S (invalidate table j) shkey with
        | none => simp [binding, hfind, hfind'] at hsame
        | some i' =>
            obtain ⟨hold, hlt⟩ := find_of_find_invalidate hfind'
            rw [hfind] at hold
            cases hold
            exact hlt
      · intro h
        have hlt := h i rfl
        have hne : i ≠ j := fun heq => by
          rw [heq] at hlt
          exact Nat.lt_irrefl _ hlt
        rw [binding, find_invalidate_of_lt hfind hlt, binding, hfind,
          Option.map_some, Option.map_some, invalidate_of_ne hne]

/-! ## Revoking a token -/

variable (S table)

/-- The slot whose flag `revoke_cxl` clears: for `global_key` its home slot,
whatever is in it. -/
def clearedSlot (shkey : τ) : Option (Fin n) :=
  if shkey = S.globalKey then some (S.hashFunction shkey)
  else find S table shkey

/-- Revoking `u` cuts off `shkey`: the slot it clears is the one where
`shkey` is found or lies on the way there. -/
def CutsOff (u shkey : τ) : Prop :=
  ∃ i j, find S table shkey = some i ∧ clearedSlot S table u = some j ∧
    gap (S.hashFunction shkey) j ≤ gap (S.hashFunction shkey) i

variable {S table}

theorem revokeCxl_table (u : τ) :
    (revokeCxl S table u).2 =
      match clearedSlot S table u with
      | none => table
      | some j => invalidate table j := by
  by_cases hu : u = S.globalKey
  · rw [hu, revokeCxl_globalKey, clearedSlot, if_pos rfl]
  · rw [revokeCxl_eq hu, clearedSlot, if_neg hu]
    cases find S table u <;> rfl

theorem binding_revoke_iff (u : τ) :
    binding S (revokeCxl S table u).2 shkey = binding S table shkey ↔
      ¬ CutsOff S table u shkey := by
  rw [revokeCxl_table, CutsOff]
  cases hslot : clearedSlot S table u with
  | none => simp
  | some j =>
      show binding S (invalidate table j) shkey = _ ↔ _
      rw [binding_invalidate_iff]
      constructor
      · intro h hcut
        rcases hcut with ⟨i, _, hfind, heq, hle⟩
        cases heq
        have := h i hfind
        omega
      · intro h i hfind
        apply Nat.lt_of_not_le
        exact fun hle => h ⟨i, j, hfind, rfl, hle⟩

/-! ## Filling an invalid slot -/

variable (S table)

/-- A valid copy of `shkey` sits at slot `i`, out of sight behind slot `j`:
between the home slot and `i`, only `j` could stop a probe. -/
def HiddenBehind (shkey : τ) (j i : Fin n) : Prop :=
  (table i).valid = true ∧ (table i).shkey = shkey ∧
    gap (S.hashFunction shkey) j < gap (S.hashFunction shkey) i ∧
    ∀ k, gap (S.hashFunction shkey) k < gap (S.hashFunction shkey) i →
      k ≠ j → (table k).valid = true ∧ (table k).shkey ≠ shkey

/-- Inserting `u` exposes `shkey`: it fills the invalid slot at which the
probe for `shkey` stops, and a copy of `shkey` is hidden behind it. -/
def Exposes (u shkey : τ) : Prop :=
  ∃ i j, stopSlot S table u = some j ∧ stopSlot S table shkey = some j ∧
    (table j).valid = false ∧ HiddenBehind S table shkey j i

variable {S table}

/-- Filling an invalid slot with another token hides nothing. -/
theorem find_fill_of_some (u : τ) (entry : ProtectionEntry) {i j : Fin n}
    (hfree : (table j).valid = false) (hfind : find S table shkey = some i) :
    find S (Function.update table j ⟨u, entry, true⟩) shkey = some i := by
  obtain ⟨hvalid, hkey, hbefore⟩ := find_eq_some_iff.mp hfind
  have hne : ∀ k, (table k).valid = true → k ≠ j := by
    intro k hk heq
    rw [heq, hfree] at hk
    cases hk
  rw [find_eq_some_iff, Function.update_of_ne (hne i hvalid)]
  refine ⟨hvalid, hkey, fun k hk => ?_⟩
  rw [Function.update_of_ne (hne k (hbefore k hk).1)]
  exact hbefore k hk

/-- What comes into sight when an invalid slot is filled was hidden behind
it. -/
theorem find_fill_eq_some_iff {u : τ} (entry : ProtectionEntry)
    {i j : Fin n} (hu : u ≠ shkey) (hfree : (table j).valid = false)
    (hnone : find S table shkey = none) :
    find S (Function.update table j ⟨u, entry, true⟩) shkey = some i ↔
      stopSlot S table shkey = some j ∧ HiddenBehind S table shkey j i := by
  rw [find_eq_some_iff]
  constructor
  · intro hplace
    rcases hplace with ⟨hvalid, hkey, hbefore⟩
    have hi : i ≠ j := fun heq => by
      rw [heq, Function.update_self] at hkey
      exact hu hkey
    rw [Function.update_of_ne hi] at hvalid hkey
    have hother : ∀ k, gap (S.hashFunction shkey) k <
        gap (S.hashFunction shkey) i → k ≠ j →
        (table k).valid = true ∧ (table k).shkey ≠ shkey := by
      intro k hk hkj
      have := hbefore k hk
      rwa [Function.update_of_ne hkj] at this
    have hlt : gap (S.hashFunction shkey) j <
        gap (S.hashFunction shkey) i := by
      apply Nat.lt_of_not_le
      intro hle
      -- otherwise the copy would have been found before
      have hfind : find S table shkey = some i :=
        find_eq_some_iff.mpr ⟨hvalid, hkey, fun k hk =>
          hother k hk fun heq => by
            rw [heq] at hk
            omega⟩
      rw [hfind] at hnone
      cases hnone
    refine ⟨stopSlot_eq_some_iff.mpr ⟨.inl hfree, fun k hk => ?_⟩, hvalid,
      hkey, hlt, hother⟩
    apply hother k (Nat.lt_trans hk hlt)
    intro heq
    rw [heq] at hk
    omega
  · intro hplace
    rcases hplace with ⟨_, hvalid, hkey, hlt, hother⟩
    have hi : i ≠ j := fun heq => by
      rw [heq] at hlt
      omega
    rw [Function.update_of_ne hi]
    refine ⟨hvalid, hkey, fun k hk => ?_⟩
    by_cases hkj : k = j
    · rw [hkj, Function.update_self]
      exact ⟨rfl, hu⟩
    · rw [Function.update_of_ne hkj]
      exact hother k hk hkj

/-- Filling an invalid slot leaves the binding of another token alone unless a
copy of it is hidden behind that slot. -/
theorem binding_update_iff {u : τ} (entry : ProtectionEntry) {j : Fin n}
    (hu : u ≠ shkey) (hfree : (table j).valid = false) :
    binding S (Function.update table j ⟨u, entry, true⟩) shkey =
        binding S table shkey ↔
      ¬ (stopSlot S table shkey = some j ∧
        ∃ i, HiddenBehind S table shkey j i) := by
  cases hfind : find S table shkey with
  | some i =>
      have hfind' := find_fill_of_some u entry hfree hfind
      have hi : i ≠ j := by
        intro heq
        have hvalid := valid_of_find hfind
        rw [heq, hfree] at hvalid
        contradiction
      apply iff_of_true
      · rw [binding, hfind', binding, hfind, Option.map_some,
          Option.map_some, Function.update_of_ne hi]
      · intro hback
        rw [find_eq_none_of_stopSlot hback.1 hfree] at hfind
        contradiction
  | none =>
      have hfill := fun i => find_fill_eq_some_iff (i := i) entry hu hfree
        hfind
      cases hfind' : find S (Function.update table j ⟨u, entry, true⟩)
          shkey with
      | none =>
          apply iff_of_true (by simp [binding, hfind, hfind'])
          intro hback
          rcases hback with ⟨hstop, i, hhidden⟩
          rw [(hfill i).mpr ⟨hstop, hhidden⟩] at hfind'
          contradiction
      | some i =>
          obtain ⟨hstop, hhidden⟩ := (hfill i).mp hfind'
          apply iff_of_false (by simp [binding, hfind, hfind'])
          exact fun h => h ⟨hstop, i, hhidden⟩

/-- **Inserting a token leaves the binding of another alone** unless it
exposes it. -/
theorem binding_fill_iff {u : τ} (hu : u ≠ shkey) (offset size : Nat)
    (permission : BitVec 32) :
    binding S (insertProtectionEntry S table u offset size permission).2
        shkey = binding S table shkey ↔
      ¬ Exposes S table u shkey := by
  rw [insertProtectionEntry_eq, Exposes]
  cases hslot : stopSlot S table u with
  | none => simp
  | some j =>
      cases hfree : (table j).valid with
      | true =>
          apply iff_of_true (by simp [hfree])
          intro hcut
          rcases hcut with ⟨_, _, heq, _, hinv, _⟩
          cases heq
          rw [hfree] at hinv
          contradiction
      | false =>
          simp only [hfree, if_true]
          rw [binding_update_iff _ hu hfree]
          apply not_congr
          constructor
          · intro hback
            rcases hback with ⟨hstop, i, hhidden⟩
            exact ⟨i, j, rfl, hstop, hfree, hhidden⟩
          · intro hexposes
            rcases hexposes with ⟨i, _, heq, hstop, _, hhidden⟩
            cases heq
            exact ⟨hstop, i, hhidden⟩

/-! ## Undisturbed tokens in runs -/

variable (S)

/-- A call of `revoke_cxl` or `acquire` for another token leaves what the
lookups find for `shkey` as it is. -/
def Undisturbed (shkey : τ) (g : Gshm τ n) : GshmOp τ → Prop
  | .revokeCxl u =>
      u ≠ shkey → SameLookups S g.table (revokeCxl S g.table u).2 shkey
  | .acquire offset size permission =>
      drawn S g ≠ shkey →
        SameLookups S g.table (g.acquire S offset size permission).2.table
          shkey
  | _ => True

/-- The revoked token does not cut off `shkey` and the drawn one does not
expose it. -/
def PathsApart (shkey : τ) (g : Gshm τ n) : GshmOp τ → Prop
  | .revokeCxl u => u ≠ shkey → ¬ CutsOff S g.table u shkey
  | .acquire _ _ _ =>
      drawn S g ≠ shkey → ¬ Exposes S g.table (drawn S g) shkey
  | _ => True

variable {S}

/-- **Step lemma**: a single call disturbs `shkey` exactly when the paths
meet. -/
theorem undisturbed_iff (hkey : shkey ≠ S.globalKey) (g : Gshm τ n)
    (op : GshmOp τ) :
    Undisturbed S shkey g op ↔ PathsApart S shkey g op := by
  cases op with
  | revokeCxl u =>
      exact forall_congr' fun _ =>
        (sameLookups_iff hkey).trans (binding_revoke_iff u)
  | acquire offset size permission =>
      exact forall_congr' fun hu =>
        (sameLookups_iff hkey).trans (binding_fill_iff hu offset size _)
  | _ => exact Iff.rfl

/-! ## Tokens without a trace -/

variable (S)

/-- No valid slot holds the token. -/
def NoCopy (table : ProtectionTable τ n) (shkey : τ) : Prop :=
  ∀ i, (table i).valid = true → (table i).shkey ≠ shkey

/-- Every valid slot that holds the token is the one where its probe
stops. -/
def SoleCopy (table : ProtectionTable τ n) (shkey : τ) : Prop :=
  ∀ i, (table i).valid = true → (table i).shkey = shkey →
    stopSlot S table shkey = some i

variable {S}

theorem not_accepted_of_noCopy (hkey : shkey ≠ S.globalKey) {g : Gshm τ n}
    (h : NoCopy g.table shkey) (kind : AccessKind) (offset size : Nat) :
    ¬ Accepted S g kind offset size shkey := by
  intro haccepted
  rcases haccepted with ⟨i, haccept⟩
  have hfind := ((access_eq_ok_iff hkey).mp haccept).1
  exact h i (valid_of_find hfind) (shkey_of_find hfind)

omit [NeZero n] [DecidableEq τ] in
theorem NoCopy.invalidate (h : NoCopy table shkey) (j : Fin n) :
    NoCopy (invalidate table j) shkey := by
  intro i hvalid
  have hi := ne_of_valid_invalidate hvalid
  rw [invalidate_of_ne hi] at hvalid ⊢
  exact h i hvalid

/-- Revoking a token whose valid copies are all in sight leaves none. -/
theorem noCopy_revoke (hkey : shkey ≠ S.globalKey)
    (hsole : SoleCopy S table shkey) :
    NoCopy (revokeCxl S table shkey).2 shkey := by
  rw [revokeCxl_eq hkey]
  cases hfind : find S table shkey with
  | none =>
      intro i hvalid heq
      rw [find_of_stopSlot (hsole i hvalid heq) hvalid] at hfind
      cases hfind
  | some j =>
      show NoCopy (invalidate table j) shkey
      intro i hvalid heq
      have hi := ne_of_valid_invalidate hvalid
      rw [invalidate_of_ne hi] at hvalid heq
      rw [find_of_stopSlot (hsole i hvalid heq) hvalid] at hfind
      cases hfind
      exact hi rfl

theorem NoCopy.insert (h : NoCopy table shkey) {u : τ} (hu : u ≠ shkey)
    (offset size : Nat) (permission : BitVec 32) :
    NoCopy (insertProtectionEntry S table u offset size permission).2
      shkey := by
  rw [insertProtectionEntry_eq]
  cases stopSlot S table u with
  | none => exact h
  | some j =>
      by_cases hfree : (table j).valid = false
      · simp only [hfree, if_true]
        intro i hvalid
        by_cases hi : i = j
        · rw [hi, Function.update_self]
          exact hu
        · rw [Function.update_of_ne hi] at hvalid ⊢
          exact h i hvalid
      · simp only [hfree]
        exact h

/-- The copy that enters the table for a token without a trace is in
sight. -/
theorem NoCopy.soleCopy_insert (h : NoCopy table shkey) (offset size : Nat)
    (permission : BitVec 32) :
    SoleCopy S
      (insertProtectionEntry S table shkey offset size permission).2
      shkey := by
  rw [insertProtectionEntry_eq]
  cases hslot : stopSlot S table shkey with
  | none => exact fun i hvalid heq => absurd heq (h i hvalid)
  | some j =>
      by_cases hfree : (table j).valid = false
      · simp only [hfree, if_true]
        intro i hvalid heq
        by_cases hi : i = j
        · have hfind := find_update_stopSlot hslot
            (.of offset size permission)
          rw [hi]
          exact (Option.filter_eq_some_iff.mp hfind).1
        · rw [Function.update_of_ne hi] at hvalid heq
          exact absurd heq (h i hvalid)
      · simp only [hfree]
        exact fun i hvalid heq => absurd heq (h i hvalid)

theorem NoCopy.revoke (h : NoCopy table shkey) (u : τ) :
    NoCopy (revokeCxl S table u).2 shkey := by
  rw [revokeCxl_table]
  cases clearedSlot S table u with
  | none => exact h
  | some j => exact h.invalidate j

variable (S) in
/-- The calls that work on the table and the data area directly; writes stay
below the offsets that lead round into the table. -/
def GshmOp.Direct : GshmOp τ → Prop
  | .acquire _ _ _ => True
  | .readCxl _ _ _ _ => True
  | .writeCxl offset size _ _ => BelowTable S offset size
  | .compareCxl _ _ _ _ => True
  | .revokeCxl _ => True
  | .clear => True
  | _ => False

/-- **Step lemma**: only a draw of the token itself brings it back. -/
theorem NoCopy.step {fuel : Nat} {g g' : Gshm τ n} {op : GshmOp τ}
    {out : GshmResult τ} (h : NoCopy g.table shkey) (hdirect : op.Direct S)
    (hstep : gshmStep S fuel g op = some (out, g'))
    (hout : out ≠ .shkey shkey) : NoCopy g'.table shkey := by
  cases op with
  | acquire offset size permission =>
      cases hstep
      exact h.insert (fun heq => hout (congrArg _ heq)) offset size _
  | readCxl offset size buf u => cases hstep; exact h
  | writeCxl offset size buf u =>
      cases hstep
      rw [Gshm.writeCxl_table]
      exact h
  | compareCxl offset size buf u => cases hstep; exact h
  | revokeCxl u => cases hstep; exact h.revoke u
  | clear =>
      cases hstep
      intro i hvalid
      have hclear : (clearProtectionTable S g.table i).valid = false :=
        S.clearSlot_valid _
      rw [hclear] at hvalid
      cases hvalid
  | get key value u => cases hdirect
  | update key value u => cases hdirect
  | insert key value => cases hdirect
  | put key value => cases hdirect
  | del key u => cases hdirect

/-- **Run lemma**: a token without a trace stays without one until it is
drawn again. -/
theorem NoCopy.run {fuel : Nat} {calls : List (GshmOp τ)} :
    ∀ {g g' : Gshm τ n} {outs : List (GshmResult τ)},
      NoCopy g.table shkey → (∀ op ∈ calls, op.Direct S) →
      StepRun.run (gshmStep S fuel) g calls = some (outs, g') →
      .shkey shkey ∉ outs → NoCopy g'.table shkey := by
  induction calls with
  | nil =>
      intro g g' outs h _ hrun _
      cases hrun
      exact h
  | cons op calls ih =>
      intro g g' outs h hdirect hrun hquiet
      obtain ⟨o, g₁, os, hstep, hrest, rfl⟩ := run_cons_eq_some_iff.mp hrun
      rw [List.mem_cons, not_or] at hquiet
      have h₁ := h.step (hdirect op (List.mem_cons_self ..)) hstep
        (Ne.symm hquiet.1)
      exact ih h₁ (fun op hop => hdirect op (List.mem_cons_of_mem _ hop))
        hrest hquiet.2

end Interference

/-! ## The tokens of `gshmp_256.cpp` -/

section Sha

variable (sha256 : List UInt8 → Vector UInt8 32)

/-- **Exactly when the operations on other tokens leave a 256-bit token
undisturbed**, in a run of any calls from any state. -/
theorem shmp256_undisturbed_iff (shkey : Shkey256)
    (hkey : shkey ≠ (shmp256Scheme sha256).globalKey) (fuel : Nat)
    (g : Gshm Shkey256 hashTableSize) (calls : List (GshmOp Shkey256)) :
    AtEveryStep (gshmStep (shmp256Scheme sha256) fuel)
        (Undisturbed (shmp256Scheme sha256) shkey) g calls ↔
      AtEveryStep (gshmStep (shmp256Scheme sha256) fuel)
        (PathsApart (shmp256Scheme sha256) shkey) g calls :=
  atEveryStep_congr (undisturbed_iff hkey) g calls

/-- Every call that revokes the token finds all of its valid copies in
sight. -/
def RevokedInSight (shkey : Shkey256) (g : Gshm Shkey256 hashTableSize)
    (op : GshmOp Shkey256) : Prop :=
  op = .revokeCxl shkey → SoleCopy (shmp256Scheme sha256) g.table shkey

/-- **Revocation of a 256-bit token is final** in every run in which the
revocations of the token find all of its valid copies in sight: from then on
no access with it is accepted, until `acquire` returns it again. -/
theorem shmp256_revocation_final (shkey : Shkey256)
    (hkey : shkey ≠ (shmp256Scheme sha256).globalKey) (fuel : Nat)
    (start g₁ g : Gshm Shkey256 hashTableSize)
    (before after : List (GshmOp Shkey256))
    (earlier later : List (GshmResult Shkey256)) (out : GshmResult Shkey256)
    (hsight : AtEveryStep (gshmStep (shmp256Scheme sha256) fuel)
      (RevokedInSight sha256 shkey) start
      (before ++ .revokeCxl shkey :: after))
    (hbefore : run (gshmStep (shmp256Scheme sha256) fuel) start before =
      some (earlier, g₁))
    (hafter : run (gshmStep (shmp256Scheme sha256) fuel) g₁
      (.revokeCxl shkey :: after) = some (out :: later, g))
    (hdirect : ∀ op ∈ after, op.Direct (shmp256Scheme sha256))
    (hquiet : .shkey shkey ∉ later)
    (kind : AccessKind) (offset size : Nat) :
    ¬ Accepted (shmp256Scheme sha256) g kind offset size shkey := by
  have hsole : SoleCopy (shmp256Scheme sha256) g₁.table shkey :=
    (atEveryStep_append hsight hbefore).1 rfl
  obtain ⟨o, g₂, os, hrevoke, hrest, heq⟩ := run_cons_eq_some_iff.mp hafter
  cases heq
  have hgone : NoCopy g₂.table shkey := by
    cases hrevoke
    exact noCopy_revoke hkey hsole
  exact not_accepted_of_noCopy hkey (hgone.run hdirect hrest hquiet) kind
    offset size

end Sha

/-- The 32 bytes of a 256-bit number, most significant first. -/
def digest (x : Nat) : Vector UInt8 32 :=
  Vector.ofFn fun i => UInt8.ofNat (x / 2 ^ (8 * (31 - i.val)))

/-- A token with the given id and 32 zero bytes behind it. -/
def plainShkey (id : UInt64) : Shkey256 := ⟨id, Vector.replicate 32 0⟩

/-- SHA-256 on three tokens whose digests agree in the bits that choose the
home slot. -/
def threeDigests (input : List UInt8) : Vector UInt8 32 :=
  if input = leBytes 8 142897 ++ List.replicate 32 0 then
    digest 0x7df400b9c84de791f0fa686107bf096d93cb34578903aedf58f6b0af48ef5a7d
  else if input = leBytes 8 190930 ++ List.replicate 32 0 then
    digest 0x7df400b3ab648265e2e545bee51df4ff8edd54ce9caf7c91f5d4bd2fc5f91cd8
  else if input = leBytes 8 280657 ++ List.replicate 32 0 then
    digest 0x7df40065442958673314322ae7d34a7bfe1de9686ed1c617f99af722f108be0e
  else Vector.replicate 32 0

/-- A store whose random source yields these three tokens in turn, `use_mac`
off: 34 calls of `rand()` each, the second of which is the id. -/
def threeTokensStore : Gshm Shkey256 hashTableSize :=
  .construct (shmp256Scheme threeDigests) (fun _ => 0)
    (fun i => if i = 1 then 142897 else if i = 35 then 190930
      else if i = 69 then 280657 else 0)
    zeroShkey256 false .firstHost

theorem shmp256_undisturbed_iff_two_tokens :
    AtEveryStep (gshmStep (shmp256Scheme threeDigests) 0)
        (Undisturbed (shmp256Scheme threeDigests) (plainShkey 142897))
        threeTokensStore [.acquire 100 10 3, .acquire 200 10 3] ↔
      AtEveryStep (gshmStep (shmp256Scheme threeDigests) 0)
        (PathsApart (shmp256Scheme threeDigests) (plainShkey 142897))
        threeTokensStore [.acquire 100 10 3, .acquire 200 10 3] :=
  shmp256_undisturbed_iff threeDigests (plainShkey 142897) (by decide) 0
    threeTokensStore [.acquire 100 10 3, .acquire 200 10 3]

/-- Revoking the first of two tokens with one home slot cuts off the
second. -/
theorem not_undisturbed_revoke :
    ¬ AtEveryStep (gshmStep (shmp256Scheme threeDigests) 0)
      (Undisturbed (shmp256Scheme threeDigests) (plainShkey 190930))
      threeTokensStore
      [.acquire 100 10 3, .acquire 200 10 3,
        .revokeCxl (plainShkey 142897)] := by
  intro h
  rcases h with ⟨_, h⟩
  obtain ⟨_, h⟩ := h _ _ rfl
  obtain ⟨hrevoke, _⟩ := h _ _ rfl
  have hread := (hrevoke (by decide)).1
  revert hread
  decide

/-- After a revocation a third token is acquired, and the first one is used and
revoked. -/
def callsBehind : List (GshmOp Shkey256) :=
  [.acquire 300 10 3, .writeCxl 100 10 (fun _ => 1) (plainShkey 142897),
    .revokeCxl (plainShkey 142897)]

/-- The second of two tokens with one home slot is revoked. -/
theorem shmp256_revocation_final_two_tokens :
    ∃ g₁ g earlier later out,
      run (gshmStep (shmp256Scheme threeDigests) 0) threeTokensStore
        [.acquire 100 10 3, .acquire 200 10 3] = some (earlier, g₁) ∧
      run (gshmStep (shmp256Scheme threeDigests) 0) g₁
        (.revokeCxl (plainShkey 190930) :: callsBehind) =
          some (out :: later, g) ∧
      ¬ Accepted (shmp256Scheme threeDigests) g .read 200 10
        (plainShkey 190930) := by
  have hfirst : plainShkey 142897 ≠ plainShkey 190930 := by decide
  have hthird : plainShkey 280657 ≠ plainShkey 190930 := by decide
  refine ⟨_, _, _, _, _, rfl, rfl, ?_⟩
  refine shmp256_revocation_final threeDigests (plainShkey 190930) (by decide)
    0 threeTokensStore _ _ [.acquire 100 10 3, .acquire 200 10 3] callsBehind _
    _ _ ?_ rfl rfl ?_ ?_ .read 200 10
  · -- the token enters the table at the second acquisition
    refine ⟨fun hop => (by cases hop), fun _ _ hone => ?_⟩
    cases hone
    refine ⟨fun hop => (by cases hop), fun _ _ htwo => ?_⟩
    cases htwo
    refine ⟨fun _ => ?_, fun _ _ _ => ⟨fun hop => (by cases hop), fun _ _ _ =>
      ⟨fun hop => (by cases hop), fun _ _ _ =>
        ⟨fun hop => absurd (GshmOp.revokeCxl.inj hop) hfirst,
          fun _ _ _ => trivial⟩⟩⟩⟩
    have hnone : NoCopy (zeroTable (shmp256Scheme threeDigests))
        (plainShkey 190930) := fun _ hvalid => by cases hvalid
    exact (hnone.insert hfirst 100 10 3).soleCopy_insert 200 10 3
  · intro op hop
    simp only [callsBehind, List.mem_cons, List.not_mem_nil, or_false] at hop
    rcases hop with rfl | rfl | rfl
    · exact trivial
    · show BelowTable (shmp256Scheme threeDigests) 100 10
      decide
    · exact trivial
  · intro hout
    simp only [List.mem_cons, List.not_mem_nil, or_false] at hout
    rcases hout with hnew | hwrite | hrevoke
    · exact hthird (GshmResult.shkey.inj hnew).symm
    · cases hwrite
    · cases hrevoke

/-- A token that `revoke_cxl` does not get to see: it is pushed past the slot
of another, that slot is revoked, the token is revoked in vain, and a third
token fills the slot again. -/
theorem not_revocation_final_hidden_copy :
    ∃ g₁ g earlier later code,
      run (gshmStep (shmp256Scheme threeDigests) 0) threeTokensStore
        [.acquire 100 10 3, .acquire 200 10 3,
          .revokeCxl (plainShkey 142897)] = some (earlier, g₁) ∧
      run (gshmStep (shmp256Scheme threeDigests) 0) g₁
        [.revokeCxl (plainShkey 190930), .acquire 300 10 3] =
          some (.status code :: later, g) ∧
      .shkey (plainShkey 190930) ∉ later ∧
      Accepted (shmp256Scheme threeDigests) g .read 200 10
        (plainShkey 190930) := by
  refine ⟨_, _, _, _, _, rfl, rfl, ?_, ?_⟩
  · intro hout
    have heq := List.mem_singleton.mp hout
    have hne : plainShkey 190930 ≠ plainShkey 280657 := by decide
    exact hne (GshmResult.shkey.inj heq)
  · exact ⟨hashFunction256 threeDigests (plainShkey 142897) + 1, by decide⟩

end SHMemora.Ports
