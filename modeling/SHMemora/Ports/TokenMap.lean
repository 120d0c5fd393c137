import SHMemora.Verified.MultiplicativeHash
import SHMemora.Verified.StepRun
import SHMemora.Ports.Confinement

/-!
# The protection table as a map from tokens to regions

What the table is for: a finite map that gives each live token one region and
one permission.  `TokenMap` is that map with its three operations, and
`table_run_refines` shows that the table refines it on every run, for every
scheme whose hash has no collision at all.

Without a collision the probing never gets under way: every valid slot is the
home slot of its token (`HomeSlots`), so a probe always ends where it starts,
and clearing a valid flag cannot cut off another token.  The hash of
`gshmp.cpp` is such a hash, although it only has 65536 tokens to tell apart in
`2 ^ 20` cells: 11400714819323198485 is close to `2 ^ 64` divided by the golden
ratio, and the convergents 28657 / 46368 and 46368 / 75025 keep the multiples
of all smaller keys more than a cell apart.
-/

namespace SHMemora.Ports

open SHMemora.Verified
open SHMemora.Verified.OrbitSearch
open SHMemora.Verified.ByteMemory
open SHMemora.Verified.StepRun

/-! ## The abstract map -/

/-- The regions of the live tokens. -/
abbrev TokenMap (τ : Type) := τ → Option ProtectionEntry

/-- An operation on the table. -/
inductive TableOp (τ : Type) where
  | insert (shkey : τ) (offset size : Nat) (permission : BitVec 32)
  | revoke (shkey : τ)
  | clear

namespace TokenMap

variable {τ : Type} [DecidableEq τ]

/-- Adding a binding: `0` for a new token, `-2` and no change for a live
one. -/
def insert (m : TokenMap τ) (shkey : τ) (entry : ProtectionEntry) :
    Int × TokenMap τ :=
  match m shkey with
  | none => (0, Function.update m shkey (some entry))
  | some _ => (-2, m)

/-- Removing a binding: `0` for a live token and for `globalKey`, otherwise
`-1` and no change. -/
def revoke (globalKey : τ) (m : TokenMap τ) (shkey : τ) : Int × TokenMap τ :=
  if shkey = globalKey ∨ m shkey ≠ none then
    (0, Function.update m shkey none)
  else (-1, m)

/-- One operation; clearing has no result. -/
def step (globalKey : τ) (m : TokenMap τ) :
    TableOp τ → Option (Option Int × TokenMap τ)
  | .insert shkey offset size permission =>
      let r := m.insert shkey (.of offset size permission)
      some (some r.1, r.2)
  | .revoke shkey =>
      let r := m.revoke globalKey shkey
      some (some r.1, r.2)
  | .clear => some (none, fun _ => none)

/-- No binding is added or changed by a revocation. -/
theorem revoke_eq_none_or (globalKey : τ) (m : TokenMap τ) (shkey u : τ) :
    (m.revoke globalKey shkey).2 u = none ∨
      (m.revoke globalKey shkey).2 u = m u := by
  rw [revoke]
  split
  · by_cases hu : u = shkey
    · rw [hu]
      exact .inl (Function.update_self _ _ _)
    · exact .inr (Function.update_of_ne hu _ _)
  · exact .inr rfl

/-- An insertion binds its own token only. -/
theorem eq_or_bound_of_insert {m : TokenMap τ} {shkey u : τ}
    {entry : ProtectionEntry} (h : (m.insert shkey entry).2 u ≠ none) :
    u = shkey ∨ m u ≠ none := by
  by_cases hu : u = shkey
  · exact .inl hu
  · right
    cases hm : m shkey with
    | none =>
        simp only [insert, hm, Function.update_of_ne hu] at h
        exact h
    | some _ =>
        simp only [insert, hm] at h
        exact h

/-- A revocation leaves no binding of its token if it answers `0`. -/
theorem ne_of_bound_revoke {globalKey : τ} {m : TokenMap τ} {shkey u : τ}
    (h : (m.revoke globalKey shkey).2 u ≠ none)
    (hzero : (m.revoke globalKey shkey).1 = 0) : u ≠ shkey := by
  intro hu
  by_cases hbound : shkey = globalKey ∨ m shkey ≠ none
  · rw [revoke, if_pos hbound, hu] at h
    exact h (Function.update_self _ _ _)
  · rw [revoke, if_neg hbound] at hzero
    cases hzero

end TokenMap

section Refinement

variable {τ : Type} [DecidableEq τ] {n : Nat} [NeZero n]
variable (S : TokenScheme τ n)

/-- One operation of the code. -/
def tableStep (table : ProtectionTable τ n) :
    TableOp τ → Option (Option Int × ProtectionTable τ n)
  | .insert shkey offset size permission =>
      let r := insertProtectionEntry S table shkey offset size permission
      some (some r.1, r.2)
  | .revoke shkey =>
      let r := revokeCxl S table shkey
      some (some r.1, r.2)
  | .clear => some (none, clearProtectionTable S table)

/-! ## The invariant -/

/-- Every valid slot is the home slot of the token in it. -/
def HomeSlots (table : ProtectionTable τ n) : Prop :=
  ∀ i, (table i).valid = true → S.hashFunction (table i).shkey = i

/-- The table represents a map: both give every token the same region. -/
structure Represents (table : ProtectionTable τ n) (m : TokenMap τ) :
    Prop where
  home : HomeSlots S table
  bound : ∀ shkey, m shkey =
    if (table (S.hashFunction shkey)).valid = true ∧
        (table (S.hashFunction shkey)).shkey = shkey then
      some (table (S.hashFunction shkey)).pentry
    else none

variable {S} {table : ProtectionTable τ n} {m : TokenMap τ}

/-- With home slots and no collision a probe ends in its first slot. -/
theorem stopSlot_of_homeSlots (hinj : Function.Injective S.hashFunction)
    (hhome : HomeSlots S table) (shkey : τ) :
    stopSlot S table shkey = some (S.hashFunction shkey) := by
  apply circular_of_stop
  apply stops_eq_true_iff.mpr
  cases hvalid : (table (S.hashFunction shkey)).valid with
  | false => exact .inl rfl
  | true => exact .inr (hinj (hhome _ hvalid))

theorem Represents.find_of_some (hinj : Function.Injective S.hashFunction)
    (h : Represents S table m) {shkey : τ} {entry : ProtectionEntry}
    (hm : m shkey = some entry) :
    find S table shkey = some (S.hashFunction shkey) ∧
      (table (S.hashFunction shkey)).pentry = entry := by
  rw [h.bound shkey] at hm
  split at hm
  case isTrue hslot =>
    have hstop := stopSlot_of_homeSlots hinj h.home shkey
    cases hm
    exact ⟨find_of_stopSlot hstop hslot.1, rfl⟩
  case isFalse => cases hm

omit [NeZero n] in
theorem Represents.invalid_of_none (hinj : Function.Injective S.hashFunction)
    (h : Represents S table m) {shkey : τ} (hm : m shkey = none) :
    (table (S.hashFunction shkey)).valid = false := by
  cases hvalid : (table (S.hashFunction shkey)).valid with
  | false => rfl
  | true =>
      have heq : (table (S.hashFunction shkey)).shkey = shkey :=
        hinj (h.home _ hvalid)
      rw [h.bound shkey, if_pos ⟨hvalid, heq⟩] at hm
      cases hm

theorem Represents.find_of_none (hinj : Function.Injective S.hashFunction)
    (h : Represents S table m) {shkey : τ} (hm : m shkey = none) :
    find S table shkey = none :=
  find_eq_none_of_stopSlot (stopSlot_of_homeSlots hinj h.home shkey)
    (h.invalid_of_none hinj hm)

/-- What a lookup finds is what the map says. -/
theorem Represents.binding_eq (hinj : Function.Injective S.hashFunction)
    (h : Represents S table m) (shkey : τ) :
    binding S table shkey = m shkey := by
  cases hm : m shkey with
  | none => simp [binding, h.find_of_none hinj hm]
  | some entry =>
      obtain ⟨hfind, heq⟩ := h.find_of_some hinj hm
      simp [binding, hfind, heq]

/-! ## Each operation keeps the representation -/

omit [NeZero n] in
/-- Writing the home slot of `shkey` changes the binding of `shkey` only. -/
theorem Represents.update (hinj : Function.Injective S.hashFunction)
    (h : Represents S table m) (shkey : τ) (slot : HashEntry τ)
    (b : Option ProtectionEntry)
    (hhome : slot.valid = true → slot.shkey = shkey)
    (hb : b = if slot.valid = true then some slot.pentry else none) :
    Represents S (Function.update table (S.hashFunction shkey) slot)
      (Function.update m shkey b) := by
  constructor
  · intro i hvalid
    by_cases hi : i = S.hashFunction shkey
    · subst hi
      rw [Function.update_self] at hvalid ⊢
      rw [hhome hvalid]
    · rw [Function.update_of_ne hi] at hvalid ⊢
      exact h.home i hvalid
  · intro u
    by_cases hu : u = shkey
    · subst hu
      rw [Function.update_self, Function.update_self, hb]
      by_cases hvalid : slot.valid = true
      · rw [if_pos hvalid, if_pos ⟨hvalid, hhome hvalid⟩]
      · rw [if_neg hvalid, if_neg fun hboth => hvalid hboth.1]
    · have hne : S.hashFunction u ≠ S.hashFunction shkey :=
        fun heq => hu (hinj heq)
      rw [Function.update_of_ne hu, Function.update_of_ne hne]
      exact h.bound u

theorem Represents.insert (hinj : Function.Injective S.hashFunction)
    (h : Represents S table m) (shkey : τ) (offset size : Nat)
    (permission : BitVec 32) :
    (insertProtectionEntry S table shkey offset size permission).1 =
        (m.insert shkey (.of offset size permission)).1 ∧
      Represents S
        (insertProtectionEntry S table shkey offset size permission).2
        (m.insert shkey (.of offset size permission)).2 := by
  have hstop := stopSlot_of_homeSlots hinj h.home shkey
  rw [insertProtectionEntry_eq, hstop, TokenMap.insert]
  cases hm : m shkey with
  | none =>
      have hinv := h.invalid_of_none hinj hm
      simp only [hinv, if_true, true_and]
      exact h.update hinj shkey _ _ (fun _ => rfl) rfl
  | some entry =>
      have hvalid := valid_of_find (h.find_of_some hinj hm).1
      simp [hvalid, h]

omit [NeZero n] in
theorem Represents.invalidate (hinj : Function.Injective S.hashFunction)
    (h : Represents S table m) (shkey : τ) :
    Represents S (invalidate table (S.hashFunction shkey))
      (Function.update m shkey none) :=
  h.update hinj shkey _ none (fun hvalid => by cases hvalid) rfl

theorem Represents.revoke (hinj : Function.Injective S.hashFunction)
    (h : Represents S table m) (shkey : τ) :
    (revokeCxl S table shkey).1 = (m.revoke S.globalKey shkey).1 ∧
      Represents S (revokeCxl S table shkey).2
        (m.revoke S.globalKey shkey).2 := by
  rw [TokenMap.revoke]
  by_cases hkey : shkey = S.globalKey
  · rw [hkey, revokeCxl_globalKey, if_pos (.inl rfl)]
    exact ⟨rfl, h.invalidate hinj S.globalKey⟩
  · rw [revokeCxl_eq hkey]
    cases hm : m shkey with
    | none =>
        rw [h.find_of_none hinj hm, if_neg (by simp [hkey])]
        exact ⟨rfl, h⟩
    | some entry =>
        rw [(h.find_of_some hinj hm).1, if_pos (by simp)]
        exact ⟨rfl, h.invalidate hinj shkey⟩

omit [DecidableEq τ] [NeZero n] in
theorem represents_of_invalid {table : ProtectionTable τ n} [DecidableEq τ]
    (hinv : ∀ i, (table i).valid = false) :
    Represents S table fun _ => none := by
  constructor
  · intro i hvalid
    rw [hinv i] at hvalid
    cases hvalid
  · intro shkey
    rw [if_neg (by simp [hinv])]

/-- **Step lemma**: equal results, and the representation is kept. -/
theorem Represents.step (hinj : Function.Injective S.hashFunction)
    (h : Represents S table m) (op : TableOp τ) {out : Option Int}
    {table' : ProtectionTable τ n}
    (hstep : tableStep S table op = some (out, table')) :
    ∃ m', m.step S.globalKey op = some (out, m') ∧ Represents S table' m' := by
  cases op with
  | insert shkey offset size permission =>
      obtain ⟨hres, hrep⟩ := h.insert hinj shkey offset size permission
      cases hstep
      exact ⟨_, by simp only [TokenMap.step, hres], hrep⟩
  | revoke shkey =>
      obtain ⟨hres, hrep⟩ := h.revoke hinj shkey
      cases hstep
      exact ⟨_, by simp only [TokenMap.step, hres], hrep⟩
  | clear =>
      cases hstep
      exact ⟨_, rfl,
        represents_of_invalid fun i => S.clearSlot_valid (table i)⟩

variable (S) in
/-- Table operations always return. -/
theorem exists_table_run (table : ProtectionTable τ n)
    (ops : List (TableOp τ)) :
    ∃ outs table', run (tableStep S) table ops = some (outs, table') := by
  induction ops generalizing table with
  | nil => exact ⟨[], table, rfl⟩
  | cons op ops ih =>
      obtain ⟨out, table₁, hstep⟩ : ∃ out table₁,
          tableStep S table op = some (out, table₁) := by
        cases op <;> exact ⟨_, _, rfl⟩
      obtain ⟨outs, table', hrun⟩ := ih table₁
      exact ⟨out :: outs, table',
        run_cons_eq_some_iff.mpr ⟨out, table₁, outs, hstep, hrun, rfl⟩⟩

/-- **Run lemma**: a run on the zeroed table gives the results of the map and
ends in a table that represents it. -/
theorem table_run_refines (hinj : Function.Injective S.hashFunction)
    (ops : List (TableOp τ)) :
    ∃ outs table m,
      run (tableStep S) (zeroTable S) ops = some (outs, table) ∧
      run (TokenMap.step S.globalKey) (fun _ => none) ops = some (outs, m) ∧
      Represents S table m := by
  obtain ⟨outs, table, hrun⟩ := exists_table_run S (zeroTable S) ops
  have h0 : Represents S (zeroTable S) fun _ => none :=
    represents_of_invalid fun _ => rfl
  obtain ⟨m, hrun', hrep⟩ := run_simulates (R := Represents S)
    (fun _ _ op _ _ hR hs => hR.step hinj op hs) h0 hrun
  exact ⟨outs, table, m, hrun, hrun', hrep⟩

end Refinement

/-! ## The hash of `gshmp.cpp` -/

/-- Distinct 16-bit tokens have distinct home slots. -/
theorem hashFunction_injective : Function.Injective hashFunction := by
  intro a b hab
  have hcell : a.toNat * 11400714819323198485 % 2 ^ 64 / 2 ^ 44 =
      b.toNat * 11400714819323198485 % 2 ^ 64 / 2 ^ 44 :=
    congrArg Fin.val hab
  have ha := a.toNat_lt
  have hb := b.toNat_lt
  apply UInt16.toNat_inj.mp
  exact MultiplicativeHash.div_injective (by decide)
    (show ((28657 : Nat) : Int) * (75025 : Nat) -
      (46368 : Nat) * (46368 : Nat) = 1 by decide)
    (by decide) (by decide) (by decide) (by omega) (by omega) hcell

/-- **The table of `gshmp.cpp` refines a map from tokens to regions.**  Every
sequence of insertions, revocations and clearings gives the results of the
map, and afterwards each access function resolves every token but `global_key`
to its binding in the map and decides on that binding alone. -/
theorem shmp_table_refines (ops : List (TableOp UInt16)) :
    ∃ outs table m,
      run (tableStep shmpScheme) (zeroTable shmpScheme) ops =
        some (outs, table) ∧
      run (TokenMap.step shmpScheme.globalKey) (fun _ => none) ops =
        some (outs, m) ∧
      ∀ shkey, shkey ≠ shmpScheme.globalKey →
        resolved table (readLookup shmpScheme table shkey) shkey = m shkey ∧
        resolved table (writeLookup shmpScheme table shkey) shkey = m shkey ∧
        resolved table (compareLookup shmpScheme table shkey) shkey =
          m shkey ∧
        ∀ kind dataAddr offset size,
          (∃ i, access shmpScheme table dataAddr kind offset size shkey =
            .ok i) ↔
          ∃ entry, m shkey = some entry ∧
            entry.refusal kind.bit offset size = none ∧
            ¬ NullWrite dataAddr kind offset := by
  obtain ⟨outs, table, m, hrun, hrun', hrep⟩ :=
    table_run_refines (S := shmpScheme) hashFunction_injective ops
  refine ⟨outs, table, m, hrun, hrun', fun shkey hkey => ?_⟩
  have hbinding : binding shmpScheme table shkey = m shkey :=
    hrep.binding_eq hashFunction_injective shkey
  refine ⟨?_, ?_, ?_, fun kind dataAddr offset size => ?_⟩
  · rw [readLookup_eq hkey, resolved_stopSlot, hbinding]
  · rw [writeLookup_eq hkey, resolved_stopSlot, hbinding]
  · rw [compareLookup_eq hkey, resolved_stopSlot, hbinding]
  · rw [← hbinding, exists_access_iff hkey]

end SHMemora.Ports
