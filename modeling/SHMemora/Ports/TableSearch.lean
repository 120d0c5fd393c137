import SHMemora.Ports.ProtectionTable

/-!
# The probe loops as one circular search

Insertion and lookup test their slot in different words, but both stop at the
first slot, counted circularly from the home slot of the token, that is
invalid or holds the token.  This module shows that for each of the loops of
`ProtectionTable` and restates every table operation through `find`, the slot
that holds the token for a lookup.

## Main results

* `readLookup_eq`, `compareLookup_eq`, `writeLookup_eq`, `revokeLookup_eq` —
  the four lookup loops stop at `stopSlot`, for every token but `global_key`;
  the round counter of two of them never fires.
* `readAccess_eq`, `compareAccess_eq`, `writeAccess_eq`, `revokeCxl_eq`,
  `insertProtectionEntry_eq` — the operations after their loops.
* `find_eq_some_iff` — when a token is found, in terms of the table alone.
-/

namespace SHMemora.Ports

open SHMemora.Verified.OrbitSearch
open SHMemora.Verified.ByteMemory

section Search

variable {τ : Type} [DecidableEq τ] {n : Nat} [NeZero n]
variable (S : TokenScheme τ n) (table : ProtectionTable τ n)

/-! ## The common stop test -/

omit [NeZero n] in
/-- A probe for `shkey` ends here: the slot is invalid or holds the token. -/
def stops (shkey : τ) (i : Fin n) : Bool :=
  !(table i).valid || decide ((table i).shkey = shkey)

/-- The slot at which a probe for `shkey` ends. -/
def stopSlot (shkey : τ) : Option (Fin n) :=
  circular (stops table shkey) (S.hashFunction shkey)

/-- The slot in which a lookup finds `shkey`. -/
def find (shkey : τ) : Option (Fin n) :=
  (stopSlot S table shkey).filter fun i => (table i).valid

/-- The region and permission a lookup finds for `shkey`. -/
def binding (shkey : τ) : Option ProtectionEntry :=
  (find S table shkey).map fun i => (table i).pentry

omit [NeZero n] in
/-- The region and permission behind the slot at which a lookup loop stopped,
if that slot is a valid one of the token. -/
def resolved (slot : Option (Fin n)) (shkey : τ) : Option ProtectionEntry :=
  slot.bind fun i =>
    if (table i).valid = true ∧ (table i).shkey = shkey then
      some (table i).pentry
    else none

variable {S table} {shkey : τ}

omit [NeZero n] in
theorem stops_eq_false_iff {i : Fin n} :
    stops table shkey i = false ↔
      (table i).valid = true ∧ (table i).shkey ≠ shkey := by
  simp [stops]

omit [NeZero n] in
theorem stops_eq_true_iff {i : Fin n} :
    stops table shkey i = true ↔
      (table i).valid = false ∨ (table i).shkey = shkey := by
  simp [stops]

/-! ## The loops -/

theorem probeLoop_eq_turn (hkey : shkey ≠ S.globalKey) (original : Fin n)
    (fuel : Nat) (i : Fin n) :
    probeLoop S table shkey original fuel i =
      turn (stops table shkey) original fuel i := by
  induction fuel generalizing i with
  | zero => rfl
  | succ fuel ih =>
      cases hs : stops table shkey i with
      | true =>
          have hout : ¬ ((table i).valid = true ∧ (table i).shkey ≠ shkey ∧
              shkey ≠ S.globalKey) := by
            intro hpass
            rcases hpass with ⟨hvalid, hne, _⟩
            rcases stops_eq_true_iff.mp hs with hinv | heq
            · simp [hinv] at hvalid
            · exact hne heq
          rw [probeLoop, if_neg hout, turn, if_pos hs]
      | false =>
          obtain ⟨hvalid, hne⟩ := stops_eq_false_iff.mp hs
          simp [probeLoop, turn, hs, hvalid, hne, hkey, ih]

/-- The counter has no effect while it stays ahead of the rounds left. -/
theorem countedProbeLoop_eq_probeLoop (original : Fin n) (fuel : Nat)
    (i : Fin n) (probeCount : Nat) (hcount : probeCount + fuel ≤ n) :
    countedProbeLoop S table shkey original fuel i probeCount =
      probeLoop S table shkey original fuel i := by
  induction fuel generalizing i probeCount with
  | zero => rfl
  | succ fuel ih =>
      have hquiet : ¬ n < probeCount + 1 := by omega
      rw [countedProbeLoop, probeLoop, if_neg hquiet,
        ih (i + 1) (probeCount + 1) (by omega)]

theorem insertLoop_eq_turn (entry : ProtectionEntry) (original : Fin n)
    (fuel : Nat) (i : Fin n) :
    insertLoop table shkey entry original fuel i =
      match turn (stops table shkey) original fuel i with
      | none => (-1, table)
      | some j =>
          if (table j).valid = false then
            (0, Function.update table j ⟨shkey, entry, true⟩)
          else (-2, table) := by
  induction fuel generalizing i with
  | zero => rfl
  | succ fuel ih =>
      rw [insertLoop, turn]
      by_cases hinv : (table i).valid = false
      · rw [if_pos hinv, if_pos (stops_eq_true_iff.mpr (.inl hinv))]
        simp [hinv]
      · rw [if_neg hinv]
        by_cases heq : (table i).shkey = shkey
        · rw [if_pos heq, if_pos (stops_eq_true_iff.mpr (.inr heq))]
          simp [hinv]
        · have hgo : stops table shkey i = false :=
            stops_eq_false_iff.mpr ⟨by simpa using hinv, heq⟩
          rw [if_neg heq, ih, hgo]
          by_cases hback : i + 1 = original <;> simp [hback]

/-! ## The slot a lookup stops at -/

theorem readLookup_eq (hkey : shkey ≠ S.globalKey) :
    readLookup S table shkey = stopSlot S table shkey := by
  rw [readLookup, probeLoop_eq_turn hkey, turn_eq_circular, stopSlot]

theorem compareLookup_eq (hkey : shkey ≠ S.globalKey) :
    compareLookup S table shkey = stopSlot S table shkey :=
  readLookup_eq hkey

theorem writeLookup_eq_readLookup :
    writeLookup S table shkey = readLookup S table shkey :=
  countedProbeLoop_eq_probeLoop _ _ _ 0 (by omega)

theorem writeLookup_eq (hkey : shkey ≠ S.globalKey) :
    writeLookup S table shkey = stopSlot S table shkey := by
  rw [writeLookup_eq_readLookup, readLookup_eq hkey]

theorem revokeLookup_eq (hkey : shkey ≠ S.globalKey) :
    revokeLookup S table shkey = stopSlot S table shkey :=
  writeLookup_eq hkey

/-- `global_key` never enters a lookup loop. -/
theorem readLookup_globalKey :
    readLookup S table S.globalKey = some (S.hashFunction S.globalKey) := by
  obtain ⟨k, hk⟩ := Nat.exists_eq_succ_of_ne_zero (NeZero.ne n)
  unfold readLookup
  -- one unfolding of the loop: its condition asks for a non-global token
  conv => lhs; arg 5; rw [hk]
  rw [probeLoop, if_neg (by simp)]

theorem insertProtectionEntry_eq (offset size : Nat)
    (permission : BitVec 32) :
    insertProtectionEntry S table shkey offset size permission =
      match stopSlot S table shkey with
      | none => (-1, table)
      | some i =>
          if (table i).valid = false then
            (0, Function.update table i
              ⟨shkey, .of offset size permission, true⟩)
          else (-2, table) := by
  rw [insertProtectionEntry, insertLoop_eq_turn, turn_eq_circular, stopSlot]

/-! ## Finding a token -/

theorem stopSlot_eq_some_iff {i : Fin n} :
    stopSlot S table shkey = some i ↔
      ((table i).valid = false ∨ (table i).shkey = shkey) ∧
        ∀ k, gap (S.hashFunction shkey) k < gap (S.hashFunction shkey) i →
          (table k).valid = true ∧ (table k).shkey ≠ shkey := by
  rw [stopSlot, circular_eq_some_iff, stops_eq_true_iff]
  simp only [stops_eq_false_iff]

theorem stopSlot_eq_none_iff :
    stopSlot S table shkey = none ↔
      ∀ k, (table k).valid = true ∧ (table k).shkey ≠ shkey := by
  rw [stopSlot, circular_eq_none_iff]
  simp only [stops_eq_false_iff]

theorem find_eq_some_iff {i : Fin n} :
    find S table shkey = some i ↔
      (table i).valid = true ∧ (table i).shkey = shkey ∧
        ∀ k, gap (S.hashFunction shkey) k < gap (S.hashFunction shkey) i →
          (table k).valid = true ∧ (table k).shkey ≠ shkey := by
  rw [find, Option.filter_eq_some_iff, stopSlot_eq_some_iff]
  constructor
  · intro hfind
    rcases hfind with ⟨⟨hstop, hbefore⟩, hvalid⟩
    refine ⟨hvalid, ?_, hbefore⟩
    rcases hstop with hinv | heq
    · simp [hinv] at hvalid
    · exact heq
  · intro hsome
    rcases hsome with ⟨hvalid, heq, hbefore⟩
    exact ⟨⟨.inr heq, hbefore⟩, hvalid⟩

theorem find_of_stopSlot {i : Fin n} (h : stopSlot S table shkey = some i)
    (hvalid : (table i).valid = true) : find S table shkey = some i := by
  simp [find, h, hvalid]

theorem find_eq_none_of_stopSlot {i : Fin n}
    (h : stopSlot S table shkey = some i)
    (hinv : (table i).valid = false) : find S table shkey = none := by
  simp [find, h, hinv]

theorem find_eq_none_of_full (h : stopSlot S table shkey = none) :
    find S table shkey = none := by
  simp [find, h]

theorem valid_of_find {i : Fin n} (h : find S table shkey = some i) :
    (table i).valid = true :=
  (find_eq_some_iff.mp h).1

theorem shkey_of_find {i : Fin n} (h : find S table shkey = some i) :
    (table i).shkey = shkey :=
  (find_eq_some_iff.mp h).2.1

/-- Entering a token into the invalid slot at which its probe stops makes the
probe find it there. -/
theorem find_update_stopSlot {i : Fin n}
    (hslot : stopSlot S table shkey = some i) (entry : ProtectionEntry) :
    find S (Function.update table i ⟨shkey, entry, true⟩) shkey = some i := by
  have hbefore := (stopSlot_eq_some_iff.mp hslot).2
  refine find_eq_some_iff.mpr ⟨by simp, by simp, fun k hk => ?_⟩
  have hne : k ≠ i := fun heq => by
    rw [heq] at hk
    exact Nat.lt_irrefl _ hk
  rw [Function.update_of_ne hne]
  exact hbefore k hk

theorem resolved_stopSlot :
    resolved table (stopSlot S table shkey) shkey = binding S table shkey := by
  cases hslot : stopSlot S table shkey with
  | none => simp [resolved, binding, find_eq_none_of_full hslot]
  | some i =>
      cases hvalid : (table i).valid with
      | false =>
          simp [resolved, binding, hvalid,
            find_eq_none_of_stopSlot hslot hvalid]
      | true =>
          have hfind := find_of_stopSlot hslot hvalid
          simp [resolved, binding, hvalid, hfind, shkey_of_find hfind]

/-! ## The operations after their loops -/

/-- The tests that are left once the slot is known to hold the token. -/
def ProtectionEntry.refusal (entry : ProtectionEntry) (bit : BitVec 32)
    (offset size : Nat) : Option Denial :=
  if entry.size = 0 then some .invalidRegion
  else if offset < entry.offset ∨
      wrap (entry.offset + entry.size) < wrap (offset + size) then
    some .outOfBounds
  else if entry.permission &&& bit = 0 then some .accessDenied
  else none

theorem ProtectionEntry.refusal_eq_none_iff {entry : ProtectionEntry}
    {bit : BitVec 32} {offset size : Nat} :
    entry.refusal bit offset size = none ↔
      entry.size ≠ 0 ∧ entry.offset ≤ offset ∧
        wrap (offset + size) ≤ wrap (entry.offset + entry.size) ∧
        entry.permission &&& bit ≠ 0 := by
  unfold ProtectionEntry.refusal
  split
  · simp_all
  · split
    · constructor
      · intro h; cases h
      · rintro ⟨_, hlo, hhi, _⟩; omega
    · split
      · simp_all
      · simp_all

omit [DecidableEq τ] [NeZero n] in
/-- The decision of an access on the slot found for the token. -/
def decision (bit : BitVec 32) (offset size : Nat)
    (table : ProtectionTable τ n) : Option (Fin n) → Except Denial (Fin n)
  | none => .error .missing
  | some i => verdict i ((table i).pentry.refusal bit offset size)

omit [NeZero n] in
theorem checkEntry_of_holds (hkey : shkey ≠ S.globalKey)
    {entry : HashEntry τ} (hvalid : entry.valid = true)
    (heq : entry.shkey = shkey) (bit : BitVec 32) (offset size : Nat) :
    checkEntry S entry bit offset size shkey =
      entry.pentry.refusal bit offset size := by
  simp [checkEntry, ProtectionEntry.refusal, hkey, hvalid, heq]

theorem checkSlot_stopSlot (hkey : shkey ≠ S.globalKey) (bit : BitVec 32)
    (offset size : Nat) :
    checkSlot S table bit offset size shkey (stopSlot S table shkey) =
      decision bit offset size table (find S table shkey) := by
  cases hslot : stopSlot S table shkey with
  | none => rw [find_eq_none_of_full hslot]; rfl
  | some i =>
      cases hvalid : (table i).valid with
      | false =>
          rw [find_eq_none_of_stopSlot hslot hvalid]
          simp [checkSlot, checkEntry, hvalid, hkey, decision, verdict]
      | true =>
          have hfind := find_of_stopSlot hslot hvalid
          rw [hfind]
          simp only [checkSlot, decision,
            checkEntry_of_holds hkey hvalid (shkey_of_find hfind)]

theorem readAccess_eq (hkey : shkey ≠ S.globalKey) (offset size : Nat) :
    readAccess S table offset size shkey =
      decision 1 offset size table (find S table shkey) := by
  rw [readAccess, readLookup_eq hkey, checkSlot_stopSlot hkey]

theorem compareAccess_eq (hkey : shkey ≠ S.globalKey) (offset size : Nat) :
    compareAccess S table offset size shkey =
      decision 1 offset size table (find S table shkey) := by
  rw [compareAccess, compareLookup_eq hkey, checkSlot_stopSlot hkey]

theorem writeAccess_eq (hkey : shkey ≠ S.globalKey)
    (dataAddr offset size : Nat) :
    writeAccess S table dataAddr offset size shkey =
      checkAddress dataAddr offset
        (decision 2 offset size table (find S table shkey)) := by
  rw [writeAccess, writeLookup_eq hkey, checkSlot_stopSlot hkey]

omit [DecidableEq τ] [NeZero n] in
theorem verdict_eq_ok_iff {i j : Fin n} {denial : Option Denial} :
    verdict i denial = .ok j ↔ i = j ∧ denial = none := by
  cases denial <;> simp [verdict]

omit [DecidableEq τ] [NeZero n] in
theorem checkAddress_eq_ok_iff {dataAddr offset : Nat}
    {r : Except Denial (Fin n)} {i : Fin n} :
    checkAddress dataAddr offset r = .ok i ↔
      r = .ok i ∧ getDataVaddrByOffset dataAddr offset ≠ 0 := by
  cases r with
  | error denial => simp [checkAddress]
  | ok j => by_cases h : getDataVaddrByOffset dataAddr offset = 0 <;>
      simp [checkAddress, h]

omit [DecidableEq τ] [NeZero n] in
theorem decision_eq_ok_iff {bit : BitVec 32} {offset size : Nat}
    {slot : Option (Fin n)} {i : Fin n} :
    decision bit offset size table slot = .ok i ↔
      slot = some i ∧ (table i).pentry.refusal bit offset size = none := by
  cases slot with
  | none => simp [decision]
  | some j =>
      simp only [decision, verdict_eq_ok_iff, Option.some.injEq]
      constructor
      · rintro ⟨rfl, h⟩; exact ⟨rfl, h⟩
      · rintro ⟨rfl, h⟩; exact ⟨rfl, h⟩

theorem revokeCxl_eq (hkey : shkey ≠ S.globalKey) :
    revokeCxl S table shkey =
      match find S table shkey with
      | none => (-1, table)
      | some i => (0, invalidate table i) := by
  rw [revokeCxl, revokeLookup_eq hkey]
  cases hslot : stopSlot S table shkey with
  | none => rw [find_eq_none_of_full hslot]
  | some i =>
      cases hvalid : (table i).valid with
      | false =>
          rw [find_eq_none_of_stopSlot hslot hvalid]
          simp [hvalid, hkey]
      | true =>
          have hfind := find_of_stopSlot hslot hvalid
          rw [hfind]
          simp [hvalid, shkey_of_find hfind]

/-! ## `global_key` -/

/-- A read under `global_key` passes every check. -/
theorem readAccess_globalKey (offset size : Nat) :
    readAccess S table offset size S.globalKey =
      .ok (S.hashFunction S.globalKey) := by
  simp [readAccess, readLookup_globalKey, checkSlot, checkEntry, verdict]

theorem compareAccess_globalKey (offset size : Nat) :
    compareAccess S table offset size S.globalKey =
      .ok (S.hashFunction S.globalKey) :=
  readAccess_globalKey offset size

/-- A write under `global_key` is refused for a null destination only. -/
theorem writeAccess_globalKey (dataAddr offset size : Nat) :
    writeAccess S table dataAddr offset size S.globalKey =
      if getDataVaddrByOffset dataAddr offset = 0 then .error .nullAddress
      else .ok (S.hashFunction S.globalKey) := by
  simp [writeAccess, writeLookup_eq_readLookup, readLookup_globalKey,
    checkSlot, checkEntry, verdict, checkAddress]

/-- Revoking `global_key` invalidates its home slot, whatever is in it. -/
theorem revokeCxl_globalKey :
    revokeCxl S table S.globalKey =
      (0, invalidate table (S.hashFunction S.globalKey)) := by
  have hslot : revokeLookup S table S.globalKey =
      some (S.hashFunction S.globalKey) :=
    writeLookup_eq_readLookup.trans readLookup_globalKey
  simp [revokeCxl, hslot]

end Search

end SHMemora.Ports
