import SHMemora.Verified.RoundLoop
import SHMemora.Ports.FreshTokens

/-!
# The probe loops, round by round

`ProtectionTable` bounds every probe loop by fuel and walks over `Fin n`.
Here the loops are translated once more with what the source really has: an
index of type `size_t` that is tested against nothing but `original_index`, a
table that could be indexed outside of its bounds, and no bound on the rounds.
`find_available_slot`, which no other function calls, is here, too.

Each loop turns out to be a circular search (`Turns`), which gives at once that
it ends within `n` rounds, that every index is inside the table, and where the
loop stops, for every table and every hash function.

## Main results

* `lookups_end`, `findAvailableSlot_end`, `insertProbe_end` — the round and the
  slot in which each loop ends.
* `lookups_agree` — the lookup loops stop at one slot or all refuse.
* `insertion_follows_lookup` — an insertion ends where the lookups do.
-/

namespace SHMemora.Ports

open SHMemora.Verified.OrbitSearch
open SHMemora.Verified.ByteMemory
open SHMemora.Verified.RoundLoop

section Rounds

variable {τ : Type} [DecidableEq τ] {n : Nat} [NeZero n]
variable (S : TokenScheme τ n) (table : ProtectionTable τ n) (shkey : τ)

/-! ## The loops -/

/-- How a probe loop is left. -/
inductive ProbeEnd where
  /-- It has indexed the table outside of its bounds. -/
  | outside
  /-- `hash_index == original_index`: the early return, or `exit(-1)`. -/
  | wrapped
  /-- `probe_count > HASH_TABLE_SIZE`. -/
  | counted
  /-- Its condition is false in front of this slot. -/
  | slot (hashIndex : Nat)
  deriving DecidableEq, Repr

omit [DecidableEq τ] [NeZero n] in
/-- `protection_table[hash_index]`, if there is such a slot. -/
def slotAt (hashIndex : Nat) : Option (HashEntry τ) :=
  if h : hashIndex < n then some (table ⟨hashIndex, h⟩) else none

/-- `(hash_index + 1) % HASH_TABLE_SIZE`. -/
def nextIndex (n hashIndex : Nat) : Nat := (hashIndex + 1) % n

omit [NeZero n] in
/-- The loop of `read_cxl` and `compare_cxl`. -/
def probeRound (original hashIndex : Nat) : Nat ⊕ ProbeEnd :=
  match slotAt table hashIndex with
  | none => .inr .outside
  | some slot =>
      if slot.valid = true ∧ slot.shkey ≠ shkey ∧ shkey ≠ S.globalKey then
        if nextIndex n hashIndex = original then .inr .wrapped
        else .inl (nextIndex n hashIndex)
      else .inr (.slot hashIndex)

omit [NeZero n] in
/-- The loop of `write_cxl` and `revoke_cxl`; the state is `hash_index` and
`probe_count`. -/
def countedProbeRound (original : Nat) (state : Nat × Nat) :
    (Nat × Nat) ⊕ ProbeEnd :=
  match slotAt table state.1 with
  | none => .inr .outside
  | some slot =>
      if slot.valid = true ∧ slot.shkey ≠ shkey ∧ shkey ≠ S.globalKey then
        if n < state.2 + 1 then .inr .counted
        else if nextIndex n state.1 = original then .inr .wrapped
        else .inl (nextIndex n state.1, state.2 + 1)
      else .inr (.slot state.1)

omit [NeZero n] in
/-- The loop of `find_available_slot`. -/
def findRound (original hashIndex : Nat) : Nat ⊕ ProbeEnd :=
  match slotAt table hashIndex with
  | none => .inr .outside
  | some slot =>
      if slot.valid = true ∧ slot.shkey ≠ shkey then
        if nextIndex n hashIndex = original then .inr .wrapped
        else .inl (nextIndex n hashIndex)
      else .inr (.slot hashIndex)

omit [NeZero n] in
/-- The loop of `insert_protection_entry`, which leaves with the result of the
call and the table, or with `none` outside of the table. -/
def insertRound (entry : ProtectionEntry) (original hashIndex : Nat) :
    Nat ⊕ Option (Int × ProtectionTable τ n) :=
  if h : hashIndex < n then
    if (table ⟨hashIndex, h⟩).valid = false then
      .inr (some
        (0, Function.update table ⟨hashIndex, h⟩ ⟨shkey, entry, true⟩))
    else if (table ⟨hashIndex, h⟩).shkey = shkey then
      .inr (some (-2, table))
    else if nextIndex n hashIndex = original then .inr (some (-1, table))
    else .inl (nextIndex n hashIndex)
  else .inr none

/-! ## The functions that contain them -/

omit [NeZero n] in
/-- `read_cxl` leaves its loop in this round and in this way. -/
def ReadProbe : Nat → ProbeEnd → Prop :=
  Ends (probeRound S table shkey (S.hashFunction shkey)) (S.hashFunction shkey)

omit [NeZero n] in
/-- `compare_cxl` leaves its loop in this round and in this way. -/
def CompareProbe : Nat → ProbeEnd → Prop :=
  Ends (probeRound S table shkey (S.hashFunction shkey)) (S.hashFunction shkey)

omit [NeZero n] in
/-- `write_cxl` leaves its loop in this round and in this way. -/
def WriteProbe : Nat → ProbeEnd → Prop :=
  Ends (countedProbeRound S table shkey (S.hashFunction shkey))
    (S.hashFunction shkey, 0)

omit [NeZero n] in
/-- `revoke_cxl` leaves its loop in this round and in this way. -/
def RevokeProbe : Nat → ProbeEnd → Prop :=
  Ends (countedProbeRound S table shkey (S.hashFunction shkey))
    (S.hashFunction shkey, 0)

omit [NeZero n] in
/-- `find_available_slot` leaves its loop in this round and in this way. -/
def FindAvailableSlot : Nat → ProbeEnd → Prop :=
  Ends (findRound table shkey (S.hashFunction shkey)) (S.hashFunction shkey)

omit [NeZero n] in
/-- `insert_protection_entry` returns in this round. -/
def InsertProbe (offset size : Nat) (permission : BitVec 32) :
    Nat → Option (Int × ProtectionTable τ n) → Prop :=
  Ends (insertRound table shkey (.of offset size permission)
    (S.hashFunction shkey)) (S.hashFunction shkey)

/-! ## Every loop is a circular search -/

variable {S table shkey}

omit [DecidableEq τ] [NeZero n] in
@[simp] theorem slotAt_val (j : Fin n) :
    slotAt table j = some (table j) := by
  simp [slotAt]

@[simp] theorem nextIndex_val (j : Fin n) :
    nextIndex n j = ((j + 1 : Fin n) : Nat) := by
  rw [nextIndex, Fin.val_add, Fin.val_one', Nat.add_mod_mod]

/-- The way out that belongs to a lookup of the model. -/
def ProbeEnd.ofLookup : Option (Fin n) → ProbeEnd
  | none => .wrapped
  | some i => .slot i

theorem probeRound_turns (hkey : shkey ≠ S.globalKey) (start : Fin n) :
    Turns (probeRound S table shkey start) (stops table shkey) start
      Fin.val (fun j => .slot j) .wrapped where
  stopped j hstop := by
    have hout : ¬ ((table j).valid = true ∧ (table j).shkey ≠ shkey ∧
        shkey ≠ S.globalKey) := by
      rintro ⟨hvalid, hne, _⟩
      simp [stops_eq_false_iff.mpr ⟨hvalid, hne⟩] at hstop
    simp only [probeRound, slotAt_val, if_neg hout]
  passed j hpass hlt := by
    obtain ⟨hvalid, hne⟩ := stops_eq_false_iff.mp hpass
    have hback := succ_ne_of_gap_lt hlt
    simp [probeRound, hvalid, hne, hkey, Fin.val_inj, hback]
  returned j hpass hback := by
    obtain ⟨hvalid, hne⟩ := stops_eq_false_iff.mp hpass
    simp [probeRound, hvalid, hne, hkey, hback]

/-- `probe_count` is the distance from the home slot, so that the guard never
fires. -/
theorem countedProbeRound_turns (table : ProtectionTable τ n)
    (hkey : shkey ≠ S.globalKey) (start : Fin n) :
    Turns (countedProbeRound S table shkey start) (stops table shkey) start
      (fun j => ((j : Nat), gap start j)) (fun j => .slot j) .wrapped where
  stopped j hstop := by
    have hout : ¬ ((table j).valid = true ∧ (table j).shkey ≠ shkey ∧
        shkey ≠ S.globalKey) := by
      rintro ⟨hvalid, hne, _⟩
      simp [stops_eq_false_iff.mpr ⟨hvalid, hne⟩] at hstop
    simp only [countedProbeRound, slotAt_val, if_neg hout]
  passed j hpass hlt := by
    obtain ⟨hvalid, hne⟩ := stops_eq_false_iff.mp hpass
    have hback := succ_ne_of_gap_lt hlt
    have hquiet : ¬ n < gap start j + 1 := by omega
    simp [countedProbeRound, hvalid, hne, hkey, hback, hquiet, Fin.val_inj,
      gap_succ_of_lt hlt]
  returned j hpass hback := by
    obtain ⟨hvalid, hne⟩ := stops_eq_false_iff.mp hpass
    have hquiet : ¬ n < gap start j + 1 := by
      have := gap_lt start j
      omega
    simp [countedProbeRound, hvalid, hne, hkey, hquiet,
      hback]

theorem findRound_turns (start : Fin n) :
    Turns (findRound table shkey start) (stops table shkey) start
      Fin.val (fun j => .slot j) .wrapped where
  stopped j hstop := by
    have hout : ¬ ((table j).valid = true ∧ (table j).shkey ≠ shkey) := by
      intro hpass
      simp [stops_eq_false_iff.mpr hpass] at hstop
    simp only [findRound, slotAt_val, if_neg hout]
  passed j hpass hlt := by
    have hback := succ_ne_of_gap_lt hlt
    obtain ⟨hvalid, hne⟩ := stops_eq_false_iff.mp hpass
    simp [findRound, hvalid, hne, Fin.val_inj, hback]
  returned j hpass hback := by
    obtain ⟨hvalid, hne⟩ := stops_eq_false_iff.mp hpass
    simp [findRound, hvalid, hne, hback]

/-- What an insertion does with the slot that stops it. -/
def entered (table : ProtectionTable τ n) (shkey : τ)
    (entry : ProtectionEntry) (j : Fin n) : Int × ProtectionTable τ n :=
  if (table j).valid = false then
    (0, Function.update table j ⟨shkey, entry, true⟩)
  else (-2, table)

theorem insertRound_turns (table : ProtectionTable τ n) (shkey : τ)
    (entry : ProtectionEntry) (start : Fin n) :
    Turns (insertRound table shkey entry start) (stops table shkey) start
      Fin.val (fun j => some (entered table shkey entry j))
      (some (-1, table)) where
  stopped j hstop := by
    cases hvalid : (table j).valid with
    | false => simp [insertRound, entered, hvalid]
    | true =>
        have heq : (table j).shkey = shkey := by
          simpa [stops, hvalid] using hstop
        simp [insertRound, entered, hvalid, heq]
  passed j hpass hlt := by
    obtain ⟨hvalid, hne⟩ := stops_eq_false_iff.mp hpass
    have hback := succ_ne_of_gap_lt hlt
    simp [insertRound, hvalid, hne, Fin.val_inj, hback]
  returned j hpass hback := by
    obtain ⟨hvalid, hne⟩ := stops_eq_false_iff.mp hpass
    simp [insertRound, hvalid, hne, hback]

/-! ## Where the loops end -/

variable (S table shkey)

/-- The number of slots a probe for the token looks at. -/
def probes : Nat := tests (· + 1) (stops table shkey) n (S.hashFunction shkey)

theorem probes_le : probes S table shkey ≤ n := tests_le _ _ _ _

/-- The four lookup loops leave in the same round, at the slot or, back home,
by the early return; and so does the lookup of each function in the model. -/
structure LookupsEnd (k : Nat) (slot : Option (Fin n)) : Prop where
  read : ReadProbe S table shkey k (.ofLookup slot)
  write : WriteProbe S table shkey k (.ofLookup slot)
  compare : CompareProbe S table shkey k (.ofLookup slot)
  revoke : RevokeProbe S table shkey k (.ofLookup slot)
  readLookup_eq : readLookup S table shkey = slot
  writeLookup_eq : writeLookup S table shkey = slot
  compareLookup_eq : compareLookup S table shkey = slot
  revokeLookup_eq : revokeLookup S table shkey = slot

variable {S table shkey}

omit [NeZero n] in
theorem ofLookup_eq_elim (slot : Option (Fin n)) :
    ProbeEnd.ofLookup slot = slot.elim .wrapped fun j => .slot j := by
  cases slot <;> rfl

/-- **The lookup loops end together**, at the slot that stops the probe. -/
theorem lookups_end (table : ProtectionTable τ n)
    (hkey : shkey ≠ S.globalKey) :
    LookupsEnd S table shkey (probes S table shkey)
      (stopSlot S table shkey) := by
  have hread : ReadProbe S table shkey (probes S table shkey)
      (.ofLookup (stopSlot S table shkey)) := by
    rw [ofLookup_eq_elim]
    exact (probeRound_turns hkey (S.hashFunction shkey)).ends
  have hwrite : WriteProbe S table shkey (probes S table shkey)
      (.ofLookup (stopSlot S table shkey)) := by
    have hends := (countedProbeRound_turns table hkey
      (S.hashFunction shkey)).ends
    rw [gap_self] at hends
    rw [ofLookup_eq_elim]
    exact hends
  exact ⟨hread, hwrite, hread, hwrite, readLookup_eq hkey,
    writeLookup_eq hkey, compareLookup_eq hkey, revokeLookup_eq hkey⟩

theorem findAvailableSlot_end (S : TokenScheme τ n)
    (table : ProtectionTable τ n) (shkey : τ) :
    FindAvailableSlot S table shkey (probes S table shkey)
      (.ofLookup (stopSlot S table shkey)) := by
  rw [ofLookup_eq_elim]
  exact (findRound_turns (S.hashFunction shkey)).ends

/-- **The loop of `insert_protection_entry` ends** with the result of the
model. -/
theorem insertProbe_end (S : TokenScheme τ n) (table : ProtectionTable τ n)
    (shkey : τ) (offset size : Nat) (permission : BitVec 32) :
    InsertProbe S table shkey offset size permission (probes S table shkey)
      (some (insertProtectionEntry S table shkey offset size permission)) := by
  have hends := (insertRound_turns table shkey
    (.of offset size permission) (S.hashFunction shkey)).ends
  have hresult : some (insertProtectionEntry S table shkey offset size
      permission) =
      (circular (stops table shkey) (S.hashFunction shkey)).elim
        (some (-1, table))
        fun j => some (entered table shkey
          (.of offset size permission) j) := by
    rw [insertProtectionEntry_eq, stopSlot]
    cases circular (stops table shkey) (S.hashFunction shkey) <;> rfl
  rw [hresult]
  exact hends

/-- The counter leaves no trace: with it the loop ends exactly as without. -/
theorem writeProbe_iff_readProbe (hkey : shkey ≠ S.globalKey) (k : Nat)
    (e : ProbeEnd) :
    WriteProbe S table shkey k e ↔ ReadProbe S table shkey k e := by
  have h := lookups_end table hkey
  constructor
  · intro hwrite
    obtain ⟨rfl, rfl⟩ := hwrite.unique h.write
    exact h.read
  · intro hread
    obtain ⟨rfl, rfl⟩ := hread.unique h.read
    exact h.write

/-! ## Lookups -/

/-- Every access under the token is refused, with the error code of the
function and no effect. -/
def RefusesAll (S : TokenScheme τ n) (table : ProtectionTable τ n)
    (shkey : τ) : Prop :=
  revokeCxl S table shkey = (-1, table) ∧
    ∀ (g : Gshm τ n) (offset size : Nat) (buf : Bytes), g.table = table →
      g.readCxl S offset size buf shkey = (-1, buf) ∧
        g.writeCxl S offset size buf shkey = (-1, g) ∧
        g.compareCxl S offset size buf shkey = -2

theorem refusesAll_of_find (hkey : shkey ≠ S.globalKey)
    (hfind : find S table shkey = none) : RefusesAll S table shkey := by
  refine ⟨?_, fun g offset size buf htable => ⟨?_, ?_, ?_⟩⟩
  · rw [revokeCxl_eq hkey, hfind]
  · rw [Gshm.readCxl, htable, readAccess_eq hkey, hfind]
    rfl
  · rw [Gshm.writeCxl, htable, writeAccess_eq hkey, hfind]
    rfl
  · rw [Gshm.compareCxl, htable, compareAccess_eq hkey, hfind]
    rfl

/-- **The lookup loops agree and end**: within `n` rounds, inside the table,
and either all four stop at the same valid slot with the token, where
`find_available_slot` returns it, or all four functions refuse. -/
theorem lookups_agree (S : TokenScheme τ n) (table : ProtectionTable τ n)
    {shkey : τ} (hkey : shkey ≠ S.globalKey) :
    ∃ k slot, k ≤ n ∧ LookupsEnd S table shkey k slot ∧
      (∀ l e, WriteProbe S table shkey l e ↔ ReadProbe S table shkey l e) ∧
      (∀ l e, RevokeProbe S table shkey l e ↔ CompareProbe S table shkey l e) ∧
      ((∃ i, slot = some i ∧ (table i).valid = true ∧
          (table i).shkey = shkey ∧
          FindAvailableSlot S table shkey k (.slot i)) ∨
        RefusesAll S table shkey) := by
  refine ⟨probes S table shkey, stopSlot S table shkey, probes_le S table shkey,
    lookups_end table hkey, writeProbe_iff_readProbe hkey,
    writeProbe_iff_readProbe hkey, ?_⟩
  cases hfind : find S table shkey with
  | none => exact .inr (refusesAll_of_find hkey hfind)
  | some i =>
      obtain ⟨hvalid, heq, hbefore⟩ := find_eq_some_iff.mp hfind
      have hslot : stopSlot S table shkey = some i :=
        stopSlot_eq_some_iff.mpr ⟨.inr heq, hbefore⟩
      have hprobe := findAvailableSlot_end S table shkey
      rw [hslot] at hprobe
      exact .inl ⟨i, hslot, hvalid, heq, hprobe⟩

/-- In a table full of the token `2` every access under the token `1` is
refused. -/
theorem lookups_agree_fullTable :
    RefusesAll shmpScheme (fun _ => ⟨2, noEntry, true⟩) 1 := by
  obtain ⟨k, slot, _, _, _, _, hfound | hrefused⟩ :=
    lookups_agree shmpScheme (fun _ => ⟨2, noEntry, true⟩)
      (show (1 : UInt16) ≠ 0 by decide)
  · obtain ⟨i, _, _, heq, _⟩ := hfound
    simp at heq
  · exact hrefused

/-! ## Insertions -/

/-- What the result of an insertion says: `0`, the token has taken one invalid
slot, at which the lookups now stop; `-2`, nothing has changed and the lookups
stop at a valid slot with the token; `-1`, nothing has changed, every slot is
valid and none holds the token. -/
structure FollowsLookup (S : TokenScheme τ n) (table : ProtectionTable τ n)
    (shkey : τ) (entry : ProtectionEntry) (code : Int)
    (table' : ProtectionTable τ n) : Prop where
  code_mem : code = 0 ∨ code = -2 ∨ code = -1
  taken : code = 0 → ∃ i, (table i).valid = false ∧
    table' = Function.update table i ⟨shkey, entry, true⟩ ∧
    ∃ k, k ≤ n ∧ LookupsEnd S table' shkey k (some i)
  present : code = -2 → table' = table ∧
    ∃ i, (table i).valid = true ∧ (table i).shkey = shkey ∧
      ∃ k, k ≤ n ∧ LookupsEnd S table shkey k (some i)
  full_iff : code = -1 ↔ ∀ i, (table i).valid = true ∧ (table i).shkey ≠ shkey
  full : code = -1 → table' = table

theorem not_full_of_stopSlot {i : Fin n}
    (hslot : stopSlot S table shkey = some i) :
    ¬ ∀ k, (table k).valid = true ∧ (table k).shkey ≠ shkey := by
  intro hfull
  rw [stopSlot_eq_none_iff.mpr hfull] at hslot
  cases hslot

theorem followsLookup_full (hslot : stopSlot S table shkey = none)
    (entry : ProtectionEntry) :
    FollowsLookup S table shkey entry (-1) table where
  code_mem := .inr (.inr rfl)
  taken h := by simp at h
  present h := by simp at h
  full_iff := ⟨fun _ => stopSlot_eq_none_iff.mp hslot, fun _ => rfl⟩
  full _ := rfl

/-- The lookups stop where an insertion has entered the token. -/
theorem lookupsEnd_update (hkey : shkey ≠ S.globalKey) {i : Fin n}
    (hslot : stopSlot S table shkey = some i) (entry : ProtectionEntry) :
    ∃ k, k ≤ n ∧
      LookupsEnd S (Function.update table i ⟨shkey, entry, true⟩) shkey k
        (some i) := by
  have hends := lookups_end
    (Function.update table i ⟨shkey, entry, true⟩) hkey
  have hfound := find_update_stopSlot hslot entry
  obtain ⟨_, heq, hbefore⟩ := find_eq_some_iff.mp hfound
  rw [stopSlot_eq_some_iff.mpr ⟨.inr heq, hbefore⟩] at hends
  exact ⟨_, probes_le _ _ _, hends⟩

theorem followsLookup_taken (hkey : shkey ≠ S.globalKey) {i : Fin n}
    (hslot : stopSlot S table shkey = some i)
    (hinv : (table i).valid = false) (entry : ProtectionEntry) :
    FollowsLookup S table shkey entry 0
      (Function.update table i ⟨shkey, entry, true⟩) where
  code_mem := .inl rfl
  taken _ := ⟨i, hinv, rfl, lookupsEnd_update hkey hslot entry⟩
  present h := by simp at h
  full_iff := ⟨fun h => by simp at h,
    fun h => absurd h (not_full_of_stopSlot hslot)⟩
  full h := by simp at h

theorem followsLookup_present (hkey : shkey ≠ S.globalKey) {i : Fin n}
    (hslot : stopSlot S table shkey = some i)
    (hvalid : (table i).valid = true) (entry : ProtectionEntry) :
    FollowsLookup S table shkey entry (-2) table where
  code_mem := .inr (.inl rfl)
  taken h := by simp at h
  present _ := by
    have hends := lookups_end table hkey
    rw [hslot] at hends
    exact ⟨rfl, i, hvalid, shkey_of_find (find_of_stopSlot hslot hvalid), _,
      probes_le _ _ _, hends⟩
  full_iff := ⟨fun h => by simp at h,
    fun h => absurd h (not_full_of_stopSlot hslot)⟩
  full h := by simp at h

/-- **Insertion follows the path of the lookups**, for every table, and ends
within `n` probes. -/
theorem insertion_follows_lookup (S : TokenScheme τ n)
    (table : ProtectionTable τ n) {shkey : τ} (hkey : shkey ≠ S.globalKey)
    (offset size : Nat) (permission : BitVec 32) :
    ∃ k code table', k ≤ n ∧
      InsertProbe S table shkey offset size permission k
        (some (code, table')) ∧
      insertProtectionEntry S table shkey offset size permission =
        (code, table') ∧
      FollowsLookup S table shkey (.of offset size permission) code
        table' := by
  refine ⟨probes S table shkey,
    (insertProtectionEntry S table shkey offset size permission).1,
    (insertProtectionEntry S table shkey offset size permission).2,
    probes_le S table shkey,
    insertProbe_end S table shkey offset size permission, rfl, ?_⟩
  rw [insertProtectionEntry_eq]
  cases hslot : stopSlot S table shkey with
  | none => exact followsLookup_full hslot _
  | some i =>
      cases hvalid : (table i).valid with
      | false =>
          simpa [hvalid] using followsLookup_taken hkey hslot hvalid _
      | true =>
          simpa [hvalid] using followsLookup_present hkey hslot hvalid _

end Rounds

/-- The slot two behind the home slot of the token `1`. -/
def freeSlot : Fin hashTableSize := ⟨648057, by decide⟩

/-- A table in which all slots are taken by others, but for that one, which
shows what a revoked insertion of the token has left. -/
def oneFree : ProtectionTable UInt16 hashTableSize := fun i =>
  if i = freeSlot then ⟨1, noEntry, false⟩ else ⟨7, noEntry, true⟩

/-- The insertion goes past the two slots in front of the free one. -/
theorem insertion_follows_lookup_oneFree :
    (shmpScheme.hashFunction 1).val + 2 = freeSlot.val ∧
      ∃ k table', k ≤ hashTableSize ∧
        InsertProbe shmpScheme oneFree 1 0 128 3 k (some (0, table')) ∧
        table' = Function.update oneFree freeSlot ⟨1, .of 0 128 3, true⟩ ∧
        ∃ k, k ≤ hashTableSize ∧
          LookupsEnd shmpScheme table' 1 k (some freeSlot) := by
  refine ⟨by decide, ?_⟩
  obtain ⟨k, code, table', hk, hprobe, -, hfollows⟩ :=
    insertion_follows_lookup shmpScheme oneFree
      (show (1 : UInt16) ≠ 0 by decide) 0 128 3
  have hfree : (oneFree freeSlot).valid = false := by
    rw [oneFree, if_pos rfl]
  have htaken : ∀ i, i ≠ freeSlot → oneFree i = ⟨7, noEntry, true⟩ :=
    fun i hne => if_neg hne
  have hcode : code = 0 := by
    rcases hfollows.code_mem with hzero | hpresent | hfull
    · exact hzero
    · obtain ⟨-, i, hvalid, hshkey, -⟩ := hfollows.present hpresent
      by_cases hi : i = freeSlot
      · rw [hi, hfree] at hvalid
        cases hvalid
      · rw [htaken i hi] at hshkey
        cases hshkey
    · have hvalid := (hfollows.full_iff.mp hfull freeSlot).1
      rw [hfree] at hvalid
      cases hvalid
  obtain ⟨i, hinvalid, htable, hends⟩ := hfollows.taken hcode
  have hi : i = freeSlot := by
    by_contra hne
    rw [htaken i hne] at hinvalid
    cases hinvalid
  rw [hi] at htable hends
  rw [hcode] at hprobe
  exact ⟨k, table', hk, hprobe, htable, hends⟩

end SHMemora.Ports
