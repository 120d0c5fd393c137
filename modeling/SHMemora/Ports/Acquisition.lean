import SHMemora.Ports.GshmRuns

/-!
# What an acquired token is good for

`acquire` draws a token, tries to enter it into the table and hands it out
whatever came of that.  The token then means what a probe for it finds
(`binding_acquire`): the region of an older holder where the draw hit a live
token, the new region where the probe ended in an invalid slot, nothing where
the table is full.  A draw of `global_key` opens everything.

## Main results

* `honest_iff` — on ranges that end anywhere up to `2 ^ 64`.  A range that
  ends exactly there wraps to the end `0` and passes the bounds test of every
  live region, so a token with any permission is accepted outside its region.
* `honest_below_iff` — on ranges that stay below the point where
  `data_addr + offset` wraps.  There the draw alone decides: the token must
  not be `global_key`, and an older binding of it must grant the same.
-/

namespace SHMemora.Ports

open SHMemora.Verified.OrbitSearch
open SHMemora.Verified.ByteMemory
open SHMemora.Verified.StepRun

section Acquire

variable {τ : Type} [DecidableEq τ] {n : Nat} [NeZero n]
variable (S : TokenScheme τ n)

/-! ## The binding behind an acquired token -/

variable {S} {table : ProtectionTable τ n} {shkey : τ}

/-- What a probe finds for a token after it was inserted. -/
theorem binding_insert (offset size : Nat) (permission : BitVec 32) :
    binding S
        (insertProtectionEntry S table shkey offset size permission).2 shkey =
      match binding S table shkey with
      | some older => some older
      | none => (stopSlot S table shkey).map fun _ =>
          .of offset size permission := by
  rw [insertProtectionEntry_eq]
  cases hslot : stopSlot S table shkey with
  | none => simp [binding, find_eq_none_of_full hslot]
  | some i =>
      cases hvalid : (table i).valid with
      | false =>
          have hnone := find_eq_none_of_stopSlot hslot hvalid
          have hfind := find_update_stopSlot hslot
            (.of offset size permission)
          simp [binding, hvalid, hnone, hfind]
      | true =>
          have hfind := find_of_stopSlot hslot hvalid
          simp [binding, hvalid, hfind]

variable (S)

/-- The older binding of the token drawn next. -/
def older (g : Gshm τ n) : Option ProtectionEntry :=
  binding S g.table (drawn S g)

/-- No slot is left for the token drawn next: all are valid and none holds
it. -/
def NoSlot (g : Gshm τ n) : Prop := stopSlot S g.table (drawn S g) = none

variable {S} {g : Gshm τ n}

theorem binding_acquire (offset size : Nat) (permission : UInt8) :
    binding S (g.acquire S offset size permission).2.table (drawn S g) =
      match older S g with
      | some entry => some entry
      | none => (stopSlot S g.table (drawn S g)).map fun _ =>
          request offset size permission :=
  binding_insert offset size _

theorem older_eq_none_of_noSlot (h : NoSlot S g) : older S g = none := by
  simp [older, binding, find_eq_none_of_full h]

/-- The token is bound to what it was bound to, to the requested region, or
to nothing. -/
theorem binding_acquire_cases (S : TokenScheme τ n) (g : Gshm τ n)
    (offset size : Nat) (permission : UInt8) :
    (∃ entry, older S g = some entry ∧ ¬ NoSlot S g ∧
        binding S (g.acquire S offset size permission).2.table (drawn S g) =
          some entry) ∨
      (older S g = none ∧ ¬ NoSlot S g ∧
        binding S (g.acquire S offset size permission).2.table (drawn S g) =
          some (request offset size permission)) ∨
      (older S g = none ∧ NoSlot S g ∧
        binding S (g.acquire S offset size permission).2.table (drawn S g) =
          none) := by
  rw [binding_acquire]
  by_cases hfull : NoSlot S g
  · have hnone := older_eq_none_of_noSlot hfull
    have hslot : stopSlot S g.table (drawn S g) = none := hfull
    exact .inr (.inr ⟨hnone, hfull, by rw [hnone, hslot]; rfl⟩)
  · cases hold : older S g with
    | some entry => exact .inl ⟨entry, rfl, hfull, rfl⟩
    | none =>
        cases hslot : stopSlot S g.table (drawn S g) with
        | none => exact absurd hslot hfull
        | some i => exact .inr (.inl ⟨rfl, hfull, rfl⟩)

/-- Acceptance after `acquire`, in terms of the binding. -/
theorem accepted_acquire_iff (hkey : drawn S g ≠ S.globalKey)
    {offset size : Nat} {permission : UInt8} {kind : AccessKind}
    {o s : Nat} :
    Accepted S (g.acquire S offset size permission).2 kind o s (drawn S g) ↔
      ∃ entry, binding S (g.acquire S offset size permission).2.table
          (drawn S g) = some entry ∧
        entry.refusal kind.bit o s = none ∧
        ¬ NullWrite g.self.dataAddr.addr kind o :=
  exists_access_iff hkey

/-! ## Honesty -/

variable (S)

/-- After the call, the token is accepted for a non-empty range that ends at
`bound` or before exactly when the range lies in the requested region and the
permission bit was requested. -/
def Honest (bound : Nat) (g : Gshm τ n) (offset size : Nat)
    (permission : UInt8) : Prop :=
  ∀ kind o s, 0 < s → o + s ≤ bound →
    (Accepted S (g.acquire S offset size permission).2 kind o s
        (g.acquire S offset size permission).1 ↔
      offset ≤ o ∧ o + s ≤ offset + size ∧
        (request offset size permission).permission &&& kind.bit ≠ 0)

/-- The entry opens nothing at all. -/
def ProtectionEntry.Powerless (entry : ProtectionEntry) : Prop :=
  ∀ kind : AccessKind, entry.size = 0 ∨ entry.permission &&& kind.bit = 0

variable {S} {offset size : Nat} {permission : UInt8}

/-- A draw of `global_key` is not honest. -/
theorem not_honest_of_globalKey {bound : Nat}
    (hkey : drawn S g = S.globalKey) (hbound : offset + size < bound) :
    ¬ Honest S bound g offset size permission := by
  intro h
  have hread : Accepted S (g.acquire S offset size permission).2 .read offset
      (size + 1) (g.acquire S offset size permission).1 := by
    have hdrawn : (g.acquire S offset size permission).1 = S.globalKey := hkey
    rw [hdrawn]
    exact accepted_globalKey offset (size + 1)
  have hinside := ((h .read offset (size + 1) (by omega) (by omega)).mp
    hread).2.1
  omega

/-- A token that means nothing is honest where nothing was requested. -/
theorem honest_iff_of_unbound {bound : Nat} (hkey : drawn S g ≠ S.globalKey)
    (hsize : 0 < size) (hregion : offset + size < bound)
    (hbound : bound ≤ 2 ^ 64)
    (hnone : binding S (g.acquire S offset size permission).2.table
      (drawn S g) = none) :
    Honest S bound g offset size permission ↔
      (request offset size permission).Powerless := by
  have hrefused : ∀ kind o s,
      ¬ Accepted S (g.acquire S offset size permission).2 kind o s
        (g.acquire S offset size permission).1 := by
    intro kind o s haccept
    obtain ⟨entry, hentry, _⟩ := (accepted_acquire_iff hkey).mp haccept
    rw [hnone] at hentry
    contradiction
  constructor
  · intro h kind
    by_contra hpower
    rw [not_or] at hpower
    have hwhole := (h kind offset size hsize (by omega)).mpr
      ⟨Nat.le_refl _, Nat.le_refl _, hpower.2⟩
    exact hrefused kind offset size hwhole
  · intro hrequest kind o s _ _
    have hwrap : (request offset size permission).size = size :=
      wrap_of_lt (by omega)
    apply iff_of_false (hrefused kind o s)
    intro hin
    rcases hrequest kind with hzero | hno
    · omega
    · exact hin.2.2 hno

/-- The last byte of the address space is not at the null pointer. -/
theorem not_nullWrite_last (dataAddr : DataAddr) (kind : AccessKind) :
    ¬ NullWrite dataAddr.addr kind (2 ^ 64 - 1) := by
  intro hwrite
  rcases hwrite with ⟨_, hnull⟩
  have hbehind := dataAddr.behind_table
  have huser := dataAddr.lt_userEnd
  unfold hashTableSize at hbehind
  unfold getDataVaddrByOffset wrap at hnull
  omega

/-- Every entry with some power opens the last byte of the address space, the
end of which is `0` modulo `2 ^ 64`. -/
theorem refusal_last {entry : ProtectionEntry} {bit : BitVec 32}
    (hsize : entry.size ≠ 0) (hperm : entry.permission &&& bit ≠ 0) :
    entry.refusal bit (2 ^ 64 - 1) 1 = none := by
  have hoffset := entry.offset_lt
  have hend : wrap (2 ^ 64 - 1 + 1) = 0 := by decide
  refine ProtectionEntry.refusal_eq_none_iff.mpr ⟨hsize, by omega, ?_, hperm⟩
  rw [hend]
  exact Nat.zero_le _

/-- A powerless entry opens no range. -/
theorem ProtectionEntry.Powerless.refusal_ne_none {entry : ProtectionEntry}
    (h : entry.Powerless) (kind : AccessKind) (o s : Nat) :
    entry.refusal kind.bit o s ≠ none := by
  intro hrefusal
  obtain ⟨hsize, _, _, hbit⟩ :=
    ProtectionEntry.refusal_eq_none_iff.mp hrefusal
  rcases h kind with hzero | hno
  · exact hsize hzero
  · exact hbit hno

/-- A token bound to an entry is honest where the entry opens nothing, which
is what was requested. -/
theorem honest_iff_of_bound (hkey : drawn S g ≠ S.globalKey)
    (hsize : 0 < size) (hregion : offset + size < 2 ^ 64)
    {entry : ProtectionEntry}
    (hentry : binding S (g.acquire S offset size permission).2.table
      (drawn S g) = some entry) :
    Honest S (2 ^ 64) g offset size permission ↔
      (request offset size permission).Powerless ∧ entry.Powerless := by
  have haccept : ∀ kind o s,
      Accepted S (g.acquire S offset size permission).2 kind o s
          (g.acquire S offset size permission).1 ↔
        entry.refusal kind.bit o s = none ∧
          ¬ NullWrite g.self.dataAddr.addr kind o := by
    intro kind o s
    apply Iff.trans (accepted_acquire_iff hkey)
    simp [hentry]
  constructor
  · intro h
    -- an entry with power is accepted on the last byte of all
    have hpowerless : entry.Powerless := by
      intro kind
      by_contra hpower
      rw [not_or] at hpower
      have hlast := (haccept kind (2 ^ 64 - 1) 1).mpr
        ⟨refusal_last hpower.1 hpower.2, not_nullWrite_last _ kind⟩
      have hinside := ((h kind (2 ^ 64 - 1) 1 (by omega) (by omega)).mp
        hlast).2.1
      omega
    refine ⟨fun kind => ?_, hpowerless⟩
    by_contra hpower
    rw [not_or] at hpower
    have hwhole := (h kind offset size hsize (by omega)).mpr
      ⟨Nat.le_refl _, Nat.le_refl _, hpower.2⟩
    exact hpowerless.refusal_ne_none kind _ _
      ((haccept kind offset size).mp hwhole).1
  · intro hcond kind o s _ _
    rcases hcond with ⟨hrequest, hpowerless⟩
    have hwrap : (request offset size permission).size = size :=
      wrap_of_lt (by omega)
    apply iff_of_false
    · intro haccepted
      exact hpowerless.refusal_ne_none kind o s
        ((haccept kind o s).mp haccepted).1
    · intro hin
      rcases hrequest kind with hzero | hno
      · omega
      · exact hin.2.2 hno

/-- **Honesty on all ranges**: the token is not `global_key`, no permission is
requested, and an older binding of the token opens nothing. -/
theorem honest_iff (hsize : 0 < size) (hregion : offset + size < 2 ^ 64) :
    Honest S (2 ^ 64) g offset size permission ↔
      drawn S g ≠ S.globalKey ∧
        (request offset size permission).Powerless ∧
        ∀ entry, older S g = some entry → entry.Powerless := by
  by_cases hkey : drawn S g = S.globalKey
  · exact iff_of_false (not_honest_of_globalKey hkey hregion)
      fun h => h.1 hkey
  rcases binding_acquire_cases S g offset size permission with
    ⟨entry, hold, _, hentry⟩ | ⟨hold, _, hentry⟩ | ⟨hold, _, hnone⟩
  · rw [honest_iff_of_bound hkey hsize hregion hentry]
    simp [hkey, hold]
  · rw [honest_iff_of_bound hkey hsize hregion hentry]
    simp [hkey, hold]
  · rw [honest_iff_of_unbound hkey hsize hregion (Nat.le_refl _) hnone]
    simp [hkey, hold]

/-! ## Honesty below the wrap -/

/-- The entry opens the same ranges below `bound` as `region` does. -/
def ProtectionEntry.OpensSame (entry : ProtectionEntry) (bound : Nat)
    (region : ProtectionEntry) : Prop :=
  ∀ kind : AccessKind,
    if region.permission &&& kind.bit ≠ 0 then
      entry.permission &&& kind.bit ≠ 0 ∧ entry.offset = region.offset ∧
        entry.size = region.size
    else
      entry.permission &&& kind.bit = 0 ∨ entry.size = 0 ∨
        min (wrap (entry.offset + entry.size)) bound ≤ entry.offset

/-- Below `bound` nothing wraps but the end of the entry itself. -/
theorem opens_iff {entry : ProtectionEntry} {bit : BitVec 32} {o s : Nat}
    (hend : o + s < 2 ^ 64) :
    entry.refusal bit o s = none ↔
      entry.size ≠ 0 ∧ entry.offset ≤ o ∧
        o + s ≤ wrap (entry.offset + entry.size) ∧
        entry.permission &&& bit ≠ 0 := by
  rw [ProtectionEntry.refusal_eq_none_iff, wrap_of_lt hend]

section OpensSame

variable {entry region : ProtectionEntry} {bit : BitVec 32} {bound : Nat}

/-- With the permission, the entry opens what the region spans exactly if it
is the region. -/
theorem opensRegion_iff (hbound : bound < 2 ^ 64) (hsize : 0 < region.size)
    (hregion : region.offset + region.size < bound) :
    (entry.permission &&& bit ≠ 0 ∧ entry.offset = region.offset ∧
        entry.size = region.size) ↔
      ∀ o s, 0 < s → o + s ≤ bound →
        (entry.refusal bit o s = none ↔
          region.offset ≤ o ∧ o + s ≤ region.offset + region.size) := by
  have hlt := entry.size_lt
  constructor
  · intro hentry o s hpos hend
    rcases hentry with ⟨hperm, hoffset, hlength⟩
    rw [opens_iff (by omega), hoffset, hlength, wrap_of_lt (by omega)]
    constructor
    · intro hopen
      rcases hopen with ⟨_, hlo, hhi, _⟩
      exact ⟨hlo, hhi⟩
    · intro hin
      rcases hin with ⟨hlo, hhi⟩
      exact ⟨by omega, hlo, hhi, hperm⟩
  · intro h
    have hwhole := (h region.offset region.size hsize (by omega)).mpr
      ⟨Nat.le_refl _, Nat.le_refl _⟩
    obtain ⟨hne, hlo, hhi, hperm⟩ := (opens_iff (by omega)).mp hwhole
    -- one byte before the region, and one byte behind it
    have hoffset : entry.offset = region.offset := by
      by_contra hneq
      have hopen := (opens_iff (by omega)).mpr
        ⟨hne, Nat.le_refl entry.offset,
          (by omega : entry.offset + 1 ≤ _), hperm⟩
      have hin := ((h entry.offset 1 (by omega) (by omega)).mp hopen).1
      omega
    have hend : wrap (entry.offset + entry.size) =
        region.offset + region.size := by
      by_contra hneq
      have hopen := (opens_iff (by omega)).mpr
        ⟨hne, hlo, (by omega : region.offset + (region.size + 1) ≤ _),
          hperm⟩
      have hin := ((h region.offset (region.size + 1) (by omega)
        (by omega)).mp hopen).2
      omega
    refine ⟨hperm, hoffset, ?_⟩
    unfold wrap at hend
    omega

/-- The entry opens nothing below `bound` if it lacks the permission or is
empty there. -/
theorem opensNothing_iff (hbound : bound < 2 ^ 64) :
    (entry.permission &&& bit = 0 ∨ entry.size = 0 ∨
        min (wrap (entry.offset + entry.size)) bound ≤ entry.offset) ↔
      ∀ o s, 0 < s → o + s ≤ bound → entry.refusal bit o s ≠ none := by
  constructor
  · intro h o s hpos hend hopen
    obtain ⟨hne, hlo, hhi, hperm⟩ := (opens_iff (by omega)).mp hopen
    rcases h with hno | hzero | hempty
    · exact hperm hno
    · exact hne hzero
    · omega
  · intro h
    by_contra hpower
    rw [not_or, not_or, not_le] at hpower
    rcases hpower with ⟨hperm, hne, hroom⟩
    have hopen := (opens_iff (by omega)).mpr
      ⟨hne, Nat.le_refl entry.offset, (by omega : entry.offset + 1 ≤ _),
        hperm⟩
    exact h entry.offset 1 (by omega) (by omega) hopen

theorem openSame_iff (hbound : bound < 2 ^ 64) (hsize : 0 < region.size)
    (hregion : region.offset + region.size < bound) :
    entry.OpensSame bound region ↔
      ∀ (kind : AccessKind) (o s : Nat), 0 < s → o + s ≤ bound →
        (entry.refusal kind.bit o s = none ↔
          region.offset ≤ o ∧ o + s ≤ region.offset + region.size ∧
            region.permission &&& kind.bit ≠ 0) := by
  apply forall_congr'
  intro kind
  split
  case isTrue hbit =>
    have hgranted : (region.permission &&& kind.bit ≠ 0) = True :=
      eq_true hbit
    rw [opensRegion_iff hbound hsize hregion]
    simp only [hgranted, and_true]
  case isFalse hbit =>
    rw [not_not] at hbit
    rw [opensNothing_iff hbound]
    simp [hbit]

theorem opensSame_self : entry.OpensSame bound entry := by
  intro kind
  split
  case isTrue hbit => exact ⟨hbit, rfl, rfl⟩
  case isFalse hbit => exact .inl (not_not.mp hbit)

end OpensSame

/-- Offsets from here on are past the end of the address space. -/
def wrapBound (g : Gshm τ n) : Nat := 2 ^ 64 - g.self.dataAddr.addr

omit [DecidableEq τ] [NeZero n] in
theorem not_nullWrite_below {kind : AccessKind} {o s : Nat} (hpos : 0 < s)
    (hend : o + s ≤ wrapBound g) :
    ¬ NullWrite g.self.dataAddr.addr kind o := by
  intro hwrite
  rcases hwrite with ⟨_, hnull⟩
  have hbehind := g.self.dataAddr.behind_table
  have huser := g.self.dataAddr.lt_userEnd
  unfold hashTableSize at hbehind
  unfold wrapBound at hend
  unfold getDataVaddrByOffset wrap at hnull
  omega

omit [DecidableEq τ] [NeZero n] in
theorem wrapBound_lt (g : Gshm τ n) : wrapBound g < 2 ^ 64 := by
  have hbehind := g.self.dataAddr.behind_table
  unfold hashTableSize at hbehind
  unfold wrapBound
  omega

/-- A token bound to an entry is honest where the entry opens what was
requested. -/
theorem honest_below_iff_of_bound (hkey : drawn S g ≠ S.globalKey)
    (hsize : 0 < size) (hregion : offset + size < wrapBound g)
    {entry : ProtectionEntry}
    (hentry : binding S (g.acquire S offset size permission).2.table
      (drawn S g) = some entry) :
    Honest S (wrapBound g) g offset size permission ↔
      entry.OpensSame (wrapBound g) (request offset size permission) := by
  have hbound := wrapBound_lt g
  have hoffset : (request offset size permission).offset = offset :=
    wrap_of_lt (by omega)
  have hlength : (request offset size permission).size = size :=
    wrap_of_lt (by omega)
  rw [openSame_iff hbound (by omega) (by omega), hoffset, hlength]
  apply forall_congr'
  intro kind
  apply forall_congr'
  intro o
  apply forall_congr'
  intro s
  apply forall_congr'
  intro hpos
  apply forall_congr'
  intro hend
  have haccept : Accepted S (g.acquire S offset size permission).2 kind o s
      (g.acquire S offset size permission).1 ↔
        entry.refusal kind.bit o s = none := by
    apply Iff.trans (accepted_acquire_iff hkey)
    simp [hentry, not_nullWrite_below hpos hend]
  rw [haccept]

/-- **Honesty below the wrap**: the token is not `global_key`, an older
binding of it opens the same ranges, and there is a slot for it unless nothing
is requested. -/
theorem honest_below_iff (hsize : 0 < size)
    (hregion : offset + size < wrapBound g) :
    Honest S (wrapBound g) g offset size permission ↔
      drawn S g ≠ S.globalKey ∧
        (∀ entry, older S g = some entry →
          entry.OpensSame (wrapBound g) (request offset size permission)) ∧
        (NoSlot S g → (request offset size permission).Powerless) := by
  by_cases hkey : drawn S g = S.globalKey
  · exact iff_of_false (not_honest_of_globalKey hkey hregion)
      fun h => h.1 hkey
  rcases binding_acquire_cases S g offset size permission with
    ⟨entry, hold, hslot, hentry⟩ | ⟨hold, hslot, hentry⟩ |
    ⟨hold, hfull, hnone⟩
  · rw [honest_below_iff_of_bound hkey hsize hregion hentry]
    simp [hkey, hold, hslot]
  · rw [honest_below_iff_of_bound hkey hsize hregion hentry]
    simp [hkey, hold, hslot, opensSame_self]
  · have hle := Nat.le_of_lt (wrapBound_lt g)
    rw [honest_iff_of_unbound hkey hsize hregion hle hnone]
    simp [hkey, hold, hfull]

/-! ## Honesty in runs -/

variable (S)

/-- A call of `acquire` for a region that ends below `bound` is honest. -/
def HonestCall (bound : Gshm τ n → Nat) (g : Gshm τ n) : GshmOp τ → Prop
  | .acquire offset size permission =>
      0 < size → offset + size < bound g →
        Honest S (bound g) g offset size permission
  | _ => True

/-- The condition of `honest_iff` at a call. -/
def GrantsNothing (g : Gshm τ n) : GshmOp τ → Prop
  | .acquire offset size permission =>
      0 < size → offset + size < 2 ^ 64 →
        drawn S g ≠ S.globalKey ∧
          (request offset size permission).Powerless ∧
          ∀ entry, older S g = some entry → entry.Powerless
  | _ => True

/-- The condition of `honest_below_iff` at a call. -/
def GrantsRequest (g : Gshm τ n) : GshmOp τ → Prop
  | .acquire offset size permission =>
      0 < size → offset + size < wrapBound g →
        drawn S g ≠ S.globalKey ∧
          (∀ entry, older S g = some entry →
            entry.OpensSame (wrapBound g)
              (request offset size permission)) ∧
          (NoSlot S g → (request offset size permission).Powerless)
  | _ => True

variable {S}

theorem honestCall_iff (g : Gshm τ n) (op : GshmOp τ) :
    HonestCall S (fun _ => 2 ^ 64) g op ↔ GrantsNothing S g op := by
  cases op with
  | acquire offset size permission =>
      exact forall_congr' fun hsize => forall_congr' fun hregion =>
        honest_iff hsize hregion
  | _ => exact Iff.rfl

theorem honestCall_below_iff (g : Gshm τ n) (op : GshmOp τ) :
    HonestCall S wrapBound g op ↔ GrantsRequest S g op := by
  cases op with
  | acquire offset size permission =>
      exact forall_congr' fun hsize => forall_congr' fun hregion =>
        honest_below_iff hsize hregion
  | _ => exact Iff.rfl

end Acquire

/-! ## The tokens of `gshmp.cpp` -/

/-- **Exactly when `acquire` of `gshmp.cpp` is honest** in a run of any calls
from any state: with ranges up to the end of the address space, and with
ranges up to the point where pointers wrap. -/
theorem shmp_acquire_honest_iff (fuel : Nat)
    (g : Gshm UInt16 hashTableSize) (calls : List (GshmOp UInt16)) :
    (AtEveryStep (gshmStep shmpScheme fuel)
        (HonestCall shmpScheme fun _ => 2 ^ 64) g calls ↔
      AtEveryStep (gshmStep shmpScheme fuel) (GrantsNothing shmpScheme) g
        calls) ∧
    (AtEveryStep (gshmStep shmpScheme fuel) (HonestCall shmpScheme wrapBound)
        g calls ↔
      AtEveryStep (gshmStep shmpScheme fuel) (GrantsRequest shmpScheme) g
        calls) :=
  ⟨atEveryStep_congr honestCall_iff g calls,
    atEveryStep_congr honestCall_below_iff g calls⟩

/-- A store whose random source returns `1` again and again. -/
def onesStore : Gshm UInt16 hashTableSize :=
  .construct shmpScheme (fun _ => 0) (fun _ => 1) 0 false .firstHost

/-- The second of two regions acquired with the same draw: its token still
names the first, and reading the second is refused. -/
theorem not_honest_second_draw :
    ¬ AtEveryStep (gshmStep shmpScheme 0)
      (HonestCall shmpScheme fun _ => 2 ^ 64) onesStore
      [.acquire 100 10 3, .acquire 200 10 3] := by
  intro h
  rcases h with ⟨_, hrest⟩
  obtain ⟨hsecond, _⟩ := hrest _ _ rfl
  obtain ⟨i, hi⟩ := (hsecond (by decide) (by decide) .read 200 10 (by decide)
    (by decide)).mpr (by decide)
  have hrefused : access shmpScheme
      ((onesStore.acquire shmpScheme 100 10 3).2.acquire shmpScheme 200 10
        3).2.table onesStore.self.dataAddr.addr .read 200 10 1 =
      .error .outOfBounds := by decide
  cases hrefused.symm.trans hi

end SHMemora.Ports
