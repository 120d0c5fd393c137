import SHMemora.Ports.TableSearch
import SHMemora.Ports.TokenSchemes

/-!
# What an accepted access can touch

The bounds test of `read_cxl`, `write_cxl` and `compare_cxl` compares two
64-bit sums, and both wrap.  On the side of the entry this only shrinks the
region; on the side of the caller a range that runs over the end of the
address space wraps to a small end and passes.  The copy loop then walks
through the protection table, which sits at the very top of the data-relative
address space, and on to its bottom.

`confined_iff_not_escapes` says exactly which requests escape in this way.
-/

namespace SHMemora.Ports

open SHMemora.Verified.ByteMemory

/-- The three access functions. -/
inductive AccessKind where
  | read
  | write
  | compare
  deriving DecidableEq, Repr

/-- The permission bit an access asks for. -/
def AccessKind.bit : AccessKind → BitVec 32
  | .read => 1
  | .write => 2
  | .compare => 1

section Access

variable {τ : Type} [DecidableEq τ] {n : Nat} [NeZero n]
variable (S : TokenScheme τ n) (table : ProtectionTable τ n) (dataAddr : Nat)

/-- The checks of the access function `kind`; the result is the slot at which
its probe stopped. -/
def access (kind : AccessKind) (offset size : Nat) (shkey : τ) :
    Except Denial (Fin n) :=
  match kind with
  | .read => readAccess S table offset size shkey
  | .write => writeAccess S table dataAddr offset size shkey
  | .compare => compareAccess S table offset size shkey

/-- The copy and compare loops of an access address their first byte at a
null pointer, which only `write_cxl` looks at. -/
def NullWrite (kind : AccessKind) (offset : Nat) : Prop :=
  kind = .write ∧ getDataVaddrByOffset dataAddr offset = 0

variable {S table dataAddr}

/-- When an access with a token other than `global_key` is accepted. -/
theorem access_eq_ok_iff {kind : AccessKind} {offset size : Nat} {shkey : τ}
    (hkey : shkey ≠ S.globalKey) {i : Fin n} :
    access S table dataAddr kind offset size shkey = .ok i ↔
      find S table shkey = some i ∧
        (table i).pentry.refusal kind.bit offset size = none ∧
        ¬ NullWrite dataAddr kind offset := by
  cases kind with
  | read =>
      simp [access, readAccess_eq hkey, decision_eq_ok_iff, AccessKind.bit,
        NullWrite]
  | write =>
      simp [access, writeAccess_eq hkey, checkAddress_eq_ok_iff,
        decision_eq_ok_iff, AccessKind.bit, NullWrite, and_assoc]
  | compare =>
      simp [access, compareAccess_eq hkey, decision_eq_ok_iff,
        AccessKind.bit, NullWrite]

/-- Acceptance depends on the binding of the token alone. -/
theorem exists_access_iff {kind : AccessKind} {offset size : Nat} {shkey : τ}
    (hkey : shkey ≠ S.globalKey) :
    (∃ i, access S table dataAddr kind offset size shkey = .ok i) ↔
      ∃ entry, binding S table shkey = some entry ∧
        entry.refusal kind.bit offset size = none ∧
        ¬ NullWrite dataAddr kind offset := by
  simp only [access_eq_ok_iff hkey, binding, Option.map_eq_some_iff]
  constructor
  · intro haccess
    rcases haccess with ⟨i, hfind, hrefusal, hnull⟩
    exact ⟨_, ⟨i, hfind, rfl⟩, hrefusal, hnull⟩
  · intro hbound
    rcases hbound with ⟨_, ⟨i, hfind, rfl⟩, hrefusal, hnull⟩
    exact ⟨i, hfind, hrefusal, hnull⟩

/-- Under `global_key` nothing but a null write is refused. -/
theorem access_globalKey_eq_ok_iff {kind : AccessKind} {offset size : Nat}
    {i : Fin n} :
    access S table dataAddr kind offset size S.globalKey = .ok i ↔
      i = S.hashFunction S.globalKey ∧ ¬ NullWrite dataAddr kind offset := by
  cases kind with
  | read => simp [access, readAccess_globalKey, NullWrite, eq_comm]
  | write =>
      by_cases h : getDataVaddrByOffset dataAddr offset = 0 <;>
        simp [access, writeAccess_globalKey, NullWrite, h, eq_comm]
  | compare => simp [access, compareAccess_globalKey, NullWrite, eq_comm]

end Access

/-! ## Confinement -/

section Confinement

variable {τ : Type} [DecidableEq τ] {n : Nat} [NeZero n]

/-- The byte at a data-relative index belongs to the region of an entry. -/
def ProtectionEntry.Covers (entry : ProtectionEntry) (index : Nat) : Prop :=
  entry.offset ≤ index ∧ index < entry.offset + entry.size

omit [DecidableEq τ] [NeZero n] in
/-- The byte at a data-relative index belongs to the protection table: the
table ends at index `2 ^ 64`, which is index `0`. -/
def InTable (S : TokenScheme τ n) (index : Nat) : Prop :=
  2 ^ 64 - tableBytes S ≤ index

/-- An access that is accepted was accepted on a valid slot that holds the
token with the needed bit, and its loop stays inside the region of that slot
and out of the table.  The loop is the one over the whole range, which a
comparison leaves early where it finds a difference. -/
def Confined (S : TokenScheme τ n) (table : ProtectionTable τ n)
    (dataAddr : Nat) (kind : AccessKind) (offset size : Nat) (shkey : τ) :
    Prop :=
  ∀ i, access S table dataAddr kind offset size shkey = .ok i →
    (table i).valid = true ∧ (table i).shkey = shkey ∧
      (table i).pentry.permission &&& kind.bit ≠ 0 ∧
      ((table i).pentry.offset + (table i).pentry.size < 2 ^ 64 →
        ∀ k, k < size →
          (table i).pentry.Covers (wrap (offset + k)) ∧
            ¬ InTable S (wrap (offset + k)))

/-- The requests that get through without being confined: the region of the
token is in order, the start of the range lies in it or behind it and its
wrapped end does not lie behind it, but the true end of the range is inside
or beyond the table. -/
def Escapes (S : TokenScheme τ n) (table : ProtectionTable τ n)
    (dataAddr : Nat) (kind : AccessKind) (offset size : Nat) (shkey : τ) :
    Prop :=
  ∃ i, find S table shkey = some i ∧
    (table i).pentry.size ≠ 0 ∧
    (table i).pentry.permission &&& kind.bit ≠ 0 ∧
    (table i).pentry.offset + (table i).pentry.size < 2 ^ 64 ∧
    (table i).pentry.offset ≤ offset ∧
    wrap (offset + size) ≤ (table i).pentry.offset + (table i).pentry.size ∧
    ¬ NullWrite dataAddr kind offset ∧
    0 < size ∧ 2 ^ 64 - tableBytes S < offset + size

variable {S : TokenScheme τ n} {table : ProtectionTable τ n} {dataAddr : Nat}
  {kind : AccessKind} {offset size : Nat} {shkey : τ}

/-- A range that ends below the table is confined by the bounds test. -/
theorem covers_of_refusal_eq_none {entry : ProtectionEntry}
    {bit : BitVec 32} (hsum : entry.offset + entry.size < 2 ^ 64)
    (hend : offset + size < 2 ^ 64)
    (haccept : entry.refusal bit offset size = none)
    {k : Nat} (hk : k < size) : entry.Covers (wrap (offset + k)) := by
  obtain ⟨_, hlo, hhi, _⟩ := ProtectionEntry.refusal_eq_none_iff.mp haccept
  rw [wrap_of_lt hend, wrap_of_lt hsum] at hhi
  rw [wrap_of_lt (by omega)]
  exact ⟨by omega, by omega⟩

omit [DecidableEq τ] [NeZero n] in
/-- Every range that ends inside or beyond the table has a byte in it. -/
theorem exists_inTable (htable : 0 < tableBytes S)
    (hoffset : offset < 2 ^ 64) (hpos : 0 < size)
    (hend : 2 ^ 64 - tableBytes S < offset + size) :
    ∃ k, k < size ∧ InTable S (wrap (offset + k)) := by
  by_cases hover : offset + size ≤ 2 ^ 64
  · refine ⟨size - 1, by omega, ?_⟩
    rw [InTable, wrap_of_lt (by omega)]
    omega
  · refine ⟨2 ^ 64 - 1 - offset, by omega, ?_⟩
    rw [InTable, wrap_of_lt (by omega)]
    omega

theorem confined_iff_not_escapes (htable : 0 < tableBytes S)
    (hkey : shkey ≠ S.globalKey) (hoffset : offset < 2 ^ 64) :
    Confined S table dataAddr kind offset size shkey ↔
      ¬ Escapes S table dataAddr kind offset size shkey := by
  constructor
  · intro hconf hesc
    rcases hesc with ⟨i, hfind, hsize, hperm, hsum, hlo, hhi, hnull, hpos, hend⟩
    have hrefusal :
        (table i).pentry.refusal kind.bit offset size = none :=
      ProtectionEntry.refusal_eq_none_iff.mpr
        ⟨hsize, hlo, by rwa [wrap_of_lt hsum], hperm⟩
    have haccept := (access_eq_ok_iff hkey).mpr ⟨hfind, hrefusal, hnull⟩
    obtain ⟨_, _, _, hbytes⟩ := hconf i haccept
    obtain ⟨k, hk, hin⟩ := exists_inTable htable hoffset hpos hend
    exact (hbytes hsum k hk).2 hin
  · intro hesc i haccept
    obtain ⟨hfind, hrefusal, hnull⟩ := (access_eq_ok_iff hkey).mp haccept
    obtain ⟨hsize, hlo, hhi, hperm⟩ :=
      ProtectionEntry.refusal_eq_none_iff.mp hrefusal
    refine ⟨valid_of_find hfind, shkey_of_find hfind, hperm, ?_⟩
    intro hsum k hk
    -- otherwise the request would be one of those that escape
    have hend : offset + size ≤ 2 ^ 64 - tableBytes S := by
      apply Nat.le_of_not_lt
      intro hend
      rw [wrap_of_lt hsum] at hhi
      exact hesc ⟨i, hfind, hsize, hperm, hsum, hlo, hhi, hnull, by omega,
        hend⟩
    refine ⟨covers_of_refusal_eq_none hsum (by omega) hrefusal hk, ?_⟩
    rw [InTable, wrap_of_lt (by omega)]
    omega

end Confinement

/-! ## The accesses of `gshmp.cpp` -/

/-- **Exactly when an access of `gshmp.cpp` is confined**, for every table,
every token but `global_key` and every 64-bit range. -/
theorem shmp_confined_iff (table : ProtectionTable UInt16 hashTableSize)
    (dataAddr : Nat) (kind : AccessKind) (offset size : Nat)
    (shkey : UInt16) (hkey : shkey ≠ shmpScheme.globalKey)
    (hoffset : offset < 2 ^ 64) :
    Confined shmpScheme table dataAddr kind offset size shkey ↔
      ¬ Escapes shmpScheme table dataAddr kind offset size shkey :=
  confined_iff_not_escapes (by decide) hkey hoffset

/-- The table in which token 1 names the ten bytes from 100 on. -/
def tenBytesTable : ProtectionTable UInt16 hashTableSize :=
  (insertProtectionEntry shmpScheme (zeroTable shmpScheme) 1 100 10 3).2

theorem shmp_confined_iff_ten_bytes :
    Confined shmpScheme tenBytesTable (2 ^ 46) .write 102 4 1 ↔
      ¬ Escapes shmpScheme tenBytesTable (2 ^ 46) .write 102 4 1 :=
  shmp_confined_iff tenBytesTable (2 ^ 46) .write 102 4 1 (by decide)
    (by decide)

/-- A read of `2 ^ 64 - 50` bytes from 105 on ends, wrapped, at 55: it is
accepted on the ten-byte region and walks through everything else. -/
theorem not_confined_wrapped_read :
    ¬ Confined shmpScheme tenBytesTable (2 ^ 46) .read 105 (2 ^ 64 - 50)
        1 := by
  intro h
  have haccept : access shmpScheme tenBytesTable (2 ^ 46) .read 105
      (2 ^ 64 - 50) 1 = .ok (hashFunction 1) := by decide
  obtain ⟨_, _, _, hbytes⟩ := h _ haccept
  have hcovers := (hbytes (by decide) 5 (by decide)).1.2
  revert hcovers
  decide

end SHMemora.Ports
