import SHMemora.Verified.OrbitSearch
import SHMemora.Verified.ByteMemory

/-!
# The protection table

Both `gshmp.cpp` and `gshmp_256.cpp` keep their tokens in one open-addressing
table in shared memory, and the code around it is the same text in both files:
a linear probe from the hash of the token, a valid flag per slot, no
tombstones.  The table is modelled once, over the token type `τ`, the number
of slots `n` and the `TokenScheme` that says how the two files differ.

The probe loops are translated as the source writes them: `readCxl` and
`compareCxl` share one text, `writeCxl` and `revokeCxl` carry a `probe_count`
on top.  Each is then shown to be the same circular search for the first slot
that is invalid or holds the token (`probeLoop_eq_turn`,
`countedProbeLoop_eq_probeLoop`, `insertLoop_eq_turn`), so that later proofs
reason about `find` alone.

The table operations are sequential here and `compare_exchange_weak` does not
fail spuriously, as on x86-64.
-/

namespace SHMemora.Ports

open SHMemora.Verified.OrbitSearch
open SHMemora.Verified.ByteMemory

/-! ## Data -/

/-- `struct ProtectionEntry`: a region of the data area and the access bits
(1 read, 2 write) a token has there. -/
structure ProtectionEntry where
  offset : Nat
  size : Nat
  permission : BitVec 32
  offset_lt : offset < 2 ^ 64
  size_lt : size < 2 ^ 64
  deriving DecidableEq

/-- `{offset, size, permission}` with the two `size_t` members reduced. -/
def ProtectionEntry.of (offset size : Nat) (permission : BitVec 32) :
    ProtectionEntry :=
  ⟨wrap offset, wrap size, permission, wrap_lt _, wrap_lt _⟩

/-- `struct HashEntry`: one slot of the table. -/
structure HashEntry (τ : Type) where
  shkey : τ
  pentry : ProtectionEntry
  valid : Bool
  deriving DecidableEq

/-- `protection_table`. -/
abbrev ProtectionTable (τ : Type) (n : Nat) := Fin n → HashEntry τ

/-- What the two variants of the store do in their own way. -/
structure TokenScheme (τ : Type) (n : Nat) where
  /-- `hash_function`. -/
  hashFunction : τ → Fin n
  /-- `global_key`. -/
  globalKey : τ
  /-- `generate_shkey`: given `use_mac` and the results of the coming calls
  of `rand()`, the token and the number of calls made. -/
  generateShkey : Bool → (Nat → Nat) → τ × Nat
  /-- What one round of the loop in `clear_protection_table` leaves behind. -/
  clearSlot : HashEntry τ → HashEntry τ
  clearSlot_valid : ∀ slot, (clearSlot slot).valid = false
  /-- `sizeof(HashEntry)` on x86-64. -/
  slotBytes : Nat

/-- Why an access is refused.  The code prints a different message for each
and returns the same error code. -/
inductive Denial where
  | missing
  | invalidRegion
  | outOfBounds
  | accessDenied
  | nullAddress
  deriving DecidableEq, Repr

section Operations

variable {τ : Type} [DecidableEq τ] {n : Nat} [NeZero n]

/-! ## Insertion -/

/-- The `do … while (true)` of `insert_protection_entry`.  The loop has at most
`n` rounds, see `insertLoop_eq_turn`; running out of `fuel` is not reached. -/
def insertLoop (table : ProtectionTable τ n) (shkey : τ)
    (entry : ProtectionEntry) (original : Fin n) :
    Nat → Fin n → Int × ProtectionTable τ n
  | 0, _ => (-1, table)
  | fuel + 1, hashIndex =>
      if (table hashIndex).valid = false then
        (0, Function.update table hashIndex ⟨shkey, entry, true⟩)
      else if (table hashIndex).shkey = shkey then
        (-2, table)
      else if hashIndex + 1 = original then
        (-1, table)
      else
        insertLoop table shkey entry original fuel (hashIndex + 1)

/-- `insert_protection_entry`. -/
def insertProtectionEntry (S : TokenScheme τ n) (table : ProtectionTable τ n)
    (shkey : τ) (offset size : Nat) (permission : BitVec 32) :
    Int × ProtectionTable τ n :=
  insertLoop table shkey (.of offset size permission) (S.hashFunction shkey) n
    (S.hashFunction shkey)

/-! ## Lookup -/

/-- The `while` loop of `read_cxl` and `compare_cxl`; `none` is their early
return. -/
def probeLoop (S : TokenScheme τ n) (table : ProtectionTable τ n) (shkey : τ)
    (original : Fin n) : Nat → Fin n → Option (Fin n)
  | 0, _ => none
  | fuel + 1, hashIndex =>
      if (table hashIndex).valid = true ∧ (table hashIndex).shkey ≠ shkey ∧
          shkey ≠ S.globalKey then
        if hashIndex + 1 = original then none
        else probeLoop S table shkey original fuel (hashIndex + 1)
      else some hashIndex

/-- The `while` loop of `write_cxl` and `revoke_cxl`, which also counts its
rounds. -/
def countedProbeLoop (S : TokenScheme τ n) (table : ProtectionTable τ n)
    (shkey : τ) (original : Fin n) : Nat → Fin n → Nat → Option (Fin n)
  | 0, _, _ => none
  | fuel + 1, hashIndex, probeCount =>
      if (table hashIndex).valid = true ∧ (table hashIndex).shkey ≠ shkey ∧
          shkey ≠ S.globalKey then
        if n < probeCount + 1 then none
        else if hashIndex + 1 = original then none
        else countedProbeLoop S table shkey original fuel (hashIndex + 1)
          (probeCount + 1)
      else some hashIndex

/-- The slot at which the loop of `read_cxl` stops. -/
def readLookup (S : TokenScheme τ n) (table : ProtectionTable τ n)
    (shkey : τ) : Option (Fin n) :=
  probeLoop S table shkey (S.hashFunction shkey) n (S.hashFunction shkey)

/-- The slot at which the loop of `compare_cxl` stops. -/
def compareLookup (S : TokenScheme τ n) (table : ProtectionTable τ n)
    (shkey : τ) : Option (Fin n) :=
  probeLoop S table shkey (S.hashFunction shkey) n (S.hashFunction shkey)

/-- The slot at which the loop of `write_cxl` stops. -/
def writeLookup (S : TokenScheme τ n) (table : ProtectionTable τ n)
    (shkey : τ) : Option (Fin n) :=
  countedProbeLoop S table shkey (S.hashFunction shkey) n
    (S.hashFunction shkey) 0

/-- The slot at which the loop of `revoke_cxl` stops. -/
def revokeLookup (S : TokenScheme τ n) (table : ProtectionTable τ n)
    (shkey : τ) : Option (Fin n) :=
  countedProbeLoop S table shkey (S.hashFunction shkey) n
    (S.hashFunction shkey) 0

/-! ## The checks behind the lookup -/

omit [NeZero n] in
/-- The four tests on `Hentry` that `read_cxl`, `write_cxl` and `compare_cxl`
make in this order; they differ in the permission bit only. -/
def checkEntry (S : TokenScheme τ n) (entry : HashEntry τ) (bit : BitVec 32)
    (offset size : Nat) (shkey : τ) : Option Denial :=
  if (entry.valid = false ∨ entry.shkey ≠ shkey) ∧ shkey ≠ S.globalKey then
    some .missing
  else if entry.pentry.size = 0 ∧ shkey ≠ S.globalKey then
    some .invalidRegion
  else if (offset < entry.pentry.offset ∨
      wrap (entry.pentry.offset + entry.pentry.size) < wrap (offset + size)) ∧
      shkey ≠ S.globalKey then
    some .outOfBounds
  else if entry.pentry.permission &&& bit = 0 ∧ shkey ≠ S.globalKey then
    some .accessDenied
  else none

omit [DecidableEq τ] [NeZero n] in
/-- The outcome of the tests on slot `i`. -/
def verdict (i : Fin n) : Option Denial → Except Denial (Fin n)
  | some denial => .error denial
  | none => .ok i

omit [NeZero n] in
/-- The tests applied to the slot at which the loop stopped. -/
def checkSlot (S : TokenScheme τ n) (table : ProtectionTable τ n)
    (bit : BitVec 32) (offset size : Nat) (shkey : τ) :
    Option (Fin n) → Except Denial (Fin n)
  | none => .error .missing
  | some hashIndex =>
      verdict hashIndex
        (checkEntry S (table hashIndex) bit offset size shkey)

/-- Everything `read_cxl` does before it copies. -/
def readAccess (S : TokenScheme τ n) (table : ProtectionTable τ n)
    (offset size : Nat) (shkey : τ) : Except Denial (Fin n) :=
  checkSlot S table 1 offset size shkey (readLookup S table shkey)

/-- Everything `compare_cxl` does before it compares. -/
def compareAccess (S : TokenScheme τ n) (table : ProtectionTable τ n)
    (offset size : Nat) (shkey : τ) : Except Denial (Fin n) :=
  checkSlot S table 1 offset size shkey (compareLookup S table shkey)

/-- `get_data_vaddr_by_offset`: `data_addr + offset` in 64-bit pointer
arithmetic. -/
def getDataVaddrByOffset (dataAddr offset : Nat) : Nat :=
  wrap (dataAddr + offset)

omit [DecidableEq τ] [NeZero n] in
/-- The test of the destination pointer that follows in `write_cxl`. -/
def checkAddress (dataAddr offset : Nat) :
    Except Denial (Fin n) → Except Denial (Fin n)
  | .error denial => .error denial
  | .ok hashIndex =>
      if getDataVaddrByOffset dataAddr offset = 0 then .error .nullAddress
      else .ok hashIndex

/-- Everything `write_cxl` does before it copies. -/
def writeAccess (S : TokenScheme τ n) (table : ProtectionTable τ n)
    (dataAddr offset size : Nat) (shkey : τ) : Except Denial (Fin n) :=
  checkAddress dataAddr offset
    (checkSlot S table 2 offset size shkey (writeLookup S table shkey))

/-! ## Revocation -/

omit [DecidableEq τ] [NeZero n] in
/-- `Hentry.valid = false`; the token and the region stay behind. -/
def invalidate (table : ProtectionTable τ n) (i : Fin n) :
    ProtectionTable τ n :=
  Function.update table i { table i with valid := false }

/-- `revoke_cxl`. -/
def revokeCxl (S : TokenScheme τ n) (table : ProtectionTable τ n)
    (shkey : τ) : Int × ProtectionTable τ n :=
  match revokeLookup S table shkey with
  | none => (-1, table)
  | some hashIndex =>
      if ((table hashIndex).valid = false ∨ (table hashIndex).shkey ≠ shkey) ∧
          shkey ≠ S.globalKey then
        (-1, table)
      else (0, invalidate table hashIndex)

omit [DecidableEq τ] [NeZero n] in
/-- `clear_protection_table`. -/
def clearProtectionTable (S : TokenScheme τ n)
    (table : ProtectionTable τ n) : ProtectionTable τ n :=
  fun i => S.clearSlot (table i)

end Operations

end SHMemora.Ports
