import Mathlib.Data.UInt
import SHMemora.Ports.ProtectionTable

/-!
# The two token schemes

`gshmp.cpp` uses 16-bit tokens and a multiplicative hash, `gshmp_256.cpp` a
token of a 64-bit id and 32 bytes of MAC hashed with SHA-256.  Everything else
in the two files is the same code over the respective `shkey_t`.

`SHA256` comes from OpenSSL and is a parameter: a function from byte strings
to 32 bytes.  `rand()` is the sequence of its results, so that a statement for
every sequence covers every value the random source may return; its calls
within one `generate_shkey` are numbered in the order of the source text.
-/

namespace SHMemora.Ports

open SHMemora.Verified.ByteMemory

/-! ## Constants of `gshmp.h` and `gshmp_256.h` -/

/-- `KEY_SPACE`. -/
abbrev keySpace : Nat := 2 ^ 20

/-- `HASH_TABLE_SIZE`. -/
abbrev hashTableSize : Nat := 2 ^ 25

instance : NeZero hashTableSize := ⟨by decide⟩

/-- `SHKEY_SECRET_KEY`. -/
def shkeySecretKey : UInt32 := 0xA5B35791

/-! ## `gshmp.cpp` -/

/-- `hash_function`: the upper 20 of 64 bits of a product. -/
def hashFunction (shkey : UInt16) : Fin hashTableSize :=
  ⟨wrap (shkey.toNat * 11400714819323198485) / 2 ^ (64 - 20), by
    have := wrap_lt (shkey.toNat * 11400714819323198485)
    unfold hashTableSize
    omega⟩

/-- `simple_hash32`. -/
def simpleHash32 (data : UInt32) : UInt32 :=
  (List.range 4).foldl
    (fun hash i =>
      (hash ^^^ ((data >>> (UInt32.ofNat (i * 8))) &&& 0xFF)) * 16777619)
    2166136261

/-- `generate_shkey`.  With `use_mac` the id and its MAC are packed into 64
bits; the conversion to `shkey_t` keeps the lowest 16. -/
def generateShkey (useMac : Bool) (rand : Nat → Nat) : UInt16 × Nat :=
  if useMac then
    let tokenId := UInt32.ofNat (rand 0)
    let hmac := simpleHash32 (tokenId ^^^ shkeySecretKey)
    let shkey := (tokenId.toUInt64 <<< 32) ||| hmac.toUInt64
    (shkey.toUInt16, 1)
  else (UInt16.ofNat (rand 0 % keySpace), 1)

/-- A token takes one call of `rand()`. -/
theorem generateShkey_snd (useMac : Bool) (rand : Nat → Nat) :
    (generateShkey useMac rand).2 = 1 := by
  unfold generateShkey
  split <;> rfl

/-- The empty `ProtectionEntry` `{0, 0, 0}`. -/
def noEntry : ProtectionEntry := .of 0 0 0

/-- The tokens of `gshmp.cpp`. -/
def shmpScheme : TokenScheme UInt16 hashTableSize where
  hashFunction := hashFunction
  globalKey := 0
  generateShkey := generateShkey
  clearSlot := fun _ => ⟨0, noEntry, false⟩
  clearSlot_valid := fun _ => rfl
  slotBytes := 40

/-! ## `gshmp_256.cpp` -/

/-- `struct shkey_t` of `gshmp_256.h`. -/
structure Shkey256 where
  tokenId : UInt64
  hmac : Vector UInt8 32
  deriving DecidableEq

/-- The token whose bytes are all zero. -/
def zeroShkey256 : Shkey256 := ⟨0, Vector.replicate 32 0⟩

/-- The first `k` bytes of a little-endian number. -/
def leBytes (k w : Nat) : List UInt8 := (List.range k).map (ofWord w)

section Sha

variable (sha256 : List UInt8 → Vector UInt8 32)

/-- `hash_function`: the first eight bytes of the digest of the token, as a
little-endian number, modulo the table size. -/
def hashFunction256 (shkey : Shkey256) : Fin hashTableSize :=
  let hash := sha256 (leBytes 8 shkey.tokenId.toNat ++ shkey.hmac.toList)
  ⟨word (fun i => hash.toList.getD i 0) % hashTableSize,
    Nat.mod_lt _ (by decide)⟩

/-- `generate_shkey`. -/
def generateShkey256 (useMac : Bool) (rand : Nat → Nat) : Shkey256 × Nat :=
  let tokenId := (UInt64.ofNat (rand 0) <<< 32) ||| UInt64.ofNat (rand 1)
  if useMac then
    (⟨tokenId, sha256 (leBytes 8 tokenId.toNat ++
      leBytes 4 shkeySecretKey.toNat)⟩, 2)
  else
    (⟨tokenId, Vector.ofFn fun i => UInt8.ofNat (rand (2 + i) % 256)⟩, 34)

/-- The tokens of `gshmp_256.cpp`, whose `clear_protection_table` resets the
valid flags only. -/
def shmp256Scheme : TokenScheme Shkey256 hashTableSize where
  hashFunction := hashFunction256 sha256
  globalKey := zeroShkey256
  generateShkey := generateShkey256 sha256
  clearSlot := fun slot => { slot with valid := false }
  clearSlot_valid := fun _ => rfl
  slotBytes := 72

end Sha

/-! ## The mapping -/

/-- `HASH_TABLE_SIZE * sizeof(HashEntry)`: the length of the table, which
`open_cxl_device` puts directly below `data_addr`. -/
def tableBytes {τ : Type} {n : Nat} (S : TokenScheme τ n) : Nat :=
  n * S.slotBytes

/-- A range of the data area that ends below the offsets from
`2 ^ 64 - tableBytes S` on: these lead round into the table. -/
def BelowTable {τ : Type} {n : Nat} (S : TokenScheme τ n)
    (offset size : Nat) : Prop :=
  offset + size ≤ 2 ^ 64 - tableBytes S

instance {τ : Type} {n : Nat} (S : TokenScheme τ n) (offset size : Nat) :
    Decidable (BelowTable S offset size) :=
  inferInstanceAs (Decidable (_ ≤ _))

/-- The table after `memset(protection_table, 0, …)` in `open_cxl_device`;
`global_key` is the token whose bytes are zero in both files. -/
def zeroTable {τ : Type} {n : Nat} (S : TokenScheme τ n) :
    ProtectionTable τ n :=
  fun _ => ⟨S.globalKey, noEntry, false⟩

end SHMemora.Ports
