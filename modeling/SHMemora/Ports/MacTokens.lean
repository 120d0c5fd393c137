import SHMemora.Verified.XorMultiplyHash
import SHMemora.Ports.TokenSchemes

/-!
# What is left of a MAC token

With `use_mac`, `generate_shkey` of `gshmp.cpp` packs a 32-bit id and its MAC
into 64 bits and then converts to `shkey_t`, which has 16.  What is left are
the 16 low bits of the MAC, and these are a byte hash of the id with a state of
16 bits (`toBitVec_macToken`).

Three bytes lead such a hash to every state (`reaches_three`), so that every
id shares its token with another one, on the same side of `RAND_MAX`
(`exists_same_token`).  No token tells its id, its MAC, or whether the MAC is
the right one.
-/

namespace SHMemora.Ports

open SHMemora.Verified.XorMultiplyHash

/-! ## `simple_hash32` as a byte hash -/

/-- The bytes of a word, in the order in which `simple_hash32` takes them. -/
def bytesOf (data : UInt32) : List (BitVec 8) :=
  [data.toBitVec.extractLsb' 0 8, data.toBitVec.extractLsb' 8 8,
    data.toBitVec.extractLsb' 16 8, data.toBitVec.extractLsb' 24 8]

/-- The byte that a round of `simple_hash32` takes from the word. -/
theorem toBitVec_byte (data : UInt32) {k : Nat} (hk : k < 32) :
    ((data >>> UInt32.ofNat k) &&& 0xFF).toBitVec =
      (data.toBitVec.extractLsb' k 8).setWidth 32 := by
  have hmask : ∀ i (hi : i < 32), (255#32)[i] = decide (i < 8) := by decide
  have hshift : k % 32 = k := Nat.mod_eq_of_lt hk
  apply BitVec.eq_of_getLsbD_eq
  intro i hi
  simp only [UInt32.toBitVec_and, UInt32.toBitVec_shiftRight]
  by_cases h : i < 8 <;> simp [hmask, hi, hshift, h]

theorem simpleHash32_eq (data : UInt32) :
    (simpleHash32 data).toBitVec =
      absorbAll 16777619#32 2166136261#32 (bytesOf data) := by
  have h0 := toBitVec_byte data (show 0 < 32 by decide)
  have h1 := toBitVec_byte data (show 8 < 32 by decide)
  have h2 := toBitVec_byte data (show 16 < 32 by decide)
  have h3 := toBitVec_byte data (show 24 < 32 by decide)
  simp only [simpleHash32, List.range, List.range.loop, List.foldl,
    UInt32.toBitVec_mul, UInt32.toBitVec_xor, Nat.zero_mul, Nat.one_mul,
    Nat.reduceMul, h0, h1, h2, h3]
  rfl

/-! ## The token -/

/-- The MAC of a token id. -/
def macOf (id : UInt32) : UInt32 := simpleHash32 (id ^^^ shkeySecretKey)

/-- An id and a MAC packed into 64 bits and converted to `shkey_t`. -/
def packed (id hmac : UInt32) : UInt16 :=
  ((id.toUInt64 <<< 32) ||| hmac.toUInt64).toUInt16

/-- The token that `generate_shkey` returns with `use_mac` when `rand()`
yields the id. -/
def macToken (id : UInt32) : UInt16 :=
  (generateShkey true fun _ => id.toNat).1

theorem macToken_eq (id : UInt32) : macToken id = packed id (macOf id) := by
  simp [macToken, generateShkey, packed, macOf]

/-- The conversion to `shkey_t` keeps the low bits of the MAC and nothing of
the id. -/
theorem toBitVec_packed (id hmac : UInt32) :
    (packed id hmac).toBitVec = hmac.toBitVec.setWidth 16 := by
  apply BitVec.eq_of_getLsbD_eq
  intro i hi
  have hlow : i < 32 := by omega
  simp [packed, hi, hlow]

theorem packed_eq_iff (id id' hmac hmac' : UInt32) :
    packed id hmac = packed id' hmac' ↔
      hmac.toBitVec.setWidth 16 = hmac'.toBitVec.setWidth 16 := by
  rw [← UInt16.toBitVec_inj, toBitVec_packed, toBitVec_packed]

/-- **A token is a byte hash with 16 bits of state.** -/
theorem toBitVec_macToken (id : UInt32) :
    (macToken id).toBitVec =
      absorbAll 403#16 40389#16 (bytesOf (id ^^^ shkeySecretKey)) := by
  rw [macToken_eq, toBitVec_packed, macOf, simpleHash32_eq,
    setWidth_absorbAll (by decide)]
  rfl

/-! ## Collisions -/

/-- The upper halves of the states that two bytes lead to are all there are. -/
theorem upper_halves :
    ((List.range 256).all fun x => (List.range 4).any fun a =>
      (List.range 256).any fun b =>
        (((40389 ^^^ a) * 403 % 65536) ^^^ b) * 403 % 65536 / 256 == x) =
      true := by
  decide +kernel

theorem toNat_absorb (h : BitVec 16) {b : Nat} (hb : b < 256) :
    (absorb 403#16 h (BitVec.ofNat 8 b)).toNat =
      (h.toNat ^^^ b) * 403 % 65536 := by
  have hbyte : b % 256 % 65536 = b := by omega
  simp only [absorb, BitVec.toNat_mul, BitVec.toNat_xor, BitVec.toNat_setWidth,
    BitVec.toNat_ofNat, Nat.reducePow, Nat.reduceMod, hbyte]

theorem toNat_absorbAll_pair {a b : Nat} (ha : a < 256) (hb : b < 256) :
    (absorbAll 403#16 40389#16 [BitVec.ofNat 8 a, BitVec.ofNat 8 b]).toNat =
      (((40389 ^^^ a) * 403 % 65536) ^^^ b) * 403 % 65536 := by
  show (absorb 403#16 (absorb 403#16 40389#16 (BitVec.ofNat 8 a))
    (BitVec.ofNat 8 b)).toNat = _
  rw [toNat_absorb _ hb, toNat_absorb _ ha]
  rfl

theorem reaches_three : Reaches 403#16 40389#16 3 := by
  have hinv : 17563#16 * 403#16 = 1#16 := by decide
  refine reaches_succ hinv fun s => ?_
  have hx : s.toNat / 256 ∈ List.range 256 := by
    have := s.isLt
    rw [List.mem_range]
    omega
  have hupper := List.all_eq_true.mp upper_halves _ hx
  obtain ⟨a, ha, hupper⟩ := List.any_eq_true.mp hupper
  obtain ⟨b, hb, hupper⟩ := List.any_eq_true.mp hupper
  rw [List.mem_range] at ha hb
  rw [beq_iff_eq] at hupper
  refine ⟨[BitVec.ofNat 8 a, BitVec.ofNat 8 b], rfl, ?_⟩
  apply BitVec.eq_of_toNat_eq
  rw [BitVec.toNat_ushiftRight, BitVec.toNat_ushiftRight,
    Nat.shiftRight_eq_div_pow, Nat.shiftRight_eq_div_pow,
    toNat_absorbAll_pair (by omega) hb]
  exact hupper

/-- The word with these bytes. -/
def ofBytes (b₀ b₁ b₂ b₃ : BitVec 8) : UInt32 :=
  UInt32.ofNat (b₀.toNat + 2 ^ 8 * b₁.toNat + 2 ^ 16 * b₂.toNat +
    2 ^ 24 * b₃.toNat)

section Word

variable (b₀ b₁ b₂ b₃ : BitVec 8)

theorem toNat_ofBytes :
    (ofBytes b₀ b₁ b₂ b₃).toNat = b₀.toNat + 2 ^ 8 * b₁.toNat +
      2 ^ 16 * b₂.toNat + 2 ^ 24 * b₃.toNat := by
  have h₀ := b₀.isLt
  have h₁ := b₁.isLt
  have h₂ := b₂.isLt
  have h₃ := b₃.isLt
  rw [ofBytes, UInt32.toNat_ofNat']
  omega

theorem toNat_byte (data : UInt32) (k : Nat) :
    (data.toBitVec.extractLsb' k 8).toNat = data.toNat / 2 ^ k % 2 ^ 8 := by
  rw [BitVec.extractLsb'_toNat, Nat.shiftRight_eq_div_pow,
    UInt32.toNat_toBitVec]

theorem bytesOf_ofBytes : bytesOf (ofBytes b₀ b₁ b₂ b₃) = [b₀, b₁, b₂, b₃] := by
  have hword := toNat_ofBytes b₀ b₁ b₂ b₃
  have h₀ := b₀.isLt
  have h₁ := b₁.isLt
  have h₂ := b₂.isLt
  have h₃ := b₃.isLt
  simp only [bytesOf, List.cons.injEq, ← BitVec.toNat_inj, toNat_byte, hword,
    and_true]
  omega

/-- The top bit of a word is the top bit of its last byte. -/
theorem ofBytes_lt_iff :
    (ofBytes b₀ b₁ b₂ b₃).toNat < 2 ^ 31 ↔ b₃.toNat < 2 ^ 7 := by
  have h₀ := b₀.isLt
  have h₁ := b₁.isLt
  have h₂ := b₂.isLt
  rw [toNat_ofBytes]
  omega

end Word

/-- A word is given by its bytes. -/
theorem ofBytes_bytesOf (data : UInt32) :
    ∃ b₀ b₁ b₂ b₃, bytesOf data = [b₀, b₁, b₂, b₃] ∧
      data = ofBytes b₀ b₁ b₂ b₃ := by
  refine ⟨_, _, _, _, rfl, ?_⟩
  rw [← UInt32.toNat_inj, toNat_ofBytes]
  have hlt := data.toNat_lt
  simp only [toNat_byte]
  omega

/-- The secret key has its top bit set, so that it turns the top bit of an id
around. -/
theorem xor_secretKey_lt_iff (data : UInt32) :
    (data ^^^ shkeySecretKey).toNat < 2 ^ 31 ↔ ¬ data.toNat < 2 ^ 31 := by
  have hbit : ∀ x : UInt32, x.toNat < 2 ^ 31 ↔ x.toBitVec.msb = false := by
    intro x
    rw [BitVec.msb_eq_decide]
    simp
  rw [hbit, hbit, UInt32.toBitVec_xor, BitVec.msb_xor,
    show shkeySecretKey.toBitVec.msb = true by decide]
  simp

/-- **Every id shares its token with another one** on the same side of
`RAND_MAX`. -/
theorem exists_same_token (id : UInt32) :
    ∃ id', id' ≠ id ∧ (id'.toNat < 2 ^ 31 ↔ id.toNat < 2 ^ 31) ∧
      macToken id' = macToken id := by
  obtain ⟨b₀, b₁, b₂, b₃, hbytes, hdata⟩ :=
    ofBytes_bytesOf (id ^^^ shkeySecretKey)
  obtain ⟨bs, hlength, hsame⟩ :=
    exists_other_word reaches_three [b₀, b₁, b₂] b₃ 1#8
  obtain ⟨c₀, c₁, c₂, rfl⟩ := List.length_eq_three.mp hlength
  have hkey : ∀ x : UInt32, x ^^^ shkeySecretKey ^^^ shkeySecretKey = x := by
    intro x
    rw [UInt32.xor_assoc, UInt32.xor_self, UInt32.xor_zero]
  refine ⟨ofBytes c₀ c₁ c₂ (b₃ ^^^ 1#8) ^^^ shkeySecretKey, ?_, ?_, ?_⟩
  · -- the last bytes differ
    intro heq
    have hword : bytesOf (ofBytes c₀ c₁ c₂ (b₃ ^^^ 1#8)) =
        bytesOf (id ^^^ shkeySecretKey) := by
      rw [← heq, hkey]
    rw [bytesOf_ofBytes, hbytes] at hword
    have hne : ∀ b : BitVec 8, b ^^^ 1#8 ≠ b := by decide
    simp only [List.cons.injEq, and_true] at hword
    exact hne b₃ hword.2.2.2
  · rw [xor_secretKey_lt_iff, ofBytes_lt_iff]
    have hid := xor_secretKey_lt_iff (id ^^^ shkeySecretKey)
    rw [hkey, hdata, ofBytes_lt_iff] at hid
    rw [hid]
    have htop : ∀ b : BitVec 8,
        (b ^^^ 1#8).toNat < 2 ^ 7 ↔ b.toNat < 2 ^ 7 := by
      decide
    rw [htop]
  · rw [← UInt16.toBitVec_inj, toBitVec_macToken, toBitVec_macToken, hkey,
      bytesOf_ofBytes, hbytes]
    exact hsame

/-! ## What a token would have to tell -/

section Identity

/-- No other id has the same token. -/
def Distinct (limit : Nat) (id : UInt32) : Prop :=
  ∀ id', id'.toNat < limit → id' ≠ id → macToken id' ≠ macToken id

/-- The id and its MAC can be read off the token. -/
def Recoverable (limit : Nat) (id : UInt32) : Prop :=
  ∃ recover : UInt16 → UInt32 × UInt32, ∀ id', id'.toNat < limit →
    macToken id' = macToken id → recover (macToken id') = (id', macOf id')

/-- The id with a wrong MAC is the token of no id. -/
def TellsWrongMac (limit : Nat) (id : UInt32) : Prop :=
  ∀ hmac, hmac ≠ macOf id → ∀ id', id'.toNat < limit →
    packed id hmac ≠ macToken id'

/-- The token of the id keeps its identity, among the ids below `limit`. -/
structure KeepsIdentity (limit : Nat) (id : UInt32) : Prop where
  distinct : Distinct limit id
  recoverable : Recoverable limit id
  tellsWrongMac : TellsWrongMac limit id

/-- A MAC with another upper half makes the same token. -/
theorem not_tellsWrongMac {limit : Nat} {id : UInt32} (hid : id.toNat < limit) :
    ¬ TellsWrongMac limit id := by
  intro htells
  have hne : macOf id ^^^ 0x10000 ≠ macOf id := by
    intro heq
    have hzero := congrArg (fun x => macOf id ^^^ x) heq
    simp only [← UInt32.xor_assoc, UInt32.xor_self, UInt32.zero_xor] at hzero
    cases hzero
  refine htells (macOf id ^^^ 0x10000) hne id hid ?_
  rw [macToken_eq, packed_eq_iff, UInt32.toBitVec_xor, BitVec.setWidth_xor,
    show (0x10000 : UInt32).toBitVec.setWidth 16 = 0#16 by decide,
    BitVec.xor_zero]

/-- **No token of `gshmp.cpp` keeps its identity**, neither among the ids that
`rand()` yields nor among all 32-bit ids: for every id there is another one with
the same token, so that neither can be recovered, and a wrong MAC that goes
unnoticed. -/
theorem not_keepsIdentity (limit : Nat)
    (hlimit : limit = 2 ^ 31 ∨ limit = 2 ^ 32) (id : UInt32)
    (hid : id.toNat < limit) :
    ¬ Distinct limit id ∧ ¬ Recoverable limit id ∧ ¬ TellsWrongMac limit id ∧
      ¬ KeepsIdentity limit id := by
  obtain ⟨id', hne, hside, htoken⟩ := exists_same_token id
  have hid' : id'.toNat < limit := by
    rcases hlimit with rfl | rfl
    · exact hside.mpr hid
    · exact id'.toNat_lt
  have hdistinct : ¬ Distinct limit id :=
    fun hdistinct => hdistinct id' hid' hne htoken
  refine ⟨hdistinct, ?_, not_tellsWrongMac hid, fun h => hdistinct h.distinct⟩
  rintro ⟨recover, hrecover⟩
  have hown := hrecover id hid rfl
  have hother := hrecover id' hid' htoken
  rw [htoken, hown] at hother
  exact hne (congrArg Prod.fst hother).symm

/-- The ids `27043` and `32768` have the same token. -/
theorem not_keepsIdentity_27043 :
    macToken 27043 = macToken 32768 ∧ macOf 27043 ≠ macOf 32768 ∧
      ¬ KeepsIdentity (2 ^ 31) 27043 := by
  refine ⟨by decide, by decide, fun h => ?_⟩
  exact h.distinct 32768 (by decide) (by decide) (by decide)

/-- The id `0` among all 32-bit ids. -/
theorem not_keepsIdentity_zero :
    ¬ Distinct (2 ^ 32) 0 ∧ ¬ Recoverable (2 ^ 32) 0 ∧
      ¬ TellsWrongMac (2 ^ 32) 0 ∧ ¬ KeepsIdentity (2 ^ 32) 0 :=
  not_keepsIdentity (2 ^ 32) (.inr rfl) 0 (by decide)

end Identity

end SHMemora.Ports
