import Mathlib.Algebra.Group.Nat.Defs
import Mathlib.Logic.Function.Basic

/-!
# Flat byte memory behind 64-bit addresses

A memory is a function from addresses to bytes; address arithmetic is taken
modulo `2 ^ 64`.  `store` and `fetch` are the byte-by-byte copy loops
`dest[i] = src[i]` into and out of a memory, `ofWord` and `word` the
little-endian view of eight bytes as a 64-bit word.

Everything a proof needs about the loops is a frame statement: `store_apply`
says what every byte holds after a copy that does not run over the end of the
address space, and `Agree` says that two memories hold the same bytes in a
range, which is what a load from that range depends on.
-/

namespace SHMemora.Verified.ByteMemory

/-! ## Address arithmetic -/

/-- Reduction of an unsigned 64-bit sum. -/
def wrap (x : Nat) : Nat := x % 2 ^ 64

theorem wrap_lt (x : Nat) : wrap x < 2 ^ 64 := Nat.mod_lt x (by decide)

theorem wrap_of_lt {x : Nat} (h : x < 2 ^ 64) : wrap x = x :=
  Nat.mod_eq_of_lt h

/-! ## Copy loops -/

/-- The contents of a memory or of a buffer. -/
abbrev Bytes := Nat → UInt8

/-- `for (i = 0; i < size; ++i) m[off + i] = src[i]`, after `size` rounds. -/
def store (m : Bytes) (off : Nat) (src : Bytes) : Nat → Bytes
  | 0 => m
  | i + 1 => Function.update (store m off src i) (wrap (off + i)) (src i)

/-- `for (i = 0; i < size; ++i) dest[i] = m[off + i]`, after `size` rounds. -/
def fetch (m : Bytes) (off : Nat) (dest : Bytes) : Nat → Bytes
  | 0 => dest
  | i + 1 => Function.update (fetch m off dest i) i (m (wrap (off + i)))

theorem store_apply {m src : Bytes} {off size : Nat}
    (h : off + size ≤ 2 ^ 64) (x : Nat) :
    store m off src size x =
      if off ≤ x ∧ x < off + size then src (x - off) else m x := by
  induction size with
  | zero =>
      rw [if_neg (by omega)]
      rfl
  | succ i ih =>
      have hi := ih (by omega)
      rw [store, wrap_of_lt (by omega)]
      by_cases hx : x = off + i
      · subst hx
        rw [Function.update_self, if_pos (by omega), Nat.add_sub_cancel_left]
      · rw [Function.update_of_ne hx, hi]
        by_cases hin : off ≤ x ∧ x < off + i
        · rw [if_pos hin, if_pos (by omega)]
        · rw [if_neg hin, if_neg (by omega)]

theorem fetch_apply {m dest : Bytes} {off size : Nat} (i : Nat) :
    fetch m off dest size i =
      if i < size then m (wrap (off + i)) else dest i := by
  induction size with
  | zero => rfl
  | succ k ih =>
      rw [fetch]
      by_cases hik : i = k
      · subst hik
        rw [Function.update_self, if_pos (by omega)]
      · rw [Function.update_of_ne hik, ih]
        by_cases hlt : i < k
        · rw [if_pos hlt, if_pos (by omega)]
        · rw [if_neg hlt, if_neg (by omega)]

/-! ## Ranges -/

/-- The ranges `[a, a + k)` and `[b, b + n)` have no address in common. -/
def Apart (a k b n : Nat) : Prop := a + k ≤ b ∨ b + n ≤ a

theorem Apart.symm {a k b n : Nat} (h : Apart a k b n) : Apart b n a k :=
  Or.symm h

/-- Both memories hold the same bytes in `[a, a + k)`. -/
def Agree (m m' : Bytes) (a k : Nat) : Prop :=
  ∀ x, a ≤ x → x < a + k → m' x = m x

theorem Agree.refl (m : Bytes) (a k : Nat) : Agree m m a k :=
  fun _ _ _ => rfl

theorem Agree.trans {m₁ m₂ m₃ : Bytes} {a k : Nat}
    (h : Agree m₁ m₂ a k) (h' : Agree m₂ m₃ a k) : Agree m₁ m₃ a k :=
  fun x hlo hhi => (h' x hlo hhi).trans (h x hlo hhi)

theorem Agree.mono {m m' : Bytes} {a k b n : Nat} (h : Agree m m' a k)
    (hlo : a ≤ b) (hhi : b + n ≤ a + k) : Agree m m' b n :=
  fun x hx hx' => h x (by omega) (by omega)

theorem agree_store {m src : Bytes} {off size a k : Nat}
    (h : off + size ≤ 2 ^ 64) (hapart : Apart a k off size) :
    Agree m (store m off src size) a k := by
  intro x hlo hhi
  rw [store_apply h, if_neg]
  rcases hapart with hbelow | habove <;> omega

/-! ## Words -/

/-- The eight bytes of a 64-bit word, least significant byte first. -/
def ofWord (w : Nat) : Bytes := fun i => UInt8.ofNat (w / 2 ^ (8 * i))

/-- The 64-bit word in the first eight bytes of a buffer. -/
def word (b : Bytes) : Nat :=
  (b 0).toNat + 2 ^ 8 * (b 1).toNat + 2 ^ 16 * (b 2).toNat +
    2 ^ 24 * (b 3).toNat + 2 ^ 32 * (b 4).toNat + 2 ^ 40 * (b 5).toNat +
    2 ^ 48 * (b 6).toNat + 2 ^ 56 * (b 7).toNat

/-- The 64-bit word at address `off`. -/
def loadWord (m : Bytes) (off : Nat) : Nat :=
  word fun i => m (wrap (off + i))

theorem word_lt (b : Bytes) : word b < 2 ^ 64 := by
  have h0 := (b 0).toNat_lt
  have h1 := (b 1).toNat_lt
  have h2 := (b 2).toNat_lt
  have h3 := (b 3).toNat_lt
  have h4 := (b 4).toNat_lt
  have h5 := (b 5).toNat_lt
  have h6 := (b 6).toNat_lt
  have h7 := (b 7).toNat_lt
  unfold word
  omega

theorem word_congr {b c : Bytes} (h : ∀ i, i < 8 → b i = c i) :
    word b = word c := by
  unfold word
  rw [h 0 (by decide), h 1 (by decide), h 2 (by decide), h 3 (by decide),
    h 4 (by decide), h 5 (by decide), h 6 (by decide), h 7 (by decide)]

@[simp] theorem word_ofWord (w : Nat) : word (ofWord w) = wrap w := by
  simp only [word, ofWord, UInt8.toNat_ofNat', wrap]
  omega

theorem loadWord_lt (m : Bytes) (off : Nat) : loadWord m off < 2 ^ 64 :=
  word_lt _

/-- A word read by a copy loop into an eight-byte buffer. -/
@[simp] theorem word_fetch (m dest : Bytes) (off : Nat) :
    word (fetch m off dest 8) = loadWord m off :=
  word_congr fun i hi => by rw [fetch_apply, if_pos hi]

theorem loadWord_congr {m m' : Bytes} {off : Nat} (hoff : off + 8 ≤ 2 ^ 64)
    (h : Agree m m' off 8) : loadWord m' off = loadWord m off := by
  apply word_congr
  intro i hi
  rw [wrap_of_lt (by omega)]
  exact h _ (by omega) (by omega)

/-- A word stored by a copy loop is read back. -/
theorem loadWord_store_self {m : Bytes} {off w : Nat}
    (hoff : off + 8 ≤ 2 ^ 64) (hw : w < 2 ^ 64) :
    loadWord (store m off (ofWord w) 8) off = w := by
  calc loadWord (store m off (ofWord w) 8) off
      = word (ofWord w) := by
        apply word_congr
        intro i hi
        rw [wrap_of_lt (by omega), store_apply hoff, if_pos (by omega),
          Nat.add_sub_cancel_left]
    _ = w := by rw [word_ofWord, wrap_of_lt hw]

end SHMemora.Verified.ByteMemory
