import Mathlib.Data.List.Basic

/-!
# Byte hashes that exclusive-or and multiply

A hash of a word of bytes keeps a state of `w` bits.  For each byte it takes
the exclusive or of the state and the byte, and multiplies by a constant.

Two facts make the hash weak where only a few of its bits are used.  The low
bits depend on the low bits of the state alone (`setWidth_absorbAll`), so that a
truncated hash is the same hash with a small state.  And a difference between
two states cancels with the same difference of the next bytes (`absorb_xor`):
as soon as the words of some length reach every state, every longer word
shares its hash with another one (`exists_other_word`).
-/

namespace SHMemora.Verified.XorMultiplyHash

variable {w : Nat}

/-- The state behind one more byte. -/
def absorb (m h : BitVec w) (b : BitVec 8) : BitVec w :=
  (h ^^^ b.setWidth w) * m

/-- The state behind a word. -/
def absorbAll (m h : BitVec w) (bs : List (BitVec 8)) : BitVec w :=
  bs.foldl (absorb m) h

theorem absorbAll_append_singleton (m h : BitVec w) (bs : List (BitVec 8))
    (b : BitVec 8) :
    absorbAll m h (bs ++ [b]) = absorb m (absorbAll m h bs) b := by
  simp [absorbAll]

/-! ## Truncation -/

theorem setWidth_absorb {v : Nat} (hv : v ≤ w) (m h : BitVec w)
    (b : BitVec 8) :
    (absorb m h b).setWidth v = absorb (m.setWidth v) (h.setWidth v) b := by
  rw [absorb, absorb, BitVec.setWidth_mul _ _ hv, BitVec.setWidth_xor,
    BitVec.setWidth_setWidth_of_le _ hv]

/-- **The low bits of a hash are a hash**, with the low bits of the
constants. -/
theorem setWidth_absorbAll {v : Nat} (hv : v ≤ w) (m h : BitVec w)
    (bs : List (BitVec 8)) :
    (absorbAll m h bs).setWidth v =
      absorbAll (m.setWidth v) (h.setWidth v) bs := by
  induction bs generalizing h with
  | nil => rfl
  | cons b bs ih =>
      show (absorbAll m (absorb m h b) bs).setWidth v =
        absorbAll (m.setWidth v) (absorb (m.setWidth v) (h.setWidth v) b) bs
      rw [ih, setWidth_absorb hv]

/-! ## Collisions -/

/-- A difference between two states cancels with the same difference of the
next bytes. -/
theorem absorb_xor (m h : BitVec w) (b x : BitVec 8) :
    absorb m (h ^^^ x.setWidth w) (b ^^^ x) = absorb m h b := by
  have hcancel : h ^^^ x.setWidth w ^^^ (b ^^^ x).setWidth w =
      h ^^^ b.setWidth w := by
    rw [BitVec.setWidth_xor, BitVec.xor_comm (b.setWidth w),
      BitVec.xor_assoc, ← BitVec.xor_assoc (x.setWidth w), BitVec.xor_self,
      BitVec.zero_xor]
  rw [absorb, absorb, hcancel]

/-- Words of this length lead to every state. -/
def Reaches (m h : BitVec w) (k : Nat) : Prop :=
  ∀ s, ∃ bs : List (BitVec 8), bs.length = k ∧ absorbAll m h bs = s

/-- **Second preimages**: a word with a byte behind `k` others has the hash of
another word, whose last byte differs in any way one likes. -/
theorem exists_other_word {m h : BitVec w} {k : Nat} (hreach : Reaches m h k)
    (bs : List (BitVec 8)) (b x : BitVec 8) :
    ∃ bs' : List (BitVec 8), bs'.length = k ∧
      absorbAll m h (bs' ++ [b ^^^ x]) = absorbAll m h (bs ++ [b]) := by
  obtain ⟨bs', hlength, hstate⟩ := hreach (absorbAll m h bs ^^^ x.setWidth w)
  refine ⟨bs', hlength, ?_⟩
  rw [absorbAll_append_singleton, absorbAll_append_singleton, hstate,
    absorb_xor]

/-- A byte takes a state to every other one with the same bits above it, up to
the multiplication. -/
theorem exists_absorb {m i : BitVec w} (hinv : i * m = 1#w) {h s : BitVec w}
    (hhigh : h >>> 8 = (s * i) >>> 8) : ∃ b, absorb m h b = s := by
  refine ⟨(h ^^^ s * i).setWidth 8, ?_⟩
  have hbyte : ((h ^^^ s * i).setWidth 8).setWidth w = h ^^^ s * i := by
    apply BitVec.eq_of_getLsbD_eq
    intro j hj
    by_cases hlow : j < 8
    · simp [hlow, hj]
    · have hbit := congrArg (fun z : BitVec w => z.getLsbD (j - 8)) hhigh
      simp only [BitVec.getLsbD_ushiftRight,
        show 8 + (j - 8) = j by omega, BitVec.getLsbD_eq_getElem hj] at hbit
      simp [hlow, hj, hbit]
  have hcancel : h ^^^ (h ^^^ s * i) = s * i := by
    rw [← BitVec.xor_assoc, BitVec.xor_self, BitVec.zero_xor]
  rw [absorb, hbyte, hcancel, BitVec.mul_assoc, hinv, BitVec.mul_one]

/-- Words that reach all bits above the last byte reach, with one more byte,
every state. -/
theorem reaches_succ {m h i : BitVec w} {k : Nat} (hinv : i * m = 1#w)
    (hhigh : ∀ s : BitVec w, ∃ bs : List (BitVec 8), bs.length = k ∧
      absorbAll m h bs >>> 8 = s >>> 8) : Reaches m h (k + 1) := by
  intro s
  obtain ⟨bs, hlength, hstate⟩ := hhigh (s * i)
  obtain ⟨b, hb⟩ := exists_absorb hinv hstate
  refine ⟨bs ++ [b], by simp [hlength], ?_⟩
  rw [absorbAll_append_singleton, hb]

end SHMemora.Verified.XorMultiplyHash
