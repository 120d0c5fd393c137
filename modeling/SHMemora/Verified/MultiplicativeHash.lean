import Mathlib.Tactic.Linarith
import Mathlib.Tactic.Ring

/-!
# Multiplicative hashing without collisions

A multiplicative hash maps `k` to the upper bits of `k * M` modulo `W`.  How
close two hashes can come is a question about the linear form `d * M - p * W`
for small `d`, and two consecutive convergents `p₁ / q₁`, `p₂ / q₂` of `M / W`
answer it: no `d` below `q₂` does better than `q₁` (`gap_of_convergents`).

`div_injective` turns this into a statement about the hash: two keys below
`q₂` never share a cell of width at most the error of the first convergent.
Only the two convergents are computed with, never the keys.
-/

namespace SHMemora.Verified.MultiplicativeHash

/-- Between two consecutive convergents the linear form stays away from zero.
The pair `(d, p)` is an integer combination of the two convergents; since the
errors have opposite signs, the two terms of the form cannot cancel. -/
theorem gap_of_convergents {M W q₁ p₁ q₂ p₂ d p : Int}
    (hdet : p₁ * q₂ - p₂ * q₁ = 1)
    (h₁ : 0 ≤ p₁ * W - q₁ * M) (h₂ : 0 ≤ q₂ * M - p₂ * W)
    (hq₁ : 0 < q₁) (hpos : 0 < d) (hlt : d < q₂) :
    d * M - p * W ≤ -(p₁ * W - q₁ * M) ∨ p₁ * W - q₁ * M ≤ d * M - p * W := by
  obtain ⟨x, hx⟩ : ∃ x, x = p * q₂ - d * p₂ := ⟨_, rfl⟩
  obtain ⟨y, hy⟩ : ∃ y, y = d * p₁ - p * q₁ := ⟨_, rfl⟩
  have hd : d = x * q₁ + y * q₂ := by
    calc d = d * (p₁ * q₂ - p₂ * q₁) := by rw [hdet, mul_one]
      _ = x * q₁ + y * q₂ := by rw [hx, hy]; ring
  have hp : p = x * p₁ + y * p₂ := by
    calc p = p * (p₁ * q₂ - p₂ * q₁) := by rw [hdet, mul_one]
      _ = x * p₁ + y * p₂ := by rw [hx, hy]; ring
  have hform : d * M - p * W =
      y * (q₂ * M - p₂ * W) - x * (p₁ * W - q₁ * M) := by
    rw [hd, hp]; ring
  have hq₂ : 0 < q₂ := by omega
  rw [hform]
  rcases lt_trichotomy y 0 with hneg | hzero | hypos
  · have hxpos : 0 < x := by nlinarith
    left; nlinarith
  · have hxpos : 0 < x := by
      rw [hzero, zero_mul, add_zero] at hd
      nlinarith
    left; rw [hzero]; nlinarith
  · have hxneg : x < 0 := by nlinarith
    right; nlinarith

/-- Keys below `q₂` fall into different cells of width `g`. -/
theorem div_injective {M W g q₁ p₁ q₂ p₂ a b : Nat} (hg : 0 < g)
    (hdet : (p₁ : Int) * q₂ - p₂ * q₁ = 1)
    (h₁ : (g : Int) ≤ p₁ * W - q₁ * M) (h₂ : (0 : Int) ≤ q₂ * M - p₂ * W)
    (hq₁ : 0 < q₁) (ha : a < q₂) (hb : b < q₂)
    (hcell : a * M % W / g = b * M % W / g) : a = b := by
  wlog hab : a < b generalizing a b
  · by_cases hba : b < a
    · exact (this hb ha hcell.symm hba).symm
    · omega
  -- the remainders differ by less than a cell
  have hamod := Nat.div_add_mod (a * M) W
  have hbmod := Nat.div_add_mod (b * M) W
  have hacell := Nat.div_add_mod (a * M % W) g
  have hbcell := Nat.div_add_mod (b * M % W) g
  have halt := Nat.mod_lt (a * M % W) hg
  have hblt := Nat.mod_lt (b * M % W) hg
  rw [hcell] at hacell
  have hclose : ((b * M % W : Nat) : Int) - (a * M % W : Nat) < g ∧
      -(g : Int) < ((b * M % W : Nat) : Int) - (a * M % W : Nat) := by
    constructor <;> omega
  have hform : ((b : Int) - a) * M - ((b * M / W : Nat) - (a * M / W : Nat)) * W
      = (b * M % W : Nat) - (a * M % W : Nat) := by
    have hamodI : (W : Int) * (a * M / W : Nat) + (a * M % W : Nat) =
        a * M := by
      exact_mod_cast hamod
    have hbmodI : (W : Int) * (b * M / W : Nat) + (b * M % W : Nat) =
        b * M := by
      exact_mod_cast hbmod
    linarith
  have hgap := gap_of_convergents (d := (b : Int) - a)
    (p := (b * M / W : Nat) - (a * M / W : Nat)) hdet (by omega) h₂
    (by omega) (by omega) (by omega)
  rw [hform] at hgap
  omega

end SHMemora.Verified.MultiplicativeHash
