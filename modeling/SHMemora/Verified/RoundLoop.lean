import SHMemora.Verified.OrbitSearch

/-!
# Loops, round by round

A `while` loop is a function from its state: a round either hands on the next
state or leaves the loop with a result.  `Ends round s k r` says that the loop
entered in `s` leaves with `r` in its round number `k`.  There is no fuel in
it, and a loop that never leaves ends with nothing.

The second part is about the loops that go once around `Fin n`.  Their states
may carry a counter, or more; `Turns` says what such a loop does in front of
each slot, and `Turns.ends` that it then is a circular search: it leaves with
what `circular` finds, after as many rounds as the search makes tests, which
are at most `n`.
-/

namespace SHMemora.Verified.RoundLoop

open SHMemora.Verified.OrbitSearch

section Loop

variable {σ ρ : Type*}

/-- The loop entered in the state leaves in its `k`-th round with the
result. -/
inductive Ends (round : σ → σ ⊕ ρ) : σ → Nat → ρ → Prop
  | leave {s : σ} {r : ρ} (h : round s = .inr r) : Ends round s 1 r
  | again {s s' : σ} {k : Nat} {r : ρ} (h : round s = .inl s')
      (hrest : Ends round s' k r) : Ends round s (k + 1) r

variable {round : σ → σ ⊕ ρ}

/-- A loop ends in one way only. -/
theorem Ends.unique {s : σ} {k l : Nat} {r q : ρ} (h : Ends round s k r)
    (h' : Ends round s l q) : k = l ∧ r = q := by
  induction h generalizing l with
  | leave hleave =>
      cases h' with
      | leave hleave' =>
          rw [hleave] at hleave'
          cases hleave'
          exact ⟨rfl, rfl⟩
      | again hagain _ => simp [hleave] at hagain
  | again hagain _ ih =>
      cases h' with
      | leave hleave => simp [hagain] at hleave
      | again hagain' hrest =>
          rw [hagain] at hagain'
          cases hagain'
          obtain ⟨rfl, rfl⟩ := ih hrest
          exact ⟨rfl, rfl⟩

end Loop

/-! ## Tests made by a search -/

section Tests

variable {α : Type*}

/-- The number of points on which a search evaluates its test. -/
def tests (step : α → α) (stop : α → Bool) : Nat → α → Nat
  | 0, _ => 0
  | fuel + 1, a => if stop a then 1 else tests step stop fuel (step a) + 1

theorem tests_le (step : α → α) (stop : α → Bool) (fuel : Nat) (a : α) :
    tests step stop fuel a ≤ fuel := by
  induction fuel generalizing a with
  | zero => simp [tests]
  | succ fuel ih =>
      rw [tests]
      split
      · omega
      · have := ih (step a)
        omega

end Tests

/-! ## Loops around `Fin n` -/

section Turn

variable {σ ρ : Type*} {n : Nat} [NeZero n]

theorem gap_succ_of_lt {start j : Fin n} (h : gap start j + 1 < n) :
    gap start (j + 1) = gap start j + 1 := by
  have hstep : j + 1 = (· + 1)^[gap start j + 1] start := by
    rw [Function.iterate_succ_apply', iterate_gap]
  rw [hstep, gap_iterate h]

theorem succ_ne_of_gap_lt {start j : Fin n} (h : gap start j + 1 < n) :
    j + 1 ≠ start := by
  intro hback
  have hgap := gap_succ_of_lt h
  rw [hback, gap_self] at hgap
  omega

/-- Behind the last slot of the turn comes the first. -/
theorem succ_eq_of_gap {start j : Fin n} (h : gap start j + 1 = n) :
    j + 1 = start := by
  have hstep : j + 1 = (· + 1)^[gap start j + 1] start := by
    rw [Function.iterate_succ_apply', iterate_gap]
  apply Fin.ext
  rw [hstep, h, val_iterate_succ, Nat.add_mod_right,
    Nat.mod_eq_of_lt start.isLt]

/-- A loop around `Fin n` that starts in front of `start`.  It is in the state
`front j` when it is in front of slot `j`; there it leaves with `found j` if
the slot stops it, and otherwise goes on to the next slot, unless that is the
one it started from. -/
structure Turns (round : σ → σ ⊕ ρ) (stop : Fin n → Bool) (start : Fin n)
    (front : Fin n → σ) (found : Fin n → ρ) (back : ρ) : Prop where
  stopped : ∀ j, stop j = true → round (front j) = .inr (found j)
  passed : ∀ j, stop j = false → gap start j + 1 < n →
    round (front j) = .inl (front (j + 1))
  returned : ∀ j, stop j = false → j + 1 = start → round (front j) = .inr back

namespace Turns

variable {round : σ → σ ⊕ ρ} {stop : Fin n → Bool} {start : Fin n}
  {front : Fin n → σ} {found : Fin n → ρ} {back : ρ}

/-- With `m + 1` slots ahead of it the loop makes the search over them. -/
theorem ends_from (h : Turns round stop start front found back) (m : Nat)
    (j : Fin n) (hm : gap start j + (m + 1) = n) :
    Ends round (front j) (tests (· + 1) stop (m + 1) j)
      ((search (· + 1) stop (m + 1) j).elim back found) := by
  induction m generalizing j with
  | zero =>
      cases hs : stop j with
      | true => simpa [tests, search, hs] using Ends.leave (h.stopped j hs)
      | false =>
          have hleave := h.returned j hs (succ_eq_of_gap hm)
          simpa [tests, search, hs] using Ends.leave hleave
  | succ m ih =>
      rw [tests, search]
      cases hs : stop j with
      | true => simpa using Ends.leave (h.stopped j hs)
      | false =>
          have hlt : gap start j + 1 < n := by omega
          have hgap := gap_succ_of_lt hlt
          have hrest := ih (j + 1) (by omega)
          simpa using Ends.again (h.passed j hs hlt) hrest

/-- **The loop is a circular search** and makes at most `n` rounds
(`tests_le`). -/
theorem ends (h : Turns round stop start front found back) :
    Ends round (front start) (tests (· + 1) stop n start)
      ((circular stop start).elim back found) := by
  have hpos := Nat.pos_of_neZero n
  have hn : n - 1 + 1 = n := by omega
  have hends := h.ends_from (n - 1) start (by rw [gap_self]; omega)
  rw [hn] at hends
  exact hends

end Turns

end Turn

end SHMemora.Verified.RoundLoop
