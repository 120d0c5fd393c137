import Mathlib.Logic.Function.Iterate
import Mathlib.Data.Fintype.Card
import Mathlib.Data.Fintype.Pigeonhole
import Mathlib.Tactic.Ring

/-!
# Searching along an orbit

A `while` loop that applies one function over and over until a test fires
looks for the first point of an orbit.  `search` is that search with an explicit
number of rounds; the circular walk over `Fin n` and the walk along a linked
list are both instances.

## Main results

* `search_eq_some_iff`, `search_eq_none_iff` — the search in terms of iterates.
* `never_of_search_eq_none` — on an orbit that stays in a finite set, as many
  rounds as the set has points decide the search: if none of them stops, the
  unbounded loop does not stop either.
* `circular_eq_some_iff`, `circular_eq_none_iff` — a full turn around `Fin n`,
  stated with the circular distance `gap` and without any iterate.
* `turn_eq_circular` — the loop that stops when it is back where it started
  makes exactly one full turn.
-/

namespace SHMemora.Verified.OrbitSearch

section Search

variable {α : Type*} (step : α → α) (stop : α → Bool)

/-- The first of the points `a, step a, step (step a), …` on which `stop`
fires, among the first `fuel` of them. -/
def search : Nat → α → Option α
  | 0, _ => none
  | fuel + 1, a => if stop a then some a else search fuel (step a)

variable {step stop}

theorem search_succ_of_stop {fuel : Nat} {a : α} (h : stop a = true) :
    search step stop (fuel + 1) a = some a := by
  simp [search, h]

theorem search_succ_of_not_stop {fuel : Nat} {a : α} (h : stop a = false) :
    search step stop (fuel + 1) a = search step stop fuel (step a) := by
  simp [search, h]

theorem search_eq_some_iff {fuel : Nat} {a b : α} :
    search step stop fuel a = some b ↔
      ∃ d, d < fuel ∧ step^[d] a = b ∧ stop b = true ∧
        ∀ e, e < d → stop (step^[e] a) = false := by
  induction fuel generalizing a with
  | zero => simp [search]
  | succ fuel ih =>
      cases hstop : stop a with
      | true =>
          rw [search_succ_of_stop hstop]
          constructor
          · intro h
            cases h
            exact ⟨0, by omega, rfl, hstop, fun e he => absurd he (by omega)⟩
          · intro h
            rcases h with ⟨d, _, hd, _, hbefore⟩
            cases d with
            | zero => exact congrArg some hd
            | succ d =>
                have := hbefore 0 (by omega)
                simp [hstop] at this
      | false =>
          rw [search_succ_of_not_stop hstop, ih]
          constructor
          · intro h
            rcases h with ⟨d, hlt, hd, hb, hbefore⟩
            refine ⟨d + 1, by omega, hd, hb, ?_⟩
            intro e he
            cases e with
            | zero => exact hstop
            | succ e => exact hbefore e (by omega)
          · intro h
            rcases h with ⟨d, hlt, hd, hb, hbefore⟩
            cases d with
            | zero =>
                have hab : a = b := hd
                rw [← hab, hstop] at hb
                cases hb
            | succ d =>
                exact ⟨d, by omega, hd, hb,
                  fun e he => hbefore (e + 1) (by omega)⟩

theorem search_eq_none_iff {fuel : Nat} {a : α} :
    search step stop fuel a = none ↔
      ∀ d, d < fuel → stop (step^[d] a) = false := by
  induction fuel generalizing a with
  | zero => simp [search]
  | succ fuel ih =>
      cases hstop : stop a with
      | true =>
          rw [search_succ_of_stop hstop]
          constructor
          · intro h; cases h
          · intro h
            have := h 0 (by omega)
            simp [hstop] at this
      | false =>
          rw [search_succ_of_not_stop hstop, ih]
          constructor
          · intro h d hd
            cases d with
            | zero => exact hstop
            | succ d => exact h d (by omega)
          · exact fun h d hd => h (d + 1) (by omega)

/-- Two searches from one point that find something find the same. -/
theorem search_eq_of_ne_none {fuel fuel' : Nat} {a b : α}
    (h : search step stop fuel a = some b)
    (h' : search step stop fuel' a ≠ none) :
    search step stop fuel' a = some b := by
  obtain ⟨c, hc⟩ := Option.ne_none_iff_exists'.mp h'
  obtain ⟨d, _, hd, hb, hbefore⟩ := search_eq_some_iff.mp h
  obtain ⟨d', _, hd', hc', hbefore'⟩ := search_eq_some_iff.mp hc
  have hle : ¬ d < d' := by
    intro hlt
    rw [← hd, hbefore' d hlt] at hb
    cases hb
  have hge : ¬ d' < d := by
    intro hlt
    rw [← hd', hbefore d' hlt] at hc'
    cases hc'
  rw [hc, ← hd, ← hd', show d = d' by omega]

/-- A search commutes with a projection that commutes with the step and the
test. -/
theorem search_map {β : Type*} {step' : β → β} {stop' : β → Bool} (f : α → β)
    (hstep : ∀ a, f (step a) = step' (f a))
    (hstop : ∀ a, stop' (f a) = stop a) (fuel : Nat) (a : α) :
    (search step stop fuel a).map f = search step' stop' fuel (f a) := by
  induction fuel generalizing a with
  | zero => rfl
  | succ fuel ih =>
      cases hs : stop a with
      | true =>
          rw [search_succ_of_stop hs, search_succ_of_stop]
          · rfl
          · rw [hstop, hs]
      | false =>
          rw [search_succ_of_not_stop hs, search_succ_of_not_stop, ih, hstep]
          rw [hstop, hs]

/-- An orbit inside a finite set revisits a point within `card` steps, so
every later point already occurred among the first `card` ones. -/
theorem exists_lt_card_iterate_eq [DecidableEq α] {s : Finset α} {a : α}
    (hs : ∀ d, step^[d] a ∈ s) (d : Nat) :
    ∃ e, e < s.card ∧ step^[e] a = step^[d] a := by
  obtain ⟨i, hi, j, hj, hne, heq⟩ :=
    Finset.exists_ne_map_eq_of_card_lt_of_maps_to
      (s := Finset.range (s.card + 1)) (t := s) (by simp)
      (f := fun d => step^[d] a) (fun d _ => hs d)
  simp only [Finset.mem_range] at hi hj
  -- without loss of generality the earlier visit comes first
  wlog hij : i < j generalizing i j
  · exact this j i hne.symm heq.symm hj hi (by omega)
  induction d using Nat.strong_induction_on with
  | _ d ih =>
      by_cases hd : d < s.card
      · exact ⟨d, hd, rfl⟩
      · obtain ⟨e, he, hee⟩ := ih (d - (j - i)) (by omega)
        refine ⟨e, he, hee.trans ?_⟩
        have hback : d - (j - i) = (d - j) + i := by omega
        have hforth : d = (d - j) + j := by omega
        rw [hback, Function.iterate_add_apply, heq,
          ← Function.iterate_add_apply, ← hforth]

/-- On an orbit that stays in a finite set, a search as long as the set is
large that finds nothing never finds anything. -/
theorem never_of_search_eq_none [DecidableEq α] {s : Finset α} {a : α}
    {fuel : Nat} (hs : ∀ d, step^[d] a ∈ s) (hfuel : s.card ≤ fuel)
    (hnone : search step stop fuel a = none) (d : Nat) :
    stop (step^[d] a) = false := by
  obtain ⟨e, he, hee⟩ := exists_lt_card_iterate_eq hs d
  rw [← hee]
  exact search_eq_none_iff.mp hnone e (by omega)

end Search

/-! ## A full turn around `Fin n` -/

section Circular

variable {n : Nat}

/-- The number of steps `i + 1, i + 2, …` from `i` to `j`. -/
def gap (i j : Fin n) : Nat := (j - i).val

theorem gap_lt (i j : Fin n) : gap i j < n := (j - i).isLt

theorem gap_eq (i j : Fin n) : gap i j = (n - i.val + j.val) % n := by
  rw [gap, Fin.val_sub]

variable [NeZero n]

@[simp] theorem gap_self (i : Fin n) : gap i i = 0 := by simp [gap]

/-- The `d`-th point of the walk that starts in `i`. -/
theorem val_iterate_succ (i : Fin n) (d : Nat) :
    ((· + 1)^[d] i : Fin n).val = (i.val + d) % n := by
  induction d with
  | zero => simp [Nat.mod_eq_of_lt i.isLt]
  | succ d ih =>
      rw [Function.iterate_succ_apply', Fin.val_add, ih, Fin.val_one',
        Nat.add_mod_mod, Nat.mod_add_mod, Nat.add_assoc]

theorem iterate_gap (i j : Fin n) : (· + 1)^[gap i j] i = j := by
  apply Fin.ext
  rw [val_iterate_succ, gap_eq, Nat.add_mod_mod,
    show i.val + (n - i.val + j.val) = j.val + n by have := i.isLt; omega,
    Nat.add_mod_right, Nat.mod_eq_of_lt j.isLt]

theorem gap_iterate {i : Fin n} {d : Nat} (hd : d < n) :
    gap i ((· + 1)^[d] i) = d := by
  rw [gap_eq, val_iterate_succ, Nat.add_mod_mod,
    show n - i.val + (i.val + d) = d + n by have := i.isLt; omega,
    Nat.add_mod_right, Nat.mod_eq_of_lt hd]

theorem gap_injective (i : Fin n) : Function.Injective (gap i) := by
  intro j k h
  rw [← iterate_gap i j, ← iterate_gap i k, h]

theorem gap_succ_le (i j : Fin n) : gap i (j + 1) ≤ gap i j + 1 := by
  have hstep : j + 1 = (· + 1)^[gap i j + 1] i := by
    rw [Function.iterate_succ_apply', iterate_gap]
  have hle : (n - i.val + (i.val + (gap i j + 1)) % n) % n ≤ gap i j + 1 := by
    rw [Nat.add_mod_mod, show n - i.val + (i.val + (gap i j + 1)) =
      gap i j + 1 + n by have := i.isLt; omega, Nat.add_mod_right]
    exact Nat.mod_le _ _
  rw [gap_eq, hstep, val_iterate_succ]
  exact hle

/-- What comes before `j + 1` comes before `j`, or is `j`. -/
theorem gap_lt_succ {i j k : Fin n} (h : gap i k < gap i (j + 1)) :
    gap i k < gap i j ∨ k = j := by
  have hle := gap_succ_le i j
  by_cases heq : gap i k = gap i j
  · exact .inr (gap_injective i heq)
  · exact .inl (by omega)

/-- The first slot at or after `i`, going once around, on which `stop`
fires. -/
def circular (stop : Fin n → Bool) (i : Fin n) : Option (Fin n) :=
  search (· + 1) stop n i

theorem circular_eq_some_iff {stop : Fin n → Bool} {i j : Fin n} :
    circular stop i = some j ↔
      stop j = true ∧ ∀ k, gap i k < gap i j → stop k = false := by
  rw [circular, search_eq_some_iff]
  constructor
  · intro h
    rcases h with ⟨d, hlt, rfl, hstop, hbefore⟩
    refine ⟨hstop, fun k hk => ?_⟩
    rw [gap_iterate hlt] at hk
    rw [← iterate_gap i k]
    exact hbefore _ hk
  · intro h
    rcases h with ⟨hstop, hbefore⟩
    refine ⟨gap i j, gap_lt i j, iterate_gap i j, hstop, fun e he => ?_⟩
    apply hbefore
    rwa [gap_iterate (Nat.lt_trans he (gap_lt i j))]

theorem circular_eq_none_iff {stop : Fin n → Bool} {i : Fin n} :
    circular stop i = none ↔ ∀ k, stop k = false := by
  rw [circular, search_eq_none_iff]
  constructor
  · intro h k
    rw [← iterate_gap i k]
    exact h _ (gap_lt i k)
  · exact fun h d _ => h _

/-- Where the start slot itself stops the walk, the walk ends there. -/
theorem circular_of_stop {stop : Fin n → Bool} {i : Fin n}
    (h : stop i = true) : circular stop i = some i :=
  circular_eq_some_iff.mpr ⟨h, fun k hk => by simp at hk⟩

/-- The same turn as a loop that tests its slot, steps, and gives up when it
is back at the slot it came from. -/
def turn (stop : Fin n → Bool) (orig : Fin n) : Nat → Fin n → Option (Fin n)
  | 0, _ => none
  | fuel + 1, i =>
      if stop i then some i
      else if i + 1 = orig then none
      else turn stop orig fuel (i + 1)

theorem turn_eq_circular (stop : Fin n → Bool) (orig : Fin n) :
    turn stop orig n orig = circular stop orig := by
  -- after `d` rounds the loop stands on the `d`-th slot with `n - d` to go
  suffices key : ∀ fuel d, 0 < fuel → fuel + d = n →
      turn stop orig fuel ((· + 1)^[d] orig) =
        search (· + 1) stop fuel ((· + 1)^[d] orig) by
    exact key n 0 (Nat.pos_of_neZero n) rfl
  intro fuel
  induction fuel with
  | zero => intro d h; omega
  | succ fuel ih =>
      intro d _ hd
      have hstepped : ((· + 1)^[d] orig : Fin n) + 1 = (· + 1)^[d + 1] orig :=
        (Function.iterate_succ_apply' (· + 1) d orig).symm
      cases hs : stop ((· + 1)^[d] orig) with
      | true => rw [search_succ_of_stop hs, turn, if_pos hs]
      | false =>
          have hgo : ¬ stop ((· + 1)^[d] orig) = true :=
            Bool.eq_false_iff.mp hs
          rw [search_succ_of_not_stop hs, turn, if_neg hgo, hstepped]
          by_cases hend : fuel = 0
          · have hwrap : ((· + 1)^[d + 1] orig : Fin n) = orig := by
              apply Fin.ext
              rw [val_iterate_succ, show orig.val + (d + 1) = orig.val + n by
                omega, Nat.add_mod_right, Nat.mod_eq_of_lt orig.isLt]
            rw [if_pos hwrap, hend]
            rfl
          · have hne : ((· + 1)^[d + 1] orig : Fin n) ≠ orig := by
              intro hwrap
              have hgap := gap_iterate (i := orig) (d := d + 1) (by omega)
              rw [hwrap, gap_self] at hgap
              omega
            rw [if_neg hne]
            exact ih (d + 1) (by omega) (by omega)

end Circular

end SHMemora.Verified.OrbitSearch
