import Mathlib.Data.List.Pairwise
import Mathlib.Data.List.ReduceOption
import SHMemora.Verified.ByteMemory
import SHMemora.Verified.StepRun

/-!
# Allocation by private cursors

Owners hand out blocks one after another, each with a cursor of its own that
starts at the beginning of its arena and is never moved back.  Owners know
nothing of each other, so two of them may have been given the same arena.

`pairwise_apart_iff` says when this is sound: the blocks of all owners
together are pairwise apart if and only if no two owners that get a block
start in the same place.
-/

namespace SHMemora.Verified.ArenaAllocation

open SHMemora.Verified.ByteMemory
open SHMemora.Verified.StepRun

variable {ι : Type*} [DecidableEq ι]

/-- A block handed out by `owner`. -/
structure Block (ι : Type*) where
  owner : ι
  start : Nat
  size : Nat

/-- Two blocks have no address in common. -/
def Block.Apart (b c : Block ι) : Prop :=
  ByteMemory.Apart b.start b.size c.start c.size

instance : Std.Symm (Block.Apart (ι := ι)) := ⟨fun _ _ h => Or.symm h⟩

/-- A request for `r.2` bytes from the owner `r.1`: granted at the cursor of
the owner if that does not run over its limit. -/
def alloc (limit cursor : ι → Nat) (r : ι × Nat) :
    Option (Option (Block ι) × (ι → Nat)) :=
  if cursor r.1 + r.2 ≤ limit r.1 then
    some (some ⟨r.1, cursor r.1, r.2⟩,
      Function.update cursor r.1 (cursor r.1 + r.2))
  else some (none, cursor)

/-! ## The invariant -/

section Invariant

variable (start limit cursor : ι → Nat)

/-- What has been handed out for the requests made so far. -/
structure Placed (blocks : List (Block ι)) (asked : List (ι × Nat)) :
    Prop where
  bounds : ∀ i, start i ≤ cursor i ∧ cursor i ≤ limit i
  inside : ∀ b, b ∈ blocks →
    start b.owner ≤ b.start ∧ b.start + b.size ≤ cursor b.owner
  apart : blocks.Pairwise fun b c => b.owner = c.owner → b.Apart c
  asked_of_mem : ∀ b, b ∈ blocks → (b.owner, b.size) ∈ asked
  first : ∀ i, cursor i = start i ∨
    ∃ b, b ∈ blocks ∧ b.owner = i ∧ b.start = start i
  served : ∀ r, r ∈ asked → start r.1 + r.2 ≤ limit r.1 →
    ∃ b, b ∈ blocks ∧ b.owner = r.1 ∧ b.start = start r.1

variable {start limit cursor} {cursor' : ι → Nat} {blocks : List (Block ι)}
  {asked : List (ι × Nat)} {r : ι × Nat}

/-- A grant moves no cursor back. -/
theorem cursor_le_grant (cursor : ι → Nat) (r : ι × Nat) (i : ι) :
    cursor i ≤ Function.update cursor r.1 (cursor r.1 + r.2) i := by
  by_cases hi : i = r.1
  · rw [hi, Function.update_self]
    exact Nat.le_add_right _ _
  · exact Nat.le_of_eq (Function.update_of_ne hi _ _).symm

omit [DecidableEq ι] in
/-- After a grant there is a block at the start of the arena: the new one, or
one from before. -/
theorem Placed.first_grant (h : Placed start limit cursor blocks asked)
    (r : ι × Nat) :
    ∃ b, b ∈ blocks ++ [⟨r.1, cursor r.1, r.2⟩] ∧ b.owner = r.1 ∧
      b.start = start r.1 := by
  rcases h.first r.1 with hnew | ⟨b, hb, howner, hstart⟩
  · exact ⟨⟨r.1, cursor r.1, r.2⟩, by simp, rfl, hnew⟩
  · exact ⟨b, by simp [hb], howner, hstart⟩

omit [DecidableEq ι] in
/-- The new block starts where the old ones of its owner end. -/
theorem Placed.apart_grant (h : Placed start limit cursor blocks asked)
    (r : ι × Nat) :
    List.Pairwise (fun b c => b.owner = c.owner → b.Apart c)
      (blocks ++ [⟨r.1, cursor r.1, r.2⟩]) := by
  rw [List.pairwise_append]
  refine ⟨h.apart, List.pairwise_singleton _ _, fun b hb c hc howner => ?_⟩
  cases List.mem_singleton.mp hc
  have hinside := (h.inside b hb).2
  rw [howner] at hinside
  exact .inl hinside

/-- A granted request. -/
theorem Placed.grant (h : Placed start limit cursor blocks asked)
    (hfits : cursor r.1 + r.2 ≤ limit r.1) :
    Placed start limit (Function.update cursor r.1 (cursor r.1 + r.2))
      (blocks ++ [⟨r.1, cursor r.1, r.2⟩]) (asked ++ [r]) := by
  constructor
  case bounds =>
    intro i
    by_cases hi : i = r.1
    · subst hi
      rw [Function.update_self]
      exact ⟨Nat.le_trans (h.bounds r.1).1 (Nat.le_add_right _ _), hfits⟩
    · rw [Function.update_of_ne hi]
      exact h.bounds i
  case inside =>
    intro b hb
    rcases List.mem_append.mp hb with hold | hnew
    · have hinside := h.inside b hold
      exact ⟨hinside.1, Nat.le_trans hinside.2 (cursor_le_grant cursor r _)⟩
    · cases List.mem_singleton.mp hnew
      rw [Function.update_self]
      exact ⟨(h.bounds r.1).1, Nat.le_refl _⟩
  case apart => exact h.apart_grant r
  case asked_of_mem =>
    intro b hb
    rcases List.mem_append.mp hb with hold | hnew
    · exact List.mem_append_left _ (h.asked_of_mem b hold)
    · cases List.mem_singleton.mp hnew
      exact List.mem_append_right _ (List.mem_singleton.mpr rfl)
  case first =>
    intro i
    by_cases hi : i = r.1
    · rw [hi]
      exact .inr (h.first_grant r)
    · rw [Function.update_of_ne hi]
      rcases h.first i with hnew | ⟨b, hb, howner, hstart⟩
      · exact .inl hnew
      · exact .inr ⟨b, by simp [hb], howner, hstart⟩
  case served =>
    intro q hq hroom
    rcases List.mem_append.mp hq with hold | hnew
    · rcases h.served q hold hroom with ⟨b, hb, howner, hstart⟩
      exact ⟨b, by simp [hb], howner, hstart⟩
    · cases List.mem_singleton.mp hnew
      exact h.first_grant r

omit [DecidableEq ι] in
/-- A request that does not fit. -/
theorem Placed.refuse (h : Placed start limit cursor blocks asked)
    (hfull : ¬ cursor r.1 + r.2 ≤ limit r.1) :
    Placed start limit cursor blocks (asked ++ [r]) := by
  refine ⟨h.bounds, h.inside, h.apart, fun b hb => ?_, h.first,
    fun q hq hroom => ?_⟩
  · exact List.mem_append_left _ (h.asked_of_mem b hb)
  · rcases List.mem_append.mp hq with hold | hnew
    · exact h.served q hold hroom
    · -- the cursor is no longer at the start, so there is a first block
      rw [List.mem_singleton.mp hnew] at hroom ⊢
      rcases h.first r.1 with hstart | hfirst
      · rw [hstart] at hfull
        exact absurd hroom hfull
      · exact hfirst

omit [DecidableEq ι] in
/-- Before the first request. -/
theorem placed_start (hstart : ∀ i, start i ≤ limit i) :
    Placed start limit start ([] : List (Block ι)) [] := by
  have hnone : ∀ b : Block ι, b ∉ [] := fun _ => List.not_mem_nil
  exact ⟨fun i => ⟨Nat.le_refl _, hstart i⟩, fun b hb => absurd hb (hnone b),
    .nil, fun b hb => absurd hb (hnone b), fun i => .inl rfl,
    fun r hr => absurd hr List.not_mem_nil⟩

/-- **Step lemma.** -/
theorem Placed.alloc (h : Placed start limit cursor blocks asked)
    {o : Option (Block ι)} (hstep : alloc limit cursor r = some (o, cursor')) :
    Placed start limit cursor' (blocks ++ o.toList) (asked ++ [r]) := by
  rw [ArenaAllocation.alloc] at hstep
  split at hstep
  case isTrue hfits =>
    cases hstep
    exact h.grant hfits
  case isFalse hfull =>
    cases hstep
    rw [Option.toList_none, List.append_nil]
    exact h.refuse hfull

/-- **Run lemma.** -/
theorem Placed.run (h : Placed start limit cursor blocks asked)
    {requests : List (ι × Nat)} {outs : List (Option (Block ι))}
    (hrun : run (ArenaAllocation.alloc limit) cursor requests =
      some (outs, cursor')) :
    Placed start limit cursor' (blocks ++ outs.reduceOption)
      (asked ++ requests) := by
  induction requests generalizing cursor blocks asked outs with
  | nil =>
      cases hrun
      simp only [List.reduceOption_nil, List.append_nil]
      exact h
  | cons r requests ih =>
      obtain ⟨o, cursor₁, os, hstep, hrest, rfl⟩ :=
        run_cons_eq_some_iff.mp hrun
      have hnext := ih (h.alloc hstep) hrest
      rw [List.append_assoc, List.append_assoc] at hnext
      have houts : (o :: os).reduceOption = o.toList ++ os.reduceOption := by
        cases o with
        | none => rw [List.reduceOption_cons_of_none]; rfl
        | some b => rw [List.reduceOption_cons_of_some]; rfl
      rw [houts]
      exact hnext

/-! ## Consequences -/

omit [DecidableEq ι] in
/-- A block lies in the arena of its owner. -/
theorem Placed.inside_arena (h : Placed start limit cursor blocks asked)
    {b : Block ι} (hb : b ∈ blocks) :
    start b.owner ≤ b.start ∧ b.start + b.size ≤ limit b.owner := by
  have hinside := h.inside b hb
  exact ⟨hinside.1, Nat.le_trans hinside.2 (h.bounds b.owner).2⟩

omit [DecidableEq ι] in
/-- Blocks are apart where the arenas of their owners are. -/
theorem Placed.pairwise_apart (h : Placed start limit cursor blocks asked)
    (harena : ∀ b c, b ∈ blocks → c ∈ blocks → b.owner ≠ c.owner →
      limit b.owner ≤ start c.owner ∨ limit c.owner ≤ start b.owner) :
    blocks.Pairwise Block.Apart := by
  refine h.apart.imp_of_mem fun {b c} hb hc hsame => ?_
  by_cases howner : b.owner = c.owner
  · exact hsame howner
  · have hbIn := h.inside_arena hb
    have hcIn := h.inside_arena hc
    rcases harena b c hb hc howner with hlt | hgt
    · exact .inl (by omega)
    · exact .inr (by omega)

end Invariant

/-! ## When all blocks are apart -/

/-- The owner gets a block, as one of its requests fits into its arena. -/
def Served (start limit : ι → Nat) (requests : List (ι × Nat)) (i : ι) :
    Prop :=
  ∃ size, (i, size) ∈ requests ∧ start i + size ≤ limit i

/-- **All blocks are pairwise apart if and only if no two owners that get a
block start in the same place**, where arenas that start in different places
do not overlap. -/
theorem pairwise_apart_iff {start limit cursor : ι → Nat}
    (hstart : ∀ i, start i ≤ limit i)
    (harena : ∀ i j, start i ≠ start j →
      limit i ≤ start j ∨ limit j ≤ start i)
    {requests : List (ι × Nat)} (hpos : ∀ r, r ∈ requests → 0 < r.2)
    {outs : List (Option (Block ι))}
    (hrun : run (alloc limit) start requests = some (outs, cursor)) :
    outs.reduceOption.Pairwise Block.Apart ↔
      ∀ i j, Served start limit requests i → Served start limit requests j →
        i ≠ j → start i ≠ start j := by
  have h := (placed_start hstart).run hrun
  rw [List.nil_append, List.nil_append] at h
  constructor
  · rintro hapart i j ⟨size, hi, hfits⟩ ⟨size', hj, hfits'⟩ hne heq
    -- the first blocks of the two owners
    rcases h.served _ hi hfits with ⟨b, hb, hbi, hbstart⟩
    rcases h.served _ hj hfits' with ⟨c, hc, hcj, hcstart⟩
    have hbpos := hpos _ (h.asked_of_mem b hb)
    have hcpos := hpos _ (h.asked_of_mem c hc)
    have hbc : b ≠ c := by
      intro hbc
      rw [hbc, hcj] at hbi
      exact hne hbi.symm
    have hboth := hapart.forall hb hc hbc
    unfold Block.Apart ByteMemory.Apart at hboth
    simp only at hbstart hcstart hbpos hcpos
    omega
  · intro hstarts
    refine h.pairwise_apart fun b c hb hc howner => ?_
    have hserved : ∀ x, x ∈ outs.reduceOption →
        Served start limit requests x.owner := by
      intro x hx
      have hinside := h.inside_arena hx
      exact ⟨x.size, h.asked_of_mem x hx, by omega⟩
    exact harena _ _ (hstarts _ _ (hserved b hb) (hserved c hc) howner)

end SHMemora.Verified.ArenaAllocation
