import SHMemora.Ports.FreshTokens
import SHMemora.Verified.Unwinding

/-!
# Noninterference

Two parties share a store.  One uses tokens whose regions lie in a set `A` of
bytes, and may acquire and revoke tokens and clear the table; the other one
uses tokens whose regions are outside of `A`.  Then the first party cannot see
what the second one does: all its calls return what they would return if the
second party did nothing, and whatever was in memory outside of `A`.

The global key is left out, which opens everything, and so are ranges that run
over the end of the address space and regions that reach the offsets which lead
round into the table.

## Main result

* `noninterference` — the calls of the first party, with and without the
  second one.
-/

namespace SHMemora.Ports

open SHMemora.Verified.ByteMemory
open SHMemora.Verified.StepRun
open SHMemora.Verified.Unwinding

/-! ## The calls of the two parties -/

/-- The range of an access and the token it is made with. -/
def GshmOp.range {τ : Type} : GshmOp τ → Option (Nat × Nat × τ)
  | .readCxl offset size _ shkey => some (offset, size, shkey)
  | .writeCxl offset size _ shkey => some (offset, size, shkey)
  | .compareCxl offset size _ shkey => some (offset, size, shkey)
  | _ => none

/-- A call that is about the table. -/
def GshmOp.OnTable {τ : Type} : GshmOp τ → Prop
  | .acquire .. => True
  | .revokeCxl _ => True
  | .clear => True
  | _ => False

section Calls

variable {τ : Type} [DecidableEq τ] {n : Nat} [NeZero n]
  (S : TokenScheme τ n)

/-- The token is bound to a region inside of `A` and below the table, if it is
bound. -/
def OpensWithin (A : Set Nat) (g : Gshm τ n) (shkey : τ) : Prop :=
  shkey ≠ S.globalKey ∧ ∀ region, binding S g.table shkey = some region →
    BelowTable S region.offset region.size ∧
      region.offset + region.size < 2 ^ 64 ∧ ∀ i, region.Covers i → i ∈ A

/-- An access within `A`, as far as it is accepted. -/
def AccessWithin (A : Set Nat) (g : Gshm τ n) (op : GshmOp τ) : Prop :=
  ∃ offset size shkey, op.range = some (offset, size, shkey) ∧
    offset + size < 2 ^ 64 ∧ OpensWithin S A g shkey

/-- An access touches bytes of `A` only, and none if it is refused. -/
def StaysWithin (A : Set Nat) (g : Gshm τ n) (op : GshmOp τ) : Prop :=
  ∃ offset size shkey, op.range = some (offset, size, shkey) ∧
    offset + size < 2 ^ 64 ∧ ∀ kind, Accepted S g kind offset size shkey →
      ∀ k < size, wrap (offset + k) ∈ A

/-- The visible calls are those of the first party. -/
def PartyCall (A : Set Nat) (g : Gshm τ n) : Bool × GshmOp τ → Prop
  | (true, op) => op.OnTable ∨ AccessWithin S A g op
  | (false, op) => AccessWithin S Aᶜ g op

/-- The memories agree on `A`. -/
def AgreeOn (A : Set Nat) (m m' : Bytes) : Prop := ∀ i ∈ A, m' i = m i

variable {S} {A : Set Nat} {g g' : Gshm τ n} {op : GshmOp τ}
  {result : GshmResult τ} {fuel : Nat} {offset size : Nat} {shkey : τ}

/-- **Confinement**: an access that is accepted stays within `A`. -/
theorem mem_of_accepted (h : OpensWithin S A g shkey) {kind : AccessKind}
    (haccept : Accepted S g kind offset size shkey)
    (hend : offset + size < 2 ^ 64) {k : Nat} (hk : k < size) :
    wrap (offset + k) ∈ A := by
  obtain ⟨region, hregion, hrefusal, _⟩ :=
    (exists_access_iff h.1).mp haccept
  obtain ⟨_, hsum, hin⟩ := h.2 region hregion
  exact hin _ (covers_of_refusal_eq_none hsum hend hrefusal hk)

theorem AccessWithin.staysWithin (h : AccessWithin S A g op) :
    StaysWithin S A g op := by
  obtain ⟨offset, size, shkey, hrange, hend, hopens⟩ := h
  exact ⟨offset, size, shkey, hrange, hend, fun _ haccept _ hk =>
    mem_of_accepted hopens haccept hend hk⟩

omit [DecidableEq τ] [NeZero n] in
theorem safeMemcmp_congr {a a' b : Bytes} {len : Nat}
    (h : ∀ i < len, a i = a' i) : safeMemcmp a b len = safeMemcmp a' b len := by
  induction len generalizing a a' b with
  | zero => rfl
  | succ len ih =>
      rw [safeMemcmp, safeMemcmp, h 0 (Nat.succ_pos _),
        ih fun i hi => h (i + 1) (Nat.succ_lt_succ hi)]

omit [DecidableEq τ] [NeZero n] in
/-- A write within a set leaves the rest as it is. -/
theorem agreeOn_store {m buf : Bytes} (hin : ∀ k < size, wrap (offset + k) ∈ A)
    (hend : offset + size < 2 ^ 64) :
    AgreeOn Aᶜ m (store m offset buf size) := by
  intro i hi
  rw [store_apply (Nat.le_of_lt hend), if_neg]
  rintro ⟨hlo, hhi⟩
  have hmem := hin (i - offset) (by omega)
  rw [wrap_of_lt (by omega), Nat.add_sub_cancel' hlo] at hmem
  exact hi hmem

/-- An access within `A` leaves the table and the bytes outside of `A` as they
are. -/
theorem frame_of_access (h : StaysWithin S A g op)
    (hstep : gshmStep S fuel g op = some (result, g')) :
    g' = { g with data := g'.data } ∧ AgreeOn Aᶜ g.data g'.data := by
  obtain ⟨offset, size, shkey, hrange, hend, hin⟩ := h
  cases op with
  | readCxl offset' size' buf shkey' =>
      cases hstep
      exact ⟨rfl, fun _ _ => rfl⟩
  | compareCxl offset' size' buf shkey' =>
      cases hstep
      exact ⟨rfl, fun _ _ => rfl⟩
  | writeCxl offset' size' buf shkey' =>
      cases hrange
      cases hstep
      by_cases haccept : Accepted S g .write offset size shkey
      · rw [writeCxl_of_accepted haccept]
        exact ⟨rfl, agreeOn_store (hin .write haccept) hend⟩
      · rw [writeCxl_of_refused haccept]
        exact ⟨rfl, fun _ _ => rfl⟩
  | _ => cases hrange

/-- **Visible calls** do the same on memories that agree on `A`. -/
theorem visible_call (h : op.OnTable ∨ StaysWithin S A g op) {data : Bytes}
    (hdata : AgreeOn A g.data data)
    (hstep : gshmStep S fuel g op = some (result, g')) :
    ∃ data', gshmStep S fuel { g with data := data } op =
        some (result, { g' with data := data' }) ∧
      AgreeOn A g'.data data' ∧ AgreeOn Aᶜ data data' := by
  rcases h with htable | haccess
  · cases op <;> first | exact htable.elim | cases hstep
    all_goals exact ⟨data, rfl, hdata, fun _ _ => rfl⟩
  obtain ⟨offset, size, shkey, hrange, hend, hin⟩ := haccess
  -- the checks do not look at the memory
  have hsame : ∀ kind, Accepted S { g with data := data } kind offset size
      shkey ↔ Accepted S g kind offset size shkey := fun _ => Iff.rfl
  cases op with
  | readCxl offset' size' buf shkey' =>
      cases hrange
      cases hstep
      refine ⟨data, ?_, hdata, fun _ _ => rfl⟩
      by_cases haccept : Accepted S g .read offset size shkey
      · have hfetch : fetch data offset buf size =
            fetch g.data offset buf size := by
          funext i
          rw [fetch_apply, fetch_apply]
          split
          · exact hdata _ (hin .read haccept _ ‹_›)
          · rfl
        simp only [gshmStep, readCxl_of_accepted haccept,
          readCxl_of_accepted ((hsame _).mpr haccept), hfetch]
      · simp only [gshmStep, readCxl_of_refused haccept,
          readCxl_of_refused (mt (hsame _).mp haccept)]
  | compareCxl offset' size' buf shkey' =>
      cases hrange
      cases hstep
      refine ⟨data, ?_, hdata, fun _ _ => rfl⟩
      simp only [gshmStep, Gshm.compareCxl]
      cases haccess : compareAccess S g.table offset size shkey with
      | error denial => rfl
      | ok i =>
          have haccept : Accepted S g .compare offset size shkey :=
            ⟨i, haccess⟩
          simp only
          rw [safeMemcmp_congr fun k hk => hdata _ (hin .compare haccept k hk)]
  | writeCxl offset' size' buf shkey' =>
      cases hrange
      cases hstep
      by_cases haccept : Accepted S g .write offset size shkey
      · refine ⟨store data offset buf size, ?_, fun i hi => ?_,
          agreeOn_store (hin .write haccept) hend⟩
        · simp only [gshmStep, writeCxl_of_accepted haccept,
            writeCxl_of_accepted ((hsame _).mpr haccept)]
        · rw [writeCxl_of_accepted haccept]
          simp only [store_apply (Nat.le_of_lt hend), hdata i hi]
      · refine ⟨data, ?_, ?_, fun _ _ => rfl⟩
        · simp only [gshmStep, writeCxl_of_refused haccept,
            writeCxl_of_refused (mt (hsame _).mp haccept)]
        · rw [writeCxl_of_refused haccept]
          exact hdata
  | _ => cases hrange

/-- **Noninterference**: the calls of the first party return what they return
without the calls of the second one, and over any other contents of the memory
outside of `A`.  They leave the same table behind and the same bytes in `A`, and
by themselves they change nothing outside of `A`.  The regions that the parties
use end below the offsets that lead round into the table. -/
theorem noninterference (A : Set Nat) {g g' : Gshm τ n}
    {calls : List (Bool × GshmOp τ)} {results : List (Bool × GshmResult τ)}
    {data : Bytes}
    (hcalls : AtEveryStep (marked (gshmStep S fuel)) (PartyCall S A) g calls)
    (hrun : run (marked (gshmStep S fuel)) g calls = some (results, g'))
    (hdata : AgreeOn A g.data data) :
    ∃ data', run (gshmStep S fuel) { g with data := data } (visible calls) =
        some (visible results, { g' with data := data' }) ∧
      AgreeOn A g'.data data' ∧ AgreeOn Aᶜ data data' := by
  have hvisible : ∀ (g h : Gshm τ n) op result (g' : Gshm τ n),
      (∃ d, h = { g with data := d } ∧ AgreeOn A g.data d ∧
        AgreeOn Aᶜ data d) →
      PartyCall S A g (true, op) →
      gshmStep S fuel g op = some (result, g') →
      ∃ h', gshmStep S fuel h op = some (result, h') ∧
        ∃ d, h' = { g' with data := d } ∧ AgreeOn A g'.data d ∧
          AgreeOn Aᶜ data d := by
    rintro g h op result g' ⟨d, rfl, hagree, hrest⟩ hparty hstep
    obtain ⟨d', hstep', hagree', hrest'⟩ := visible_call
      (hparty.imp id AccessWithin.staysWithin) hagree hstep
    exact ⟨_, hstep', d', rfl, hagree',
      fun i hi => (hrest' i hi).trans (hrest i hi)⟩
  have hhidden : ∀ (g h : Gshm τ n) op result (g' : Gshm τ n),
      (∃ d, h = { g with data := d } ∧ AgreeOn A g.data d ∧
        AgreeOn Aᶜ data d) →
      PartyCall S A g (false, op) →
      gshmStep S fuel g op = some (result, g') →
      ∃ d, h = { g' with data := d } ∧ AgreeOn A g'.data d ∧
        AgreeOn Aᶜ data d := by
    rintro g h op result g' ⟨d, rfl, hagree, hrest⟩ hparty hstep
    obtain ⟨hsame, hframe⟩ := frame_of_access hparty.staysWithin hstep
    rw [compl_compl] at hframe
    refine ⟨d, ?_, fun i hi => ?_, hrest⟩
    · rw [hsame]
    · rw [hframe i hi]
      exact hagree i hi
  obtain ⟨h', hrun', d, rfl, hagree, hrest⟩ := run_visible hvisible hhidden
    ⟨data, rfl, hdata, fun _ _ => rfl⟩ hcalls hrun
  exact ⟨d, hrun', hagree, hrest⟩

end Calls

/-- A store with a token for the bytes from 0 on and one for those from 100
on. -/
def twoRegions : ShmpStore :=
  ((countingStore.acquire shmpScheme 0 8 3).2.acquire shmpScheme 100 8 3).2

/-- The second party writes its bytes before the first one reads. -/
theorem noninterference_two_regions :
    ∃ results g', run (marked (gshmStep shmpScheme 0)) twoRegions
        [(false, .writeCxl 100 8 (fun _ => 9) 2),
          (true, .readCxl 0 8 (fun _ => 0) 1)] = some (results, g') ∧
      ∃ data', run (gshmStep shmpScheme 0) twoRegions
          [.readCxl 0 8 (fun _ => 0) 1] =
            some (visible results, { g' with data := data' }) ∧
        AgreeOn {i | i < 8} g'.data data' ∧
        AgreeOn {i | i < 8}ᶜ twoRegions.data data' := by
  have hfirst := issued_countingStore.acquire 0 8 3
    (freshBelow_countingStore.mono (by decide))
  have hissued := hfirst.acquire 100 8 3 freshBelow_countingStore
  have hbound : ∀ (g : ShmpStore) t, g.table = twoRegions.table →
      binding shmpScheme g.table t = Function.update (Function.update
        (fun _ => none) 1 (some (request 0 8 3))) 2
          (some (request 100 8 3)) t := by
    intro g t htable
    rw [htable]
    exact hissued.binding_eq t
  have hone : ∀ g : ShmpStore, g.table = twoRegions.table →
      OpensWithin shmpScheme {i | i < 8} g 1 := by
    refine fun g htable => ⟨by decide, fun region hregion => ?_⟩
    rw [hbound g 1 htable] at hregion
    cases hregion
    exact ⟨by decide, by decide, fun i hi => hi.2⟩
  have htwo : ∀ g : ShmpStore, g.table = twoRegions.table →
      OpensWithin shmpScheme {i | i < 8}ᶜ g 2 := by
    refine fun g htable => ⟨by decide, fun region hregion => ?_⟩
    rw [hbound g 2 htable] at hregion
    cases hregion
    refine ⟨by decide, by decide, fun i hi => ?_⟩
    have hlo : 100 ≤ i := hi.1
    show ¬ i < 8
    omega
  have hcalls : AtEveryStep (marked (gshmStep shmpScheme 0))
      (PartyCall shmpScheme {i | i < 8}) twoRegions
      [(false, .writeCxl 100 8 (fun _ => 9) 2),
        (true, .readCxl 0 8 (fun _ => 0) 1)] := by
    refine ⟨⟨100, 8, 2, rfl, by decide, htwo _ rfl⟩, fun o g' hstep => ?_⟩
    obtain ⟨mark, result⟩ := o
    obtain ⟨hwrite, -⟩ := marked_eq_some_iff.mp hstep
    cases hwrite
    exact ⟨.inr ⟨0, 8, 1, rfl, by decide, hone _ (Gshm.writeCxl_table ..)⟩,
      fun _ _ _ => trivial⟩
  exact ⟨_, _, rfl, noninterference {i | i < 8} hcalls rfl fun _ _ => rfl⟩

end SHMemora.Ports
