import SHMemora.Ports.GshmRuns
import SHMemora.Ports.FreshTokens

/-!
# Tokens isolate keys

In a run of `insert`, `get`, `update`, `revoke_cxl` and
`clear_protection_table` whose tokens are all new, a token that was returned
by an insertion of one key gives no access to the value of another.

The invariant looks back at everything that has been returned so far
(`Isolating`): such a token opens nothing, or it opens exactly one block, and
the key written there is the key it was returned for (`OpensOnly`).  Blocks
are handed out once and their keys are never overwritten, so the block of
another key is apart from it whatever has happened in between.
-/

namespace SHMemora.Ports

open SHMemora.Verified.ByteMemory
open SHMemora.Verified.StepRun

/-- The calls of a run. -/
def IsolationCall : GshmOp UInt16 → Prop
  | .insert _ _ => True
  | .get _ _ _ => True
  | .update _ _ _ => True
  | .revokeCxl _ => True
  | .clear => True
  | _ => False

/-- What has been called and returned so far. -/
abbrev History := List (GshmOp UInt16 × GshmResult UInt16)

/-! ## What a token opens -/

/-- The token has been drawn, and if it is bound then to a block that holds
the key. -/
structure OpensOnly (g : ShmpStore) (m : TokenMap UInt16) (key : Key)
    (t : UInt16) : Prop where
  drawn : ∃ i, i < g.randCalls ∧ tokenAt g.useMac g.rand i = t
  block : ∀ entry, m t = some entry → ∃ e,
    IsBlock g.self.valueSize g.self.partitionStart g.self.nextFreeOffset e ∧
      keyAt g.data e = key ∧ entry = request e g.self.entrySize 3

/-- Every token returned by an insertion opens only its key. -/
structure Isolating (g : ShmpStore) (past : History) : Prop where
  sound : Sound g.self g.data
  tokens : ∃ m, Issued g m ∧ ∀ key value t,
    (.insert key value, .shkey t) ∈ past → OpensOnly g m key t

/-- `g'` is the same store later on: more tokens and more blocks, but the
same keys in the old blocks. -/
structure Later (g g' : ShmpStore) : Prop where
  useMac_eq : g'.useMac = g.useMac
  rand_eq : g'.rand = g.rand
  calls_le : g.randCalls ≤ g'.randCalls
  self_eq : g'.self = { g.self with
    nextFreeOffset := g'.self.nextFreeOffset }
  cursor_le : g.self.nextFreeOffset ≤ g'.self.nextFreeOffset
  keyAt_eq : ∀ e, IsBlock g.self.valueSize g.self.partitionStart
    g.self.nextFreeOffset e → keyAt g'.data e = keyAt g.data e

/-- The tokens drawn before `g` are bound in `m'` as in `m`, or not at
all. -/
def TakesAway (g : ShmpStore) (m m' : TokenMap UInt16) : Prop :=
  ∀ i, i < g.randCalls →
    m' (tokenAt g.useMac g.rand i) = none ∨
      m' (tokenAt g.useMac g.rand i) = m (tokenAt g.useMac g.rand i)

section Steps

variable {g g' : ShmpStore} {m m' : TokenMap UInt16} {past : History}
  {key : Key} {t : UInt16}

/-- A token never opens more than it did. -/
theorem OpensOnly.later (h : OpensOnly g m key t) (hlater : Later g g')
    (htakes : TakesAway g m m') : OpensOnly g' m' key t := by
  rcases h with ⟨⟨i, hi, htoken⟩, hblock⟩
  constructor
  · refine ⟨i, Nat.lt_of_lt_of_le hi hlater.calls_le, ?_⟩
    rw [hlater.useMac_eq, hlater.rand_eq]
    exact htoken
  · intro entry hm
    have hcase := htakes i hi
    rw [htoken] at hcase
    rcases hcase with hnone | hsame
    · rw [hnone] at hm
      contradiction
    · rw [hsame] at hm
      rcases hblock entry hm with ⟨e, hb, hk, hrequest⟩
      rw [hlater.self_eq]
      exact ⟨e, hb.mono hlater.cursor_le, (hlater.keyAt_eq e hb).trans hk,
        hrequest⟩

theorem Isolating.later (h : Isolating g past) (hlater : Later g g')
    (hsound : Sound g'.self g'.data)
    (htokens : ∀ m, Issued g m → ∃ m', Issued g' m' ∧ TakesAway g m m') :
    Isolating g' past := by
  rcases h.tokens with ⟨m, hissued, hopens⟩
  rcases htokens m hissued with ⟨m', hissued', htakes⟩
  exact ⟨hsound, m', hissued', fun key value t hmem =>
    (hopens key value t hmem).later hlater htakes⟩

/-! ## Each call keeps the invariant -/

theorem isolating_draws (h : Isolating g past)
    (hdraws : Draws shmpScheme g g')
    (hfresh : FreshBelow g.useMac g.rand g'.randCalls) :
    Isolating g' past := by
  have hself := hdraws.self_eq
  have hdata := hdraws.data_eq
  refine h.later ⟨hdraws.useMac_eq, hdraws.rand_eq, hdraws.randCalls_le, ?_,
    ?_, fun e _ => by rw [hdata]⟩ ?_ fun m hissued => ?_
  · rw [hself]
  · rw [hself]
  · rw [hself, hdata]
    exact h.sound
  · rcases hissued.draws hdraws hfresh with ⟨m', hissued', hsame⟩
    exact ⟨m', hissued', fun i hi => .inr (hsame i hi)⟩

theorem isolating_writeValue (h : Isolating g past)
    (hne : entryOf g.data key ≠ 0) (value : Bytes) :
    Isolating { g with
      data := writeValue g.data g.self.valueSize (entryOf g.data key) value }
      past := by
  have hblock := (h.sound.shape.entryOf_spec hne).2.2.block
  refine h.later ⟨rfl, rfl, Nat.le_refl _, rfl, Nat.le_refl _, fun e he => ?_⟩
    (h.sound.writeValue hne value) fun m hissued => ?_
  · exact h.sound.shape.keyAt_writeValue hblock he
  · exact ⟨m, hissued.of_table_eq rfl rfl rfl rfl, fun _ _ => .inr rfl⟩

theorem isolating_revoke (h : Isolating g past) (shkey : UInt16) :
    Isolating { g with table := (revokeCxl shmpScheme g.table shkey).2 }
      past :=
  h.later ⟨rfl, rfl, Nat.le_refl _, rfl, Nat.le_refl _, fun _ _ => rfl⟩
    h.sound fun m hissued => ⟨_, hissued.revoke shkey, fun i _ =>
      m.revoke_eq_none_or 0 shkey (tokenAt g.useMac g.rand i)⟩

theorem isolating_clear (h : Isolating g past) :
    Isolating { g with table := clearProtectionTable shmpScheme g.table }
      past :=
  h.later ⟨rfl, rfl, Nat.le_refl _, rfl, Nat.le_refl _, fun _ _ => rfl⟩
    h.sound fun _ _ => ⟨_, Issued.clear g, fun _ _ => .inl rfl⟩

/-- An insertion returns a token for a block with its key. -/
theorem isolating_insert (h : Isolating g past) (hroom : HasRoom g.self)
    (hfresh : FreshBelow g.useMac g.rand (g.randCalls + 2)) (key : Key)
    (value : Bytes) :
    Isolating (afterInsert g key value)
      (past ++ [(.insert key value,
        .shkey (tokenAt g.useMac g.rand (g.randCalls + 1)))]) := by
  rcases h.tokens with ⟨m, hissued, hopens⟩
  have hle := h.sound.room hroom
  have hcalls : (afterInsert g key value).randCalls = g.randCalls + 2 :=
    randCalls_afterDraws g key
  have hlater : Later g (afterInsert g key value) := by
    refine ⟨rfl, rfl, by omega, rfl, Nat.le_add_right _ _, fun e he => ?_⟩
    have hend := Nat.le_trans he.end_le h.sound.shape.nextFree_le
    have hagree : Agree g.data (afterInsert g key value).data e
        (72 + g.self.valueSize) := h.sound.shape.agree_insertEntry hle he
    exact keyAt_congr (by omega) (hagree.mono (Nat.le_refl _) (by omega))
  have hsame := sameBefore_insertMap hfresh m key
  refine ⟨sound_afterInsert h.sound hroom key value, insertMap g m key,
    hissued.afterInsert key value hfresh, fun k v t hmem => ?_⟩
  rcases List.mem_append.mp hmem with hpast | hlast
  · exact (hopens k v t hpast).later hlater fun i hi => .inr (hsame i hi)
  · -- the token just returned
    cases List.mem_singleton.mp hlast
    refine ⟨⟨g.randCalls + 1, by omega, rfl⟩, fun entry hm => ?_⟩
    have hbound : insertMap g m key
        (tokenAt g.useMac g.rand (g.randCalls + 1)) =
        some (request g.self.nextFreeOffset g.self.entrySize 3) :=
      Function.update_self _ _ _
    rw [hbound] at hm
    cases hm
    refine ⟨g.self.nextFreeOffset, ?_, h.sound.shape.keyAt_new hle, rfl⟩
    rcases h.sound.shape.cursor with ⟨i, hcursor⟩
    have hsizes := h.sound.sizes
    refine ⟨i, hcursor, ?_⟩
    show g.self.nextFreeOffset + (72 + g.self.valueSize) ≤
      g.self.nextFreeOffset + g.self.entrySize
    omega

/-- What is not the return of an insertion adds nothing to the tokens. -/
theorem Isolating.append (h : Isolating g past) {op : GshmOp UInt16}
    (hop : ∀ key value, op ≠ .insert key value) (result : GshmResult UInt16) :
    Isolating g (past ++ [(op, result)]) := by
  rcases h.tokens with ⟨m, hissued, hopens⟩
  refine ⟨h.sound, m, hissued, fun key value t hmem => ?_⟩
  rcases List.mem_append.mp hmem with hpast | hlast
  · exact hopens key value t hpast
  · have heq := congrArg Prod.fst (List.mem_singleton.mp hlast)
    exact absurd heq.symm (hop key value)

/-- What a run relies on from call to call: the invariant, and the random
source left in place. -/
structure Keeps (g g' : ShmpStore) (past : History) : Prop where
  useMac_eq : g'.useMac = g.useMac
  rand_eq : g'.rand = g.rand
  isolating : Isolating g' past

theorem keeps_insert (h : Isolating g past) {key : Key} {value : Bytes}
    (hinsert : g.insert shmpScheme key value = .returned t g')
    (hfresh : FreshBelow g.useMac g.rand g'.randCalls) :
    Keeps g g' (past ++ [(.insert key value, .shkey t)]) := by
  by_cases hroom : HasRoom g.self
  case neg =>
    obtain ⟨g₁, hexits⟩ :=
      insert_exits (S := shmpScheme) h.sound key hroom value
    rw [hexits] at hinsert
    contradiction
  case pos =>
    obtain ⟨t', g₁, hreturns, hcalls⟩ :=
      insert_returns (S := shmpScheme) h.sound key hroom value
    cases hinsert.symm.trans hreturns
    rw [hcalls, randCalls_acquire, randCalls_acquire] at hfresh
    obtain ⟨m, hissued, _⟩ := h.tokens
    cases hinsert.symm.trans
      (insert_of_fresh hissued h.sound hroom hfresh key value)
    exact ⟨rfl, rfl, isolating_insert h hroom hfresh key value⟩

theorem keeps_get (h : Isolating g past) {value : Bytes} {shkey : UInt16}
    {r : Bool × Bytes} (hget : g.get shmpScheme key value shkey =
      .returned r g')
    (hfresh : FreshBelow g.useMac g.rand g'.randCalls) : Keeps g g' past := by
  have hdraws := draws_lookedUp (S := shmpScheme) (g := g) key 1
  have hlooked : g' = lookedUp shmpScheme g key 1 := by
    rw [get_of_sound h.sound] at hget
    split at hget
    case isTrue => cases hget; rfl
    case isFalse => cases hget; rfl
  subst hlooked
  exact ⟨hdraws.useMac_eq, hdraws.rand_eq, isolating_draws h hdraws hfresh⟩

theorem keeps_update (h : Isolating g past) {value : Bytes} {shkey : UInt16}
    {b : Bool} (hupdate : g.update shmpScheme key value shkey =
      .returned b g')
    (hfresh : FreshBelow g.useMac g.rand g'.randCalls) : Keeps g g' past := by
  have hdraws := draws_lookedUp (S := shmpScheme) (g := g) key 3
  rw [update_of_sound h.sound] at hupdate
  split at hupdate
  case isTrue =>
    cases hupdate
    exact ⟨hdraws.useMac_eq, hdraws.rand_eq, isolating_draws h hdraws hfresh⟩
  case isFalse hne =>
    cases hupdate
    rw [Gshm.writeCxl_randCalls] at hfresh
    have hlooked := isolating_draws h hdraws hfresh
    by_cases haccept : Accepted shmpScheme (lookedUp shmpScheme g key 3)
        .write (wrap (entryOf g.data key + 64)) g.self.valueSize shkey
    case neg =>
      rw [writeCxl_of_refused haccept]
      exact ⟨hdraws.useMac_eq, hdraws.rand_eq, hlooked⟩
    case pos =>
      rw [← hdraws.data_eq] at hne haccept
      rw [← hdraws.self_eq] at haccept
      rw [← hdraws.data_eq, ← hdraws.self_eq, writeCxl_of_accepted haccept]
      exact ⟨hdraws.useMac_eq, hdraws.rand_eq,
        isolating_writeValue hlooked hne value⟩

/-- **Step lemma**: a call whose tokens are new keeps the invariant. -/
theorem Isolating.step {fuel : Nat} {op : GshmOp UInt16}
    {result : GshmResult UInt16} (h : Isolating g past)
    (hcall : IsolationCall op)
    (hstep : gshmStep shmpScheme fuel g op = some (result, g'))
    (hfresh : FreshBelow g.useMac g.rand g'.randCalls) :
    Keeps g g' (past ++ [(op, result)]) := by
  cases op with
  | insert key value =>
      obtain ⟨t, g₁, hinsert, heq⟩ := Outcome.next_map_eq_some_iff.mp hstep
      cases heq
      exact keeps_insert h hinsert hfresh
  | get key value shkey =>
      obtain ⟨r, g₁, hget, heq⟩ := Outcome.next_map_eq_some_iff.mp hstep
      cases heq
      have hkeeps := keeps_get h hget hfresh
      exact { hkeeps with isolating := hkeeps.isolating.append (by simp) _ }
  | update key value shkey =>
      obtain ⟨b, g₁, hupdate, heq⟩ := Outcome.next_map_eq_some_iff.mp hstep
      cases heq
      have hkeeps := keeps_update h hupdate hfresh
      exact { hkeeps with isolating := hkeeps.isolating.append (by simp) _ }
  | revokeCxl shkey =>
      cases hstep
      exact ⟨rfl, rfl, (isolating_revoke h shkey).append (by simp) _⟩
  | clear =>
      cases hstep
      exact ⟨rfl, rfl, (isolating_clear h).append (by simp) _⟩
  | _ => contradiction

/-- A token returned for one key is refused for the value of another. -/
theorem Isolating.refused (h : Isolating g past)
    (hdraws : Draws shmpScheme g g')
    (hfresh : FreshBelow g.useMac g.rand g'.randCalls) {k₁ k₂ : Key}
    (hne : k₁ ≠ k₂) {value : Bytes}
    (hmem : (.insert k₁ value, .shkey t) ∈ past)
    (hstored : entryOf g.data k₂ ≠ 0) (kind : AccessKind) :
    ¬ Accepted shmpScheme g' kind (wrap (entryOf g.data k₂ + 64))
      g.self.valueSize t := by
  have h' := isolating_draws h hdraws hfresh
  rcases h'.tokens with ⟨m, hissued, hopens⟩
  rcases hopens k₁ value t hmem with ⟨⟨i, hi, htoken⟩, hblock⟩
  rw [hdraws.useMac_eq, hdraws.rand_eq] at htoken
  have hkey : t ≠ 0 := by
    rw [← htoken]
    exact (hfresh i hi).1
  obtain ⟨_, hk₂, hholds⟩ := h.sound.shape.entryOf_spec hstored
  have hend := h.sound.entry_end_le hstored
  apply refused_of_binding hkey
  intro entry hentry
  rw [hissued.binding_eq] at hentry
  rcases hblock entry hentry with ⟨e, hb, hk₁, hrequest⟩
  rw [hdraws.self_eq] at hb hrequest
  rw [hdraws.data_eq] at hk₁
  -- the two keys are in different blocks
  have hblocks : e ≠ entryOf g.data k₂ := by
    intro heq
    rw [heq, hk₂] at hk₁
    exact hne hk₁.symm
  have hapart := hb.apart hholds.block hblocks
  have hsizes := h.sound.sizes
  have hsmall := h.sound.small
  have hbEnd := Nat.le_trans hb.end_le h.sound.shape.nextFree_le
  have hoffset : entry.offset = e := by
    rw [hrequest]
    exact wrap_of_lt (by omega)
  have hsize : entry.size = g.self.entrySize := by
    rw [hrequest]
    exact wrap_of_lt (by omega)
  unfold Apart at hapart
  rw [wrap_of_lt (by omega), hoffset, hsize]
  omega

end Steps

/-! ## Runs -/

/-- **Run lemma**: every token returned in the run opens only its key. -/
theorem isolating_of_run {fuel : Nat} {g₀ g : ShmpStore}
    (hsound : Sound g₀.self g₀.data) (hissued : Issued g₀ fun _ => none)
    {calls : List (GshmOp UInt16)}
    (hcalls : ∀ op, op ∈ calls → IsolationCall op)
    {results : List (GshmResult UInt16)}
    (hrun : run (gshmStep shmpScheme fuel) g₀ calls = some (results, g))
    (hfresh : FreshBelow g₀.useMac g₀.rand g.randCalls) :
    Keeps g₀ g (calls.zip results) := by
  have h0 : Isolating g₀ [] :=
    ⟨hsound, _, hissued, fun _ _ _ hmem => by cases hmem⟩
  have hcost : ∀ (s : ShmpStore) (op : GshmOp UInt16)
      (result : GshmResult UInt16) (s' : ShmpStore),
      gshmStep shmpScheme fuel s op = some (result, s') →
        s.randCalls ≤ s'.randCalls :=
    fun _ _ _ _ hstep => randCalls_le_of_step hstep
  have hstep : ∀ (s : ShmpStore) (past : History) (op : GshmOp UInt16)
      (result : GshmResult UInt16) (s' : ShmpStore),
      Keeps g₀ s past → IsolationCall op →
      gshmStep shmpScheme fuel s op = some (result, s') →
      s'.randCalls ≤ g.randCalls →
        Keeps g₀ s' (past ++ [(op, result)]) := by
    intro s past op result s' hkept hcall hstep hbound
    rcases hkept with ⟨hmac, hrand, h⟩
    have hnew := hfresh.mono hbound
    rw [← hmac, ← hrand] at hnew
    rcases h.step hcall hstep hnew with ⟨hmac', hrand', h'⟩
    exact ⟨hmac'.trans hmac, hrand'.trans hrand, h'⟩
  have hkeeps : Keeps g₀ g₀ [] := ⟨rfl, rfl, h0⟩
  exact run_history_below hcost hstep hkeeps hcalls hrun (Nat.le_refl _)

/-- **Tokens isolate keys.**  After every run whose tokens are all new, on
host 1 or above over a zeroed bucket table, a token that an insertion of one
key has ever returned neither reads nor changes the value of another key, as
long as the tokens drawn by the last call are new as well. -/
theorem shmp_tokens_isolate_keys (fuel : Nat) (data : Bytes)
    (rand : Nat → Nat) (batchKey : UInt16) (useMac : Bool)
    (dataAddr : DataAddr) (mac : Option UInt8) (hmac : 0 < getMac mac)
    (valueSize : Nat) (hsmall : 72 + valueSize < 2 ^ 31)
    (hzero : ∀ key, bucket data key = 0) (calls : List (GshmOp UInt16))
    (hcalls : ∀ op, op ∈ calls → IsolationCall op)
    (results : List (GshmResult UInt16)) (g : ShmpStore)
    (hrun : run (gshmStep shmpScheme fuel)
      (.construct shmpScheme data rand batchKey useMac
        ((Instance.construct dataAddr mac).withValueSize valueSize)) calls =
      some (results, g))
    (hfresh : FreshBelow useMac rand g.randCalls)
    (k₁ k₂ : Key) (hne : k₁ ≠ k₂) (value₁ : Bytes) (t₁ : UInt16)
    (hreturned : (.insert k₁ value₁, .shkey t₁) ∈ calls.zip results) :
    (∀ buf, (∀ r g', g.get shmpScheme k₂ buf t₁ = .returned r g' →
        FreshBelow useMac rand g'.randCalls) →
      ∃ b g', g.get shmpScheme k₂ buf t₁ = .returned (b, buf) g') ∧
    ∀ value, (∀ b g', g.update shmpScheme k₂ value t₁ = .returned b g' →
        FreshBelow useMac rand g'.randCalls) →
      ∃ b g', g.update shmpScheme k₂ value t₁ = .returned b g' ∧
        g'.data = g.data := by
  have hsound : Sound ((Instance.construct dataAddr mac).withValueSize
      valueSize) data := Sound.construct hmac hsmall hzero
  obtain ⟨hmac', hrand', h⟩ := isolating_of_run hsound
    (issued_construct _ _ _ _ _) hcalls hrun hfresh
  have hmac₀ : g.useMac = useMac := hmac'
  have hrand₀ : g.rand = rand := hrand'
  constructor
  · intro buf hlast
    have hget := get_of_sound (S := shmpScheme) h.sound k₂ buf t₁
    by_cases hstored : entryOf g.data k₂ = 0
    · rw [if_pos hstored] at hget
      exact ⟨_, _, hget⟩
    · rw [if_neg hstored] at hget
      have hnew := hlast _ _ hget
      rw [← hmac₀, ← hrand₀] at hnew
      have hrefused := h.refused (draws_lookedUp k₂ 1) hnew hne hreturned
        hstored .read
      rw [readCxl_of_refused hrefused] at hget
      exact ⟨_, _, hget⟩
  · intro value hlast
    have hupdate := update_of_sound (S := shmpScheme) h.sound k₂ value t₁
    have hdraws := draws_lookedUp (S := shmpScheme) (g := g) k₂ 3
    by_cases hstored : entryOf g.data k₂ = 0
    · rw [if_pos hstored] at hupdate
      exact ⟨_, _, hupdate, hdraws.data_eq⟩
    · rw [if_neg hstored] at hupdate
      have hnew := hlast _ _ hupdate
      rw [Gshm.writeCxl_randCalls, ← hmac₀, ← hrand₀] at hnew
      have hrefused := h.refused hdraws hnew hne hreturned hstored .write
      rw [writeCxl_of_refused hrefused] at hupdate
      exact ⟨_, _, hupdate, hdraws.data_eq⟩

/-- A key whose bucket is next to the one of the all-zero key. -/
def nextBucketKey : Key := fun i => if i = 0 then 1 else 0

/-- Two keys are inserted, and the token of the second is tried on the
first. -/
theorem shmp_tokens_isolate_keys_two_keys :
    ∃ g, run (gshmStep shmpScheme 0) countingStore
        [.insert nextBucketKey fun _ => 8, .insert (fun _ => 0) fun _ => 7] =
        some ([.shkey 2, .shkey 4], g) ∧
      (∀ buf, ∃ b g',
        g.get shmpScheme nextBucketKey buf 4 = .returned (b, buf) g') ∧
      ∀ value, ∃ b g',
        g.update shmpScheme nextBucketKey value 4 = .returned b g' ∧
          g'.data = g.data := by
  have hroom : HasRoom countingStore.self := by decide
  have hsound := sound_afterInsert sound_countingStore hroom nextBucketKey
    fun _ => 8
  have hissued := issued_countingStore.afterInsert nextBucketKey (fun _ => 8)
    freshBelow_countingStore
  have hfresh : FreshBelow false (fun i => i + 1) 6 := by
    unfold FreshBelow
    decide
  have hfour : FreshBelow false (fun i => i + 1) 4 :=
    hfresh.mono (by decide)
  have hroom' : HasRoom (afterInsert countingStore nextBucketKey
      fun _ => 8).self := by decide
  have hfirst : gshmStep shmpScheme 0 countingStore
      (.insert nextBucketKey fun _ => 8) =
      some (.shkey 2, afterInsert countingStore nextBucketKey fun _ => 8) :=
    step_insert_of_fresh issued_countingStore sound_countingStore hroom
      freshBelow_countingStore _ _
  have hsecond : gshmStep shmpScheme 0
      (afterInsert countingStore nextBucketKey fun _ => 8)
      (.insert (fun _ => 0) fun _ => 7) =
      some (.shkey 4, afterInsert (afterInsert countingStore nextBucketKey
        fun _ => 8) (fun _ => 0) fun _ => 7) :=
    step_insert_of_fresh hissued hsound hroom' hfour _ _
  have hsound' := sound_afterInsert hsound hroom' (fun _ => 0) fun _ => 7
  have hrun : run (gshmStep shmpScheme 0) countingStore
      [.insert nextBucketKey fun _ => 8, .insert (fun _ => 0) fun _ => 7] =
      some ([.shkey 2, .shkey 4], afterInsert (afterInsert countingStore
        nextBucketKey fun _ => 8) (fun _ => 0) fun _ => 7) := by
    rw [run_cons_of_step hfirst, run_cons_of_step hsecond]
    rfl
  have hisolates := shmp_tokens_isolate_keys 0 (fun _ => 0) (fun i => i + 1) 0
    false ⟨2 ^ 46, by decide, by decide⟩ (some 1) (by decide) 256 (by decide)
    (fun _ => rfl) _ (by simp [IsolationCall]) _ _ hrun hfour (fun _ => 0)
    nextBucketKey (fun heq => absurd (congrFun heq 0) (by decide))
    (fun _ => 7) 4 (by simp)
  refine ⟨_, hrun, fun buf => hisolates.1 buf fun r g' hget => ?_,
    fun value => hisolates.2 value fun b g' hupdate => ?_⟩
  · rw [get_of_sound hsound'] at hget
    split at hget
    case isTrue =>
      cases hget
      exact hfresh.mono (randCalls_lookedUp_le _ _ _)
    case isFalse =>
      cases hget
      exact hfresh.mono (randCalls_lookedUp_le _ _ _)
  · rw [update_of_sound hsound'] at hupdate
    split at hupdate
    case isTrue =>
      cases hupdate
      exact hfresh.mono (randCalls_lookedUp_le _ _ _)
    case isFalse =>
      cases hupdate
      rw [Gshm.writeCxl_randCalls]
      exact hfresh.mono (randCalls_lookedUp_le _ _ _)

end SHMemora.Ports
