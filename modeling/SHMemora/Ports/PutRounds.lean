import SHMemora.Ports.FreshTokens
import SHMemora.Ports.LayoutCalls

/-!
# The rounds of `put`

In `gshmp.cpp` the loop of `put` draws a token for every entry it comes to, and
reads the key and the next pointer with it.  Where the token is refused,
`compare_cxl` reports a difference and `read_cxl` leaves the variable as it is.
So the loop is at the same entry again, draws another token, and goes on like
this until one of them is accepted.

`LetsPass` says of a token that it takes the loop on, by the regions that are
bound before the draw.  On a sound memory one such token ends the loop.

## Main result

* `put_endless_iff` — when `put` never returns.
-/

namespace SHMemora.Ports

open SHMemora.Verified.ByteMemory

/-! ## One round -/

section Rounds

variable {τ : Type} [DecidableEq τ] {n : Nat} [NeZero n]
variable {S : TokenScheme τ n} {g : Gshm τ n} {key : Key} {value : Bytes}
  {entry fuel : Nat} {t : τ}

/-- The token takes the loop on from an entry. -/
def TakesOn (S : TokenScheme τ n) (g : Gshm τ n) (key : Key) (entry : Nat)
    (t : τ) : Prop :=
  Accepted S g .read (wrap (entry + 320)) 8 t ∨
    keyAt g.data entry = key ∧ Accepted S g .compare entry 64 t

theorem compareCxl_eq_zero_iff :
    g.compareCxl S entry 64 key.buf t = 0 ↔
      Accepted S g .compare entry 64 t ∧ keyAt g.data entry = key := by
  constructor
  · intro h
    refine ⟨?_, keyAt_of_compareCxl h⟩
    rw [Gshm.compareCxl] at h
    split at h
    · contradiction
    · next i hi => exact ⟨i, hi⟩
  · intro h
    obtain ⟨⟨i, hi⟩, hmatch⟩ := h
    have haccess : compareAccess S g.table entry 64 t = .ok i := hi
    rw [Gshm.compareCxl, haccess]
    exact safeMemcmp_key_iff.mpr hmatch

/-- A word is read where the access is accepted. -/
theorem readWord_of_accepted {offset init : Nat}
    (h : Accepted S g .read offset 8 t) :
    g.readWord S offset init t = loadWord g.data offset := by
  rw [Gshm.readWord, readCxl_of_accepted h]
  exact word_fetch _ _ _

theorem readWord_of_refused {offset init : Nat} (hinit : init < 2 ^ 64)
    (h : ¬ Accepted S g .read offset 8 t) :
    g.readWord S offset init t = init := by
  rw [Gshm.readWord, readCxl_of_refused h]
  exact (word_ofWord init).trans (wrap_of_lt hinit)

variable (S) in
/-- The store behind the next draw of the loop. -/
abbrev nextRound (entry : Nat) (g : Gshm τ n) : Gshm τ n :=
  (g.acquire S entry 328 3).2

/-- **A refused token costs a round** and leaves the loop where it is. -/
theorem putLoop_of_refused (hne : entry ≠ 0) (hlt : entry < 2 ^ 64)
    (h : ¬ TakesOn S (nextRound S entry g) key entry
      (g.acquire S entry 328 3).1) :
    g.putLoop S key value (fuel + 1) entry =
      (nextRound S entry g).putLoop S key value fuel entry := by
  simp only [TakesOn, not_or, not_and] at h
  have hcompare : ¬ (nextRound S entry g).compareCxl S entry 64 key.buf
      (g.acquire S entry 328 3).1 = 0 := by
    intro hzero
    obtain ⟨haccept, hmatch⟩ := compareCxl_eq_zero_iff.mp hzero
    exact h.2 hmatch haccept
  rw [Gshm.putLoop, if_neg hne]
  simp only [if_neg hcompare]
  rw [readWord_of_refused hlt h.1]

/-- At the last entry of a chain an accepted token ends the loop. -/
theorem putLoop_of_takesOn (hne : entry ≠ 0)
    (hlast : loadWord g.data (wrap (entry + 320)) = 0)
    (h : TakesOn S (nextRound S entry g) key entry
      (g.acquire S entry 328 3).1) (value : Bytes) (fuel : Nat) :
    ∃ r, g.putLoop S key value (fuel + 2) entry = some r := by
  rw [Gshm.putLoop, if_neg hne]
  by_cases hcompare : (nextRound S entry g).compareCxl S entry 64 key.buf
      (g.acquire S entry 328 3).1 = 0
  · simp only [if_pos hcompare]
    exact ⟨_, rfl⟩
  · have hread := h.resolve_right fun hfound =>
      hcompare (compareCxl_eq_zero_iff.mpr hfound.symm)
    simp only [if_neg hcompare]
    rw [readWord_of_accepted hread, Gshm.acquire_data, hlast, Gshm.putLoop,
      if_pos rfl]
    exact ⟨_, rfl⟩

@[simp] theorem nextRound_iterate_data (k : Nat) :
    ((nextRound S entry)^[k] g).data = g.data := by
  induction k with
  | zero => rfl
  | succ k ih => rw [Function.iterate_succ_apply', Gshm.acquire_data, ih]

@[simp] theorem nextRound_iterate_rand (k : Nat) :
    ((nextRound S entry)^[k] g).rand = g.rand := by
  induction k with
  | zero => rfl
  | succ k ih =>
      rw [Function.iterate_succ_apply']
      exact ih

@[simp] theorem nextRound_iterate_useMac (k : Nat) :
    ((nextRound S entry)^[k] g).useMac = g.useMac := by
  induction k with
  | zero => rfl
  | succ k ih =>
      rw [Function.iterate_succ_apply']
      exact ih

/-- **The loop never ends if and only if no token takes it on.** -/
theorem putLoop_endless_iff (hne : entry ≠ 0) (hlt : entry < 2 ^ 64)
    (hlast : loadWord g.data (wrap (entry + 320)) = 0) :
    (∀ fuel, g.putLoop S key value fuel entry = none) ↔
      ∀ k, ¬ TakesOn S ((nextRound S entry)^[k + 1] g) key entry
        (((nextRound S entry)^[k] g).acquire S entry 328 3).1 := by
  constructor
  · intro hnone k
    induction k generalizing g with
    | zero =>
        intro htakes
        obtain ⟨r, hr⟩ := putLoop_of_takesOn hne hlast htakes value 0
        rw [hnone 2] at hr
        cases hr
    | succ k ih =>
        have hfirst : ¬ TakesOn S (nextRound S entry g) key entry
            (g.acquire S entry 328 3).1 := by
          intro htakes
          obtain ⟨r, hr⟩ := putLoop_of_takesOn hne hlast htakes value 0
          rw [hnone 2] at hr
          cases hr
        have hlast' : loadWord (nextRound S entry g).data
            (wrap (entry + 320)) = 0 := by rwa [Gshm.acquire_data]
        have hnext := ih hlast' fun fuel => by
          rw [← putLoop_of_refused hne hlt hfirst]
          exact hnone (fuel + 1)
        simpa only [Function.iterate_succ_apply] using hnext
  · intro hrefused fuel
    induction fuel generalizing g with
    | zero => rfl
    | succ fuel ih =>
        rw [putLoop_of_refused hne hlt (hrefused 0)]
        refine ih (by rwa [Gshm.acquire_data]) fun k => ?_
        have hnext := hrefused (k + 1)
        simpa only [Function.iterate_succ_apply] using hnext

end Rounds

/-! ## The regions that are bound -/

section Bound

variable {g : ShmpStore} {m : TokenMap UInt16} {key : Key} {t : UInt16}

/-- The token of a draw. -/
theorem acquire_fst (g : ShmpStore) (offset size : Nat) (permission : UInt8) :
    (g.acquire shmpScheme offset size permission).1 =
      tokenAt g.useMac g.rand g.randCalls := rfl

/-- What the regions of a map say about reading a range with a token. -/
def Admits (m : TokenMap UInt16) (t : UInt16) (offset size : Nat) : Prop :=
  t = 0 ∨ ∃ region, m t = some region ∧ region.refusal 1 offset size = none

theorem accepted_iff_admits (h : Represents shmpScheme g.table m)
    {kind : AccessKind} (hkind : kind ≠ .write) {offset size : Nat} :
    Accepted shmpScheme g kind offset size t ↔ Admits m t offset size := by
  have hnull : ¬ NullWrite g.self.dataAddr.addr kind offset :=
    fun hnull => hkind hnull.1
  have hbit : kind.bit = 1 := by
    cases kind <;> first | rfl | exact absurd rfl hkind
  by_cases hkey : t = 0
  · rw [hkey]
    refine ⟨fun _ => .inl rfl, fun _ => ?_⟩
    exact ⟨_, access_globalKey_eq_ok_iff.mpr ⟨rfl, hnull⟩⟩
  · rw [Accepted, exists_access_iff hkey, Admits, or_iff_right hkey,
      h.binding_eq hashFunction_injective, hbit]
    simp only [hnull, not_false_eq_true, and_true]

/-- The map behind a draw: a new token gets the region. -/
def drawMap (m : TokenMap UInt16) (t : UInt16) (offset size : Nat) :
    TokenMap UInt16 :=
  (m.insert t (request offset size 3)).2

theorem represents_acquire (h : Represents shmpScheme g.table m)
    (offset size : Nat) :
    Represents shmpScheme (g.acquire shmpScheme offset size 3).2.table
      (drawMap m (tokenAt g.useMac g.rand g.randCalls) offset size) :=
  (h.insert hashFunction_injective _ offset size _).2

/-- Behind a draw the token opens its range if it is new. -/
theorem admits_drawMap {offset size o s : Nat} (hsize : 0 < size)
    (hend : offset + size < 2 ^ 64) (hlo : offset ≤ o)
    (hhi : o + s ≤ offset + size) :
    Admits (drawMap m t offset size) t o s ↔ m t = none ∨ Admits m t o s := by
  have hrequest : (request offset size 3).refusal 1 o s = none := by
    have hoffset : (request offset size 3).offset = offset :=
      wrap_of_lt (by omega)
    have hlength : (request offset size 3).size = size := wrap_of_lt (by omega)
    refine ProtectionEntry.refusal_eq_none_iff.mpr ⟨by omega, by omega, ?_, ?_⟩
    · rw [hoffset, hlength, wrap_of_lt (by omega), wrap_of_lt hend]
      exact hhi
    · show BitVec.ofNat 32 (3 : UInt8).toNat &&& 1 ≠ 0
      decide
  unfold Admits drawMap TokenMap.insert
  cases hm : m t with
  | none =>
      have hbound : Function.update m t (some (request offset size 3)) t =
          some (request offset size 3) := Function.update_self _ _ _
      exact ⟨fun _ => .inl rfl, fun _ => .inr ⟨_, hbound, hrequest⟩⟩
  | some region => simp [hm]

/-- The token lets the loop of `put` pass an entry, by the regions bound before
the draw. -/
def LetsPass (m : TokenMap UInt16) (data : Bytes) (key : Key) (entry : Nat)
    (t : UInt16) : Prop :=
  m t = none ∨ Admits m t (entry + 320) 8 ∨
    keyAt data entry = key ∧ Admits m t entry 64

variable {entry : Nat}

theorem takesOn_iff_letsPass (h : Represents shmpScheme g.table m)
    (hend : entry + 328 ≤ 2 ^ 63) :
    TakesOn shmpScheme (nextRound shmpScheme entry g) key entry
        (tokenAt g.useMac g.rand g.randCalls) ↔
      LetsPass m g.data key entry (tokenAt g.useMac g.rand g.randCalls) := by
  have hnext := represents_acquire h entry 328
  rw [TakesOn, accepted_iff_admits hnext (by simp),
    accepted_iff_admits hnext (by simp), Gshm.acquire_data,
    wrap_of_lt (by omega), admits_drawMap (by omega) (by omega) (by omega)
      (by omega), admits_drawMap (by omega) (by omega) (by omega) (by omega),
    LetsPass]
  tauto

/-- A token that does not let the loop pass is bound, and drawing it changes
nothing. -/
theorem drawMap_of_not_letsPass {data : Bytes}
    (h : ¬ LetsPass m data key entry t) (offset size : Nat) :
    drawMap m t offset size = m := by
  unfold drawMap TokenMap.insert
  cases hm : m t with
  | none => exact absurd (.inl hm) h
  | some region => rfl

variable {data : Bytes} {value : Bytes}

/-- While no token lets the loop pass, the bindings stay as they are. -/
theorem represents_nextRound (h : Represents shmpScheme g.table m) {k : Nat}
    (hblocked : ∀ j < k, ¬ LetsPass m data key entry
      (tokenAt g.useMac g.rand (g.randCalls + j))) :
    Represents shmpScheme ((nextRound shmpScheme entry)^[k] g).table m ∧
      ((nextRound shmpScheme entry)^[k] g).randCalls = g.randCalls + k := by
  induction k with
  | zero => exact ⟨h, rfl⟩
  | succ k ih =>
      obtain ⟨hrep, hcalls⟩ := ih fun j hj => hblocked j (by omega)
      have hnext := represents_acquire hrep entry 328
      rw [nextRound_iterate_rand, nextRound_iterate_useMac, hcalls,
        drawMap_of_not_letsPass (hblocked k (Nat.lt_succ_self k))] at hnext
      rw [Function.iterate_succ_apply', randCalls_acquire, hcalls]
      exact ⟨hnext, rfl⟩

/-- The loop on the one entry of a bucket, by the regions bound. -/
theorem putLoop_endless_iff_blocked (h : Represents shmpScheme g.table m)
    (hne : entry ≠ 0) (hend : entry + 328 ≤ 2 ^ 63)
    (hlast : loadWord g.data (wrap (entry + 320)) = 0) :
    (∀ fuel, g.putLoop shmpScheme key value fuel entry = none) ↔
      ∀ k, ¬ LetsPass m g.data key entry
        (tokenAt g.useMac g.rand (g.randCalls + k)) := by
  -- up to the first token that lets the loop pass, both are about `m`
  have hround : ∀ k, (∀ j < k, ¬ LetsPass m g.data key entry
        (tokenAt g.useMac g.rand (g.randCalls + j))) →
      (TakesOn shmpScheme ((nextRound shmpScheme entry)^[k + 1] g) key entry
          (((nextRound shmpScheme entry)^[k] g).acquire shmpScheme entry 328
            3).1 ↔
        LetsPass m g.data key entry
          (tokenAt g.useMac g.rand (g.randCalls + k))) := by
    intro k hblocked
    obtain ⟨hrep, hcalls⟩ := represents_nextRound h hblocked
    have htakes : TakesOn shmpScheme _ key entry _ ↔ _ :=
      takesOn_iff_letsPass hrep hend
    rw [nextRound_iterate_rand, nextRound_iterate_useMac,
      nextRound_iterate_data, hcalls] at htakes
    rw [Function.iterate_succ_apply', acquire_fst, nextRound_iterate_rand,
      nextRound_iterate_useMac, hcalls]
    exact htakes
  rw [putLoop_endless_iff hne (by omega) hlast]
  constructor
  · intro hrefused k
    induction k using Nat.strong_induction_on with
    | _ k ih => exact fun hpass => hrefused k ((hround k ih).mpr hpass)
  · intro hblocked k htakes
    exact hblocked k ((hround k fun j _ => hblocked j).mp htakes)

end Bound

/-! ## `put` -/

section Put

variable {g : ShmpStore} {m : TokenMap UInt16}

/-- What is behind the loop returns. -/
theorem putNew_returns (g : ShmpStore) (t : UInt16) (key : Key)
    (value : Bytes) :
    ∃ b g', g.putNew shmpScheme t key value = .returned b g' := by
  rw [Gshm.putNew]
  split <;> exact ⟨_, _, rfl⟩

/-- `put` does not return where its loop does not end. -/
theorem put_running_iff (g : ShmpStore) (fuel : Nat) (key : Key)
    (value : Bytes) :
    g.put shmpScheme fuel key value = .running ↔
      (g.acquire shmpScheme (entryOffset key) 8 3).2.putLoop shmpScheme key
        value fuel ((g.acquire shmpScheme (entryOffset key) 8 3).2.readWord
          shmpScheme (entryOffset key) 0
          (g.acquire shmpScheme (entryOffset key) 8 3).1) = none := by
  rw [Gshm.put]
  split
  case h_1 hloop => simp [hloop]
  case h_2 hloop => simp [hloop]
  case h_3 g' hloop =>
    obtain ⟨b, g'', hnew⟩ := putNew_returns g'
      (g.acquire shmpScheme (entryOffset key) 8 3).1 key value
    simp [hloop, hnew]

/-- `put` never returns, however many tokens it draws, if and only if the
bucket is not empty, its first token opens the bucket word, and every token
behind it is bound already and lets the loop pass at neither the key nor the
next pointer of the entry. -/
theorem put_endless_iff (h : Represents shmpScheme g.table m)
    (hsound : Sound g.self g.data) (hsize : g.self.valueSize = 256)
    (key : Key) (value : Bytes) :
    (∀ fuel, g.put shmpScheme fuel key value = .running) ↔
      bucket g.data key ≠ 0 ∧
      (m (tokenAt g.useMac g.rand g.randCalls) = none ∨
        Admits m (tokenAt g.useMac g.rand g.randCalls) (entryOffset key) 8) ∧
      ∀ k, ¬ LetsPass (drawMap m (tokenAt g.useMac g.rand g.randCalls)
          (entryOffset key) 8) g.data key (bucket g.data key)
        (tokenAt g.useMac g.rand (g.randCalls + 1 + k)) := by
  have hbucket := entryOffset_add_le key
  have hrep := represents_acquire h (entryOffset key) 8
  have hopens : Accepted shmpScheme
      (g.acquire shmpScheme (entryOffset key) 8 3).2 .read (entryOffset key) 8
        (tokenAt g.useMac g.rand g.randCalls) ↔ _ :=
    (accepted_iff_admits hrep (by simp)).trans
      (admits_drawMap (by omega) (by omega) (Nat.le_refl _) (Nat.le_refl _))
  simp only [put_running_iff, acquire_fst]
  by_cases hfirst : m (tokenAt g.useMac g.rand g.randCalls) = none ∨
      Admits m (tokenAt g.useMac g.rand g.randCalls) (entryOffset key) 8
  · rw [readWord_of_accepted (hopens.mpr hfirst), Gshm.acquire_data]
    show (∀ fuel, Gshm.putLoop shmpScheme key value fuel _
      (bucket g.data key) = none) ↔ _
    by_cases hzero : bucket g.data key = 0
    · refine ⟨fun hnone => ?_, fun hall => absurd hzero hall.1⟩
      have hone := hnone 1
      rw [Gshm.putLoop, if_pos hzero] at hone
      cases hone
    · have hholds := hsound.shape.entries key hzero
      have hend := hholds.block.end_le
      have hle := hsound.shape.nextFree_le
      have hlast := hholds.last
      rw [hsize] at hend hlast
      rw [putLoop_endless_iff_blocked hrep hzero (by omega) hlast]
      rw [randCalls_acquire, Gshm.acquire_data]
      exact ⟨fun hblocked => ⟨hzero, hfirst, hblocked⟩, fun hall => hall.2.2⟩
  · rw [readWord_of_refused (by omega) (mt hopens.mp hfirst)]
    refine ⟨fun hnone => ?_, fun hall => absurd hall.2.1 hfirst⟩
    have hone := hnone 1
    rw [Gshm.putLoop, if_pos rfl] at hone
    cases hone

/-- A source that returns one token from its third draw on. -/
def oneTokenStore : ShmpStore :=
  .construct shmpScheme (fun _ => 0) (fun i => if i = 1 then 2 else 1) 0 false
    .firstHost

/-- A key is inserted, and `put` draws the token of its bucket word for ever. -/
theorem put_endless_one_token :
    bucket (afterInsert oneTokenStore (fun _ => 0) fun _ => 7).data
        (fun _ => 0) = oneTokenStore.self.nextFreeOffset ∧
      ∀ fuel, (afterInsert oneTokenStore (fun _ => 0) fun _ => 7).put
        shmpScheme fuel (fun _ => 0) (fun _ => 8) = .running := by
  have hissued : Issued oneTokenStore fun _ => none :=
    issued_construct _ _ _ _ _
  have hsound : Sound oneTokenStore.self oneTokenStore.data :=
    sound_countingStore
  have hroom : HasRoom oneTokenStore.self := by decide
  have hfresh : FreshBelow oneTokenStore.useMac oneTokenStore.rand
      (oneTokenStore.randCalls + 2) := by
    unfold FreshBelow
    decide
  have hrep := (hissued.afterInsert (fun _ => 0) (fun _ => 7)
    hfresh).represents
  have hcalls : (afterInsert oneTokenStore (fun _ => 0)
      fun _ => 7).randCalls = 2 := randCalls_afterDraws _ _
  have hbucket : bucket (afterInsert oneTokenStore (fun _ => 0)
      fun _ => 7).data (fun _ => 0) = oneTokenStore.self.nextFreeOffset := by
    have hentry := entryOf_afterInsert hsound hroom (fun _ => 0) fun _ => 7
    rw [← hentry]
    exact (entryOf_eq_bucket (by rw [hentry]; decide)).1.symm
  have hbound : insertMap oneTokenStore (fun _ => none) (fun _ => 0) 1 =
      some (request (2 ^ 26) 8 3) := by decide
  have htoken : ∀ k, tokenAt (afterInsert oneTokenStore (fun _ => 0)
      fun _ => 7).useMac (afterInsert oneTokenStore (fun _ => 0)
        fun _ => 7).rand (2 + k) = 1 := by
    intro k
    have hrand : ¬ 2 + k = 1 := by omega
    show UInt16.ofNat ((if 2 + k = 1 then 2 else 1) % keySpace) = 1
    rw [if_neg hrand]
    decide
  have hoffset : entryOffset (fun _ => 0) = 2 ^ 26 := by decide
  have hdraw : drawMap (insertMap oneTokenStore (fun _ => none) fun _ => 0) 1
      (2 ^ 26) 8 = insertMap oneTokenStore (fun _ => none) fun _ => 0 := by
    rw [drawMap, TokenMap.insert, hbound]
  -- the region of the token is the bucket word
  have hadmits : ∀ offset size, Admits (insertMap oneTokenStore
      (fun _ => none) fun _ => 0) 1 offset size →
      (request (2 ^ 26) 8 3).refusal 1 offset size = none := by
    rintro offset size (hzero | ⟨region, hregion, hrefusal⟩)
    · exact absurd hzero (by decide)
    · cases hbound.symm.trans hregion
      exact hrefusal
  refine ⟨hbucket, (put_endless_iff hrep (sound_afterInsert hsound hroom _ _)
    rfl _ _).mpr ⟨by rw [hbucket]; decide, ?_, fun k => ?_⟩⟩
  · rw [hcalls, htoken 0]
    exact .inr (.inr ⟨_, hbound, by decide⟩)
  · rw [hcalls, htoken 0, Nat.add_assoc, htoken (1 + k), hbucket, hoffset,
      hdraw]
    rintro (hnone | hnext | ⟨-, hkey⟩)
    · rw [hbound] at hnone
      cases hnone
    · exact absurd (hadmits _ _ hnext) (by decide)
    · exact absurd (hadmits _ _ hkey) (by decide)

end Put

end SHMemora.Ports
