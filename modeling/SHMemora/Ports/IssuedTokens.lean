import SHMemora.Ports.ProbeRounds
import SHMemora.Ports.StoreFleet

/-!
# Authenticated tokens

With `use_mac` a token of `gshmp_256.cpp` carries the SHA-256 digest of its id
and of the secret key.  None of the access functions computes the digest again:
they look the token up, all 40 bytes of it.  So what makes a token good is that
only `acquire` enters tokens into the table.  `Ledger` keeps the list of all
tokens that `acquire` has returned next to the objects, and `LedgerSound` is
the invariant: a valid slot holds one of them.  Slots that were revoked or
cleared keep their tokens, but only `insert_protection_entry` makes a slot
valid again, and it writes the new token over the old one.

`issuedBy` counts the tokens of a call by its calls of `rand()`, two for each
token; `Returned.eq_issuedBy` says that those are the tokens the acquisitions
return.

## Main result

* `only_issued_tokens` — in every state that calls in any order lead to, valid
  slots hold authenticated tokens that were issued, and every other token is
  refused by all access functions.
-/

namespace SHMemora.Ports

open SHMemora.Verified.ByteMemory
open SHMemora.Verified.StepRun

/-! ## What valid slots hold -/

section Recorded

variable {τ : Type} [DecidableEq τ] {n : Nat} [NeZero n]
variable {S : TokenScheme τ n} {P Q : τ → Prop} {table : ProtectionTable τ n}

/-- The tokens in valid slots satisfy a predicate. -/
def Recorded (P : τ → Prop) (table : ProtectionTable τ n) : Prop :=
  ∀ i, (table i).valid = true → P (table i).shkey

omit [DecidableEq τ] [NeZero n] in
theorem Recorded.mono (h : Recorded P table) (himp : ∀ t, P t → Q t) :
    Recorded Q table :=
  fun i hvalid => himp _ (h i hvalid)

omit [DecidableEq τ] [NeZero n] in
/-- A slot filled with a token. -/
theorem Recorded.update (h : Recorded P table) {shkey : τ} (hP : P shkey)
    (i : Fin n) (entry : ProtectionEntry) :
    Recorded P (Function.update table i ⟨shkey, entry, true⟩) := by
  intro k hvalid
  by_cases hk : k = i
  · rw [hk, Function.update_self]
    exact hP
  · rw [Function.update_of_ne hk] at hvalid ⊢
    exact h k hvalid

/-- An insertion enters its token or nothing. -/
theorem Recorded.insert (h : Recorded P table) {shkey : τ} (hP : P shkey)
    (offset size : Nat) (permission : BitVec 32) :
    Recorded P
      (insertProtectionEntry S table shkey offset size permission).2 := by
  rw [insertProtectionEntry_eq]
  split
  · exact h
  · split
    · exact h.update hP _ _
    · exact h

omit [DecidableEq τ] [NeZero n] in
theorem Recorded.invalidate (h : Recorded P table) (i : Fin n) :
    Recorded P (invalidate table i) := by
  intro k hvalid
  by_cases hk : k = i
  · rw [Ports.invalidate, hk, Function.update_self] at hvalid
    contradiction
  · rw [Ports.invalidate, Function.update_of_ne hk] at hvalid ⊢
    exact h k hvalid

theorem Recorded.revoke (h : Recorded P table) (shkey : τ) :
    Recorded P (revokeCxl S table shkey).2 := by
  by_cases hkey : shkey = S.globalKey
  · rw [hkey, revokeCxl_globalKey]
    exact h.invalidate _
  · rw [revokeCxl_eq hkey]
    split
    · exact h
    · exact h.invalidate _

omit [DecidableEq τ] [NeZero n] in
/-- A cleared table has no valid slot. -/
theorem recorded_clear (S : TokenScheme τ n) (P : τ → Prop)
    (table : ProtectionTable τ n) :
    Recorded P (clearProtectionTable S table) := by
  intro i hvalid
  have hclear := S.clearSlot_valid (table i)
  rw [show clearProtectionTable S table i = S.clearSlot (table i) from rfl,
    hclear] at hvalid
  contradiction

/-- **Acquisitions enter the tokens they return.** -/
theorem Returned.recorded {g g' : Gshm τ n} {tokens : List τ}
    (h : Returned S g tokens g') (hP : Recorded P g.table)
    (htokens : ∀ t ∈ tokens, P t) : Recorded P g'.table := by
  induction h with
  | done hsame =>
      rw [hsame.table_eq]
      exact hP
  | @acquire g g₁ g' tokens hsame offset size permission _ ih =>
      rw [← hsame.table_eq] at hP
      have hhead := htokens _ List.mem_cons_self
      exact ih (hP.insert hhead offset size _)
        fun t ht => htokens t (List.mem_cons_of_mem _ ht)

/-- A token that is in no valid slot is refused by everything. -/
theorem Recorded.refusesAll (h : Recorded P table) {shkey : τ}
    (hkey : shkey ≠ S.globalKey) (hP : ¬ P shkey) :
    RefusesAll S table shkey := by
  apply refusesAll_of_find hkey
  cases hfind : find S table shkey with
  | none => rfl
  | some i =>
      have hheld := h i (valid_of_find hfind)
      rw [shkey_of_find hfind] at hheld
      exact absurd hheld hP

end Recorded

/-! ## The tokens of `gshmp_256.cpp` -/

section Sha

variable (sha256 : List UInt8 → Vector UInt8 32)

/-- The stores of `gshmp_256.cpp`. -/
abbrev Shmp256Store := Gshm Shkey256 hashTableSize

/-- The digest in a token is that of its id and of the secret key. -/
def Authentic (t : Shkey256) : Prop :=
  t.hmac = sha256 (leBytes 8 t.tokenId.toNat ++
    leBytes 4 shkeySecretKey.toNat)

/-- What `generate_shkey` returns after `k` more calls of it; with a MAC each
of them calls `rand()` twice. -/
def nextToken (g : Shmp256Store) (k : Nat) : Shkey256 :=
  (generateShkey256 sha256 true fun i => g.rand (g.randCalls + 2 * k + i)).1

/-- The tokens issued from `g` up to `g'`. -/
def issuedBy (g g' : Shmp256Store) : List Shkey256 :=
  (List.range ((g'.randCalls - g.randCalls) / 2)).map (nextToken sha256 g)

variable {sha256}

theorem authentic_nextToken (g : Shmp256Store) (k : Nat) :
    Authentic sha256 (nextToken sha256 g k) := rfl

theorem authentic_of_mem_issuedBy {g g' : Shmp256Store} {t : Shkey256}
    (h : t ∈ issuedBy sha256 g g') : Authentic sha256 t := by
  obtain ⟨k, _, heq⟩ := List.mem_map.mp h
  rw [← heq]
  exact authentic_nextToken g k

theorem SameTokens.nextToken_eq {g g₁ : Shmp256Store} (h : SameTokens g g₁)
    (k : Nat) : nextToken sha256 g₁ k = nextToken sha256 g k := by
  rw [nextToken, nextToken, h.rand_eq, h.randCalls_eq]

variable (sha256) in
/-- An acquisition with a MAC. -/
theorem acquire_mac {g : Shmp256Store} (hmac : g.useMac = true)
    (offset size : Nat) (permission : UInt8) :
    (g.acquire (shmp256Scheme sha256) offset size permission).1 =
        nextToken sha256 g 0 ∧
      (g.acquire (shmp256Scheme sha256) offset size permission).2.randCalls =
        g.randCalls + 2 := by
  have hdraw : g.draw (shmp256Scheme sha256) =
      generateShkey256 sha256 true fun i => g.rand (g.randCalls + i) := by
    rw [← hmac]
    rfl
  refine ⟨?_, ?_⟩
  · rw [Gshm.acquire, hdraw]
    rfl
  · rw [Gshm.acquire_randCalls, hdraw]
    rfl

/-- **The tokens that the acquisitions return are the ones counted.** -/
theorem Returned.tokens_eq {g g' : Shmp256Store} {tokens : List Shkey256}
    (h : Returned (shmp256Scheme sha256) g tokens g')
    (hmac : g.useMac = true) :
    g'.randCalls = g.randCalls + 2 * tokens.length ∧
      tokens = (List.range tokens.length).map (nextToken sha256 g) := by
  induction h with
  | done hsame => exact ⟨hsame.randCalls_eq, rfl⟩
  | @acquire g g₁ g' tokens hsame offset size permission _ ih =>
      rw [← hsame.useMac_eq] at hmac
      obtain ⟨htoken, hcalls⟩ :=
        acquire_mac sha256 hmac offset size permission
      obtain ⟨hend, hrest⟩ := ih hmac
      have hlater : ∀ k, nextToken sha256 (g₁.acquire (shmp256Scheme sha256)
          offset size permission).2 k = nextToken sha256 g (k + 1) := by
        intro k
        rw [← hsame.nextToken_eq (k + 1), nextToken, nextToken, hcalls,
          Gshm.acquire_rand, Nat.mul_succ, Nat.add_right_comm _ 2,
          Nat.add_assoc g₁.randCalls]
      refine ⟨?_, ?_⟩
      · rw [hend, hcalls, hsame.randCalls_eq, List.length_cons]
        omega
      · rw [List.length_cons, List.range_succ_eq_map, List.map_cons,
          List.map_map, htoken, hsame.nextToken_eq]
        refine congrArg (nextToken sha256 g 0 :: ·) (hrest.trans ?_)
        exact List.map_congr_left fun k _ => hlater k

theorem Returned.eq_issuedBy {g g' : Shmp256Store} {tokens : List Shkey256}
    (h : Returned (shmp256Scheme sha256) g tokens g')
    (hmac : g.useMac = true) : tokens = issuedBy sha256 g g' := by
  obtain ⟨hcalls, htokens⟩ := h.tokens_eq hmac
  rw [issuedBy, hcalls, Nat.add_sub_cancel_left,
    Nat.mul_div_cancel_left _ (by decide)]
  exact htokens

/-! ## The ledger -/

variable {ι : Type} [DecidableEq ι]

/-- Objects on one shared memory and the tokens issued so far. -/
structure Ledger (ι : Type) where
  fleet : Fleet Shkey256 hashTableSize ι
  issued : List Shkey256

variable (sha256) in
/-- One call, with the tokens it issues. -/
def ledgerStep (fuel : Nat) (l : Ledger ι) (call : StoreCall ι Shkey256) :
    Option (Option (GshmResult Shkey256) × Ledger ι) :=
  let g := l.fleet.view call.member call.rand
  (callEnd (shmp256Scheme sha256) fuel g call.op).map fun r =>
    (r.1, ⟨l.fleet.leave call.member r.2, l.issued ++ issuedBy sha256 g r.2⟩)

omit [DecidableEq ι] in
variable (sha256) in
/-- New objects with `use_mac` over a zeroed table. -/
def Ledger.construct (data : Bytes) (batchKey : ι → Shkey256)
    (dataAddr : ι → DataAddr) (mac : ι → Option UInt8)
    (valueSize : ι → Nat) : Ledger ι where
  fleet := .construct (zeroTable (shmp256Scheme sha256)) data batchKey
    (fun _ => true) dataAddr mac valueSize
  issued := []

variable (sha256) in
/-- The table holds issued tokens only, and those are authenticated. -/
structure LedgerSound (l : Ledger ι) : Prop where
  useMac : ∀ i, (l.fleet.members i).useMac = true
  recorded : Recorded (· ∈ l.issued) l.fleet.table
  authentic : ∀ t ∈ l.issued, Authentic sha256 t

omit [DecidableEq ι] in
theorem LedgerSound.construct (data : Bytes) (batchKey : ι → Shkey256)
    (dataAddr : ι → DataAddr) (mac : ι → Option UInt8)
    (valueSize : ι → Nat) :
    LedgerSound sha256
      (.construct sha256 data batchKey dataAddr mac valueSize) := by
  refine ⟨fun i => rfl, fun i hvalid => ?_, fun t ht => ?_⟩
  · cases hvalid
  · cases ht

theorem Returned.useMac_eq {g g' : Shmp256Store} {tokens : List Shkey256}
    (h : Returned (shmp256Scheme sha256) g tokens g') :
    g'.useMac = g.useMac := by
  induction h with
  | done hsame => exact hsame.useMac_eq
  | acquire hsame offset size permission _ ih =>
      rw [ih, Gshm.acquire_useMac, hsame.useMac_eq]

/-- What a call does to the table and to `use_mac`. -/
theorem EndsIn.recorded {fuel : Nat} {g g' : Shmp256Store}
    {op : GshmOp Shkey256} (h : EndsIn (shmp256Scheme sha256) fuel g op g')
    (hmac : g.useMac = true) {P : Shkey256 → Prop} (hP : Recorded P g.table) :
    g'.useMac = true ∧
      Recorded (fun t => P t ∨ t ∈ issuedBy sha256 g g') g'.table := by
  by_cases hop : op.Invalidates
  · cases h with
    | exited key value heq _ =>
        rw [heq] at hop
        contradiction
    | returned result hstep =>
        cases op with
        | revokeCxl shkey =>
            cases hstep
            exact ⟨hmac, (hP.revoke shkey).mono fun t ht => .inl ht⟩
        | clear =>
            cases hstep
            exact ⟨hmac, recorded_clear (shmp256Scheme sha256) _ g.table⟩
        | _ => contradiction
  · obtain ⟨tokens, hreturned⟩ := h.returned_tokens hop
    have htokens := hreturned.eq_issuedBy hmac
    refine ⟨hreturned.useMac_eq.trans hmac, ?_⟩
    refine hreturned.recorded (hP.mono fun t ht => .inl ht) fun t ht => ?_
    rw [htokens] at ht
    exact .inr ht

/-- **Step lemma**. -/
theorem LedgerSound.step {l l' : Ledger ι} (h : LedgerSound sha256 l)
    {fuel : Nat} {call : StoreCall ι Shkey256}
    {result : Option (GshmResult Shkey256)}
    (hstep : ledgerStep sha256 fuel l call = some (result, l')) :
    LedgerSound sha256 l' := by
  obtain ⟨r, hend, heq⟩ := Option.map_eq_some_iff.mp hstep
  obtain ⟨hmac, hrecorded⟩ :=
    (callEnd_endsIn hend).recorded (h.useMac call.member) h.recorded
  cases heq
  refine ⟨fun i => ?_, hrecorded.mono fun t ht => ?_, fun t ht => ?_⟩
  · show (Function.update l.fleet.members call.member
      ⟨r.2.batchKey, r.2.useMac, r.2.self⟩ i).useMac = true
    by_cases hi : i = call.member
    · rw [hi, Function.update_self]
      exact hmac
    · rw [Function.update_of_ne hi]
      exact h.useMac i
  · exact List.mem_append.mpr ht
  · rcases List.mem_append.mp ht with hold | hnew
    · exact h.authentic t hold
    · exact authentic_of_mem_issuedBy hnew

variable (sha256) in
/-- Objects with `use_mac` make any calls, in any order, starting from a
zeroed table.  In the state they lead to every valid slot holds a token whose
digest is that of its id and the secret key and which an `acquire` has
returned.  A token other than `global_key` that differs from all tokens issued
in its id or in a byte of its digest is refused by `read_cxl`, `write_cxl`,
`compare_cxl` and `revoke_cxl`, without any effect.  No access leads round into
the table itself: ranges and chains are `BelowTable`. -/
theorem only_issued_tokens (fuel : Nat) (data : Bytes)
    (batchKey : ι → Shkey256) (dataAddr : ι → DataAddr)
    (mac : ι → Option UInt8) (valueSize : ι → Nat)
    (calls : List (StoreCall ι Shkey256))
    {results : List (Option (GshmResult Shkey256))} {l : Ledger ι}
    (hrun : run (ledgerStep sha256 fuel)
      (.construct sha256 data batchKey dataAddr mac valueSize) calls =
        some (results, l)) :
    (∀ i, (l.fleet.table i).valid = true →
      Authentic sha256 (l.fleet.table i).shkey ∧
        (l.fleet.table i).shkey ∈ l.issued) ∧
    ∀ t, t ≠ zeroShkey256 →
      (∀ u ∈ l.issued, t.tokenId ≠ u.tokenId ∨
        ∃ k, ∃ hk : k < 32, t.hmac[k] ≠ u.hmac[k]) →
      RefusesAll (shmp256Scheme sha256) l.fleet.table t := by
  have hsound : LedgerSound sha256 l := run_invariant
    (fun l call result l' h hstep => h.step hstep)
    (.construct data batchKey dataAddr mac valueSize) hrun
  refine ⟨fun i hvalid => ?_, fun t hkey hnew => ?_⟩
  · have hissued := hsound.recorded i hvalid
    exact ⟨hsound.authentic _ hissued, hissued⟩
  · refine hsound.recorded.refusesAll hkey fun hissued => ?_
    rcases hnew t hissued with hid | ⟨k, hk, hbyte⟩
    · exact hid rfl
    · exact hbyte rfl

end Sha

/-- Digests whose bytes are all 7. -/
def sevens (_ : List UInt8) : Vector UInt8 32 := Vector.replicate 32 7

/-- One object, which has asked for ten bytes. -/
def oneAcquired : Ledger Unit :=
  let l := Ledger.construct sevens (fun _ => 0) (fun _ => zeroShkey256)
    (fun _ => Instance.firstHost.dataAddr) (fun _ => some 1) fun _ => 256
  let g := l.fleet.view () fun i => i + 1
  let g' := (g.acquire (shmp256Scheme sevens) 5 10 3).2
  ⟨l.fleet.leave () g', issuedBy sevens g g'⟩

/-- A token with the id of the one issued but another digest. -/
theorem only_issued_tokens_forged :
    RefusesAll (shmp256Scheme sevens) oneAcquired.fleet.table
      ⟨4294967298, Vector.replicate 32 8⟩ := by
  refine (only_issued_tokens sevens 0 (fun _ => 0) (fun _ => zeroShkey256)
    (fun _ => Instance.firstHost.dataAddr) (fun _ => some 1) (fun _ => 256)
    [⟨(), .acquire 5 10 3, fun i => i + 1⟩] (l := oneAcquired) rfl).2 _
    (by decide) fun u hu => .inr ?_
  have hu' := authentic_of_mem_issuedBy hu
  refine ⟨0, by decide, ?_⟩
  rw [hu']
  show (Vector.replicate 32 (8 : UInt8))[0] ≠
    (Vector.replicate 32 (7 : UInt8))[0]
  decide

end SHMemora.Ports
