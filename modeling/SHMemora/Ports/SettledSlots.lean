import SHMemora.Ports.TableThreads

/-!
# Lookups while slots are being filled

An insertion marks a slot valid before it stores the token and the region.
Until then the slot shows what the insertion before it has left, and a lookup
for the old token passes on a region that has been revoked.

`Settled` is the condition under which this does not happen: a slot is claimed
only while no insertion is filling it and no lookup is reading it, a lookup
passes its test of the token only while no insertion of another token is
filling the slot, and it reads the region only while none is.

## Main results

* `passed_region_granted` — in every run of such steps the region a lookup
  passes on was stored by one insertion of its token that has returned 0, and
  was not revoked before the lookup began.
* `not_passed_region_granted` — without the condition it can be a revoked one.
-/

namespace SHMemora.Ports

open SHMemora.Verified.ByteMemory
open SHMemora.Verified.StepRun
open SHMemora.Verified.ThreadPool

section Settled

variable {ι τ : Type} [DecidableEq ι] [DecidableEq τ] {n : Nat} [NeZero n]
  (S : TokenScheme τ n)

/-! ## Phases -/

namespace TablePhase

/-- The insertion that has not claimed a slot yet. -/
def waiting : TablePhase ι τ n → Option (InsertCall ι τ)
  | .claim call _ => some call
  | .testShkey call _ => some call
  | _ => none

/-- The insertion and the slot it is filling. -/
def fills : TablePhase ι τ n → Option (InsertCall ι τ × Fin n)
  | .storeShkey call i => some (call, i)
  | .storePentry call i => some (call, i)
  | _ => none

/-- The lookup or revocation that is still searching. -/
def searches : TablePhase ι τ n → Option (Query ι τ)
  | .loopValid query _ => some query
  | .loopShkey query _ => some query
  | .finalValid query _ => some query
  | .finalShkey query _ => some query
  | _ => none

/-- The lookup and the slot whose region it is reading. -/
def reads : TablePhase ι τ n → Option (Query ι τ × Fin n)
  | .regionSize query _ i _ => some (query, i)
  | .regionOffset query _ i _ => some (query, i)
  | .endOffset query _ i _ => some (query, i)
  | .endSize query _ i _ _ => some (query, i)
  | .permission query _ i _ => some (query, i)
  | _ => none

/-- What a lookup has read so far is the region of `call`. -/
def ReadsOf (call : InsertCall ι τ) : TablePhase ι τ n → Prop
  | .regionSize _ _ _ used => ∀ a ∈ used, a = some call
  | .regionOffset _ _ _ used =>
      (∀ a ∈ used, a = some call) ∧ call.pentry.size ≠ 0
  | .endOffset _ wanted _ used =>
      (∀ a ∈ used, a = some call) ∧ call.pentry.size ≠ 0 ∧
        ¬ wanted.offset < call.pentry.offset
  | .endSize _ wanted _ used start =>
      (∀ a ∈ used, a = some call) ∧ call.pentry.size ≠ 0 ∧
        ¬ wanted.offset < call.pentry.offset ∧
        start = call.pentry.offset
  | .permission _ wanted _ used =>
      (∀ a ∈ used, a = some call) ∧ call.pentry.size ≠ 0 ∧
        ¬ wanted.offset < call.pentry.offset ∧
        ¬ wrap (call.pentry.offset + call.pentry.size) <
          wrap (wanted.offset + wanted.size)
  | _ => True

end TablePhase

/-- Nothing is being filled in slot `i`. -/
def Unfilled (p : TablePool ι τ n) (i : Fin n) : Prop :=
  ∀ host call, (p.phase host).fills ≠ some (call, i)

/-- The condition on a turn: an insertion claims a slot that no insertion is
filling and no lookup is reading; a lookup passes the test of its token in a
slot that no insertion of another token is filling; it reads the region of a
slot that none is filling.  Lookups with `global_key` read no slot that
matters. -/
def Settled (p : TablePool ι τ n) (turn : ι × Option (HostCall τ)) : Prop :=
  match turn.2, p.phase turn.1 with
  | none, .claim _ i =>
      (p.shared.table i).valid = false → Unfilled p i ∧
        ∀ host query, (p.phase host).reads = some (query, i) →
          query.shkey = S.globalKey
  | none, .finalShkey query i =>
      query.purpose ≠ .revoke → (p.shared.table i).shkey = query.shkey →
        ∀ host call, (p.phase host).fills = some (call, i) →
          call.shkey = query.shkey
  | none, phase =>
      ∀ query i, phase.reads = some (query, i) →
        query.shkey ≠ S.globalKey → Unfilled p i
  | some _, _ => True

/-- A lookup passed on the region of one insertion of its token, which has
returned 0, allows the access, and had not been revoked by a `revoke_cxl` of the
token that returned before the lookup began. -/
def RegionGranted (σ : SharedTable ι τ n) (query : Query ι τ)
    (wanted : Wanted) (used : List (Option (InsertCall ι τ))) : Prop :=
  ∃ call ∈ σ.granted, call.shkey = query.shkey ∧
    (∀ a ∈ used, a = some call) ∧ (query.shkey, call) ∉ query.before ∧
    checkEntry S ⟨call.shkey, call.pentry, true⟩ wanted.bit wanted.offset
      wanted.size query.shkey = none

/-- What an event says about the region used. -/
def EventSound (o : TableEvent ι τ) (σ : SharedTable ι τ n) : Prop :=
  ∀ query wanted used, o = .passed query wanted used →
    query.shkey ≠ S.globalKey → RegionGranted S σ query wanted used

/-! ## The assertions -/

omit [DecidableEq ι] [DecidableEq τ] [NeZero n]

/-- The record agrees with the valid flags. -/
structure RecordSound (σ : SharedTable ι τ n) : Prop where
  id_lt : ∀ call ∈ σ.claimed, call.id < σ.calls
  claimedBy_mem : ∀ i call, σ.claimedBy i = some call → call ∈ σ.claimed
  claimedBy_inj : ∀ i j call, σ.claimedBy i = some call →
    σ.claimedBy j = some call → i = j
  revoked_mem : ∀ r ∈ σ.revoked, r.2 ∈ σ.claimed
  live : ∀ i, (σ.table i).valid = true → ∃ call,
    σ.claimedBy i = some call ∧ ∀ t, (t, call) ∉ σ.revoked

/-- Slot `i` shows the token and the region of `call`, which has returned. -/
structure Filled (σ : SharedTable ι τ n) (i : Fin n)
    (call : InsertCall ι τ) : Prop where
  granted : call ∈ σ.granted
  shkey : (σ.table i).shkey = call.shkey
  pentry : (σ.table i).pentry = call.pentry
  storedBy : σ.storedBy i = some call

/-- The assertions for a host in each of its phases. -/
structure HostSound (host : ι) (phase : TablePhase ι τ n)
    (σ : SharedTable ι τ n) : Prop where
  waiting : ∀ call, phase.waiting = some call →
    call.host = host ∧ call.id < σ.calls ∧ call ∉ σ.claimed
  filling : ∀ call i, phase.fills = some (call, i) →
    call.host = host ∧ σ.claimedBy i = some call
  searching : ∀ query, phase.searches = some query →
    query.before ⊆ σ.revoked
  valid : ∀ query i, phase = .finalShkey query i → ∃ call,
    σ.claimedBy i = some call ∧ ∀ t, (t, call) ∉ query.before
  reading : ∀ query i, phase.reads = some (query, i) →
    query.shkey ≠ S.globalKey → ∃ call, σ.claimedBy i = some call ∧
      call.shkey = query.shkey ∧ (∀ t, (t, call) ∉ query.before) ∧
      phase.ReadsOf call
  owned : ∀ i call, σ.claimedBy i = some call → call.host = host →
    Filled σ i call ∨ phase = .storeShkey call i ∨
      (phase = .storePentry call i ∧ (σ.table i).shkey = call.shkey)

variable {S} {host : ι} {phase : TablePhase ι τ n} {σ : SharedTable ι τ n}
  {call : InsertCall ι τ} {i : Fin n}

/-! ## What the effects do to the record -/

namespace RecordSound

variable (h : RecordSound σ)
include h

theorem begin : RecordSound { σ with calls := σ.calls + 1 } :=
  { h with id_lt := fun c hc => Nat.lt_succ_of_lt (h.id_lt c hc) }

/-- The insertion on record for a slot other than the one just claimed. -/
theorem claimedBy_of_claim (hnew : call ∉ σ.claimed) {j : Fin n}
    {c : InsertCall ι τ} (hj : j ≠ i)
    (hc : (σ.claim call i).claimedBy j = some c) :
    σ.claimedBy j = some c ∧ c ≠ call := by
  rw [SharedTable.claim_claimedBy_of_ne hj] at hc
  exact ⟨hc, fun heq => hnew (heq ▸ h.claimedBy_mem j c hc)⟩

theorem claim (hnew : call ∉ σ.claimed) (hid : call.id < σ.calls) :
    RecordSound (σ.claim call i) := by
  have hself : (σ.claim call i).claimedBy i = some call :=
    SharedTable.claim_claimedBy_self
  refine ⟨fun c hc => ?_, fun j c hc => ?_, fun j k c hj hk => ?_,
    fun r hr => List.mem_cons_of_mem _ (h.revoked_mem r hr),
    fun j hj => ?_⟩
  · rcases List.mem_cons.mp hc with rfl | hc
    · exact hid
    · exact h.id_lt c hc
  · by_cases hji : j = i
    · rw [hji, hself] at hc
      cases hc
      exact List.mem_cons_self
    · have hold := h.claimedBy_of_claim hnew hji hc
      exact List.mem_cons_of_mem _ (h.claimedBy_mem j c hold.1)
  · by_cases hji : j = i
    · by_cases hki : k = i
      · rw [hji, hki]
      · rw [hji, hself] at hj
        cases hj
        exact absurd rfl (h.claimedBy_of_claim hnew hki hk).2
    · have hold := h.claimedBy_of_claim hnew hji hj
      by_cases hki : k = i
      · rw [hki, hself] at hk
        cases hk
        exact absurd rfl hold.2
      · exact h.claimedBy_inj j k c hold.1
          (h.claimedBy_of_claim hnew hki hk).1
  · by_cases hji : j = i
    · rw [hji]
      exact ⟨call, hself, fun t ht => hnew (h.revoked_mem _ ht)⟩
    · rw [SharedTable.claim_table_of_ne hji] at hj
      rw [SharedTable.claim_claimedBy_of_ne hji]
      exact h.live j hj

theorem storeShkey : RecordSound (σ.storeShkey call i) := by
  refine ⟨h.id_lt, h.claimedBy_mem, h.claimedBy_inj, h.revoked_mem,
    fun j hj => ?_⟩
  rw [SharedTable.storeShkey_valid] at hj
  exact h.live j hj

theorem storePentry : RecordSound (σ.storePentry call i) := by
  refine ⟨h.id_lt, h.claimedBy_mem, h.claimedBy_inj, h.revoked_mem,
    fun j hj => ?_⟩
  rw [SharedTable.storePentry_valid] at hj
  exact h.live j hj

theorem revoke (shkey : τ) : RecordSound (σ.revoke shkey i) := by
  refine ⟨h.id_lt, h.claimedBy_mem, h.claimedBy_inj, fun r hr => ?_,
    fun j hj => ?_⟩
  · rcases SharedTable.mem_revoke_iff.mp hr with hnew | hold
    · exact h.claimedBy_mem i r.2 hnew.2
    · exact h.revoked_mem r hold
  · by_cases hji : j = i
    · rw [hji, SharedTable.revoke_table_self] at hj
      cases hj
    · rw [SharedTable.revoke_table_of_ne hji] at hj
      rcases h.live j hj with ⟨c, hc, hlive⟩
      refine ⟨c, hc, fun t ht => ?_⟩
      rcases SharedTable.mem_revoke_iff.mp ht with hnew | hold
      · exact hji (h.claimedBy_inj j i c hc hnew.2)
      · exact hlive t hold

end RecordSound

/-! ## What the effects do to the assertions of the other hosts -/

namespace Filled

theorem claim {c : InsertCall ι τ} {j : Fin n} (h : Filled σ j c)
    (hj : j ≠ i) : Filled (σ.claim call i) j c := by
  refine ⟨h.granted, ?_, ?_, h.storedBy⟩
  · rw [SharedTable.claim_shkey]
    exact h.shkey
  · rw [SharedTable.claim_table_of_ne hj]
    exact h.pentry

theorem storeShkey {c : InsertCall ι τ} {j : Fin n} (h : Filled σ j c)
    (hj : j ≠ i) : Filled (σ.storeShkey call i) j c := by
  refine ⟨h.granted, ?_, ?_, h.storedBy⟩
  · rw [SharedTable.storeShkey_table_of_ne hj]
    exact h.shkey
  · rw [SharedTable.storeShkey_table_of_ne hj]
    exact h.pentry

theorem storePentry {c : InsertCall ι τ} {j : Fin n} (h : Filled σ j c)
    (hj : j ≠ i) : Filled (σ.storePentry call i) j c := by
  refine ⟨List.mem_cons_of_mem _ h.granted, ?_, ?_, ?_⟩
  · rw [SharedTable.storePentry_shkey]
    exact h.shkey
  · rw [SharedTable.storePentry_table_of_ne hj]
    exact h.pentry
  · rw [SharedTable.storePentry_storedBy_of_ne hj]
    exact h.storedBy

theorem revoke {c : InsertCall ι τ} {j : Fin n} (h : Filled σ j c)
    (shkey : τ) : Filled (σ.revoke shkey i) j c := by
  refine ⟨h.granted, ?_, ?_, h.storedBy⟩
  · rw [SharedTable.revoke_shkey]
    exact h.shkey
  · rw [SharedTable.revoke_pentry]
    exact h.pentry

end Filled

namespace HostSound

variable (h : HostSound S host phase σ)
include h

theorem begin : HostSound S host phase { σ with calls := σ.calls + 1 } := by
  refine ⟨fun c hc => ?_, h.filling, h.searching, h.valid, h.reading, ?_⟩
  · have hwait := h.waiting c hc
    exact ⟨hwait.1, Nat.lt_succ_of_lt hwait.2.1, hwait.2.2⟩
  · intro j c hj hhost
    rcases h.owned j c hj hhost with hfilled | hphase
    · exact .inl ⟨hfilled.granted, hfilled.shkey, hfilled.pentry,
        hfilled.storedBy⟩
    · exact .inr hphase

/-- Another host claims a slot that this one neither fills nor reads. -/
theorem claim (hrecord : RecordSound σ) (hhost : call.host ≠ host)
    (hnew : call ∉ σ.claimed) (hfree : ∀ c, phase.fills ≠ some (c, i))
    (hunread : ∀ query, phase.reads = some (query, i) →
      query.shkey = S.globalKey) :
    HostSound S host phase (σ.claim call i) := by
  refine ⟨fun c hc => ?_, fun c j hc => ?_, h.searching, fun query j hj => ?_,
    fun query j hj hkey => ?_, fun j c hj hown => ?_⟩
  · have hwait := h.waiting c hc
    refine ⟨hwait.1, hwait.2.1, fun hmem => ?_⟩
    rcases List.mem_cons.mp hmem with heq | hold
    · exact hhost (heq ▸ hwait.1)
    · exact hwait.2.2 hold
  · have hji : j ≠ i := fun heq => hfree c (heq ▸ hc)
    rw [SharedTable.claim_claimedBy_of_ne hji]
    exact h.filling c j hc
  · by_cases hji : j = i
    · rw [hji]
      refine ⟨call, SharedTable.claim_claimedBy_self, fun t ht => ?_⟩
      have hbefore := h.searching query (by rw [hj]; rfl)
      exact hnew (hrecord.revoked_mem _ (hbefore ht))
    · rw [SharedTable.claim_claimedBy_of_ne hji]
      exact h.valid query j hj
  · have hji : j ≠ i := fun heq => hkey (hunread query (heq ▸ hj))
    rw [SharedTable.claim_claimedBy_of_ne hji]
    exact h.reading query j hj hkey
  · have hji : j ≠ i := by
      intro heq
      rw [heq, SharedTable.claim_claimedBy_self] at hj
      cases hj
      exact hhost hown
    rw [SharedTable.claim_claimedBy_of_ne hji] at hj
    rw [SharedTable.claim_shkey]
    exact (h.owned j c hj hown).imp_left fun hfilled => hfilled.claim hji

/-- Another host stores its token in the slot it has claimed. -/
theorem storeShkey (hclaimed : σ.claimedBy i = some call)
    (hhost : call.host ≠ host) :
    HostSound S host phase (σ.storeShkey call i) := by
  refine ⟨h.waiting, h.filling, h.searching, h.valid, h.reading,
    fun j c hj hown => ?_⟩
  have hji : j ≠ i := by
    intro heq
    rw [heq] at hj
    rw [show σ.claimedBy i = some c from hj] at hclaimed
    cases hclaimed
    exact hhost hown
  rw [SharedTable.storeShkey_table_of_ne hji]
  exact (h.owned j c hj hown).imp_left fun hfilled => hfilled.storeShkey hji

/-- Another host stores its region in the slot it has claimed. -/
theorem storePentry (hclaimed : σ.claimedBy i = some call)
    (hhost : call.host ≠ host) :
    HostSound S host phase (σ.storePentry call i) := by
  refine ⟨h.waiting, h.filling, h.searching, h.valid, h.reading,
    fun j c hj hown => ?_⟩
  have hji : j ≠ i := by
    intro heq
    rw [heq] at hj
    rw [show σ.claimedBy i = some c from hj] at hclaimed
    cases hclaimed
    exact hhost hown
  rw [SharedTable.storePentry_shkey]
  exact (h.owned j c hj hown).imp_left fun hfilled => hfilled.storePentry hji

/-- Some host revokes what is in a slot. -/
theorem revoke (shkey : τ) : HostSound S host phase (σ.revoke shkey i) := by
  refine ⟨h.waiting, h.filling, fun query hquery r hr => ?_, h.valid,
    h.reading, fun j c hj hown => ?_⟩
  · exact SharedTable.mem_revoke_iff.mpr (.inr (h.searching query hquery hr))
  · rw [SharedTable.revoke_shkey]
    exact (h.owned j c hj hown).imp_left fun hfilled => hfilled.revoke shkey

/-- A host that is not filling a slot has filled those it has claimed. -/
theorem filled_of_idle (hfills : phase.fills = none) {j : Fin n}
    {c : InsertCall ι τ} (hc : σ.claimedBy j = some c)
    (hown : c.host = host) : Filled σ j c := by
  rcases h.owned j c hc hown with hfilled | hphase | hphase
  · exact hfilled
  · rw [hphase] at hfills
    cases hfills
  · rw [hphase.1] at hfills
    cases hfills

/-- The next phase of a host that has not changed the table. -/
theorem enter {next : TablePhase ι τ n} (hfills : phase.fills = none)
    (hwaiting : next.waiting = none ∨ next.waiting = phase.waiting)
    (hnext : next.fills = none)
    (hsearches : next.searches = none ∨ next.searches = phase.searches)
    (hvalid : ∀ query i, next = .finalShkey query i → ∃ call,
      σ.claimedBy i = some call ∧ ∀ t, (t, call) ∉ query.before)
    (hreading : ∀ query i, next.reads = some (query, i) →
      query.shkey ≠ S.globalKey → ∃ call, σ.claimedBy i = some call ∧
        call.shkey = query.shkey ∧ (∀ t, (t, call) ∉ query.before) ∧
        next.ReadsOf call) : HostSound S host next σ := by
  refine ⟨fun c hc => ?_, fun c j hc => ?_, fun query hquery => ?_, hvalid,
    hreading, fun j c hj hown => .inl (h.filled_of_idle hfills hj hown)⟩
  · rcases hwaiting with hnone | hsame
    · rw [hnone] at hc
      cases hc
    · exact h.waiting c (hsame ▸ hc)
  · rw [hnext] at hc
    cases hc
  · rcases hsearches with hnone | hsame
    · rw [hnone] at hquery
      cases hquery
    · exact h.searching query (hsame ▸ hquery)

/-- The end of a call. -/
theorem finish (hfills : phase.fills = none) :
    HostSound S host .idle σ :=
  h.enter hfills (.inl rfl) rfl (.inl rfl) (fun _ _ hne => by cases hne)
    fun _ _ hne => by cases hne

end HostSound

/-! ## One turn -/

/-- A lookup that reads is in none of the other groups of phases. -/
theorem TablePhase.of_reads {query : Query ι τ}
    (h : phase.reads = some (query, i)) :
    phase.waiting = none ∧ phase.fills = none ∧ phase.searches = none := by
  cases phase <;> cases h <;> exact ⟨rfl, rfl, rfl⟩

variable {p : TablePool ι τ n}

/-- The slot a lookup is reading shows the region of the insertion that has
claimed it. -/
theorem reading_filled (h : Annotated RecordSound (HostSound S) p)
    {query : Query ι τ} (hreads : (p.phase host).reads = some (query, i))
    (hkey : query.shkey ≠ S.globalKey) (hfree : Unfilled p i) :
    ∃ call, p.shared.claimedBy i = some call ∧ Filled p.shared i call ∧
      call.shkey = query.shkey ∧ (∀ t, (t, call) ∉ query.before) ∧
      (p.phase host).ReadsOf call := by
  rcases (h.each host).reading query i hreads hkey with
    ⟨call, hcall, hshkey, hbefore, hof⟩
  refine ⟨call, hcall, ?_, hshkey, hbefore, hof⟩
  rcases (h.each call.host).owned i call hcall rfl with hfilled | hphase |
    hphase
  · exact hfilled
  · exact absurd (by rw [hphase]; rfl) (hfree call.host call)
  · exact absurd (by rw [hphase.1]; rfl) (hfree call.host call)

/-- A lookup reads one more member of the region. -/
theorem reading_next (h : Annotated RecordSound (HostSound S) p)
    {query : Query ι τ} {next : TablePhase ι τ n}
    (hreads : (p.phase host).reads = some (query, i))
    (hsettled : query.shkey ≠ S.globalKey → Unfilled p i)
    (hnext : next.reads = some (query, i))
    (hof : query.shkey ≠ S.globalKey → ∀ call, Filled p.shared i call →
      (p.phase host).ReadsOf call → next.ReadsOf call) :
    HostSound S host next p.shared := by
  have hin := TablePhase.of_reads hreads
  have hout := TablePhase.of_reads hnext
  refine (h.each host).enter hin.2.1 (.inl hout.1) hout.2.1 (.inl hout.2.2)
    (fun query' j hphase => ?_) fun query' j hread hkey => ?_
  · rw [hphase] at hnext
    cases hnext
  · rw [hnext] at hread
    cases hread
    rcases reading_filled h hreads hkey (hsettled hkey) with
      ⟨call, hcall, hfilled, hshkey, hbefore, hread⟩
    exact ⟨call, hcall, hshkey, hbefore, hof hkey call hfilled hread⟩

/-- One more member read from the slot of `call`. -/
theorem Filled.used {used : List (Option (InsertCall ι τ))}
    (h : Filled σ i call) (hused : ∀ a ∈ used, a = some call) :
    ∀ a ∈ σ.storedBy i :: used, a = some call := by
  intro a ha
  rcases List.mem_cons.mp ha with rfl | hmem
  · exact h.storedBy
  · exact hused a hmem

variable [DecidableEq τ]

/-- A turn after which the host has no call under way, with a result that is
not `passed`. -/
theorem turn_finish (h : Annotated RecordSound (HostSound S) p)
    (hfills : (p.phase host).fills = none) {o : TableEvent ι τ}
    (ho : ∀ query wanted used, o ≠ .passed query wanted used) :
    TurnSound RecordSound (HostSound S) p host .idle p.shared ∧
      EventSound S o p.shared :=
  ⟨h.quiet ((h.each host).finish hfills),
    fun query wanted used heq => absurd heq (ho query wanted used)⟩

theorem eventSound_quiet : EventSound S (.quiet : TableEvent ι τ) σ :=
  fun _ _ _ heq => by cases heq

omit [DecidableEq τ] in
theorem Query.fail_ne_passed (query query' : Query ι τ) (wanted : Wanted)
    (used : List (Option (InsertCall ι τ))) :
    query.fail ≠ .passed query' wanted used := by
  unfold Query.fail
  split <;> simp

omit [DecidableEq τ] in
/-- A lookup that is reading meets no insertion that is filling. -/
theorem settled_reads [NeZero n] {query : Query ι τ}
    (hsettled : Settled S p (host, none))
    (hreads : (p.phase host).reads = some (query, i)) :
    query.shkey ≠ S.globalKey → Unfilled p i := by
  unfold Settled at hsettled
  cases hphase : p.phase host <;> rw [hphase] at hreads hsettled <;>
    first
    | exact hsettled query i hreads
    | cases hreads

section Turns

variable [NeZero n] {o : TableEvent ι τ} {next : TablePhase ι τ n}
  {σ' : SharedTable ι τ n}

/-- A turn of a lookup that is reading the region of a slot. -/
theorem turn_reads (h : Annotated RecordSound (HostSound S) p)
    (hsettled : Settled S p (host, none)) {query : Query ι τ}
    (hreads : (p.phase host).reads = some (query, i))
    (hact : hostAccess S (p.phase host) p.shared = some (o, next, σ')) :
    TurnSound RecordSound (HostSound S) p host next σ' ∧ EventSound S o σ' := by
  have hfree := settled_reads hsettled hreads
  have hfills := (TablePhase.of_reads hreads).2.1
  have hfinish : ∀ denial : Denial, TurnSound RecordSound (HostSound S) p host
      .idle p.shared ∧ EventSound S (.denied denial) p.shared :=
    fun denial => turn_finish h hfills fun _ _ _ heq => by cases heq
  cases hphase : p.phase host <;> rw [hphase] at hact hreads <;>
    cases hreads
  case regionSize wanted used =>
    simp only [hostAccess] at hact
    split at hact
    · cases hact
      exact hfinish _
    · rename_i hsize
      cases hact
      refine ⟨h.quiet (reading_next h (by rw [hphase]; rfl) hfree rfl
        fun hkey call hfilled hof => ?_), eventSound_quiet⟩
      rw [hphase] at hof
      refine ⟨hfilled.used hof, fun hzero => hsize ⟨?_, hkey⟩⟩
      rw [hfilled.pentry]
      exact hzero
  case regionOffset wanted used =>
    simp only [hostAccess] at hact
    split at hact
    · split at hact
      · cases hact
        exact hfinish _
      · rename_i hglobal
        cases hact
        exact ⟨h.quiet (reading_next h (by rw [hphase]; rfl) hfree rfl
          fun hkey => absurd hkey hglobal), eventSound_quiet⟩
    · rename_i hoffset
      cases hact
      refine ⟨h.quiet (reading_next h (by rw [hphase]; rfl) hfree rfl
        fun hkey call hfilled hof => ?_), eventSound_quiet⟩
      rw [hphase] at hof
      rw [hfilled.pentry] at hoffset
      exact ⟨hfilled.used hof.1, hof.2, hoffset⟩
  case endOffset wanted used =>
    cases hact
    refine ⟨h.quiet (reading_next h (by rw [hphase]; rfl) hfree rfl
      fun hkey call hfilled hof => ?_), eventSound_quiet⟩
    rw [hphase] at hof
    exact ⟨hfilled.used hof.1, hof.2.1, hof.2.2,
      congrArg ProtectionEntry.offset hfilled.pentry⟩
  case endSize wanted used start =>
    simp only [hostAccess] at hact
    split at hact
    · cases hact
      exact hfinish _
    · rename_i hend
      cases hact
      refine ⟨h.quiet (reading_next h (by rw [hphase]; rfl) hfree rfl
        fun hkey call hfilled hof => ?_), eventSound_quiet⟩
      rw [hphase] at hof
      refine ⟨hfilled.used hof.1, hof.2.1, hof.2.2.1, fun hlt => ?_⟩
      rw [hfilled.pentry, hof.2.2.2] at hend
      exact hend ⟨hlt, hkey⟩
  case permission wanted used =>
    simp only [hostAccess] at hact
    split at hact
    · cases hact
      exact hfinish _
    · rename_i hbit
      cases hact
      refine ⟨h.quiet ((h.each host).finish hfills),
        fun query' wanted' used' heq hkey => ?_⟩
      cases heq
      rcases reading_filled h (by rw [hphase]; rfl) hkey (hfree hkey) with
        ⟨call, _, hfilled, hshkey, hbefore, hof⟩
      rw [hphase] at hof
      rw [hfilled.pentry] at hbit
      refine ⟨call, hfilled.granted, hshkey, hfilled.used hof.1,
        hbefore _, ?_⟩
      have hmatch : ¬ ((true = false ∨ call.shkey ≠ query.shkey) ∧
          query.shkey ≠ S.globalKey) := by
        rw [hshkey]
        simp
      rw [checkEntry, if_neg hmatch, if_neg fun hout => hof.2.1 hout.1,
        if_neg fun hout => hout.1.elim hof.2.2.1 hof.2.2.2, if_neg hbit]

omit [DecidableEq τ] [NeZero n] in
/-- A turn in which a host begins a call. -/
theorem turn_begin (h : Annotated RecordSound (HostSound S) p)
    (hidle : p.phase host = .idle) (op : HostCall τ) :
    TurnSound RecordSound (HostSound S) p host (op.begin S host p.shared)
      { p.shared with calls := p.shared.calls + 1 } := by
  have hown := h.each host
  rw [hidle] at hown
  refine ⟨h.common.begin, ?_, fun j _ => (h.each j).begin⟩
  have howned : ∀ i call, p.shared.claimedBy i = some call →
      call.host = host →
      Filled { p.shared with calls := p.shared.calls + 1 } i call := by
    intro i call hcall hhost
    have hfilled := hown.filled_of_idle rfl hcall hhost
    exact ⟨hfilled.granted, hfilled.shkey, hfilled.pentry, hfilled.storedBy⟩
  cases op with
  | insert shkey offset size permission =>
      refine ⟨fun call hcall => ?_, fun _ _ hne => (by cases hne),
        fun _ hne => (by cases hne), fun _ _ hne => (by cases hne),
        fun _ _ hne => (by cases hne),
        fun i call hcall hhost => .inl (howned i call hcall hhost)⟩
      cases hcall
      exact ⟨rfl, Nat.lt_succ_self _, fun hmem =>
        Nat.lt_irrefl _ (h.common.id_lt _ hmem)⟩
  | access shkey bit offset size =>
      refine ⟨fun _ hne => (by cases hne), fun _ _ hne => (by cases hne),
        fun query hquery => ?_, fun _ _ hne => (by cases hne),
        fun _ _ hne => (by cases hne),
        fun i call hcall hhost => .inl (howned i call hcall hhost)⟩
      cases hquery
      exact fun _ hr => hr
  | revoke shkey =>
      refine ⟨fun _ hne => (by cases hne), fun _ _ hne => (by cases hne),
        fun query hquery => ?_, fun _ _ hne => (by cases hne),
        fun _ _ hne => (by cases hne),
        fun i call hcall hhost => .inl (howned i call hcall hhost)⟩
      cases hquery
      exact fun _ hr => hr

/-- A turn of an insertion that looks for a slot. -/
theorem turn_waiting (h : Annotated RecordSound (HostSound S) p)
    (hsettled : Settled S p (host, none))
    (hwaits : (p.phase host).waiting = some call)
    (hact : hostAccess S (p.phase host) p.shared = some (o, next, σ')) :
    TurnSound RecordSound (HostSound S) p host next σ' ∧ EventSound S o σ' := by
  have hown := h.each host
  have hwait := hown.waiting call hwaits
  cases hphase : p.phase host <;> rw [hphase] at hact hwaits hown <;>
    cases hwaits
  case claim i =>
    simp only [hostAccess] at hact
    split at hact
    · rename_i hinvalid
      unfold Settled at hsettled
      rw [hphase] at hsettled
      have hclear := hsettled hinvalid
      cases hact
      refine ⟨⟨h.common.claim hwait.2.2 hwait.2.1, ?_, fun j hj => ?_⟩,
        eventSound_quiet⟩
      · refine ⟨fun _ hne => (by cases hne), fun c k hc => ?_,
          fun _ hne => (by cases hne), fun _ _ hne => (by cases hne),
          fun _ _ hne => (by cases hne), fun k c hk hhost => ?_⟩
        · cases hc
          exact ⟨hwait.1, SharedTable.claim_claimedBy_self⟩
        · by_cases hki : k = i
          · rw [hki, SharedTable.claim_claimedBy_self] at hk
            cases hk
            rw [hki]
            exact .inr (.inl rfl)
          · rw [SharedTable.claim_claimedBy_of_ne hki] at hk
            exact .inl ((hown.filled_of_idle rfl hk hhost).claim hki)
      · exact (h.each j).claim h.common (fun heq => hj (heq ▸ hwait.1))
          hwait.2.2 (fun c => hclear.1 j c) fun query => hclear.2 j query
    · cases hact
      exact ⟨h.quiet (hown.enter rfl (.inr rfl) rfl (.inl rfl)
        (fun _ _ hne => by cases hne) fun _ _ hne => by cases hne),
        eventSound_quiet⟩
  case testShkey i =>
    have hfinish : ∀ code : Int, TurnSound RecordSound (HostSound S) p host
        .idle p.shared ∧ EventSound S (.inserted code) p.shared :=
      fun code => turn_finish h (by rw [hphase]; rfl)
        fun _ _ _ heq => by cases heq
    simp only [hostAccess] at hact
    split at hact
    · cases hact
      exact hfinish _
    · split at hact
      · cases hact
        exact hfinish _
      · cases hact
        exact ⟨h.quiet (hown.enter rfl (.inr rfl) rfl (.inl rfl)
          (fun _ _ hne => by cases hne) fun _ _ hne => by cases hne),
          eventSound_quiet⟩

/-- A turn of an insertion that fills its slot. -/
theorem turn_fills (h : Annotated RecordSound (HostSound S) p)
    (hfills : (p.phase host).fills = some (call, i))
    (hact : hostAccess S (p.phase host) p.shared = some (o, next, σ')) :
    TurnSound RecordSound (HostSound S) p host next σ' ∧ EventSound S o σ' := by
  have hown := h.each host
  have hfill := hown.filling call i hfills
  have hother : ∀ j, j ≠ host → call.host ≠ j :=
    fun j hj heq => hj (heq ▸ hfill.1)
  -- the other slots this host has claimed are filled
  have hfilled : ∀ k c, k ≠ i → p.shared.claimedBy k = some c →
      c.host = host → Filled p.shared k c := by
    intro k c hki hk hhost
    rcases hown.owned k c hk hhost with hdone | hphase | hphase
    · exact hdone
    · rw [hphase] at hfills
      cases hfills
      exact absurd rfl hki
    · rw [hphase.1] at hfills
      cases hfills
      exact absurd rfl hki
  cases hphase : p.phase host <;> rw [hphase] at hact hfills hown <;>
    cases hfills
  case storeShkey =>
    cases hact
    refine ⟨⟨h.common.storeShkey, ?_,
      fun j hj => (h.each j).storeShkey hfill.2 (hother j hj)⟩,
      eventSound_quiet⟩
    refine ⟨fun _ hne => (by cases hne), fun c k hc => ?_,
      fun _ hne => (by cases hne), fun _ _ hne => (by cases hne),
      fun _ _ hne => (by cases hne), fun k c hk hhost => ?_⟩
    · cases hc
      exact hfill
    · by_cases hki : k = i
      · rw [hki] at hk ⊢
        have hk : p.shared.claimedBy i = some c := hk
        rw [hfill.2] at hk
        cases hk
        refine .inr (.inr ⟨rfl, ?_⟩)
        rw [SharedTable.storeShkey_table_self]
      · exact .inl ((hfilled k c hki hk hhost).storeShkey hki)
  case storePentry =>
    have hshkey : (p.shared.table i).shkey = call.shkey := by
      rcases hown.owned i call hfill.2 hfill.1 with hdone | hphase | hphase
      · exact hdone.shkey
      · cases hphase
      · exact hphase.2
    cases hact
    refine ⟨⟨h.common.storePentry, ?_,
      fun j hj => (h.each j).storePentry hfill.2 (hother j hj)⟩,
      fun _ _ _ heq => by cases heq⟩
    refine ⟨fun _ hne => (by cases hne), fun _ _ hne => (by cases hne),
      fun _ hne => (by cases hne), fun _ _ hne => (by cases hne),
      fun _ _ hne => (by cases hne), fun k c hk hhost => .inl ?_⟩
    by_cases hki : k = i
    · rw [hki] at hk ⊢
      have hk : p.shared.claimedBy i = some c := hk
      rw [hfill.2] at hk
      cases hk
      refine ⟨List.mem_cons_self, ?_, ?_,
        SharedTable.storePentry_storedBy_self⟩
      · rw [SharedTable.storePentry_shkey]
        exact hshkey
      · rw [SharedTable.storePentry_table_self]
    · exact (hfilled k c hki hk hhost).storePentry hki

omit [DecidableEq τ] [NeZero n] in
/-- The slot has passed the test of flag and token. -/
theorem turn_proceed (h : Annotated RecordSound (HostSound S) p)
    (hfills : (p.phase host).fills = none) (query : Query ι τ)
    (hfound : query.purpose ≠ .revoke → query.shkey ≠ S.globalKey →
      ∃ call, p.shared.claimedBy i = some call ∧ call.shkey = query.shkey ∧
        ∀ t, (t, call) ∉ query.before) :
    TurnSound RecordSound (HostSound S) p host (query.proceed i) p.shared := by
  refine h.quiet ?_
  unfold Query.proceed
  split
  · rename_i wanted hpurpose
    refine (h.each host).enter hfills (.inl rfl) rfl (.inl rfl)
      (fun _ _ hne => by cases hne) fun query' j hread hkey => ?_
    cases hread
    rcases hfound (by rw [hpurpose]; simp) hkey with
      ⟨call, hcall, hshkey, hbefore⟩
    exact ⟨call, hcall, hshkey, hbefore, fun _ ha => by cases ha⟩
  · exact (h.each host).enter hfills (.inl rfl) rfl (.inl rfl)
      (fun _ _ hne => by cases hne) fun _ _ hne => by cases hne

/-- A turn of a search. -/
theorem turn_searches (h : Annotated RecordSound (HostSound S) p)
    (hsettled : Settled S p (host, none)) {query : Query ι τ}
    (hsearch : (p.phase host).searches = some query)
    (hact : hostAccess S (p.phase host) p.shared = some (o, next, σ')) :
    TurnSound RecordSound (HostSound S) p host next σ' ∧ EventSound S o σ' := by
  have hown := h.each host
  have hfills : (p.phase host).fills = none := by
    cases hphase : p.phase host <;> rw [hphase] at hsearch <;>
      cases hsearch <;> rfl
  have hfail : TurnSound RecordSound (HostSound S) p host .idle p.shared ∧
      EventSound S query.fail p.shared :=
    turn_finish h hfills query.fail_ne_passed
  cases hphase : p.phase host <;>
    rw [hphase] at hact hsearch hown <;> cases hsearch
  case loopValid i =>
    simp only [hostAccess] at hact
    split at hact <;> cases hact <;>
      exact ⟨h.quiet (hown.enter rfl (.inl rfl) rfl (.inr rfl)
        (fun _ _ hne => by cases hne) fun _ _ hne => by cases hne),
        eventSound_quiet⟩
  case loopShkey i =>
    have hquiet : ∀ next : TablePhase ι τ n, next.waiting = none →
        next.fills = none → next.searches = some query →
        next.reads = none → (∀ query i, next ≠ .finalShkey query i) →
        TurnSound RecordSound (HostSound S) p host next p.shared :=
      fun next hw hf hs hr hv => h.quiet (hown.enter rfl (.inl hw) hf
        (.inr hs) (fun query i heq => absurd heq (hv query i))
        fun _ _ hread => by rw [hr] at hread; cases hread)
    simp only [hostAccess] at hact
    split at hact
    · split at hact
      · cases hact
        exact hfail
      · cases hact
        exact ⟨hquiet _ rfl rfl rfl rfl fun _ _ hne => (by cases hne),
          eventSound_quiet⟩
    · cases hact
      exact ⟨hquiet _ rfl rfl rfl rfl fun _ _ hne => (by cases hne),
        eventSound_quiet⟩
  case finalValid i =>
    simp only [hostAccess] at hact
    split at hact
    · rename_i hvalid
      cases hact
      refine ⟨h.quiet (hown.enter rfl (.inl rfl) rfl (.inr rfl)
        (fun query' j heq => ?_) fun _ _ hne => by cases hne),
        eventSound_quiet⟩
      cases heq
      rcases h.common.live i hvalid with ⟨call, hcall, hlive⟩
      exact ⟨call, hcall, fun t ht =>
        hlive t (hown.searching query rfl ht)⟩
    · split at hact
      · cases hact
        exact hfail
      · rename_i hglobal
        cases hact
        exact ⟨turn_proceed h hfills query fun _ hkey => absurd hkey hglobal,
          eventSound_quiet⟩
  case finalShkey i =>
    simp only [hostAccess] at hact
    split at hact
    · cases hact
      exact hfail
    · rename_i hmatch
      cases hact
      refine ⟨turn_proceed h hfills query fun hpurpose hkey => ?_,
        eventSound_quiet⟩
      have hread : (p.shared.table i).shkey = query.shkey :=
        Classical.byContradiction fun hne => hmatch ⟨hne, hkey⟩
      unfold Settled at hsettled
      rw [hphase] at hsettled
      have hclear := hsettled hpurpose hread
      rcases hown.valid query i rfl with ⟨call, hcall, hbefore⟩
      refine ⟨call, hcall, ?_, hbefore⟩
      rcases (h.each call.host).owned i call hcall rfl with hdone | hstore |
        hstore
      · exact hdone.shkey.symm.trans hread
      · exact hclear call.host call (by rw [hstore]; rfl)
      · exact hstore.2.symm.trans hread

/-- **Turn lemma**: a settled turn keeps the assertions and interferes with
none. -/
theorem hostTurn_sound (h : Annotated RecordSound (HostSound S) p)
    {op : Option (HostCall τ)} (hsettled : Settled S p (host, op))
    (hact : hostTurn S host op (p.phase host) p.shared =
      some (o, next, σ')) :
    TurnSound RecordSound (HostSound S) p host next σ' ∧ EventSound S o σ' := by
  cases op with
  | some op =>
      cases hphase : p.phase host <;> rw [hphase] at hact <;> cases hact
      exact ⟨turn_begin h hphase op, eventSound_quiet⟩
  | none =>
      have hact : hostAccess S (p.phase host) p.shared =
          some (o, next, σ') := by
        rw [← hact]
        rfl
      cases hphase : p.phase host
      case idle =>
        rw [hphase] at hact
        cases hact
      case claim call i | testShkey call i =>
        exact turn_waiting h hsettled (by rw [hphase]; rfl) hact
      case storeShkey call i | storePentry call i =>
        exact turn_fills h (by rw [hphase]; rfl) hact
      case loopValid | loopShkey | finalValid | finalShkey =>
        exact turn_searches h hsettled (by rw [hphase]; rfl) hact
      case storeValid query i =>
        have hown := h.each host
        rw [hphase] at hact hown
        cases hact
        refine ⟨⟨h.common.revoke _, (hown.revoke _).finish rfl,
          fun j _ => (h.each j).revoke _⟩, fun _ _ _ heq => by cases heq⟩
      all_goals exact turn_reads h hsettled (by rw [hphase]; rfl) hact

omit [DecidableEq τ] [NeZero n] in
/-- The assertions before the first call. -/
theorem annotated_start :
    Annotated RecordSound (HostSound S)
      (TablePool.start (zeroTable S) : TablePool ι τ n) := by
  refine ⟨⟨fun _ hne => (by cases hne), fun _ _ hne => (by cases hne),
    fun _ _ _ hne => (by cases hne), fun _ hne => (by cases hne),
    fun _ hne => by cases hne⟩, fun host => ?_⟩
  exact ⟨fun _ hne => (by cases hne), fun _ _ hne => (by cases hne),
    fun _ hne => (by cases hne), fun _ _ hne => (by cases hne),
    fun _ _ hne => (by cases hne), fun _ _ hne => by cases hne⟩

/-- What has been granted stays granted. -/
theorem granted_mono {op : Option (HostCall τ)}
    (hact : hostTurn S host op phase σ = some (o, next, σ')) :
    ∀ call ∈ σ.granted, call ∈ σ'.granted := by
  cases op with
  | some op =>
      cases phase <;> cases hact
      exact fun _ hmem => hmem
  | none =>
      cases phase <;> simp only [hostTurn, hostAccess] at hact <;>
        (repeat' split at hact) <;> cases hact <;> simp +contextual

end Turns

/-! ## Runs -/

variable [DecidableEq ι] [NeZero n]

/-- Hosts insert, look up and revoke tokens in a new table, and every turn is
settled.  Whenever a lookup passes with a token other than `global_key`, the
region it used is that of one insertion of the token, which has returned 0, and
was not revoked before the lookup began. -/
theorem passed_region_granted {turns : List (ι × Option (HostCall τ))}
    {events : List (TableEvent ι τ)}
    (hsettled : AtEveryStep (hostStep S) (Settled S)
      (.start (zeroTable S)) turns)
    (hrun : run (hostStep S) (.start (zeroTable S)) turns =
      some (events, p)) :
    ∀ query wanted used, .passed query wanted used ∈ events →
      query.shkey ≠ S.globalKey →
        RegionGranted S p.shared query wanted used := by
  have hall := run_annotated (Q := Settled S) (O := EventSound S)
    (fun p host op o next σ h hQ hact => hostTurn_sound h hQ hact)
    (fun host op phase σ o phase' σ' o' hact ho query wanted used heq hkey => by
      rcases ho query wanted used heq hkey with ⟨call, hmem, hrest⟩
      exact ⟨call, granted_mono hact call hmem, hrest⟩)
    annotated_start hsettled hrun
  exact fun query wanted used hmem => hall.2 _ hmem query wanted used rfl

end Settled

/-! ## Checking that a turn is settled -/

section SlotFree

variable {ι τ : Type} {n : Nat}

namespace TablePhase

/-- The slot an insertion is filling or a lookup is reading. -/
def holds (phase : TablePhase ι τ n) : Option (Fin n) :=
  (phase.fills.map Prod.snd).or (phase.reads.map Prod.snd)

/-- The slot that has to be settled for the next access. -/
def needs : TablePhase ι τ n → Option (Fin n)
  | .claim _ i => some i
  | .finalShkey query i =>
      match query.purpose with
      | .access _ => some i
      | .revoke => none
  | phase => phase.reads.map Prod.snd

variable {phase : TablePhase ι τ n} {i : Fin n}

theorem holds_of_fills {call : InsertCall ι τ}
    (h : phase.fills = some (call, i)) : phase.holds = some i := by
  simp [holds, h]

theorem holds_of_reads {query : Query ι τ}
    (h : phase.reads = some (query, i)) : phase.holds = some i := by
  simp [holds, h, (of_reads h).2.1]

theorem needs_of_reads {query : Query ι τ}
    (h : phase.reads = some (query, i)) : phase.needs = some i := by
  cases phase <;> cases h <;> rfl

end TablePhase

/-- No other host fills or reads the slot that has to be settled. -/
def SlotFree (p : TablePool ι τ n) (turn : ι × Option (HostCall τ)) : Prop :=
  ∀ host, host ≠ turn.1 → (p.phase turn.1).needs = none ∨
    (p.phase host).holds ≠ (p.phase turn.1).needs

instance [Fintype ι] [DecidableEq ι] (p : TablePool ι τ n)
    (turn : ι × Option (HostCall τ)) : Decidable (SlotFree p turn) :=
  inferInstanceAs (Decidable (∀ _, _ → _))

/-- Hosts at other slots, idle ones among them, leave a turn settled. -/
theorem settled_of_slotFree [DecidableEq τ] [NeZero n] {S : TokenScheme τ n}
    {p : TablePool ι τ n} {turn : ι × Option (HostCall τ)}
    (hfree : SlotFree p turn) : Settled S p turn := by
  have hself : ∀ i host, (p.phase turn.1).needs = some i →
      (p.phase host).holds = some i → host = turn.1 :=
    fun i host hneeds hholds => Classical.byContradiction fun hne => by
      rcases hfree host hne with hnone | hother
      · rw [hnone] at hneeds
        cases hneeds
      · exact hother (hholds.trans hneeds.symm)
  have hunfilled : ∀ i, (p.phase turn.1).needs = some i →
      (p.phase turn.1).fills = none → Unfilled p i := by
    intro i hneeds hnone host call hfills
    have hhost := hself i host hneeds (TablePhase.holds_of_fills hfills)
    rw [hhost, hnone] at hfills
    cases hfills
  unfold Settled
  split
  · rename_i heq
    have hneeds := congrArg TablePhase.needs heq
    refine fun _ => ⟨hunfilled _ hneeds (by rw [heq]; rfl),
      fun host query hreads => ?_⟩
    have hhost := hself _ host hneeds (TablePhase.holds_of_reads hreads)
    rw [hhost, heq] at hreads
    cases hreads
  · rename_i query i _ heq
    intro hpurpose _ host call hfills
    have hneeds : (p.phase turn.1).needs = some i := by
      rw [heq, TablePhase.needs]
      cases hwanted : query.purpose with
      | access wanted => rfl
      | revoke => exact absurd hwanted hpurpose
    exact absurd hfills (hunfilled i hneeds (by rw [heq]; rfl) host call)
  · rename_i heq
    intro query i hreads _
    exact hunfilled i (TablePhase.needs_of_reads hreads)
      (TablePhase.of_reads hreads).2.1
  · exact trivial

end SlotFree

/-- Host `true` acquires token 1.  While host `false` reads with it, host
`true` acquires token 2 and revokes token 1; then it draws token 1 again, for
another region, while host `false` reads with token 2.  At the end host `false`
reads in the new region of token 1. -/
def twoHostTurns : List (Bool × Option (HostCall UInt16)) :=
  let acquire (t offset : Nat) : Bool × Option (HostCall UInt16) :=
    (true, some (.acquire shmpScheme false (fun _ => t) offset 8 3))
  let access (t : UInt16) (offset : Nat) : Bool × Option (HostCall UInt16) :=
    (false, some (.access t 1 offset 8))
  let go (k : Nat) (host : Bool) : List (Bool × Option (HostCall UInt16)) :=
    List.replicate k (host, none)
  acquire 1 0 :: go 3 true ++
  access 1 0 :: go 4 false ++
  acquire 2 64 :: go 2 true ++ go 3 false ++ go 1 true ++
  (true, some (.revoke 1)) :: go 5 true ++ go 2 false ++
  acquire 1 128 :: go 1 true ++
  access 2 64 :: go 2 false ++ go 2 true ++ go 7 false ++
  access 1 128 :: go 9 false

/-- The first lookup passes after the revocation, which it began before; the
last one began after it and passes on the new region. -/
theorem passed_region_granted_two_hosts :
    ∃ events p first second third,
      run (hostStep shmpScheme) (.start (zeroTable shmpScheme))
        twoHostTurns = some (events, p) ∧
      .passed ⟨1, .access ⟨1, 0, 8⟩, []⟩ ⟨1, 0, 8⟩ first ∈ events ∧
      .passed ⟨2, .access ⟨1, 64, 8⟩, [(1, ⟨true, 0, 1, .of 0 8 3⟩)]⟩
        ⟨1, 64, 8⟩ second ∈ events ∧
      .passed ⟨1, .access ⟨1, 128, 8⟩, [(1, ⟨true, 0, 1, .of 0 8 3⟩)]⟩
        ⟨1, 128, 8⟩ third ∈ events ∧
      ∀ query wanted used, .passed query wanted used ∈ events →
        query.shkey ≠ 0 →
          RegionGranted shmpScheme p.shared query wanted used := by
  refine ⟨_, _, List.replicate 5 (some ⟨true, 0, 1, .of 0 8 3⟩),
    List.replicate 5 (some ⟨true, 2, 2, .of 64 8 3⟩),
    List.replicate 5 (some ⟨true, 4, 1, .of 128 8 3⟩), rfl,
    List.mem_of_getElem? (i := 23) rfl, List.mem_of_getElem? (i := 37) rfl,
    List.mem_of_getLast? rfl, ?_⟩
  have hfree : AtEveryStep (hostStep shmpScheme) SlotFree
      (.start (zeroTable shmpScheme)) twoHostTurns := by decide +kernel
  exact passed_region_granted
    (atEveryStep_mono (fun _ _ => settled_of_slotFree) hfree) rfl

/-! ## A slot that is not settled -/

/-- Host `true` acquires token 1 and host `false` revokes it.  Host `true`
draws the token again, for another region, and has just marked the slot valid
when host `false` looks the token up in the old region. -/
def staleTurns : List (Bool × Option (HostCall UInt16)) :=
  (true, some (.acquire shmpScheme false (fun _ => 1) 0 8 3)) ::
    List.replicate 3 (true, none) ++
  (false, some (.revoke 1)) :: List.replicate 5 (false, none) ++
  [(true, some (.acquire shmpScheme false (fun _ => 1) 64 8 3)),
    (true, none)] ++
  (false, some (.access 1 1 0 8)) :: List.replicate 9 (false, none)

/-- The lookup passes on the region that has been revoked. -/
theorem not_passed_region_granted :
    ∃ events p query wanted used,
      run (hostStep shmpScheme) (.start (zeroTable shmpScheme)) staleTurns =
        some (events, p) ∧
      .passed query wanted used ∈ events ∧
      query.shkey ≠ shmpScheme.globalKey ∧
      ¬ ∃ call ∈ p.shared.granted, call.shkey = query.shkey ∧
        (∀ a ∈ used, a = some call) ∧
        (query.shkey, call) ∉ query.before := by
  refine ⟨_, _, ⟨1, .access ⟨1, 0, 8⟩, [(1, ⟨true, 0, 1, .of 0 8 3⟩)]⟩,
    ⟨1, 0, 8⟩, List.replicate 5 (some ⟨true, 0, 1, .of 0 8 3⟩), rfl,
    List.mem_of_getLast? rfl, by decide, ?_⟩
  intro h
  rcases h with ⟨call, _, _, hused, hbefore⟩
  have hcall := hused _ (List.mem_replicate.mpr ⟨by decide, rfl⟩)
  cases hcall
  exact hbefore List.mem_cons_self

end SHMemora.Ports
