import SHMemora.Ports.SettledSlots

/-!
# Several hosts insert one token

Hosts run `insert_protection_entry` for the same token at the same time, on a
table that does not hold it.  The loop moves past a slot that another host has
claimed if the slot does not show the token, and between the compare-and-swap
and the store of the token it does not.

`TokenShown` excludes that: a slot that is tested for the token shows it, or
nobody is about to store one there.  Then whoever comes second finds the token
of the first.

## Main results

* `granted_once` — in every run of such steps at most one call returns 0, and
  at most one valid slot holds the token.
* `not_granted_once` — without the condition two calls return 0.
-/

namespace SHMemora.Ports

open SHMemora.Verified.OrbitSearch
open SHMemora.Verified.StepRun
open SHMemora.Verified.ThreadPool

namespace TableEvent

variable {ι τ : Type}

/-- A call of `insert_protection_entry` returns 0. -/
def returnsZero : TableEvent ι τ → Bool
  | .inserted code => decide (code = 0)
  | _ => false

@[simp] theorem returnsZero_inserted (code : Int) :
    (inserted code : TableEvent ι τ).returnsZero = decide (code = 0) := rfl

@[simp] theorem returnsZero_quiet :
    (quiet : TableEvent ι τ).returnsZero = false := rfl

@[simp] theorem returnsZero_passed (query : Query ι τ) (wanted : Wanted)
    (used : List (Option (InsertCall ι τ))) :
    (passed query wanted used).returnsZero = false := rfl

@[simp] theorem returnsZero_denied (denial : Denial) :
    (denied denial : TableEvent ι τ).returnsZero = false := rfl

@[simp] theorem returnsZero_revoked (code : Int) :
    (revoked code : TableEvent ι τ).returnsZero = false := rfl

@[simp] theorem returnsZero_fail (query : Query ι τ) :
    query.fail.returnsZero = false := by
  unfold Query.fail
  split <;> rfl

end TableEvent

section Acquisition

variable {ι τ : Type} [DecidableEq ι] [DecidableEq τ] {n : Nat} [NeZero n]
  (S : TokenScheme τ n)

/-- The condition on a turn: where an insertion tests a slot for its token, the
slot shows it or no insertion is about to store a token there. -/
def TokenShown (p : TablePool ι τ n) (turn : ι × Option (HostCall τ)) : Prop :=
  match turn.2, p.phase turn.1 with
  | none, .testShkey call i =>
      (p.shared.table i).shkey = call.shkey ∨
        ∀ host c, p.phase host ≠ .storeShkey c i
  | _, _ => True

/-- Every call in a run is an insertion of `t`. -/
def OnlyInserts (t : τ) (turn : ι × Option (HostCall τ)) : Prop :=
  ∀ op, turn.2 = some op → ∃ offset size permission,
    op = .insert t offset size permission

/-! ## The assertions -/

omit [DecidableEq ι] [DecidableEq τ] [NeZero n]

variable (t : τ) (table : ProtectionTable τ n)

/-- At most one slot has been claimed, and every slot on the way to it is
valid; the others are as they were in `table`. -/
structure ClaimedOnce [NeZero n] (σ : SharedTable ι τ n) : Prop where
  unique : ∀ i j c c', σ.claimedBy i = some c → σ.claimedBy j = some c' →
    i = j
  granted_le : σ.granted.length ≤ 1
  granted_claimed : σ.granted ≠ [] → ∃ i c, σ.claimedBy i = some c
  live : ∀ i c, σ.claimedBy i = some c → (σ.table i).valid = true
  passed : ∀ i c, σ.claimedBy i = some c → ∀ k,
    gap (S.hashFunction t) k < gap (S.hashFunction t) i →
      (σ.table k).valid = true
  untouched : ∀ i, σ.claimedBy i = none → σ.table i = table i

/-- The slot at which an insertion is looking. -/
def TablePhase.probes : TablePhase ι τ n → Option (InsertCall ι τ × Fin n)
  | .claim call i => some (call, i)
  | .testShkey call i => some (call, i)
  | _ => none

/-- The phases of an insertion. -/
def TablePhase.Inserts : TablePhase ι τ n → Prop
  | .idle => True
  | .claim _ _ => True
  | .testShkey _ _ => True
  | .storeShkey _ _ => True
  | .storePentry _ _ => True
  | _ => False

/-- The assertions for a host in each of its phases. -/
structure HostInserts [NeZero n] (host : ι) (phase : TablePhase ι τ n)
    (σ : SharedTable ι τ n) : Prop where
  inserts : phase.Inserts
  probing : ∀ call i, phase.probes = some (call, i) →
    call.host = host ∧ call.shkey = t ∧ ∀ k,
      gap (S.hashFunction t) k < gap (S.hashFunction t) i →
        (σ.table k).valid = true ∧ σ.claimedBy k = none
  tested : ∀ call i, phase = .testShkey call i → (σ.table i).valid = true
  filling : ∀ call i, phase.fills = some (call, i) →
    call.host = host ∧ call.shkey = t ∧ σ.claimedBy i = some call ∧
      σ.granted = []
  owned : ∀ i call, σ.claimedBy i = some call → call.host = host →
    phase = .storeShkey call i ∨ (σ.table i).shkey = t

variable {S t table} [NeZero n] {host : ι} {phase : TablePhase ι τ n}
  {σ : SharedTable ι τ n} {call : InsertCall ι τ} {i : Fin n}

/-! ## What the effects do to the assertions -/

namespace ClaimedOnce

variable (h : ClaimedOnce S t table σ)
include h

/-- Where an insertion finds an invalid slot, no slot has been claimed: the
slots before a claimed one are valid, and so is that one. -/
theorem none_claimed
    (hprobe : ∀ k, gap (S.hashFunction t) k < gap (S.hashFunction t) i →
      (σ.table k).valid = true ∧ σ.claimedBy k = none)
    (hinvalid : (σ.table i).valid = false) (j : Fin n) :
    σ.claimedBy j = none := by
  cases hclaimed : σ.claimedBy j with
  | none => rfl
  | some c =>
      have hlive := h.live j c hclaimed
      rcases Nat.lt_trichotomy (gap (S.hashFunction t) j)
        (gap (S.hashFunction t) i) with hlt | heq | hgt
      · rw [(hprobe j hlt).2] at hclaimed
        cases hclaimed
      · rw [gap_injective _ heq, hinvalid] at hlive
        cases hlive
      · have hvalid := h.passed j c hclaimed i hgt
        rw [hinvalid] at hvalid
        cases hvalid

theorem granted_nil (hnone : ∀ j, σ.claimedBy j = none) :
    σ.granted = [] := by
  apply Classical.byContradiction
  intro hne
  rcases h.granted_claimed hne with ⟨j, c, hc⟩
  rw [hnone] at hc
  cases hc

theorem begin : ClaimedOnce S t table { σ with calls := σ.calls + 1 } :=
  ⟨h.unique, h.granted_le, h.granted_claimed, h.live, h.passed, h.untouched⟩

theorem claim (hnone : ∀ j, σ.claimedBy j = none)
    (hpassed : ∀ k, gap (S.hashFunction t) k < gap (S.hashFunction t) i →
      (σ.table k).valid = true) :
    ClaimedOnce S t table (σ.claim call i) := by
  have honly : ∀ j c, (σ.claim call i).claimedBy j = some c → j = i := by
    intro j c hc
    apply Classical.byContradiction
    intro hj
    rw [SharedTable.claim_claimedBy_of_ne hj, hnone] at hc
    cases hc
  have hvalid : ∀ k, (σ.table k).valid = true →
      ((σ.claim call i).table k).valid = true := by
    intro k hk
    by_cases hki : k = i
    · rw [hki, SharedTable.claim_table_self]
    · rw [SharedTable.claim_table_of_ne hki]
      exact hk
  refine ⟨fun j k c c' hj hk => ?_, h.granted_le, fun hne => ?_,
    fun j c hc => ?_, fun j c hc k hk => ?_, fun j hj => ?_⟩
  · rw [honly j c hj, honly k c' hk]
  · exact absurd (h.granted_nil hnone) hne
  · rw [honly j c hc, SharedTable.claim_table_self]
  · rw [honly j c hc] at hk
    exact hvalid k (hpassed k hk)
  · have hji : j ≠ i := by
      intro heq
      rw [heq, SharedTable.claim_claimedBy_self] at hj
      cases hj
    rw [SharedTable.claim_table_of_ne hji]
    exact h.untouched j (hnone j)

theorem storeShkey (hclaimed : σ.claimedBy i = some call) :
    ClaimedOnce S t table (σ.storeShkey call i) := by
  refine ⟨h.unique, h.granted_le, h.granted_claimed, fun j c hc => ?_,
    fun j c hc k hk => ?_, fun j hj => ?_⟩
  · rw [SharedTable.storeShkey_valid]
    exact h.live j c hc
  · rw [SharedTable.storeShkey_valid]
    exact h.passed j c hc k hk
  · have hji : j ≠ i := by
      intro heq
      rw [heq] at hj
      rw [show σ.claimedBy i = none from hj] at hclaimed
      cases hclaimed
    rw [SharedTable.storeShkey_table_of_ne hji]
    exact h.untouched j hj

theorem storePentry (hclaimed : σ.claimedBy i = some call)
    (hgranted : σ.granted = []) :
    ClaimedOnce S t table (σ.storePentry call i) := by
  refine ⟨h.unique, ?_, fun _ => ⟨i, call, hclaimed⟩, fun j c hc => ?_,
    fun j c hc k hk => ?_, fun j hj => ?_⟩
  · show (call :: σ.granted).length ≤ 1
    rw [hgranted]
    exact Nat.le_refl _
  · rw [SharedTable.storePentry_valid]
    exact h.live j c hc
  · rw [SharedTable.storePentry_valid]
    exact h.passed j c hc k hk
  · have hji : j ≠ i := by
      intro heq
      rw [heq] at hj
      rw [show σ.claimedBy i = none from hj] at hclaimed
      cases hclaimed
    rw [SharedTable.storePentry_table_of_ne hji]
    exact h.untouched j hj

end ClaimedOnce

namespace HostInserts

variable (h : HostInserts S t host phase σ)
include h

theorem begin : HostInserts S t host phase
    { σ with calls := σ.calls + 1 } :=
  ⟨h.inserts, h.probing, h.tested, h.filling, h.owned⟩

/-- Another host claims the first slot. -/
theorem claim (hnone : ∀ j, σ.claimedBy j = none)
    (hinvalid : (σ.table i).valid = false) (hhost : call.host ≠ host) :
    HostInserts S t host phase (σ.claim call i) := by
  refine ⟨h.inserts, fun c j hc => ?_, fun c j hc => ?_, fun c j hc => ?_,
    fun j c hj hown => ?_⟩
  · have hprobe := h.probing c j hc
    refine ⟨hprobe.1, hprobe.2.1, fun k hk => ?_⟩
    have hbefore := hprobe.2.2 k hk
    have hki : k ≠ i := by
      intro heq
      rw [heq, hinvalid] at hbefore
      cases hbefore.1
    rw [SharedTable.claim_table_of_ne hki,
      SharedTable.claim_claimedBy_of_ne hki]
    exact hbefore
  · by_cases hji : j = i
    · rw [hji, SharedTable.claim_table_self]
    · rw [SharedTable.claim_table_of_ne hji]
      exact h.tested c j hc
  · have hfill := (h.filling c j hc).2.2.1
    rw [hnone] at hfill
    cases hfill
  · by_cases hji : j = i
    · rw [hji, SharedTable.claim_claimedBy_self] at hj
      cases hj
      exact absurd hown hhost
    · rw [SharedTable.claim_claimedBy_of_ne hji, hnone] at hj
      cases hj

/-- Another host stores its token in the slot it has claimed. -/
theorem storeShkey (hclaimed : σ.claimedBy i = some call)
    (hhost : call.host ≠ host) :
    HostInserts S t host phase (σ.storeShkey call i) := by
  refine ⟨h.inserts, fun c j hc => ?_, fun c j hc => ?_, h.filling,
    fun j c hj hown => ?_⟩
  · have hprobe := h.probing c j hc
    refine ⟨hprobe.1, hprobe.2.1, fun k hk => ?_⟩
    rw [SharedTable.storeShkey_valid]
    exact hprobe.2.2 k hk
  · rw [SharedTable.storeShkey_valid]
    exact h.tested c j hc
  · have hji : j ≠ i := by
      intro heq
      rw [heq] at hj
      rw [show σ.claimedBy i = some c from hj] at hclaimed
      cases hclaimed
      exact hhost hown
    rw [SharedTable.storeShkey_table_of_ne hji]
    exact h.owned j c hj hown

/-- Another host stores its region in the slot it has claimed. -/
theorem storePentry (honce : ClaimedOnce S t table σ)
    (hclaimed : σ.claimedBy i = some call) (hhost : call.host ≠ host) :
    HostInserts S t host phase (σ.storePentry call i) := by
  refine ⟨h.inserts, fun c j hc => ?_, fun c j hc => ?_, fun c j hc => ?_,
    fun j c hj hown => ?_⟩
  · have hprobe := h.probing c j hc
    refine ⟨hprobe.1, hprobe.2.1, fun k hk => ?_⟩
    rw [SharedTable.storePentry_valid]
    exact hprobe.2.2 k hk
  · rw [SharedTable.storePentry_valid]
    exact h.tested c j hc
  · -- this host would be filling the same slot
    have hfill := h.filling c j hc
    have hji := honce.unique j i c call hfill.2.2.1 hclaimed
    rw [hji, hclaimed] at hfill
    cases hfill.2.2.1
    exact absurd hfill.1 hhost
  · rw [SharedTable.storePentry_shkey]
    exact h.owned j c hj hown

/-- A host that is not filling a slot has stored its token in those it has
claimed. -/
theorem shown_of_idle (hfills : phase.fills = none) {j : Fin n}
    {c : InsertCall ι τ} (hc : σ.claimedBy j = some c)
    (hown : c.host = host) : (σ.table j).shkey = t := by
  rcases h.owned j c hc hown with hphase | hshown
  · rw [hphase] at hfills
    cases hfills
  · exact hshown

/-- The end of a call. -/
theorem finish (hfills : phase.fills = none) :
    HostInserts S t host .idle σ :=
  ⟨trivial, fun _ _ hne => (by cases hne), fun _ _ hne => (by cases hne),
    fun _ _ hne => (by cases hne),
    fun _ _ hc hown => .inr (h.shown_of_idle hfills hc hown)⟩

end HostInserts

/-! ## One turn -/

section Turns

variable [DecidableEq τ] {p : TablePool ι τ n} {o : TableEvent ι τ}
  {next : TablePhase ι τ n} {σ' : SharedTable ι τ n}

/-- A host looks at slot `i` for its token. -/
theorem turn_claim (h : Annotated (ClaimedOnce S t table) (HostInserts S t) p)
    (hphase : p.phase host = .claim call i)
    (hact : hostAccess S (p.phase host) p.shared = some (o, next, σ')) :
    TurnSound (ClaimedOnce S t table) (HostInserts S t) p host next σ' := by
  have hown := h.each host
  have hprobe := hown.probing call i (by rw [hphase]; rfl)
  rw [hphase] at hact hown
  simp only [hostAccess] at hact
  split at hact
  · rename_i hinvalid
    have hnone := h.common.none_claimed hprobe.2.2 hinvalid
    cases hact
    refine ⟨h.common.claim hnone fun k hk => (hprobe.2.2 k hk).1, ?_,
      fun j hj => (h.each j).claim hnone hinvalid fun heq =>
        hj (heq ▸ hprobe.1)⟩
    refine ⟨trivial, fun _ _ hne => (by cases hne),
      fun _ _ hne => (by cases hne), fun c k hc => ?_, fun k c hk hhost => ?_⟩
    · cases hc
      exact ⟨hprobe.1, hprobe.2.1, SharedTable.claim_claimedBy_self,
        h.common.granted_nil hnone⟩
    · by_cases hki : k = i
      · rw [hki, SharedTable.claim_claimedBy_self] at hk
        cases hk
        rw [hki]
        exact .inl rfl
      · rw [SharedTable.claim_claimedBy_of_ne hki, hnone] at hk
        cases hk
  · rename_i hvalid
    cases hact
    refine h.quiet ⟨trivial, fun c k hc => ?_, fun c k hc => ?_,
      fun _ _ hne => (by cases hne),
      fun _ _ hc hhost => .inr (hown.shown_of_idle rfl hc hhost)⟩
    · cases hc
      exact hprobe
    · cases hc
      exact eq_true_of_ne_false hvalid

/-- A host tests the token of slot `i`. -/
theorem turn_testShkey
    (h : Annotated (ClaimedOnce S t table) (HostInserts S t) p)
    (hshown : TokenShown p (host, none))
    (hphase : p.phase host = .testShkey call i)
    (hact : hostAccess S (p.phase host) p.shared = some (o, next, σ')) :
    TurnSound (ClaimedOnce S t table) (HostInserts S t) p host next σ' := by
  have hown := h.each host
  have hprobe := hown.probing call i (by rw [hphase]; rfl)
  have hvalid := hown.tested call i hphase
  have hfills : (p.phase host).fills = none := by rw [hphase]; rfl
  rw [hphase] at hact
  simp only [hostAccess] at hact
  split at hact
  · cases hact
    exact h.quiet (hown.finish hfills)
  · rename_i hother
    split at hact
    · cases hact
      exact h.quiet (hown.finish hfills)
    · cases hact
      -- nobody has claimed the slot: it would show the token by now
      have hunclaimed : p.shared.claimedBy i = none := by
        cases hclaimed : p.shared.claimedBy i with
        | none => rfl
        | some c =>
            unfold TokenShown at hshown
            rw [hphase] at hshown
            rcases hshown with hshows | hnobody
            · exact absurd hshows hother
            · rcases (h.each c.host).owned i c hclaimed rfl with hstore | hshows
              · exact absurd hstore (hnobody c.host c)
              · exact absurd (hshows.trans hprobe.2.1.symm) hother
      refine h.quiet ⟨trivial, fun c k hc => ?_, fun _ _ hne => (by cases hne),
        fun _ _ hne => (by cases hne),
        fun _ _ hc hhost => .inr (hown.shown_of_idle hfills hc hhost)⟩
      cases hc
      refine ⟨hprobe.1, hprobe.2.1, fun k hk => ?_⟩
      rcases gap_lt_succ hk with hlt | rfl
      · exact hprobe.2.2 k hlt
      · exact ⟨hvalid, hunclaimed⟩

/-- A host fills the slot it has claimed. -/
theorem turn_fill (h : Annotated (ClaimedOnce S t table) (HostInserts S t) p)
    (hfills : (p.phase host).fills = some (call, i))
    (hact : hostAccess S (p.phase host) p.shared = some (o, next, σ')) :
    TurnSound (ClaimedOnce S t table) (HostInserts S t) p host next σ' := by
  have hown := h.each host
  have hfill := hown.filling call i hfills
  have hother : ∀ j, j ≠ host → call.host ≠ j :=
    fun j hj heq => hj (heq ▸ hfill.1)
  cases hphase : p.phase host <;> rw [hphase] at hact hfills hown <;>
    cases hfills
  case storeShkey =>
    cases hact
    refine ⟨h.common.storeShkey hfill.2.2.1, ?_,
      fun j hj => (h.each j).storeShkey hfill.2.2.1 (hother j hj)⟩
    refine ⟨trivial, fun _ _ hne => (by cases hne),
      fun _ _ hne => (by cases hne), fun c k hc => ?_,
      fun k c hk hhost => .inr ?_⟩
    · cases hc
      exact hfill
    · have hki := h.common.unique k i c call hk hfill.2.2.1
      rw [hki, SharedTable.storeShkey_table_self]
      exact hfill.2.1
  case storePentry =>
    cases hact
    refine ⟨h.common.storePentry hfill.2.2.1 hfill.2.2.2, ?_,
      fun j hj => (h.each j).storePentry h.common hfill.2.2.1 (hother j hj)⟩
    refine ⟨trivial, fun _ _ hne => (by cases hne),
      fun _ _ hne => (by cases hne), fun _ _ hne => (by cases hne),
      fun k c hk hhost => .inr ?_⟩
    rw [SharedTable.storePentry_shkey]
    rcases hown.owned k c hk hhost with hstore | hshown
    · cases hstore
    · exact hshown

/-- **Turn lemma**: insertions of `t` keep the assertions where the tested
slots show the token. -/
theorem hostTurn_inserts
    (h : Annotated (ClaimedOnce S t table) (HostInserts S t) p)
    {op : Option (HostCall τ)} (honly : OnlyInserts t (host, op))
    (hshown : TokenShown p (host, op))
    (hact : hostTurn S host op (p.phase host) p.shared =
      some (o, next, σ')) :
    TurnSound (ClaimedOnce S t table) (HostInserts S t) p host next σ' := by
  have hown := h.each host
  cases op with
  | some op =>
      cases hphase : p.phase host <;> rw [hphase] at hact hown <;> cases hact
      rcases honly op rfl with ⟨offset, size, permission, rfl⟩
      refine ⟨h.common.begin, ?_, fun j _ => (h.each j).begin⟩
      refine ⟨trivial, fun c k hc => ?_, fun _ _ hne => (by cases hne),
        fun _ _ hne => (by cases hne),
        fun k c hk hhost => .inr (hown.shown_of_idle rfl hk hhost)⟩
      cases hc
      exact ⟨rfl, rfl, fun k hk => by rw [gap_self] at hk; cases hk⟩
  | none =>
      have hact : hostAccess S (p.phase host) p.shared =
          some (o, next, σ') := by
        rw [← hact]
        rfl
      cases hphase : p.phase host
      case idle =>
        rw [hphase] at hact
        cases hact
      case claim call i => exact turn_claim h hphase hact
      case testShkey call i => exact turn_testShkey h hshown hphase hact
      case storeShkey call i | storePentry call i =>
        exact turn_fill h (by rw [hphase]; rfl) hact
      all_goals
        have hinserts := hown.inserts
        rw [hphase] at hinserts
        cases hinserts

end Turns

/-! ## Runs -/

omit [NeZero n] in
/-- Before the first call no slot of the table has been claimed. -/
theorem annotated_absent [NeZero n] (table : ProtectionTable τ n) :
    Annotated (ClaimedOnce S t table) (HostInserts S t)
      (TablePool.start table : TablePool ι τ n) := by
  refine ⟨⟨fun _ _ _ _ hne => (by cases hne), Nat.zero_le _,
    fun hne => absurd rfl hne, fun _ _ hne => (by cases hne),
    fun _ _ hne => (by cases hne), fun _ _ => rfl⟩, fun host => ?_⟩
  exact ⟨trivial, fun _ _ hne => (by cases hne), fun _ _ hne => (by cases hne),
    fun _ _ hne => (by cases hne), fun _ _ hne => by cases hne⟩

variable [DecidableEq ι] [DecidableEq τ]

omit [DecidableEq ι] in
/-- The calls that have returned 0 are on record. -/
theorem hostTurn_granted_length {op : Option (HostCall τ)}
    {o : TableEvent ι τ} {next : TablePhase ι τ n} {σ' : SharedTable ι τ n}
    (hact : hostTurn S host op phase σ = some (o, next, σ')) :
    σ'.granted.length = σ.granted.length + [o].countP (·.returnsZero) := by
  cases op with
  | some op =>
      cases phase <;> cases hact
      rfl
  | none =>
      cases phase <;> simp only [hostTurn, hostAccess] at hact <;>
        (repeat' split at hact) <;> cases hact <;> simp

theorem granted_length {p p' : TablePool ι τ n}
    {turns : List (ι × Option (HostCall τ))} {events : List (TableEvent ι τ)}
    (hrun : run (hostStep S) p turns = some (events, p')) :
    p'.shared.granted.length =
      p.shared.granted.length + events.countP (·.returnsZero) := by
  induction turns generalizing p events with
  | nil =>
      cases hrun
      rfl
  | cons turn turns ih =>
      obtain ⟨o, q, os, hstep, hrest, rfl⟩ := run_cons_eq_some_iff.mp hrun
      obtain ⟨next, σ', hact, rfl⟩ := poolStep_eq_some_iff.mp hstep
      rw [ih hrest, Pool.advance_shared, hostTurn_granted_length hact,
        Nat.add_assoc, ← List.countP_append]
      rfl

/-- Hosts insert the same token `t` in any order of steps into a table with no
valid slot that holds it, and every slot they test shows the token if one is
stored or about to be stored there.  Then at most one call returns 0 and at most
one valid slot holds `t`. -/
theorem granted_once
    (habsent : ∀ i, (table i).valid = true → (table i).shkey ≠ t)
    {turns : List (ι × Option (HostCall τ))}
    (honly : ∀ turn ∈ turns, OnlyInserts t turn)
    (hshown : AtEveryStep (hostStep S) TokenShown (.start table) turns)
    {events : List (TableEvent ι τ)} {p : TablePool ι τ n}
    (hrun : run (hostStep S) (.start table) turns = some (events, p)) :
    events.countP (·.returnsZero) ≤ 1 ∧
      ∀ i j, (p.shared.table i).valid = true →
        (p.shared.table i).shkey = t → (p.shared.table j).valid = true →
        (p.shared.table j).shkey = t → i = j := by
  have hall := run_annotated
    (Q := fun p turn => OnlyInserts t turn ∧ TokenShown p turn)
    (O := fun _ _ => True)
    (fun p host op o next σ h hQ hact =>
      ⟨hostTurn_inserts h hQ.1 hQ.2 hact, trivial⟩)
    (fun _ _ _ _ _ _ _ _ _ _ => trivial) (annotated_absent table)
    (atEveryStep_and_all hshown honly) hrun
  have honce := hall.1.common
  constructor
  · have hlength := granted_length hrun
    have hle := honce.granted_le
    rw [hlength] at hle
    exact Nat.le_trans (Nat.le_add_left _ _) hle
  · have hclaimed : ∀ i, (p.shared.table i).valid = true →
        (p.shared.table i).shkey = t → ∃ c, p.shared.claimedBy i = some c := by
      intro i hvalid hshkey
      cases hnone : p.shared.claimedBy i with
      | some c => exact ⟨c, rfl⟩
      | none =>
          rw [honce.untouched i hnone] at hvalid hshkey
          exact absurd hshkey (habsent i hvalid)
    intro i j hi hit hj hjt
    rcases hclaimed i hi hit with ⟨c, hc⟩
    rcases hclaimed j hj hjt with ⟨c', hc'⟩
    exact honce.unique i j c c' hc hc'

end Acquisition

/-! ## Two hosts -/

/-- Host `true` has inserted token 1 when host `false` tests its slot. -/
def secondComer : List (Bool × Option (HostCall UInt16)) :=
  [(true, some (.insert 1 0 8 3)), (true, none), (true, none), (true, none),
    (false, some (.insert 1 64 8 3)), (false, none), (false, none)]

theorem granted_once_second_comer :
    ∃ events p, run (hostStep shmpScheme) (.start (zeroTable shmpScheme))
        secondComer = some (events, p) ∧
      events.countP (·.returnsZero) ≤ 1 ∧
      ∀ i j, (p.shared.table i).valid = true →
        (p.shared.table i).shkey = 1 → (p.shared.table j).valid = true →
        (p.shared.table j).shkey = 1 → i = j := by
  have habsent : ∀ i, (zeroTable shmpScheme i).valid = true →
      (zeroTable shmpScheme i).shkey ≠ 1 := fun i hvalid => by cases hvalid
  have honly : ∀ turn ∈ secondComer, OnlyInserts 1 turn := by
    intro turn hturn op hop
    simp only [secondComer, List.mem_cons, List.not_mem_nil, or_false]
      at hturn
    rcases hturn with rfl | rfl | rfl | rfl | rfl | rfl | rfl <;>
      cases hop <;> exact ⟨_, _, _, rfl⟩
  have hshown : AtEveryStep (hostStep shmpScheme) TokenShown
      (.start (zeroTable shmpScheme)) secondComer := by
    iterate 6
      refine ⟨trivial, fun _ _ hstep => ?_⟩
      cases hstep
    exact ⟨.inl rfl, fun _ _ _ => trivial⟩
  exact ⟨_, _, rfl, granted_once habsent honly hshown rfl⟩

/-- Host `true` has claimed its slot and not stored the token when host `false`
tests it. -/
def unshownToken : List (Bool × Option (HostCall UInt16)) :=
  [(true, some (.insert 1 0 8 3)), (true, none),
    (false, some (.insert 1 64 8 3)), (false, none), (false, none),
    (false, none), (false, none), (false, none), (true, none), (true, none)]

/-- Both calls return 0, and two valid slots hold the token. -/
theorem not_granted_once :
    (∀ i, (zeroTable shmpScheme i).valid = true →
      (zeroTable shmpScheme i).shkey ≠ 1) ∧
    (∀ turn ∈ unshownToken, OnlyInserts 1 turn) ∧
    ∃ events p, run (hostStep shmpScheme) (.start (zeroTable shmpScheme))
        unshownToken = some (events, p) ∧
      events.countP (·.returnsZero) = 2 ∧
      ∃ i j, i ≠ j ∧ (p.shared.table i).valid = true ∧
        (p.shared.table i).shkey = 1 ∧ (p.shared.table j).valid = true ∧
        (p.shared.table j).shkey = 1 := by
  refine ⟨fun i hvalid => ?_, fun turn hturn op hop => ?_, _, _, rfl, rfl,
    hashFunction 1, hashFunction 1 + 1, by decide, rfl, rfl, rfl, rfl⟩
  · cases hvalid
  · simp only [unshownToken, List.mem_cons, List.not_mem_nil, or_false]
      at hturn
    rcases hturn with rfl | rfl | rfl | rfl | rfl | rfl | rfl | rfl | rfl | rfl
      <;> cases hop <;> exact ⟨_, _, _, rfl⟩

end SHMemora.Ports
