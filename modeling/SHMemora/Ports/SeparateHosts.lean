import SHMemora.Ports.GrantedAccesses
import SHMemora.Verified.LoneThread

/-!
# Hosts that share the mapping only

Hosts with tokens of their own, none of which may write into the regions of
another one, share the table and the data area and nothing in them: the home
slots of their tokens differ, and so do the bytes.  Each of them then runs as
if it were alone.  The turns of the others can be left out of an interleaved
run, wherever they fall between its own accesses, and its calls begin, go on
and return as before.

The states of the two runs are compared through what a host can see
(`SameView`).  The record of what has happened to the table does count the
calls of all hosts, but nothing depends on it: `TablePhase.erase` leaves it
out.

A host that runs alone makes whole calls (`LoneThread`), so that each host sees
a store on which its calls are made one after another.

## Main results

* `hosts_run_alone` — each host on the table of `gshmp.cpp`.
* `hosts_make_whole_calls` — its calls as whole calls of the store.
-/

namespace SHMemora.Ports

open SHMemora.Verified.ByteMemory
open SHMemora.Verified.StepRun
open SHMemora.Verified.ThreadPool
open SHMemora.Verified.Unwinding

/-! ## Without the record -/

section Erasure

variable {ι τ : Type} {n : Nat}

/-- An insertion without its number. -/
def InsertCall.erase (call : InsertCall ι τ) : InsertCall ι τ :=
  { call with id := 0 }

/-- A search without the record. -/
def Query.erase (query : Query ι τ) : Query ι τ :=
  { query with before := [] }

/-- What of a phase belongs to the source. -/
def TablePhase.erase : TablePhase ι τ n → TablePhase ι τ n
  | idle => idle
  | claim call i => claim call.erase i
  | testShkey call i => testShkey call.erase i
  | storeShkey call i => storeShkey call.erase i
  | storePentry call i => storePentry call.erase i
  | loopValid query i => loopValid query.erase i
  | loopShkey query i => loopShkey query.erase i
  | finalValid query i => finalValid query.erase i
  | finalShkey query i => finalShkey query.erase i
  | regionSize query wanted i _ => regionSize query.erase wanted i []
  | regionOffset query wanted i _ => regionOffset query.erase wanted i []
  | endOffset query wanted i _ => endOffset query.erase wanted i []
  | endSize query wanted i _ offset => endSize query.erase wanted i [] offset
  | permission query wanted i _ => permission query.erase wanted i []
  | storeValid query i => storeValid query.erase i

/-- The same for a host on the store. -/
def StorePhase.erase : StorePhase ι τ n → StorePhase ι τ n
  | onTable errand phase => onTable errand phase.erase
  | phase => phase

-- Proved by cases: as a definitional equation it would rewrite the test of an
-- `if` and leave the instance behind.
@[simp] theorem InsertCall.erase_shkey (call : InsertCall ι τ) :
    call.erase.shkey = call.shkey := by
  cases call
  rfl

@[simp] theorem InsertCall.erase_pentry (call : InsertCall ι τ) :
    call.erase.pentry = call.pentry := rfl

@[simp] theorem InsertCall.erase_erase (call : InsertCall ι τ) :
    call.erase.erase = call.erase := rfl

@[simp] theorem Query.erase_shkey (query : Query ι τ) :
    query.erase.shkey = query.shkey := by
  cases query
  rfl

@[simp] theorem Query.erase_erase (query : Query ι τ) :
    query.erase.erase = query.erase := rfl

theorem Query.fail_erase (query : Query ι τ) :
    query.erase.fail.reply = query.fail.reply := by
  cases hpurpose : query.purpose <;>
    simp only [Query.fail, Query.erase, hpurpose, TableEvent.reply]

theorem Query.proceed_erase (query : Query ι τ) (i : Fin n) :
    (query.erase.proceed i).erase = (query.proceed i).erase := by
  cases hpurpose : query.purpose <;>
    simp only [Query.proceed, Query.erase, hpurpose, TablePhase.erase]

theorem TablePhase.slot_erase (phase : TablePhase ι τ n) :
    phase.erase.slot = phase.slot := by
  cases phase <;> rfl

theorem StorePhase.eq_of_erase_onTable {errand : Errand τ}
    {was : TablePhase ι τ n} {phase : StorePhase ι τ n}
    (h : (onTable errand was).erase = phase.erase) :
    ∃ was', phase = onTable errand was' ∧ was.erase = was'.erase := by
  cases phase with
  | onTable errand' was' =>
      simp only [erase, onTable.injEq] at h
      exact ⟨was', by rw [h.1], h.2⟩
  | _ => cases h

end Erasure

/-! ## What an access depends on -/

section Locality

variable {ι τ : Type} [DecidableEq τ] {n : Nat} [NeZero n]
  {S : TokenScheme τ n} {phase phase' : TablePhase ι τ n}
  {σ σ' : SharedTable ι τ n} {k : Fin n}

/-- A move as the host sees it. -/
def seenMove (k : Fin n)
    (r : TableEvent ι τ × TablePhase ι τ n × SharedTable ι τ n) :
    Option TableReply × TablePhase ι τ n × HashEntry τ :=
  (r.1.reply, r.2.1.erase, r.2.2.table k)

/-- An access looks at its slot and not at the record. -/
theorem hostAccess_erase (hslot : phase.slot = some k)
    (hsame : σ.table k = σ'.table k) :
    (hostAccess S phase.erase σ').map (seenMove k) =
      (hostAccess S phase σ).map (seenMove k) := by
  cases phase <;> cases hslot <;>
    simp only [hostAccess, TablePhase.erase, InsertCall.erase_shkey,
      Query.erase_shkey, hsame]
  case claim call =>
    split <;> simp [seenMove, TablePhase.erase, SharedTable.claim, hsame]
  case loopShkey query =>
    repeat' split
    · simp [seenMove, Query.fail_erase, hsame]
    all_goals simp [seenMove, TablePhase.erase, hsame]
  case finalValid query =>
    repeat' split
    · simp [seenMove, TablePhase.erase, hsame]
    · simp [seenMove, Query.fail_erase, hsame]
    · simp [seenMove, Query.proceed_erase, hsame]
  case finalShkey query =>
    split
    · simp [seenMove, Query.fail_erase, hsame]
    · simp [seenMove, Query.proceed_erase, hsame]
  all_goals
    repeat' split
    all_goals
      simp [seenMove, TablePhase.erase, TableEvent.reply, hsame]

/-- Hosts that agree on the slot before an access do so behind it. -/
theorem hostAccess_same (herase : phase.erase = phase'.erase)
    (hslot : phase.slot = some k) (hsame : σ.table k = σ'.table k)
    {r : TableEvent ι τ × TablePhase ι τ n × SharedTable ι τ n}
    (hact : hostAccess S phase σ = some r) :
    ∃ r', hostAccess S phase' σ' = some r' ∧ r'.1.reply = r.1.reply ∧
      r.2.1.erase = r'.2.1.erase ∧ r.2.2.table k = r'.2.2.table k := by
  have hslot' : phase'.slot = some k := by
    rw [← phase'.slot_erase, ← herase, phase.slot_erase]
    exact hslot
  have hseen : (hostAccess S phase' σ').map (seenMove k) =
      some (seenMove k r) := by
    rw [← hostAccess_erase hslot' rfl, ← herase,
      hostAccess_erase hslot hsame, hact]
    rfl
  obtain ⟨r', hact', heq⟩ := Option.map_eq_some_iff.mp hseen
  simp only [seenMove, Prod.mk.injEq] at heq
  exact ⟨r', hact', heq.1, heq.2.1.symm, heq.2.2.symm⟩

/-- An access leaves the other slots alone. -/
theorem table_of_hostAccess {o : TableEvent ι τ}
    (hact : hostAccess S phase σ = some (o, phase', σ')) {j : Fin n}
    (hslot : phase.slot ≠ some j) : σ'.table j = σ.table j := by
  have hchange := tableChange_of_hostAccess hact
  have hne : ∀ i, phase.slot = some i → j ≠ i := by
    rintro i hi rfl
    exact hslot hi
  cases hchange with
  | none => rfl
  | claim call i => exact SharedTable.claim_table_of_ne (hne i rfl)
  | storeShkey call i => exact SharedTable.storeShkey_table_of_ne (hne i rfl)
  | storePentry call i =>
      exact SharedTable.storePentry_table_of_ne (hne i rfl)
  | revoke query i => exact SharedTable.revoke_table_of_ne (hne i rfl)

end Locality

/-! ## What a host sees of the store -/

section Views

variable {ι τ : Type} [DecidableEq τ] {n : Nat} [NeZero n]
  {S : TokenScheme τ n} {T : Set τ} {R : Set Nat} {dataAddr : DataAddr}
  {phase phase' next : StorePhase ι τ n} {σ σ' σ₁ : SharedStore ι τ n}
  {o : Option (GshmResult τ)}

variable (S T R) in
/-- Two states are the same to a host that uses the tokens `T` and the bytes
`R`. -/
structure SameView (phase phase' : StorePhase ι τ n)
    (σ σ' : SharedStore ι τ n) : Prop where
  phase : phase.erase = phase'.erase
  slots : ∀ t ∈ T, σ.tokens.table (S.hashFunction t) =
    σ'.tokens.table (S.hashFunction t)
  bytes : ∀ x ∈ R, σ.data x = σ'.data x

omit [DecidableEq τ] [NeZero n] in
theorem round_same (t : Transfer τ) (σ σ' : SharedStore ι τ n) (i : Nat) :
    t.round σ i = ((t.round σ' i).1, (t.round σ' i).2.1, σ) := by
  unfold Transfer.round
  split <;> rfl

omit [DecidableEq τ] [NeZero n] in
theorem behind_same (errand : Errand τ) (reply : TableReply)
    (σ σ' : SharedStore ι τ n) :
    errand.behind dataAddr reply σ = ((errand.behind dataAddr reply σ').1,
      (errand.behind dataAddr reply σ').2.1, σ) := by
  unfold Errand.behind
  split
  · rfl
  · split <;> rfl
  · split
    · unfold Transfer.start
      split
      · rfl
      · exact round_same _ σ σ' 0
    · rfl

omit [DecidableEq τ] [NeZero n] in
/-- Bytes that look the same are loaded, stored and compared the same way. -/
theorem move_same (t : Transfer τ) (i : Nat)
    (hbytes : ∀ x ∈ R, σ.data x = σ'.data x) (hplace : t.place i ∈ R) :
    (t.move σ i).1 = (t.move σ' i).1 ∧
      (t.move σ i).2.1 = (t.move σ' i).2.1 ∧
      ∀ x ∈ R, (t.move σ i).2.2.data x = (t.move σ' i).2.2.data x := by
  have hbyte := hbytes _ hplace
  unfold Transfer.move
  cases t.kind with
  | read =>
      have hload : t.load σ i = t.load σ' i := by
        simp only [Transfer.load, hbyte]
      simp only [hload]
      rw [round_same _ σ σ']
      exact ⟨rfl, rfl, by simpa using hbytes⟩
  | write =>
      simp only
      rw [round_same t (t.put σ i) (t.put σ' i)]
      refine ⟨rfl, rfl, fun x hx => ?_⟩
      simp only [round_shared, Transfer.put, Function.update_apply]
      rw [hbytes x hx]
  | compare =>
      simp only [hbyte]
      split
      · exact ⟨rfl, rfl, hbytes⟩
      · rw [round_same t σ σ']
        exact ⟨rfl, rfl, by simpa using hbytes⟩

omit [DecidableEq τ] [NeZero n] in
theorem move_tokens (t : Transfer τ) (i : Nat) :
    (t.move σ i).2.2.tokens = σ.tokens := by
  unfold Transfer.move
  split
  · rw [round_shared]
  · rw [round_shared]
    rfl
  · split
    · rfl
    · rw [round_shared]

/-- The access of a host to its own slot or to one of its own bytes. -/
theorem storeAccess_same (hview : SameView S T R phase phase' σ σ')
    (hslot : ∀ k, phase.tablePhase.slot = some k →
      ∃ t ∈ T, k = S.hashFunction t)
    (hbyte : ∀ t i, phase.nextByte = some (t, i) → t.place i ∈ R)
    (hact : storeAccess S dataAddr phase σ = some (o, next, σ₁)) :
    ∃ next' σ₁', storeAccess S dataAddr phase' σ' = some (o, next', σ₁') ∧
      SameView S T R next next' σ₁ σ₁' := by
  obtain ⟨herase, hslots, hbytes⟩ := hview
  cases phase with
  | idle => cases hact
  | onTable errand was =>
      obtain ⟨was', rfl, hwas⟩ := StorePhase.eq_of_erase_onTable herase
      obtain ⟨⟨event, after, tokens⟩, hturn, hr⟩ :=
        Option.map_eq_some_iff.mp hact
      obtain ⟨k, hk⟩ : ∃ k, was.slot = some k := by
        cases was <;> first | exact ⟨_, rfl⟩ | cases hturn
      obtain ⟨t, ht, rfl⟩ := hslot k hk
      obtain ⟨⟨event', after', tokens'⟩, hturn', hreply, hafter, htable⟩ :=
        hostAccess_same hwas hk (hslots t ht) hturn
      have hk' : was'.slot = some (S.hashFunction t) := by
        rw [← was'.slot_erase, ← hwas, was.slot_erase]
        exact hk
      have hslots' : ∀ t ∈ T, tokens.table (S.hashFunction t) =
          tokens'.table (S.hashFunction t) := by
        intro t' ht'
        by_cases heq : S.hashFunction t' = S.hashFunction t
        · rw [heq]
          exact htable
        · rw [table_of_hostAccess hturn (by simpa [hk] using Ne.symm heq),
            table_of_hostAccess hturn' (by simpa [hk'] using Ne.symm heq)]
          exact hslots t' ht'
      simp only at hreply
      unfold Errand.goOn at hr
      cases hevent : event.reply with
      | none =>
          rw [hevent] at hr hreply
          cases hr
          refine ⟨.onTable errand after', ⟨tokens', σ'.data⟩, ?_, ?_, hslots',
            hbytes⟩
          · simp only [storeAccess, hturn', Option.map_some, Errand.goOn,
              hreply]
          · exact congrArg (StorePhase.onTable errand) hafter
      | some reply =>
          rw [hevent] at hr hreply
          simp only at hr
          rw [behind_same errand reply ⟨tokens, σ.data⟩ ⟨tokens', σ'.data⟩]
            at hr
          cases hr
          refine ⟨_, ⟨tokens', σ'.data⟩, ?_, rfl, hslots', hbytes⟩
          simp only [storeAccess, hturn', Option.map_some, Errand.goOn,
            hreply]
          rw [behind_same errand reply ⟨tokens', σ'.data⟩
            ⟨tokens', σ'.data⟩]
  | copying t i =>
      cases phase' <;> cases herase
      have hmove : t.move σ i = (o, next, σ₁) := Option.some.inj hact
      have hplace := hbyte t i rfl
      obtain ⟨hshows, hnext, hdata⟩ := move_same t i hbytes hplace
      have htokens : σ₁.tokens = σ.tokens := by
        rw [← move_tokens (σ := σ) t i, hmove]
      rw [hmove] at hshows hnext hdata
      refine ⟨next, (t.move σ' i).2.2, ?_, rfl, ?_, hdata⟩
      · simp only at hshows hnext
        rw [hshows, hnext]
        rfl
      · rw [htokens, move_tokens]
        exact hslots
  | differing t i =>
      cases phase' <;> cases herase
      cases hact
      refine ⟨.idle, σ', ?_, rfl, hslots, hbytes⟩
      simp only [storeAccess, Transfer.difference, hbytes _ (hbyte t i rfl)]

omit [DecidableEq τ] [NeZero n] in
/-- A call begins the same way on any table. -/
theorem begin_erase (call : HostCall τ) (host : ι)
    (tokens tokens' : SharedTable ι τ n) :
    (call.begin S host tokens).erase = (call.begin S host tokens').erase := by
  cases call <;> rfl

/-- **Turn lemma**: a host that keeps to its own tokens and bytes does the same
in states that are the same to it. -/
theorem storeTurn_same {members : ι → Member τ} {i : ι}
    {call : Option (GshmOp τ × (Nat → Nat))}
    (hview : SameView S T R phase phase' σ σ')
    (hslot : ∀ k, phase.tablePhase.slot = some k →
      ∃ t ∈ T, k = S.hashFunction t)
    (hbyte : ∀ t i, phase.nextByte = some (t, i) → t.place i ∈ R)
    (hact : storeTurn S members i call phase σ = some (o, next, σ₁)) :
    ∃ next' σ₁', storeTurn S members i call phase' σ' =
        some (o, next', σ₁') ∧ SameView S T R next next' σ₁ σ₁' := by
  cases call with
  | none => exact storeAccess_same hview hslot hbyte hact
  | some c =>
      cases phase <;> try cases hact
      obtain ⟨herase, hslots, hbytes⟩ := hview
      cases phase' <;> cases herase
      obtain ⟨r, hop, hr⟩ := Option.map_eq_some_iff.mp hact
      cases hr
      refine ⟨.onTable r.1 (r.2.begin S i σ'.tokens),
        ⟨{ σ'.tokens with calls := σ'.tokens.calls + 1 }, σ'.data⟩, ?_, ?_,
        hslots, hbytes⟩
      · simp only [storeTurn, hop, Option.map_some]
      · exact congrArg (StorePhase.onTable r.1) (begin_erase r.2 i _ _)

end Views

/-! ## Hosts with tokens of their own -/

section Owners

variable {ι τ : Type} [DecidableEq τ] {n : Nat} [NeZero n]
  {S : TokenScheme τ n} {G : τ → ProtectionEntry → Prop}
  {members : ι → Member τ} {T : ι → Set τ} {data : Bytes}
  {p : StorePool ι τ n} {i j : ι} {o : Option (GshmResult τ)}
  {call : Option (GshmOp τ × (Nat → Nat))} {phase : StorePhase ι τ n}
  {σ : SharedStore ι τ n}

variable (T p) in
/-- The hosts are in calls with their own tokens. -/
structure OwnTokens : Prop where
  calls : ∀ j c, (p.phase j).tablePhase.call = some c → c.shkey ∈ T j
  transfers : ∀ j t, (p.phase j).transfer = some t → t.shkey ∈ T j

/-- The bytes of the regions of a host. -/
def share (G : τ → ProtectionEntry → Prop) (T : Set τ) : Set Nat :=
  {x | ∃ shkey ∈ T, ∃ region, G shkey region ∧ region.Covers x}

/-- The bytes of the regions that a host may write. -/
def writableShare (G : τ → ProtectionEntry → Prop) (T : Set τ) : Set Nat :=
  {x | ∃ shkey ∈ T, ∃ region, G shkey region ∧
    region.permission &&& AccessKind.write.bit ≠ 0 ∧ region.Covers x}

omit [DecidableEq τ] [NeZero n] in
/-- The token of an access is that of its call on the table. -/
theorem shkey_of_onTable {useMac : Bool} {op : GshmOp τ} {rand : Nat → Nat}
    {t : Transfer τ} {table : HostCall τ}
    (hop : op.onTable S useMac rand = some (.transfer t, table)) :
    table.call.shkey = t.shkey := by
  cases op <;> cases hop <;> rfl

variable [DecidableEq ι]

/-- **Step lemma**: a host whose calls use its own tokens. -/
theorem OwnTokens.turn (h : OwnTokens T p)
    (hown : ∀ op rand errand table, call = some (op, rand) →
      op.onTable S (members i).useMac rand = some (errand, table) →
        table.call.shkey ∈ T i)
    (hchange : StoreChange S members i (p.phase i) p.shared call phase σ) :
    OwnTokens T (p.advance i phase σ) := by
  refine ⟨fun j c hcall => ?_, fun j t htransfer => ?_⟩ <;> by_cases hj : j = i
  · rw [hj, Pool.advance_phase_self] at hcall
    rw [hj]
    rcases hchange.tableCall hcall with
      hold | ⟨op, rand, errand, table, hbegin, hop, rfl⟩
    · exact h.calls i c hold
    · exact hown op rand errand table hbegin hop
  · rw [Pool.advance_phase_of_ne p hj] at hcall
    exact h.calls j c hcall
  · rw [hj, Pool.advance_phase_self] at htransfer
    rw [hj]
    rcases hchange.transfer htransfer with
      ⟨t₀, hold, hsame⟩ | ⟨op, rand, table, hbegin, hop⟩
    · rw [hsame.shkey]
      exact h.transfers i t₀ hold
    · rw [← shkey_of_onTable hop]
      exact hown op rand _ table hbegin hop
  · rw [Pool.advance_phase_of_ne p hj] at htransfer
    exact h.transfers j t htransfer

omit [DecidableEq ι] [DecidableEq τ] [NeZero n] in
/-- A host looks at the home slot of one of its tokens. -/
theorem OwnTokens.slot (h : OwnTokens T p)
    (hsound : TableSound S p.tablePool) {k : Fin n}
    (hslot : (p.phase i).tablePhase.slot = some k) :
    ∃ t ∈ T i, k = S.hashFunction t := by
  obtain ⟨c, hcall⟩ : ∃ c, (p.phase i).tablePhase.call = some c := by
    cases hphase : (p.phase i).tablePhase <;> rw [hphase] at hslot <;>
      first | exact ⟨_, rfl⟩ | cases hslot
  exact ⟨c.shkey, h.calls i c hcall, hsound.slots i c k hcall hslot⟩

omit [DecidableEq ι] in
/-- A turn leaves the slots alone that its host is not looking at. -/
theorem StoreChange.table
    (hchange : StoreChange S members i (p.phase i) p.shared call phase σ)
    {k : Fin n} (hslot : (p.phase i).tablePhase.slot ≠ some k) :
    σ.tokens.table k = p.shared.tokens.table k := by
  cases hchange with
  | begin => rfl
  | search hphase hact =>
      rw [hphase] at hslot
      exact table_of_hostAccess hact hslot
  | returned hphase hact =>
      rw [hphase] at hslot
      exact table_of_hostAccess hact hslot
  | passed hphase hact =>
      rw [hphase] at hslot
      exact table_of_hostAccess hact hslot
  | byte hphase hmoves hput => rcases hput with rfl | ⟨-, rfl⟩ <;> rfl

/-- **Turn lemma**: the turn of another host cannot be seen. -/
theorem SameView.hidden (hinj : Function.Injective S.hashFunction)
    (hG : ∀ shkey region, G shkey region → region.offset + region.size < 2 ^ 64)
    (hgranted : RunGranted S G data p) (hown : OwnTokens T p)
    (hne : j ≠ i) (hapart : ∀ t ∈ T j, t ∉ T i)
    (hseparate : ∀ x ∈ writableShare G (T j), x ∉ share G (T i))
    {phase' : StorePhase ι τ n} {σ' : SharedStore ι τ n}
    (hview : SameView S (T i) (share G (T i)) (p.phase i) phase' p.shared σ')
    (hchange : StoreChange S members j (p.phase j) p.shared call phase σ) :
    SameView S (T i) (share G (T i)) ((p.advance j phase σ).phase i) phase'
      (p.advance j phase σ).shared σ' := by
  refine ⟨?_, fun t ht => ?_, fun x hx => ?_⟩
  · rw [Pool.advance_phase_of_ne p hne.symm]
    exact hview.phase
  · rw [Pool.advance_shared, hchange.table ?_]
    · exact hview.slots t ht
    · intro hslot
      obtain ⟨t', ht', heq⟩ := hown.slot hgranted.grants.sound hslot
      exact hapart t' ht' (hinj heq ▸ ht)
  · rw [Pool.advance_shared, ← hview.bytes x hx]
    rcases hchange.data with hsame | ⟨t, k, hnext, hkind, hput⟩
    · rw [hsame]
    · obtain ⟨region, hregion, hpermission, hcovers⟩ :=
        hgranted.covered hG hnext
      rw [hkind] at hpermission
      have hwritable : t.place k ∈ writableShare G (T j) :=
        ⟨t.shkey, hown.transfers j t (transfer_of_nextByte hnext), region,
          hregion, hpermission, hcovers⟩
      have hplace : x ≠ t.place k := by
        rintro rfl
        exact hseparate _ hwritable hx
      rw [hput, Function.update_of_ne hplace]

end Owners

/-! ## Runs -/

section Runs

variable {ι τ : Type} [DecidableEq ι] [DecidableEq τ] {n : Nat} [NeZero n]
  {S : TokenScheme τ n} {G : τ → ProtectionEntry → Prop}
  {members : ι → Member τ} {T : ι → Set τ}

/-- What the turns of a host show. -/
def ofHost {α ω : Type} (i : ι) (turns : List (ι × α)) (events : List ω) :
    List ω :=
  ((turns.zip events).filter fun r => decide (r.1.1 = i)).map Prod.snd

variable (S members T) in
/-- The calls of each host use its own tokens. -/
def CallsOwn (turns : List (ι × Option (GshmOp τ × (Nat → Nat)))) : Prop :=
  ∀ i op rand errand table, (i, some (op, rand)) ∈ turns →
    op.onTable S (members i).useMac rand = some (errand, table) →
      table.call.shkey ∈ T i

variable {data : Bytes} {p q p' : StorePool ι τ n} {i : ι}

variable (S G T data i) in
/-- A run among the other hosts and the run of a host alone. -/
structure RunsAlike (p q : StorePool ι τ n) : Prop where
  granted : RunGranted S G data p
  owned : OwnTokens T p
  view : SameView S (T i) (share G (T i)) (p.phase i) (q.phase i) p.shared
    q.shared

omit [DecidableEq ι] [NeZero n] in
variable (T) in
/-- Nothing has happened yet. -/
theorem RunsAlike.start {table : ProtectionTable τ n} {m : TokenMap τ}
    (hrep : Represents S table m)
    (hbound : ∀ shkey region, m shkey = some region → G shkey region) :
    RunsAlike S G T data i (.start table data) (.start table data) :=
  ⟨.start hrep hbound data, ⟨fun _ _ hcall => (nomatch hcall),
    fun _ _ htransfer => (nomatch htransfer)⟩, rfl, fun _ _ => rfl,
    fun _ _ => rfl⟩

variable (hinj : Function.Injective S.hashFunction)
  (hG : ∀ shkey region, G shkey region → region.offset + region.size < 2 ^ 64)
  (hapart : ∀ i j, i ≠ j → ∀ t ∈ T i, t ∉ T j)
  (hseparate : ∀ i j, i ≠ j → ∀ x ∈ writableShare G (T j), x ∉ share G (T i))
  {turns : List (ι × Option (GshmOp τ × (Nat → Nat)))}
  (hrequest : ∀ i c, (i, some c) ∈ turns →
    RequestGranted S G (members i).useMac c)
  (hordinary : ∀ i c, (i, some c) ∈ turns → OrdinaryCall S c.1)
  (hown : CallsOwn S members T turns)
include hinj hG hapart hseparate hrequest hordinary hown

/-- **Step lemma**: the host takes the turn on its own as well, and does not
see the turns of the others. -/
theorem RunsAlike.turn (h : RunsAlike S G T data i p q)
    {turn : ι × Option (GshmOp τ × (Nat → Nat))} {o : Option (GshmResult τ)}
    (hmem : turn ∈ turns) (hcalm : CalmTokens p.tablePool)
    (hstep : storeStep S members p turn = some (o, p')) :
    (turn.1 = i → ∃ q', storeStep S members q turn = some (o, q') ∧
        RunsAlike S G T data i p' q') ∧
      (turn.1 ≠ i → RunsAlike S G T data i p' q) := by
  obtain ⟨phase, σ, hact, rfl⟩ := poolStep_eq_some_iff.mp hstep
  obtain ⟨j, call⟩ := turn
  have hchange := storeChange_of_turn hact fun t k hnext =>
    (h.granted.grants.byte hnext).1
  have hgranted := h.granted.turn hG hinj hcalm
    (fun c hc => hrequest j c (by rw [← hc]; exact hmem))
    (fun c hc => hordinary j c (by rw [← hc]; exact hmem)) hact
  have howned := h.owned.turn (fun op rand errand table hc =>
    hown j op rand errand table (by rw [← hc]; exact hmem)) hchange
  refine ⟨fun hj => ?_, fun hj => ?_⟩
  · obtain rfl : j = i := hj
    obtain ⟨next, σ', hact', hsame⟩ := storeTurn_same h.view
      (fun k => h.owned.slot h.granted.grants.sound)
      (fun t k hnext => by
        obtain ⟨region, hregion, -, hcovers⟩ := h.granted.covered hG hnext
        exact ⟨t.shkey, h.owned.transfers j t (transfer_of_nextByte hnext),
          region, hregion, hcovers⟩) hact
    refine ⟨q.advance j next σ', poolStep_eq_some_iff.mpr
      ⟨next, σ', hact', rfl⟩, hgranted, howned, ?_⟩
    simpa using hsame
  · exact ⟨hgranted, howned, h.view.hidden hinj hG h.granted h.owned hj
      (hapart j i hj) (hseparate i j (Ne.symm hj)) hchange⟩

/-- **Run lemma**: a host among hosts with other tokens and other bytes runs as
it does alone. -/
theorem runsAlike_of_run {table : ProtectionTable τ n} {m : TokenMap τ}
    (hrep : Represents S table m)
    (hbound : ∀ shkey region, m shkey = some region → G shkey region)
    {events : List (Option (GshmResult τ))}
    (hrun : run (storeStep S members) (.start table data) turns =
      some (events, p)) (i : ι) :
    ∃ q, run (storeStep S members) (.start table data)
        (turns.filter fun turn => decide (turn.1 = i)) =
          some (ofHost i turns events, q) ∧ RunsAlike S G T data i p q := by
  have hcalm := calm_of_apart hapart hown table data
  have hall := atEveryStep_and_all hcalm (R := fun turn => turn ∈ turns)
    fun _ hmem => hmem
  refine run_filter (fun p q turn o p' h hturn hsee hstep => ?_)
    (fun p q turn o p' h hturn hsee hstep => ?_)
    (.start T hrep hbound) hall hrun
  · exact (h.turn hinj hG hapart hseparate hrequest hordinary hown hturn.1
      hturn.2 hstep).1 (of_decide_eq_true hsee)
  · exact (h.turn hinj hG hapart hseparate hrequest hordinary hown hturn.1
      hturn.2 hstep).2 (of_decide_eq_false hsee)

end Runs

/-! ## Whole calls -/

section Whole

variable {ι τ : Type} [DecidableEq ι] [DecidableEq τ] {n : Nat} [NeZero n]
  {S : TokenScheme τ n} {members : ι → Member τ}

omit [DecidableEq ι] [DecidableEq τ] [NeZero n] in
theorem isAccess_of_onTable {useMac : Bool} {op : GshmOp τ}
    {rand : Nat → Nat} {r : Errand τ × HostCall τ}
    (hop : op.onTable S useMac rand = some r) : op.IsAccess := by
  cases op <;> cases hop <;> trivial

/-- The call that a turn of a host begins. -/
def callBegun (i : ι) (call : Option (GshmOp τ × (Nat → Nat))) :
    Option (StoreCall ι τ) :=
  call.map fun c => ⟨i, c.1, c.2⟩

/-- The calls that a host begins. -/
def callsOf (i : ι) (turns : List (ι × Option (GshmOp τ × (Nat → Nat)))) :
    List (StoreCall ι τ) :=
  (turns.filter fun turn => decide (turn.1 = i)).filterMap fun turn =>
    callBegun i turn.2

/-- **Run lemma**: a host that runs alone makes whole calls, up to a last one
that is under way. -/
theorem wholeCalls_of_run (fuel : Nat) {f : Fleet τ n ι} {i : ι}
    {turns : List (ι × Option (GshmOp τ × (Nat → Nat)))}
    {events : List (Option (GshmResult τ))} {p : StorePool ι τ n}
    (hrun : run (storeStep S f.members) (.start f.table f.data)
      (turns.filter fun turn => decide (turn.1 = i)) = some (events, p)) :
    ∃ f', run (fleetCall S fuel) f ((callsOf i turns).take
          (events.filterMap (Option.map some)).length) =
        some (events.filterMap (Option.map some), f') ∧
      (callsOf i turns).length ≤
        (events.filterMap (Option.map some)).length + 1 ∧
      (p.phase i = .idle → (callsOf i turns).length =
          (events.filterMap (Option.map some)).length ∧
        p.shared.tokens.table = f'.table ∧ p.shared.data = f'.data) := by
  have hbusy : ∀ a b phase (σ : SharedStore ι τ n) r, callBegun i a = some b →
      storeTurn S f.members i a phase σ = some r → phase = .idle := by
    intro a b phase σ r hbegun hact
    cases a with
    | none => cases hbegun
    | some c =>
        cases phase with
        | idle => rfl
        | _ => cases hact
  have hbegin : ∀ (σ : SharedStore ι τ n) (g : Fleet τ n ι) a b r,
      (σ.tokens.table = g.table ∧ σ.data = g.data ∧ g.members = f.members) →
      callBegun i a = some b →
      storeTurn S f.members i a .idle σ = some r → r.1 = none ∧
        ∃ result g' o σ', fleetCall S fuel g b = some (result, g') ∧
          Option.map some o = some result ∧
          Leads (storeTurn S f.members i none) none r (o, .idle, σ') ∧
          σ'.tokens.table = g'.table ∧ σ'.data = g'.data ∧
            g'.members = f.members := by
    rintro σ g a b r ⟨htable, hdata, hmembers⟩ hbegun hact
    obtain ⟨⟨op, rand⟩, rfl, rfl⟩ := Option.map_eq_some_iff.mp hbegun
    obtain ⟨⟨errand, call⟩, hop, -⟩ := Option.map_eq_some_iff.mp hact
    obtain ⟨result, g', r', σ', hreturns, hmembers', hbegin, hquiet, hleads,
      htable', hdata'⟩ := leads_of_storeCall (S := S) fuel htable hdata
        ⟨i, op, rand⟩ (isAccess_of_onTable hop)
    rw [hmembers] at hbegin hleads
    cases hbegin.symm.trans hact
    exact ⟨hquiet, some result, g', some result, σ', hreturns, rfl, hleads,
      htable', hdata', hmembers'.trans hmembers⟩
  have hstart : LoneThread (storeTurn S f.members) (fleetCall S fuel)
      (fun σ g => σ.tokens.table = g.table ∧ σ.data = g.data ∧
        g.members = f.members) (Option.map some) i none .idle none
      (.start f.table f.data : StorePool ι τ n) f [] :=
    .rests rfl ⟨rfl, rfl, rfl⟩
  obtain ⟨f', hcalls, hle, hend⟩ := run_loneThread
    (fun a ha => Option.map_eq_none_iff.mp ha) rfl (fun _ => rfl) hbusy hbegin
    hstart (fun turn hmem => of_decide_eq_true (List.mem_filter.mp hmem).2)
    hrun
  exact ⟨f', hcalls, hle, fun hidle =>
    ⟨(hend hidle).1, (hend hidle).2.1, (hend hidle).2.2.1⟩⟩

end Whole

/-! ## The table of `gshmp.cpp` -/

section Shmp

variable {ι : Type} [DecidableEq ι] {members : ι → Member UInt16}
  {T : ι → Set UInt16} {m : TokenMap UInt16} {data : Bytes}
  {turns : List (ι × Option (GshmOp UInt16 × (Nat → Nat)))}
  {events : List (Option (GshmResult UInt16))}
  {p : StorePool ι UInt16 hashTableSize}

variable (members T m turns) in
omit [DecidableEq ι] in
/-- Hosts that keep apart: each one uses tokens of its own, not the global key,
and no region of one that may be written overlaps a region of another one.  The
ranges do not run over the end of the address space, and the regions end below
the table. -/
structure KeepApart : Prop where
  ordinary : ∀ i c, (i, some c) ∈ turns → OrdinaryCall shmpScheme c.1
  regions : ∀ shkey region, Granted members m turns shkey region →
    region.offset + region.size ≤ 2 ^ 64 - tableBytes shmpScheme
  tokens : ∀ i j, i ≠ j → ∀ t ∈ T i, t ∉ T j
  own : CallsOwn shmpScheme members T turns
  bytes : ∀ i j, i ≠ j →
    ∀ x ∈ writableShare (Granted members m turns) (T j),
      x ∉ share (Granted members m turns) (T i)

/-- The two runs of a host, among the others and alone. -/
theorem runsAlike_of_keepApart (h : KeepApart members T m turns)
    {table : ProtectionTable UInt16 hashTableSize}
    (hrep : Represents shmpScheme table m)
    (hrun : run (storeStep shmpScheme members) (.start table data) turns =
      some (events, p)) (i : ι) :
    ∃ q, run (storeStep shmpScheme members) (.start table data)
        (turns.filter fun turn => decide (turn.1 = i)) =
          some (ofHost i turns events, q) ∧
      RunsAlike shmpScheme (Granted members m turns) T data i p q := by
  have hbytes : tableBytes shmpScheme = 2 ^ 25 * 40 := rfl
  have hG : ∀ shkey region, Granted members m turns shkey region →
      region.offset + region.size < 2 ^ 64 := by
    intro shkey region hregion
    have hend := h.regions shkey region hregion
    omega
  exact runsAlike_of_run hashFunction_injective hG h.tokens h.bytes
    (fun i c hmem offset size permission hop => .inr
      ⟨i, offset, size, permission, c.2, by rw [← hop]; exact hmem, rfl, rfl⟩)
    h.ordinary h.own hrep (fun _ _ hbound => .inl hbound) hrun i

/-- Hosts that keep apart acquire and revoke tokens and access the data area,
slot by slot and byte by byte in any order.  A host makes the same accesses with
the same results if the turns of all others are left out, and the slots of its
tokens and the bytes of its regions end up the same. -/
theorem hosts_run_alone {table : ProtectionTable UInt16 hashTableSize}
    (hrep : Represents shmpScheme table m)
    (hapart : KeepApart members T m turns)
    (hrun : run (storeStep shmpScheme members) (.start table data) turns =
      some (events, p)) (i : ι) :
    ∃ q, run (storeStep shmpScheme members) (.start table data)
        (turns.filter fun turn => decide (turn.1 = i)) =
          some (ofHost i turns events, q) ∧
      (∀ t ∈ T i, p.shared.tokens.table (hashFunction t) =
        q.shared.tokens.table (hashFunction t)) ∧
      ∀ x ∈ share (Granted members m turns) (T i),
        p.shared.data x = q.shared.data x := by
  obtain ⟨q, halone, halike⟩ := runsAlike_of_keepApart hapart hrep hrun i
  exact ⟨q, halone, halike.view.slots, halike.view.bytes⟩

/-- What is more, the calls of a host that keeps apart are whole calls.  The
results they have returned are those of the calls made one after another, with
nothing in between and no other host, up to a last call that may be under way;
while none is, the slots of its tokens and the bytes of its regions are as those
calls leave them. -/
theorem hosts_make_whole_calls (fuel : Nat)
    {f : Fleet UInt16 hashTableSize ι} (hrep : Represents shmpScheme f.table m)
    (hapart : KeepApart f.members T m turns)
    (hrun : run (storeStep shmpScheme f.members) (.start f.table f.data)
      turns = some (events, p)) (i : ι) :
    ∃ results f', (ofHost i turns events).filterMap (Option.map some) =
        results ∧
      run (fleetCall shmpScheme fuel) f
        ((callsOf i turns).take results.length) = some (results, f') ∧
      (callsOf i turns).length ≤ results.length + 1 ∧
      (p.phase i = .idle → (callsOf i turns).length = results.length ∧
        (∀ t ∈ T i, p.shared.tokens.table (hashFunction t) =
          f'.table (hashFunction t)) ∧
        ∀ x ∈ share (Granted f.members m turns) (T i),
          p.shared.data x = f'.data x) := by
  obtain ⟨q, halone, halike⟩ := runsAlike_of_keepApart hapart hrep hrun i
  obtain ⟨f', hcalls, hle, hend⟩ := wholeCalls_of_run fuel halone
  refine ⟨_, f', rfl, hcalls, hle, fun hidle => ?_⟩
  have hidle' : q.phase i = .idle := by
    have herase := halike.view.phase
    rw [hidle] at herase
    cases hphase : q.phase i <;> rw [hphase] at herase <;> cases herase
  obtain ⟨hlength, htable, hdata⟩ := hend hidle'
  rw [← htable, ← hdata]
  exact ⟨hlength, halike.view.slots, halike.view.bytes⟩

end Shmp

theorem keepApart_writeBeside :
    KeepApart twoObjects.members tokensBeside (fun _ => none) writeBeside where
  ordinary _ _ hmem := ordinary_writeBeside hmem
  regions _ _ hregion := region_le_writeBeside hregion
  tokens := apart_tokensBeside
  own _ _ _ _ _ hmem hop := own_writeBeside hmem hop
  bytes := by
    rintro i j hne x ⟨t, ht, region, hregion, -, hcovers⟩
      ⟨t', ht', region', hregion', hcovers'⟩
    -- The two regions are `[0, 8)` and `[8, 16)`.
    rcases granted_writeBeside hregion with ⟨rfl, rfl⟩ | ⟨rfl, rfl⟩ <;>
      rcases granted_writeBeside hregion' with ⟨rfl, rfl⟩ | ⟨rfl, rfl⟩
    · exact apart_tokensBeside i j hne _ ht' ht
    · exact absurd (Nat.lt_of_lt_of_le hcovers.2 hcovers'.1)
        (Nat.lt_irrefl x)
    · exact absurd (Nat.lt_of_lt_of_le hcovers'.2 hcovers.1)
        (Nat.lt_irrefl x)
    · exact apart_tokensBeside i j hne _ ht' ht

/-- A host that writes runs alone, and so does the one that has acquired the
token for the bytes behind. -/
theorem hosts_run_alone_write_beside :
    ∃ events p, run (storeStep shmpScheme twoObjects.members)
        (.start (zeroTable shmpScheme) fun _ => 0) writeBeside =
          some (events, p) ∧
      ∀ i, ∃ q, run (storeStep shmpScheme twoObjects.members)
          (.start (zeroTable shmpScheme) fun _ => 0)
          (writeBeside.filter fun turn => decide (turn.1 = i)) =
            some (ofHost i writeBeside events, q) ∧
        (∀ t ∈ tokensBeside i, p.shared.tokens.table (hashFunction t) =
          q.shared.tokens.table (hashFunction t)) ∧
        ∀ x ∈ share (Granted twoObjects.members (fun _ => none) writeBeside)
          (tokensBeside i), p.shared.data x = q.shared.data x := by
  have hdone : ∃ events p, run (storeStep shmpScheme twoObjects.members)
      (.start (zeroTable shmpScheme) fun _ => 0) writeBeside =
        some (events, p) := ⟨_, _, rfl⟩
  obtain ⟨events, p, hrun⟩ := hdone
  exact ⟨events, p, hrun,
    hosts_run_alone represents_zeroTable keepApart_writeBeside hrun⟩

/-- The first host has made one call and is in its second one, the other one has
made its only call. -/
theorem hosts_make_whole_calls_write_beside :
    ∃ events p, run (storeStep shmpScheme twoObjects.members)
        (.start twoObjects.table twoObjects.data) writeBeside =
          some (events, p) ∧
      ∀ i, ∃ results f',
        (ofHost i writeBeside events).filterMap (Option.map some) = results ∧
        run (fleetCall shmpScheme 0) twoObjects
          ((callsOf i writeBeside).take results.length) =
            some (results, f') ∧
        (callsOf i writeBeside).length ≤ results.length + 1 ∧
        (p.phase i = .idle →
          (callsOf i writeBeside).length = results.length ∧
          (∀ t ∈ tokensBeside i, p.shared.tokens.table (hashFunction t) =
            f'.table (hashFunction t)) ∧
          ∀ x ∈ share (Granted twoObjects.members (fun _ => none) writeBeside)
            (tokensBeside i), p.shared.data x = f'.data x) := by
  have hdone : ∃ events p, run (storeStep shmpScheme twoObjects.members)
      (.start twoObjects.table twoObjects.data) writeBeside =
        some (events, p) := ⟨_, _, rfl⟩
  obtain ⟨events, p, hrun⟩ := hdone
  exact ⟨events, p, hrun,
    hosts_make_whole_calls 0 represents_zeroTable keepApart_writeBeside hrun⟩

end SHMemora.Ports
