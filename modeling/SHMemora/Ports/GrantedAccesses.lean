import SHMemora.Ports.AtomicTable
import SHMemora.Ports.Noninterference
import SHMemora.Ports.StoreThreads

/-!
# What interleaved accesses can touch

An access tests its token first and moves its bytes afterwards, while other
hosts insert and revoke tokens.  In a calm run (no token is inserted while
another call on it is under way, and none is revoked by two hosts at a time)
this is safe in one respect: whatever byte a host is about to load or store, a
region that was granted for the token covers it with the permission needed.
It need not be granted any more: a token that is revoked behind the tests is
used up to the end of the loop.

## Main result

* `accesses_granted` — the bytes that hosts touch in calm runs on the table of
  `gshmp.cpp`, and the bytes that stay as they are.
-/

namespace SHMemora.Ports

open SHMemora.Verified.ByteMemory
open SHMemora.Verified.StepRun
open SHMemora.Verified.ThreadPool

/-! ## The table within the store -/

section Projection

variable {ι τ : Type} {n : Nat}

namespace StorePhase

/-- The access to a slot that comes next. -/
def tablePhase : StorePhase ι τ n → TablePhase ι τ n
  | onTable _ phase => phase
  | _ => .idle

/-- The byte that comes next. -/
def nextByte : StorePhase ι τ n → Option (Transfer τ × Nat)
  | copying t i => some (t, i)
  | differing t i => some (t, i)
  | _ => none

end StorePhase

/-- The hosts as the table sees them. -/
def StorePool.tablePool (p : StorePool ι τ n) : TablePool ι τ n :=
  ⟨p.shared.tokens, fun i => (p.phase i).tablePhase⟩

theorem tablePool_phase (p : StorePool ι τ n) (i : ι) :
    p.tablePool.phase i = (p.phase i).tablePhase := rfl

variable [DecidableEq ι] (p : StorePool ι τ n) (i : ι)

@[simp] theorem tablePool_advance (phase : StorePhase ι τ n)
    (σ : SharedStore ι τ n) :
    StorePool.tablePool (p.advance i phase σ) =
      (StorePool.tablePool p).advance i phase.tablePhase σ.tokens := by
  simp only [StorePool.tablePool, Pool.advance, Pool.mk.injEq, true_and]
  funext j
  by_cases hj : j = i
  · simp [hj]
  · simp [hj]

/-- A turn that does not concern the table. -/
theorem tablePool_advance_eq {phase : StorePhase ι τ n}
    {σ : SharedStore ι τ n} (hwas : (p.phase i).tablePhase = .idle)
    (his : phase.tablePhase = .idle) (htokens : σ.tokens = p.shared.tokens) :
    StorePool.tablePool (p.advance i phase σ) = StorePool.tablePool p := by
  rw [tablePool_advance, his, htokens, ← hwas]
  simp only [StorePool.tablePool, Pool.advance, Pool.mk.injEq, true_and]
  exact Function.update_eq_self i fun i => (p.phase i).tablePhase

end Projection

/-! ## What a turn can do -/

section Moves

variable {ι τ : Type} [DecidableEq τ] {n : Nat} [NeZero n]
  {S : TokenScheme τ n} {dataAddr : DataAddr} {t : Transfer τ} {i : Nat}
  {σ : SharedStore ι τ n} {m : StoreMove ι τ n}

/-- Two states of the same call of an access function; the buffer may have been
filled. -/
structure Transfer.SameCall (t t' : Transfer τ) : Prop where
  kind : t'.kind = t.kind
  offset : t'.offset = t.offset
  size : t'.size = t.size
  shkey : t'.shkey = t.shkey

/-- What a turn behind the tests can leave behind: the call has returned, or
another byte of it comes next. -/
inductive MovesOn (t : Transfer τ) : StorePhase ι τ n → Prop
  | idle : MovesOn t .idle
  | copying {t' : Transfer τ} {i : Nat} (hsame : t.SameCall t')
      (hlt : i < t.size) : MovesOn t (.copying t' i)
  | differing {i : Nat} (hlt : i < t.size) : MovesOn t (.differing t i)

omit [DecidableEq τ] [NeZero n] in
theorem movesOn_round {t' : Transfer τ} (hsame : t.SameCall t')
    (σ : SharedStore ι τ n) (i : Nat) : MovesOn t (t'.round σ i).2.1 := by
  unfold Transfer.round
  split
  · rename_i hlt
    exact .copying hsame (hsame.size ▸ hlt)
  · exact .idle

omit [DecidableEq τ] [NeZero n] in
@[simp] theorem round_shared (t : Transfer τ) (σ : SharedStore ι τ n)
    (i : Nat) : (t.round σ i).2.2 = σ := by
  unfold Transfer.round
  split <;> rfl

omit [DecidableEq τ] [NeZero n] in
theorem movesOn_start (t : Transfer τ) (σ : SharedStore ι τ n) :
    MovesOn t (t.start σ dataAddr).2.1 := by
  unfold Transfer.start
  split
  · exact .idle
  · exact movesOn_round ⟨rfl, rfl, rfl, rfl⟩ σ 0

omit [DecidableEq τ] [NeZero n] in
@[simp] theorem start_shared (t : Transfer τ) (σ : SharedStore ι τ n) :
    (t.start σ dataAddr).2.2 = σ := by
  unfold Transfer.start
  split
  · rfl
  · exact round_shared t σ 0

omit [DecidableEq τ] [NeZero n] in
/-- **Inversion lemma**: all that the load or store of a byte can do. -/
theorem move_cases (hlt : i < t.size) :
    MovesOn t (t.move σ i).2.1 ∧
      ((t.move σ i).2.2 = σ ∨
        t.kind = .write ∧ (t.move σ i).2.2 = t.put σ i) := by
  unfold Transfer.move
  cases hkind : t.kind with
  | read =>
      have hsame : t.SameCall (t.load σ i) := ⟨rfl, rfl, rfl, rfl⟩
      exact ⟨movesOn_round hsame σ (i + 1), .inl (round_shared ..)⟩
  | write =>
      exact ⟨movesOn_round ⟨rfl, rfl, rfl, rfl⟩ _ (i + 1),
        .inr ⟨rfl, round_shared ..⟩⟩
  | compare =>
      simp only
      split
      · exact ⟨.differing hlt, .inl rfl⟩
      · exact ⟨movesOn_round ⟨rfl, rfl, rfl, rfl⟩ σ (i + 1),
          .inl (round_shared ..)⟩

/-- A call on the table that shows its result has returned. -/
theorem idle_of_reply {phase phase' : TablePhase ι τ n}
    {tokens tokens' : SharedTable ι τ n} {o : TableEvent ι τ}
    {reply : TableReply}
    (hact : hostAccess S phase tokens = some (o, phase', tokens'))
    (hreply : o.reply = some reply) : phase' = .idle := by
  cases phase <;> simp only [hostAccess] at hact
  case idle => cases hact
  all_goals
    repeat' split at hact
    all_goals
      cases hact
      first | rfl | cases hreply

/-- A call on the table that shows nothing goes on. -/
theorem call_of_quiet {phase phase' : TablePhase ι τ n}
    {tokens tokens' : SharedTable ι τ n} {o : TableEvent ι τ}
    (hact : hostAccess S phase tokens = some (o, phase', tokens'))
    (hquiet : o.reply = none) : phase'.call = phase.call := by
  cases phase <;> simp only [hostAccess] at hact
  case idle => cases hact
  all_goals
    repeat' split at hact
    all_goals
      cases hact
      first
        | rfl
        | (unfold Query.proceed; split <;> simp [*, TablePhase.call])
        | (unfold Query.fail at hquiet; split at hquiet <;> cases hquiet)
        | cases hquiet

/-- An access is allowed by the last test. -/
theorem permission_of_passed {phase phase' : TablePhase ι τ n}
    {tokens tokens' : SharedTable ι τ n} {o : TableEvent ι τ}
    (hact : hostAccess S phase tokens = some (o, phase', tokens'))
    (hpassed : o.reply = some (.verdict none)) :
    ∃ query wanted k used, phase = .permission query wanted k used ∧
      ¬ ((tokens.table k).pentry.permission &&& wanted.bit = 0 ∧
        query.shkey ≠ S.globalKey) := by
  cases phase <;> simp only [hostAccess] at hact
  case idle => cases hact
  case permission query wanted k used =>
    split at hact
    · cases hact
      cases hpassed
    · exact ⟨query, wanted, k, used, rfl, ‹_›⟩
  all_goals
    repeat' split at hact
    all_goals
      cases hact
      first
        | cases hpassed
        | (unfold Query.fail at hpassed; split at hpassed <;> cases hpassed)

end Moves

/-! ## What a turn binds -/

section Bound

variable {ι τ : Type} [DecidableEq ι] [DecidableEq τ] {n : Nat} [NeZero n]
  {S : TokenScheme τ n}

/-- A token is bound by the last store of its insertion only. -/
theorem bound_of_turn (hinj : Function.Injective S.hashFunction)
    {q : TablePool ι τ n} (h : TableSound S q) (hcalm : CalmTokens q) {i : ι}
    {o : TableEvent ι τ} {phase' : TablePhase ι τ n}
    {tokens' : SharedTable ι τ n}
    (hact : hostAccess S (q.phase i) q.shared = some (o, phase', tokens'))
    {shkey : τ} {region : ProtectionEntry}
    (hbound : boundTokens S (q.advance i phase' tokens') shkey =
      some region) :
    boundTokens S q shkey = some region ∨
      (q.phase i).call = some (.insert shkey region) := by
  cases hphase : q.phase i <;> rw [hphase] at hact <;>
    simp only [hostAccess] at hact
  case idle => cases hact
  case claim call k =>
    split at hact
    · rename_i hfree
      cases hact
      rw [boundTokens_claim hinj h hphase hfree] at hbound
      exact .inl hbound
    · cases hact
      rw [boundTokens_quiet (by rw [hphase]; rfl)] at hbound
      exact .inl hbound
  case storeShkey call k =>
    cases hact
    rw [boundTokens_storeShkey hinj h hphase] at hbound
    exact .inl hbound
  case storePentry call k =>
    cases hact
    rw [boundTokens_storePentry hinj h hcalm hphase] at hbound
    by_cases hshkey : shkey = call.shkey
    · rw [hshkey, Function.update_self] at hbound
      cases hbound
      rw [hshkey]
      exact .inr rfl
    · rw [Function.update_of_ne hshkey] at hbound
      exact .inl hbound
  case storeValid query k =>
    cases hact
    rw [boundTokens_revoke hinj h hphase] at hbound
    by_cases hshkey : shkey = query.shkey
    · rw [hshkey, Function.update_self] at hbound
      cases hbound
    · rw [Function.update_of_ne hshkey] at hbound
      exact .inl hbound
  all_goals
    repeat' split at hact
    all_goals
      cases hact
      rw [boundTokens_quiet (by
        rw [hphase]
        first | rfl | (unfold Query.proceed; split <;> rfl))] at hbound
      exact .inl hbound

end Bound

/-! ## Turns -/

section Changes

variable {ι τ : Type} [DecidableEq τ] {n : Nat} [NeZero n]
  {S : TokenScheme τ n} {members : ι → Member τ} {i : ι}
  {call : Option (GshmOp τ × (Nat → Nat))} {phase phase' : StorePhase ι τ n}
  {σ σ' : SharedStore ι τ n} {o : Option (GshmResult τ)}

omit [DecidableEq τ] [NeZero n] in
/-- What follows a call on the table: it is over, or the loop begins. -/
theorem behind_cases (dataAddr : DataAddr) (errand : Errand τ)
    (reply : TableReply) (σ : SharedStore ι τ n) :
    (errand.behind dataAddr reply σ).2.2 = σ ∧
      ((errand.behind dataAddr reply σ).2.1 = .idle ∨
        ∃ t, errand = .transfer t ∧ reply = .verdict none ∧
          MovesOn t (errand.behind dataAddr reply σ).2.1) := by
  unfold Errand.behind
  split
  · exact ⟨rfl, .inl rfl⟩
  · split <;> exact ⟨rfl, .inl rfl⟩
  · split
    · exact ⟨start_shared _ σ, .inr ⟨_, rfl, rfl, movesOn_start _ σ⟩⟩
    · exact ⟨rfl, .inl rfl⟩

variable (S members i phase σ) in
/-- All that a turn can do: it begins a call, makes an access to the table,
after which the call goes on, is over or has passed its tests, or moves a
byte. -/
inductive StoreChange : Option (GshmOp τ × (Nat → Nat)) →
    StorePhase ι τ n → SharedStore ι τ n → Prop
  | begin {op : GshmOp τ} {rand : Nat → Nat} {errand : Errand τ}
      {call : HostCall τ} (hphase : phase = .idle)
      (hop : op.onTable S (members i).useMac rand = some (errand, call)) :
      StoreChange (some (op, rand))
        (.onTable errand (call.begin S i σ.tokens))
        ⟨{ σ.tokens with calls := σ.tokens.calls + 1 }, σ.data⟩
  | search {errand : Errand τ} {was next : TablePhase ι τ n}
      {event : TableEvent ι τ} {tokens : SharedTable ι τ n}
      (hphase : phase = .onTable errand was)
      (hact : hostAccess S was σ.tokens = some (event, next, tokens))
      (hquiet : event.reply = none) :
      StoreChange none (.onTable errand next) ⟨tokens, σ.data⟩
  | returned {errand : Errand τ} {was : TablePhase ι τ n}
      {event : TableEvent ι τ} {tokens : SharedTable ι τ n}
      (hphase : phase = .onTable errand was)
      (hact : hostAccess S was σ.tokens = some (event, .idle, tokens)) :
      StoreChange none .idle ⟨tokens, σ.data⟩
  | passed {t : Transfer τ} {was : TablePhase ι τ n}
      {event : TableEvent ι τ} {tokens : SharedTable ι τ n}
      {phase' : StorePhase ι τ n} (hphase : phase = .onTable (.transfer t) was)
      (hact : hostAccess S was σ.tokens = some (event, .idle, tokens))
      (hpassed : event.reply = some (.verdict none))
      (hmoves : MovesOn t phase') : StoreChange none phase' ⟨tokens, σ.data⟩
  | byte {t : Transfer τ} {k : Nat} {phase' : StorePhase ι τ n}
      {σ' : SharedStore ι τ n} (hphase : phase.nextByte = some (t, k))
      (hmoves : MovesOn t phase')
      (hput : σ' = σ ∨ t.kind = .write ∧ σ' = t.put σ k) :
      StoreChange none phase' σ'

/-- **Inversion lemma**: all that a turn can do. -/
theorem storeChange_of_turn
    (hact : storeTurn S members i call phase σ = some (o, phase', σ'))
    (hlt : ∀ t k, phase.nextByte = some (t, k) → k < t.size) :
    StoreChange S members i phase σ call phase' σ' := by
  cases call with
  | some c =>
      cases phase <;> try cases hact
      obtain ⟨r, hop, hr⟩ := Option.map_eq_some_iff.mp hact
      cases hr
      exact .begin rfl hop
  | none =>
      cases phase with
      | idle => cases hact
      | onTable errand was =>
          obtain ⟨⟨event, next, tokens⟩, hturn, hr⟩ :=
            Option.map_eq_some_iff.mp hact
          unfold Errand.goOn at hr
          cases hreply : event.reply with
          | none =>
              rw [hreply] at hr
              cases hr
              exact .search rfl hturn hreply
          | some reply =>
              rw [hreply] at hr
              rw [idle_of_reply hturn hreply] at hturn
              obtain ⟨hsame, hafter⟩ := behind_cases
                (members i).self.dataAddr errand reply
                (⟨tokens, σ.data⟩ : SharedStore ι τ n)
              have hbehind : errand.behind (members i).self.dataAddr reply
                  ⟨tokens, σ.data⟩ = (o, phase', σ') := hr
              rw [hbehind] at hsame hafter
              rw [show σ' = ⟨tokens, σ.data⟩ from hsame]
              rcases hafter with hdone | ⟨t, rfl, rfl, hmoves⟩
              · rw [show phase' = .idle from hdone]
                exact .returned rfl hturn
              · exact .passed rfl hturn hreply hmoves
      | copying t k =>
          have hmove : t.move σ k = (o, phase', σ') := Option.some.inj hact
          obtain ⟨hmoves, hput⟩ := move_cases (σ := σ) (hlt t k rfl)
          rw [hmove] at hmoves hput
          exact .byte rfl hmoves hput
      | differing t k =>
          cases hact
          exact .byte rfl .idle (.inl rfl)

omit [DecidableEq τ] [NeZero n] in
theorem MovesOn.tablePhase {t : Transfer τ} (h : MovesOn t phase) :
    phase.tablePhase = .idle := by
  cases h <;> rfl

omit [DecidableEq τ] [NeZero n] in
theorem tablePhase_of_nextByte {t : Transfer τ} {k : Nat}
    (h : phase.nextByte = some (t, k)) : phase.tablePhase = .idle := by
  cases phase <;> first | rfl | cases h

end Changes

/-! ## Grants -/

section Grants

variable {ι τ : Type} [DecidableEq τ] {n : Nat} [NeZero n]
  (S : TokenScheme τ n) (G : τ → ProtectionEntry → Prop)

/-- The call is covered by a region that was granted for its token. -/
def Transfer.GrantedBy (t : Transfer τ) : Prop :=
  t.shkey ≠ S.globalKey → ∃ region, G t.shkey region ∧
    region.refusal t.kind.bit t.offset t.size = none

omit [DecidableEq τ] in
/-- The call on the table belongs to what it is made for; an insertion binds
its token to a granted region. -/
def Errand.Fits (c : TokenCall τ) : Errand τ → Prop
  | .transfer t => c = .access t.shkey ⟨t.kind.bit, t.offset, t.size⟩
  | _ => ∀ shkey entry, c = .insert shkey entry → G shkey entry

/-- The search and the slot whose region is being tested. -/
def TablePhase.testing : TablePhase ι τ n → Option (Query ι τ × Fin n)
  | finalShkey query i | regionSize query _ i _ | regionOffset query _ i _
  | endOffset query _ i _ | endSize query _ i _ _ | permission query _ i _ =>
      some (query, i)
  | _ => none

/-- What a host has been granted before its next access. -/
def PhaseGranted (phase : StorePhase ι τ n) (tokens : SharedTable ι τ n) :
    Prop :=
  match phase with
  | .idle => True
  | .onTable errand phase =>
      (∀ c, phase.call = some c → errand.Fits G c) ∧
        ∀ query i wanted, phase.testing = some (query, i) →
          query.purpose = .access wanted → query.shkey ≠ S.globalKey →
            G query.shkey (tokens.table i).pentry
  | .copying t i => i < t.size ∧ t.GrantedBy S G
  | .differing t i => i < t.size ∧ t.GrantedBy S G

/-- The store and the hosts between two accesses: all regions that are bound or
going to be bound are granted. -/
structure GrantSound (p : StorePool ι τ n) : Prop where
  sound : TableSound S p.tablePool
  bound : ∀ shkey region, boundTokens S p.tablePool shkey = some region →
    G shkey region
  each : ∀ i, PhaseGranted S G (p.phase i) p.shared.tokens

/-- A call that is going to bind a token binds it to a granted region. -/
def RequestGranted (useMac : Bool) (call : GshmOp τ × (Nat → Nat)) : Prop :=
  ∀ offset size permission, call.1 = .acquire offset size permission →
    G (S.generateShkey useMac call.2).1 (request offset size permission)

variable {S G} {t : Transfer τ} {errand : Errand τ}
  {phase phase' : TablePhase ι τ n} {tokens tokens' : SharedTable ι τ n}
  {o : TableEvent ι τ} {query : Query ι τ} {k : Fin n}

omit [DecidableEq τ] [NeZero n] in
theorem call_of_testing (h : phase.testing = some (query, k)) :
    phase.call = some query.call ∧ phase.slot = some k ∧
      phase.claims = none := by
  cases phase <;> cases h <;> exact ⟨rfl, rfl, rfl⟩

omit [DecidableEq τ] [NeZero n] in
/-- A call that is covered stays so while its bytes are moved. -/
theorem MovesOn.granted {after : StorePhase ι τ n} (h : MovesOn t after)
    (hgranted : t.GrantedBy S G) : PhaseGranted S G after tokens := by
  cases h with
  | idle => trivial
  | differing hlt => exact ⟨hlt, hgranted⟩
  | copying hsame hlt =>
      refine ⟨hsame.size ▸ hlt, ?_⟩
      rw [Transfer.GrantedBy, hsame.shkey, hsame.kind, hsame.offset,
        hsame.size]
      exact hgranted

variable (hinj : Function.Injective S.hashFunction) {q : TablePool ι τ n}
  (h : TableSound S q) (hcalm : CalmTokens q) {i : ι}
include hinj h hcalm

/-- What a host tests is granted: it is bound when the host reads the flag for
the last time. -/
theorem testing_of_turn
    (hbound : ∀ shkey region, boundTokens S q shkey = some region →
      G shkey region)
    (hwas : ∀ query k wanted, (q.phase i).testing = some (query, k) →
      query.purpose = .access wanted → query.shkey ≠ S.globalKey →
        G query.shkey (q.shared.table k).pentry)
    (hact : hostAccess S (q.phase i) q.shared = some (o, phase', tokens'))
    {wanted : Wanted} (htesting : phase'.testing = some (query, k))
    (hpurpose : query.purpose = .access wanted)
    (hkey : query.shkey ≠ S.globalKey) :
    G query.shkey (tokens'.table k).pentry := by
  cases hphase : q.phase i <;> rw [hphase] at hact hwas <;>
    simp only [hostAccess] at hact
  case idle => cases hact
  case finalValid query' k' =>
    split at hact
    · rename_i hvalid
      cases hact
      cases htesting
      have hregion := bound_of_valid hinj h hcalm (c := query.call) (k := k)
        (by rw [hphase]; rfl) (by rw [hphase]; rfl) (by rw [hphase]; rfl)
        hvalid
      rw [query.call_shkey] at hregion
      exact hbound _ _ hregion
    · split at hact
      · cases hact
        cases htesting
      · rename_i hglobal
        cases hact
        unfold Query.proceed at htesting
        split at htesting <;> cases htesting
        exact absurd hkey hglobal
  case finalShkey query' k' =>
    split at hact
    · cases hact
      cases htesting
    · cases hact
      unfold Query.proceed at htesting
      split at htesting <;> cases htesting
      exact hwas query k wanted rfl hpurpose hkey
  all_goals
    repeat' split at hact
    all_goals
      cases hact
      cases htesting <;> exact hwas _ _ wanted rfl hpurpose hkey

omit hinj hcalm in
/-- The tests are passed on a granted region. -/
theorem granted_of_passed
    (hfits : ∀ c, (q.phase i).call = some c →
      (Errand.transfer t).Fits G c)
    (hwas : ∀ query k wanted, (q.phase i).testing = some (query, k) →
      query.purpose = .access wanted → query.shkey ≠ S.globalKey →
        G query.shkey (q.shared.table k).pentry)
    (hact : hostAccess S (q.phase i) q.shared = some (o, phase', tokens'))
    (hpassed : o.reply = some (.verdict none)) : t.GrantedBy S G := by
  intro hkey
  obtain ⟨query, wanted, k, used, hphase, hpermission⟩ :=
    permission_of_passed hact hpassed
  have hknows := h.knows i
  have hcall := hfits query.call (by rw [hphase]; rfl)
  rw [hphase] at hknows hwas
  obtain ⟨hpurpose, htests⟩ := hknows
  have hsame : query.shkey = t.shkey ∧
      wanted = ⟨t.kind.bit, t.offset, t.size⟩ := by
    rw [Query.call, hpurpose] at hcall
    exact TokenCall.access.inj hcall
  rw [hsame.1] at htests hpermission
  obtain ⟨_, hsize, hin⟩ := htests hkey
  refine ⟨(q.shared.table k).pentry, ?_, ?_⟩
  · rw [← hsame.1]
    exact hwas query k wanted rfl hpurpose (hsame.1 ▸ hkey)
  · rw [ProtectionEntry.refusal_eq_none_iff]
    rw [hsame.2, not_or, Nat.not_lt, Nat.not_lt] at hin
    rw [hsame.2] at hpermission
    exact ⟨hsize, hin.1, hin.2, fun hzero => hpermission ⟨hzero, hkey⟩⟩

/-- The turn of another host leaves a host what it has been granted. -/
theorem PhaseGranted.kept [DecidableEq ι] {j : ι} (hj : j ≠ i)
    (hact : hostAccess S (q.phase i) q.shared = some (o, phase', tokens'))
    {after : StorePhase ι τ n} (hafter : after.tablePhase = q.phase j)
    (hgranted : PhaseGranted S G after q.shared) :
    PhaseGranted S G after tokens' := by
  cases after with
  | onTable errand phase =>
      refine ⟨hgranted.1, fun query k wanted htesting hpurpose hkey => ?_⟩
      obtain ⟨hcall, hslot, -⟩ := call_of_testing htesting
      obtain ⟨-, hpentry, -⟩ := slot_kept hinj h hcalm hj hact
        (by rw [← hafter]; exact hcall) (by rw [← hafter]; exact hslot)
      rw [hpentry]
      exact hgranted.2 query k wanted htesting hpurpose hkey
  | _ => exact hgranted

end Grants

/-! ## Grants in a turn -/

section Turns

variable {ι τ : Type} [DecidableEq ι] [DecidableEq τ] {n : Nat} [NeZero n]
  {S : TokenScheme τ n} {G : τ → ProtectionEntry → Prop}
  {members : ι → Member τ} {p : StorePool ι τ n} {i : ι}
  {o : Option (GshmResult τ)} {phase : StorePhase ι τ n}
  {σ : SharedStore ι τ n}

omit [NeZero n] in
/-- A turn that does not concern the table. -/
theorem GrantSound.quiet (h : GrantSound S G p)
    (hwas : (p.phase i).tablePhase = .idle) (his : phase.tablePhase = .idle)
    (htokens : σ.tokens = p.shared.tokens)
    (hgranted : PhaseGranted S G phase p.shared.tokens) :
    GrantSound S G (p.advance i phase σ) := by
  refine ⟨?_, ?_, fun j => ?_⟩
  · rw [tablePool_advance_eq p i hwas his htokens]
    exact h.sound
  · rw [tablePool_advance_eq p i hwas his htokens]
    exact h.bound
  · rw [Pool.advance_shared, htokens]
    by_cases hj : j = i
    · rw [hj, Pool.advance_phase_self]
      exact hgranted
    · rw [Pool.advance_phase_of_ne p hj]
      exact h.each j

omit [DecidableEq ι] [NeZero n] in
/-- The byte a host is about to touch belongs to its call, which is granted. -/
theorem GrantSound.byte (h : GrantSound S G p) {t : Transfer τ} {k : Nat}
    (hnext : (p.phase i).nextByte = some (t, k)) :
    k < t.size ∧ t.GrantedBy S G := by
  have hown := h.each i
  cases hphase : p.phase i <;> rw [hphase] at hnext hown <;> cases hnext <;>
    exact hown

variable (hinj : Function.Injective S.hashFunction)
  (hcalm : CalmTokens p.tablePool)
include hinj hcalm

/-- A turn on the table. -/
theorem GrantSound.onTable (h : GrantSound S G p) {errand : Errand τ}
    {was : TablePhase ι τ n} {event : TableEvent ι τ}
    {next : TablePhase ι τ n} {tokens : SharedTable ι τ n}
    (hphase : p.phase i = .onTable errand was)
    (hact : hostAccess S was p.shared.tokens = some (event, next, tokens))
    (hnext : phase.tablePhase = next) (htokens : σ.tokens = tokens)
    (hgranted : PhaseGranted S G phase tokens) :
    GrantSound S G (p.advance i phase σ) := by
  have hwas : p.tablePool.phase i = was := by
    rw [tablePool_phase, hphase]
    rfl
  have hturn : hostAccess S (p.tablePool.phase i) p.tablePool.shared =
      some (event, next, tokens) := by
    rw [hwas]
    exact hact
  have hown := h.each i
  rw [hphase] at hown
  refine ⟨?_, fun shkey region hbound => ?_, fun j => ?_⟩
  · rw [tablePool_advance, hnext, htokens]
    have hstep : hostTurn S i none (p.tablePool.phase i) p.tablePool.shared =
        some (event, next, tokens) := hturn
    exact tableSound_turn hinj h.sound hcalm hstep
  · rw [tablePool_advance, hnext, htokens] at hbound
    rcases bound_of_turn hinj h.sound hcalm hturn hbound with hold | hcall
    · exact h.bound shkey region hold
    · rw [hwas] at hcall
      have hfits := hown.1 _ hcall
      cases errand with
      | transfer t => cases hfits
      | _ => exact hfits shkey region rfl
  · rw [Pool.advance_shared, htokens]
    by_cases hj : j = i
    · rw [hj, Pool.advance_phase_self]
      exact hgranted
    · rw [Pool.advance_phase_of_ne p hj]
      exact PhaseGranted.kept hinj h.sound hcalm hj hturn rfl (h.each j)

omit hinj hcalm in
omit [DecidableEq ι] [DecidableEq τ] [NeZero n] in
/-- A call begins: an insertion binds its token to what is granted. -/
theorem granted_of_begin {op : GshmOp τ} {rand : Nat → Nat}
    {errand : Errand τ} {call : HostCall τ} {tokens tokens' : SharedTable ι τ n}
    (hop : op.onTable S (members i).useMac rand = some (errand, call))
    (hrequest : RequestGranted S G (members i).useMac (op, rand)) :
    PhaseGranted S G (.onTable errand (call.begin S i tokens)) tokens' := by
  cases op <;> cases hop
  case acquire offset size permission =>
    refine ⟨fun c hc shkey entry hinsert => ?_,
      fun _ _ _ htesting => (nomatch htesting)⟩
    cases hc
    cases hinsert
    exact hrequest offset size permission rfl
  case revokeCxl =>
    refine ⟨fun c hc shkey entry hinsert => ?_,
      fun _ _ _ htesting => (nomatch htesting)⟩
    cases hc
    cases hinsert
  all_goals
    refine ⟨fun c hc => ?_, fun _ _ _ htesting => (nomatch htesting)⟩
    cases hc
    rfl

/-- A turn that begins a call. -/
theorem GrantSound.begin (h : GrantSound S G p) {op : GshmOp τ}
    {rand : Nat → Nat} {errand : Errand τ} {call : HostCall τ}
    (hidle : p.phase i = .idle)
    (hop : op.onTable S (members i).useMac rand = some (errand, call))
    (hrequest : RequestGranted S G (members i).useMac (op, rand)) :
    GrantSound S G (p.advance i
      (.onTable errand (call.begin S i p.shared.tokens))
      ⟨{ p.shared.tokens with calls := p.shared.tokens.calls + 1 },
        p.shared.data⟩) := by
  have hwas : p.tablePool.phase i = .idle := by
    rw [tablePool_phase, hidle]
    rfl
  have hturn : hostTurn S i (some call) (p.tablePool.phase i)
      p.tablePool.shared = some (.quiet, call.begin S i p.shared.tokens,
        { p.shared.tokens with calls := p.shared.tokens.calls + 1 }) := by
    rw [hwas]
    rfl
  have hquiet : (call.begin S i p.shared.tokens).claims =
      (p.tablePool.phase i).claims := by
    rw [hwas]
    cases call <;> rfl
  refine ⟨?_, fun shkey region hbound => ?_, fun j => ?_⟩
  · rw [tablePool_advance]
    exact tableSound_turn hinj h.sound hcalm hturn
  · have hsame : boundTokens S (Pool.advance p.tablePool i
        (call.begin S i p.shared.tokens)
        { p.shared.tokens with calls := p.shared.tokens.calls + 1 }) shkey =
          boundTokens S p.tablePool shkey :=
      boundTokens_congr rfl (filling_advance_iff hquiet)
    rw [tablePool_advance, StorePhase.tablePhase, hsame] at hbound
    exact h.bound shkey region hbound
  · by_cases hj : j = i
    · rw [hj, Pool.advance_phase_self]
      exact granted_of_begin hop hrequest
    · rw [Pool.advance_phase_of_ne p hj]
      exact h.each j

/-- **Turn lemma**: whatever a host does next, all that is bound is granted,
and a byte is only moved under a grant. -/
theorem grantSound_turn (h : GrantSound S G p)
    {call : Option (GshmOp τ × (Nat → Nat))}
    (hrequest : ∀ c, call = some c → RequestGranted S G (members i).useMac c)
    (hact : storeTurn S members i call (p.phase i) p.shared =
      some (o, phase, σ)) : GrantSound S G (p.advance i phase σ) := by
  have hown := h.each i
  have hchange := storeChange_of_turn hact fun t k hnext => (h.byte hnext).1
  cases hchange with
  | begin hphase hop =>
      exact h.begin hinj hcalm hphase hop (hrequest _ rfl)
  | @search errand was next event tokens hphase hturn hquiet =>
      rw [hphase] at hown
      have hwas : p.tablePool.phase i = was := by
        rw [tablePool_phase, hphase]
        rfl
      refine h.onTable hinj hcalm hphase hturn rfl rfl ⟨?_, ?_⟩
      · rw [call_of_quiet hturn hquiet]
        exact hown.1
      · intro query k wanted htesting hpurpose hkey
        have hturn' : hostAccess S (p.tablePool.phase i) p.tablePool.shared =
            some (event, next, tokens) := by
          rw [hwas]
          exact hturn
        exact testing_of_turn hinj h.sound hcalm h.bound
          (by rw [hwas]; exact hown.2) hturn' htesting hpurpose hkey
  | returned hphase hturn =>
      exact h.onTable hinj hcalm hphase hturn rfl rfl trivial
  | @passed t was event tokens phase hphase hturn hpassed hmoves =>
      rw [hphase] at hown
      have hwas : p.tablePool.phase i = was := by
        rw [tablePool_phase, hphase]
        rfl
      have hgranted : t.GrantedBy S G := granted_of_passed h.sound (i := i)
        (by rw [hwas]; exact hown.1) (by rw [hwas]; exact hown.2)
        (by rw [hwas]; exact hturn) hpassed
      exact h.onTable hinj hcalm hphase hturn hmoves.tablePhase rfl
        (hmoves.granted hgranted)
  | byte hphase hmoves hput =>
      refine h.quiet (tablePhase_of_nextByte hphase) hmoves.tablePhase ?_
        (hmoves.granted (h.byte hphase).2)
      rcases hput with rfl | ⟨_, rfl⟩ <;> rfl

end Turns

/-! ## The range of a call -/

section Ranges

variable {ι τ : Type} [DecidableEq τ] {n : Nat} [NeZero n]
  {S : TokenScheme τ n} {members : ι → Member τ} {i : ι}
  {call : Option (GshmOp τ × (Nat → Nat))} {phase phase' : StorePhase ι τ n}
  {σ σ' : SharedStore ι τ n} {o : Option (GshmResult τ)} {t t' : Transfer τ}

/-- The call of an access function a host is in. -/
def StorePhase.transfer : StorePhase ι τ n → Option (Transfer τ)
  | .onTable (.transfer t) _ => some t
  | .copying t _ => some t
  | .differing t _ => some t
  | _ => none

omit [DecidableEq τ] [NeZero n] in
theorem transfer_of_nextByte {k : Nat} (h : phase.nextByte = some (t, k)) :
    phase.transfer = some t := by
  cases phase <;> cases h <;> rfl

omit [DecidableEq τ] [NeZero n] in
theorem MovesOn.transfer (h : MovesOn t phase)
    (htransfer : phase.transfer = some t') : t.SameCall t' := by
  cases h with
  | idle => cases htransfer
  | copying hsame =>
      cases htransfer
      exact hsame
  | differing =>
      cases htransfer
      exact ⟨rfl, rfl, rfl, rfl⟩

/-- A host stays in the call it has begun. -/
theorem StoreChange.transfer
    (h : StoreChange S members i phase σ call phase' σ')
    (htransfer : phase'.transfer = some t') :
    (∃ t, phase.transfer = some t ∧ t.SameCall t') ∨
      ∃ op rand table, call = some (op, rand) ∧
        op.onTable S (members i).useMac rand =
          some (.transfer t', table) := by
  cases h with
  | @begin op rand errand table hphase hop =>
      cases errand <;> cases htransfer
      exact .inr ⟨op, rand, table, rfl, hop⟩
  | @search errand was next event tokens hphase =>
      cases errand <;> cases htransfer
      exact .inl ⟨t', by rw [hphase]; rfl, rfl, rfl, rfl, rfl⟩
  | returned => cases htransfer
  | passed hphase hact hpassed hmoves =>
      exact .inl ⟨_, by rw [hphase]; rfl, hmoves.transfer htransfer⟩
  | byte hphase hmoves =>
      exact .inl ⟨_, transfer_of_nextByte hphase, hmoves.transfer htransfer⟩

/-- A turn stores at most one byte. -/
theorem StoreChange.data
    (h : StoreChange S members i phase σ call phase' σ') :
    σ'.data = σ.data ∨ ∃ t k, phase.nextByte = some (t, k) ∧
      t.kind = .write ∧
      σ'.data = Function.update σ.data (t.place k) (t.buf k) := by
  cases h with
  | byte hphase hmoves hput =>
      rcases hput with rfl | ⟨hkind, rfl⟩
      · exact .inl rfl
      · exact .inr ⟨_, _, hphase, hkind, rfl⟩
  | _ => exact .inl rfl

/-- A host stays in the call on the table it has begun. -/
theorem StoreChange.tableCall
    (h : StoreChange S members i phase σ call phase' σ') {c : TokenCall τ}
    (hcall : phase'.tablePhase.call = some c) :
    phase.tablePhase.call = some c ∨ ∃ op rand errand table,
      call = some (op, rand) ∧ op.onTable S (members i).useMac rand =
        some (errand, table) ∧ table.call = c := by
  cases h with
  | @begin op rand errand table hphase hop =>
      refine .inr ⟨op, rand, errand, table, rfl, hop, ?_⟩
      cases table <;> cases hcall <;> rfl
  | search hphase hact hquiet =>
      left
      rw [hphase]
      exact (call_of_quiet hact hquiet).symm.trans hcall
  | returned => cases hcall
  | passed hphase hact hpassed hmoves =>
      rw [hmoves.tablePhase] at hcall
      cases hcall
  | byte hphase hmoves =>
      rw [hmoves.tablePhase] at hcall
      cases hcall

omit [DecidableEq τ] [NeZero n] in
theorem MovesOn.lt_size (h : MovesOn t phase) {k : Nat}
    (hnext : phase.nextByte = some (t', k)) : k < t'.size := by
  cases h with
  | idle => cases hnext
  | copying hsame hlt =>
      cases hnext
      exact hsame.size ▸ hlt
  | differing hlt =>
      cases hnext
      exact hlt

/-- A host stays within the range of its call. -/
theorem StoreChange.lt_size
    (h : StoreChange S members i phase σ call phase' σ') {k : Nat}
    (hnext : phase'.nextByte = some (t, k)) : k < t.size := by
  cases h with
  | passed hphase hact hpassed hmoves => exact hmoves.lt_size hnext
  | byte hphase hmoves => exact hmoves.lt_size hnext
  | _ => cases hnext

/-- Hosts that use different tokens keep calm. -/
theorem calm_of_apart [DecidableEq ι] {T : ι → Set τ}
    (hapart : ∀ i j, i ≠ j → ∀ t ∈ T i, t ∉ T j)
    {turns : List (ι × Option (GshmOp τ × (Nat → Nat)))}
    (hown : ∀ i op rand errand table, (i, some (op, rand)) ∈ turns →
      op.onTable S (members i).useMac rand = some (errand, table) →
        table.call.shkey ∈ T i)
    (table : ProtectionTable τ n) (data : Bytes) :
    AtEveryStep (storeStep S members) (fun p _ => CalmTokens p.tablePool)
      (.start table data) turns := by
  refine atEveryStep_of_invariant
    (P := fun p : StorePool ι τ n => ∀ j,
      (∀ c, (p.phase j).tablePhase.call = some c → c.shkey ∈ T j) ∧
        ∀ t k, (p.phase j).nextByte = some (t, k) → k < t.size)
    (R := fun turn => turn ∈ turns)
    (fun p turn hp _ i j hne c c' hcall hcall' hconflict => ?_)
    (fun p turn o p' hp hmem _ hstep j => ?_)
    (fun j => ⟨fun c hcall => (nomatch hcall), fun t k hnext =>
      (nomatch hnext)⟩) fun _ hmem => hmem
  · have hi := (hp i).1 c hcall
    rw [hconflict.1] at hi
    exact hapart i j hne _ hi ((hp j).1 c' hcall')
  · obtain ⟨phase, σ', hact, rfl⟩ := poolStep_eq_some_iff.mp hstep
    obtain ⟨i, call⟩ := turn
    have hchange := storeChange_of_turn hact (hp i).2
    by_cases hj : j = i
    · rw [hj, Pool.advance_phase_self]
      refine ⟨fun c hcall => ?_, fun t k hnext => hchange.lt_size hnext⟩
      rcases hchange.tableCall hcall with
        hold | ⟨op, rand, errand, call', rfl, hop, rfl⟩
      · exact (hp i).1 c hold
      · exact hown i op rand errand call' hmem hop
    · rw [Pool.advance_phase_of_ne p hj]
      exact hp j

end Ranges

/-! ## Runs -/

section Runs

variable {ι τ : Type} [DecidableEq ι] [DecidableEq τ] {n : Nat} [NeZero n]
  {S : TokenScheme τ n} {G : τ → ProtectionEntry → Prop}
  {members : ι → Member τ} {data : Bytes} {p : StorePool ι τ n}

/-- An access with a token of its own to a range that does not run over the end
of the address space. -/
def OrdinaryCall (S : TokenScheme τ n) (op : GshmOp τ) : Prop :=
  ∀ offset size shkey, op.range = some (offset, size, shkey) →
    shkey ≠ S.globalKey ∧ offset + size < 2 ^ 64

/-- No granted region that may be written covers the byte. -/
def Unwritable (G : τ → ProtectionEntry → Prop) (x : Nat) : Prop :=
  ∀ shkey region, G shkey region →
    region.permission &&& AccessKind.write.bit ≠ 0 → ¬ region.Covers x

/-- The store in the middle of a run that began with `data`. -/
structure RunGranted (S : TokenScheme τ n) (G : τ → ProtectionEntry → Prop)
    (data : Bytes) (p : StorePool ι τ n) : Prop where
  grants : GrantSound S G p
  ranges : ∀ i t, (p.phase i).transfer = some t →
    t.shkey ≠ S.globalKey ∧ t.offset + t.size < 2 ^ 64
  kept : ∀ x, Unwritable G x → p.shared.data x = data x

variable (hG : ∀ shkey region, G shkey region →
  region.offset + region.size < 2 ^ 64)
include hG

omit [DecidableEq ι] [NeZero n] in
/-- The byte a host is about to touch. -/
theorem RunGranted.covered (h : RunGranted S G data p) {i : ι}
    {t : Transfer τ} {k : Nat} (hnext : (p.phase i).nextByte = some (t, k)) :
    ∃ region, G t.shkey region ∧ region.permission &&& t.kind.bit ≠ 0 ∧
      region.Covers (t.place k) := by
  obtain ⟨hkey, hend⟩ := h.ranges i t (transfer_of_nextByte hnext)
  have hgranted := h.grants.byte hnext
  obtain ⟨region, hregion, hrefusal⟩ := hgranted.2 hkey
  exact ⟨region, hregion,
    (ProtectionEntry.refusal_eq_none_iff.mp hrefusal).2.2.2,
    covers_of_refusal_eq_none (hG _ _ hregion) hend hrefusal hgranted.1⟩

/-- **Step lemma**: a calm turn. -/
theorem RunGranted.turn (hinj : Function.Injective S.hashFunction)
    (h : RunGranted S G data p) {i : ι}
    {call : Option (GshmOp τ × (Nat → Nat))}
    (hcalm : CalmTokens p.tablePool)
    (hrequest : ∀ c, call = some c → RequestGranted S G (members i).useMac c)
    (hordinary : ∀ c, call = some c → OrdinaryCall S c.1)
    {o : Option (GshmResult τ)} {phase : StorePhase ι τ n}
    {σ : SharedStore ι τ n}
    (hact : storeTurn S members i call (p.phase i) p.shared =
      some (o, phase, σ)) :
    RunGranted S G data (p.advance i phase σ) := by
  have hchange := storeChange_of_turn hact fun t k hnext =>
    (h.grants.byte hnext).1
  refine ⟨grantSound_turn hinj hcalm h.grants hrequest hact,
    fun j t htransfer => ?_, fun x hx => ?_⟩
  · by_cases hj : j = i
    · rw [hj, Pool.advance_phase_self] at htransfer
      rcases hchange.transfer htransfer with
        ⟨t₀, hold, hsame⟩ | ⟨op, rand, table, hcall, hop⟩
      · rw [hsame.shkey, hsame.offset, hsame.size]
        exact h.ranges i t₀ hold
      · have hrange : op.range = some (t.offset, t.size, t.shkey) := by
          cases op <;> cases hop <;> rfl
        exact hordinary _ hcall _ _ _ hrange
    · rw [Pool.advance_phase_of_ne p hj] at htransfer
      exact h.ranges j t htransfer
  · rw [Pool.advance_shared]
    rcases hchange.data with hsame | ⟨t, k, hnext, hkind, hput⟩
    · rw [hsame]
      exact h.kept x hx
    · obtain ⟨region, hregion, hpermission, hcovers⟩ := h.covered hG hnext
      rw [hkind] at hpermission
      have hne : x ≠ t.place k := by
        rintro rfl
        exact hx _ _ hregion hpermission hcovers
      rw [hput, Function.update_of_ne hne]
      exact h.kept x hx

omit [DecidableEq ι] [NeZero n] hG in
/-- Nothing has happened yet. -/
theorem RunGranted.start {table : ProtectionTable τ n} {m : TokenMap τ}
    (hrep : Represents S table m)
    (hbound : ∀ shkey region, m shkey = some region → G shkey region)
    (data : Bytes) :
    RunGranted S G data (.start table data : StorePool ι τ n) := by
  refine ⟨⟨tableSound_start hrep, fun shkey region hregion => ?_,
    fun _ => trivial⟩, fun i t htransfer => (nomatch htransfer),
    fun x _ => rfl⟩
  have hstart : boundTokens S (StorePool.tablePool (.start table data :
      StorePool ι τ n)) = m := boundTokens_start hrep
  rw [hstart] at hregion
  exact hbound shkey region hregion

/-- **Run lemma**: calm runs of ordinary calls. -/
theorem runGranted_of_calm (hinj : Function.Injective S.hashFunction)
    {table : ProtectionTable τ n} {m : TokenMap τ}
    (hrep : Represents S table m)
    (hbound : ∀ shkey region, m shkey = some region → G shkey region)
    {turns : List (ι × Option (GshmOp τ × (Nat → Nat)))}
    {events : List (Option (GshmResult τ))}
    (hrequest : ∀ i c, (i, some c) ∈ turns →
      RequestGranted S G (members i).useMac c)
    (hordinary : ∀ i c, (i, some c) ∈ turns → OrdinaryCall S c.1)
    (hcalm : AtEveryStep (storeStep S members)
      (fun p _ => CalmTokens p.tablePool) (.start table data) turns)
    (hrun : run (storeStep S members) (.start table data) turns =
      some (events, p)) : RunGranted S G data p := by
  have hall := atEveryStep_and_all hcalm (R := fun turn => turn ∈ turns)
    fun _ hmem => hmem
  refine (run_outputs_where (P := RunGranted S G data) (O := fun _ _ => True)
    (fun p turn o p' hp hturn hstep => ⟨?_, trivial⟩)
    (fun _ _ _ _ _ _ _ => trivial) (.start hrep hbound data) hall hrun).1
  obtain ⟨phase, σ', hact, rfl⟩ := poolStep_eq_some_iff.mp hstep
  obtain ⟨i, call⟩ := turn
  obtain ⟨hmem, hcalm⟩ := hturn
  refine hp.turn hG hinj hcalm (fun c hc => ?_) (fun c hc => ?_) hact
  · rw [show call = some c from hc] at hmem
    exact hrequest i c hmem
  · rw [show call = some c from hc] at hmem
    exact hordinary i c hmem

end Runs

/-! ## The table of `gshmp.cpp` -/

/-- The regions that are granted for a token: the one it is bound to at first,
and those of the acquisitions that draw it. -/
def Granted {ι : Type} (members : ι → Member UInt16) (m : TokenMap UInt16)
    (turns : List (ι × Option (GshmOp UInt16 × (Nat → Nat))))
    (shkey : UInt16) (region : ProtectionEntry) : Prop :=
  m shkey = some region ∨ ∃ i offset size permission rand,
    (i, some (.acquire offset size permission, rand)) ∈ turns ∧
      shkey = (generateShkey (members i).useMac rand).1 ∧
      region = request offset size permission

/-- Hosts acquire and revoke tokens and access the data area, slot by slot and
byte by byte in any order, such that no token is inserted while another call on
it is under way, and none revoked by two hosts at a time.  No host uses the
global key or a range that runs over the end of the address space, and the
regions end below the table.  Then a byte that a host is about to load or store
is covered by a region that was granted for its token with the permission the
access needs, and bytes that no region covers which may be written are what
they were. -/
theorem accesses_granted {ι : Type} [DecidableEq ι]
    {members : ι → Member UInt16}
    {table : ProtectionTable UInt16 hashTableSize} {m : TokenMap UInt16}
    {data : Bytes} {turns : List (ι × Option (GshmOp UInt16 × (Nat → Nat)))}
    {events : List (Option (GshmResult UInt16))}
    {p : StorePool ι UInt16 hashTableSize}
    (hrep : Represents shmpScheme table m)
    (hordinary : ∀ i c, (i, some c) ∈ turns → OrdinaryCall shmpScheme c.1)
    (hregions : ∀ shkey region, Granted members m turns shkey region →
      region.offset + region.size ≤ 2 ^ 64 - tableBytes shmpScheme)
    (hcalm : AtEveryStep (storeStep shmpScheme members)
      (fun p _ => CalmTokens p.tablePool) (.start table data) turns)
    (hrun : run (storeStep shmpScheme members) (.start table data) turns =
      some (events, p)) :
    (∀ i t k, (p.phase i).nextByte = some (t, k) →
      ∃ region, Granted members m turns t.shkey region ∧
        region.permission &&& t.kind.bit ≠ 0 ∧ region.Covers (t.place k)) ∧
    ∀ x, Unwritable (Granted members m turns) x →
      p.shared.data x = data x := by
  have hbytes : tableBytes shmpScheme = 2 ^ 25 * 40 := rfl
  have hG : ∀ shkey region, Granted members m turns shkey region →
      region.offset + region.size < 2 ^ 64 := by
    intro shkey region hregion
    have hend := hregions shkey region hregion
    omega
  have hend := runGranted_of_calm hG hashFunction_injective hrep
    (fun _ _ hbound => .inl hbound)
    (fun i c hmem offset size permission hop => .inr
      ⟨i, offset, size, permission, c.2, by rw [← hop]; exact hmem, rfl, rfl⟩)
    hordinary hcalm hrun
  exact ⟨fun i t k hnext => hend.covered hG hnext, hend.kept⟩

/-- Each of two hosts acquires a token, and the first one begins to write with
its own. -/
def writeBeside : List (Bool × Option (GshmOp UInt16 × (Nat → Nat))) :=
  [(true, some (.acquire 0 8 3, fun _ => 1)),
    (false, some (.acquire 8 8 3, fun _ => 2)), (true, none), (false, none),
    (true, none), (true, none),
    (true, some (.writeCxl 0 8 (fun _ => 9) 1, fun _ => 0)), (false, none),
    (true, none), (true, none), (true, none), (true, none), (true, none),
    (true, none), (true, none), (true, none), (true, none), (false, none),
    (true, none)]

theorem mem_writeBeside {i : Bool} {op : GshmOp UInt16} {rand : Nat → Nat}
    (hmem : (i, some (op, rand)) ∈ writeBeside) :
    (i = true ∧ op = .acquire 0 8 3 ∧ rand = fun _ => 1) ∨
      (i = false ∧ op = .acquire 8 8 3 ∧ rand = fun _ => 2) ∨
      (i = true ∧ op = .writeCxl 0 8 (fun _ => 9) 1 ∧ rand = fun _ => 0) := by
  simpa only [writeBeside, List.mem_cons, Prod.mk.injEq, Option.some.injEq,
    reduceCtorEq, and_false, List.not_mem_nil, or_false, false_or] using hmem

theorem ordinary_writeBeside {i : Bool}
    {c : GshmOp UInt16 × (Nat → Nat)} (hmem : (i, some c) ∈ writeBeside) :
    OrdinaryCall shmpScheme c.1 := by
  obtain ⟨op, rand⟩ := c
  intro offset size shkey hrange
  rcases mem_writeBeside hmem with ⟨-, rfl, -⟩ | ⟨-, rfl, -⟩ | ⟨-, rfl, -⟩ <;>
    cases hrange
  decide

theorem granted_writeBeside {shkey : UInt16} {region : ProtectionEntry}
    (h : Granted twoObjects.members (fun _ => none) writeBeside shkey region) :
    (shkey = 1 ∧ region = request 0 8 3) ∨
      (shkey = 2 ∧ region = request 8 8 3) := by
  rcases h with hnone | ⟨i, offset, size, permission, rand, hmem, rfl, rfl⟩
  · cases hnone
  · rcases mem_writeBeside hmem with
      ⟨-, hop, rfl⟩ | ⟨-, hop, rfl⟩ | ⟨-, hop, -⟩ <;> cases hop
    · exact .inl ⟨rfl, rfl⟩
    · exact .inr ⟨rfl, rfl⟩

theorem region_le_writeBeside {shkey : UInt16} {region : ProtectionEntry}
    (h : Granted twoObjects.members (fun _ => none) writeBeside shkey region) :
    region.offset + region.size ≤ 2 ^ 64 - tableBytes shmpScheme := by
  rcases granted_writeBeside h with ⟨-, rfl⟩ | ⟨-, rfl⟩ <;> decide

/-- The tokens of the two hosts. -/
def tokensBeside (i : Bool) : Set UInt16 := if i then {1} else {2}

theorem apart_tokensBeside (i j : Bool) (hne : i ≠ j) :
    ∀ t ∈ tokensBeside i, t ∉ tokensBeside j := by
  intro t hi
  cases i <;> cases j <;> simp_all [tokensBeside]

theorem own_writeBeside {i : Bool} {op : GshmOp UInt16} {rand : Nat → Nat}
    {errand : Errand UInt16} {table : HostCall UInt16}
    (hmem : (i, some (op, rand)) ∈ writeBeside)
    (hop : op.onTable shmpScheme (twoObjects.members i).useMac rand =
      some (errand, table)) : table.call.shkey ∈ tokensBeside i := by
  rcases mem_writeBeside hmem with
    ⟨rfl, rfl, rfl⟩ | ⟨rfl, rfl, rfl⟩ | ⟨rfl, rfl, rfl⟩ <;>
    cases hop <;> rfl

theorem represents_zeroTable :
    Represents shmpScheme (zeroTable shmpScheme) fun _ => none :=
  ⟨fun _ hvalid => (nomatch hvalid), fun _ => rfl⟩

theorem accesses_granted_write_beside :
    ∃ events p, run (storeStep shmpScheme twoObjects.members)
        (.start (zeroTable shmpScheme) fun _ => 0) writeBeside =
          some (events, p) ∧
      (∀ i t k, (p.phase i).nextByte = some (t, k) →
        ∃ region, Granted twoObjects.members (fun _ => none) writeBeside
            t.shkey region ∧
          region.permission &&& t.kind.bit ≠ 0 ∧
            region.Covers (t.place k)) ∧
      ∀ x, Unwritable (Granted twoObjects.members (fun _ => none)
        writeBeside) x → p.shared.data x = 0 := by
  have hdone : ∃ events p, run (storeStep shmpScheme twoObjects.members)
      (.start (zeroTable shmpScheme) fun _ => 0) writeBeside =
        some (events, p) := ⟨_, _, rfl⟩
  obtain ⟨events, p, hrun⟩ := hdone
  exact ⟨events, p, hrun, accesses_granted represents_zeroTable
    (fun i c => ordinary_writeBeside) (fun shkey region =>
      region_le_writeBeside) (calm_of_apart apart_tokensBeside
        (fun i op rand errand table => own_writeBeside) _ _) hrun⟩

end SHMemora.Ports
