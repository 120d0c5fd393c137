import SHMemora.Ports.TokenCalls
import SHMemora.Ports.WholeTableCalls

/-!
# The protection table as an atomic object

In a calm run every call on the table takes effect at one of its accesses.  An
insertion does so when it stores the region, or when it finds the slot taken; a
revocation when it clears the flag, or finds it cleared; an access when it
reads the flag for the last time.  What an access tests afterwards cannot
change before it returns.

`boundTokens` is the map that a table stands for in the middle of calls: a
token is bound if its home slot is valid and shows it, and no insertion of it
is under way.

## Main result

* `table_linearizable` — calm runs on the table of `gshmp.cpp` are
  linearizable.
-/

namespace SHMemora.Ports

open SHMemora.Verified.ByteMemory
open SHMemora.Verified.StepRun
open SHMemora.Verified.ThreadPool
open SHMemora.Verified.AtomicObject

/-! ## The specification -/

namespace TokenMap

variable {τ : Type} [DecidableEq τ]

/-- Why an access with the token is refused. -/
def verdict (globalKey : τ) (m : TokenMap τ) (shkey : τ) (wanted : Wanted) :
    Option Denial :=
  if shkey = globalKey then none
  else match m shkey with
    | none => some .missing
    | some entry => entry.refusal wanted.bit wanted.offset wanted.size

/-- The calls, one at a time. -/
def serve (globalKey : τ) (m : TokenMap τ) :
    TokenCall τ → TableReply × TokenMap τ
  | .insert shkey entry =>
      let r := m.insert shkey entry
      (.code r.1, r.2)
  | .access shkey wanted => (.verdict (m.verdict globalKey shkey wanted), m)
  | .revoke shkey =>
      let r := m.revoke globalKey shkey
      (.code r.1, r.2)

/-- The sequential specification. -/
def Serves {ι : Type} (globalKey : τ) (m : TokenMap τ) (_ : ι)
    (call : TokenCall τ) (reply : TableReply) (m' : TokenMap τ) : Prop :=
  m.serve globalKey call = (reply, m')

end TokenMap

/-! ## Where a call is -/

section Explanation

variable {ι τ : Type} [DecidableEq τ] {n : Nat} [NeZero n]
  (S : TokenScheme τ n)

omit [NeZero n] in
/-- A search that has read the flag for the last time: an access has taken
effect, with what its tests are going to say. -/
def checked (σ : SharedTable ι τ n) (query : Query ι τ) (i : Fin n) :
    Status (TokenCall τ) TableReply :=
  match query.purpose with
  | .revoke => .pending query.call
  | .access wanted =>
      if query.shkey = S.globalKey then .pending query.call
      else .done query.call (.verdict ((σ.table i).pentry.refusal wanted.bit
        wanted.offset wanted.size))

omit [NeZero n] in
/-- Whether a call on the table has taken effect. -/
def callStatus (σ : SharedTable ι τ n) :
    TablePhase ι τ n → Status (TokenCall τ) TableReply
  | .idle => .idle
  | .claim call _ | .storeShkey call _ | .storePentry call _ =>
      .pending call.call
  | .testShkey call _ => .done call.call (.code (-2))
  | .loopValid query _ | .loopShkey query _ | .finalValid query _
  | .storeValid query _ => .pending query.call
  | .finalShkey query i | .regionSize query _ i _ | .regionOffset query _ i _
  | .endOffset query _ i _ | .endSize query _ i _ _
  | .permission query _ i _ => checked S σ query i

omit [DecidableEq τ] [NeZero n] in
/-- An insertion of the token has claimed its slot and is still under way. -/
def BeingInserted (p : TablePool ι τ n) (t : τ) : Prop :=
  ∃ j call, (p.phase j).claims = some call ∧ call.shkey = t

open Classical in
omit [NeZero n] in
/-- The regions of the tokens that are bound. -/
noncomputable def boundTokens (p : TablePool ι τ n) : TokenMap τ := fun t =>
  if (p.shared.table (S.hashFunction t)).valid = true ∧
      (p.shared.table (S.hashFunction t)).shkey = t ∧ ¬ BeingInserted p t then
    some (p.shared.table (S.hashFunction t)).pentry
  else none

/-- The state of the object that explains a state of the table. -/
noncomputable def explainedTable (p : TablePool ι τ n) :
    Object (TokenMap τ) ι (TokenCall τ) TableReply where
  state := boundTokens S p
  status := fun j => callStatus S p.shared (p.phase j)

omit [DecidableEq τ] in
/-- What is seen of a turn. -/
def seenOf (turn : ι × Option (HostCall τ)) (event : TableEvent ι τ) :
    List (Event ι (TokenCall τ) TableReply) :=
  (match turn.2 with
    | some op => [.invoke turn.1 op.call]
    | none => []) ++
  match event.reply with
  | some reply => [.respond turn.1 reply]
  | none => []

omit [DecidableEq τ] in
/-- The invocations and responses of a run. -/
def tableHistory (turns : List (ι × Option (HostCall τ)))
    (events : List (TableEvent ι τ)) :
    List (Event ι (TokenCall τ) TableReply) :=
  (turns.zip events).flatMap fun x => seenOf x.1 x.2

/-! ## The map -/

variable {S} {p p' : TablePool ι τ n} {i : ι} {phase phase' : TablePhase ι τ n}
  {σ σ' : SharedTable ι τ n} {o : TableEvent ι τ} {c : TokenCall τ}
  {k : Fin n} {t : τ}

omit [NeZero n] in
theorem boundTokens_of_valid
    (hvalid : (p.shared.table (S.hashFunction t)).valid = true)
    (hshkey : (p.shared.table (S.hashFunction t)).shkey = t)
    (hquiet : ¬ BeingInserted p t) :
    boundTokens S p t = some (p.shared.table (S.hashFunction t)).pentry :=
  if_pos ⟨hvalid, hshkey, hquiet⟩

omit [NeZero n] in
theorem boundTokens_of_invalid
    (hinvalid : (p.shared.table (S.hashFunction t)).valid = false) :
    boundTokens S p t = none :=
  if_neg fun hbound => by simp [hinvalid] at hbound

omit [NeZero n] in
theorem boundTokens_of_filling (hfilling : BeingInserted p t) :
    boundTokens S p t = none :=
  if_neg fun hbound => hbound.2.2 hfilling

open Classical in
omit [NeZero n] in
/-- The binding of a token depends on its home slot and on the insertions of
it. -/
theorem boundTokens_congr
    (htable : p'.shared.table (S.hashFunction t) =
      p.shared.table (S.hashFunction t))
    (hfilling : BeingInserted p' t ↔ BeingInserted p t) :
    boundTokens S p' t = boundTokens S p t := by
  unfold boundTokens
  rw [htable]
  exact if_congr (by rw [hfilling]) rfl rfl

omit [DecidableEq τ] [NeZero n] in
/-- The insertions under way behind a turn. -/
theorem filling_advance_iff [DecidableEq ι]
    (hclaims : phase'.claims = (p.phase i).claims) :
    BeingInserted (p.advance i phase' σ') t ↔ BeingInserted p t := by
  have hsame : ∀ j, ((p.advance i phase' σ').phase j).claims =
      (p.phase j).claims := by
    intro j
    by_cases hj : j = i
    · rw [hj, Pool.advance_phase_self, hclaims]
    · rw [Pool.advance_phase_of_ne p hj]
  simp only [BeingInserted, hsame]

omit [DecidableEq τ] [NeZero n] in
/-- Insertions of other tokens are not under way because of a turn. -/
theorem filling_advance_of_ne [DecidableEq ι]
    (hnew : ∀ call, phase'.claims = some call → call.shkey ≠ t)
    (hold : ∀ call, (p.phase i).claims = some call → call.shkey ≠ t) :
    BeingInserted (p.advance i phase' σ') t ↔ BeingInserted p t := by
  constructor
  · intro h
    rcases h with ⟨j, call, hclaims, hshkey⟩
    by_cases hj : j = i
    · rw [hj, Pool.advance_phase_self] at hclaims
      exact absurd hshkey (hnew call hclaims)
    · rw [Pool.advance_phase_of_ne p hj] at hclaims
      exact ⟨j, call, hclaims, hshkey⟩
  · intro h
    rcases h with ⟨j, call, hclaims, hshkey⟩
    by_cases hj : j = i
    · rw [hj] at hclaims
      exact absurd hshkey (hold call hclaims)
    · exact ⟨j, call, by rw [Pool.advance_phase_of_ne p hj]; exact hclaims,
        hshkey⟩

omit [DecidableEq τ] [NeZero n] in
/-- In a calm state a token of a call is inserted by this call at most. -/
theorem not_filling (hcalm : CalmTokens p) (hcall : (p.phase i).call = some c)
    (hnone : (p.phase i).claims = none) : ¬ BeingInserted p c.shkey := by
  intro h
  rcases h with ⟨j, call, hclaims, hshkey⟩
  have hj : (p.phase j).call = some call.call := by
    cases hphase : p.phase j <;> rw [hphase] at hclaims <;> cases hclaims <;>
      rfl
  have hne : j ≠ i := by
    rintro rfl
    rw [hnone] at hclaims
    cases hclaims
  exact hcalm j i hne _ _ hj hcall ⟨hshkey, .inl rfl⟩

/-! ## What a turn does to the map -/

section Turns

variable [DecidableEq ι] (hinj : Function.Injective S.hashFunction)
  (h : TableSound S p) (hcalm : CalmTokens p)

omit [NeZero n] in
/-- A turn that leaves the table alone. -/
theorem boundTokens_quiet (hclaims : phase'.claims = (p.phase i).claims) :
    boundTokens S (p.advance i phase' p.shared) = boundTokens S p :=
  funext fun _ => boundTokens_congr rfl (filling_advance_iff hclaims)

include hinj h

omit [NeZero n] [DecidableEq ι] [DecidableEq τ] in
/-- Tokens of other slots. -/
theorem ne_of_slot (hcall : (p.phase i).call = some c)
    (hslot : (p.phase i).slot = some k) (ht : t ≠ c.shkey) :
    S.hashFunction t ≠ k := by
  rw [h.slots i c k hcall hslot]
  exact fun heq => ht (hinj heq)

omit [NeZero n] in
/-- The slot that an insertion claims was not bound before, and is not bound
before its region has been stored. -/
theorem boundTokens_claim {call : InsertCall ι τ}
    (hphase : p.phase i = .claim call k)
    (hfree : (p.shared.table k).valid = false) :
    boundTokens S (p.advance i (.storeShkey call k) (p.shared.claim call k)) =
      boundTokens S p := by
  have hk : k = S.hashFunction call.shkey :=
    h.slots i call.call k (by rw [hphase]; rfl) (by rw [hphase]; rfl)
  funext t
  by_cases ht : t = call.shkey
  · rw [boundTokens_of_filling ⟨i, call, by simp [TablePhase.claims], ht.symm⟩,
      boundTokens_of_invalid (by rw [ht, ← hk]; exact hfree)]
  · refine boundTokens_congr (SharedTable.claim_table_of_ne
      (ne_of_slot hinj h (c := call.call) (by rw [hphase]; rfl)
        (by rw [hphase]; rfl) ht)) (filling_advance_of_ne ?_ ?_)
    · intro call' hclaims
      cases hclaims
      exact Ne.symm ht
    · simp [hphase, TablePhase.claims]

omit [NeZero n] in
theorem boundTokens_storeShkey {call : InsertCall ι τ}
    (hphase : p.phase i = .storeShkey call k) :
    boundTokens S (p.advance i (.storePentry call k)
      (p.shared.storeShkey call k)) = boundTokens S p := by
  funext t
  by_cases ht : t = call.shkey
  · rw [boundTokens_of_filling ⟨i, call, by simp [TablePhase.claims], ht.symm⟩,
      boundTokens_of_filling ⟨i, call, by simp [hphase, TablePhase.claims],
        ht.symm⟩]
  · refine boundTokens_congr (SharedTable.storeShkey_table_of_ne
      (ne_of_slot hinj h (c := call.call) (by rw [hphase]; rfl)
        (by rw [hphase]; rfl) ht))
      (filling_advance_iff (by rw [hphase]; rfl))

include hcalm in
omit [NeZero n] in
/-- The last store of an insertion binds its token. -/
theorem boundTokens_storePentry {call : InsertCall ι τ}
    (hphase : p.phase i = .storePentry call k) :
    boundTokens S (p.advance i .idle (p.shared.storePentry call k)) =
      Function.update (boundTokens S p) call.shkey (some call.pentry) := by
  have hk : k = S.hashFunction call.shkey :=
    h.slots i call.call k (by rw [hphase]; rfl) (by rw [hphase]; rfl)
  have hknows := h.knows i
  rw [hphase] at hknows
  funext t
  by_cases ht : t = call.shkey
  · -- No other insertion of the token is under way.
    have hquiet : ¬ BeingInserted
        (p.advance i .idle (p.shared.storePentry call k)) t := by
      intro hfilling
      rcases hfilling with ⟨j, call', hclaims, hshkey⟩
      by_cases hj : j = i
      · simp [hj, TablePhase.claims] at hclaims
      · rw [Pool.advance_phase_of_ne p hj] at hclaims
        have hcall' : (p.phase j).call = some call'.call := by
          cases hphase : p.phase j <;> rw [hphase] at hclaims <;>
            cases hclaims <;> rfl
        exact hcalm j i hj call'.call call.call hcall' (by rw [hphase]; rfl)
          ⟨hshkey.trans ht, .inl rfl⟩
    rw [boundTokens_of_valid (by simp [ht, ← hk, hknows.1])
      (by simp [ht, ← hk, hknows.2]) hquiet, ht, Function.update_self]
    simp [← hk]
  · rw [Function.update_of_ne ht]
    refine boundTokens_congr (SharedTable.storePentry_table_of_ne
      (ne_of_slot hinj h (c := call.call) (by rw [hphase]; rfl)
        (by rw [hphase]; rfl) ht)) (filling_advance_of_ne ?_ ?_)
    · simp [TablePhase.claims]
    · intro call' hclaims
      rw [hphase] at hclaims
      cases hclaims
      exact Ne.symm ht

omit [NeZero n] in
/-- A revocation unbinds its token. -/
theorem boundTokens_revoke {query : Query ι τ}
    (hphase : p.phase i = .storeValid query k) :
    boundTokens S (p.advance i .idle (p.shared.revoke query.shkey k)) =
      Function.update (boundTokens S p) query.shkey none := by
  have hk := h.slots i query.call k (by rw [hphase]; rfl) (by rw [hphase]; rfl)
  rw [query.call_shkey] at hk
  funext t
  by_cases ht : t = query.shkey
  · rw [boundTokens_of_invalid (by simp [ht, ← hk]), ht, Function.update_self]
  · rw [Function.update_of_ne ht]
    exact boundTokens_congr (SharedTable.revoke_table_of_ne
      (ne_of_slot hinj h (c := query.call) (by rw [hphase]; rfl)
        (by rw [hphase]; rfl) (by rwa [query.call_shkey])))
      (filling_advance_iff (by rw [hphase]; rfl))

/-! ## What a turn explains -/

/-- The state before a turn of host `i` explains the one behind it. -/
def Explained (S : TokenScheme τ n) (p : TablePool ι τ n) (i : ι)
    (op : Option (HostCall τ)) (o : TableEvent ι τ)
    (phase' : TablePhase ι τ n) (σ' : SharedTable ι τ n) : Prop :=
  Exec (TokenMap.Serves S.globalKey) (explainedTable S p)
    (seenOf (i, op) o) (explainedTable S (p.advance i phase' σ'))

include hcalm in
/-- The other calls stay where they are. -/
theorem explainedTable_advance
    (hact : hostAccess S (p.phase i) p.shared = some (o, phase', σ')) :
    explainedTable S (p.advance i phase' σ') =
      ⟨boundTokens S (p.advance i phase' σ'),
        Function.update (explainedTable S p).status i
          (callStatus S σ' phase')⟩ := by
  refine Object.ext rfl (funext fun j => ?_)
  show callStatus S σ' ((p.advance i phase' σ').phase j) =
    Function.update (explainedTable S p).status i _ j
  by_cases hj : j = i
  · simp [hj]
  · rw [Function.update_of_ne hj, Pool.advance_phase_of_ne p hj]
    have hpentry : ∀ c k, (p.phase j).call = some c →
        (p.phase j).slot = some k →
          (σ'.table k).pentry = (p.shared.table k).pentry :=
      fun c k hcall hslot => (slot_kept hinj h hcalm hj hact hcall hslot).2.1
    show callStatus S σ' (p.phase j) = callStatus S p.shared (p.phase j)
    generalize p.phase j = phase at hpentry
    cases phase <;> simp only [callStatus, checked]
    all_goals rw [hpentry _ _ rfl rfl]

variable (hact : hostAccess S (p.phase i) p.shared = some (o, phase', σ'))
include hcalm hact

/-- Nothing happens to the object. -/
theorem follows_silent (ho : o.reply = none)
    (hstatus : callStatus S σ' phase' = callStatus S p.shared (p.phase i))
    (hmap : boundTokens S (p.advance i phase' σ') = boundTokens S p) :
    Explained S p i none o phase' σ' := by
  have hsame : explainedTable S (p.advance i phase' σ') =
      explainedTable S p := by
    rw [explainedTable_advance hinj h hcalm hact, hmap, hstatus]
    exact Object.ext rfl (Function.update_eq_self ..)
  simp only [Explained, seenOf, ho, hsame, List.nil_append]
  exact .done _

/-- The call takes effect. -/
theorem follows_happen {r : TableReply} (ho : o.reply = none)
    (hpending : callStatus S p.shared (p.phase i) = .pending c)
    (hdone : callStatus S σ' phase' = .done c r)
    (hserve : (boundTokens S p).serve S.globalKey c =
      (r, boundTokens S (p.advance i phase' σ'))) :
    Explained S p i none o phase' σ' := by
  simp only [Explained, seenOf, ho, List.nil_append]
  rw [explainedTable_advance hinj h hcalm hact, hdone]
  exact Exec.happen (c := explainedTable S p) hpending hserve

/-- The call returns, having taken effect earlier. -/
theorem follows_answer {r : TableReply} (ho : o.reply = some r)
    (hidle : phase' = .idle)
    (hdone : callStatus S p.shared (p.phase i) = .done c r)
    (hmap : boundTokens S (p.advance i phase' σ') = boundTokens S p) :
    Explained S p i none o phase' σ' := by
  simp only [Explained, seenOf, ho, List.nil_append]
  rw [explainedTable_advance hinj h hcalm hact, hmap, hidle]
  exact Exec.answer (c := explainedTable S p) c hdone

/-- The call takes effect and returns. -/
theorem follows_serve {r : TableReply} (ho : o.reply = some r)
    (hidle : phase' = .idle)
    (hpending : callStatus S p.shared (p.phase i) = .pending c)
    (hserve : (boundTokens S p).serve S.globalKey c =
      (r, boundTokens S (p.advance i phase' σ'))) :
    Explained S p i none o phase' σ' := by
  simp only [Explained, seenOf, ho, List.nil_append]
  rw [explainedTable_advance hinj h hcalm hact, hidle] 
  exact Exec.serve (c := explainedTable S p) c hpending (hidle ▸ hserve)

/-! ## Where each call takes effect -/

omit hact in
omit [NeZero n] [DecidableEq ι] in
/-- A valid slot of a call holds the region of its token. -/
theorem bound_of_valid (hcall : (p.phase i).call = some c)
    (hslot : (p.phase i).slot = some k) (hnone : (p.phase i).claims = none)
    (hvalid : (p.shared.table k).valid = true) :
    boundTokens S p c.shkey = some (p.shared.table k).pentry := by
  have hk := h.slots i c k hcall hslot
  have hshows := shows_of_valid hinj h hcalm hcall hslot
    (fun call j hstore => by simp [hstore, TablePhase.claims] at hnone) hvalid
  rw [boundTokens_of_valid (by rw [← hk]; exact hvalid)
    (by rw [← hk]; exact hshows) (not_filling hcalm hcall hnone), ← hk]

omit hinj hact hcalm in
omit [NeZero n] [DecidableEq ι] in
theorem not_bound_of_invalid (hcall : (p.phase i).call = some c)
    (hslot : (p.phase i).slot = some k)
    (hinvalid : (p.shared.table k).valid = false) :
    boundTokens S p c.shkey = none :=
  boundTokens_of_invalid (by rw [← h.slots i c k hcall hslot]; exact hinvalid)

omit hact in
/-- An insertion takes effect when it finds its slot taken. -/
theorem explain_claim {call : InsertCall ι τ}
    (hphase : p.phase i = .claim call k)
    (hact : hostAccess S (p.phase i) p.shared = some (o, phase', σ')) :
    Explained S p i none o phase' σ' := by
  have hturn := hact
  rw [hphase] at hact
  simp only [hostAccess] at hact
  split at hact
  · rename_i hfree
    cases hact
    exact follows_silent hinj h hcalm hturn rfl (by rw [hphase]; rfl)
      (boundTokens_claim hinj h hphase hfree)
  · rename_i hbusy
    cases hact
    have hbound := bound_of_valid hinj h hcalm (c := call.call) (k := k)
      (by rw [hphase]; rfl) (by rw [hphase]; rfl) (by rw [hphase]; rfl)
      (by simpa using hbusy)
    have hmap : boundTokens S (p.advance i (.testShkey call k) p.shared) =
        boundTokens S p := boundTokens_quiet (by rw [hphase]; rfl)
    refine follows_happen hinj h hcalm hturn rfl (by rw [hphase]; rfl) rfl ?_
    rw [hmap]
    simp only [TokenCall.shkey, InsertCall.call] at hbound
    simp [TokenMap.serve, InsertCall.call, TokenMap.insert, hbound]

omit hact in
/-- An insertion takes effect when it stores the region. -/
theorem explain_storePentry {call : InsertCall ι τ}
    (hphase : p.phase i = .storePentry call k)
    (hact : hostAccess S (p.phase i) p.shared = some (o, phase', σ')) :
    Explained S p i none o phase' σ' := by
  have hturn := hact
  rw [hphase] at hact
  cases hact
  have hunbound : boundTokens S p call.shkey = none :=
    boundTokens_of_filling ⟨i, call, by rw [hphase]; rfl, rfl⟩
  refine follows_serve hinj h hcalm hturn rfl rfl (by rw [hphase]; rfl) ?_
  rw [boundTokens_storePentry hinj h hcalm hphase]
  simp [TokenMap.serve, InsertCall.call, TokenMap.insert, hunbound]

omit hact in
/-- A search takes effect with its last look at the flag; a search with
`globalKey` and a revocation later. -/
theorem explain_finalValid {query : Query ι τ}
    (hphase : p.phase i = .finalValid query k)
    (hact : hostAccess S (p.phase i) p.shared = some (o, phase', σ')) :
    Explained S p i none o phase' σ' := by
  have hturn := hact
  rw [hphase] at hact
  have hquiet : ∀ phase' : TablePhase ι τ n, phase'.claims = none →
      boundTokens S (p.advance i phase' p.shared) = boundTokens S p :=
    fun _ hnone => boundTokens_quiet (by rw [hphase, hnone]; rfl)
  simp only [hostAccess] at hact
  split at hact
  · rename_i hvalid
    cases hact
    have hbound := bound_of_valid hinj h hcalm (c := query.call) (k := k)
      (by rw [hphase]; rfl) (by rw [hphase]; rfl) (by rw [hphase]; rfl) hvalid
    rw [query.call_shkey] at hbound
    have hmap := hquiet (.finalShkey query k) rfl
    by_cases hpending : checked S p.shared query k = .pending query.call
    · exact follows_silent hinj h hcalm hturn rfl
        (by rw [hphase]; exact hpending) hmap
    · unfold checked at hpending
      split at hpending
      · exact absurd rfl hpending
      · rename_i wanted hpurpose
        split at hpending
        · exact absurd rfl hpending
        · rename_i hne
          refine follows_happen hinj h hcalm (r := .verdict
            ((p.shared.table k).pentry.refusal wanted.bit wanted.offset
              wanted.size)) hturn rfl (by rw [hphase]; rfl)
            (by simp [callStatus, checked, hpurpose, hne]) ?_
          rw [hmap]
          simp [Query.call, hpurpose, TokenMap.serve, TokenMap.verdict, hne,
            hbound]
  · rename_i hinvalid
    have hbound := not_bound_of_invalid h (c := query.call) (k := k)
      (by rw [hphase]; rfl) (by rw [hphase]; rfl) (by simpa using hinvalid)
    rw [query.call_shkey] at hbound
    split at hact
    · rename_i hne
      cases hact
      cases hpurpose : query.purpose
      · refine follows_serve hinj h hcalm (r := .verdict (some .missing)) hturn
          (by simp [Query.fail, hpurpose, TableEvent.reply]) rfl
          (by rw [hphase]; rfl) ?_
        rw [hquiet _ rfl]
        simp [Query.call, hpurpose, TokenMap.serve, TokenMap.verdict, hne,
          hbound]
      · refine follows_serve hinj h hcalm (r := .code (-1)) hturn
          (by simp [Query.fail, hpurpose, TableEvent.reply]) rfl
          (by rw [hphase]; rfl) ?_
        rw [hquiet _ rfl]
        simp [Query.call, hpurpose, TokenMap.serve, TokenMap.revoke, hne,
          hbound]
    · rename_i hglobal
      rw [not_not] at hglobal
      cases hact
      refine follows_silent hinj h hcalm hturn rfl ?_ (hquiet _ ?_)
      · rw [hphase]
        cases hpurpose : query.purpose <;>
          simp [Query.proceed, hpurpose, callStatus, checked, hglobal]
      · cases hpurpose : query.purpose <;>
          simp [Query.proceed, hpurpose, TablePhase.claims]

omit hinj h hcalm hact in
omit [NeZero n] [DecidableEq ι] in
/-- A slot that is going to be tested. -/
theorem callStatus_proceed (query : Query ι τ) (k : Fin n)
    (σ : SharedTable ι τ n) :
    callStatus S σ (query.proceed k) = checked S σ query k := by
  cases hpurpose : query.purpose <;>
    simp [Query.proceed, hpurpose, callStatus, checked]

omit hact in
/-- A test of a lookup says what the region said when the flag was read. -/
theorem explain_denied {query : Query ι τ} {wanted : Wanted} {denial : Denial}
    (hstatus : callStatus S p.shared (p.phase i) = checked S p.shared query k)
    (hnone : (p.phase i).claims = none)
    (hpurpose : query.purpose = .access wanted)
    (hne : query.shkey ≠ S.globalKey)
    (hrefusal : (p.shared.table k).pentry.refusal wanted.bit wanted.offset
      wanted.size = some denial)
    (hact : hostAccess S (p.phase i) p.shared =
      some (.denied denial, .idle, p.shared)) :
    Explained S p i none (.denied denial) .idle p.shared := by
  refine follows_answer hinj h hcalm hact (c := query.call) rfl rfl ?_
    (boundTokens_quiet hnone.symm)
  rw [hstatus, checked, hpurpose]
  simp [hne, hrefusal]

omit hact in
/-- A lookup passes one test and goes on to the next. -/
theorem explain_test {q : Query ι τ}
    (hstatus : callStatus S p.shared (p.phase i) = checked S p.shared q k)
    (hstatus' : callStatus S p.shared phase' = checked S p.shared q k)
    (hnone : (p.phase i).claims = none) (hnone' : phase'.claims = none)
    (hact : hostAccess S (p.phase i) p.shared =
      some (.quiet, phase', p.shared)) :
    Explained S p i none .quiet phase' p.shared :=
  follows_silent hinj h hcalm hact rfl (hstatus'.trans hstatus.symm)
    (boundTokens_quiet (hnone'.trans hnone.symm))

omit hact in
/-- The last test of a lookup. -/
theorem explain_permission {query : Query ι τ} {wanted : Wanted}
    {used : List (Option (InsertCall ι τ))}
    (hphase : p.phase i = .permission query wanted k used)
    (hact : hostAccess S (p.phase i) p.shared = some (o, phase', σ')) :
    Explained S p i none o phase' σ' := by
  have hturn := hact
  have hknows := h.knows i
  have hquiet : boundTokens S (p.advance i .idle p.shared) = boundTokens S p :=
    boundTokens_quiet (by rw [hphase]; rfl)
  rw [hphase] at hact hknows
  obtain ⟨hpurpose, htests⟩ := hknows
  simp only [hostAccess] at hact
  split at hact
  · rename_i hdenied
    cases hact
    have hbounds := (htests hdenied.2).2
    exact explain_denied hinj h hcalm (by rw [hphase]; rfl)
      (by rw [hphase]; rfl) hpurpose hdenied.2 (by
        rw [ProtectionEntry.refusal, if_neg hbounds.1, if_neg hbounds.2,
          if_pos hdenied.1]) hturn
  · rename_i hpassed
    cases hact
    by_cases hglobal : query.shkey = S.globalKey
    · refine follows_serve hinj h hcalm (c := query.call) (r := .verdict none)
        hturn rfl rfl (by simp [hphase, callStatus, checked, hpurpose, hglobal])
        ?_
      rw [hquiet]
      simp [Query.call, hpurpose, TokenMap.serve, TokenMap.verdict, hglobal]
    · refine follows_answer hinj h hcalm (c := query.call) (r := .verdict none)
        hturn rfl rfl ?_ hquiet
      have hbounds := (htests hglobal).2
      have hrefusal : (p.shared.table k).pentry.refusal wanted.bit
          wanted.offset wanted.size = none := by
        rw [ProtectionEntry.refusal, if_neg hbounds.1, if_neg hbounds.2,
          if_neg fun hdenied => hpassed ⟨hdenied, hglobal⟩]
      simp [hphase, callStatus, checked, hpurpose, hglobal, hrefusal]

omit hact in
/-- A revocation takes effect when it clears the flag. -/
theorem explain_storeValid {query : Query ι τ}
    (hphase : p.phase i = .storeValid query k)
    (hact : hostAccess S (p.phase i) p.shared = some (o, phase', σ')) :
    Explained S p i none o phase' σ' := by
  have hturn := hact
  have hknows := h.knows i
  rw [hphase] at hact hknows
  cases hact
  refine follows_serve hinj h hcalm (c := query.call) hturn rfl rfl
    (by rw [hphase]; rfl) ?_
  rw [boundTokens_revoke hinj h hphase]
  have hlive : query.shkey = S.globalKey ∨
      boundTokens S p query.shkey ≠ none := by
    refine hknows.2.imp_right fun hfound => ?_
    have hbound := bound_of_valid hinj h hcalm (c := query.call) (k := k)
      (by rw [hphase]; rfl) (by rw [hphase]; rfl) (by rw [hphase]; rfl)
      (hfound.2 hknows.1)
    rw [query.call_shkey] at hbound
    simp [hbound]
  simp only [Query.call, hknows.1, TokenMap.serve, TokenMap.revoke,
    if_pos hlive]

omit hact in
/-- **Step lemma**: an access is explained by what the object does. -/
theorem explain_access
    (hact : hostAccess S (p.phase i) p.shared = some (o, phase', σ')) :
    Explained S p i none o phase' σ' := by
  have hturn := hact
  have hknows := h.knows i
  cases hphase : p.phase i <;> rw [hphase] at hact hknows
  case idle => cases hact
  case claim => exact explain_claim hinj h hcalm hphase hturn
  case storePentry => exact explain_storePentry hinj h hcalm hphase hturn
  case finalValid => exact explain_finalValid hinj h hcalm hphase hturn
  case permission => exact explain_permission hinj h hcalm hphase hturn
  case storeValid => exact explain_storeValid hinj h hcalm hphase hturn
  case testShkey call k =>
    simp only [hostAccess] at hact
    rw [if_pos (show _ = call.shkey from hknows)] at hact
    cases hact
    exact follows_answer hinj h hcalm hturn rfl rfl (by rw [hphase]; rfl)
      (boundTokens_quiet (by rw [hphase]; rfl))
  case storeShkey call k =>
    cases hact
    exact follows_silent hinj h hcalm hturn rfl (by rw [hphase]; rfl)
      (boundTokens_storeShkey hinj h hphase)
  case loopValid query k =>
    simp only [hostAccess] at hact
    split at hact <;> cases hact <;>
      exact follows_silent hinj h hcalm hturn rfl (by rw [hphase]; rfl)
        (boundTokens_quiet (by rw [hphase]; rfl))
  case loopShkey query k =>
    simp only [hostAccess] at hact
    rw [if_neg fun hother => hother.1 hknows] at hact
    cases hact
    exact follows_silent hinj h hcalm hturn rfl (by rw [hphase]; rfl)
      (boundTokens_quiet (by rw [hphase]; rfl))
  case finalShkey query k =>
    simp only [hostAccess] at hact
    rw [if_neg fun hother => hother.1 hknows.1] at hact
    cases hact
    refine explain_test hinj h hcalm (q := query) (by rw [hphase]; rfl)
      (callStatus_proceed ..) (by rw [hphase]; rfl) ?_ hturn
    cases hpurpose : query.purpose <;>
      simp [Query.proceed, hpurpose, TablePhase.claims]
  case regionSize query wanted k used =>
    simp only [hostAccess] at hact
    split at hact
    · rename_i hzero
      cases hact
      exact explain_denied hinj h hcalm (by rw [hphase]; rfl)
        (by rw [hphase]; rfl) hknows.1 hzero.2
        (if_pos hzero.1) hturn
    · cases hact
      exact explain_test hinj h hcalm (q := query) (by rw [hphase]; rfl)
        rfl (by rw [hphase]; rfl) rfl hturn
  case regionOffset query wanted k used =>
    simp only [hostAccess] at hact
    split at hact
    · rename_i hlow
      split at hact
      · rename_i hne
        cases hact
        refine explain_denied hinj h hcalm (by rw [hphase]; rfl)
          (by rw [hphase]; rfl) hknows.1 hne ?_ hturn
        rw [ProtectionEntry.refusal, if_neg (hknows.2 hne).2,
          if_pos (.inl hlow)]
      · cases hact
        exact explain_test hinj h hcalm (q := query) (by rw [hphase]; rfl)
          rfl (by rw [hphase]; rfl) rfl hturn
    · cases hact
      exact explain_test hinj h hcalm (q := query) (by rw [hphase]; rfl)
        rfl (by rw [hphase]; rfl) rfl hturn
  case endOffset query wanted k used =>
    cases hact
    exact explain_test hinj h hcalm (q := query) (by rw [hphase]; rfl)
      rfl (by rw [hphase]; rfl) rfl hturn
  case endSize query wanted k used regionOffset =>
    simp only [hostAccess] at hact
    split at hact
    · rename_i hhigh
      cases hact
      obtain ⟨_, hsize, _, hoffset⟩ := hknows.2 hhigh.2
      refine explain_denied hinj h hcalm (by rw [hphase]; rfl)
        (by rw [hphase]; rfl) hknows.1 hhigh.2 ?_ hturn
      rw [ProtectionEntry.refusal, if_neg hsize,
        if_pos (.inr (by rw [← hoffset]; exact hhigh.1))]
    · cases hact
      exact explain_test hinj h hcalm (q := query) (by rw [hphase]; rfl)
        rfl (by rw [hphase]; rfl) rfl hturn

omit hact in
/-- **Turn lemma**: so is a turn. -/
theorem explain_tableTurn {op : Option (HostCall τ)}
    (hact : hostTurn S i op (p.phase i) p.shared = some (o, phase', σ')) :
    Explained S p i op o phase' σ' := by
  cases op with
  | none => exact explain_access hinj h hcalm hact
  | some op =>
      have hphase : p.phase i = .idle := by
        cases hphase : p.phase i <;> simp only [hphase, hostTurn] at hact <;>
          first | rfl | cases hact
      rw [hphase] at hact
      cases hact
      have hidle : (explainedTable S p).status i = .idle := by
        simp [explainedTable, hphase, callStatus]
      have hbegin : Exec (TokenMap.Serves S.globalKey)
          (explainedTable S p) _ _ := Exec.begin hidle op.call
      suffices heq : explainedTable S (p.advance i (op.begin S i p.shared)
          { p.shared with calls := p.shared.calls + 1 }) =
            ⟨(explainedTable S p).state, Function.update
              (explainedTable S p).status i (.pending op.call)⟩ by
        simp only [Explained, seenOf, TableEvent.reply, List.append_nil, heq]
        exact hbegin
      refine Object.ext ?_ (funext fun j => ?_)
      · refine funext fun t => boundTokens_congr rfl (filling_advance_iff ?_)
        rw [hphase]
        cases op <;> rfl
      · show callStatus S _ ((p.advance i _ _).phase j) =
          Function.update (explainedTable S p).status i _ j
        by_cases hj : j = i
        · rw [hj, Pool.advance_phase_self, Function.update_self]
          cases op <;> rfl
        · rw [Function.update_of_ne hj, Pool.advance_phase_of_ne p hj]
          cases hphase : p.phase j <;>
            simp [explainedTable, hphase, callStatus, checked]

end Turns

/-! ## Runs -/

variable {m : TokenMap τ} {table : ProtectionTable τ n}

omit [NeZero n] in
/-- Between calls the table represents the map. -/
theorem represents_of_idle (h : TableSound S p)
    (hidle : ∀ i, p.phase i = .idle) :
    Represents S p.shared.table (boundTokens S p) := by
  have hquiet : ∀ t, ¬ BeingInserted p t := by
    intro t hfilling
    rcases hfilling with ⟨j, call, hclaims, _⟩
    simp [hidle j, TablePhase.claims] at hclaims
  refine ⟨fun i hvalid => ?_, fun t => ?_⟩
  · rcases h.home i hvalid with hhome | ⟨j, call, hj⟩
    · exact hhome
    · rw [hidle j] at hj
      cases hj
  · simp [boundTokens, hquiet t]

omit [NeZero n] in
/-- So it does before the first call. -/
theorem boundTokens_start (hrep : Represents S table m) :
    boundTokens S (TablePool.start table : TablePool ι τ n) = m := by
  have hquiet : ∀ t,
      ¬ BeingInserted (TablePool.start table : TablePool ι τ n) t := by
    intro t hfilling
    rcases hfilling with ⟨j, call, hclaims, _⟩
    cases hclaims
  funext t
  rw [hrep.bound t]
  unfold boundTokens
  simp only [hquiet t, not_false_eq_true, and_true]
  rfl

omit [NeZero n] in
theorem tableSound_start (hrep : Represents S table m) :
    TableSound S (TablePool.start table : TablePool ι τ n) :=
  ⟨fun i hvalid => .inl (hrep.home i hvalid),
    fun _ _ _ hcall => (nomatch hcall), fun _ => trivial⟩

variable [DecidableEq ι] {turns : List (ι × Option (HostCall τ))}
  {events : List (TableEvent ι τ)}

/-- **Run lemma**: calm runs on any table that represents a map. -/
theorem linearizable_of_calm (hinj : Function.Injective S.hashFunction)
    (hrep : Represents S table m)
    (hcalm : AtEveryStep (hostStep S) (fun p _ => CalmTokens p)
      (.start table) turns)
    (hrun : run (hostStep S) (.start table) turns = some (events, p)) :
    ∃ m' status, Exec (TokenMap.Serves S.globalKey)
        ⟨m, fun _ => .idle⟩ (tableHistory turns events) ⟨m', status⟩ ∧
      ((∀ i, p.phase i = .idle) → Represents S p.shared.table m') := by
  have hstart : explainedTable S (TablePool.start table : TablePool ι τ n) =
      ⟨m, fun _ => .idle⟩ :=
    Object.ext (boundTokens_start hrep) rfl
  have hstep : ∀ (p : TablePool ι τ n) turn o p', TableSound S p →
      CalmTokens p → hostStep S p turn = some (o, p') → TableSound S p' := by
    intro p turn o p' h hcalm hstep
    obtain ⟨phase, σ', hact, rfl⟩ := poolStep_eq_some_iff.mp hstep
    exact tableSound_turn hinj h hcalm hact
  have hend := (run_outputs_where (O := fun _ _ => True)
    (fun p turn o p' h hcalm hs => ⟨hstep p turn o p' h hcalm hs, trivial⟩)
    (fun _ _ _ _ _ _ _ => trivial) (tableSound_start hrep) hcalm hrun).1
  obtain ⟨c, rfl, hexec⟩ := exec_of_run (TableSound S)
    (fun p c => c = explainedTable S p) seenOf hstep
    (fun p turn o p' c' h hcalm hstep hc' => by
      obtain ⟨phase, σ', hact, rfl⟩ := poolStep_eq_some_iff.mp hstep
      rw [hc']
      exact ⟨_, rfl, explain_tableTurn hinj h hcalm hact⟩)
    (tableSound_start hrep) hcalm hrun rfl
  rw [hstart] at hexec
  exact ⟨_, _, hexec, represents_of_idle hend⟩

omit [DecidableEq ι] in
/-- An access goes on with the call it belongs to. -/
theorem call_of_hostAccess
    (hact : hostAccess S phase σ = some (o, phase', σ'))
    (hcall : phase'.call = some c) : phase.call = some c := by
  cases phase <;> simp only [hostAccess] at hact
  case idle => cases hact
  all_goals
    repeat' split at hact
    all_goals
      cases hact
      first
        | exact hcall
        | cases hcall
        | (unfold Query.proceed at hcall
           split at hcall <;> exact hcall)

/-- Callers that keep conflicting calls apart: no host ever begins a call that
must not run beside a call of another host. -/
def CallApart (turns : List (ι × Option (HostCall τ))) : Prop :=
  ∀ i op j op', (i, some op) ∈ turns → (j, some op') ∈ turns → i ≠ j →
    ¬ op.call.Conflicts op'.call

/-- Then every run is calm. -/
theorem calmTokens_of_apart (hapart : CallApart turns) :
    AtEveryStep (hostStep S) (fun p _ => CalmTokens p)
      (.start table) turns := by
  refine atEveryStep_of_invariant
    (P := fun p : TablePool ι τ n => ∀ j c, (p.phase j).call = some c →
      ∃ op, (j, some op) ∈ turns ∧ op.call = c)
    (R := fun turn => turn ∈ turns)
    (fun p turn hp _ i j hne c c' hcall hcall' => ?_)
    (fun p turn o p' hp hmem _ hstep j c hcall => ?_)
    (fun _ _ hcall => (nomatch hcall)) fun _ hmem => hmem
  · obtain ⟨op, hop, rfl⟩ := hp i c hcall
    obtain ⟨op', hop', rfl⟩ := hp j c' hcall'
    exact hapart i op j op' hop hop' hne
  · obtain ⟨phase, σ', hact, rfl⟩ := poolStep_eq_some_iff.mp hstep
    obtain ⟨i, op⟩ := turn
    by_cases hj : j = i
    · rw [hj, Pool.advance_phase_self] at hcall
      rw [hj]
      cases op with
      | none => exact hp i c (call_of_hostAccess hact hcall)
      | some op =>
          cases hphase : p.phase i <;> simp only [hphase, hostTurn] at hact <;>
            cases hact
          refine ⟨op, hmem, ?_⟩
          cases op <;> cases hcall <;> rfl
    · rw [Pool.advance_phase_of_ne p hj] at hcall
      exact hp j c hcall

end Explanation

/-! ## The table of `gshmp.cpp` -/

/-- Hosts insert, look up and revoke tokens in the table of `gshmp.cpp`, access
by access and in any order, such that no token is inserted while another call
on it is under way, and none revoked by two hosts at a time.  Then the
invocations and responses are those of a map that serves one call at a time,
and once all calls have returned the table represents this map. -/
theorem table_linearizable {ι : Type} [DecidableEq ι]
    {table : ProtectionTable UInt16 hashTableSize} {m : TokenMap UInt16}
    {turns : List (ι × Option (HostCall UInt16))}
    {events : List (TableEvent ι UInt16)} {p : TablePool ι UInt16 hashTableSize}
    (hrep : Represents shmpScheme table m)
    (hcalm : AtEveryStep (hostStep shmpScheme) (fun p _ => CalmTokens p)
      (.start table) turns)
    (hrun : run (hostStep shmpScheme) (.start table) turns =
      some (events, p)) :
    ∃ m' status, Exec (TokenMap.Serves shmpScheme.globalKey)
        ⟨m, fun _ => .idle⟩ (tableHistory turns events) ⟨m', status⟩ ∧
      ((∀ i, p.phase i = .idle) →
        Represents shmpScheme p.shared.table m') :=
  linearizable_of_calm hashFunction_injective hrep hcalm hrun

/-- Two hosts insert tokens of their own, access by access, and then one of
them revokes its token, while the other looks for a token that nobody has. -/
def tokensApart : List (Bool × Option (HostCall UInt16)) :=
  [(true, some (.insert 1 0 8 3)), (false, some (.insert 2 8 8 3)),
    (true, none), (false, none), (false, none), (true, none), (true, none),
    (false, none), (true, some (.revoke 1)), (false, some (.access 5 1 0 8)),
    (false, none), (true, none), (true, none), (true, none), (false, none),
    (true, none), (true, none)]

theorem table_linearizable_tokens_apart :
    ∃ events p, run (hostStep shmpScheme) (.start (zeroTable shmpScheme))
        tokensApart = some (events, p) ∧
      ∃ m' status, Exec (TokenMap.Serves shmpScheme.globalKey)
        ⟨fun _ => none, fun _ => .idle⟩ (tableHistory tokensApart events)
        ⟨m', status⟩ ∧
      ((∀ i, p.phase i = .idle) →
        Represents shmpScheme p.shared.table m') := by
  have hrep : Represents shmpScheme (zeroTable shmpScheme) fun _ => none :=
    ⟨fun _ hvalid => (nomatch hvalid), fun _ => rfl⟩
  have hapart : CallApart tokensApart := by
    have htokens : ∀ turn ∈ tokensApart, ∀ op ∈ turn.2,
        (op.call.shkey = 1 ↔ turn.1 = true) := by decide
    intro i op j op' hop hop' hne hconflict
    have hi := htokens _ hop op rfl
    have hj := htokens _ hop' op' rfl
    rw [hconflict.1, hj] at hi
    exact hne (Bool.eq_iff_iff.mpr hi.symm)
  have hdone : ∃ events p, run (hostStep shmpScheme)
      (.start (zeroTable shmpScheme)) tokensApart = some (events, p) :=
    ⟨_, _, rfl⟩
  obtain ⟨events, p, hrun⟩ := hdone
  exact ⟨events, p, hrun,
    table_linearizable hrep (calmTokens_of_apart hapart) hrun⟩

end SHMemora.Ports
