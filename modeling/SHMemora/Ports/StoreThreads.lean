import SHMemora.Ports.WholeTableCalls
import SHMemora.Ports.StoreFleet

/-!
# Threads on one store

`TableThreads` follows the accesses of hosts to the slots of the protection
table.  Here the calls of `acquire`, `revoke_cxl`, `read_cxl`, `write_cxl` and
`compare_cxl` are followed to their end: behind the tests the loop over the
bytes begins, and a step is an access to a slot or the load or store of one
byte of the data area.  Nothing holds the table or the bytes meanwhile, so that
other hosts may revoke the token or change the bytes between two steps.

`safe_memcmp` mentions the byte twice, in its test and in its result; these are
two loads.

## Main result

* `whole_accesses_are_steps` — any sequence of whole calls of several `gshm`
  objects as a run of such steps.
-/

namespace SHMemora.Ports

open SHMemora.Verified.ByteMemory
open SHMemora.Verified.StepRun
open SHMemora.Verified.ThreadPool

/-! ## State -/

/-- The two parts of the mapping. -/
structure SharedStore (ι τ : Type) (n : Nat) where
  tokens : SharedTable ι τ n
  data : Bytes

/-- A call of an access function.  `buf` is the buffer of the caller, as it is
at the moment. -/
structure Transfer (τ : Type) where
  kind : AccessKind
  offset : Nat
  size : Nat
  buf : Bytes
  shkey : τ

/-- What a call on the table is made for. -/
inductive Errand (τ : Type) where
  | acquire (shkey : τ)
  | revoke
  | transfer (transfer : Transfer τ)

/-- The access a host makes next: one to a slot, the load or store of byte `i`,
or the second load of a byte that differs. -/
inductive StorePhase (ι τ : Type) (n : Nat) where
  | idle
  | onTable (errand : Errand τ) (phase : TablePhase ι τ n)
  | copying (transfer : Transfer τ) (i : Nat)
  | differing (transfer : Transfer τ) (i : Nat)

section Steps

variable {ι τ : Type} [DecidableEq τ] {n : Nat} [NeZero n]
  (S : TokenScheme τ n)

/-! ## Steps -/

/-- What a turn shows, the phase entered and the store left behind. -/
abbrev StoreMove (ι τ : Type) (n : Nat) :=
  Option (GshmResult τ) × StorePhase ι τ n × SharedStore ι τ n

namespace Transfer

variable (t : Transfer τ) (σ : SharedStore ι τ n)

omit [DecidableEq τ] [NeZero n]

/-- The tests fail. -/
def refused : GshmResult τ :=
  match t.kind with
  | .read => .read (-1) t.buf
  | .write => .status (-1)
  | .compare => .status (-2)

/-- The loop is over. -/
def finished : GshmResult τ :=
  match t.kind with
  | .read => .read 0 t.buf
  | .write => .status 0
  | .compare => .status 0

/-- The condition of the loop. -/
def round (i : Nat) : StoreMove ι τ n :=
  if i < t.size then (none, .copying t i, σ) else (some t.finished, .idle, σ)

/-- From the tests to the loop; `write_cxl` looks at its pointer first. -/
def start (dataAddr : DataAddr) : StoreMove ι τ n :=
  if t.kind = .write ∧ getDataVaddrByOffset dataAddr.addr t.offset = 0 then
    (some t.refused, .idle, σ)
  else t.round σ 0

/-- The address of byte `i`. -/
def place (i : Nat) : Nat := wrap (t.offset + i)

/-- The buffer after the load of byte `i`. -/
def load (i : Nat) : Transfer τ :=
  { t with buf := Function.update t.buf i (σ.data (t.place i)) }

/-- The store after the store of byte `i`. -/
def put (i : Nat) : SharedStore ι τ n :=
  { σ with data := Function.update σ.data (t.place i) (t.buf i) }

/-- Byte `i` is loaded or stored. -/
def move (i : Nat) : StoreMove ι τ n :=
  match t.kind with
  | .read => (t.load σ i).round σ (i + 1)
  | .write => t.round (t.put σ i) (i + 1)
  | .compare =>
      if σ.data (t.place i) ≠ t.buf i then (none, .differing t i, σ)
      else t.round σ (i + 1)

/-- The difference that `safe_memcmp` returns. -/
def difference (i : Nat) : GshmResult τ :=
  .status ((σ.data (t.place i)).toNat - (t.buf i).toNat)

end Transfer

omit [DecidableEq τ] [NeZero n] in
/-- What follows the call on the table. -/
def Errand.behind (dataAddr : DataAddr) (reply : TableReply)
    (σ : SharedStore ι τ n) : Errand τ → StoreMove ι τ n
  | .acquire shkey => (some (.shkey shkey), .idle, σ)
  | .revoke =>
      match reply with
      | .code value => (some (.status value), .idle, σ)
      | .verdict _ => (some .done, .idle, σ)
  | .transfer t =>
      match reply with
      | .verdict none => t.start σ dataAddr
      | _ => (some t.refused, .idle, σ)

omit [DecidableEq τ] [NeZero n] in
/-- The call on the table goes on or has returned. -/
def Errand.goOn (dataAddr : DataAddr) (errand : Errand τ) (data : Bytes)
    (r : TableEvent ι τ × TablePhase ι τ n × SharedTable ι τ n) :
    StoreMove ι τ n :=
  match r.1.reply with
  | none => (none, .onTable errand r.2.1, ⟨r.2.2, data⟩)
  | some reply => errand.behind dataAddr reply ⟨r.2.2, data⟩

/-- The next access of a host. -/
def storeAccess (dataAddr : DataAddr) (phase : StorePhase ι τ n)
    (σ : SharedStore ι τ n) : Option (StoreMove ι τ n) :=
  match phase with
  | .idle => none
  | .onTable errand phase =>
      (hostAccess S phase σ.tokens).map (errand.goOn dataAddr σ.data)
  | .copying t i => some (t.move σ i)
  | .differing t i => some (some (t.difference σ i), .idle, σ)

omit [DecidableEq τ] [NeZero n] in
/-- The call on the table with which a call of the interface begins.  The
key-value operations are made of such calls, and `clear_protection_table` is
not one. -/
def GshmOp.onTable (useMac : Bool) (rand : Nat → Nat) :
    GshmOp τ → Option (Errand τ × HostCall τ)
  | .acquire offset size permission =>
      some (.acquire (S.generateShkey useMac rand).1,
        .acquire S useMac rand offset size permission)
  | .revokeCxl shkey => some (.revoke, .revoke shkey)
  | .readCxl offset size buf shkey =>
      some (.transfer ⟨.read, offset, size, buf, shkey⟩,
        .access shkey AccessKind.read.bit offset size)
  | .writeCxl offset size buf shkey =>
      some (.transfer ⟨.write, offset, size, buf, shkey⟩,
        .access shkey AccessKind.write.bit offset size)
  | .compareCxl offset size buf shkey =>
      some (.transfer ⟨.compare, offset, size, buf, shkey⟩,
        .access shkey AccessKind.compare.bit offset size)
  | _ => none

/-- A turn of a host: an idle host begins a call, another one makes its next
access.  A call comes with what `rand()` returns during it. -/
def storeTurn (members : ι → Member τ) (host : ι)
    (call : Option (GshmOp τ × (Nat → Nat))) (phase : StorePhase ι τ n)
    (σ : SharedStore ι τ n) : Option (StoreMove ι τ n) :=
  match call, phase with
  | none, _ => storeAccess S (members host).self.dataAddr phase σ
  | some (op, rand), .idle =>
      (op.onTable S (members host).useMac rand).map fun r =>
        (none, .onTable r.1 (r.2.begin S host σ.tokens),
          { σ with tokens := { σ.tokens with calls := σ.tokens.calls + 1 } })
  | some _, _ => none

/-- The threads of all hosts. -/
abbrev StorePool (ι τ : Type) (n : Nat) :=
  Pool (SharedStore ι τ n) ι (StorePhase ι τ n)

/-- One host takes a turn. -/
def storeStep [DecidableEq ι] (members : ι → Member τ) (p : StorePool ι τ n)
    (turn : ι × Option (GshmOp τ × (Nat → Nat))) :
    Option (Option (GshmResult τ) × StorePool ι τ n) :=
  poolStep (storeTurn S members) p turn

omit [DecidableEq τ] [NeZero n] in
/-- No host has begun a call on this store. -/
def StorePool.start (table : ProtectionTable τ n) (data : Bytes) :
    StorePool ι τ n where
  shared := ⟨(TablePool.start table : TablePool ι τ n).shared, data⟩
  phase := fun _ => .idle

/-! ## The loops -/

/-- Where the accesses of a host lead that nothing interrupts. -/
abbrev StoreLeads (dataAddr : DataAddr) (r r' : StoreMove ι τ n) : Prop :=
  Leads (fun phase σ => storeAccess S dataAddr phase σ) none r r'

variable {S} {dataAddr : DataAddr} {σ : SharedStore ι τ n} {t : Transfer τ}

/-- **Loop lemma**: the copy into the buffer with `k` rounds to go. -/
theorem leads_reading {buf : Bytes} {i : Nat} (k : Nat)
    (hkind : t.kind = .read) (hsize : i + k = t.size)
    (hbuf : t.buf = fetch σ.data t.offset buf i) :
    StoreLeads S dataAddr (t.round σ i)
      (some (.read 0 (fetch σ.data t.offset buf t.size)), .idle, σ) := by
  induction k generalizing t i with
  | zero =>
      rw [Transfer.round, if_neg (by omega), Transfer.finished, hkind, hbuf,
        show i = t.size by omega]
      exact .shown (by simp)
  | succ k ih =>
      have hload : (t.load σ i).buf = fetch σ.data t.offset buf (i + 1) := by
        simp only [Transfer.load, hbuf, fetch, Transfer.place]
      have hrest := ih (t := t.load σ i) hkind
        (show i + 1 + k = t.size by omega) hload
      rw [Transfer.round, if_pos (by omega)]
      refine .next ?_ hrest
      simp only [storeAccess, Transfer.move, hkind]

/-- **Loop lemma**: the copy out of the buffer with `k` rounds to go. -/
theorem leads_writing {data : Bytes} {i : Nat} (k : Nat)
    (hkind : t.kind = .write) (hsize : i + k = t.size)
    (hdata : σ.data = store data t.offset t.buf i) :
    StoreLeads S dataAddr (t.round σ i) (some (.status 0), .idle,
      { σ with data := store data t.offset t.buf t.size }) := by
  induction k generalizing σ i with
  | zero =>
      rw [Transfer.round, if_neg (by omega), Transfer.finished, hkind,
        ← show i = t.size by omega, ← hdata]
      exact .shown (by simp)
  | succ k ih =>
      have hput : (t.put σ i).data = store data t.offset t.buf (i + 1) := by
        simp only [Transfer.put, hdata, store, Transfer.place]
      have hrest := ih (σ := t.put σ i) (by omega) hput
      rw [Transfer.round, if_pos (by omega)]
      refine .next ?_ hrest
      simp only [storeAccess, Transfer.move, hkind]

/-- **Loop lemma**: the comparison with `k` rounds to go. -/
theorem leads_comparing {i : Nat} (k : Nat)
    (hkind : t.kind = .compare) (hsize : i + k = t.size) :
    StoreLeads S dataAddr (t.round σ i)
      (some (.status (safeMemcmp (fun j => σ.data (t.place (i + j)))
        (fun j => t.buf (i + j)) k)), .idle, σ) := by
  induction k generalizing i with
  | zero =>
      rw [Transfer.round, if_neg (by omega), Transfer.finished, hkind]
      exact .shown (by simp)
  | succ k ih =>
      rw [Transfer.round, if_pos (by omega), safeMemcmp]
      simp only [Nat.add_zero]
      by_cases hbyte : σ.data (t.place i) = t.buf i
      · have hrest := ih (i := i + 1) (by omega)
        simp only [Nat.add_assoc, Nat.add_comm 1] at hrest
        rw [if_neg (not_not.mpr hbyte)]
        refine .next ?_ hrest
        simp only [storeAccess, Transfer.move, hkind,
          if_neg (not_not.mpr hbyte)]
      · have hmove : storeAccess S dataAddr (.copying t i) σ =
            some (none, .differing t i, σ) := by
          simp only [storeAccess, Transfer.move, hkind, if_pos hbyte]
        rw [if_pos hbyte]
        exact .next hmove (.next rfl (.shown (by simp)))

/-! ## Whole calls -/

/-- The accesses of a call on the table come first. -/
theorem leads_onTable (errand : Errand τ) (data : Bytes)
    {r r' : TableEvent ι τ × TablePhase ι τ n × SharedTable ι τ n}
    {m : StoreMove ι τ n} (h : HostLeads S r r')
    (hbehind : StoreLeads S dataAddr (errand.goOn dataAddr data r') m) :
    StoreLeads S dataAddr (errand.goOn dataAddr data r) m := by
  induction h with
  | shown => exact hbehind
  | next hturn _ ih =>
      refine .next ?_ (ih hbehind)
      simp only [storeAccess, hturn, Option.map_some]

/-- A call is its call on the table and what follows. -/
theorem leads_of_errand {errand : Errand τ} {call : HostCall τ}
    {reply : TableReply} {table : ProtectionTable τ n}
    {result : GshmResult τ} {data : Bytes} (host : ι)
    (hcall : tableCall S σ.tokens.table call = (reply, table))
    (hbehind : ∀ tokens : SharedTable ι τ n, StoreLeads S dataAddr
      (errand.behind dataAddr reply ⟨tokens, σ.data⟩)
      (some result, .idle, ⟨tokens, data⟩)) :
    ∃ σ' : SharedStore ι τ n, StoreLeads S dataAddr
        (none, .onTable errand (call.begin S host σ.tokens),
          { σ with tokens := { σ.tokens with calls := σ.tokens.calls + 1 } })
        (some result, .idle, σ') ∧
      σ'.tokens.table = table ∧ σ'.data = data := by
  obtain ⟨event, tokens, hleads, hreply, htable⟩ :=
    leads_of_tableCall (S := S) (σ := σ.tokens) call host
  rw [hcall] at hreply htable
  refine ⟨⟨tokens, data⟩, leads_onTable errand σ.data hleads ?_,
    htable, rfl⟩
  simp only [Errand.goOn, hreply]
  exact hbehind tokens

section Behind

variable (g : Gshm τ n) (tokens : SharedTable ι τ n) (offset size : Nat)
  (buf : Bytes) (shkey : τ)

theorem leads_readCxl :
    StoreLeads S g.self.dataAddr (Errand.behind g.self.dataAddr
        (.verdict (denialOf (readAccess S g.table offset size shkey)))
        ⟨tokens, g.data⟩ (.transfer ⟨.read, offset, size, buf, shkey⟩))
      (some (.read (g.readCxl S offset size buf shkey).1
        (g.readCxl S offset size buf shkey).2), .idle, ⟨tokens, g.data⟩) := by
  rw [Gshm.readCxl]
  cases readAccess S g.table offset size shkey with
  | error denial => exact .shown (by simp [denialOf, Errand.behind])
  | ok i =>
      exact leads_reading (t := ⟨.read, offset, size, buf, shkey⟩) size rfl
        (Nat.zero_add size) rfl

theorem leads_writeCxl :
    StoreLeads S g.self.dataAddr (Errand.behind g.self.dataAddr
        (.verdict (denialOf (checkSlot S g.table 2 offset size shkey
          (readLookup S g.table shkey))))
        ⟨tokens, g.data⟩ (.transfer ⟨.write, offset, size, buf, shkey⟩))
      (some (.status (g.writeCxl S offset size buf shkey).1), .idle,
        ⟨tokens, (g.writeCxl S offset size buf shkey).2.data⟩) := by
  rw [Gshm.writeCxl, writeAccess, writeLookup_eq_readLookup]
  cases checkSlot S g.table 2 offset size shkey
      (readLookup S g.table shkey) with
  | error denial => exact .shown (by simp [denialOf, Errand.behind])
  | ok i =>
      by_cases hnull : getDataVaddrByOffset g.self.dataAddr.addr offset = 0
      · simp only [checkAddress, if_pos hnull, denialOf, Errand.behind]
        rw [Transfer.start, if_pos ⟨rfl, hnull⟩]
        exact .shown (by simp)
      · simp only [checkAddress, if_neg hnull, denialOf, Errand.behind]
        rw [Transfer.start, if_neg fun h => hnull h.2]
        exact leads_writing (t := ⟨.write, offset, size, buf, shkey⟩)
          (σ := ⟨tokens, g.data⟩) size rfl (Nat.zero_add size) rfl

theorem leads_compareCxl :
    StoreLeads S g.self.dataAddr (Errand.behind g.self.dataAddr
        (.verdict (denialOf (compareAccess S g.table offset size shkey)))
        ⟨tokens, g.data⟩ (.transfer ⟨.compare, offset, size, buf, shkey⟩))
      (some (.status (g.compareCxl S offset size buf shkey)), .idle,
        ⟨tokens, g.data⟩) := by
  rw [Gshm.compareCxl]
  cases compareAccess S g.table offset size shkey with
  | error denial => exact .shown (by simp [denialOf, Errand.behind])
  | ok i =>
      have hloop : StoreLeads S g.self.dataAddr (Transfer.round
          ⟨.compare, offset, size, buf, shkey⟩ ⟨tokens, g.data⟩ 0) _ :=
        leads_comparing size rfl (Nat.zero_add size)
      simp only [Nat.zero_add] at hloop
      exact hloop

end Behind

/-- **Call lemma**: the accesses of a call that nothing interrupts. -/
theorem leads_of_gshmStep {fuel : Nat} {g g' : Gshm τ n} {op : GshmOp τ}
    {result : GshmResult τ} {errand : Errand τ} {call : HostCall τ}
    (hcall : op.onTable S g.useMac (fun i => g.rand (g.randCalls + i)) =
      some (errand, call))
    (hstep : gshmStep S fuel g op = some (result, g')) (host : ι)
    {tokens : SharedTable ι τ n} (htable : tokens.table = g.table) :
    ∃ σ' : SharedStore ι τ n, StoreLeads S g.self.dataAddr
        (none, .onTable errand (call.begin S host tokens),
          ⟨{ tokens with calls := tokens.calls + 1 }, g.data⟩)
        (some result, .idle, σ') ∧
      σ'.tokens.table = g'.table ∧ σ'.data = g'.data := by
  have htokens : ∀ call, tableCall S (⟨tokens, g.data⟩ :
      SharedStore ι τ n).tokens.table call = tableCall S g.table call :=
    fun call => by rw [← htable]
  cases op <;> cases hcall <;> cases hstep
  case acquire =>
    exact leads_of_errand host (htokens _) fun _ =>
      .shown (by simp [Errand.behind])
  case revokeCxl =>
    exact leads_of_errand host (htokens _) fun _ =>
      .shown (by simp [Errand.behind])
  case readCxl offset size buf shkey =>
    exact leads_of_errand host (htokens _) fun tokens =>
      leads_readCxl g tokens offset size buf shkey
  case writeCxl offset size buf shkey =>
    rw [Gshm.writeCxl_table]
    exact leads_of_errand host (htokens _) fun tokens =>
      leads_writeCxl g tokens offset size buf shkey
  case compareCxl offset size buf shkey =>
    exact leads_of_errand host (htokens _) fun tokens =>
      leads_compareCxl g tokens offset size buf shkey

/-! ## Runs -/

omit [DecidableEq τ] [NeZero n] in
/-- No host is in a call. -/
structure StoreAtRest (f : Fleet τ n ι) (p : StorePool ι τ n) : Prop where
  table : p.shared.tokens.table = f.table
  data : p.shared.data = f.data
  idle : ∀ host, p.phase host = .idle

omit [DecidableEq τ] [NeZero n] in
/-- The call a turn begins. -/
def storeBegins (turn : ι × Option (GshmOp τ × (Nat → Nat))) :
    Option (StoreCall ι τ) :=
  turn.2.map fun call => ⟨turn.1, call.1, call.2⟩

omit [DecidableEq τ] [NeZero n] in
/-- A call that is made of accesses only. -/
def GshmOp.IsAccess : GshmOp τ → Prop
  | .acquire .. => True
  | .revokeCxl _ => True
  | .readCxl .. => True
  | .writeCxl .. => True
  | .compareCxl .. => True
  | _ => False

/-- Such a call returns, and leaves all but the table and the data alone. -/
theorem gshmStep_of_isAccess {op : GshmOp τ} (h : op.IsAccess) (fuel : Nat)
    (g : Gshm τ n) :
    ∃ result g' errand call,
      op.onTable S g.useMac (fun i => g.rand (g.randCalls + i)) =
        some (errand, call) ∧
      gshmStep S fuel g op = some (result, g') ∧
      g'.batchKey = g.batchKey ∧ g'.useMac = g.useMac ∧ g'.self = g.self := by
  cases op <;> first | exact h.elim | skip
  case writeCxl offset size buf shkey =>
    refine ⟨_, _, _, _, rfl, rfl, ?_⟩
    simp only [Gshm.writeCxl_useMac, Gshm.writeCxl_self, and_true]
    rw [Gshm.writeCxl]
    split <;> rfl
  all_goals exact ⟨_, _, _, _, rfl, rfl, rfl, rfl, rfl⟩

variable [DecidableEq ι] {members : ι → Member τ}

/-- **Call lemma**: a whole call and the turns of its host that nothing
interrupts. -/
theorem leads_of_storeCall (fuel : Nat) {f : Fleet τ n ι}
    {σ : SharedStore ι τ n} (htable : σ.tokens.table = f.table)
    (hdata : σ.data = f.data) (call : StoreCall ι τ)
    (hcall : call.op.IsAccess) :
    ∃ result f' r σ', fleetCall S fuel f call = some (some result, f') ∧
      f'.members = f.members ∧
      storeTurn S f.members call.member (some (call.op, call.rand)) .idle σ =
        some r ∧ r.1 = none ∧
      Leads (storeTurn S f.members call.member none) none r
        (some result, .idle, σ') ∧
      σ'.tokens.table = f'.table ∧ σ'.data = f'.data := by
  obtain ⟨host, op, rand⟩ := call
  obtain ⟨reply, g', errand, begun, hbegun, hreturns, hkey, hmac, hself⟩ :=
    gshmStep_of_isAccess (S := S) hcall fuel (f.view host rand)
  have hend : callEnd S fuel (f.view host rand) op =
      some (some reply, g') := by
    rw [callEnd.eq_def, hreturns]
  obtain ⟨σ', hleads, htable', hdata'⟩ :=
    leads_of_gshmStep hbegun hreturns host htable
  have hrand : (fun i => (f.view host rand).rand
      ((f.view host rand).randCalls + i)) = rand :=
    funext fun i => congrArg rand (Nat.zero_add i)
  rw [hrand] at hbegun
  refine ⟨reply, f.leave host g', _, σ', ?_, ?_, ?_, rfl, hleads, htable',
    hdata'⟩
  · rw [fleetCall, hend]
    rfl
  · show Function.update f.members host ⟨g'.batchKey, g'.useMac, g'.self⟩ =
      f.members
    rw [hkey, hmac, hself]
    exact Function.update_eq_self ..
  · show (op.onTable S (f.view host rand).useMac rand).map _ = _
    rw [hbegun, Option.map_some, hdata]
    rfl

/-- **Step lemma**: a call of one host as turns of this host. -/
theorem run_of_storeCall {fuel : Nat} {f : Fleet τ n ι} {p : StorePool ι τ n}
    (hp : StoreAtRest f p) (hmembers : f.members = members)
    {call : StoreCall ι τ} (hcall : call.op.IsAccess)
    {result : Option (GshmResult τ)} {f' : Fleet τ n ι}
    (hstep : fleetCall S fuel f call = some (result, f')) :
    ∃ turns events p', run (storeStep S members) p turns =
        some (events, p') ∧
      (StoreAtRest f' p' ∧ f'.members = members) ∧
      turns.filterMap storeBegins = [call] ∧
      events.filterMap (Option.map some) = [result] := by
  subst hmembers
  obtain ⟨reply, f₁, r, σ', hreturns, hmembers, hbegin, -, hleads, htable,
    hdata⟩ := leads_of_storeCall (S := S) fuel hp.table hp.data call hcall
  cases hreturns.symm.trans hstep
  have hfirst : storeTurn S f.members call.member (some (call.op, call.rand))
      (p.phase call.member) p.shared = some r := by
    rw [hp.idle]
    exact hbegin
  obtain ⟨k, hrun⟩ := hleads.run hfirst
  refine ⟨_, _, _, hrun, ⟨⟨htable, hdata, fun j => ?_⟩, hmembers⟩, ?_, ?_⟩
  · by_cases hj : j = call.member
    · rw [hj]
      exact Pool.advance_phase_self ..
    · rw [Pool.advance_phase_of_ne p hj]
      exact hp.idle j
  · simp [storeBegins]
  · simp [List.filterMap_append]

variable (S) in
/-- Whatever several objects do with whole calls, they can do access by access:
every sequence of whole calls of `acquire`, `revoke_cxl`, `read_cxl`,
`write_cxl` and `compare_cxl` is a run of accesses to single slots and bytes
that begins the same calls, returns the same results and leaves the same table
and the same data behind.  As in all of the model, the ranges of the accesses
stay below the offsets that lead round into the table (`BelowTable`). -/
theorem whole_accesses_are_steps (fuel : Nat) {f f' : Fleet τ n ι}
    {calls : List (StoreCall ι τ)} {results : List (Option (GshmResult τ))}
    (hcalls : ∀ call ∈ calls, call.op.IsAccess)
    (hrun : run (fleetCall S fuel) f calls = some (results, f')) :
    ∃ turns events p, run (storeStep S f.members) (.start f.table f.data)
        turns = some (events, p) ∧
      p.shared.tokens.table = f'.table ∧ p.shared.data = f'.data ∧
      (∀ host, p.phase host = .idle) ∧
      turns.filterMap storeBegins = calls ∧
      events.filterMap (Option.map some) = results := by
  obtain ⟨turns, events, p, hfine, hp, hturns, hevents⟩ :=
    run_refines_all (R := fun g p => StoreAtRest g p ∧ g.members = f.members)
      (fun _ _ _ _ _ hp hcall hstep =>
        run_of_storeCall hp.1 hp.2 hcall hstep)
      (t := .start f.table f.data) ⟨⟨rfl, rfl, fun _ => rfl⟩, rfl⟩ hcalls hrun
  exact ⟨turns, events, p, hfine, hp.1.table, hp.1.data, hp.1.idle, hturns,
    hevents⟩

end Steps

/-- Two objects on one mapping. -/
def twoObjects : Fleet UInt16 hashTableSize Bool :=
  ⟨zeroTable shmpScheme, fun _ => 0, fun _ => ⟨0, false, .firstHost⟩⟩

/-- One object acquires a token and writes with it, the other one reads. -/
theorem whole_accesses_are_steps_two_objects :
    ∃ results f' turns events p,
      run (fleetCall shmpScheme 0) twoObjects
        [⟨true, .acquire 0 8 3, fun _ => 5⟩,
          ⟨true, .writeCxl 0 8 (fun _ => 7) 5, fun _ => 0⟩,
          ⟨false, .readCxl 0 8 (fun _ => 0) 5, fun _ => 0⟩] =
            some (results, f') ∧
      run (storeStep shmpScheme twoObjects.members)
        (.start twoObjects.table twoObjects.data) turns = some (events, p) ∧
      p.shared.tokens.table = f'.table ∧ p.shared.data = f'.data ∧
      events.filterMap (Option.map some) = results := by
  have hcalls : ∃ results f', run (fleetCall shmpScheme 0) twoObjects
      [⟨true, .acquire 0 8 3, fun _ => 5⟩,
        ⟨true, .writeCxl 0 8 (fun _ => 7) 5, fun _ => 0⟩,
        ⟨false, .readCxl 0 8 (fun _ => 0) 5, fun _ => 0⟩] =
          some (results, f') := ⟨_, _, rfl⟩
  obtain ⟨results, f', hrun⟩ := hcalls
  obtain ⟨turns, events, p, hfine, htable, hdata, -, -, hevents⟩ :=
    whole_accesses_are_steps shmpScheme 0 (by simp [GshmOp.IsAccess]) hrun
  exact ⟨results, f', turns, events, p, hrun, hfine, htable, hdata, hevents⟩

end SHMemora.Ports
