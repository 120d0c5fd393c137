import SHMemora.Ports.TableThreads

/-!
# Whole calls on the protection table

In `TableThreads` a step is one access to a slot, in `ProtectionTable` a whole
call.  Both are the same code: a call that nothing interrupts gives the result
of the whole call and leaves the same table behind.  The loops that walk along
the table end because they are back at their first slot after `n` rounds.

## Main results

* `leads_of_tableCall` — a call and its accesses, for one host.
* `whole_table_calls_are_accesses` — any sequence of whole calls of several
  hosts as a run of accesses.
-/

namespace SHMemora.Ports

open SHMemora.Verified.ByteMemory
open SHMemora.Verified.OrbitSearch
open SHMemora.Verified.StepRun
open SHMemora.Verified.ThreadPool

section Calls

variable {ι τ : Type} [DecidableEq τ] {n : Nat} [NeZero n]
  (S : TokenScheme τ n)

/-! ## Whole calls -/

/-- The result of a call: a code, or whether and why an access is refused. -/
inductive TableReply where
  | code (value : Int)
  | verdict (denial : Option Denial)

omit [DecidableEq τ] [NeZero n] in
/-- The result a turn shows. -/
def TableEvent.reply : TableEvent ι τ → Option TableReply
  | .quiet => none
  | .inserted value => some (.code value)
  | .passed _ _ _ => some (.verdict none)
  | .denied denial => some (.verdict (some denial))
  | .revoked value => some (.code value)

omit [DecidableEq τ] [NeZero n] in
/-- Why an access is refused. -/
def denialOf : Except Denial (Fin n) → Option Denial
  | .ok _ => none
  | .error denial => some denial

/-- A whole call.  The lookups of the three access functions stop at the same
slot, see `writeLookup_eq_readLookup`. -/
def tableCall (table : ProtectionTable τ n) :
    HostCall τ → TableReply × ProtectionTable τ n
  | .insert shkey offset size permission =>
      let r := insertProtectionEntry S table shkey offset size permission
      (.code r.1, r.2)
  | .access shkey bit offset size =>
      (.verdict (denialOf (checkSlot S table bit offset size shkey
        (readLookup S table shkey))), table)
  | .revoke shkey =>
      let r := revokeCxl S table shkey
      (.code r.1, r.2)

/-- The calls of all hosts, one after another. -/
def tableCallStep (table : ProtectionTable τ n) (call : ι × HostCall τ) :
    Option (TableReply × ProtectionTable τ n) :=
  some (tableCall S table call.2)

/-- Where the accesses of a host lead that nothing interrupts. -/
abbrev HostLeads (r r' : TableEvent ι τ × TablePhase ι τ n ×
    SharedTable ι τ n) : Prop :=
  Leads (fun phase σ => hostAccess S phase σ) TableEvent.quiet r r'

/-! ## Insertion -/

variable {S} {σ : SharedTable ι τ n}

omit [DecidableEq τ] [NeZero n] in
/-- The three stores of an insertion together. -/
theorem table_of_stores (call : InsertCall ι τ) (i : Fin n) :
    (((σ.claim call i).storeShkey call i).storePentry call i).table =
      Function.update σ.table i ⟨call.shkey, call.pentry, true⟩ := by
  funext j
  by_cases hj : j = i
  · simp [hj]
  · simp [hj, SharedTable.storePentry_table_of_ne,
      SharedTable.storeShkey_table_of_ne, SharedTable.claim_table_of_ne]

/-- **Loop lemma**: an insertion with `fuel` rounds to go. -/
theorem leads_insertLoop (call : InsertCall ι τ) {fuel : Nat} {i : Fin n}
    (hpos : 0 < fuel)
    (hback : (· + 1)^[fuel] i = S.hashFunction call.shkey) :
    ∃ σ' : SharedTable ι τ n, HostLeads S (.quiet, .claim call i, σ)
      (.inserted (insertLoop σ.table call.shkey call.pentry
        (S.hashFunction call.shkey) fuel i).1, .idle, σ') ∧
      σ'.table = (insertLoop σ.table call.shkey call.pentry
        (S.hashFunction call.shkey) fuel i).2 := by
  induction fuel generalizing i with
  | zero => omega
  | succ fuel ih =>
      rw [Function.iterate_succ_apply] at hback
      rw [insertLoop]
      by_cases hinv : (σ.table i).valid = false
      · rw [if_pos hinv]
        refine ⟨_, .next (if_pos hinv) (.next rfl (.next rfl ?_)),
          table_of_stores call i⟩
        exact .shown (by simp)
      · rw [if_neg hinv]
        by_cases heq : (σ.table i).shkey = call.shkey
        · rw [if_pos heq]
          refine ⟨σ, .next (if_neg hinv) (.next (if_pos heq) ?_), rfl⟩
          exact .shown (by simp)
        · rw [if_neg heq]
          by_cases hend : i + 1 = S.hashFunction call.shkey
          · rw [if_pos hend]
            refine ⟨σ, .next (if_neg hinv) (.next
              ((if_neg heq).trans (if_pos hend)) ?_), rfl⟩
            exact .shown (by simp)
          · rw [if_neg hend]
            have hpos : 0 < fuel := by
              apply Nat.pos_of_ne_zero
              rintro rfl
              exact hend hback
            obtain ⟨σ', hleads, htable⟩ := ih hpos hback
            exact ⟨σ', .next (if_neg hinv) (.next
              ((if_neg heq).trans (if_neg hend)) hleads), htable⟩

/-! ## Lookups -/

/-- **Loop lemma**: a search with `fuel` rounds to go ends where the loop of
the whole call ends. -/
theorem leads_probeLoop (query : Query ι τ) {fuel : Nat} {i : Fin n}
    (hpos : 0 < fuel)
    (hback : (· + 1)^[fuel] i = S.hashFunction query.shkey)
    {r : TableEvent ι τ × TablePhase ι τ n × SharedTable ι τ n}
    (hbehind : match probeLoop S σ.table query.shkey
        (S.hashFunction query.shkey) fuel i with
      | none => HostLeads S (query.fail, .idle, σ) r
      | some j => HostLeads S (.quiet, .finalValid query j, σ) r) :
    HostLeads S (.quiet, .loopValid query i, σ) r := by
  induction fuel generalizing i with
  | zero => omega
  | succ fuel ih =>
      rw [Function.iterate_succ_apply] at hback
      rw [probeLoop] at hbehind
      by_cases hvalid : (σ.table i).valid = true
      · refine .next (if_pos hvalid) ?_
        by_cases hother : (σ.table i).shkey ≠ query.shkey ∧
            query.shkey ≠ S.globalKey
        · rw [if_pos ⟨hvalid, hother⟩] at hbehind
          by_cases hend : i + 1 = S.hashFunction query.shkey
          · rw [if_pos hend] at hbehind
            exact .next ((if_pos hother).trans (if_pos hend)) hbehind
          · rw [if_neg hend] at hbehind
            have hpos : 0 < fuel := by
              apply Nat.pos_of_ne_zero
              rintro rfl
              exact hend hback
            exact .next ((if_pos hother).trans (if_neg hend))
              (ih hpos hback hbehind)
        · rw [if_neg fun h => hother h.2] at hbehind
          exact .next (if_neg hother) hbehind
      · rw [if_neg fun h => hvalid h.1] at hbehind
        exact .next (if_neg hvalid) hbehind

omit [DecidableEq τ] [NeZero n] in
theorem fail_ne_quiet (query : Query ι τ) :
    (query.fail : TableEvent ι τ) ≠ .quiet := by
  unfold Query.fail
  split <;> simp

/-- The test of flag and token behind the loop. -/
theorem leads_final (query : Query ι τ) (i : Fin n)
    {r : TableEvent ι τ × TablePhase ι τ n × SharedTable ι τ n}
    (hbehind : if ((σ.table i).valid = false ∨
        (σ.table i).shkey ≠ query.shkey) ∧ query.shkey ≠ S.globalKey then
      r = (query.fail, .idle, σ)
      else HostLeads S (.quiet, query.proceed i, σ) r) :
    HostLeads S (.quiet, .finalValid query i, σ) r := by
  have hshown : HostLeads S (query.fail, .idle, σ) (query.fail, .idle, σ) :=
    .shown (fail_ne_quiet query)
  cases hvalid : (σ.table i).valid with
  | true =>
      refine .next (if_pos hvalid) ?_
      by_cases hother : (σ.table i).shkey ≠ query.shkey ∧
          query.shkey ≠ S.globalKey
      · rw [if_pos ⟨.inr hother.1, hother.2⟩] at hbehind
        rw [hbehind]
        exact .next (if_pos hother) hshown
      · rw [if_neg (by simpa [hvalid] using hother)] at hbehind
        exact .next (if_neg hother) hbehind
  | false =>
      by_cases hkey : query.shkey ≠ S.globalKey
      · rw [if_pos ⟨.inl hvalid, hkey⟩] at hbehind
        rw [hbehind]
        refine .next ((if_neg ?_).trans (if_pos hkey)) hshown
        simp [hvalid]
      · rw [if_neg fun h => hkey h.2] at hbehind
        refine .next ((if_neg ?_).trans (if_neg hkey)) hbehind
        simp [hvalid]

/-- The tests of the region. -/
theorem leads_region (query : Query ι τ) (wanted : Wanted) (i : Fin n)
    (hfound : ¬ (((σ.table i).valid = false ∨
      (σ.table i).shkey ≠ query.shkey) ∧ query.shkey ≠ S.globalKey)) :
    ∃ event : TableEvent ι τ,
      HostLeads S (.quiet, .regionSize query wanted i [], σ)
        (event, .idle, σ) ∧
      event.reply = some (.verdict (checkEntry S (σ.table i) wanted.bit
        wanted.offset wanted.size query.shkey)) := by
  have hpermission : ∀ used, ∃ event : TableEvent ι τ,
      HostLeads S (.quiet, .permission query wanted i used, σ)
        (event, .idle, σ) ∧ event.reply = some (.verdict
          (if (σ.table i).pentry.permission &&& wanted.bit = 0 ∧
            query.shkey ≠ S.globalKey then some .accessDenied else none)) := by
    intro used
    by_cases hdenied : (σ.table i).pentry.permission &&& wanted.bit = 0 ∧
        query.shkey ≠ S.globalKey
    · refine ⟨.denied .accessDenied, .next (if_pos hdenied) ?_, ?_⟩
      · exact .shown (by simp)
      · rw [if_pos hdenied]
        rfl
    · refine ⟨_, .next (if_neg hdenied) (.shown ?_), ?_⟩
      · simp
      · rw [if_neg hdenied]
        rfl
  rw [checkEntry, if_neg hfound]
  by_cases hsize : (σ.table i).pentry.size = 0 ∧ query.shkey ≠ S.globalKey
  · rw [if_pos hsize]
    exact ⟨_, .next (if_pos hsize) (.shown (by simp)), rfl⟩
  · rw [if_neg hsize]
    by_cases hlow : wanted.offset < (σ.table i).pentry.offset
    · by_cases hkey : query.shkey ≠ S.globalKey
      · rw [if_pos ⟨.inl hlow, hkey⟩]
        exact ⟨_, .next (if_neg hsize) (.next
          ((if_pos hlow).trans (if_pos hkey)) (.shown (by simp))), rfl⟩
      · rw [if_neg fun h => hkey h.2]
        obtain ⟨event, hleads, hreply⟩ := hpermission _
        exact ⟨event, .next (if_neg hsize) (.next
          ((if_pos hlow).trans (if_neg hkey)) hleads), hreply⟩
    · by_cases hhigh : wrap ((σ.table i).pentry.offset +
          (σ.table i).pentry.size) < wrap (wanted.offset + wanted.size) ∧
          query.shkey ≠ S.globalKey
      · rw [if_pos ⟨.inr hhigh.1, hhigh.2⟩]
        exact ⟨_, .next (if_neg hsize) (.next (if_neg hlow) (.next rfl
          (.next (if_pos hhigh) (.shown (by simp))))), rfl⟩
      · rw [if_neg (by simpa [hlow] using hhigh)]
        obtain ⟨event, hleads, hreply⟩ := hpermission _
        exact ⟨event, .next (if_neg hsize) (.next (if_neg hlow) (.next rfl
          (.next (if_neg hhigh) hleads))), hreply⟩

/-! ## All calls -/

omit [DecidableEq τ] in
/-- A loop is back at its first slot after `n` rounds. -/
theorem iterate_back (i : Fin n) : (· + 1)^[n] i = i := by
  apply Fin.ext
  rw [val_iterate_succ, Nat.add_mod_right, Nat.mod_eq_of_lt i.isLt]

theorem leads_access (shkey : τ) (bit : BitVec 32) (offset size : Nat)
    (before : List (τ × InsertCall ι τ)) :
    ∃ event : TableEvent ι τ, HostLeads S
        (.quiet, .loopValid ⟨shkey, .access ⟨bit, offset, size⟩, before⟩
          (S.hashFunction shkey), σ) (event, .idle, σ) ∧
      event.reply = some (.verdict (denialOf (checkSlot S σ.table bit offset
        size shkey (readLookup S σ.table shkey)))) := by
  have hback := iterate_back (S.hashFunction shkey)
  rw [readLookup]
  cases hprobe : probeLoop S σ.table shkey (S.hashFunction shkey) n
      (S.hashFunction shkey) with
  | none =>
      refine ⟨.denied .missing, leads_probeLoop _ (Nat.pos_of_neZero n) hback
        ?_, rfl⟩
      simp only [hprobe]
      exact .shown (by simp [fail_ne_quiet])
  | some j =>
      by_cases hmissing : ((σ.table j).valid = false ∨
          (σ.table j).shkey ≠ shkey) ∧ shkey ≠ S.globalKey
      · refine ⟨.denied .missing, leads_probeLoop _ (Nat.pos_of_neZero n)
          hback ?_, ?_⟩
        · simp only [hprobe]
          apply leads_final
          rw [if_pos hmissing]
          rfl
        · rw [checkSlot, checkEntry, if_pos hmissing]
          rfl
      · obtain ⟨event, hleads, hreply⟩ := leads_region (S := S) (σ := σ)
          (⟨shkey, .access ⟨bit, offset, size⟩, before⟩ : Query ι τ)
          ⟨bit, offset, size⟩ j hmissing
        refine ⟨event, leads_probeLoop _ (Nat.pos_of_neZero n) hback ?_, ?_⟩
        · simp only [hprobe]
          apply leads_final
          rw [if_neg hmissing]
          exact hleads
        · rw [hreply, checkSlot]
          cases checkEntry S (σ.table j) bit offset size shkey <;> rfl

theorem leads_revoke (shkey : τ) (before : List (τ × InsertCall ι τ)) :
    ∃ (event : TableEvent ι τ) (σ' : SharedTable ι τ n), HostLeads S
        (.quiet, .loopValid ⟨shkey, .revoke, before⟩ (S.hashFunction shkey), σ)
        (event, .idle, σ') ∧
      event.reply = some (.code (revokeCxl S σ.table shkey).1) ∧
      σ'.table = (revokeCxl S σ.table shkey).2 := by
  have hback := iterate_back (S.hashFunction shkey)
  have hprobe : revokeLookup S σ.table shkey = readLookup S σ.table shkey :=
    writeLookup_eq_readLookup
  rw [revokeCxl, hprobe, readLookup]
  cases hprobe : probeLoop S σ.table shkey (S.hashFunction shkey) n
      (S.hashFunction shkey) with
  | none =>
      refine ⟨.revoked (-1), σ, leads_probeLoop _ (Nat.pos_of_neZero n) hback
        ?_, rfl, rfl⟩
      simp only [hprobe]
      exact .shown (by simp [fail_ne_quiet])
  | some j =>
      by_cases hmissing : ((σ.table j).valid = false ∨
          (σ.table j).shkey ≠ shkey) ∧ shkey ≠ S.globalKey
      · refine ⟨.revoked (-1), σ, leads_probeLoop _ (Nat.pos_of_neZero n)
          hback ?_, ?_⟩
        · simp only [hprobe]
          apply leads_final
          rw [if_pos hmissing]
          rfl
        · simp only [if_pos hmissing]
          exact ⟨rfl, trivial⟩
      · refine ⟨.revoked 0, σ.revoke shkey j, leads_probeLoop _
          (Nat.pos_of_neZero n) hback ?_, ?_⟩
        · simp only [hprobe]
          apply leads_final
          rw [if_neg hmissing]
          exact .next rfl (.shown (by simp))
        · simp only [if_neg hmissing]
          exact ⟨rfl, rfl⟩

/-- **Call lemma**: the accesses of a call that nothing interrupts. -/
theorem leads_of_tableCall (op : HostCall τ) (host : ι) :
    ∃ (event : TableEvent ι τ) (σ' : SharedTable ι τ n),
      HostLeads S (.quiet, op.begin S host σ,
        { σ with calls := σ.calls + 1 }) (event, .idle, σ') ∧
      event.reply = some (tableCall S σ.table op).1 ∧
      σ'.table = (tableCall S σ.table op).2 := by
  cases op with
  | insert shkey offset size permission =>
      have hback := iterate_back (S.hashFunction shkey)
      obtain ⟨σ', hleads, htable⟩ := leads_insertLoop (S := S)
        (σ := { σ with calls := σ.calls + 1 })
        ⟨host, σ.calls, shkey, .of offset size permission⟩
        (Nat.pos_of_neZero n) hback
      exact ⟨_, σ', hleads, rfl, htable⟩
  | access shkey bit offset size =>
      obtain ⟨event, hleads, hreply⟩ := leads_access (S := S)
        (σ := { σ with calls := σ.calls + 1 }) shkey bit offset size σ.revoked
      exact ⟨event, _, hleads, hreply, rfl⟩
  | revoke shkey =>
      exact leads_revoke (S := S) (σ := { σ with calls := σ.calls + 1 }) shkey
        σ.revoked

/-! ## Runs -/

variable [DecidableEq ι]

omit [DecidableEq τ] [NeZero n] in
/-- No host is in a call. -/
structure AtRest (table : ProtectionTable τ n) (p : TablePool ι τ n) :
    Prop where
  table : p.shared.table = table
  idle : ∀ host, p.phase host = .idle

omit [DecidableEq τ] in
/-- The call a turn begins. -/
def hostBegins (turn : ι × Option (HostCall τ)) : Option (ι × HostCall τ) :=
  turn.2.map fun op => (turn.1, op)

/-- **Step lemma**: a call of one host as turns of this host. -/
theorem run_of_tableCall {table : ProtectionTable τ n} {p : TablePool ι τ n}
    (hp : AtRest table p) (call : ι × HostCall τ) :
    ∃ turns events p', run (hostStep S) p turns = some (events, p') ∧
      AtRest (tableCall S table call.2).2 p' ∧
      turns.filterMap hostBegins = [call] ∧
      events.filterMap TableEvent.reply =
        [(tableCall S table call.2).1] := by
  obtain ⟨host, op⟩ := call
  obtain ⟨event, σ', hleads, hreply, htable⟩ :=
    leads_of_tableCall (S := S) (σ := p.shared) op host
  have hfirst : hostTurn S host (some op) (p.phase host) p.shared =
      some (.quiet, op.begin S host p.shared,
        { p.shared with calls := p.shared.calls + 1 }) := by
    rw [hp.idle host]
    rfl
  have hturns : Leads (hostTurn S host none) .quiet _ _ := hleads
  obtain ⟨k, hrun⟩ := hturns.run hfirst
  rw [hp.table] at hreply htable
  refine ⟨_, _, _, hrun, ⟨htable, fun j => ?_⟩, ?_, ?_⟩
  · by_cases hj : j = host
    · rw [hj]
      exact Pool.advance_phase_self ..
    · rw [Pool.advance_phase_of_ne p hj]
      exact hp.idle j
  · simp [hostBegins]
  · have hquiet : (TableEvent.quiet : TableEvent ι τ).reply = none := rfl
    simp [List.filterMap_append, hquiet, hreply]

variable (S) in
/-- Whatever hosts do to a table call by call, they can do access by access:
every sequence of whole calls is a run of accesses that begins the same calls,
shows the same results and leaves the same table behind. -/
theorem whole_table_calls_are_accesses (table : ProtectionTable τ n)
    (calls : List (ι × HostCall τ)) :
    ∃ replies table' turns events p,
      run (tableCallStep S) table calls = some (replies, table') ∧
      run (hostStep S) (.start table) turns = some (events, p) ∧
      p.shared.table = table' ∧ (∀ host, p.phase host = .idle) ∧
      turns.filterMap hostBegins = calls ∧
      events.filterMap TableEvent.reply = replies := by
  have hreturns : ∀ table : ProtectionTable τ n, ∃ replies table',
      run (tableCallStep S) table calls = some (replies, table') := by
    induction calls with
    | nil => exact fun table => ⟨[], table, rfl⟩
    | cons call calls ih =>
        intro table
        obtain ⟨replies, table', hrun⟩ := ih (tableCall S table call.2).2
        exact ⟨_, table', run_cons_eq_some_iff.mpr
          ⟨_, _, replies, rfl, hrun, rfl⟩⟩
  obtain ⟨replies, table', hrun⟩ := hreturns table
  have hsim : ∀ (table : ProtectionTable τ n) (p : TablePool ι τ n) call reply
      table', AtRest table p →
      tableCallStep S table call = some (reply, table') →
      ∃ turns events p', run (hostStep S) p turns = some (events, p') ∧
        AtRest table' p' ∧ turns.filterMap hostBegins = [call] ∧
        events.filterMap TableEvent.reply = [reply] := by
    intro table p call reply table' hp hstep
    have heq := Option.some.inj hstep
    rw [show reply = _ from (congrArg Prod.fst heq).symm,
      show table' = _ from (congrArg Prod.snd heq).symm]
    exact run_of_tableCall hp call
  obtain ⟨turns, events, p, hfine, hp, hturns, hevents⟩ :=
    run_refines hsim (t := .start table) ⟨rfl, fun _ => rfl⟩ hrun
  exact ⟨replies, table', turns, events, p, hrun, hfine, hp.table, hp.idle,
    hturns, hevents⟩

/-- One host inserts a token, another one uses it. -/
theorem whole_table_calls_are_accesses_two_hosts :
    ∃ replies table' turns events p,
      run (tableCallStep shmpScheme) (zeroTable shmpScheme)
        [(true, .insert 5 0 8 3), (false, .access 5 1 0 8)] =
          some (replies, table') ∧
      run (hostStep shmpScheme) (.start (zeroTable shmpScheme)) turns =
        some (events, p) ∧
      p.shared.table = table' ∧ (∀ host, p.phase host = .idle) ∧
      turns.filterMap hostBegins =
        [(true, .insert 5 0 8 3), (false, .access 5 1 0 8)] ∧
      events.filterMap TableEvent.reply = replies :=
  whole_table_calls_are_accesses shmpScheme (zeroTable shmpScheme) _

end Calls

end SHMemora.Ports
