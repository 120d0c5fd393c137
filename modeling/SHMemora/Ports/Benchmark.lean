import SHMemora.Ports.RetiredTokens
import SHMemora.Ports.TraceLoading

/-!
# The benchmark

A `worker` of `test/kv.cpp` loads a trace into its store and writes the tokens
of its keys into the token log; it clears the protection table; and then it
reads, updates and inserts what a second trace says, with the tokens it looks
up in the log.  The table is cleared after every 500000 lines as well.  Here a
worker has its store and its log to itself; in `kv.cpp` the threads share one
log.

The time stamps and the counters that are printed are left out.  `workerStep`
is one line of a trace, and a step that has no result ends the worker: an
insertion into a full partition, and a token in the log that `stoull` does not
accept.

## Main results

* `worker_tokens` — the token a line uses is the one that the first insertion
  of its key has returned.
* `worker_long_key` — keys of 64 characters and more are looked up with
  the global key, and so without a check.
* `worker_cleared_token` — a token from before a clearing of the table reads
  and updates nothing; so do the tokens of the first trace in the second one
  (`deniedLine_of_workerInputs`).
-/

namespace SHMemora.Ports

open SHMemora.Verified.ByteMemory
open SHMemora.Verified.StepRun
open SHMemora.Verified.TextLines

/-! ## The worker -/

/-- A worker between two lines: its store, the token log and the number of
lines since the last clearing. -/
structure Worker where
  store : ShmpStore
  log : Text
  cycle : Nat

/-- What a worker does next. -/
inductive WorkerInput where
  | load (line : Text)
  | clear
  | trans (line : Text)

/-- What a line has done; `shkey` is the token it used. -/
inductive WorkerEvent where
  | skipped
  | unknown
  | cleared
  | inserted (keyStr : Text) (shkey : UInt16)
  | read (keyStr : Text) (shkey : UInt16) (ok : Bool) (value : Bytes)
  | updated (keyStr : Text) (shkey : UInt16) (ok : Bool)

namespace Worker

variable (w : Worker)

/-- `shm->clear_protection_table()`, with the counter set back. -/
def clear : Worker :=
  { w with
    store := { w.store with
      table := clearProtectionTable shmpScheme w.store.table }
    cycle := 0 }

/-- The end of a line: every 500000 lines the table is cleared. -/
def tick : Worker :=
  if w.cycle + 1 = 500000 then w.clear else { w with cycle := w.cycle + 1 }

/-- An insertion and its record. -/
def insertKey (keyStr : Text) : Option (WorkerEvent × Worker) :=
  (w.store.insert shmpScheme (strncpyKey keyStr) fun _ => 118).next.map
    fun r => (.inserted keyStr r.1, tick { w with
      store := r.2
      log := recordShkeyMapping w.log (strncpyKey keyStr) r.1 })

/-- A line of the first trace. -/
def loadLine (line : Text) : Option (WorkerEvent × Worker) :=
  match insertedKey line with
  | some keyStr => w.insertKey keyStr
  | none => some (.skipped, w)

/-- A line with a token. -/
def useShkey (op keyStr : Text) (shkey : UInt16) :
    Option (WorkerEvent × Worker) :=
  if op = ascii "READ" then
    (w.store.get shmpScheme (strncpyKey keyStr) (fun _ => 0) shkey).next.map
      fun r => (.read keyStr shkey r.1.1 r.1.2, tick { w with store := r.2 })
  else if op = ascii "UPDATE" then
    (w.store.update shmpScheme (strncpyKey keyStr) (fun _ => 85)
      shkey).next.map
      fun r => (.updated keyStr shkey r.1, tick { w with store := r.2 })
  else some (.unknown, w.tick)

/-- A line of the second trace. -/
def transLine (line : Text) : Option (WorkerEvent × Worker) :=
  match traceFields line with
  | none => some (.skipped, w)
  | some (op, _, keyStr) =>
      if op = ascii "INSERT" then w.insertKey keyStr
      else (lookupShkeyFromFile w.log keyStr).bind (w.useShkey op keyStr)

end Worker

namespace Worker

variable (w : Worker)

@[simp] theorem tick_log : w.tick.log = w.log := by
  unfold tick
  split <;> rfl

@[simp] theorem tick_data : w.tick.store.data = w.store.data := by
  unfold tick
  split <;> rfl

@[simp] theorem tick_randCalls :
    w.tick.store.randCalls = w.store.randCalls := by
  unfold tick
  split <;> rfl

end Worker

/-- The next line of a trace, or the call between the traces. -/
def workerStep (w : Worker) : WorkerInput → Option (WorkerEvent × Worker)
  | .load line => w.loadLine line
  | .clear => some (.cleared, w.clear)
  | .trans line => w.transLine line

/-- `worker`, from the two traces. -/
def workerInputs (loadTrace transTrace : Text) : List WorkerInput :=
  (lines newline loadTrace).map .load ++
    .clear :: (lines newline transTrace).map .trans

/-! ## What a line does -/

/-- The calls a line makes, and how they leave the worker. -/
inductive LineDoes (w : Worker) : WorkerEvent → Worker → Prop
  | skipped : LineDoes w .skipped w
  | cleared : LineDoes w .cleared w.clear
  | unknown : LineDoes w .unknown w.tick
  | inserted {keyStr : Text} {shkey : UInt16} {g' : ShmpStore}
      (hword : ∀ c ∈ keyStr, isSpace c = false)
      (hinsert : w.store.insert shmpScheme (strncpyKey keyStr)
        (fun _ => 118) = .returned shkey g') :
      LineDoes w (.inserted keyStr shkey) (Worker.tick { w with
        store := g'
        log := recordShkeyMapping w.log (strncpyKey keyStr) shkey })
  | read {keyStr : Text} {shkey : UInt16} {r : Bool × Bytes} {g' : ShmpStore}
      (hshkey : lookupShkeyFromFile w.log keyStr = some shkey)
      (hget : w.store.get shmpScheme (strncpyKey keyStr) (fun _ => 0) shkey =
        .returned r g') :
      LineDoes w (.read keyStr shkey r.1 r.2)
        (Worker.tick { w with store := g' })
  | updated {keyStr : Text} {shkey : UInt16} {ok : Bool} {g' : ShmpStore}
      (hshkey : lookupShkeyFromFile w.log keyStr = some shkey)
      (hupdate : w.store.update shmpScheme (strncpyKey keyStr) (fun _ => 85)
        shkey = .returned ok g') :
      LineDoes w (.updated keyStr shkey ok) (Worker.tick { w with store := g' })

section Lines

variable {w w' : Worker} {event : WorkerEvent} {input : WorkerInput}

/-- The key of a line has no blank in it. -/
theorem blank_of_traceFields {line op table keyStr : Text}
    (h : traceFields line = some (op, table, keyStr)) :
    ∀ c ∈ keyStr, isSpace c = false := by
  unfold traceFields at h
  split at h
  · rename_i hwords
    cases h
    have hmem : keyStr ∈ words isSpace line := by
      rw [hwords]
      simp
    exact blank_of_mem_words hmem
  · cases h

theorem blank_of_insertedKey {line keyStr : Text}
    (h : insertedKey line = some keyStr) :
    ∀ c ∈ keyStr, isSpace c = false := by
  unfold insertedKey at h
  split at h
  · rename_i hfields
    split at h
    · cases h
      exact blank_of_traceFields hfields
    · cases h
  · cases h

theorem lineDoes_of_insertKey {keyStr : Text}
    (hword : ∀ c ∈ keyStr, isSpace c = false)
    (h : w.insertKey keyStr = some (event, w')) : LineDoes w event w' := by
  obtain ⟨shkey, g', hinsert, heq⟩ := Outcome.next_map_eq_some_iff.mp h
  cases heq
  exact .inserted hword hinsert

theorem lineDoes_of_useShkey {op keyStr : Text} {shkey : UInt16}
    (hshkey : lookupShkeyFromFile w.log keyStr = some shkey)
    (h : w.useShkey op keyStr shkey = some (event, w')) :
    LineDoes w event w' := by
  unfold Worker.useShkey at h
  split at h
  · obtain ⟨r, g', hget, heq⟩ := Outcome.next_map_eq_some_iff.mp h
    cases heq
    exact .read hshkey hget
  · split at h
    · obtain ⟨ok, g', hupdate, heq⟩ := Outcome.next_map_eq_some_iff.mp h
      cases heq
      exact .updated hshkey hupdate
    · cases h
      exact .unknown

/-- **Inversion lemma**: all that a line can do. -/
theorem lineDoes_of_step (h : workerStep w input = some (event, w')) :
    LineDoes w event w' := by
  cases input with
  | load line =>
      simp only [workerStep, Worker.loadLine] at h
      split at h
      · rename_i hline
        exact lineDoes_of_insertKey (blank_of_insertedKey hline) h
      · cases h
        exact .skipped
  | clear =>
      cases h
      exact .cleared
  | trans line =>
      simp only [workerStep, Worker.transLine] at h
      split at h
      · cases h
        exact .skipped
      · rename_i hfields
        split at h
        · exact lineDoes_of_insertKey (blank_of_traceFields hfields) h
        · obtain ⟨shkey, hshkey, huse⟩ := Option.bind_eq_some_iff.mp h
          exact lineDoes_of_useShkey hshkey huse

end Lines

/-! ## Two lines that succeed -/

/-- A worker over a zeroed partition, with an empty log. -/
def newWorker : Worker := ⟨countingStore, [], 0⟩

/-- The worker behind its first insertion. -/
def loadedWorker (keyStr : Text) : Worker :=
  ⟨afterInsert countingStore (strncpyKey keyStr) fun _ => 118,
    recordShkeyMapping [] (strncpyKey keyStr) 2, 1⟩

theorem run_newWorker {line keyStr : Text}
    (hline : insertedKey line = some keyStr) :
    run workerStep newWorker [.load line] =
      some ([.inserted keyStr 2], loadedWorker keyStr) := by
  have hroom : HasRoom countingStore.self := by decide
  have hinsert := insert_of_fresh issued_countingStore sound_countingStore
    hroom freshBelow_countingStore (strncpyKey keyStr) fun _ => 118
  simp only [run, workerStep, Worker.loadLine, hline, Worker.insertKey,
    newWorker, hinsert]
  rfl

theorem sound_loadedWorker (keyStr : Text) :
    Sound (loadedWorker keyStr).store.self (loadedWorker keyStr).store.data :=
  sound_afterInsert sound_countingStore (by decide) _ _

/-- A `READ` line in a store whose chains are sound. -/
theorem workerStep_read {g : ShmpStore} {log line table keyStr : Text}
    {shkey : UInt16} (hsound : Sound g.self g.data)
    (hfields : traceFields line = some (ascii "READ", table, keyStr))
    (hshkey : lookupShkeyFromFile log keyStr = some shkey) (cycle : Nat) :
    ∃ value w', workerStep ⟨g, log, cycle⟩ (.trans line) =
        some (.read keyStr shkey
          (decide (entryOf g.data (strncpyKey keyStr) ≠ 0)) value, w') ∧
      w'.store.randCalls ≤ g.randCalls + 2 := by
  have hop : ascii "READ" ≠ ascii "INSERT" := by decide
  have hget : ∃ value, g.get shmpScheme (strncpyKey keyStr) (fun _ => 0)
      shkey = .returned
        (decide (entryOf g.data (strncpyKey keyStr) ≠ 0), value)
        (lookedUp shmpScheme g (strncpyKey keyStr) 1) := by
    rw [get_of_sound hsound]
    split
    · next hzero => exact ⟨_, by rw [decide_eq_false (not_not.mpr hzero)]⟩
    · next hne => exact ⟨_, by rw [decide_eq_true hne]⟩
  obtain ⟨value, hget⟩ := hget
  refine ⟨value, Worker.tick
    ⟨lookedUp shmpScheme g (strncpyKey keyStr) 1, log, cycle⟩, ?_, ?_⟩
  · simp only [workerStep, Worker.transLine, hfields, if_neg hop, hshkey,
      Option.bind_some, Worker.useShkey, if_true, hget]
    rfl
  · rw [Worker.tick_randCalls]
    exact randCalls_lookedUp_le _ _ _

/-! ## The token log -/

/-- The records of the insertions of a run. -/
def recordsOf (events : List WorkerEvent) : List (Key × UInt16) :=
  events.filterMap fun event =>
    match event with
    | .inserted keyStr shkey => some (strncpyKey keyStr, shkey)
    | _ => none

/-- The key and the token of an access. -/
def WorkerEvent.uses : WorkerEvent → Option (Text × UInt16)
  | .read keyStr shkey _ _ => some (keyStr, shkey)
  | .updated keyStr shkey _ => some (keyStr, shkey)
  | _ => none

/-- The log holds these records, all of keys without blanks. -/
structure Logged (w : Worker) (records : List (Key × UInt16)) : Prop where
  log : w.log = logOf records
  words : ∀ r ∈ records, ∀ c ∈ keyString r.1, isSpace c = false

section Log

variable {w w' : Worker} {event : WorkerEvent} {inputs : List WorkerInput}
  {events : List WorkerEvent} {records : List (Key × UInt16)}
  {keyStr : Text} {shkey : UInt16}

/-- A lookup in the log. -/
theorem Logged.lookup (h : Logged w records)
    (hshkey : lookupShkeyFromFile w.log keyStr = some shkey) :
    shkey = (firstRecord records keyStr).getD 0 := by
  rw [h.log, lookup_logOf h.words] at hshkey
  exact (Option.some.inj hshkey).symm

/-- **Step lemma**: an insertion adds its record, and no other line does. -/
theorem logged_of_line (h : Logged w records) (hline : LineDoes w event w') :
    Logged w' (records ++ recordsOf [event]) := by
  have hsame : ∀ w' : Worker, w'.log = w.log →
      Logged w' (records ++ []) := by
    intro w' hlog
    rw [List.append_nil]
    exact ⟨hlog.trans h.log, h.words⟩
  cases hline with
  | skipped => exact hsame _ rfl
  | cleared => exact hsame _ rfl
  | unknown => exact hsame _ (by simp)
  | read => exact hsame _ (by simp)
  | updated => exact hsame _ (by simp)
  | inserted hword hinsert =>
      refine ⟨by simp [recordsOf, logOf_append, h.log], fun r hr => ?_⟩
      rcases List.mem_append.mp hr with hold | hnew
      · exact h.words r hold
      · rw [List.mem_singleton.mp hnew]
        exact blank_of_strncpyKey hword

/-- **Run lemma**: the log holds the records of the run. -/
theorem logged_of_run (h : Logged w records)
    (hrun : run workerStep w inputs = some (events, w')) :
    Logged w' (records ++ recordsOf events) := by
  induction inputs generalizing w records events with
  | nil =>
      cases hrun
      simpa [recordsOf] using h
  | cons input inputs ih =>
      obtain ⟨event, w₁, events, hstep, hrest, rfl⟩ :=
        run_cons_eq_some_iff.mp hrun
      have hnext := ih (logged_of_line h (lineDoes_of_step hstep)) hrest
      have hsplit : recordsOf (event :: events) =
          recordsOf [event] ++ recordsOf events := by
        simp [recordsOf, ← List.filterMap_append]
      rw [hsplit, ← List.append_assoc]
      exact hnext

/-- The token of a line that reads or updates a key. -/
theorem lookup_of_line (hline : LineDoes w event w')
    (huses : event.uses = some (keyStr, shkey)) :
    lookupShkeyFromFile w.log keyStr = some shkey := by
  cases hline with
  | read hshkey =>
      cases huses
      exact hshkey
  | updated hshkey =>
      cases huses
      exact hshkey
  | _ => cases huses

/-- Whatever lines a worker has done, the next line that reads or updates a key
uses the token that the first insertion of the key has returned, and the global
key if there is no record of it.  `records` are those of the log at the
beginning. -/
theorem worker_tokens (hlog : Logged w records) {input : WorkerInput}
    {w'' : Worker} (hrun : run workerStep w inputs = some (events, w'))
    (hstep : workerStep w' input = some (event, w''))
    (huses : event.uses = some (keyStr, shkey)) :
    shkey = (firstRecord (records ++ recordsOf events) keyStr).getD 0 :=
  (logged_of_run hlog hrun).lookup
    (lookup_of_line (lineDoes_of_step hstep) huses)

theorem logged_newWorker : Logged newWorker [] := ⟨rfl, by simp⟩

/-- A key is loaded and then read with its token. -/
theorem worker_tokens_loaded :
    ∃ w' event w'', run workerStep newWorker [.load (ascii "INSERT t a")] =
        some ([.inserted (ascii "a") 2], w') ∧
      workerStep w' (.trans (ascii "READ t a")) = some (event, w'') ∧
      event.uses = some (ascii "a", 2) ∧
      2 = (firstRecord ([] ++ recordsOf [.inserted (ascii "a") 2])
        (ascii "a")).getD 0 := by
  have hline : insertedKey (ascii "INSERT t a") = some (ascii "a") := by decide
  have hfields : traceFields (ascii "READ t a") =
      some (ascii "READ", ascii "t", ascii "a") := by decide
  have hrun := run_newWorker hline
  have hlogged := logged_of_run logged_newWorker hrun
  have hshkey : lookupShkeyFromFile
      (recordShkeyMapping [] (strncpyKey (ascii "a")) 2) (ascii "a") =
        some 2 := by
    rw [show recordShkeyMapping [] (strncpyKey (ascii "a")) 2 = _ from
      hlogged.log, lookup_logOf hlogged.words]
    decide
  obtain ⟨value, w'', hstep, -⟩ :=
    workerStep_read (sound_loadedWorker (ascii "a")) hfields hshkey 1
  exact ⟨_, _, w'', hrun, hstep, rfl,
    worker_tokens logged_newWorker hrun hstep rfl⟩

/-- No record of an insertion has a key of 64 characters or more. -/
theorem firstRecord_of_long (hlong : 64 ≤ keyStr.length)
    (events : List WorkerEvent) :
    firstRecord (recordsOf events) keyStr = none := by
  simp only [firstRecord, Option.map_eq_none_iff, List.find?_eq_none,
    decide_eq_true_eq]
  intro r hr hmatch
  obtain ⟨event, _, hevent⟩ := List.mem_filterMap.mp hr
  cases event with
  | inserted keyStr' shkey' =>
      cases hevent
      have hkey := hmatch.1
      rw [keyString_strncpyKey] at hkey
      rw [← hkey, List.length_take] at hlong
      omega
  | _ => cases hevent

/-! ## Keys that are too long -/

/-- The data an access with a key delivers or leaves behind, with the rights
of the global key, if the key is found at all. -/
inductive Unchecked (w w' : Worker) (keyStr : Text) : WorkerEvent → Prop
  | read {ok : Bool} {value : Bytes}
      (hread : ok = true → ∃ e,
        keyAt w.store.data e = strncpyKey keyStr ∧
          value = fetch w.store.data (wrap (e + 64)) (fun _ => 0)
            w.store.self.valueSize) :
      Unchecked w w' keyStr (.read keyStr 0 ok value)
  | updated {ok : Bool}
      (hwrite : ok = true → ∃ e,
        keyAt w.store.data e = strncpyKey keyStr ∧
          (getDataVaddrByOffset w.store.self.dataAddr.addr (wrap (e + 64)) ≠ 0 →
            w'.store.data = store w.store.data (wrap (e + 64)) (fun _ => 85)
              w.store.self.valueSize)) :
      Unchecked w w' keyStr (.updated keyStr 0 ok)

/-- What a lookup finds has the key. -/
theorem keyAt_of_lookup {g g' : ShmpStore} {key : Key} {permission : UInt8}
    {e : Nat} (h : g.lookup shmpScheme key permission = some (e, g')) :
    e = 0 ∨ keyAt g.data e = key := by
  have hfollows := lookup_follows shmpScheme key permission g
  cases hend : chainEnd g.data (64 + g.self.valueSize) key with
  | none =>
      rw [hend, h] at hfollows
      cases hfollows
  | some e' =>
      rw [hend, h] at hfollows
      obtain ⟨g₁, _, heq⟩ := hfollows
      cases heq
      exact keyAt_of_chainEnd hend

/-- An access with the global key. -/
theorem unchecked_of_line (hline : LineDoes w event w')
    (huses : event.uses = some (keyStr, 0)) :
    Unchecked w w' keyStr event := by
  cases hline with
  | @read keyStr' shkey r g' hshkey hget =>
      cases huses
      refine .read fun hok => ?_
      rw [Gshm.get] at hget
      split at hget
      · cases hget
      · rename_i entry g₁ hlookup
        split at hget
        · cases hget
          cases hok
        · rename_i hne
          cases hget
          have hdraws := draws_of_lookup hlookup
          refine ⟨entry, (keyAt_of_lookup hlookup).resolve_left hne, ?_⟩
          have hread : g'.readCxl shmpScheme (wrap (entry + 64))
              w.store.self.valueSize (fun _ => 0) 0 =
                (0, fetch g'.data (wrap (entry + 64)) (fun _ => 0)
                  w.store.self.valueSize) :=
            readCxl_of_accepted (accepted_globalKey _ _)
          rw [hdraws.data_eq] at hread
          exact congrArg Prod.snd hread
  | @updated keyStr' shkey ok g' hshkey hupdate =>
      cases huses
      refine .updated fun hok => ?_
      rw [Gshm.update] at hupdate
      split at hupdate
      · cases hupdate
      · rename_i entry g₁ hlookup
        split at hupdate
        · cases hupdate
          cases hok
        · rename_i hne
          cases hupdate
          have hdraws := draws_of_lookup hlookup
          refine ⟨entry, (keyAt_of_lookup hlookup).resolve_left hne,
            fun hnull => ?_⟩
          have haccepted : Accepted shmpScheme g₁ .write (wrap (entry + 64))
              w.store.self.valueSize 0 := by
            refine ⟨_, access_globalKey_eq_ok_iff.mpr ⟨rfl, fun h => ?_⟩⟩
            rw [hdraws.self_eq] at h
            exact hnull h.2
          simp only [Worker.tick_data, hdraws.data_eq,
            writeCxl_of_accepted haccepted]
  | _ => cases huses

/-- In every run of a worker on an empty log, the lines for a key of 64
characters or more use the global key: what the store holds under the first 63
characters is read and overwritten without a check. -/
theorem worker_long_key (hlog : w.log = []) (hlong : 64 ≤ keyStr.length)
    {input : WorkerInput} {w'' : Worker}
    (hrun : run workerStep w inputs = some (events, w'))
    (hstep : workerStep w' input = some (event, w''))
    (huses : event.uses = some (keyStr, shkey)) :
    shkey = 0 ∧ Unchecked w' w'' keyStr event := by
  have hempty : Logged w [] := ⟨hlog, by simp⟩
  have hline := lineDoes_of_step hstep
  have htoken := (logged_of_run hempty hrun).lookup (lookup_of_line hline huses)
  rw [List.nil_append, firstRecord_of_long hlong] at htoken
  cases htoken
  exact ⟨rfl, unchecked_of_line hline huses⟩

/-- A key of 64 characters. -/
def longKey : Text := List.replicate 64 97

set_option maxRecDepth 4000 in
/-- The key is loaded and then read without its token. -/
theorem worker_long_key_loaded :
    ∃ w' event w'',
      run workerStep newWorker [.load (ascii "INSERT t " ++ longKey)] =
        some ([.inserted longKey 2], w') ∧
      workerStep w' (.trans (ascii "READ t " ++ longKey)) =
        some (event, w'') ∧
      event.uses = some (longKey, 0) ∧
      (0 : UInt16) = 0 ∧ Unchecked w' w'' longKey event := by
  have hline : insertedKey (ascii "INSERT t " ++ longKey) = some longKey := by
    decide
  have hfields : traceFields (ascii "READ t " ++ longKey) =
      some (ascii "READ", ascii "t", longKey) := by decide
  have hrun := run_newWorker hline
  have hlogged := logged_of_run logged_newWorker hrun
  have hshkey : lookupShkeyFromFile
      (recordShkeyMapping [] (strncpyKey longKey) 2) longKey = some 0 := by
    rw [show recordShkeyMapping [] (strncpyKey longKey) 2 = _ from
      hlogged.log, lookup_logOf hlogged.words, List.nil_append,
      firstRecord_of_long (by decide)]
    rfl
  obtain ⟨value, w'', hstep, -⟩ :=
    workerStep_read (sound_loadedWorker longKey) hfields hshkey 1
  exact ⟨_, _, w'', hrun, hstep, rfl,
    worker_long_key rfl (by decide) hrun hstep rfl⟩

end Log

/-! ## Cleared tokens -/

/-- An access that delivers nothing and leaves nothing behind. -/
inductive Denied (w w' : Worker) : WorkerEvent → Prop
  | read (keyStr : Text) (shkey : UInt16) (ok : Bool) :
      Denied w w' (.read keyStr shkey ok fun _ => 0)
  | updated (keyStr : Text) (shkey : UInt16) (ok : Bool)
      (h : w'.store.data = w.store.data) :
      Denied w w' (.updated keyStr shkey ok)

section Cleared

variable {w w' : Worker} {event : WorkerEvent} {inputs : List WorkerInput}
  {events : List WorkerEvent} {t : UInt16}

/-- The calls a worker makes on its store. -/
def Calls (w w' : Worker) : Prop :=
  ∃ ops results,
    run (gshmStep shmpScheme 0) w.store ops = some (results, w'.store)

theorem Calls.refl (w : Worker) : Calls w w := ⟨[], [], rfl⟩

theorem Calls.trans {w₁ : Worker} (h : Calls w w₁) (h' : Calls w₁ w') :
    Calls w w' := by
  obtain ⟨ops, results, hfirst⟩ := h
  obtain ⟨ops', results', hsecond⟩ := h'
  exact ⟨_, _, run_append hfirst hsecond⟩

theorem Calls.single {op : GshmOp UInt16} {result : GshmResult UInt16}
    (h : gshmStep shmpScheme 0 w.store op = some (result, w'.store)) :
    Calls w w' :=
  ⟨[op], [result], run_cons_eq_some_iff.mpr ⟨_, _, _, h, rfl, rfl⟩⟩

theorem calls_clear (w : Worker) : Calls w w.clear :=
  ⟨[.clear], [.done], rfl⟩

theorem calls_tick (w : Worker) : Calls w w.tick := by
  unfold Worker.tick
  split
  · exact calls_clear w
  · exact .refl w

/-- A line makes one call at most, and may clear the table. -/
theorem calls_of_line (hline : LineDoes w event w') : Calls w w' := by
  cases hline with
  | skipped => exact .refl w
  | cleared => exact calls_clear w
  | unknown => exact calls_tick w
  | @inserted keyStr shkey g' _ hinsert =>
      have hcall : gshmStep shmpScheme 0 w.store
          (.insert (strncpyKey keyStr) fun _ => 118) =
            some (.shkey shkey, g') := by
        simp only [gshmStep, hinsert, Outcome.next, Option.map_some]
      exact .trans (.single hcall) (calls_tick _)
  | @read keyStr shkey r g' _ hget =>
      have hcall : gshmStep shmpScheme 0 w.store
          (.get (strncpyKey keyStr) (fun _ => 0) shkey) =
            some (.fetched r.1 r.2, g') := by
        simp only [gshmStep, hget, Outcome.next, Option.map_some]
      exact .trans (.single hcall) (calls_tick _)
  | @updated keyStr shkey ok g' _ hupdate =>
      have hcall : gshmStep shmpScheme 0 w.store
          (.update (strncpyKey keyStr) (fun _ => 85) shkey) =
            some (.answer ok, g') := by
        simp only [gshmStep, hupdate, Outcome.next, Option.map_some]
      exact .trans (.single hcall) (calls_tick { w with store := g' })

theorem calls_of_run (hrun : run workerStep w inputs = some (events, w')) :
    Calls w w' := by
  induction inputs generalizing w events with
  | nil =>
      cases hrun
      exact .refl _
  | cons input inputs ih =>
      obtain ⟨event, w₁, events, hstep, hrest, rfl⟩ :=
        run_cons_eq_some_iff.mp hrun
      exact (calls_of_line (lineDoes_of_step hstep)).trans (ih hrest)

/-- A line with a retired token. -/
theorem denied_of_line (h : Retired t w.store) (hne : t ≠ 0)
    (hline : LineDoes w event w') {keyStr : Text}
    (huses : event.uses = some (keyStr, t))
    (hdrawn : ¬ DrawnSince w.store w'.store t) : Denied w w' event := by
  cases hline with
  | @read keyStr' shkey r g' hshkey hget =>
      cases huses
      have hvalue := get_of_retired h hne hget (by
        simpa only [DrawnSince, Worker.tick_randCalls] using hdrawn)
      rw [hvalue]
      exact .read keyStr t r.1
  | @updated keyStr' shkey ok g' hshkey hupdate =>
      cases huses
      have hdata := update_of_retired h hne hupdate (by
        simpa only [DrawnSince, Worker.tick_randCalls] using hdrawn)
      exact .updated keyStr t ok (by rw [Worker.tick_data, hdata])
  | _ => cases huses

/-- If a line uses the token, it is denied. -/
def DeniedLine (t : UInt16) (w : Worker) (input : WorkerInput) : Prop :=
  ∀ event w', workerStep w input = some (event, w') →
    ∀ keyStr, event.uses = some (keyStr, t) → Denied w w' event

/-- What a line, or a number of lines, does to a token that is retired and not
drawn before the end of what comes next. -/
theorem Calls.retired {w₁ : Worker} (hcalls : Calls w w₁)
    (h : Retired t w.store) (hrest : Calls w₁ w')
    (hdrawn : ¬ DrawnSince w.store w'.store t) :
    ¬ DrawnSince w.store w₁.store t ∧ Retired t w₁.store ∧
      ¬ DrawnSince w₁.store w'.store t := by
  obtain ⟨ops, results, hfirst⟩ := hcalls
  obtain ⟨ops', results', hsecond⟩ := hrest
  have hle := run_cost_le (fun _ _ _ _ => randCalls_le_of_step) hsecond
  have hbefore : ¬ DrawnSince w.store w₁.store t := fun hd =>
    hdrawn (hd.extend ⟨rfl, rfl, Nat.le_refl _⟩ hle)
  obtain ⟨hsource, hretired⟩ := retired_of_run h hfirst hbefore
  exact ⟨hbefore, hretired, fun hd =>
    hdrawn (hd.extend hsource (Nat.le_refl _))⟩

/-- **Run lemma**: every line with a retired token is denied, if the run does
not draw the token. -/
theorem deniedLine_of_run (h : Retired t w.store) (hne : t ≠ 0)
    (hrun : run workerStep w inputs = some (events, w'))
    (hdrawn : ¬ DrawnSince w.store w'.store t) :
    AtEveryStep workerStep (DeniedLine t) w inputs := by
  induction inputs generalizing w events with
  | nil => exact trivial
  | cons input inputs ih =>
      obtain ⟨event, w₁, events, hstep, hrest, rfl⟩ :=
        run_cons_eq_some_iff.mp hrun
      have hline := lineDoes_of_step hstep
      obtain ⟨hbefore, hretired, hafter⟩ :=
        (calls_of_line hline).retired h (calls_of_run hrest) hdrawn
      refine ⟨fun event' w₁' hstep' keyStr huses => ?_,
        fun event' w₁' hstep' => ?_⟩
      · cases hstep.symm.trans hstep'
        exact denied_of_line h hne hline huses hbefore
      · cases hstep.symm.trans hstep'
        exact ih hretired hrest hafter

/-- `worker` clears the table between its traces: the lines of the second one
are denied with every token that is not drawn again behind the first one. -/
theorem deniedLine_of_workerInputs {loadTrace transTrace : Text} {w₁ : Worker}
    {loaded : List WorkerEvent} (hne : t ≠ 0)
    (hload : run workerStep w ((lines newline loadTrace).map .load) =
      some (loaded, w₁))
    (hrun : run workerStep w (workerInputs loadTrace transTrace) =
      some (events, w')) (hdrawn : ¬ DrawnSince w₁.store w'.store t) :
    AtEveryStep workerStep (DeniedLine t) w₁.clear
      ((lines newline transTrace).map .trans) := by
  obtain ⟨out, out', w₂, hfirst, hlast, -⟩ := run_append_eq_some hrun
  cases hload.symm.trans hfirst
  obtain ⟨_, w₃, _, hclear, hrest, -⟩ := run_cons_eq_some_iff.mp hlast
  cases hclear
  exact deniedLine_of_run
    (recorded_clear shmpScheme (· ≠ t) w₁.store.table) hne hrest hdrawn

/-- A token is not drawn again behind a clearing of the table.  Then the lines
that look it up read zeros and write nothing, however many lines there are
between. -/
theorem worker_cleared_token (hne : t ≠ 0) {input : WorkerInput} {w'' : Worker}
    {keyStr : Text}
    (hrun : run workerStep w (.clear :: inputs) = some (events, w'))
    (hstep : workerStep w' input = some (event, w''))
    (huses : event.uses = some (keyStr, t))
    (hdrawn : ¬ DrawnSince w.store w''.store t) : Denied w' w'' event := by
  obtain ⟨_, w₁, _, hclear, hrest, -⟩ := run_cons_eq_some_iff.mp hrun
  cases hclear
  have hline := lineDoes_of_step hstep
  have hcleared : Retired t w.clear.store :=
    recorded_clear shmpScheme (· ≠ t) w.store.table
  obtain ⟨-, hretired, hafter⟩ :=
    (calls_of_run hrest).retired hcleared (calls_of_line hline) hdrawn
  exact denied_of_line hretired hne hline huses hafter

/-- A key is loaded, the table is cleared, and the token of the key delivers
zeros, although the key is found. -/
theorem worker_cleared_token_loaded :
    ∃ w w' w'', run workerStep newWorker [.load (ascii "INSERT t a")] =
        some ([.inserted (ascii "a") 2], w) ∧
      run workerStep w [.clear] = some ([.cleared], w') ∧
      ∃ value, workerStep w' (.trans (ascii "READ t a")) =
          some (.read (ascii "a") 2 true value, w'') ∧
        Denied w' w'' (.read (ascii "a") 2 true value) := by
  have hline : insertedKey (ascii "INSERT t a") = some (ascii "a") := by decide
  have hfields : traceFields (ascii "READ t a") =
      some (ascii "READ", ascii "t", ascii "a") := by decide
  have hload := run_newWorker hline
  have hlogged := logged_of_run logged_newWorker hload
  have hshkey : lookupShkeyFromFile
      (recordShkeyMapping [] (strncpyKey (ascii "a")) 2) (ascii "a") =
        some 2 := by
    rw [show recordShkeyMapping [] (strncpyKey (ascii "a")) 2 = _ from
      hlogged.log, lookup_logOf hlogged.words]
    decide
  have hclear : run workerStep (loadedWorker (ascii "a")) [.clear] =
      some ([.cleared], (loadedWorker (ascii "a")).clear) := rfl
  -- a clearing leaves object and memory as they are
  have hentry := entryOf_afterInsert sound_countingStore (by decide)
    (strncpyKey (ascii "a")) fun _ => 118
  have hstart : countingStore.self.nextFreeOffset ≠ 0 := by decide
  obtain ⟨value, w'', hstep, hcalls⟩ := workerStep_read
    (g := (loadedWorker (ascii "a")).clear.store)
    (sound_loadedWorker (ascii "a")) hfields hshkey 0
  rw [show entryOf (loadedWorker (ascii "a")).clear.store.data _ = _ from
    hentry, decide_eq_true hstart] at hstep
  refine ⟨_, _, w'', hload, hclear, value, hstep,
    worker_cleared_token (by decide) hclear hstep rfl ?_⟩
  rintro ⟨i, hfrom, hi, htoken⟩
  have hloaded : (loadedWorker (ascii "a")).store.randCalls = 2 := rfl
  have hcleared : (loadedWorker (ascii "a")).clear.store.randCalls = 2 := rfl
  have hne : ∀ i < 4, 2 ≤ i → tokenAt false (fun i => i + 1) i ≠ 2 := by
    decide
  exact hne i (by omega) (by omega) htoken

end Cleared

end SHMemora.Ports
