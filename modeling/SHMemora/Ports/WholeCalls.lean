import SHMemora.Ports.UprThreads

/-!
# Whole calls

In `UprThreads` a step is one access, in `SharedChains` a whole call.  This
module shows that both are the same code: a call whose accesses nothing
interrupts returns if and only if the call returns, with the same reply, and
leaves the same data area and members behind.

A run of whole calls is then one of the runs of accesses, so that what is said
of all states of `UprThreads` is said of those between whole calls, too.

## Main results

* `uprStep_eq_some_iff` — a call and its accesses, for one object.
* `run_uprFleetStep` — a run of whole calls of several objects as a run of
  accesses that shows the same replies in the same order.
-/

namespace SHMemora.Ports

open SHMemora.Verified
open SHMemora.Verified.OrbitSearch
open SHMemora.Verified.ByteMemory
open SHMemora.Verified.StepRun
open SHMemora.Verified.ThreadPool

/-- Where the accesses of an object lead that nothing interrupts. -/
abbrev UprLeads :=
  Leads (fun phase u => uprAccess u phase) UprEvent.quiet

/-! ## From the call to its accesses -/

section Calls

variable {u u' : GshmUpr}

/-- What a call does behind its walk. -/
def Search.behind (u : GshmUpr) (search : Search) (p : Nat × Nat) :
    UprEvent × UprPhase × GshmUpr :=
  if p.2 = 0 then ((search.missing u).1, (search.missing u).2, u)
  else (.quiet, search.found u p.1 p.2, u)

/-- The accesses of a walk that ends. -/
theorem leads_of_walk {search : Search} {fuel : Nat} {p q : Nat × Nat}
    {r : UprEvent × UprPhase × GshmUpr}
    (hwalk : OrbitSearch.search (nextLink u.data (search.link u))
      (endsLinkWalk u.data search.key) fuel p = some q)
    (hbehind : UprLeads (search.behind u q) r) :
    UprLeads ((search.visit u p.1 p.2).1, (search.visit u p.1 p.2).2, u)
      r := by
  induction fuel generalizing p with
  | zero => cases hwalk
  | succ fuel ih =>
      have hcompare := u.compareCxl_eq_zero_iff p.2 search.key
      cases hends : endsLinkWalk u.data search.key p with
      | true =>
          rw [search_succ_of_stop hends] at hwalk
          rw [← Option.some.inj hwalk, Search.behind] at hbehind
          rw [Search.visit]
          by_cases hzero : p.2 = 0
          · rw [if_pos hzero] at hbehind ⊢
            exact hbehind
          · have hkey := (endsWalk_eq_true_iff.mp hends).resolve_left hzero
            rw [if_neg hzero] at hbehind ⊢
            exact .next (if_pos (hcompare.mpr hkey)) hbehind
      | false =>
          rw [search_succ_of_not_stop hends] at hwalk
          obtain ⟨hzero, hkey⟩ := endsWalk_eq_false_iff.mp hends
          rw [Search.visit, if_neg hzero]
          refine .next (if_neg fun h => hkey (hcompare.mp h)) ?_
          refine .next rfl ?_
          rw [GshmUpr.readWord_eq]
          exact ih hwalk

/-- The accesses of a lookup. -/
theorem leads_of_lookup (search : Search) {e : Nat}
    {r : UprEvent × UprPhase × GshmUpr}
    (hend : chainEnd u.data (search.link u) search.key = some e)
    (hbehind : ∀ q : Nat × Nat, q.2 = e →
      linkEnd u.data (search.link u) search.key = some q →
      UprLeads (search.behind u q) r) :
    UprLeads (.quiet, .readBucket search, u) r := by
  rw [← linkEnd_map, Option.map_eq_some_iff] at hend
  obtain ⟨q, hq, he⟩ := hend
  refine .next rfl ?_
  rw [GshmUpr.readWord_eq]
  exact leads_of_walk hq (hbehind q he hq)

theorem returned_ne_quiet (op : UprOp) (reply : Reply) :
    UprEvent.returned op reply ≠ .quiet := by
  intro h
  cases h

/-- The last turn of a call. -/
theorem leads_returned (op : UprOp) (reply : Reply) (phase : UprPhase) :
    UprLeads (.returned op reply, phase, u) (.returned op reply, phase, u) :=
  .shown (returned_ne_quiet op reply)

/-- The accesses that fill an entry and store the bucket word. -/
theorem leads_of_filling (filling : Filling) :
    UprLeads (.quiet, .writeKey filling, u)
      (.returned filling.op (.answer true), .idle,
        ((u.fillEntry filling.start filling.valueSize filling.key
          filling.value).writeCxl (entryOffset filling.key) 8
          (ofWord filling.start)).2.finishFilling filling.step) := by
  unfold GshmUpr.fillEntry
  exact .next rfl (.next rfl (.next rfl (.next rfl (leads_returned ..))))

/-- The same where `next_free_offset` has moved on before. -/
theorem leads_of_reserved (op : UprOp) (key : Key) (value : Bytes)
    (start valueSize : Nat) :
    UprLeads (.quiet, .writeKey ⟨op, key, value, start, valueSize, none⟩, u)
      (.returned op (.answer true), .idle,
        ((u.fillEntry start valueSize key value).writeCxl (entryOffset key) 8
          (ofWord start)).2) := by
  have hleads := leads_of_filling (u := u)
    ⟨op, key, value, start, valueSize, none⟩
  rw [GshmUpr.finishFilling] at hleads
  exact hleads

/-- The same where `next_free_offset` moves on behind the writes. -/
theorem leads_of_moving (op : UprOp) (key : Key) (value : Bytes)
    (start valueSize step : Nat) (u₂ : GshmUpr)
    (hwrites : u₂ = ((u.fillEntry start valueSize key value).writeCxl
      (entryOffset key) 8 (ofWord start)).2) :
    UprLeads (.quiet, .writeKey ⟨op, key, value, start, valueSize, some step⟩,
        u)
      (.returned op (.answer true), .idle, { u₂ with self := { u₂.self with
        nextFreeOffset := wrap (u.self.nextFreeOffset + step) } }) := by
  have hself : u₂.self = u.self := by
    simp only [hwrites, GshmUpr.writeCxl_self, GshmUpr.fillEntry_self]
  have hleads := leads_of_filling (u := u)
    ⟨op, key, value, start, valueSize, some step⟩
  rw [← hwrites, GshmUpr.finishFilling, hself] at hleads
  rw [hself]
  exact hleads

/-! ### The calls -/

theorem leads_get {key : Key} {value : Bytes} {found : Bool × Bytes}
    (h : u.get key value = .returned found u') :
    UprLeads (beginCall u (.get key value))
      (.returned (.get key value) (.fetched found.1 found.2), .idle, u') := by
  rw [GshmUpr.get, GshmUpr.lookup_eq] at h
  cases hend : chainEnd u.data (64 + u.self.valueSize) key with
  | none =>
      rw [hend] at h
      contradiction
  | some e =>
      rw [hend] at h
      refine leads_of_lookup (.get key value) hend ?_
      intro q he _
      by_cases hzero : e = 0
      · rw [Search.behind, if_pos (he.trans hzero)]
        simp only [if_pos hzero] at h
        cases h
        exact leads_returned ..
      · rw [Search.behind, if_neg (he ▸ hzero), he]
        simp only [if_neg hzero] at h
        cases h
        exact .next rfl (leads_returned ..)

theorem leads_update {key : Key} {value : Bytes} {found : Bool}
    (h : u.update key value = .returned found u') :
    UprLeads (beginCall u (.update key value))
      (.returned (.update key value) (.answer found), .idle, u') := by
  rw [GshmUpr.update, GshmUpr.lookup_eq] at h
  cases hend : chainEnd u.data (64 + u.self.valueSize) key with
  | none =>
      rw [hend] at h
      contradiction
  | some e =>
      rw [hend] at h
      refine leads_of_lookup (.update key value) hend ?_
      intro q he _
      by_cases hzero : e = 0
      · rw [Search.behind, if_pos (he.trans hzero)]
        simp only [if_pos hzero] at h
        cases h
        exact leads_returned ..
      · rw [Search.behind, if_neg (he ▸ hzero), he]
        simp only [if_neg hzero] at h
        cases h
        exact .next rfl (leads_returned ..)

theorem leads_put {key : Key} {value : Bytes} {found : Bool}
    (h : u.put key value = .returned found u') :
    UprLeads (beginCall u (.put key value))
      (.returned (.put key value) (.answer found), .idle, u') := by
  rw [GshmUpr.put, GshmUpr.lookup_eq] at h
  cases hend : chainEnd u.data 320 key with
  | none =>
      rw [hend] at h
      contradiction
  | some e =>
      rw [hend] at h
      refine leads_of_lookup (.put key value) hend ?_
      intro q he _
      by_cases hzero : e = 0
      · rw [Search.behind, if_pos (he.trans hzero), Search.missing]
        simp only [ne_eq, hzero, not_true_eq_false, if_false] at h
        by_cases hfull : u.self.partitionEnd <
            wrap (u.self.nextFreeOffset + 328)
        · rw [if_pos hfull] at h ⊢
          cases h
          exact leads_returned ..
        · rw [if_neg hfull] at h ⊢
          cases h
          exact leads_of_moving _ _ _ _ _ _ _ rfl
      · rw [Search.behind, if_neg (he ▸ hzero), he]
        simp only [ne_eq, hzero, not_false_eq_true, if_true] at h
        cases h
        exact .next rfl (leads_returned ..)

theorem leads_del {key : Key} {found : Bool}
    (h : u.del key = .returned found u') :
    UprLeads (beginCall u (.del key))
      (.returned (.del key) (.answer found), .idle, u') := by
  rw [GshmUpr.del_eq] at h
  cases hend : linkEnd u.data (64 + u.self.valueSize) key with
  | none =>
      rw [hend] at h
      contradiction
  | some q =>
      rw [hend] at h
      have hchain : chainEnd u.data (64 + u.self.valueSize) key =
          some q.2 := by
        rw [← linkEnd_map, hend]
        rfl
      refine leads_of_lookup (.del key) hchain ?_
      intro q' _ hq'
      obtain rfl := Option.some.inj (hq'.symm.trans hend)
      simp only [GshmUpr.unlink] at h
      by_cases hzero : q'.2 = 0
      · rw [Search.behind, if_pos hzero]
        rw [if_pos hzero] at h
        cases h
        exact leads_returned ..
      · rw [Search.behind, if_neg hzero]
        rw [if_neg hzero] at h
        cases h
        refine .next rfl (.next rfl ?_)
        rw [GshmUpr.readWord_eq, Nat.add_assoc]
        exact leads_returned ..

theorem leads_insert {key : Key} {value : Bytes} {found : Bool}
    (h : u.insert key value = .returned found u') :
    UprLeads (beginCall u (.insert key value))
      (.returned (.insert key value) (.answer found), .idle, u') := by
  show UprLeads (beginInsert u key value) _
  rw [GshmUpr.insert] at h
  rw [beginInsert]
  by_cases hbatch : u.self.useBatch = true
  · rw [if_pos hbatch, GshmUpr.insertBatched] at h
    simp only [if_pos hbatch]
    by_cases hempty : u.self.availableSlots = 0
    · rw [if_pos hempty]
      have hdone := h.symm.trans (if_pos hempty)
      cases hdone
      exact leads_of_reserved _ _ _ _ _
    · rw [if_neg hempty]
      have hdone := h.symm.trans (if_neg hempty)
      cases hdone
      exact leads_of_reserved _ _ _ _ _
  · rw [if_neg hbatch, GshmUpr.insertPlain] at h
    simp only [if_neg hbatch]
    by_cases hfull : u.self.partitionEnd <
        wrap (u.self.nextFreeOffset + u.self.entrySize)
    · simp only [if_pos hfull] at h ⊢
      cases h
      exact leads_returned ..
    · simp only [if_neg hfull] at h ⊢
      cases h
      exact leads_of_moving _ _ _ _ _ _ _ rfl

/-- **Step lemma**: the accesses of a call that returns, if nothing interrupts
them, lead to what the call returns and to the state it leaves behind. -/
theorem leads_of_uprStep {op : UprOp} {reply : Reply}
    (h : uprStep u op = some (reply, u')) :
    UprLeads (beginCall u op) (.returned op reply, .idle, u') := by
  cases op with
  | get key value =>
      obtain ⟨found, state, hcall, hreply⟩ := Outcome.next_map_eq_some_iff.mp h
      cases hreply
      exact leads_get hcall
  | update key value =>
      obtain ⟨found, state, hcall, hreply⟩ := Outcome.next_map_eq_some_iff.mp h
      cases hreply
      exact leads_update hcall
  | insert key value =>
      obtain ⟨found, state, hcall, hreply⟩ := Outcome.next_map_eq_some_iff.mp h
      cases hreply
      exact leads_insert hcall
  | put key value =>
      obtain ⟨found, state, hcall, hreply⟩ := Outcome.next_map_eq_some_iff.mp h
      cases hreply
      exact leads_put hcall
  | del key =>
      obtain ⟨found, state, hcall, hreply⟩ := Outcome.next_map_eq_some_iff.mp h
      cases hreply
      exact leads_del hcall

/-! ## From the accesses to the call -/

/-- The entry a walk has come to, or is about to come to. -/
def UprPhase.walksTo (u : GshmUpr) : UprPhase → Option (Search × Nat)
  | .compare search _ entry => some (search, entry)
  | .readNext search entry =>
      some (search, nextEntry u.data (search.link u) entry)
  | _ => none

/-- Accesses that lead anywhere have a walk that ends. -/
theorem ends_of_leads {phase : UprPhase} {r : UprEvent × UprPhase × GshmUpr}
    {search : Search} {entry : Nat}
    (h : UprLeads (.quiet, phase, u) r)
    (hwalks : phase.walksTo u = some (search, entry)) :
    ∃ d, endsWalk u.data search.key
      ((nextEntry u.data (search.link u))^[d] entry) = true := by
  generalize hfrom : (UprEvent.quiet, phase, u) = first at h
  induction h generalizing phase entry with
  | shown hshows =>
      subst hfrom
      exact absurd rfl hshows
  | @next phase' shared r₁ r' hturn hrest ih =>
      cases hfrom
      cases phase' with
      | compare search' prevNextPtr entry' =>
          cases hwalks
          have hcompare := u.compareCxl_eq_zero_iff entry search.key
          by_cases hkey : keyAt u.data entry = search.key
          · exact ⟨0, endsWalk_eq_true_iff.mpr (.inr hkey)⟩
          · rw [uprAccess, if_neg fun hzero => hkey (hcompare.mp hzero)]
              at hturn
            obtain ⟨d, hd⟩ := ih rfl (Option.some.inj hturn)
            exact ⟨d + 1, hd⟩
      | readNext search' entry' =>
          cases hwalks
          rw [uprAccess, GshmUpr.readWord_eq] at hturn
          by_cases hzero : nextEntry u.data (search.link u) entry' = 0
          · exact ⟨0, endsWalk_eq_true_iff.mpr (.inl hzero)⟩
          · have hvisit := Option.some.inj hturn
            rw [Search.visit, if_neg (by exact hzero)] at hvisit
            exact ih rfl hvisit
      | _ => cases hwalks

/-- The walk of a call ends if its accesses lead anywhere. -/
theorem chainEnd_of_leads {search : Search}
    {r : UprEvent × UprPhase × GshmUpr}
    (h : UprLeads (.quiet, .readBucket search, u) r) :
    chainEnd u.data (search.link u) search.key ≠ none := by
  intro hnone
  have hnever := chainEnd_eq_none_iff.mp hnone
  cases h with
  | shown hshows => exact absurd rfl hshows
  | next hturn hrest =>
      rw [uprAccess, GshmUpr.readWord_eq] at hturn
      have hzero : loadWord u.data (entryOffset search.key) ≠ 0 :=
        (endsWalk_eq_false_iff.mp (hnever 0)).1
      have hvisit := Option.some.inj hturn
      rw [Search.visit, if_neg hzero] at hvisit
      rw [← hvisit] at hrest
      obtain ⟨d, hd⟩ := ends_of_leads hrest rfl
      exact Bool.noConfusion ((hnever d).symm.trans hd)

/-- A call returns if its walk ends. -/
theorem exists_uprStep_of_chainEnd (search : Search)
    (h : chainEnd u.data (search.link u) search.key ≠ none) :
    ∃ reply u', uprStep u search.op = some (reply, u') := by
  obtain ⟨e, he⟩ := Option.ne_none_iff_exists'.mp h
  cases search with
  | get key value =>
      have hlookup := (u.lookup_eq (64 + u.self.valueSize) key).trans he
      simp only [uprStep, Search.op, GshmUpr.get, hlookup]
      split <;> exact ⟨_, _, rfl⟩
  | update key value =>
      have hlookup := (u.lookup_eq (64 + u.self.valueSize) key).trans he
      simp only [uprStep, Search.op, GshmUpr.update, hlookup]
      split <;> exact ⟨_, _, rfl⟩
  | put key value =>
      have hlookup := (u.lookup_eq 320 key).trans he
      simp only [uprStep, Search.op, GshmUpr.put, hlookup]
      split
      · exact ⟨_, _, rfl⟩
      · split <;> exact ⟨_, _, rfl⟩
  | del key =>
      have hmap := linkEnd_map u.data (64 + u.self.valueSize) key
      obtain ⟨q, hq, _⟩ := Option.map_eq_some_iff.mp (hmap.trans he)
      simp only [uprStep, Search.op, GshmUpr.del_eq, hq, GshmUpr.unlink]
      split <;> exact ⟨_, _, rfl⟩

/-- An `insert` returns in every state. -/
theorem exists_uprStep_insert (u : GshmUpr) (key : Key) (value : Bytes) :
    ∃ reply u', uprStep u (.insert key value) = some (reply, u') := by
  simp only [uprStep, GshmUpr.insert, GshmUpr.insertBatched,
    GshmUpr.insertPlain]
  split <;> split <;> exact ⟨_, _, rfl⟩

/-- A call whose accesses lead anywhere returns. -/
theorem exists_uprStep_of_leads {op : UprOp}
    {r : UprEvent × UprPhase × GshmUpr} (h : UprLeads (beginCall u op) r) :
    ∃ reply u', uprStep u op = some (reply, u') := by
  cases op with
  | get key value =>
      exact exists_uprStep_of_chainEnd (.get key value)
        (chainEnd_of_leads h)
  | update key value =>
      exact exists_uprStep_of_chainEnd (.update key value)
        (chainEnd_of_leads h)
  | insert key value => exact exists_uprStep_insert u key value
  | put key value =>
      exact exists_uprStep_of_chainEnd (.put key value)
        (chainEnd_of_leads h)
  | del key =>
      exact exists_uprStep_of_chainEnd (.del key)
        (chainEnd_of_leads h)

/-- **A call and its accesses.**  In every state, a call returns exactly if
its accesses come to an end when nothing interrupts them, and then both show
the same reply and leave the same state behind. -/
theorem uprStep_eq_some_iff {op : UprOp} {reply : Reply} :
    uprStep u op = some (reply, u') ↔
      UprLeads (beginCall u op) (.returned op reply, .idle, u') := by
  constructor
  · exact leads_of_uprStep
  · intro h
    obtain ⟨reply', u'', hstep⟩ := exists_uprStep_of_leads h
    cases (leads_of_uprStep hstep).unique h
    exact hstep

end Calls

/-! ## Several objects -/

section Fleet

variable {ι : Type}

/-- No object is in a call, and data area and objects are those of `f`. -/
structure Between (f : UprFleet ι) (p : UprPool ι) : Prop where
  data : p.shared.data = f.data
  members : p.shared.members = f.members
  idle : ∀ i, p.phase i = .idle

/-- The call a turn begins. -/
def turnBegins (turn : ι × Option UprOp) : Option (ι × UprOp) :=
  turn.2.map fun op => (turn.1, op)

/-- The reply a turn shows. -/
def UprEvent.reply : UprEvent → Option Reply
  | .quiet => none
  | .returned _ reply => some reply

theorem between_start (f : UprFleet ι) : Between f (.start f) :=
  ⟨rfl, rfl, fun _ => rfl⟩

variable [DecidableEq ι]

/-- What object `i` sees of the system is `u`, and the others have the members
they have in `members`. -/
def SeesIn (i : ι) (members : ι → Instance) (u : GshmUpr) (σ : UprShared ι) :
    Prop :=
  σ.data = u.data ∧ σ.members = Function.update members i u.self

theorem SeesIn.seenBy {i : ι} {members : ι → Instance} {u : GshmUpr}
    {σ : UprShared ι} (h : SeesIn i members u σ) : σ.seenBy i = u := by
  rw [UprShared.seenBy, h.1, h.2, Function.update_self]

/-- What an object leaves behind is what it sees next. -/
theorem SeesIn.leftBy {i : ι} {members : ι → Instance} {u : GshmUpr}
    {σ : UprShared ι} (h : SeesIn i members u σ) (u' : GshmUpr) :
    SeesIn i members u' (σ.leftBy i u') := by
  refine ⟨rfl, ?_⟩
  show Function.update σ.members i u'.self = _
  rw [h.2, Function.update_idem]

/-- The turns of an object in a call mirror the accesses of the call. -/
theorem uprTurn_mirrors (i : ι) (members : ι → Instance) (phase : UprPhase)
    (u : GshmUpr) (σ : UprShared ι) (r : UprEvent × UprPhase × GshmUpr)
    (hsees : SeesIn i members u σ) (hturn : uprAccess u phase = some r) :
    ∃ σ', uprTurn i none phase σ = some (r.1, r.2.1, σ') ∧
      SeesIn i members r.2.2 σ' := by
  have hleft := hsees.leftBy r.2.2
  refine ⟨{ σ.leftBy i r.2.2 with written := phase.writes ++ σ.written },
    ?_, hleft.1, hleft.2⟩
  rw [uprTurn, hsees.seenBy, hturn]
  rfl

/-- **Step lemma**: a call of one of the objects as turns of this object. -/
theorem run_of_uprFleetStep {f f' : UprFleet ι} {p : UprPool ι}
    (hp : Between f p) {call : ι × UprOp} {reply : Reply}
    (h : uprFleetStep f call = some (reply, f')) :
    ∃ turns events p', run uprPoolStep p turns = some (events, p') ∧
      Between f' p' ∧ turns.filterMap turnBegins = [call] ∧
      events.filterMap UprEvent.reply = [reply] := by
  obtain ⟨i, op⟩ := call
  cases hstep : uprStep ⟨f.data, f.members i⟩ op with
  | none =>
      rw [uprFleetStep, hstep] at h
      cases h
  | some r =>
      rw [uprFleetStep, hstep] at h
      cases h
      have hsees : SeesIn i f.members ⟨f.data, f.members i⟩ p.shared :=
        ⟨hp.data, by rw [hp.members, Function.update_eq_self]⟩
      have hfirst : uprTurn i (some op) (p.phase i) p.shared =
          some ((beginCall ⟨f.data, f.members i⟩ op).1,
            (beginCall ⟨f.data, f.members i⟩ op).2.1,
            { p.shared.leftBy i (beginCall ⟨f.data, f.members i⟩ op).2.2 with
              begun := op :: p.shared.begun }) := by
        rw [hp.idle i, uprTurn, hsees.seenBy]
      have hleft := hsees.leftBy (beginCall ⟨f.data, f.members i⟩ op).2.2
      obtain ⟨σ', hleads, hsees'⟩ := (leads_of_uprStep hstep).mirror
        (uprTurn_mirrors i f.members)
        (t := { p.shared.leftBy i (beginCall ⟨f.data, f.members i⟩ op).2.2
          with begun := op :: p.shared.begun })
        ⟨hleft.1, hleft.2⟩
      obtain ⟨k, hrun⟩ := hleads.run hfirst
      refine ⟨_, _, _, hrun, ⟨hsees'.1, hsees'.2, fun j => ?_⟩, ?_, ?_⟩
      · by_cases hj : j = i
        · rw [hj]
          exact Pool.advance_phase_self ..
        · rw [Pool.advance_phase_of_ne p hj]
          exact hp.idle j
      · simp [turnBegins]
      · simp [UprEvent.reply]

/-- **Run lemma**: a run of whole calls as a run of accesses that begins the
same calls, shows the same replies and leaves the same state behind. -/
theorem run_uprFleetStep {f f' : UprFleet ι} {p : UprPool ι}
    (hp : Between f p) {calls : List (ι × UprOp)} {replies : List Reply}
    (h : run uprFleetStep f calls = some (replies, f')) :
    ∃ turns events p', run uprPoolStep p turns = some (events, p') ∧
      Between f' p' ∧ turns.filterMap turnBegins = calls ∧
      events.filterMap UprEvent.reply = replies := by
  have hsim : ∀ (f : UprFleet ι) (p : UprPool ι) call reply f', Between f p →
      uprFleetStep f call = some (reply, f') →
      ∃ turns events p', run uprPoolStep p turns = some (events, p') ∧
        Between f' p' ∧ turns.filterMap turnBegins = [call] ∧
        events.filterMap UprEvent.reply = [reply] :=
    fun f p call reply f' hp hstep => run_of_uprFleetStep hp hstep
  exact run_refines hsim hp h

/-- Whatever objects do call by call, they can do access by access: beginning
the same calls, showing the same replies, and coming to the same data area and
members. -/
theorem whole_calls_are_accesses {f f' : UprFleet ι}
    {calls : List (ι × UprOp)} {replies : List Reply}
    (h : run uprFleetStep f calls = some (replies, f')) :
    ∃ turns events p', run uprPoolStep (.start f) turns = some (events, p') ∧
      Between f' p' ∧ turns.filterMap turnBegins = calls ∧
      events.filterMap UprEvent.reply = replies :=
  run_uprFleetStep (between_start f) h

end Fleet

set_option maxRecDepth 4000 in
/-- Two hosts that insert the same key. -/
theorem whole_calls_are_accesses_two_hosts :
    ∃ f' replies turns events p', run uprPoolStep
        (.start (.construct (fun _ => 0)
          (fun _ : Bool => Instance.firstHost.dataAddr) hostOneTwo)) turns =
          some (events, p') ∧
      Between f' p' ∧ turns.filterMap turnBegins =
        [(true, .insert (fun _ => 7) fun _ => 1),
          (false, .insert (fun _ => 7) fun _ => 2)] ∧
      events.filterMap UprEvent.reply = replies := by
  have hdone : ∃ replies f', run uprFleetStep
      (.construct (fun _ => 0) (fun _ : Bool => Instance.firstHost.dataAddr)
        hostOneTwo)
      [(true, .insert (fun _ => 7) fun _ => 1),
        (false, .insert (fun _ => 7) fun _ => 2)] = some (replies, f') :=
    ⟨_, _, rfl⟩
  obtain ⟨replies, f', hrun⟩ := hdone
  exact ⟨f', replies, whole_calls_are_accesses hrun⟩

end SHMemora.Ports
