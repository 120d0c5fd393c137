import SHMemora.Ports.SharedChains

/-!
# Plain allocation

Outside batch mode `insert` and `put` of `gshm_upr` take their entries from
one cursor, `insert` `entry_size` bytes at a time and `put` 328 bytes, whatever
the size of a value is.  Here any number of objects with value sizes of their
own make calls over any memory, and what they allocate is compared with the
arenas of `ArenaAllocation`.

What a call that returns has taken is decided by the cursor and the partition
alone, whatever is in memory (`uprStep_allocates`).  Whether `put` returns is
decided by the memory: it follows the words 320 bytes behind the entries, and
where values are not of 256 bytes such a word may be a part of a value.

## Main results

* `plain_allocation` — all blocks are apart and inside the partitions, a call
  that fails changes nothing, and `put` succeeds where an entry fits exactly
  if the words it follows lead to an end (`WalkEnds`).
* `not_plain_allocation_long_value` — a `put` that fits and goes round for
  ever.
-/

namespace SHMemora.Ports

open SHMemora.Verified.ByteMemory
open SHMemora.Verified.StepRun
open SHMemora.Verified.ArenaAllocation

/-! ## Where the walk of `put` ends -/

/-- From here the words 320 bytes behind the entries lead to the end of a
chain or to an entry with the key. -/
inductive WalkEnds (m : Bytes) (key : Key) : Nat → Prop
  | null : WalkEnds m key 0
  | found {e : Nat} (hkey : keyAt m e = key) : WalkEnds m key e
  | next {e : Nat} (rest : WalkEnds m key (nextEntry m 320 e)) :
      WalkEnds m key e

section Walk

variable {m : Bytes} {key : Key}

theorem walkEnds_iff {e : Nat} :
    WalkEnds m key e ↔
      ∃ d, endsWalk m key ((nextEntry m 320)^[d] e) = true := by
  constructor
  · intro h
    induction h with
    | null => exact ⟨0, endsWalk_eq_true_iff.mpr (.inl rfl)⟩
    | found hkey => exact ⟨0, endsWalk_eq_true_iff.mpr (.inr hkey)⟩
    | next _ ih =>
        obtain ⟨d, hd⟩ := ih
        exact ⟨d + 1, hd⟩
  · rintro ⟨d, hd⟩
    induction d generalizing e with
    | zero =>
        rcases endsWalk_eq_true_iff.mp hd with hzero | hkey
        · have he : e = 0 := hzero
          rw [he]
          exact .null
        · exact .found hkey
    | succ d ih => exact .next (ih hd)

/-- The walk goes on for ever where they do not. -/
theorem chainEnd_eq_none_iff_not_walkEnds :
    chainEnd m 320 key = none ↔ ¬ WalkEnds m key (bucket m key) := by
  rw [chainEnd_eq_none_iff, walkEnds_iff, not_exists]
  exact forall_congr' fun d => by rw [Bool.not_eq_true]

/-- A chain of at most one entry comes to its end. -/
theorem walkEnds_of_short (h : ShortChain m 256 key) :
    WalkEnds m key (bucket m key) := by
  by_cases hzero : bucket m key = 0
  · rw [hzero]
    exact .null
  · have hlast : nextEntry m 320 (bucket m key) = 0 := h hzero
    refine .next ?_
    rw [hlast]
    exact .null

end Walk

/-! ## What a call allocates -/

/-- The members with `next_free_offset` moved. -/
def Instance.moved (self : Instance) (nextFree : Nat) : Instance :=
  { self with nextFreeOffset := nextFree }

/-- The test for a full partition, for an entry of this size. -/
def Instance.Full (self : Instance) (size : Nat) : Prop :=
  self.partitionEnd < wrap (self.nextFreeOffset + size)

instance (self : Instance) (size : Nat) : Decidable (self.Full size) :=
  inferInstanceAs (Decidable (_ < _))

namespace GshmUpr

/-- The bytes a call has allocated from `next_free_offset` on: `insert` where
it succeeds, and `put` where it succeeds and its walk has found no entry. -/
def granted (u : GshmUpr) : UprOp → Reply → Option Nat
  | .insert _ _, .answer true => some u.self.entrySize
  | .put key _, .answer true =>
      if u.lookup 320 key = some 0 then some 328 else none
  | _, _ => none

section Calls

variable {u u' : GshmUpr} {key : Key} {value : Bytes}

/-- The members behind the writes of an insertion. -/
theorem writes_self (start size : Nat) :
    ((u.fillEntry start size key value).writeCxl (entryOffset key) 8
      (ofWord start)).2.self = u.self := by
  rw [writeCxl_self, fillEntry_self]

theorem insert_of_fullPartition (hplain : u.self.useBatch = false)
    (hfull : u.self.Full u.self.entrySize) :
    u.insert key value = .returned false u := by
  unfold Instance.Full at hfull
  rw [insert, if_neg (by simp [hplain]), insertPlain, if_pos hfull]

theorem insert_of_not_full (hplain : u.self.useBatch = false)
    (hroom : ¬ u.self.Full u.self.entrySize) (key : Key) (value : Bytes) :
    ∃ m, u.insert key value = .returned true
      ⟨m, u.self.moved (wrap (u.self.nextFreeOffset + u.self.entrySize))⟩ := by
  unfold Instance.Full at hroom
  rw [insert, if_neg (by simp [hplain]), insertPlain, if_neg hroom]
  simp only [writes_self]
  exact ⟨_, rfl⟩

/-- `put` of a key that its walk finds. -/
theorem put_of_found {e : Nat} (hlookup : u.lookup 320 key = some e)
    (hne : e ≠ 0) (value : Bytes) :
    ∃ m, u.put key value = .returned true ⟨m, u.self⟩ := by
  have hself : (u.writeCxl (wrap (e + 64)) 256 value).2.self = u.self :=
    writeCxl_self _ _ _
  rw [put, hlookup]
  simp only [if_pos hne]
  rw [← hself]
  exact ⟨_, rfl⟩

theorem put_of_full (hlookup : u.lookup 320 key = some 0)
    (hfull : u.self.Full 328) : u.put key value = .returned false u := by
  unfold Instance.Full at hfull
  rw [put, hlookup]
  simp only [ne_eq, not_true_eq_false, if_false, if_pos hfull]

theorem put_of_not_full (hlookup : u.lookup 320 key = some 0)
    (hroom : ¬ u.self.Full 328) (value : Bytes) :
    ∃ m, u.put key value = .returned true
      ⟨m, u.self.moved (wrap (u.self.nextFreeOffset + 328))⟩ := by
  unfold Instance.Full at hroom
  rw [put, hlookup]
  simp only [ne_eq, not_true_eq_false, if_false, if_neg hroom, writes_self]
  exact ⟨_, rfl⟩

/-- An insertion that fails has changed nothing. -/
theorem state_of_insert_false (hplain : u.self.useBatch = false)
    (hcall : u.insert key value = .returned false u') : u' = u := by
  by_cases hfull : u.self.Full u.self.entrySize
  · rw [insert_of_fullPartition hplain hfull] at hcall
    cases hcall
    rfl
  · obtain ⟨m, hm⟩ := insert_of_not_full hplain hfull key value
    rw [hm] at hcall
    cases hcall

/-- So has a `put` that fails. -/
theorem state_of_put_false (hcall : u.put key value = .returned false u') :
    u' = u := by
  cases hlookup : u.lookup 320 key with
  | none => simp [put, hlookup] at hcall
  | some e =>
      by_cases hzero : e = 0
      · rw [hzero] at hlookup
        by_cases hfull : u.self.Full 328
        · rw [put_of_full hlookup hfull] at hcall
          cases hcall
          rfl
        · obtain ⟨m, hm⟩ := put_of_not_full hlookup hfull value
          rw [hm] at hcall
          cases hcall
      · obtain ⟨m, hm⟩ := put_of_found hlookup hzero value
        rw [hm] at hcall
        cases hcall

/-- A `put` goes on for as long as its walk does. -/
theorem put_of_lookup_none (hlookup : u.lookup 320 key = none)
    (value : Bytes) : u.put key value = .running := by
  rw [put, hlookup]

/-- **Where there is room `put` succeeds exactly if its walk ends.** -/
theorem put_succeeds_iff (hroom : ¬ u.self.Full 328) :
    (∃ u', u.put key value = .returned true u') ↔
      WalkEnds u.data key (bucket u.data key) := by
  have hnone : u.lookup 320 key = none ↔
      ¬ WalkEnds u.data key (bucket u.data key) := by
    rw [lookup_eq]
    exact chainEnd_eq_none_iff_not_walkEnds
  constructor
  · rintro ⟨u', hput⟩
    by_contra hends
    rw [put_of_lookup_none (hnone.mpr hends) value] at hput
    cases hput
  · intro hends
    cases hlookup : u.lookup 320 key with
    | none => exact absurd hends (hnone.mp hlookup)
    | some e =>
        by_cases hzero : e = 0
        · rw [hzero] at hlookup
          obtain ⟨m, hm⟩ := put_of_not_full hlookup hroom value
          exact ⟨_, hm⟩
        · obtain ⟨m, hm⟩ := put_of_found hlookup hzero value
          exact ⟨_, hm⟩

theorem update_self {b : Bool}
    (hcall : u.update key value = .returned b u') : u'.self = u.self := by
  rw [update] at hcall
  split at hcall
  · cases hcall
  · split at hcall
    · cases hcall
      rfl
    · cases hcall
      exact writeCxl_self _ _ _

theorem del_self {b : Bool} (hcall : u.del key = .returned b u') :
    u'.self = u.self := by
  rw [del_eq] at hcall
  split at hcall
  · cases hcall
  · rw [unlink] at hcall
    split at hcall
    · cases hcall
      rfl
    · cases hcall
      exact writeCxl_self _ _ _

theorem get_state {r : Bool × Bytes}
    (hcall : u.get key value = .returned r u') : u' = u := by
  rw [get] at hcall
  split at hcall
  · cases hcall
  · split at hcall <;> cases hcall <;> rfl

end Calls

end GshmUpr

/-- What a call does to the members: it takes what it is granted at the
cursor, from a partition with room for it, and changes nothing else. -/
theorem uprStep_allocates {u u' : GshmUpr} (hplain : u.self.useBatch = false)
    {op : UprOp} {reply : Reply} (hstep : uprStep u op = some (reply, u')) :
    match u.granted op reply with
    | some size => ¬ u.self.Full size ∧
        u'.self = u.self.moved (wrap (u.self.nextFreeOffset + size))
    | none => u'.self = u.self := by
  cases op with
  | get key value =>
      obtain ⟨r, _, hcall, heq⟩ := Outcome.next_map_eq_some_iff.mp hstep
      cases heq
      exact congrArg GshmUpr.self (GshmUpr.get_state hcall)
  | update key value =>
      obtain ⟨r, _, hcall, heq⟩ := Outcome.next_map_eq_some_iff.mp hstep
      cases heq
      exact GshmUpr.update_self hcall
  | del key =>
      obtain ⟨r, _, hcall, heq⟩ := Outcome.next_map_eq_some_iff.mp hstep
      cases heq
      exact GshmUpr.del_self hcall
  | insert key value =>
      obtain ⟨r, _, hcall, heq⟩ := Outcome.next_map_eq_some_iff.mp hstep
      by_cases hfull : u.self.Full u.self.entrySize
      · rw [GshmUpr.insert_of_fullPartition hplain hfull] at hcall
        cases hcall
        cases heq
        rfl
      · obtain ⟨m, hm⟩ := GshmUpr.insert_of_not_full hplain hfull key value
        rw [hm] at hcall
        cases hcall
        cases heq
        exact ⟨hfull, rfl⟩
  | put key value =>
      obtain ⟨r, _, hcall, heq⟩ := Outcome.next_map_eq_some_iff.mp hstep
      cases hlookup : u.lookup 320 key with
      | none => simp [GshmUpr.put, hlookup] at hcall
      | some e =>
          by_cases hzero : e = 0
          · rw [hzero] at hlookup
            by_cases hfull : u.self.Full 328
            · rw [GshmUpr.put_of_full hlookup hfull] at hcall
              cases hcall
              cases heq
              rfl
            · obtain ⟨m, hm⟩ := GshmUpr.put_of_not_full hlookup hfull value
              rw [hm] at hcall
              cases hcall
              cases heq
              simp [GshmUpr.granted, hlookup, hfull]
          · obtain ⟨m, hm⟩ := GshmUpr.put_of_found hlookup hzero value
            rw [hm] at hcall
            cases hcall
            cases heq
            simp [GshmUpr.granted, hlookup, hzero]

/-! ## Several objects -/

section Fleet

variable {ι : Type} [DecidableEq ι]

/-- New objects with value sizes of their own over a data area. -/
def UprFleet.constructSized (data : Bytes) (dataAddr : ι → DataAddr)
    (mac : ι → Option UInt8) (valueSize : ι → Nat) : UprFleet ι where
  data := data
  members := fun i =>
    (Instance.construct (dataAddr i) (mac i)).withValueSize (valueSize i)

/-- A call by one of the objects, and the block it allocates, if any. -/
def uprAllocStep (f : UprFleet ι) (call : ι × UprOp) :
    Option ((Reply × Option (Block ι)) × UprFleet ι) :=
  (uprFleetStep f call).map fun r =>
    ((r.1, (GshmUpr.granted ⟨f.data, f.members call.1⟩ call.2 r.1).map
      fun size => ⟨call.1, (f.members call.1).nextFreeOffset, size⟩), r.2)

/-- The blocks that have been allocated. -/
def blocksOf (outs : List (Reply × Option (Block ι))) : List (Block ι) :=
  outs.filterMap Prod.snd

variable (dataAddr : ι → DataAddr) (mac : ι → Option UInt8)
  (valueSize : ι → Nat)

/-- The objects are as they were constructed up to their cursors, and these
are the cursors of owners that have handed out the blocks. -/
def HandsOut (f : UprFleet ι) (blocks : List (Block ι)) : Prop :=
  ∃ cursor asked, (∀ i, f.members i =
      .at (dataAddr i) (mac i) (valueSize i) (cursor i)) ∧
    Verified.ArenaAllocation.Placed (arenaStart mac) (arenaLimit mac) cursor
      blocks asked

variable {dataAddr mac valueSize} {f f' : UprFleet ι}
  {blocks : List (Block ι)}

omit [DecidableEq ι] in
/-- There is room for an entry exactly where it ends inside the partition. -/
theorem not_full_iff (dataAddr : ι → DataAddr) (valueSize : ι → Nat) {i : ι}
    {cursor size : Nat}
    (hcursor : cursor ≤ arenaLimit mac i) (hsize : size < 2 ^ 31) :
    ¬ (Instance.at (dataAddr i) (mac i) (valueSize i) cursor).Full size ↔
      cursor + size ≤ arenaLimit mac i := by
  have hlimit := arenaLimit_le mac i
  have hpartition := partitionEnd_at dataAddr mac valueSize i cursor
  have hwrap : wrap (cursor + size) = cursor + size :=
    wrap_of_lt (by omega)
  have hcursor' : (Instance.at (dataAddr i) (mac i) (valueSize i)
      cursor).nextFreeOffset = cursor := rfl
  rw [Instance.Full, hpartition, hcursor', hwrap]
  omega

omit [DecidableEq ι] in
/-- Calls ask for entries of less than `2 ^ 31` bytes. -/
theorem granted_lt {i : ι} (hsmall : 72 + valueSize i < 2 ^ 31) {data : Bytes}
    {cursor : Nat} {op : UprOp} {reply : Reply} {size : Nat}
    (hgrant : GshmUpr.granted
      ⟨data, .at (dataAddr i) (mac i) (valueSize i) cursor⟩ op reply =
        some size) : size < 2 ^ 31 := by
  unfold GshmUpr.granted at hgrant
  split at hgrant
  · cases hgrant
    exact hsmall
  · split at hgrant
    · cases hgrant
      decide
    · cases hgrant
  · cases hgrant

/-- **Step lemma**: what a call takes is a grant to its owner. -/
theorem HandsOut.step (hsmall : ∀ i, 72 + valueSize i < 2 ^ 31)
    (h : HandsOut dataAddr mac valueSize f blocks) {call : ι × UprOp}
    {out : Reply × Option (Block ι)}
    (hstep : uprAllocStep f call = some (out, f')) :
    HandsOut dataAddr mac valueSize f' (blocks ++ out.2.toList) := by
  obtain ⟨cursor, asked, hself, hplaced⟩ := h
  obtain ⟨i, op⟩ := call
  obtain ⟨⟨reply, f₁⟩, hfleet, heq⟩ := Option.map_eq_some_iff.mp hstep
  simp only [uprFleetStep] at hfleet
  split at hfleet
  · cases hfleet
  next reply' u' hcall =>
    cases hfleet
    cases heq
    have hplain : (f.members i).useBatch = false := by rw [hself]; rfl
    have hcase := uprStep_allocates (u := ⟨f.data, f.members i⟩) hplain hcall
    have hothers : ∀ c, u'.self =
        .at (dataAddr i) (mac i) (valueSize i) c →
        ∀ j, Function.update f.members i u'.self j =
          .at (dataAddr j) (mac j) (valueSize j)
            (Function.update cursor i c j) := by
      intro c hc j
      by_cases hj : j = i
      · rw [hj, Function.update_self, Function.update_self, hc]
      · rw [Function.update_of_ne hj, Function.update_of_ne hj, hself]
    split at hcase
    next size hgrant =>
      obtain ⟨hroom, hmoved⟩ := hcase
      simp only [hgrant, Option.map_some, Option.toList_some]
      simp only [hself] at hgrant hroom hmoved ⊢
      have hlt := granted_lt (hsmall i) hgrant
      have hfits := (not_full_iff dataAddr valueSize
        (hplaced.bounds i).2 hlt).mp hroom
      have hlimit := arenaLimit_le mac i
      have hwrap : wrap (cursor i + size) = cursor i + size :=
        wrap_of_lt (by omega)
      refine ⟨Function.update cursor i (cursor i + size), asked ++ [(i, size)],
        hothers _ ?_, hplaced.grant (r := (i, size)) hfits⟩
      rw [hmoved, ← hwrap]
      rfl
    next hgrant =>
      simp only [hgrant, Option.map_none, Option.toList_none,
        List.append_nil]
      refine ⟨cursor, asked, fun j => ?_, hplaced⟩
      have hmember := hothers (cursor i) (hcase.trans (hself i)) j
      rw [Function.update_eq_self] at hmember
      exact hmember

/-- **Run lemma.** -/
theorem HandsOut.run (hsmall : ∀ i, 72 + valueSize i < 2 ^ 31)
    (h : HandsOut dataAddr mac valueSize f blocks)
    {calls : List (ι × UprOp)} {outs : List (Reply × Option (Block ι))}
    (hrun : run uprAllocStep f calls = some (outs, f')) :
    HandsOut dataAddr mac valueSize f' (blocks ++ blocksOf outs) := by
  induction calls generalizing f blocks outs with
  | nil =>
      cases hrun
      simpa [blocksOf] using h
  | cons call calls ih =>
      obtain ⟨o, f₁, os, hstep, hrest, rfl⟩ := run_cons_eq_some_iff.mp hrun
      have hnext := ih (h.step hsmall hstep) hrest
      rw [List.append_assoc] at hnext
      have houts : blocksOf (o :: os) = o.2.toList ++ blocksOf os := by
        obtain ⟨reply, block⟩ := o
        cases block <;> rfl
      rw [houts]
      exact hnext

omit [DecidableEq ι] in
/-- New objects have handed out nothing. -/
theorem handsOut_construct (data : Bytes) :
    HandsOut dataAddr mac valueSize
      (.constructSized data dataAddr mac valueSize) [] := by
  refine ⟨arenaStart mac, [], fun i => ?_,
    placed_start arenaStart_le⟩
  rw [arenaStart, ← Instance.partitionStart_construct (dataAddr i) (mac i)]
  rfl

omit [DecidableEq ι] in
/-- On hosts of their own all blocks are apart. -/
theorem HandsOut.pairwise_apart (h : HandsOut dataAddr mac valueSize f blocks)
    (hinj : ∀ i j, getMac (mac i) = getMac (mac j) → i = j) :
    blocks.Pairwise Block.Apart := by
  obtain ⟨cursor, asked, _, hplaced⟩ := h
  refine hplaced.pairwise_apart fun b c _ _ howner => ?_
  refine arenas_apart b.owner c.owner ?_
  rw [arenaStart_ne_iff]
  exact fun hmac => howner (hinj _ _ hmac)

/-- A call of `insert` or `put` that returns `false` has changed nothing.
Where an entry fits into the partition `insert` succeeds, and `put` succeeds
for the keys whose walk ends. -/
structure AtomicCalls (u : GshmUpr) : Prop where
  insert_false : ∀ key value u', u.insert key value = .returned false u' →
    u' = u
  put_false : ∀ key value u', u.put key value = .returned false u' → u' = u
  insert_fits : u.self.nextFreeOffset + u.self.entrySize ≤
    u.self.partitionEnd →
    ∀ key value, ∃ u', u.insert key value = .returned true u'
  put_fits : u.self.nextFreeOffset + 328 ≤ u.self.partitionEnd →
    ∀ key value, (∃ u', u.put key value = .returned true u') ↔
      WalkEnds u.data key (bucket u.data key)

omit [DecidableEq ι] in
/-- Every call of an object in such a system is atomic. -/
theorem HandsOut.atomicCalls (hsmall : ∀ i, 72 + valueSize i < 2 ^ 31)
    (h : HandsOut dataAddr mac valueSize f blocks) (i : ι) :
    AtomicCalls ⟨f.data, f.members i⟩ := by
  obtain ⟨cursor, asked, hself, hplaced⟩ := h
  have hcursor := (hplaced.bounds i).2
  rw [hself i]
  have hplain : (Instance.at (dataAddr i) (mac i) (valueSize i)
      (cursor i)).useBatch = false := rfl
  have hlimit := partitionEnd_at dataAddr mac valueSize i (cursor i)
  constructor
  case insert_false =>
    exact fun key value u' hcall => GshmUpr.state_of_insert_false hplain hcall
  case put_false =>
    exact fun key value u' hcall => GshmUpr.state_of_put_false hcall
  case insert_fits =>
    intro hfits key value
    rw [hlimit] at hfits
    have hroom := (not_full_iff dataAddr valueSize hcursor
      (hsmall i)).mpr hfits
    obtain ⟨m, hm⟩ := GshmUpr.insert_of_not_full (u := ⟨f.data, _⟩) hplain
      hroom key value
    exact ⟨_, hm⟩
  case put_fits =>
    intro hfits key value
    rw [hlimit] at hfits
    have hroom := (not_full_iff dataAddr valueSize hcursor
      (show 328 < 2 ^ 31 by decide)).mpr hfits
    exact GshmUpr.put_succeeds_iff (u := ⟨f.data, _⟩) hroom

/-- The same run without the blocks. -/
theorem fleetRun_of_allocRun {calls : List (ι × UprOp)}
    {outs : List (Reply × Option (Block ι))}
    (hrun : run uprAllocStep f calls = some (outs, f')) :
    ∃ replies, run uprFleetStep f calls = some (replies, f') := by
  induction calls generalizing f outs with
  | nil =>
      cases hrun
      exact ⟨[], rfl⟩
  | cons call calls ih =>
      obtain ⟨o, f₁, os, hstep, hrest, _⟩ := run_cons_eq_some_iff.mp hrun
      obtain ⟨⟨reply, f₂⟩, hfleet, heq⟩ := Option.map_eq_some_iff.mp hstep
      cases heq
      obtain ⟨replies, hreplies⟩ := ih hrest
      exact ⟨reply :: replies,
        run_cons_eq_some_iff.mpr ⟨_, _, _, hfleet, hreplies, rfl⟩⟩

/-- With values of 256 bytes, over a zeroed data area and without host 0, every
walk ends. -/
theorem walkEnds_of_run (hpos : ∀ i, 0 < getMac (mac i))
    (hinj : ∀ i j, getMac (mac i) = getMac (mac j) → i = j)
    {calls : List (ι × UprOp)} {outs : List (Reply × Option (Block ι))}
    (hrun : run uprAllocStep (.constructSized (fun _ => 0) dataAddr mac
      fun _ => 256) calls = some (outs, f)) (key : Key) :
    WalkEnds f.data key (bucket f.data key) := by
  obtain ⟨replies, hreplies⟩ := fleetRun_of_allocRun hrun
  obtain ⟨replies', f', hrun', hsound⟩ :=
    (FleetSound.construct dataAddr mac hpos hinj).run calls
  have hsame : some (replies, f) = some (replies', f') :=
    hreplies.symm.trans hrun'
  cases hsame
  exact walkEnds_of_short (hsound.chained.short key)

/-- Objects on hosts of their own make calls in any order, over any memory.
The blocks they allocate are pairwise apart, each lies in the partition of its
object, no cursor passes the end of its partition, calls that fail leave
everything as it is, and what fits succeeds, with `put` exactly where its walk
ends.  That is for every key where all values are of 256 bytes, over a zeroed
data area and on hosts from 1 on. -/
theorem plain_allocation (data : Bytes) (dataAddr : ι → DataAddr)
    (mac : ι → Option UInt8)
    (hinj : ∀ i j, getMac (mac i) = getMac (mac j) → i = j)
    (valueSize : ι → Nat) (hsmall : ∀ i, 72 + valueSize i < 2 ^ 31)
    (calls : List (ι × UprOp)) (outs : List (Reply × Option (Block ι)))
    (f : UprFleet ι)
    (hrun : run uprAllocStep (.constructSized data dataAddr mac valueSize)
      calls = some (outs, f)) :
    (blocksOf outs).Pairwise Block.Apart ∧
      (∀ b ∈ blocksOf outs,
        (f.members b.owner).partitionStart ≤ b.start ∧
          b.start + b.size ≤ (f.members b.owner).partitionEnd) ∧
      (∀ i, (f.members i).nextFreeOffset ≤ (f.members i).partitionEnd) ∧
      (∀ i, AtomicCalls ⟨f.data, f.members i⟩) ∧
      ((∀ i, 0 < getMac (mac i)) → (valueSize = fun _ => 256) →
        (data = fun _ => 0) →
          ∀ key, WalkEnds f.data key (bucket f.data key)) := by
  have h := (handsOut_construct data).run hsmall hrun
  rw [List.nil_append] at h
  refine ⟨h.pairwise_apart hinj, ?_, ?_, h.atomicCalls hsmall, ?_⟩
  · intro b hb
    obtain ⟨cursor, asked, hself, hplaced⟩ := h
    have hinside := hplaced.inside_arena hb
    rw [hself b.owner, partitionStart_at dataAddr mac valueSize,
      partitionEnd_at dataAddr mac valueSize]
    exact hinside
  · intro i
    obtain ⟨cursor, asked, hself, hplaced⟩ := h
    rw [hself i, partitionEnd_at dataAddr mac valueSize]
    exact (hplaced.bounds i).2
  · rintro hpos rfl rfl key
    exact walkEnds_of_run hpos hinj hrun key

end Fleet

/-- Two objects on two hosts, with values of 8 and of 512 bytes. -/
def twoSizes : UprFleet Bool :=
  .constructSized (fun _ => 0) (fun _ => Instance.firstHost.dataAddr)
    hostOneTwo fun i => if i then 512 else 8

/-- An insertion by each of them, and a `put` of a third key. -/
def insertInsertPut : List (Bool × UprOp) :=
  [(false, .insert (fun _ => 0) fun _ => 7),
    (true, .insert (fun _ => 1) fun _ => 8),
    (false, .put (fun _ => 2) fun _ => 9)]

theorem run_twoSizes :
    (run uprAllocStep twoSizes insertInsertPut).map
      (fun r => (blocksOf r.1).map fun b => (b.owner, b.size)) =
        some [(false, 80), (true, 584), (false, 328)] := by
  decide +kernel

theorem plain_allocation_two_sizes :
    ∃ outs f, run uprAllocStep twoSizes insertInsertPut = some (outs, f) ∧
      (blocksOf outs).length = 3 ∧
      (blocksOf outs).Pairwise Block.Apart := by
  obtain ⟨⟨outs, f⟩, hrun, hblocks⟩ := Option.map_eq_some_iff.mp run_twoSizes
  refine ⟨outs, f, hrun, ?_, ?_⟩
  · simpa using congrArg List.length hblocks
  · exact (plain_allocation (fun _ => 0)
      (fun _ => Instance.firstHost.dataAddr) hostOneTwo (by decide)
      (fun i => if i then 512 else 8) (by decide) _ outs f hrun).1

/-! ## A value that holds a next pointer -/

/-- The partition of host 1 begins here, and so does its first entry. -/
def firstEntry : Nat := 2 ^ 27 + 2 ^ 30

/-- A value that holds the place of this entry where `put` looks for the next
pointer. -/
def loopValue : Bytes := fun i => ofWord firstEntry (i - 256)

/-- A key of the bucket of the zero key. -/
def secondKey : Key := fun i => if i.val = 8 then 1 else 0

/-- A `gshm_upr` on host 1 whose entries leave 400 bytes of the partition
behind the first of them. -/
def longValues : UprFleet Unit :=
  .constructSized (fun _ => 0) (fun _ => Instance.firstHost.dataAddr)
    (fun _ => some 1) fun _ => 2 ^ 30 - 472

/-- The bytes of the value in a new entry. -/
theorem value_insertEntry {m : Bytes} {valueSize e : Nat} {key : Key}
    {value : Bytes} (hbehind : 2 ^ 26 + 2 ^ 28 ≤ e)
    (hend : e + (72 + valueSize) ≤ 2 ^ 63) {i : Nat} (hi : i < valueSize) :
    insertEntry m valueSize e key value (e + 64 + i) = value i := by
  have hagree : Agree (writeEntry m valueSize e key value)
      (insertEntry m valueSize e key value) e (72 + valueSize) :=
    agree_setBucket (apart_bucket_of_behind hbehind key).symm
  rw [hagree _ (by omega) (by omega), value_writeEntry hend hi]

/-- The memory behind the first insertion. -/
def loopMemory : Bytes :=
  insertEntry (fun _ => 0) (2 ^ 30 - 472) firstEntry (fun _ => 0) loopValue

/-- Its entry is its own successor for `put`. -/
theorem nextEntry_loopMemory :
    nextEntry loopMemory 320 firstEntry = firstEntry := by
  have hplace : firstEntry = 2 ^ 27 + 2 ^ 30 := rfl
  have hword : loadWord loopMemory (firstEntry + 320) =
      word (ofWord firstEntry) := by
    refine word_congr fun i hi => ?_
    rw [wrap_of_lt (by omega),
      show firstEntry + 320 + i = firstEntry + 64 + (256 + i) by omega,
      loopMemory, value_insertEntry (by omega) (by omega) (by omega),
      loopValue, Nat.add_sub_cancel_left]
  rw [nextEntry, wrap_of_lt (by omega), hword, word_ofWord,
    wrap_of_lt (by omega)]

/-- The walk of `put` for another key of the bucket. -/
theorem not_walkEnds_loopMemory :
    ¬ WalkEnds loopMemory secondKey (bucket loopMemory secondKey) := by
  have hplace : firstEntry = 2 ^ 27 + 2 ^ 30 := rfl
  have hbucket : bucket loopMemory secondKey = firstEntry := by
    rw [loopMemory, insertEntry]
    exact bucket_setBucket (by omega) (by decide)
  have hkey : keyAt loopMemory firstEntry = fun _ => 0 :=
    keyAt_insertEntry (by omega)
      (apart_bucket_of_behind (by omega) fun _ => 0).symm
  have hother : (fun _ => 0 : Key) ≠ secondKey :=
    fun heq => absurd (congrFun heq 8) (by decide)
  rw [walkEnds_iff, hbucket]
  rintro ⟨d, hd⟩
  rw [Function.iterate_fixed nextEntry_loopMemory d, endsWalk_eq_true_iff,
    hkey] at hd
  rcases hd with hzero | hfound
  · omega
  · exact hother hfound

theorem uprAllocStep_of_uprStep {ι : Type} [DecidableEq ι] {f : UprFleet ι}
    {i : ι} {op : UprOp} {reply : Reply} {u : GshmUpr}
    (hstep : uprStep ⟨f.data, f.members i⟩ op = some (reply, u)) :
    ∃ block, uprAllocStep f (i, op) = some ((reply, block),
      ⟨u.data, Function.update f.members i u.self⟩) := by
  rw [uprAllocStep, uprFleetStep, hstep]
  exact ⟨_, rfl⟩

/-- Behind an insertion and one that finds the partition full, a `put` that
fits never returns. -/
theorem not_plain_allocation_long_value :
    ∃ outs f, run uprAllocStep longValues
        [((), .insert (fun _ => 0) loopValue),
          ((), .insert (fun _ => 0) loopValue)] = some (outs, f) ∧
      outs.map Prod.fst = [.answer true, .answer false] ∧
      (f.members ()).nextFreeOffset + 328 ≤ (f.members ()).partitionEnd ∧
      ∀ value, GshmUpr.put ⟨f.data, f.members ()⟩ secondKey value =
        .running := by
  have hplain : Plain (longValues.members ()) :=
    Plain.construct Instance.firstHost.dataAddr (some 1) (by decide)
  have hroom : HasRoom (longValues.members ()) := by decide
  have hfull : (longValues.members ()).advance.Full
      (longValues.members ()).entrySize := by decide
  have hstart : (longValues.members ()).nextFreeOffset = firstEntry := by
    decide
  have hsize : (longValues.members ()).valueSize = 2 ^ 30 - 472 := rfl
  have hinsert := uprStep_insert_of_room
    (u := ⟨longValues.data, longValues.members ()⟩) hplain hroom (fun _ => 0)
    loopValue
  obtain ⟨block, hfirst⟩ := uprAllocStep_of_uprStep (f := longValues) hinsert
  simp only [hstart, hsize] at hfirst
  have hmembers := Function.update_self () (longValues.members ()).advance
    longValues.members
  generalize Function.update longValues.members ()
    (longValues.members ()).advance = members at hfirst hmembers
  -- the second insertion changes nothing
  have hrefused : uprStep ⟨loopMemory, members ()⟩
      (.insert (fun _ => 0) loopValue) =
        some (.answer false, ⟨loopMemory, members ()⟩) := by
    have hfalse : GshmUpr.insert ⟨loopMemory, members ()⟩ (fun _ => 0)
        loopValue = .returned false ⟨loopMemory, members ()⟩ := by
      rw [hmembers]
      exact GshmUpr.insert_of_fullPartition (hplain.advance hroom).noBatch
        hfull
    rw [uprStep, hfalse]
    rfl
  obtain ⟨block', hsecond⟩ :=
    uprAllocStep_of_uprStep (f := ⟨loopMemory, members⟩) hrefused
  rw [Function.update_eq_self] at hsecond
  refine ⟨_, _, run_cons_eq_some_iff.mpr ⟨_, _, _, hfirst,
    run_cons_eq_some_iff.mpr ⟨_, _, _, hsecond, rfl, rfl⟩, rfl⟩, rfl, ?_, ?_⟩
  · show (members ()).nextFreeOffset + 328 ≤ (members ()).partitionEnd
    rw [hmembers]
    decide
  · intro value
    refine GshmUpr.put_of_lookup_none ?_ value
    rw [GshmUpr.lookup_eq]
    exact chainEnd_eq_none_iff_not_walkEnds.mpr not_walkEnds_loopMemory

end SHMemora.Ports
