import SHMemora.Ports.BucketObject

/-!
# Deletions that are not disturbed

A `del` that has found its key zeroes the bucket word, whatever has been put
there meanwhile.  `SparesDeletions` says that nothing is put there: no bucket
word is written while a `del` of another object is going to write it.  Then
the word still leads to the entry found (`DelSound`).

Only three accesses change anything that other calls can see: the write to a
value, the one that zeroes a bucket word, and the one that puts a new entry
into it.  All other turns leave the entries as they are (`turn_sameEntries`).
-/

namespace SHMemora.Ports

open SHMemora.Verified.ByteMemory
open SHMemora.Verified.ThreadPool

/-! ## Deletions -/

/-- The key that a `del` is going to unlink. -/
def UprPhase.unlinks (m : Bytes) : UprPhase → Option Key
  | .compare (.del key) _ entry =>
      if keyAt m entry = key then some key else none
  | .readSuccessor key _ _ => some key
  | .writeLink key _ _ => some key
  | _ => none

/-- The key whose bucket word the next access writes. -/
def UprPhase.relinks : UprPhase → Option Key
  | .writeLink key _ _ => some key
  | .writeBucket filling => some filling.key
  | _ => none

section Deletions

variable {ι : Type}

/-- The turn does not write a bucket word that a `del` of another object is
going to write. -/
def SparesDeletions (p : UprPool ι) (turn : ι × Option UprOp) : Prop :=
  ∀ key, (p.phase turn.1).relinks = some key → ∀ j, j ≠ turn.1 →
    ∀ key', (p.phase j).unlinks p.shared.data = some key' →
      entryOffset key' ≠ entryOffset key

/-- The bucket word still leads to the entry that a `del` has found. -/
def DelSound (m : Bytes) : UprPhase → Prop
  | .compare (.del key) _ entry => keyAt m entry = key → bucket m key = entry
  | .readSuccessor key _ entry => bucket m key = entry ∧ keyAt m entry = key
  | .writeLink key _ _ =>
      bucket m key ≠ 0 ∧ keyAt m (bucket m key) = key
  | _ => True

/-- Values are overwritten by `update` and `put`, entries are filled by
`insert` and `put`, with the value given. -/
def RightCall : UprPhase → Prop
  | .overwrite op value _ _ =>
      op = .update op.key value ∨ op = .put op.key value
  | .writeKey filling | .writeValue filling | .writeNext filling
  | .writeBucket filling =>
      filling.op = .insert filling.op.key filling.value ∨
        filling.op = .put filling.op.key filling.value
  | _ => True

/-- What object `i` knows before its next access, also of its call. -/
structure CallSound (i : ι) (phase : UprPhase) (σ : UprShared ι) : Prop where
  object : ObjectSound i phase σ
  del : DelSound σ.data phase
  right : RightCall phase

variable {p : UprPool ι} {σ σ' : UprShared ι} {i : ι} {phase : UprPhase}
  {o : UprEvent} {op : Option UprOp}

theorem objects_annotated (h : Annotated StoreSound CallSound p) :
    Annotated StoreSound ObjectSound p :=
  ⟨h.common, fun i => (h.each i).object⟩

/-- A `del` goes on if the bucket word it is going to write stays. -/
theorem DelSound.congr (h : DelSound σ.data phase) (hσ : StoreSound σ)
    (hobject : ObjectSound i phase σ)
    (hkeys : ∀ e, Allocated σ.members e → keyAt σ'.data e = keyAt σ.data e)
    (hbucket : ∀ key, phase.unlinks σ.data = some key →
      bucket σ'.data key = bucket σ.data key) : DelSound σ'.data phase := by
  cases phase with
  | compare search prevNextPtr entry =>
      cases search with
      | del key =>
          intro hkey
          rw [hkeys entry hobject.2.2] at hkey
          rw [hbucket key (by simp [UprPhase.unlinks, hkey])]
          exact h hkey
      | _ => exact trivial
  | readSuccessor key prevNextPtr entry =>
      rcases h with ⟨hword, hkey⟩
      refine ⟨(hbucket key rfl).trans hword, ?_⟩
      rw [hkeys entry hobject.2]
      exact hkey
  | writeLink key prevNextPtr nextEntry =>
      rcases h with ⟨hne, hkey⟩
      have halloc := hσ.chained.pointers key hne
      have hword := hbucket key rfl
      refine ⟨by rw [hword]; exact hne, ?_⟩
      rw [hword, hkeys _ halloc]
      exact hkey
  | _ => exact trivial

variable [DecidableEq ι]

/-! ### What a turn does to the words -/

/-- Only the bucket word about to be written changes, and no key of an
entry. -/
structure KeepsWords (phase : UprPhase) (σ σ' : UprShared ι) : Prop where
  buckets : ∀ key, (∀ key', phase.relinks = some key' →
    entryOffset key ≠ entryOffset key') →
      bucket σ'.data key = bucket σ.data key
  keys : ∀ e, Allocated σ.members e → keyAt σ'.data e = keyAt σ.data e

omit [DecidableEq ι] in
theorem SameEntries.keys (h : SameEntries σ σ') (hσ : StoreSound σ) {e : Nat}
    (he : Allocated σ.members e) : keyAt σ'.data e = keyAt σ.data e := by
  have hle := hσ.end_le he
  exact keyAt_congr (by omega)
    ((h.entries e he).mono (Nat.le_refl _) (by omega))

omit [DecidableEq ι] in
theorem SameEntries.keepsWords (h : SameEntries σ σ') (hσ : StoreSound σ) :
    KeepsWords phase σ σ' :=
  ⟨fun key _ => h.buckets key, fun _ he => h.keys hσ he⟩

omit [DecidableEq ι] in
theorem SameEntries.of_data (h : σ'.data = σ.data) : SameEntries σ σ' := by
  constructor
  · intro key
    rw [h]
  · intro e _
    rw [h]
    exact Agree.refl _ _ _

omit [DecidableEq ι] in
/-- A bucket word is written. -/
theorem keepsWords_setBucket (hσ : StoreSound σ) {key : Key} {w : Nat}
    (hrelinks : phase.relinks = some key)
    (hdata : σ'.data = setBucket σ.data key w) : KeepsWords phase σ σ' := by
  constructor
  · intro key' hne
    rw [hdata]
    exact bucket_setBucket_of_ne (hne key hrelinks)
  · intro e he
    have hle := hσ.end_le he
    rw [hdata]
    exact keyAt_congr (by omega)
      ((hσ.hosts.blockSet.agree_setBucket he key w).mono (Nat.le_refl _)
        (by omega))

omit [DecidableEq ι] in
/-- A value is overwritten. -/
theorem keepsWords_writeValue (hσ : StoreSound σ) {e : Nat} {value : Bytes}
    (he : Allocated σ.members e)
    (hdata : σ'.data = writeValue σ.data 256 e value) :
    KeepsWords phase σ σ' := by
  have hset := hσ.hosts.blockSet
  have hbehind := hset.behind e he
  have hle := hσ.end_le he
  constructor
  · intro key _
    rw [hdata]
    apply bucket_congr
    exact agree_writeValue hle (apart_bucket_of_behind (by omega) key)
  · intro e' he'
    have hle' := hσ.end_le he'
    rw [hdata]
    exact keyAt_congr (by omega)
      (agree_writeValue hle (hset.key_apart_value he he'))

/-- The next access changes an entry or a bucket word. -/
def UprPhase.commits : UprPhase → Prop
  | .overwrite _ _ _ _ => True
  | .writeLink _ _ _ => True
  | .writeBucket _ => True
  | _ => False

/-- The beginning of a call leaves the data area and the objects alone. -/
theorem beginCall_same (hσ : StoreSound σ) {call : UprOp}
    (hact : uprTurn i (some call) .idle σ = some (o, phase, σ')) :
    σ' = { σ with begun := call :: σ.begun } := by
  have hplain := hσ.hosts.plain i
  have hsearch : ∀ search : Search, call = search.op →
      σ' = { σ with begun := call :: σ.begun } := by
    intro search heq
    rw [heq, uprTurn_begin] at hact
    cases hact
    rw [heq]
  cases call with
  | get key value => exact hsearch (.get key value) rfl
  | update key value => exact hsearch (.update key value) rfl
  | put key value => exact hsearch (.put key value) rfl
  | del key => exact hsearch (.del key) rfl
  | insert key value =>
      by_cases hroom : HasRoom (σ.members i)
      · rw [uprTurn_insert_of_room _ _ hplain hroom] at hact
        cases hact
        rfl
      · rw [uprTurn_insert_of_full _ _ hplain hroom] at hact
        cases hact
        rfl

/-- A turn that does not commit anything. -/
theorem turn_sameEntries (h : Annotated StoreSound ObjectSound p)
    (hquiet : ¬ (p.phase i).commits)
    (hact : uprTurn i op (p.phase i) p.shared = some (o, phase, σ')) :
    SameEntries p.shared σ' ∧ σ'.members = p.shared.members := by
  have hown := h.each i
  cases op with
  | some call =>
      have hidle : p.phase i = .idle := by
        cases hphase : p.phase i <;> rw [hphase] at hact <;> cases hact
      rw [hidle] at hact
      rw [beginCall_same h.common hact]
      exact ⟨.of_data rfl, rfl⟩
  | none =>
      cases hphase : p.phase i <;> rw [hphase] at hown hact hquiet
      case idle => cases hact
      case readBucket search =>
        rw [uprTurn_readBucket] at hact
        cases hact
        exact ⟨.of_data rfl, rfl⟩
      case compare search prevNextPtr entry =>
        rw [uprTurn_compare] at hact
        cases hact
        exact ⟨.of_data rfl, rfl⟩
      case readNext search entry =>
        rw [uprTurn_readNext] at hact
        cases hact
        exact ⟨.of_data rfl, rfl⟩
      case readValue key value entry =>
        simp only [uprTurn, uprAccess, Option.map_some, UprPhase.writes,
          leftBy_seenBy] at hact
        cases hact
        exact ⟨.of_data rfl, rfl⟩
      case readSuccessor key prevNextPtr entry =>
        rw [uprTurn_readSuccessor] at hact
        cases hact
        exact ⟨.of_data rfl, rfl⟩
      case writeKey filling =>
        have hle := hown.end_le h.common.hosts
        rw [uprTurn_writeKey _ _ (by omega)] at hact
        cases hact
        exact ⟨sameEntries_fill h.common hown (by omega) (by omega) _ _, rfl⟩
      case writeValue filling =>
        have hle := hown.1.end_le h.common.hosts
        have hsize := hown.1.valueSize
        rw [uprTurn_writeValue _ _ (by omega)] at hact
        cases hact
        exact ⟨sameEntries_fill h.common hown.1 (by omega) (by omega) _ _,
          rfl⟩
      case writeNext filling =>
        have hle := hown.1.end_le h.common.hosts
        have hsize := hown.1.valueSize
        rw [uprTurn_writeNext _ _ (by omega)] at hact
        cases hact
        exact ⟨sameEntries_fill h.common hown.1 (by omega) (by omega) _ _,
          rfl⟩
      all_goals exact absurd trivial hquiet

/-! ### What a committing turn does -/

/-- The value of an entry is overwritten. -/
theorem overwrite_act (h : Annotated StoreSound ObjectSound p)
    {call : UprOp} {value : Bytes} {size entry : Nat}
    (hphase : p.phase i = .overwrite call value size entry)
    (hact : uprTurn i none (p.phase i) p.shared = some (o, phase, σ')) :
    o = .returned call (.answer true) ∧ phase = .idle ∧
      σ' = { p.shared with data := writeValue p.shared.data 256 entry value }
        := by
  have hown := h.each i
  rw [hphase] at hown hact
  rcases hown with ⟨_, _, hsize, halloc, _⟩
  have hle := h.common.end_le halloc
  rw [uprTurn_overwrite _ _ _ _ _ (by omega), hsize] at hact
  cases hact
  exact ⟨rfl, rfl, rfl⟩

/-- The bucket word is zeroed. -/
theorem writeLink_act (h : Annotated StoreSound ObjectSound p)
    {key : Key} {prevNextPtr nextEntry : Nat}
    (hphase : p.phase i = .writeLink key prevNextPtr nextEntry)
    (hact : uprTurn i none (p.phase i) p.shared = some (o, phase, σ')) :
    o = .returned (.del key) (.answer true) ∧ phase = .idle ∧
      σ' = { p.shared with data := setBucket p.shared.data key 0 } := by
  have hown := h.each i
  rw [hphase] at hown hact
  rcases hown with ⟨rfl, rfl⟩
  rw [uprTurn_writeLink] at hact
  cases hact
  exact ⟨rfl, rfl, rfl⟩

/-- A new entry is put into the bucket word. -/
theorem writeBucket_act (h : Annotated StoreSound ObjectSound p)
    {filling : Filling} (hphase : p.phase i = .writeBucket filling)
    (hact : uprTurn i none (p.phase i) p.shared = some (o, phase, σ')) :
    o = .returned filling.op (.answer true) ∧ phase = .idle ∧
      σ' = { p.shared with
        data := setBucket p.shared.data filling.key filling.start
        members := Function.update p.shared.members i
          (p.shared.members i).advance } := by
  have hown := h.each i
  rw [hphase] at hown hact
  have hfills := hown.1
  have hplain := h.common.hosts.plain i
  have hsize := h.common.hosts.size i
  have hsizes := hplain.sizes
  have hentry : (p.shared.members i).entrySize = 328 := by omega
  have hstep : filling.step = some (p.shared.members i).entrySize := by
    rw [hfills.step, hentry]
  rw [uprTurn_writeBucket _ _ hplain hstep] at hact
  cases hact
  exact ⟨rfl, rfl, rfl⟩

/-- Idle objects begin calls, the others do not. -/
theorem op_of_act {phase₀ : UprPhase}
    (hact : uprTurn i op phase₀ σ = some (o, phase, σ')) :
    (phase₀ = .idle ∧ ∃ call, op = some call) ∨
      (phase₀ ≠ .idle ∧ op = none) := by
  cases op with
  | some call =>
      cases phase₀ <;> cases hact
      exact .inl ⟨rfl, call, rfl⟩
  | none =>
      refine .inr ⟨?_, rfl⟩
      rintro rfl
      cases hact

theorem turn_keepsWords (h : Annotated StoreSound ObjectSound p)
    (hact : uprTurn i op (p.phase i) p.shared = some (o, phase, σ')) :
    KeepsWords (p.phase i) p.shared σ' := by
  by_cases hcommits : (p.phase i).commits
  · have hown := h.each i
    have hop : op = none := by
      rcases op_of_act hact with ⟨hidle, _⟩ | ⟨_, hop⟩
      · rw [hidle] at hcommits
        exact hcommits.elim
      · exact hop
    rw [hop] at hact
    cases hphase : p.phase i
    case overwrite call value size entry =>
      obtain ⟨_, _, rfl⟩ := overwrite_act h hphase hact
      rw [hphase] at hown
      exact keepsWords_writeValue h.common hown.2.2.2.1 rfl
    case writeLink key prevNextPtr nextEntry =>
      obtain ⟨_, _, rfl⟩ := writeLink_act h hphase hact
      exact keepsWords_setBucket h.common rfl rfl
    case writeBucket filling =>
      obtain ⟨_, _, rfl⟩ := writeBucket_act h hphase hact
      exact keepsWords_setBucket h.common rfl rfl
    all_goals
      rw [hphase] at hcommits
      exact hcommits.elim
  · exact (turn_sameEntries h hcommits hact).1.keepsWords h.common

/-! ### Deletions go on -/

omit [DecidableEq ι] in
theorem delSound_missing (u : GshmUpr) (search : Search) (m : Bytes) :
    DelSound m (search.missing u).2 := by
  cases search with
  | put key value =>
      simp only [Search.missing]
      split <;> exact trivial
  | _ => exact trivial

omit [DecidableEq ι] in
theorem delSound_visit (u : GshmUpr) (search : Search) (prevNextPtr : Nat)
    (m : Bytes) : DelSound m
      (search.visit u prevNextPtr (bucket m search.key)).2 := by
  unfold Search.visit
  split
  · exact delSound_missing u search m
  · cases search with
    | del key => exact fun _ => rfl
    | _ => exact trivial

/-- What a `del` knows on its way to the entry. -/
theorem delSound_turn (h : Annotated StoreSound CallSound p)
    (hact : uprTurn i op (p.phase i) p.shared = some (o, phase, σ')) :
    DelSound σ'.data phase := by
  have hown := h.each i
  have hobjects := objects_annotated h
  rcases op_of_act hact with ⟨hidle, call, rfl⟩ | ⟨hbusy, rfl⟩
  · rw [hidle] at hact
    have hplain := h.common.hosts.plain i
    cases call with
    | insert key value =>
        by_cases hroom : HasRoom (p.shared.members i)
        · rw [uprTurn_insert_of_room _ _ hplain hroom] at hact
          cases hact
          exact trivial
        · rw [uprTurn_insert_of_full _ _ hplain hroom] at hact
          cases hact
          exact trivial
    | _ =>
        cases hact
        exact trivial
  · cases hphase : p.phase i
    case idle => exact absurd hphase hbusy
    case readBucket search =>
      rw [hphase, uprTurn_readBucket] at hact
      cases hact
      exact delSound_visit _ search _ _
    case compare search prevNextPtr entry =>
      rw [hphase] at hown hact
      rw [uprTurn_compare] at hact
      cases hact
      split
      · rename_i hkey
        cases search with
        | del key => exact ⟨hown.del hkey, hkey⟩
        | _ => exact trivial
      · exact trivial
    case readNext search entry =>
      rw [hphase] at hown hact
      rw [uprTurn_readNext, link_zero h.common search hown.object.2,
        Search.visit, if_pos rfl] at hact
      cases hact
      exact delSound_missing _ search _
    case readSuccessor key prevNextPtr entry =>
      rw [hphase] at hown hact
      rw [uprTurn_readSuccessor] at hact
      cases hact
      rcases hown with ⟨hobject, ⟨hword, hkey⟩, _⟩
      have hbehind := h.common.hosts.blockSet.behind entry hobject.2
      refine ⟨?_, ?_⟩
      · rw [hword]
        omega
      · rw [hword]
        exact hkey
    case overwrite call value size entry =>
      obtain ⟨_, rfl, _⟩ := overwrite_act hobjects hphase hact
      exact trivial
    case writeLink key prevNextPtr nextEntry =>
      obtain ⟨_, rfl, _⟩ := writeLink_act hobjects hphase hact
      exact trivial
    case writeBucket filling =>
      obtain ⟨_, rfl, _⟩ := writeBucket_act hobjects hphase hact
      exact trivial
    all_goals
      rw [hphase] at hact
      cases hact
      exact trivial

omit [DecidableEq ι] in
theorem rightCall_visit (u : GshmUpr) (search : Search)
    (prevNextPtr entry : Nat) :
    RightCall (search.visit u prevNextPtr entry).2 := by
  unfold Search.visit
  split
  · cases search with
    | put key value =>
        simp only [Search.missing]
        split
        · exact trivial
        · exact .inr rfl
    | _ => exact trivial
  · exact trivial

omit [DecidableEq ι] in
theorem rightCall_begin (u : GshmUpr) (call : UprOp) :
    RightCall (beginCall u call).2.1 := by
  cases call with
  | insert key value =>
      simp only [beginCall, beginInsert]
      split
      · split <;> exact .inl rfl
      · split
        · exact trivial
        · exact .inl rfl
  | _ => exact trivial

theorem rightCall_turn {phase₀ : UprPhase} (h : RightCall phase₀)
    (hact : uprTurn i op phase₀ σ = some (o, phase, σ')) :
    RightCall phase := by
  rcases op_of_act hact with ⟨rfl, call, rfl⟩ | ⟨_, rfl⟩
  · cases hact
    exact rightCall_begin _ call
  · obtain ⟨r, haccess, hr⟩ := Option.map_eq_some_iff.mp hact
    cases hr
    cases phase₀ with
    | idle => cases haccess
    | readBucket search =>
        cases haccess
        exact rightCall_visit _ search _ _
    | compare search prevNextPtr entry =>
        simp only [uprAccess] at haccess
        split at haccess
        · cases haccess
          cases search with
          | update key value => exact .inl rfl
          | put key value => exact .inr rfl
          | _ => exact trivial
        · cases haccess
          exact trivial
    | readNext search entry =>
        cases haccess
        exact rightCall_visit _ search _ _
    | writeKey filling | writeValue filling | writeNext filling =>
        cases haccess
        exact h
    | _ =>
        cases haccess
        exact trivial

/-- **Turn lemma**: an undisturbed turn keeps the assertions. -/
theorem turn_callSound (h : Annotated StoreSound CallSound p)
    (hcalm : SparesDeletions p (i, op))
    (hact : uprTurn i op (p.phase i) p.shared = some (o, phase, σ')) :
    TurnSound StoreSound CallSound p i phase σ' := by
  have hsound := uprTurn_sound (objects_annotated h) hact
  have hkeeps := turn_keepsWords (objects_annotated h) hact
  refine ⟨hsound.common, ⟨hsound.own, delSound_turn h hact,
    rightCall_turn (h.each i).right hact⟩, fun j hj =>
      ⟨hsound.others j hj, ?_, (h.each j).right⟩⟩
  refine (h.each j).del.congr h.common (h.each j).object hkeeps.keys ?_
  intro key hunlinks
  exact hkeeps.buckets key fun key' hrelinks =>
    hcalm key' hrelinks j hj key hunlinks

end Deletions

end SHMemora.Ports
