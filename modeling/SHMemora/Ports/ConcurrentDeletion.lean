import SHMemora.Ports.Publication

/-!
# A deletion beside an insertion

One `gshm_upr` object deletes a key while another one inserts a different key,
access by access.  The two meet in one word at most, the bucket word.  A `del`
that finds its key reads this word with its first access and writes it with
its fourth, the successor it has read in between, which is zero; `insert`
writes it with its last access.

`DelStage` follows the deletion, `InsertStage` the insertion.  The deletion is
bound to write, or bound not to, from its first access on (`Unlinks`,
`Passes`), and the bucket write of the insertion can change which of the two
only before that access.

## Main results

* `insert_survives_delete_iff` — when the insertion can be found afterwards.
-/

namespace SHMemora.Ports

open SHMemora.Verified.ByteMemory
open SHMemora.Verified.StepRun
open SHMemora.Verified.ThreadPool

/-! ## What a data area delivers -/

/-- A `get` of the key delivers the 256 bytes of `value`. -/
def Delivers (m : Bytes) (key : Key) (value : Bytes) : Prop :=
  entryOf m key ≠ 0 ∧ ∀ k, k < 256 → valueAt m (entryOf m key) k = value k

section Memory

variable {m m' : Bytes} {key key' : Key} {value : Bytes}

/-- Of two keys of one bucket at most one is stored. -/
theorem entryOf_of_other_stored (hne : key ≠ key')
    (hhome : entryOffset key = entryOffset key') (hstored : entryOf m key ≠ 0) :
    entryOf m key' = 0 := by
  have hkey := (entryOf_eq_bucket hstored).2
  have hbucket : bucket m key' = bucket m key := by
    rw [bucket, bucket, hhome]
  rw [entryOf, hbucket, hkey, if_neg hne]

/-- An emptied bucket. -/
theorem entryOf_emptied (hhome : entryOffset key' = entryOffset key) :
    entryOf (setBucket m key 0) key' = 0 := by
  rw [entryOf, bucket_setBucket (by decide) hhome, ite_self]

variable {block : Nat → Prop} (h : Chained 256 block m)
include h

section Congr

variable (hbucket : bucket m' key = bucket m key)
    (hkeys : ∀ e, block e → keyAt m' e = keyAt m e)
include hbucket hkeys

theorem Chained.entryOf_congr : entryOf m' key = entryOf m key := by
  by_cases hzero : bucket m key = 0
  · rw [entryOf, entryOf, hbucket, hzero, ite_self, ite_self]
  · rw [entryOf, entryOf, hbucket, hkeys _ (h.pointers key hzero)]

theorem Chained.delivers_congr
    (hvalues : ∀ e k, block e → k < 256 → valueAt m' e k = valueAt m e k) :
    Delivers m' key value ↔ Delivers m key value := by
  have hentry := h.entryOf_congr hbucket hkeys
  unfold Delivers
  rw [hentry]
  constructor
  · intro hdelivers
    refine ⟨hdelivers.1, fun k hk => ?_⟩
    rw [← hvalues _ k (h.block_entryOf hdelivers.1) hk]
    exact hdelivers.2 k hk
  · intro hdelivers
    refine ⟨hdelivers.1, fun k hk => ?_⟩
    rw [hvalues _ k (h.block_entryOf hdelivers.1) hk]
    exact hdelivers.2 k hk

end Congr

end Memory

/-! ## The turns of a deletion -/

/-- A `del` of the key that is not going to write. -/
def Passes (key : Key) (m : Bytes) : UprPhase → Prop
  | .idle => True
  | .readBucket search => search = .del key ∧ entryOf m key = 0
  | .compare search _ entry => search = .del key ∧ keyAt m entry ≠ key
  | .readNext search _ => search = .del key
  | _ => False

/-- A `del` of the key that has taken `n` turns and is going to write with its
last one. -/
def Unlinks (key : Key) (m : Bytes) (n : Nat) : UprPhase → Prop
  | .readBucket search => n = 1 ∧ search = .del key ∧ entryOf m key ≠ 0
  | .compare search _ entry => n = 2 ∧ search = .del key ∧ keyAt m entry = key
  | .readSuccessor key' _ _ => n = 3 ∧ key' = key
  | .writeLink key' _ _ => n = 4 ∧ key' = key
  | _ => False

section Turns

variable {ι : Type} [DecidableEq ι] {p : UprPool ι} {i : ι} {phase : UprPhase}
    {o : UprEvent} {σ' : UprShared ι} {key : Key}
    (h : Annotated StoreSound ObjectSound p)
include h

theorem turn_passes (hpass : Passes key p.shared.data (p.phase i))
    (hact : uprTurn i none (p.phase i) p.shared = some (o, phase, σ')) :
    σ' = p.shared ∧ Passes key p.shared.data phase := by
  have hown := h.each i
  cases hphase : p.phase i <;> rw [hphase] at hpass hown hact
  case idle => cases hact
  case readBucket search =>
    rcases hpass with ⟨rfl, habsent⟩
    rw [uprTurn_readBucket] at hact
    cases hact
    refine ⟨rfl, ?_⟩
    unfold Search.visit
    split
    · exact trivial
    · rename_i hne
      refine ⟨rfl, fun hkey => hne ?_⟩
      have hentry : entryOf p.shared.data key = bucket p.shared.data key :=
        if_pos hkey
      exact hentry.symm.trans habsent
  case compare search prevNextPtr entry =>
    rcases hpass with ⟨rfl, hother⟩
    rw [uprTurn_compare, if_neg (show _ ≠ (Search.del key).key from hother)]
      at hact
    cases hact
    exact ⟨rfl, rfl⟩
  case readNext search entry =>
    cases hpass
    rw [uprTurn_readNext, link_zero h.common _ hown.2, Search.visit,
      if_pos rfl] at hact
    cases hact
    exact ⟨rfl, trivial⟩
  all_goals cases hpass

theorem turn_unlinks {n : Nat}
    (hunlinks : Unlinks key p.shared.data n (p.phase i))
    (hact : uprTurn i none (p.phase i) p.shared = some (o, phase, σ')) :
    (σ' = p.shared ∧ Unlinks key p.shared.data (n + 1) phase) ∨
      (n = 4 ∧ phase = .idle ∧
        σ' = { p.shared with data := setBucket p.shared.data key 0 }) := by
  have hown := h.each i
  cases hphase : p.phase i <;> rw [hphase] at hunlinks hown hact
  case readBucket search =>
    rcases hunlinks with ⟨rfl, rfl, hstored⟩
    have hentry := entryOf_eq_bucket hstored
    rw [hentry.1] at hstored
    rw [uprTurn_readBucket] at hact
    cases hact
    left
    refine ⟨rfl, ?_⟩
    unfold Search.visit
    split
    · rename_i hzero
      exact absurd hzero hstored
    · exact ⟨rfl, rfl, hentry.2⟩
  case compare search prevNextPtr entry =>
    rcases hunlinks with ⟨rfl, rfl, hkey⟩
    rw [uprTurn_compare, if_pos (show _ = (Search.del key).key from hkey)]
      at hact
    cases hact
    exact .inl ⟨rfl, rfl, rfl⟩
  case readSuccessor key' prevNextPtr entry =>
    rcases hunlinks with ⟨rfl, rfl⟩
    rw [uprTurn_readSuccessor] at hact
    cases hact
    exact .inl ⟨rfl, rfl, rfl⟩
  case writeLink key' prevNextPtr nextEntry =>
    rcases hunlinks with ⟨rfl, rfl⟩
    rcases hown with ⟨rfl, rfl⟩
    rw [uprTurn_writeLink] at hact
    cases hact
    exact .inr ⟨rfl, rfl, rfl⟩
  all_goals cases hunlinks

end Turns

/-! ## The turns of an insertion -/

/-- What `insert` fills in the block at `start`. -/
def newEntry (key : Key) (value : Bytes) (start : Nat) : Filling :=
  ⟨.insert key value, key, value, start, 256, some 328⟩

/-- Where an insertion is after `n` turns. -/
def Filling.phase (filling : Filling) : Nat → UprPhase
  | 1 => .writeKey filling
  | 2 => .writeValue filling
  | 3 => .writeNext filling
  | 4 => .writeBucket filling
  | _ => .idle

section Insertion

variable {ι : Type} {σ σ' : UprShared ι} {i : ι} {filling : Filling}

/-- No entry changes, and none is linked or unlinked. -/
structure SameEntries (σ σ' : UprShared ι) : Prop where
  buckets : ∀ key, bucket σ'.data key = bucket σ.data key
  entries : ∀ e, Allocated σ.members e → Agree σ.data σ'.data e 328

variable [DecidableEq ι]

/-- What is written into the next block of an object is no entry yet. -/
theorem sameEntries_fill (h : StoreSound σ) (hfills : Fills i filling σ)
    {off size : Nat} (hlo : filling.start ≤ off)
    (hhi : off + size ≤ filling.start + 328) (buf : Bytes)
    (written : List (EntryField × Nat)) :
    SameEntries σ
      { σ with data := store σ.data off buf size, written := written } := by
  have hset := h.hosts.blockSet_next hfills.room
  have hnew := h.hosts.not_allocated_next hfills.room
  rw [← hfills.start] at hset hnew
  have hend := hset.end_le _ (.inr rfl)
  have hbehind := hset.behind _ (.inr rfl)
  constructor
  · intro key
    apply bucket_congr
    exact agree_store (by omega) (apart_bucket_of_behind (by omega) key)
  · intro e he
    have hapart := hset.apart e _ (.inl he) (.inr rfl)
      fun heq => hnew (heq ▸ he)
    apply agree_store (by omega)
    unfold Apart at hapart ⊢
    omega

variable {p : UprPool ι} {phase : UprPhase} {o : UprEvent}
    (h : Annotated StoreSound ObjectSound p)
include h

/-- An insertion that has begun, up to its bucket write. -/
theorem turn_inserts {n : Nat} (hpos : 1 ≤ n) (hn : n < 4)
    (hphase : p.phase i = filling.phase n)
    (hact : uprTurn i none (p.phase i) p.shared = some (o, phase, σ')) :
    phase = filling.phase (n + 1) ∧ SameEntries p.shared σ' := by
  have hown := h.each i
  rw [hphase] at hown hact
  have hcases : n = 1 ∨ n = 2 ∨ n = 3 := by omega
  rcases hcases with rfl | rfl | rfl
  · have hfills : Fills i filling p.shared := hown
    have hle := hfills.end_le h.common.hosts
    rw [Filling.phase, uprTurn_writeKey _ _ (by omega)] at hact
    cases hact
    exact ⟨rfl, sameEntries_fill h.common hfills (by omega) (by omega) _ _⟩
  · have hfills : Fills i filling p.shared := hown.1
    have hle := hfills.end_le h.common.hosts
    have hsize := hfills.valueSize
    rw [Filling.phase, uprTurn_writeValue _ _ (by omega)] at hact
    cases hact
    exact ⟨rfl, sameEntries_fill h.common hfills (by omega) (by omega) _ _⟩
  · have hfills : Fills i filling p.shared := hown.1
    have hle := hfills.end_le h.common.hosts
    have hsize := hfills.valueSize
    rw [Filling.phase, uprTurn_writeNext _ _ (by omega)] at hact
    cases hact
    exact ⟨rfl, sameEntries_fill h.common hfills (by omega) (by omega) _ _⟩

/-- The bucket write of an insertion. -/
theorem turn_links {key : Key} {value : Bytes} {start : Nat}
    (hphase : p.phase i = .writeBucket (newEntry key value start))
    (hact : uprTurn i none (p.phase i) p.shared = some (o, phase, σ')) :
    phase = .idle ∧ σ'.data = setBucket p.shared.data key start ∧
      Delivers σ'.data key value ∧
      ∀ e, Allocated p.shared.members e →
        Agree p.shared.data σ'.data e 328 := by
  have hown := h.each i
  rw [hphase] at hown hact
  rcases hown with ⟨hfills, hkey, hvalue, _⟩
  have hplain := h.common.hosts.plain i
  have hsize := h.common.hosts.size i
  have hsizes := hplain.sizes
  have hentry : (p.shared.members i).entrySize = 328 := by omega
  have hstep : (newEntry key value start).step =
      some (p.shared.members i).entrySize := by
    rw [hentry]
    rfl
  have hset := h.common.hosts.blockSet_next hfills.room
  rw [← hfills.start] at hset
  have hbehind := hset.behind start (.inr rfl)
  have hend := hset.end_le start (.inr rfl)
  have hagree : ∀ e, Allocated p.shared.members e ∨ e = start →
      Agree p.shared.data (setBucket p.shared.data key start) e 328 :=
    fun e he => hset.agree_setBucket he key start
  have hlinked : entryOf (setBucket p.shared.data key start) key = start := by
    rw [entryOf, bucket_setBucket (by omega) rfl]
    apply if_pos
    rw [keyAt_congr (by omega)
      ((hagree start (.inr rfl)).mono (Nat.le_refl _) (by omega))]
    exact hkey.1
  rw [uprTurn_writeBucket _ _ hplain hstep] at hact
  cases hact
  refine ⟨rfl, rfl, ⟨?_, fun k hk => ?_⟩, fun e he => hagree e (.inl he)⟩
  · show entryOf (setBucket p.shared.data key start) key ≠ 0
    rw [hlinked]
    omega
  · show valueAt (setBucket p.shared.data key start)
      (entryOf (setBucket p.shared.data key start) key) k = value k
    rw [hlinked, valueAt, hagree start (.inr rfl) _ (by omega) (by omega)]
    exact hvalue.1 k hk

end Insertion

/-! ## What a deletion sees of an insertion -/

theorem Unlinks.bounds {key : Key} {m : Bytes} {n : Nat} {phase : UprPhase}
    (h : Unlinks key m n phase) : 1 ≤ n ∧ n ≤ 4 := by
  cases phase with
  | readBucket | compare | readSuccessor | writeLink =>
      have hn := h.1
      omega
  | _ => cases h

/-- A deletion that has not read the bucket word misses a key that is gone. -/
theorem Unlinks.passes {key : Key} {m m' : Bytes} {phase : UprPhase}
    (h : Unlinks key m 1 phase) (habsent : entryOf m' key = 0) :
    Passes key m' phase := by
  cases phase with
  | readBucket search => exact ⟨h.2.1, habsent⟩
  | compare | readSuccessor | writeLink => cases h.1
  | _ => cases h

section Seen

variable {ι : Type} {σ : UprShared ι} {i : ι} {phase : UprPhase} {key : Key}
    {m : Bytes} (hown : ObjectSound i phase σ)
    (hkeys : ∀ e, Allocated σ.members e → keyAt m e = keyAt σ.data e)
include hown hkeys

theorem Passes.congr (h : Passes key σ.data phase)
    (habsent : entryOf σ.data key = 0 → entryOf m key = 0) :
    Passes key m phase := by
  cases phase with
  | readBucket search => exact ⟨h.1, habsent h.2⟩
  | compare search prevNextPtr entry =>
      refine ⟨h.1, ?_⟩
      rw [hkeys entry hown.2.2]
      exact h.2
  | _ => exact h

theorem Unlinks.congr {n : Nat} (h : Unlinks key σ.data n phase)
    (hstored : n = 1 → entryOf σ.data key ≠ 0 → entryOf m key ≠ 0) :
    Unlinks key m n phase := by
  cases phase with
  | readBucket search => exact ⟨h.1, h.2.1, hstored h.1 h.2.2⟩
  | compare search prevNextPtr entry =>
      refine ⟨h.1, h.2.1, ?_⟩
      rw [hkeys entry hown.2.2]
      exact h.2.2
  | _ => exact h

end Seen

/-! ## The two calls together -/

section Stages

variable (m₀ : Bytes) (key key' : Key) (value : Bytes) (c : Nat)

/-- An insertion of `key'` whose bucket write comes after `c` turns of a
deletion of `key` is undone. -/
def Undone : Prop :=
  entryOffset key = entryOffset key' ∧ entryOf m₀ key ≠ 0 ∧ 2 ≤ c ∧ c ≤ 4

/-- After `b` turns of the insertion its key is to be found if the bucket word
has been written, and as it was before if not. -/
def Intact (b : Nat) (m : Bytes) : Prop :=
  Delivers m key' value ↔ b = 5 ∨ Delivers m₀ key' value

/-- The same, unless the insertion has been undone. -/
def Concluded (b : Nat) (m : Bytes) : Prop :=
  Delivers m key' value ↔
    (b = 5 ∧ ¬ Undone m₀ key key' c) ∨ (b ≠ 5 ∧ Delivers m₀ key' value)

/-- A deletion that has taken `a` turns while an insertion has taken `b`, from
the data area `m₀` on.  The fifth turn of the insertion, its bucket write, has
come or is to come after `c` turns of the deletion. -/
inductive DelStage : Nat → Nat → UprPhase → Bytes → Prop
  | waiting {b : Nat} {m : Bytes}
      (before : b ≠ 5 → entryOf m key = entryOf m₀ key)
      (after : b = 5 → c = 0)
      (intact : Intact m₀ key' value b m) : DelStage 0 b .idle m
  | passing {a b : Nat} {phase : UprPhase} {m : Bytes} (begun : 0 < a)
      (passes : Passes key m phase)
      (before : b ≠ 5 → entryOf m₀ key = 0)
      (after : b = 5 → ¬ Undone m₀ key key' c)
      (intact : Intact m₀ key' value b m) : DelStage a b phase m
  | unlinking {a b : Nat} {phase : UprPhase} {m : Bytes}
      (unlinks : Unlinks key m a phase)
      (before : b ≠ 5 → entryOf m key = entryOf m₀ key ∧ entryOf m key ≠ 0)
      (after : b = 5 → c ≤ a ∧ (entryOffset key = entryOffset key' →
        entryOf m₀ key ≠ 0 ∧ 2 ≤ c))
      (intact : Intact m₀ key' value b m) : DelStage a b phase m
  | done {b : Nat} {m : Bytes}
      (concluded : Concluded m₀ key key' value c b m) :
      DelStage 5 b .idle m

variable {m₀ key key' value c}

theorem Intact.concluded {b : Nat} {m : Bytes}
    (h : Intact m₀ key' value b m)
    (hkept : b = 5 → ¬ Undone m₀ key key' c) :
    Concluded m₀ key key' value c b m := by
  unfold Intact at h
  unfold Concluded
  rw [h]
  by_cases hb : b = 5
  · simp [hb, hkept hb]
  · simp [hb]

/-- A deletion that is over. -/
theorem DelStage.concluded {a b : Nat} {m : Bytes}
    (h : DelStage m₀ key key' value c a b .idle m) (ha : a ≠ 0) :
    Concluded m₀ key key' value c b m := by
  cases h with
  | waiting => exact absurd rfl ha
  | passing _ _ _ after intact => exact intact.concluded after
  | unlinking unlinks => cases unlinks
  | done concluded => exact concluded

/-- A deletion begins. -/
theorem DelStage.begin {b : Nat} {m : Bytes} (hne : key ≠ key')
    (h : DelStage m₀ key key' value c 0 b .idle m) :
    DelStage m₀ key key' value c 1 b (.readBucket (.del key)) m := by
  cases h with
  | passing begun => cases begun
  | unlinking unlinks => cases unlinks
  | waiting before after intact =>
      by_cases hstored : entryOf m key = 0
      · refine .passing (by decide) ⟨rfl, hstored⟩ (fun hb => ?_)
          (fun hb hundone => ?_) intact
        · rw [← before hb]
          exact hstored
        · have hzero := after hb
          have hle := hundone.2.2.1
          omega
      · refine .unlinking ⟨rfl, rfl, hstored⟩ (fun hb => ?_) (fun hb => ?_)
          intact
        · exact ⟨before hb, hstored⟩
        · have hzero := after hb
          refine ⟨by omega, fun hhome => ?_⟩
          -- the bucket holds the new entry, hence not the key
          have hdelivers := intact.mpr (.inl hb)
          exact absurd (entryOf_of_other_stored hne hhome hstored) hdelivers.1

section Effects

variable {ι : Type} {σ σ' : UprShared ι} {i : ι} {a b : Nat}
    {phase : UprPhase} (hstore : StoreSound σ)
include hstore

/-- The unlinking of a key as another key sees it. -/
theorem delivers_unlinked (hhome : entryOffset key ≠ entryOffset key')
    (value : Bytes) :
    Delivers (setBucket σ.data key 0) key' value ↔
      Delivers σ.data key' value := by
  have hset := hstore.hosts.blockSet
  refine hstore.chained.delivers_congr
    (bucket_setBucket_of_ne (Ne.symm hhome)) (fun e he => ?_)
    (fun e k he hk => ?_)
  · have hle := hset.end_le e he
    exact keyAt_congr (by omega)
      ((hset.agree_setBucket he key 0).mono (Nat.le_refl _) (by omega))
  · exact hset.agree_setBucket he key 0 _ (by omega) (by omega)

/-- The bucket write of a deletion. -/
theorem Intact.unlinked (hne : key ≠ key')
    (before : b ≠ 5 → entryOf σ.data key ≠ 0)
    (after : b = 5 → c ≤ 4 ∧ (entryOffset key = entryOffset key' →
      entryOf m₀ key ≠ 0 ∧ 2 ≤ c))
    (h : Intact m₀ key' value b σ.data) :
    Concluded m₀ key key' value c b (setBucket σ.data key 0) := by
  by_cases hhome : entryOffset key = entryOffset key'
  · have hlost : ¬ Delivers (setBucket σ.data key 0) key' value :=
      fun hdelivers => hdelivers.1 (entryOf_emptied hhome.symm)
    unfold Concluded
    by_cases hb : b = 5
    · have hafter := after hb
      have hundone : Undone m₀ key key' c :=
        ⟨hhome, (hafter.2 hhome).1, (hafter.2 hhome).2, hafter.1⟩
      simp [hlost, hb, hundone]
    · have habsent := entryOf_of_other_stored hne hhome (before hb)
      have hbefore : ¬ Delivers m₀ key' value :=
        fun hdelivers => (h.mpr (.inr hdelivers)).1 habsent
      simp [hlost, hb, hbefore]
  · have hsame := delivers_unlinked hstore hhome value
    have hconcluded : Concluded m₀ key key' value c b σ.data :=
      h.concluded fun _ hundone => hhome hundone.1
    unfold Concluded at hconcluded ⊢
    rw [hsame]
    exact hconcluded

theorem SameEntries.keyAt_eq (hsame : SameEntries σ σ') {e : Nat}
    (he : Allocated σ.members e) : keyAt σ'.data e = keyAt σ.data e := by
  have hle := hstore.end_le he
  exact keyAt_congr (by omega)
    ((hsame.entries e he).mono (Nat.le_refl _) (by omega))

theorem SameEntries.entryOf_eq (hsame : SameEntries σ σ') (k : Key) :
    entryOf σ'.data k = entryOf σ.data k :=
  hstore.chained.entryOf_congr (hsame.buckets k)
    fun _ he => hsame.keyAt_eq hstore he

theorem SameEntries.intact {b' : Nat} (hsame : SameEntries σ σ')
    (hb : b' = 5 ↔ b = 5) (h : Intact m₀ key' value b σ.data) :
    Intact m₀ key' value b' σ'.data := by
  unfold Intact at h ⊢
  rw [hb, ← h]
  exact hstore.chained.delivers_congr (hsame.buckets key')
    (fun _ he => hsame.keyAt_eq hstore he)
    fun e k he hk => hsame.entries e he _ (by omega) (by omega)

/-- A turn of the insertion before the bucket write. -/
theorem DelStage.other (hown : ObjectSound i phase σ)
    (hsame : SameEntries σ σ') {b' : Nat} (hb : b ≠ 5) (hb' : b' ≠ 5)
    (h : DelStage m₀ key key' value c a b phase σ.data) :
    DelStage m₀ key key' value c a b' phase σ'.data := by
  have hlinked : b' = 5 ↔ b = 5 := by simp [hb, hb']
  have hkeys : ∀ e, Allocated σ.members e → keyAt σ'.data e = keyAt σ.data e :=
    fun e he => hsame.keyAt_eq hstore he
  have hentry := hsame.entryOf_eq hstore key
  cases h with
  | waiting before after intact =>
      refine .waiting (fun _ => ?_) (fun h5 => absurd h5 hb')
        (hsame.intact hstore hlinked intact)
      rw [hentry]
      exact before hb
  | passing begun passes before after intact =>
      refine .passing begun (passes.congr hown hkeys fun habsent => ?_)
        (fun _ => before hb) (fun h5 => absurd h5 hb')
        (hsame.intact hstore hlinked intact)
      rw [hentry]
      exact habsent
  | unlinking unlinks before after intact =>
      refine .unlinking (unlinks.congr hown hkeys fun _ hstored => ?_)
        (fun _ => ?_) (fun h5 => absurd h5 hb')
        (hsame.intact hstore hlinked intact)
      · rw [hentry]
        exact hstored
      · rw [hentry]
        exact before hb
  | done concluded =>
      refine .done ?_
      have hintact : Intact m₀ key' value b σ.data := by
        unfold Concluded at concluded
        unfold Intact
        simpa [hb] using concluded
      exact (hsame.intact hstore hlinked hintact).concluded
        fun h5 => absurd h5 hb'

/-- The bucket write of the insertion. -/
theorem DelStage.link (hown : ObjectSound i phase σ) {start : Nat}
    (hdata : σ'.data = setBucket σ.data key' start)
    (hdelivers : Delivers σ'.data key' value)
    (hagree : ∀ e, Allocated σ.members e → Agree σ.data σ'.data e 328)
    (hne : key ≠ key')
    (h : DelStage m₀ key key' value a a 4 phase σ.data) :
    DelStage m₀ key key' value a a 5 phase σ'.data := by
  have hintact : Intact m₀ key' value 5 σ'.data :=
    ⟨fun _ => .inl rfl, fun _ => hdelivers⟩
  have hkeys : ∀ e, Allocated σ.members e →
      keyAt σ'.data e = keyAt σ.data e := by
    intro e he
    have hle := hstore.end_le he
    exact keyAt_congr (by omega)
      ((hagree e he).mono (Nat.le_refl _) (by omega))
  have hhere : entryOffset key = entryOffset key' →
      entryOf σ'.data key = 0 :=
    fun hhome => entryOf_of_other_stored (Ne.symm hne) hhome.symm hdelivers.1
  have hother : entryOffset key ≠ entryOffset key' →
      entryOf σ'.data key = entryOf σ.data key := by
    intro hhome
    refine hstore.chained.entryOf_congr ?_ hkeys
    rw [hdata]
    exact bucket_setBucket_of_ne hhome
  cases h with
  | waiting before after intact =>
      exact .waiting (fun h5 => absurd rfl h5) (fun _ => rfl) hintact
  | passing begun passes before after intact =>
      refine .passing begun (passes.congr hown hkeys fun habsent => ?_)
        (fun h5 => absurd rfl h5) (fun _ hundone => ?_) hintact
      · by_cases hhome : entryOffset key = entryOffset key'
        · exact hhere hhome
        · rw [hother hhome]
          exact habsent
      · exact hundone.2.1 (before (by decide))
  | done concluded =>
      refine .done (hintact.concluded fun _ hundone => ?_)
      have hle := hundone.2.2.2
      omega
  | unlinking unlinks before after intact =>
      have hstored := before (by decide)
      by_cases hhome : entryOffset key = entryOffset key'
      · have hbounds := unlinks.bounds
        by_cases ha : a = 1
        · -- the deletion has not read the bucket word and will miss its key
          subst ha
          refine .passing (by decide) (unlinks.passes (hhere hhome))
            (fun h5 => absurd rfl h5) (fun _ hundone => ?_) hintact
          have hle := hundone.2.2.1
          omega
        · refine .unlinking (unlinks.congr hown hkeys fun h1 => absurd h1 ha)
            (fun h5 => absurd rfl h5) (fun _ => ?_) hintact
          refine ⟨Nat.le_refl _, fun _ => ⟨?_, by omega⟩⟩
          rw [← hstored.1]
          exact hstored.2
      · refine .unlinking (unlinks.congr hown hkeys fun _ hne => ?_)
          (fun h5 => absurd rfl h5) (fun _ => ?_) hintact
        · rw [hother hhome]
          exact hne
        · exact ⟨Nat.le_refl _, fun heq => absurd heq hhome⟩

end Effects

/-- A turn of the deletion. -/
theorem DelStage.turn {ι : Type} [DecidableEq ι] {p : UprPool ι} {i : ι}
    {a b : Nat} {phase phase' : UprPhase} {o : UprEvent} {σ' : UprShared ι}
    (h : Annotated StoreSound ObjectSound p) (hne : key ≠ key') (ha : a ≠ 0)
    (hphase : p.phase i = phase)
    (hact : uprTurn i none phase p.shared = some (o, phase', σ'))
    (hstage : DelStage m₀ key key' value c a b phase p.shared.data) :
    DelStage m₀ key key' value c (a + 1) b phase' σ'.data ∧
      σ'.members = p.shared.members := by
  cases hstage with
  | waiting => exact absurd rfl ha
  | done => cases hact
  | passing begun passes before after intact =>
      rw [← hphase] at passes hact
      obtain ⟨rfl, hnext⟩ := turn_passes h passes hact
      exact ⟨.passing (Nat.succ_pos _) hnext before after intact, rfl⟩
  | unlinking unlinks before after intact =>
      rw [← hphase] at unlinks hact
      rcases turn_unlinks h unlinks hact with ⟨rfl, hnext⟩ | ⟨rfl, rfl, rfl⟩
      · refine ⟨.unlinking hnext before (fun hb => ?_) intact, rfl⟩
        have hafter := after hb
        exact ⟨by omega, hafter.2⟩
      · exact ⟨.done (intact.unlinked h.common hne
          (fun hb => (before hb).2) after), rfl⟩

end Stages

/-! ## Schedules -/

section Schedules

variable {ι : Type}

/-- Two objects take turns; `call` is the call object `i` has still to begin,
`call'` that of object `j`. -/
def Interleaves (i j : ι) :
    Option UprOp → Option UprOp → List (ι × Option UprOp) → Prop
  | call, call', [] => call = none ∧ call' = none
  | call, call', turn :: turns =>
      (turn = (i, call) ∧ Interleaves i j none call' turns) ∨
        (turn = (j, call') ∧ Interleaves i j call none turns)

variable [DecidableEq ι]

/-- How many turns the others take before object `j` has taken `n` turns and
takes another one. -/
def turnsBefore (j : ι) : Nat → List (ι × Option UprOp) → Nat
  | _, [] => 0
  | 0, turn :: turns => if turn.1 = j then 0 else turnsBefore j 0 turns + 1
  | n + 1, turn :: turns =>
      if turn.1 = j then turnsBefore j n turns
      else turnsBefore j (n + 1) turns + 1

/-- The insertion of object `j` writes the bucket word, with its fifth turn,
after the deletion has read it, with its second turn, and before the deletion
writes it, with its fifth. -/
def LinksBetween (j : ι) (turns : List (ι × Option UprOp)) : Prop :=
  2 ≤ turnsBefore j 4 turns ∧ turnsBefore j 4 turns ≤ 4

theorem turnsBefore_cons_of_ne {j : ι} {turn : ι × Option UprOp}
    (hne : turn.1 ≠ j) (n : Nat) (turns : List (ι × Option UprOp)) :
    turnsBefore j n (turn :: turns) = turnsBefore j n turns + 1 := by
  cases n with
  | zero => exact if_neg hne
  | succ n => exact if_neg hne

/-- An insertion into a block at `filling.start` after `b` turns. -/
inductive InsertStage (room : Prop) (filling : Filling) :
    Nat → UprPhase → Prop
  | waiting : InsertStage room filling 0 .idle
  | refused (full : ¬ room) : InsertStage room filling 1 .idle
  | underway {b : Nat} (fits : room) (begun : 1 ≤ b) (le : b ≤ 5) :
      InsertStage room filling b (filling.phase b)

/-- The two calls after `a` and `b` turns, with `turns` to come.  `obj` is the
inserting object at the beginning. -/
structure Race (obj : Instance) (m₀ : Bytes) (key key' : Key) (value : Bytes)
    (c : Nat) (i j : ι) (a b : Nat) (p : UprPool ι)
    (turns : List (ι × Option UprOp)) : Prop where
  sound : Annotated StoreSound ObjectSound p
  deletion : DelStage m₀ key key' value c a b (p.phase i) p.shared.data
  insertion : InsertStage (HasRoom obj)
    (newEntry key' value obj.nextFreeOffset) b (p.phase j)
  member : b = 0 → p.shared.members j = obj
  order : Interleaves i j (if a = 0 then some (.del key) else none)
    (if b = 0 then some (.insert key' value) else none) turns
  count : HasRoom obj → b ≠ 5 → c = a + turnsBefore j (4 - b) turns

namespace Race

variable {obj : Instance} {m₀ : Bytes} {key key' : Key} {value : Bytes}
    {c : Nat} {i j : ι} {a b : Nat} {p p' : UprPool ι}
    {turns : List (ι × Option UprOp)} {o : UprEvent}

/-- The deletion takes a turn. -/
theorem del_turn (hij : i ≠ j) (hne : key ≠ key') {call : Option UprOp}
    (hcall : call = if a = 0 then some (.del key) else none)
    (h : Race obj m₀ key key' value c i j a b p ((i, call) :: turns))
    (horder : Interleaves i j none
      (if b = 0 then some (.insert key' value) else none) turns)
    (hstep : uprPoolStep p (i, call) = some (o, p')) :
    Race obj m₀ key key' value c i j (a + 1) b p' turns := by
  obtain ⟨phase, σ', hact, rfl⟩ := poolStep_eq_some_iff.mp hstep
  have hother : (p.advance i phase σ').phase j = p.phase j :=
    Pool.advance_phase_of_ne p (Ne.symm hij) ..
  have hnext : DelStage m₀ key key' value c (a + 1) b phase σ'.data ∧
      σ'.members = p.shared.members := by
    have hstage := h.deletion
    by_cases ha : a = 0
    · subst ha
      rw [if_pos rfl] at hcall
      cases hcall
      have hidle : p.phase i = .idle := by
        generalize p.phase i = place at hstage
        cases hstage with
        | waiting => rfl
        | passing begun => cases begun
        | unlinking unlinks =>
            have hbounds := unlinks.bounds
            omega
      rw [hidle] at hstage hact
      have hbegin := uprTurn_begin p.shared i (.del key)
      cases hbegin.symm.trans hact
      exact ⟨hstage.begin hne, rfl⟩
    · rw [if_neg ha] at hcall
      cases hcall
      exact hstage.turn h.sound hne ha rfl hact
  refine ⟨Annotated.advance (uprTurn_sound h.sound hact), ?_, ?_,
    fun hb => ?_, ?_, fun hroom hb => ?_⟩
  · rw [Pool.advance_phase_self]
    exact hnext.1
  · rw [hother]
    exact h.insertion
  · show σ'.members j = obj
    rw [hnext.2]
    exact h.member hb
  · rw [if_neg (Nat.succ_ne_zero a)]
    exact horder
  · have hcount := h.count hroom hb
    rw [turnsBefore_cons_of_ne hij] at hcount
    omega

/-- The insertion begins. -/
theorem insert_begin (hij : i ≠ j)
    (h : Race obj m₀ key key' value c i j a 0 p
      ((j, some (.insert key' value)) :: turns))
    (horder : Interleaves i j (if a = 0 then some (.del key) else none) none
      turns)
    (hstep : uprPoolStep p (j, some (.insert key' value)) = some (o, p')) :
    Race obj m₀ key key' value c i j a 1 p' turns := by
  obtain ⟨phase, σ', hact, rfl⟩ := poolStep_eq_some_iff.mp hstep
  have hother : (p.advance j phase σ').phase i = p.phase i :=
    Pool.advance_phase_of_ne p hij ..
  have hmember := h.member rfl
  have hplain := h.sound.common.hosts.plain j
  have hsound := Annotated.advance (uprTurn_sound h.sound hact)
  have hidle : p.phase j = .idle := by
    have hstage := h.insertion
    generalize p.phase j = place at hstage
    cases hstage with
    | waiting => rfl
    | underway fits begun => exact absurd begun (by decide)
  have hdone : σ'.data = p.shared.data ∧
      InsertStage (HasRoom obj) (newEntry key' value obj.nextFreeOffset) 1
        phase := by
    rw [hidle] at hact
    by_cases hroom : HasRoom obj
    · have hsize := h.sound.common.hosts.size j
      have hsizes := hplain.sizes
      have hbegin := uprTurn_insert_of_room p.shared j hplain
        (by rw [hmember]; exact hroom) key' value
      rw [hsizes, hsize, hmember] at hbegin
      cases hbegin.symm.trans hact
      exact ⟨rfl, .underway hroom (by decide) (by decide)⟩
    · have hbegin := uprTurn_insert_of_full p.shared j hplain
        (by rw [hmember]; exact hroom) key' value
      cases hbegin.symm.trans hact
      exact ⟨rfl, .refused hroom⟩
  have hsame : SameEntries p.shared σ' := by
    constructor
    · intro k
      rw [hdone.1]
    · intro e _
      rw [hdone.1]
      exact Agree.refl _ _ _
  refine ⟨hsound, ?_, ?_, fun hb => absurd hb (by decide), horder,
    fun hroom hb => ?_⟩
  · rw [hother]
    exact h.deletion.other h.sound.common (h.sound.each i) hsame (by decide)
      (by decide)
  · rw [Pool.advance_phase_self]
    exact hdone.2
  · have hcount := h.count hroom (by decide)
    rw [turnsBefore, if_pos rfl] at hcount
    exact hcount

/-- The insertion goes on. -/
theorem insert_turn (hij : i ≠ j) (hne : key ≠ key') (hb : b ≠ 0)
    (h : Race obj m₀ key key' value c i j a b p ((j, none) :: turns))
    (horder : Interleaves i j (if a = 0 then some (.del key) else none) none
      turns)
    (hstep : uprPoolStep p (j, none) = some (o, p')) :
    Race obj m₀ key key' value c i j a (b + 1) p' turns := by
  obtain ⟨phase, σ', hact, rfl⟩ := poolStep_eq_some_iff.mp hstep
  have hother : (p.advance j phase σ').phase i = p.phase i :=
    Pool.advance_phase_of_ne p hij ..
  have hsound := Annotated.advance (uprTurn_sound h.sound hact)
  have hunder : HasRoom obj ∧ b ≤ 5 ∧ p.phase j =
      (newEntry key' value obj.nextFreeOffset).phase b := by
    have hstage := h.insertion
    generalize p.phase j = place at hstage hact
    cases hstage with
    | waiting => exact absurd rfl hb
    | refused full => cases hact
    | underway fits begun le => exact ⟨fits, le, rfl⟩
  obtain ⟨hroom, hle, hphase⟩ := hunder
  have hb5 : b ≠ 5 := by
    intro hb5
    rw [hphase, hb5] at hact
    cases hact
  have hcount := h.count hroom hb5
  have hdone : DelStage m₀ key key' value c a (b + 1) (p.phase i) σ'.data ∧
      phase = (newEntry key' value obj.nextFreeOffset).phase (b + 1) := by
    by_cases hlast : b = 4
    · subst hlast
      rw [turnsBefore, if_pos rfl, Nat.add_zero] at hcount
      subst hcount
      obtain ⟨hidle, hdata, hdelivers, hagree⟩ := turn_links h.sound hphase hact
      exact ⟨h.deletion.link h.sound.common (h.sound.each i) hdata hdelivers
        hagree hne, hidle⟩
    · obtain ⟨hnext, hsame⟩ :=
        turn_inserts h.sound (by omega) (by omega) hphase hact
      exact ⟨h.deletion.other h.sound.common (h.sound.each i) hsame hb5
        (by omega), hnext⟩
  refine ⟨hsound, ?_, ?_, fun hzero => absurd hzero (Nat.succ_ne_zero b), ?_,
    fun _ hb' => ?_⟩
  · rw [hother]
    exact hdone.1
  · rw [Pool.advance_phase_self, hdone.2]
    exact .underway hroom (by omega) (by omega)
  · rw [if_neg (Nat.succ_ne_zero b)]
    exact horder
  · have hleft : 4 - b = (4 - (b + 1)) + 1 := by omega
    rw [hleft, turnsBefore, if_pos rfl] at hcount
    exact hcount

/-- **Step lemma**: one of the two takes a turn. -/
theorem step (hij : i ≠ j) (hne : key ≠ key') {turn : ι × Option UprOp}
    (h : Race obj m₀ key key' value c i j a b p (turn :: turns))
    (hstep : uprPoolStep p turn = some (o, p')) :
    ∃ a' b', Race obj m₀ key key' value c i j a' b' p' turns := by
  rcases h.order with ⟨rfl, horder⟩ | ⟨rfl, horder⟩
  · exact ⟨a + 1, b, del_turn hij hne rfl h horder hstep⟩
  · by_cases hb : b = 0
    · subst hb
      exact ⟨a, 1, insert_begin hij h horder hstep⟩
    · rw [if_neg hb] at h hstep
      exact ⟨a, b + 1, insert_turn hij hne hb h horder hstep⟩

/-- **Run lemma**: until both calls have taken all their turns. -/
theorem finish (hij : i ≠ j) (hne : key ≠ key')
    (h : Race obj m₀ key key' value c i j a b p turns)
    {events : List UprEvent}
    (hrun : run uprPoolStep p turns = some (events, p')) :
    ∃ a' b', Race obj m₀ key key' value c i j a' b' p' [] := by
  induction turns generalizing p a b events with
  | nil =>
      cases hrun
      exact ⟨a, b, h⟩
  | cons turn turns ih =>
      obtain ⟨o, q, os, hstep, hrest, _⟩ := run_cons_eq_some_iff.mp hrun
      rcases h.step hij hne hstep with ⟨a', b', hnext⟩
      exact ih hnext hrest

/-- Both calls have returned. -/
theorem returned (h : Race obj m₀ key key' value c i j a b p [])
    (hi : p.phase i = .idle) (hj : p.phase j = .idle) :
    Delivers p.shared.data key' value ↔
      (HasRoom obj ∧ ¬ Undone m₀ key key' c) ∨
        (¬ HasRoom obj ∧ Delivers m₀ key' value) := by
  have ha : a ≠ 0 := by
    intro ha
    have hbegun := h.order.1
    rw [if_pos ha] at hbegun
    cases hbegun
  have hb : b ≠ 0 := by
    intro hb
    have hbegun := h.order.2
    rw [if_pos hb] at hbegun
    cases hbegun
  have hstage := h.deletion
  rw [hi] at hstage
  have hconcluded := hstage.concluded ha
  have hend : (HasRoom obj ∧ b = 5) ∨ (¬ HasRoom obj ∧ b = 1) := by
    have hinsertion := h.insertion
    generalize hplace : p.phase j = place at hinsertion
    cases hinsertion with
    | waiting => exact absurd rfl hb
    | refused full => exact .inr ⟨full, rfl⟩
    | underway fits begun le =>
        rw [hj] at hplace
        have hcases : b = 1 ∨ b = 2 ∨ b = 3 ∨ b = 4 ∨ b = 5 := by omega
        rcases hcases with rfl | rfl | rfl | rfl | rfl
        case inr.inr.inr.inr => exact .inl ⟨fits, rfl⟩
        all_goals cases hplace
  unfold Concluded at hconcluded
  rcases hend with ⟨hroom, rfl⟩ | ⟨hfull, rfl⟩
  · simpa [hroom] using hconcluded
  · simpa [hfull] using hconcluded

end Race

variable {i j : ι} {key key' : Key} {value : Bytes} {p₀ p : UprPool ι}
    {turns : List (ι × Option UprOp)} {events : List UprEvent}

/-- The two calls from a state in which neither object is in a call. -/
theorem delivers_after_race (h : Annotated StoreSound ObjectSound p₀)
    (hij : i ≠ j) (hi : p₀.phase i = .idle) (hj : p₀.phase j = .idle)
    (hne : key ≠ key')
    (horder : Interleaves i j (some (.del key)) (some (.insert key' value))
      turns)
    (hrun : run uprPoolStep p₀ turns = some (events, p))
    (hi' : p.phase i = .idle) (hj' : p.phase j = .idle) :
    Delivers p.shared.data key' value ↔
      (HasRoom (p₀.shared.members j) ∧
          ¬ (entryOffset key = entryOffset key' ∧
            entryOf p₀.shared.data key ≠ 0 ∧ LinksBetween j turns)) ∨
        (¬ HasRoom (p₀.shared.members j) ∧
          Delivers p₀.shared.data key' value) := by
  have hstart : Race (p₀.shared.members j) p₀.shared.data key key' value
      (turnsBefore j 4 turns) i j 0 0 p₀ turns := by
    refine ⟨h, ?_, ?_, fun _ => rfl, horder, fun _ _ => (Nat.zero_add _).symm⟩
    · rw [hi]
      refine .waiting (fun _ => rfl) (fun h5 => absurd h5 (by decide)) ?_
      unfold Intact
      simp
    · rw [hj]
      exact .waiting
  rcases hstart.finish hij hne hrun with ⟨a, b, hend⟩
  exact hend.returned hi' hj'

omit [DecidableEq ι] in
/-- `get` delivers what the data area delivers. -/
theorem get_delivers_iff {σ : UprShared ι} (h : StoreSound σ) (l : ι)
    (buf : Bytes) :
    (∃ out, (σ.seenBy l).get key buf = .returned (true, out) (σ.seenBy l) ∧
        ∀ k, k < 256 → out k = value k) ↔ Delivers σ.data key value := by
  have hsize : (σ.seenBy l).self.valueSize = 256 := h.hosts.size l
  have hshort : ShortChain (σ.seenBy l).data (σ.seenBy l).self.valueSize
      key := by
    rw [hsize]
    exact h.chained.short key
  rw [GshmUpr.get_of_short hshort, hsize]
  show _ ↔ entryOf σ.data key ≠ 0 ∧ _
  by_cases hzero : entryOf σ.data key = 0
  · rw [if_pos (show entryOf (σ.seenBy l).data key = 0 from hzero)]
    simp [hzero]
  · rw [if_neg (show entryOf (σ.seenBy l).data key ≠ 0 from hzero)]
    have hle := h.end_le (h.chained.block_entryOf hzero)
    have hwrap : wrap (entryOf σ.data key + 64) = entryOf σ.data key + 64 :=
      wrap_of_lt (by omega)
    have hbytes : ∀ k, k < 256 → fetch σ.data (wrap (entryOf σ.data key + 64))
        buf 256 k = valueAt σ.data (entryOf σ.data key) k := by
      intro k hk
      rw [hwrap, fetch_apply, if_pos hk, wrap_of_lt (by omega), valueAt]
    constructor
    · intro hget
      rcases hget with ⟨out, heq, hout⟩
      cases heq
      refine ⟨hzero, fun k hk => ?_⟩
      rw [← hbytes k hk]
      exact hout k hk
    · intro hdelivers
      refine ⟨_, rfl, fun k hk => ?_⟩
      exact (hbytes k hk).trans (hdelivers.2 k hk)

/-- From any state that objects on hosts of their own can reach, object `i`
deletes one key and object `j` inserts another one, access by access.  When both
calls have returned, `get` delivers the inserted value in exactly two cases.
Either the insertion has room, and it is not the case that the two keys are of
one bucket, the deleted one was stored and the insertion wrote the bucket word
between the read and the write of the deletion.  Or it has no room and the value
was stored for the key before. -/
theorem insert_survives_delete_iff (dataAddr : ι → DataAddr)
    (mac : ι → Option UInt8) (hpos : ∀ i, 0 < getMac (mac i))
    (hinj : ∀ i j, getMac (mac i) = getMac (mac j) → i = j)
    {before : List (ι × Option UprOp)} {events₀ : List UprEvent}
    (hreach : run uprPoolStep
      (UprPool.start (.construct (fun _ => 0) dataAddr mac)) before =
        some (events₀, p₀))
    (hij : i ≠ j) (hi : p₀.phase i = .idle) (hj : p₀.phase j = .idle)
    (hne : key ≠ key')
    (horder : Interleaves i j (some (.del key)) (some (.insert key' value))
      turns)
    (hrun : run uprPoolStep p₀ turns = some (events, p))
    (hi' : p.phase i = .idle) (hj' : p.phase j = .idle) (l : ι)
    (buf : Bytes) :
    (∃ out, (p.shared.seenBy l).get key' buf =
        .returned (true, out) (p.shared.seenBy l) ∧
          ∀ k, k < 256 → out k = value k) ↔
      (HasRoom (p₀.shared.members j) ∧
          ¬ (entryOffset key = entryOffset key' ∧
            entryOf p₀.shared.data key ≠ 0 ∧ LinksBetween j turns)) ∨
        (¬ HasRoom (p₀.shared.members j) ∧
          Delivers p₀.shared.data key' value) := by
  have hsound := annotated_run (annotated_construct dataAddr mac hpos hinj)
    hreach
  have hdone := annotated_run hsound hrun
  rw [get_delivers_iff hdone.common l buf]
  exact delivers_after_race hsound hij hi hj hne horder hrun hi' hj'

end Schedules

/-! ## Two hosts -/

/-- A key of the bucket of the all-zero key. -/
def lastByteKey : Key := fun i => if i.val = 63 then 1 else 0

/-- Two hosts over a zeroed data area. -/
def idleHosts : UprPool Bool :=
  .start (.construct (fun _ => 0) (fun _ => Instance.firstHost.dataAddr)
    hostOneTwo)

/-- Host `true` stores the all-zero key. -/
def storeZeroKey : List (Bool × Option UprOp) :=
  [(true, some (.insert (fun _ => 0) fun _ => 5)), (true, none), (true, none),
    (true, none), (true, none)]

/-- Host `true` deletes the all-zero key before host `false` links another key
of the bucket. -/
def linkAfterDelete : List (Bool × Option UprOp) :=
  [(true, some (.del fun _ => 0)), (true, none),
    (false, some (.insert lastByteKey fun _ => 6)), (false, none),
    (false, none), (true, none), (true, none), (true, none), (false, none),
    (false, none)]

/-- Both objects are between two calls. -/
def UprPool.quiet (p : UprPool Bool) : Bool :=
  (uprAccess (p.shared.seenBy true) (p.phase true)).isNone &&
    (uprAccess (p.shared.seenBy false) (p.phase false)).isNone

theorem phase_of_quiet {p : UprPool Bool} (h : UprPool.quiet p = true) :
    p.phase true = .idle ∧ p.phase false = .idle := by
  have hidle : ∀ (u : GshmUpr) (phase : UprPhase),
      (uprAccess u phase).isNone = true → phase = .idle := by
    intro u phase hnone
    cases phase with
    | idle => rfl
    | compare =>
        rw [uprAccess] at hnone
        split at hnone <;> cases hnone
    | _ => cases hnone
  rw [UprPool.quiet, Bool.and_eq_true] at h
  exact ⟨hidle _ _ h.1, hidle _ _ h.2⟩

/-- A schedule that both calls finish, and the bucket word it leaves. -/
theorem runs_of_check (turns : List (Bool × Option UprOp)) (word : Nat)
    (h : ((run uprPoolStep idleHosts storeZeroKey).bind fun r =>
      (run uprPoolStep r.2 turns).map fun r' =>
        (r.2.quiet && r'.2.quiet, bucket r'.2.shared.data lastByteKey)) =
          some (true, word)) :
    ∃ events₀ p₀ events p,
      run uprPoolStep idleHosts storeZeroKey = some (events₀, p₀) ∧
      (p₀.phase true = .idle ∧ p₀.phase false = .idle) ∧
      run uprPoolStep p₀ turns = some (events, p) ∧
      (p.phase true = .idle ∧ p.phase false = .idle) ∧
      bucket p.shared.data lastByteKey = word := by
  obtain ⟨r, hr, hmap⟩ := Option.bind_eq_some_iff.mp h
  obtain ⟨r', hr', hcheck⟩ := Option.map_eq_some_iff.mp hmap
  have hquiet := Bool.and_eq_true_iff.mp (congrArg Prod.fst hcheck)
  exact ⟨r.1, r.2, r'.1, r'.2, hr, phase_of_quiet hquiet.1, hr',
    phase_of_quiet hquiet.2, congrArg Prod.snd hcheck⟩

theorem insert_survives_delete_link_after :
    ∃ events₀ p₀ events p,
      run uprPoolStep idleHosts storeZeroKey = some (events₀, p₀) ∧
      run uprPoolStep p₀ linkAfterDelete = some (events, p) ∧
      ((∃ out, (p.shared.seenBy true).get lastByteKey (fun _ => 0) =
          .returned (true, out) (p.shared.seenBy true) ∧
            ∀ k, k < 256 → out k = 6) ↔
        (HasRoom (p₀.shared.members false) ∧
            ¬ (entryOffset (fun _ => 0) = entryOffset lastByteKey ∧
              entryOf p₀.shared.data (fun _ => 0) ≠ 0 ∧
              LinksBetween false linkAfterDelete)) ∨
          (¬ HasRoom (p₀.shared.members false) ∧
            Delivers p₀.shared.data lastByteKey fun _ => 6)) := by
  obtain ⟨events₀, p₀, events, p, hreach, ⟨hi, hj⟩, hrun, ⟨hi', hj'⟩, _⟩ :=
    runs_of_check linkAfterDelete (2 ^ 27 + 2 ^ 30) (by decide +kernel)
  exact ⟨events₀, p₀, events, p, hreach, hrun,
    insert_survives_delete_iff _ hostOneTwo (fun i => by cases i <;> decide)
      (fun i j => by cases i <;> cases j <;> decide) hreach (by decide) hi hj
      (fun heq => absurd (congrFun heq 63) (by decide))
      (by simp [Interleaves, linkAfterDelete]) hrun hi' hj' true _⟩

/-- Host `false` links its key after host `true` has read the bucket word. -/
def linkDuringDelete : List (Bool × Option UprOp) :=
  [(true, some (.del fun _ => 0)), (true, none),
    (false, some (.insert lastByteKey fun _ => 6)), (false, none),
    (false, none), (false, none), (false, none), (true, none), (true, none),
    (true, none)]

/-- Both calls return `true`, and the inserted key is not to be found. -/
theorem not_insert_survives_delete :
    ∃ events₀ p₀ events p,
      run uprPoolStep idleHosts storeZeroKey = some (events₀, p₀) ∧
      p₀.phase true = .idle ∧ p₀.phase false = .idle ∧
      Interleaves true false (some (.del fun _ => 0))
        (some (.insert lastByteKey fun _ => 6)) linkDuringDelete ∧
      run uprPoolStep p₀ linkDuringDelete = some (events, p) ∧
      p.phase true = .idle ∧ p.phase false = .idle ∧
      (p.shared.seenBy true).get lastByteKey (fun _ => 0) =
        .returned (false, fun _ => 0) (p.shared.seenBy true) := by
  obtain ⟨events₀, p₀, events, p, hreach, ⟨hi, hj⟩, hrun, ⟨hi', hj'⟩,
    hempty⟩ := runs_of_check linkDuringDelete 0 (by decide +kernel)
  refine ⟨events₀, p₀, events, p, hreach, hi, hj,
    by simp [Interleaves, linkDuringDelete], hrun, hi', hj', ?_⟩
  have hzero : (p.shared.seenBy true).readWord (entryOffset lastByteKey) 0 =
      0 := by
    rw [GshmUpr.readWord_eq]
    exact hempty
  rw [GshmUpr.get, GshmUpr.lookup, hzero]
  rfl

end SHMemora.Ports
