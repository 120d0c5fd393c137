import SHMemora.Ports.GshmUprStore

/-!
# What an insertion does to the other keys of its bucket

`insert` and `put` of `gshm_upr` give the new entry a zero next pointer and
then let the bucket word point to it.  Whatever the bucket word pointed to
before is no longer reachable: a bucket has room for one key.

`keepsOthers_insert_iff` and `keepsOthers_put_iff` turn this into the exact
condition under which an insertion loses no key, in every state a store can
get into.
-/

namespace SHMemora.Ports

open SHMemora.Verified.ByteMemory
open SHMemora.Verified.StepRun

/-! ## Reachable states -/

/-- The states of a store with the default sizes. -/
structure Reached (u : GshmUpr) : Prop where
  sound : Sound u.self u.data
  size : u.self.valueSize = 256

namespace Reached

variable {u u' : GshmUpr} {key : Key} {value : Bytes}

theorem of_insert (h : Reached u) {reply : Reply}
    (hstep : uprStep u (.insert key value) = some (reply, u')) :
    Reached u' := by
  rw [uprStep] at hstep
  by_cases hroom : HasRoom u.self
  · rw [GshmUpr.insert_of_room h.sound key hroom] at hstep
    cases hstep
    exact ⟨h.sound.insertEntry hroom key value, h.size⟩
  · rw [GshmUpr.insert_of_full h.sound key hroom] at hstep
    cases hstep
    exact h

/-- **Step lemma**: every call keeps the shape of the memory. -/
theorem step (h : Reached u) (op : UprOp) (reply : Reply)
    (hstep : uprStep u op = some (reply, u')) : Reached u' := by
  cases op with
  | get key value =>
      rw [uprStep, GshmUpr.get_eq h.sound] at hstep
      split at hstep <;> cases hstep <;> exact h
  | update key value =>
      rw [uprStep, GshmUpr.update_eq h.sound] at hstep
      split at hstep
      case isTrue => cases hstep; exact h
      case isFalse hne =>
        cases hstep
        exact ⟨h.sound.writeValue hne value, h.size⟩
  | insert key value => exact h.of_insert hstep
  | put key value =>
      by_cases hzero : entryOf u.data key = 0
      · rw [uprStep, GshmUpr.put_of_absent h.sound key h.size hzero] at hstep
        exact h.of_insert hstep
      · rw [uprStep, GshmUpr.put_of_stored h.sound key h.size hzero] at hstep
        cases hstep
        exact ⟨h.sound.writeValue hzero value, h.size⟩
  | del key =>
      rw [uprStep, GshmUpr.del_eq_of_sound h.sound] at hstep
      split at hstep
      case isTrue => cases hstep; exact h
      case isFalse => cases hstep; exact ⟨h.sound.emptyBucket key, h.size⟩

end Reached

/-- A new store with the default sizes. -/
def GshmUpr.construct (data : Bytes) (dataAddr : DataAddr)
    (mac : Option UInt8) : GshmUpr :=
  ⟨data, Instance.construct dataAddr mac⟩

theorem reached_construct {data : Bytes} {dataAddr : DataAddr}
    {mac : Option UInt8} (hmac : 0 < getMac mac)
    (hzero : ∀ key, bucket data key = 0) :
    Reached (.construct data dataAddr mac) :=
  ⟨Sound.construct hmac (by decide) hzero, rfl⟩

/-- **Run lemma**: what runs on host 1 or above over a zeroed bucket table
come to. -/
theorem reached_of_run {data : Bytes} {dataAddr : DataAddr}
    {mac : Option UInt8} (hmac : 0 < getMac mac)
    (hzero : ∀ key, bucket data key = 0) {calls : List UprOp}
    {replies : List Reply} {u : GshmUpr}
    (hrun : run uprStep (.construct data dataAddr mac) calls =
      some (replies, u)) : Reached u :=
  run_invariant (fun _ op reply _ h hstep => h.step op reply hstep)
    (reached_construct hmac hzero) hrun

/-! ## Looking keys up before and after -/

/-- The answer and the value buffer of `get`. -/
def GshmUpr.answer (u : GshmUpr) (key : Key) (buf : Bytes) :
    Option (Bool × Bytes) :=
  (u.get key buf).next.map Prod.fst

/-- The buffer into which a value of 256 bytes was copied. -/
def delivered (value buf : Bytes) : Bytes :=
  fun i => if i < 256 then value i else buf i

/-- A call of `insert` or `put` for a key returns, and if it returns `true`
the key has the new value and all other keys are as before. -/
def KeepsOthers (u : GshmUpr) (key : Key) (value : Bytes)
    (call : Outcome GshmUpr Bool) : Prop :=
  ∃ b u', call = .returned b u' ∧
    (b = true →
      (∀ k buf, k ≠ key → u'.answer k buf = u.answer k buf) ∧
        ∀ buf, u'.answer key buf = some (true, delivered value buf))

/-- No other key is in the bucket, or there is no room for an entry. -/
def Unshared (u : GshmUpr) (key : Key) : Prop :=
  bucket u.data key = 0 ∨ keyAt u.data (bucket u.data key) = key ∨
    ¬ HasRoom u.self

section Answers

variable {u : GshmUpr}

theorem answer_of_zero (h : Reached u) {key : Key}
    (hzero : entryOf u.data key = 0) (buf : Bytes) :
    u.answer key buf = some (false, buf) := by
  rw [GshmUpr.answer, GshmUpr.get_eq h.sound, if_pos hzero]
  rfl

theorem answer_of_ne (h : Reached u) {key : Key}
    (hne : entryOf u.data key ≠ 0) (buf : Bytes) :
    u.answer key buf =
      some (true, fetch u.data (entryOf u.data key + 64) buf 256) := by
  have hend := h.sound.entry_end_le hne
  rw [GshmUpr.answer, GshmUpr.get_eq h.sound, if_neg hne, h.size,
    wrap_of_lt (by omega)]
  rfl

/-- A key whose entry and block stay as they are keeps its answer. -/
theorem answer_congr {u' : GshmUpr} (h : Reached u) (h' : Reached u')
    {key : Key} (hentry : entryOf u'.data key = entryOf u.data key)
    (hagree : entryOf u.data key ≠ 0 →
      Agree u.data u'.data (entryOf u.data key) (72 + u.self.valueSize))
    (buf : Bytes) : u'.answer key buf = u.answer key buf := by
  by_cases hzero : entryOf u.data key = 0
  · rw [answer_of_zero h hzero, answer_of_zero h' (hentry.trans hzero)]
  · have hend := h.sound.entry_end_le hzero
    have hblock := hagree hzero
    rw [h.size] at hend hblock
    rw [answer_of_ne h hzero,
      answer_of_ne h' (fun heq => hzero (hentry.symm.trans heq)), hentry]
    refine congrArg (fun b => some (true, b)) (funext fun i => ?_)
    rw [fetch_apply, fetch_apply]
    by_cases hi : i < 256
    · rw [if_pos hi, if_pos hi, wrap_of_lt (by omega)]
      exact hblock _ (by omega) (by omega)
    · rw [if_neg hi, if_neg hi]

/-- A key whose entry holds a value delivers it. -/
theorem answer_of_value (h : Reached u) {key : Key}
    (hne : entryOf u.data key ≠ 0) {value : Bytes}
    (hvalue : ∀ i, i < 256 →
      u.data (entryOf u.data key + 64 + i) = value i) (buf : Bytes) :
    u.answer key buf = some (true, delivered value buf) := by
  have hend := h.sound.entry_end_le hne
  rw [h.size] at hend
  rw [answer_of_ne h hne]
  refine congrArg (fun b => some (true, b)) (funext fun i => ?_)
  rw [fetch_apply, delivered]
  by_cases hi : i < 256
  · rw [if_pos hi, if_pos hi, wrap_of_lt (by omega), hvalue i hi]
  · rw [if_neg hi, if_neg hi]

end Answers

/-! ## Insertion into a bucket of one's own, and into another's -/

section Insertion

variable {u : GshmUpr} {key : Key} {value : Bytes}

theorem start_pos (h : Reached u) : u.self.nextFreeOffset ≠ 0 := by
  have hstart := h.sound.shape.start_ge
  obtain ⟨i, hcursor⟩ := h.sound.shape.cursor
  omega

/-- The store behind an insertion that finds room. -/
theorem reached_insertEntry (h : Reached u) (hroom : HasRoom u.self)
    (key : Key) (value : Bytes) :
    Reached ⟨insertEntry u.data u.self.valueSize u.self.nextFreeOffset key
      value, u.self.advance⟩ :=
  ⟨h.sound.insertEntry hroom key value, h.size⟩

/-- Keys of one bucket have one bucket word. -/
theorem bucket_of_home {m : Bytes} {k k' : Key}
    (hhome : entryOffset k = entryOffset k') : bucket m k = bucket m k' := by
  rw [bucket, hhome, bucket]

/-- Another key in the bucket is no longer found behind an insertion. -/
theorem unshared_of_keepsOthers (h : Reached u) (hroom : HasRoom u.self)
    (hkeeps : KeepsOthers u key value (u.insert key value)) :
    Unshared u key := by
  have hshape := h.sound.shape
  have hle := h.sound.room hroom
  rcases hkeeps with ⟨b, u', hcall, hkeeps⟩
  rw [GshmUpr.insert_of_room h.sound key hroom] at hcall
  cases hcall
  by_contra hshared
  unfold Unshared at hshared
  push Not at hshared
  rcases hshared with ⟨hne, hother, _⟩
  have hhome := (hshape.entries key hne).home
  have hbefore : entryOf u.data (keyAt u.data (bucket u.data key)) =
      bucket u.data key := by
    rw [entryOf, bucket_of_home hhome, if_pos rfl]
  have hlost := (hkeeps rfl).1 _ (fun _ => 0) hother
  rw [answer_of_zero (reached_insertEntry h hroom key value)
      (hshape.entryOf_insertEntry_of_home hle hother hhome),
    answer_of_ne h (by rw [hbefore]; exact hne)] at hlost
  cases hlost

/-- A key that was not in the bucket is not found there before or after. -/
theorem entryOf_eq_zero_of_home (hroom : HasRoom u.self)
    (hunshared : Unshared u key) {k : Key} (hk : k ≠ key)
    (hhome : entryOffset k = entryOffset key) : entryOf u.data k = 0 := by
  rw [entryOf, bucket_of_home hhome]
  rcases hunshared with hzero | hself | hfull
  · rw [hzero, ite_self]
  · rw [hself, if_neg (Ne.symm hk)]
  · exact absurd hroom hfull

/-- An insertion into a bucket of its own loses no key. -/
theorem keepsOthers_of_unshared (h : Reached u) (hroom : HasRoom u.self)
    (hunshared : Unshared u key) :
    KeepsOthers u key value (u.insert key value) := by
  have hshape := h.sound.shape
  have hle := h.sound.room hroom
  have h' := reached_insertEntry h hroom key value
  rw [GshmUpr.insert_of_room h.sound key hroom]
  refine ⟨true, _, rfl, fun _ => ⟨fun k buf hk => ?_, fun buf => ?_⟩⟩
  · by_cases hhome : entryOffset k = entryOffset key
    · have hbefore := entryOf_eq_zero_of_home hroom hunshared hk hhome
      rw [answer_of_zero h hbefore, answer_of_zero h'
        (hshape.entryOf_insertEntry_of_home hle hk hhome)]
    · apply answer_congr h h' (hshape.entryOf_insertEntry_of_ne hle hhome)
      intro hne
      exact hshape.agree_insertEntry hle (hshape.entryOf_spec hne).2.2.block
  · have hentry : entryOf (insertEntry u.data u.self.valueSize
        u.self.nextFreeOffset key value) key = u.self.nextFreeOffset :=
      hshape.entryOf_insertEntry hle
    refine answer_of_value h' (by rw [hentry]; exact start_pos h)
      (fun i hi => ?_) buf
    rw [hentry]
    exact hshape.value_new hle (by rw [h.size]; exact hi)

/-- **A new entry loses no key exactly when no other key was in the
bucket.** -/
theorem keepsOthers_insert_iff (h : Reached u) :
    KeepsOthers u key value (u.insert key value) ↔ Unshared u key := by
  by_cases hroom : HasRoom u.self
  case neg =>
    rw [GshmUpr.insert_of_full h.sound key hroom]
    exact iff_of_true ⟨false, u, rfl, fun hb => by contradiction⟩
      (.inr (.inr hroom))
  case pos =>
    exact ⟨unshared_of_keepsOthers h hroom, keepsOthers_of_unshared h hroom⟩

/-- Overwriting the value of a stored key loses no key. -/
theorem keepsOthers_put_of_stored (h : Reached u)
    (hne : entryOf u.data key ≠ 0) :
    KeepsOthers u key value (u.put key value) := by
  have hshape := h.sound.shape
  obtain ⟨_, hmatch, hholds⟩ := hshape.entryOf_spec hne
  have hend := h.sound.entry_end_le hne
  have h' : Reached ⟨writeValue u.data u.self.valueSize
      (entryOf u.data key) value, u.self⟩ :=
    ⟨h.sound.writeValue hne value, h.size⟩
  have hentry : ∀ k, entryOf (writeValue u.data u.self.valueSize
      (entryOf u.data key) value) k = entryOf u.data k :=
    fun k => hshape.entryOf_writeValue hholds.block k
  rw [GshmUpr.put_of_stored h.sound key h.size hne]
  refine ⟨true, _, rfl, fun _ => ⟨fun k buf hk => ?_, fun buf => ?_⟩⟩
  · refine answer_congr h h' (hentry k) (fun hk0 => ?_) buf
    obtain ⟨_, hmatch', hholds'⟩ := hshape.entryOf_spec hk0
    apply hshape.agree_writeValue_of_ne hholds.block hholds'.block
    intro heq
    rw [heq, hmatch] at hmatch'
    exact hk hmatch'.symm
  · refine answer_of_value h' (by rw [hentry]; exact hne) (fun i hi => ?_) buf
    rw [hentry]
    exact value_writeValue hend (by rw [h.size]; exact hi)

/-- **When `put` loses no key.** -/
theorem keepsOthers_put_iff (h : Reached u) :
    KeepsOthers u key value (u.put key value) ↔ Unshared u key := by
  by_cases hzero : entryOf u.data key = 0
  · rw [GshmUpr.put_of_absent h.sound key h.size hzero]
    exact keepsOthers_insert_iff h
  · obtain ⟨hbucket, hmatch, _⟩ := h.sound.shape.entryOf_spec hzero
    rw [hbucket] at hmatch
    exact iff_of_true (keepsOthers_put_of_stored h hzero) (.inr (.inl hmatch))

/-- Two keys of one bucket inserted one after the other: the second insertion
loses the first key. -/
theorem not_keepsOthers_same_home (h : Reached u) (hroom : HasRoom u.self)
    (hroom' : HasRoom u.self.advance) {key' : Key} {value' : Bytes}
    (hhome : entryOffset key' = entryOffset key) (hne : key' ≠ key)
    {u' : GshmUpr} (hcall : u.insert key value = .returned true u') :
    ¬ KeepsOthers u' key' value' (u'.insert key' value') := by
  have hle := h.sound.room hroom
  rw [GshmUpr.insert_of_room h.sound key hroom] at hcall
  cases hcall
  have h' := reached_insertEntry h hroom key value
  have hbucket : bucket (insertEntry u.data u.self.valueSize
      u.self.nextFreeOffset key value) key' = u.self.nextFreeOffset :=
    h.sound.shape.bucket_insertEntry hhome
  rw [keepsOthers_insert_iff h', Unshared, hbucket,
    h.sound.shape.keyAt_new hle]
  intro hunshared
  rcases hunshared with hfree | hself | hfull
  · exact start_pos h hfree
  · exact hne hself.symm
  · exact hfull hroom'

end Insertion

/-! ## Insertions in reachable states -/

/-- A call that inserts keeps the other keys. -/
def KeepsOthersCall (u : GshmUpr) : UprOp → Prop
  | .insert key value => KeepsOthers u key value (u.insert key value)
  | .put key value => KeepsOthers u key value (u.put key value)
  | _ => True

/-- A call that inserts has the bucket to itself or has no room. -/
def UnsharedCall (u : GshmUpr) : UprOp → Prop
  | .insert key _ => Unshared u key
  | .put key _ => Unshared u key
  | _ => True

/-- **Exactly when `insert` and `put` lose no key**, in every state reached by
a run of calls on host 1 or above over a zeroed bucket table. -/
theorem upr_keeps_others_iff (data : Bytes) (dataAddr : DataAddr)
    (mac : Option UInt8) (hmac : 0 < getMac mac)
    (hzero : ∀ key, bucket data key = 0) (calls : List UprOp)
    (replies : List Reply) (u : GshmUpr)
    (hrun : run uprStep (.construct data dataAddr mac) calls =
      some (replies, u)) (op : UprOp) :
    KeepsOthersCall u op ↔ UnsharedCall u op := by
  have h := reached_of_run hmac hzero hrun
  cases op with
  | insert key value => exact keepsOthers_insert_iff h
  | put key value => exact keepsOthers_put_iff h
  | _ => exact Iff.rfl

/-- A key that differs from the all-zero key behind its first word. -/
def ninthByteKey : Key := fun i => if i.val = 8 then 1 else 0

/-- An empty store on host 1. -/
def emptyUpr : GshmUpr :=
  .construct (fun _ => 0) Instance.firstHost.dataAddr (some 1)

theorem run_insert {u u' : GshmUpr} {key : Key} {value : Bytes} {b : Bool}
    (hcall : u.insert key value = .returned b u') :
    run uprStep u [.insert key value] = some ([.answer b], u') := by
  rw [run_cons_eq_some_iff]
  exact ⟨.answer b, u', [], by rw [uprStep, hcall]; rfl, rfl, rfl⟩

theorem reached_emptyUpr : Reached emptyUpr :=
  reached_construct (by decide) (fun _ => rfl)

theorem insert_emptyUpr :
    emptyUpr.insert (fun _ => 0) (fun _ => 7) = .returned true
      ⟨insertEntry emptyUpr.data emptyUpr.self.valueSize
        emptyUpr.self.nextFreeOffset (fun _ => 0) (fun _ => 7),
        emptyUpr.self.advance⟩ :=
  GshmUpr.insert_of_room reached_emptyUpr.sound _ (by decide) _

theorem upr_keeps_others_iff_one_key :
    ∃ replies u,
      run uprStep emptyUpr [.insert (fun _ => 0) (fun _ => 7)] =
        some (replies, u) ∧
      (KeepsOthersCall u (.put ninthByteKey fun _ => 8) ↔
        UnsharedCall u (.put ninthByteKey fun _ => 8)) := by
  have hrun := run_insert insert_emptyUpr
  exact ⟨_, _, hrun, upr_keeps_others_iff (fun _ => 0)
    Instance.firstHost.dataAddr (some 1) (by decide) (fun _ => rfl) _ _ _
    hrun _⟩

/-- Inserting a second key into the bucket loses the first. -/
theorem not_keeps_others_second_key :
    ∃ replies u,
      run uprStep emptyUpr [.insert (fun _ => 0) (fun _ => 7)] =
        some (replies, u) ∧
      ¬ KeepsOthersCall u (.insert ninthByteKey fun _ => 8) := by
  refine ⟨_, _, run_insert insert_emptyUpr, ?_⟩
  exact not_keepsOthers_same_home reached_emptyUpr (by decide) (by decide)
    (by decide) (fun h => absurd (congrFun h 8) (by decide)) insert_emptyUpr

end SHMemora.Ports
