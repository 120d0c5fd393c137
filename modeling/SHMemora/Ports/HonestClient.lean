import SHMemora.Ports.FreshTokens
import SHMemora.Ports.GshmUprStore

/-!
# Honest clients see the unprotected store

A client of the protected store that keeps, for every key, the token of its
latest insertion and passes it back.  As long as all tokens drawn are new,
this client cannot tell the protected store from the unprotected one: every
access inside of every call is accepted.

`Equipped` is what makes it so: the latest token of every stored key is bound
to exactly the entry that the key has now.  An insertion rebinds the key it is
about and drops the other keys of its bucket, and nothing a client may call
takes a binding away.
-/

namespace SHMemora.Ports

open SHMemora.Verified.ByteMemory
open SHMemora.Verified.StepRun

/-! ## The two systems -/

/-- A store and the tokens its client remembers. -/
structure Client where
  store : ShmpStore
  latest : Key → Option UInt16

/-- A call of the client.  `other` is what it passes for a key that was never
inserted. -/
inductive ClientOp where
  | insert (key : Key) (value : Bytes)
  | get (key : Key) (value : Bytes) (other : UInt16)
  | update (key : Key) (value : Bytes) (other : UInt16)
  | del (key : Key) (other : UInt16)

/-- The token that is passed for a key. -/
def Client.token (c : Client) (key : Key) (other : UInt16) : UInt16 :=
  (c.latest key).getD other

/-- One call on the protected store.  `insert` only returns if it has
succeeded. -/
def clientStep (c : Client) : ClientOp → Option (Reply × Client)
  | .insert key value =>
      (c.store.insert shmpScheme key value).next.map fun r =>
        (.answer true, ⟨r.2, Function.update c.latest key (some r.1)⟩)
  | .get key value other =>
      (c.store.get shmpScheme key value (c.token key other)).next.map fun r =>
        (.fetched r.1.1 r.1.2, ⟨r.2, c.latest⟩)
  | .update key value other =>
      (c.store.update shmpScheme key value (c.token key other)).next.map
        fun r => (.answer r.1, ⟨r.2, c.latest⟩)
  | .del key other =>
      (c.store.del shmpScheme key (c.token key other)).next.map fun r =>
        (.answer r.1, ⟨r.2, c.latest⟩)

/-- The same call on the unprotected store. -/
def ClientOp.unprotected : ClientOp → UprOp
  | .insert key value => .insert key value
  | .get key value _ => .get key value
  | .update key value _ => .update key value
  | .del key _ => .del key

/-- One call on the unprotected store. -/
def plainStep (u : GshmUpr) (op : ClientOp) : Option (Reply × GshmUpr) :=
  uprStep u op.unprotected

/-- The tokens drawn up to the end of the call are all new, and an insertion
finds the partition not full. -/
def Orderly (c : Client) (op : ClientOp) : Prop :=
  (∀ reply c', clientStep c op = some (reply, c') →
    FreshBelow c.store.useMac c.store.rand c'.store.randCalls) ∧
  ∀ key value, op = .insert key value → HasRoom c.store.self

/-! ## What the client holds -/

/-- The latest token of every stored key is bound to its entry. -/
def Opens (c : Client) (m : TokenMap UInt16) : Prop :=
  ∀ key, entryOf c.store.data key ≠ 0 → ∃ t, c.latest key = some t ∧
    m t = some (request (entryOf c.store.data key) c.store.self.entrySize 3)

/-- The memory is sound, the tokens are new, and the client holds a token for
every stored key. -/
structure Equipped (c : Client) : Prop where
  sound : Sound c.store.self c.store.data
  fresh : FreshBelow c.store.useMac c.store.rand c.store.randCalls
  tokens : ∃ m, Issued c.store m ∧ Opens c m

namespace Equipped

variable {c : Client} {g' : ShmpStore} {key : Key}

/-- The value of a stored key may be read and written. -/
theorem accepted (h : Equipped c) (hne : entryOf c.store.data key ≠ 0)
    (other : UInt16) (kind : AccessKind)
    (hkind : (request 0 0 3).permission &&& kind.bit ≠ 0) :
    Accepted shmpScheme c.store kind (wrap (entryOf c.store.data key + 64))
      c.store.self.valueSize (c.token key other) := by
  obtain ⟨m, hissued, hopens⟩ := h.tokens
  obtain ⟨t, hlatest, hbound⟩ := hopens key hne
  obtain ⟨i, hi, htoken⟩ := hissued.drawn t _ hbound
  have hkey : t ≠ 0 := by
    rw [← htoken]
    exact (h.fresh i hi).1
  have hend := h.sound.entry_end_le hne
  have hsizes := h.sound.sizes
  have hoffset : (request (entryOf c.store.data key) c.store.self.entrySize
      3).offset = entryOf c.store.data key := wrap_of_lt (by omega)
  have hsize : (request (entryOf c.store.data key) c.store.self.entrySize
      3).size = c.store.self.entrySize := wrap_of_lt (by omega)
  have hpass : c.token key other = t := by
    rw [Client.token, hlatest]
    rfl
  rw [hpass, wrap_of_lt (by omega)]
  rw [← hissued.binding_eq] at hbound
  exact accepted_of_binding hkey hbound kind hkind (by omega) (by omega)
    (by omega) (by omega) (by omega)

/-- Tokens drawn on the way leave the client's tokens as they are. -/
theorem draws (h : Equipped c) (hdraws : Draws shmpScheme c.store g')
    (hfresh : FreshBelow c.store.useMac c.store.rand g'.randCalls) :
    Equipped ⟨g', c.latest⟩ := by
  obtain ⟨m, hissued, hopens⟩ := h.tokens
  obtain ⟨m', hissued', hsame⟩ := hissued.draws hdraws hfresh
  refine ⟨?_, ?_, m', hissued', fun k hne => ?_⟩
  · show Sound g'.self g'.data
    rw [hdraws.self_eq, hdraws.data_eq]
    exact h.sound
  · show FreshBelow g'.useMac g'.rand g'.randCalls
    rw [hdraws.useMac_eq, hdraws.rand_eq]
    exact hfresh
  · simp only [hdraws.self_eq, hdraws.data_eq] at hne ⊢
    obtain ⟨t, hlatest, hbound⟩ := hopens k hne
    obtain ⟨i, hi, htoken⟩ := hissued.drawn t _ hbound
    refine ⟨t, hlatest, ?_⟩
    rw [← hbound, ← htoken]
    exact hsame i hi

/-- Changing values leaves the client's tokens as they are. -/
theorem writeValue (h : Equipped c) (hne : entryOf c.store.data key ≠ 0)
    (value : Bytes) :
    Equipped ⟨{ c.store with
      data := Ports.writeValue c.store.data c.store.self.valueSize
        (entryOf c.store.data key) value }, c.latest⟩ := by
  obtain ⟨m, hissued, hopens⟩ := h.tokens
  have hblock := (h.sound.shape.entryOf_spec hne).2.2.block
  refine ⟨h.sound.writeValue hne value, h.fresh, m,
    hissued.of_table_eq rfl rfl rfl rfl, fun k hk => ?_⟩
  simp only [h.sound.shape.entryOf_writeValue hblock] at hk ⊢
  exact hopens k hk

/-- Emptying a bucket leaves the client with tokens it no longer needs. -/
theorem emptyBucket (h : Equipped c) (key : Key) :
    Equipped ⟨{ c.store with data := setBucket c.store.data key 0 },
      c.latest⟩ := by
  obtain ⟨m, hissued, hopens⟩ := h.tokens
  refine ⟨h.sound.emptyBucket key, h.fresh, m,
    hissued.of_table_eq rfl rfl rfl rfl, fun k hk => ?_⟩
  simp only [h.sound.shape.entryOf_emptyBucket] at hk ⊢
  split at hk
  case isTrue => exact absurd rfl hk
  case isFalse hhome =>
    rw [if_neg hhome]
    exact hopens k hk

/-- **An insertion gives the client the token of the new entry.** -/
theorem insert (h : Equipped c) (hroom : HasRoom c.store.self)
    (hfresh : FreshBelow c.store.useMac c.store.rand
      (c.store.randCalls + 2)) (key : Key) (value : Bytes) :
    Equipped ⟨afterInsert c.store key value, Function.update c.latest key
      (some (tokenAt c.store.useMac c.store.rand
        (c.store.randCalls + 1)))⟩ := by
  obtain ⟨m, hissued, hopens⟩ := h.tokens
  have hle := h.sound.room hroom
  have hcalls : (afterInsert c.store key value).randCalls =
      c.store.randCalls + 2 := randCalls_afterDraws c.store key
  refine ⟨sound_afterInsert h.sound hroom key value, ?_,
    insertMap c.store m key, hissued.afterInsert key value hfresh,
    fun k hk => ?_⟩
  · show FreshBelow c.store.useMac c.store.rand
      (afterInsert c.store key value).randCalls
    rw [hcalls]
    exact hfresh
  by_cases hkey : k = key
  · subst hkey
    refine ⟨_, Function.update_self _ _ _, ?_⟩
    rw [entryOf_afterInsert h.sound hroom]
    exact Function.update_self _ _ _
  · by_cases hhome : entryOffset k = entryOffset key
    · exact absurd (h.sound.shape.entryOf_insertEntry_of_home hle hkey hhome)
        hk
    · have hentry : entryOf (afterInsert c.store key value).data k =
          entryOf c.store.data k :=
        h.sound.shape.entryOf_insertEntry_of_ne hle hhome
      simp only [hentry] at hk ⊢
      obtain ⟨t, hlatest, hbound⟩ := hopens k hk
      obtain ⟨i, hi, htoken⟩ := hissued.drawn t _ hbound
      refine ⟨t, ?_, ?_⟩
      · rw [Function.update_of_ne hkey]
        exact hlatest
      · rw [← htoken, sameBefore_insertMap hfresh m key i hi, htoken]
        exact hbound

end Equipped

/-! ## The simulation -/

/-- The unprotected store over the same memory, mapped at `a`. -/
def Client.plain (c : Client) (a : DataAddr) : GshmUpr :=
  ⟨c.store.data, { c.store.self with dataAddr := a }⟩

theorem Equipped.sound_plain {c : Client} (h : Equipped c) (a : DataAddr) :
    Sound (c.plain a).self (c.plain a).data :=
  ⟨h.sound.noBatch, h.sound.sizes, h.sound.small, h.sound.partition,
    h.sound.shape⟩

theorem plain_of_draws {c : Client} {g' : ShmpStore}
    (hdraws : Draws shmpScheme c.store g') (a : DataAddr) :
    Client.plain ⟨g', c.latest⟩ a = c.plain a := by
  rw [Client.plain, hdraws.data_eq, hdraws.self_eq]
  rfl

/-- After the draws of a lookup the value of a stored key may be read and
written. -/
theorem Equipped.accepted_of_draws {c : Client} {g' : ShmpStore} {key : Key}
    (h' : Equipped ⟨g', c.latest⟩) (hdraws : Draws shmpScheme c.store g')
    (hne : entryOf c.store.data key ≠ 0) (other : UInt16) (kind : AccessKind)
    (hkind : (request 0 0 3).permission &&& kind.bit ≠ 0) :
    Accepted shmpScheme g' kind (wrap (entryOf c.store.data key + 64))
      c.store.self.valueSize (c.token key other) := by
  rw [← hdraws.data_eq] at hne
  have haccept := h'.accepted hne other kind hkind
  simp only [hdraws.data_eq, hdraws.self_eq] at haccept
  exact haccept

/-- Both systems make the call, with the same reply, and the client is
equipped behind it. -/
def InStep (a : DataAddr) (c : Client) (op : ClientOp) : Prop :=
  ∃ reply c', clientStep c op = some (reply, c') ∧
    plainStep (c.plain a) op = some (reply, c'.plain a) ∧ Equipped c'

section Steps

variable {c : Client} {a : DataAddr} {key : Key} {value : Bytes}
  {other : UInt16}

theorem inStep_get (h : Equipped c)
    (horderly : Orderly c (.get key value other)) :
    InStep a c (.get key value other) := by
  have hplain : (c.plain a).get key value =
      if entryOf c.store.data key = 0 then .returned (false, value) (c.plain a)
      else .returned (true, fetch c.store.data
        (wrap (entryOf c.store.data key + 64)) value
        c.store.self.valueSize) (c.plain a) :=
    GshmUpr.get_eq (h.sound_plain a) key value
  have hget :=
    get_of_sound (S := shmpScheme) h.sound key value (c.token key other)
  have hdraws := draws_lookedUp (S := shmpScheme) (g := c.store) key 1
  generalize lookedUp shmpScheme c.store key 1 = g' at hget hdraws
  by_cases hzero : entryOf c.store.data key = 0
  · rw [if_pos hzero] at hget hplain
    have hstep : clientStep c (.get key value other) =
        some (.fetched false value, ⟨g', c.latest⟩) := by
      rw [clientStep, hget]
      rfl
    refine ⟨_, _, hstep, ?_, h.draws hdraws (horderly.1 _ _ hstep)⟩
    rw [plain_of_draws hdraws, plainStep, ClientOp.unprotected, uprStep,
      hplain]
    rfl
  · rw [if_neg hzero] at hget hplain
    have hstep : clientStep c (.get key value other) =
        some (.fetched true (g'.readCxl shmpScheme
          (wrap (entryOf c.store.data key + 64)) c.store.self.valueSize value
          (c.token key other)).2, ⟨g', c.latest⟩) := by
      rw [clientStep, hget]
      rfl
    have h' := h.draws hdraws (horderly.1 _ _ hstep)
    have hread := h'.accepted_of_draws hdraws hzero other .read (by decide)
    refine ⟨_, _, hstep, ?_, h'⟩
    rw [plain_of_draws hdraws, plainStep, ClientOp.unprotected, uprStep,
      hplain, readCxl_of_accepted hread, hdraws.data_eq]
    rfl

theorem inStep_update (h : Equipped c)
    (horderly : Orderly c (.update key value other)) :
    InStep a c (.update key value other) := by
  have hplain : (c.plain a).update key value =
      if entryOf c.store.data key = 0 then .returned false (c.plain a)
      else .returned true ⟨writeValue c.store.data c.store.self.valueSize
        (entryOf c.store.data key) value, (c.plain a).self⟩ :=
    GshmUpr.update_eq (h.sound_plain a) key value
  have hupdate :=
    update_of_sound (S := shmpScheme) h.sound key value (c.token key other)
  have hdraws := draws_lookedUp (S := shmpScheme) (g := c.store) key 3
  generalize lookedUp shmpScheme c.store key 3 = g' at hupdate hdraws
  by_cases hzero : entryOf c.store.data key = 0
  · rw [if_pos hzero] at hupdate hplain
    have hstep : clientStep c (.update key value other) =
        some (.answer false, ⟨g', c.latest⟩) := by
      rw [clientStep, hupdate]
      rfl
    refine ⟨_, _, hstep, ?_, h.draws hdraws (horderly.1 _ _ hstep)⟩
    rw [plain_of_draws hdraws, plainStep, ClientOp.unprotected, uprStep,
      hplain]
    rfl
  · rw [if_neg hzero] at hupdate hplain
    have hstep : clientStep c (.update key value other) =
        some (.answer true, ⟨(g'.writeCxl shmpScheme
          (wrap (entryOf c.store.data key + 64)) c.store.self.valueSize value
          (c.token key other)).2, c.latest⟩) := by
      rw [clientStep, hupdate]
      rfl
    have hfresh := horderly.1 _ _ hstep
    rw [Gshm.writeCxl_randCalls] at hfresh
    have h' := h.draws hdraws hfresh
    have hwrite := h'.accepted_of_draws hdraws hzero other .write (by decide)
    have hne : entryOf g'.data key ≠ 0 := by
      rw [hdraws.data_eq]
      exact hzero
    refine ⟨_, _, hstep, ?_, ?_⟩
    · rw [plainStep, ClientOp.unprotected, uprStep, hplain,
        writeCxl_of_accepted hwrite, Client.plain, hdraws.data_eq,
        hdraws.self_eq]
      rfl
    · have hvalue := h'.writeValue hne value
      simp only [hdraws.data_eq, hdraws.self_eq] at hvalue
      rw [writeCxl_of_accepted hwrite]
      simp only [hdraws.data_eq, hdraws.self_eq]
      exact hvalue

theorem inStep_del (h : Equipped c) : InStep a c (.del key other) := by
  have hplain : (c.plain a).del key =
      if entryOf c.store.data key = 0 then .returned false (c.plain a)
      else .returned true
        ⟨setBucket c.store.data key 0, (c.plain a).self⟩ :=
    GshmUpr.del_eq_of_sound (h.sound_plain a) key
  have hdel :=
    del_of_sound (S := shmpScheme) h.sound key (c.token key other)
  by_cases hzero : entryOf c.store.data key = 0
  · rw [if_pos hzero] at hdel hplain
    refine ⟨.answer false, c, ?_, ?_, h⟩
    · rw [clientStep, hdel]
      rfl
    · rw [plainStep, ClientOp.unprotected, uprStep, hplain]
      rfl
  · rw [if_neg hzero] at hdel hplain
    refine ⟨.answer true, _, ?_, ?_, h.emptyBucket key⟩
    · rw [clientStep, hdel]
      rfl
    · rw [plainStep, ClientOp.unprotected, uprStep, hplain]
      rfl

theorem inStep_insert (h : Equipped c)
    (horderly : Orderly c (.insert key value)) :
    InStep a c (.insert key value) := by
  have hroom := horderly.2 key value rfl
  have hplain : (c.plain a).insert key value = .returned true
      ⟨insertEntry c.store.data c.store.self.valueSize
        c.store.self.nextFreeOffset key value, (c.plain a).self.advance⟩ :=
    GshmUpr.insert_of_room (h.sound_plain a) key hroom value
  -- the two tokens drawn are new, as the call returns
  have hfresh : FreshBelow c.store.useMac c.store.rand
      (c.store.randCalls + 2) := by
    obtain ⟨t, g', hinsert, hcalls⟩ :=
      insert_returns (S := shmpScheme) h.sound key hroom value
    have hstep : clientStep c (.insert key value) = some (.answer true,
        ⟨g', Function.update c.latest key (some t)⟩) := by
      rw [clientStep, hinsert]
      rfl
    have hnew := horderly.1 _ _ hstep
    rw [hcalls, randCalls_acquire, randCalls_acquire] at hnew
    exact hnew
  obtain ⟨m, hissued, _⟩ := h.tokens
  have hinsert := insert_of_fresh hissued h.sound hroom hfresh key value
  refine ⟨.answer true, _, ?_, ?_, h.insert hroom hfresh key value⟩
  · rw [clientStep, hinsert]
    rfl
  · rw [plainStep, ClientOp.unprotected, uprStep, hplain]
    rfl

/-- **Step lemma**: an orderly call is made by both systems alike. -/
theorem inStep (h : Equipped c) {op : ClientOp} (horderly : Orderly c op) :
    InStep a c op := by
  cases op with
  | insert key value => exact inStep_insert h horderly
  | get key value other => exact inStep_get h horderly
  | update key value other => exact inStep_update h horderly
  | del key other => exact inStep_del h

end Steps

/-! ## Runs -/

/-- The client of a new store. -/
def Client.construct (data : Bytes) (rand : Nat → Nat) (batchKey : UInt16)
    (useMac : Bool) (obj : Instance) : Client :=
  ⟨.construct shmpScheme data rand batchKey useMac obj, fun _ => none⟩

theorem equipped_construct {data : Bytes} {obj : Instance}
    (hsound : Sound obj data) (hzero : ∀ key, bucket data key = 0)
    (rand : Nat → Nat) (batchKey : UInt16) (useMac : Bool) :
    Equipped (.construct data rand batchKey useMac obj) := by
  refine ⟨hsound, fun i hi => absurd hi (Nat.not_lt_zero i), fun _ => none,
    issued_construct _ _ _ _ _, fun key hne => ?_⟩
  have hentry : entryOf data key = 0 := by
    rw [entryOf, hzero, ite_self]
  exact absurd hentry hne

/-- **The protected store agrees with the unprotected one for honest
clients**, after every step of every orderly run on host 1 or above over a
zeroed bucket table: both have made all calls so far, with the same replies,
and have the same memory and the same cursor. -/
theorem shmp_agrees_with_upr (data : Bytes) (rand : Nat → Nat)
    (batchKey : UInt16) (useMac : Bool) (dataAddr dataAddr' : DataAddr)
    (mac : Option UInt8) (hmac : 0 < getMac mac) (valueSize : Nat)
    (hsmall : 72 + valueSize < 2 ^ 31) (hzero : ∀ key, bucket data key = 0)
    (calls : List ClientOp)
    (horderly : AtEveryStep clientStep Orderly
      (.construct data rand batchKey useMac
        ((Instance.construct dataAddr mac).withValueSize valueSize)) calls)
    (steps : Nat) :
    ∃ replies c u,
      run clientStep (.construct data rand batchKey useMac
        ((Instance.construct dataAddr mac).withValueSize valueSize))
        (calls.take steps) = some (replies, c) ∧
      run plainStep ⟨data,
        (Instance.construct dataAddr' mac).withValueSize valueSize⟩
        (calls.take steps) = some (replies, u) ∧
      u.data = c.store.data ∧
      u.self.nextFreeOffset = c.store.self.nextFreeOffset := by
  have hsound : Sound ((Instance.construct dataAddr mac).withValueSize
      valueSize) data := Sound.construct hmac hsmall hzero
  have h := equipped_construct hsound hzero rand batchKey useMac
  have hsim : ∀ (c : Client) (u : GshmUpr) (op : ClientOp),
      u = c.plain dataAddr' ∧ Equipped c → Orderly c op →
      ∃ reply c' u', clientStep c op = some (reply, c') ∧
        plainStep u op = some (reply, u') ∧
        u' = c'.plain dataAddr' ∧ Equipped c' := by
    intro c u op hsame horderly
    rcases hsame with ⟨hplain, h⟩
    obtain ⟨reply, c', hstep, hstep', h'⟩ := inStep h horderly
    rw [← hplain] at hstep'
    exact ⟨reply, c', _, hstep, hstep', rfl, h'⟩
  obtain ⟨replies, c, u, hrun, hrun', hplain, _⟩ :=
    run_simulates_where hsim ⟨rfl, h⟩ (atEveryStep_take horderly steps)
  refine ⟨replies, c, u, hrun, hrun', ?_, ?_⟩
  · rw [hplain]
    rfl
  · rw [hplain]
    rfl

/-- An insertion and a deletion. -/
theorem shmp_agrees_with_upr_two_calls :
    ∃ replies c u,
      run clientStep (.construct (fun _ => 0) (fun i => i + 1) 0 false
        .firstHost) [.insert (fun _ => 0) fun _ => 7, .del (fun _ => 0) 0] =
        some (replies, c) ∧
      run plainStep ⟨fun _ => 0, .firstHost⟩
        [.insert (fun _ => 0) fun _ => 7, .del (fun _ => 0) 0] =
        some (replies, u) ∧
      u.data = c.store.data ∧
      u.self.nextFreeOffset = c.store.self.nextFreeOffset := by
  have hroom : HasRoom countingStore.self := by decide
  have hinsert : clientStep ⟨countingStore, fun _ => none⟩
      (.insert (fun _ => 0) fun _ => 7) = some (.answer true,
        ⟨afterInsert countingStore (fun _ => 0) fun _ => 7,
          Function.update (fun _ => none) (fun _ => 0) (some 2)⟩) := by
    rw [clientStep, insert_of_fresh issued_countingStore sound_countingStore
      hroom freshBelow_countingStore]
    rfl
  have hfresh := freshBelow_countingStore
  refine shmp_agrees_with_upr (fun _ => 0) (fun i => i + 1) 0 false
    ⟨2 ^ 46, by decide, by decide⟩ ⟨2 ^ 46, by decide, by decide⟩ (some 1)
    (by decide) 256 (by decide) (fun _ => rfl)
    [.insert (fun _ => 0) fun _ => 7, .del (fun _ => 0) 0]
    ⟨⟨?_, fun _ _ _ => hroom⟩, ?_⟩ 2
  · intro reply c' hstep
    cases hinsert.symm.trans hstep
    exact hfresh
  · intro reply c' hstep
    cases hinsert.symm.trans hstep
    refine ⟨⟨?_, fun _ _ heq => by cases heq⟩, fun _ _ _ => trivial⟩
    -- a deletion draws no token
    intro reply c' hdel
    rw [clientStep,
      del_of_sound (sound_afterInsert sound_countingStore hroom _ _)] at hdel
    split at hdel
    case isTrue => cases hdel; exact hfresh
    case isFalse => cases hdel; exact hfresh

end SHMemora.Ports
