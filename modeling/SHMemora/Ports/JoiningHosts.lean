import SHMemora.Ports.TokenMap
import SHMemora.Ports.SharedAllocation
import SHMemora.Ports.Acquisition

/-!
# Hosts that join a running system

`gshm` objects are constructed one after another on one device, while those
constructed before acquire tokens, access the data area and revoke.  The
constructor calls `open_cxl_device`, which maps the device and zeroes the
protection table whatever is in it, so that every token on it is lost.

`Device` is the device with the objects constructed so far and, behind them,
two records that no step reads: the tokens issued and neither revoked nor
cleared, and the map of `TokenMap` that the calls since the last construction
have made.  The table represents this map (`DeviceSound`) as long as the
accesses stay below the table (`DeviceOp.BelowTable`): the offsets behind that
lead round into it, and what is stored there is table and not data.

## Main results

* `join_keeps_tokens_iff` — exactly when a construction leaves the tokens as
  they are: on any device, in terms of its table, and after every run of calls
  that stay below the table, in terms of what has been acquired.
-/

namespace SHMemora.Ports

open SHMemora.Verified.ByteMemory
open SHMemora.Verified.StepRun

/-! ## The system -/

/-- A shared device and the objects on it. -/
structure Device (τ : Type) (n : Nat) (ι : Type) where
  table : ProtectionTable τ n
  data : Bytes
  /-- The objects that have been constructed. -/
  members : ι → Option (Member τ)
  /-- The tokens that `acquire` has returned and that have been neither revoked
  nor cleared. -/
  live : List τ
  /-- The bindings made since the last construction. -/
  bound : TokenMap τ

/-- A construction, with the setting of `use_mac` that the caller makes after
it, or a call of a constructed object.  `rand` lists what `rand()` returns
during the call. -/
inductive DeviceOp (τ : Type) where
  | construct (dataAddr : DataAddr) (mac : Option UInt8) (batchKey : τ)
      (useMac : Bool)
  | acquire (rand : Nat → Nat) (offset size : Nat) (permission : UInt8)
  | readCxl (offset size : Nat) (buf : Bytes) (shkey : τ)
  | writeCxl (offset size : Nat) (buf : Bytes) (shkey : τ)
  | compareCxl (offset size : Nat) (buf : Bytes) (shkey : τ)
  | revokeCxl (shkey : τ)
  | clear

/-- An access stays below the table. -/
def DeviceOp.BelowTable {τ : Type} {n : Nat} (S : TokenScheme τ n) :
    DeviceOp τ → Prop
  | .readCxl offset size _ _ => Ports.BelowTable S offset size
  | .writeCxl offset size _ _ => Ports.BelowTable S offset size
  | .compareCxl offset size _ _ => Ports.BelowTable S offset size
  | _ => True

section System

variable {τ : Type} [DecidableEq τ] {n : Nat} [NeZero n] {ι : Type}
  (S : TokenScheme τ n)

/-- The device as one object sees it. -/
def Device.seenBy (d : Device τ n ι) (member : Member τ) (rand : Nat → Nat) :
    Gshm τ n where
  table := d.table
  data := d.data
  rand := rand
  randCalls := 0
  batchKey := member.batchKey
  useMac := member.useMac
  self := member.self

/-- A device nobody has opened, with whatever is stored on it. -/
def Device.unopened (table : ProtectionTable τ n) (data : Bytes) :
    Device τ n ι :=
  ⟨table, data, fun _ => none, [], fun _ => none⟩

/-- A call of a constructed object. -/
def deviceCall (d : Device τ n ι) (member : Member τ) :
    DeviceOp τ → Option (GshmResult τ × Device τ n ι)
  | .construct _ _ _ _ => none
  | .acquire rand offset size permission =>
      let r := (d.seenBy member rand).acquire S offset size permission
      some (.shkey r.1, { d with
        table := r.2.table
        live := r.1 :: d.live
        bound := (d.bound.insert r.1 (request offset size permission)).2 })
  | .readCxl offset size buf shkey =>
      let r := (d.seenBy member fun _ => 0).readCxl S offset size buf shkey
      some (.read r.1 r.2, d)
  | .writeCxl offset size buf shkey =>
      let r := (d.seenBy member fun _ => 0).writeCxl S offset size buf shkey
      some (.status r.1, { d with table := r.2.table, data := r.2.data })
  | .compareCxl offset size buf shkey =>
      some (.status
        ((d.seenBy member fun _ => 0).compareCxl S offset size buf shkey), d)
  | .revokeCxl shkey =>
      let r := revokeCxl S d.table shkey
      some (.status r.1, { d with
        table := r.2
        live := if r.1 = 0 then d.live.filter (· ≠ shkey) else d.live
        bound := (d.bound.revoke S.globalKey shkey).2 })
  | .clear =>
      some (.done, { d with
        table := clearProtectionTable S d.table
        live := []
        bound := fun _ => none })

/-- An object that has been constructed can access a range with a token. -/
def Device.Opens (d : Device τ n ι) (member : Member τ) (kind : AccessKind)
    (offset size : Nat) (shkey : τ) : Prop :=
  ∃ i, access S d.table member.self.dataAddr.addr kind offset size shkey =
    .ok i

/-- The tokens that are live on device `d` open for the objects on it what they
open on device `d'`. -/
def KeepsTokens (d d' : Device τ n ι) : Prop :=
  ∀ shkey ∈ d.live, ∀ i member, d.members i = some member →
    ∀ kind offset size,
      d'.Opens S member kind offset size shkey ↔
        d.Opens S member kind offset size shkey

/-- No live token is found in the table with a region and a permission. -/
def NothingFound (d : Device τ n ι) : Prop :=
  ∀ shkey ∈ d.live, shkey ≠ S.globalKey → ∀ entry,
    binding S d.table shkey = some entry → entry.Powerless

/-- Nothing that opens anything has been bound to a token since the last
construction. -/
def NothingGranted (d : Device τ n ι) : Prop :=
  ∀ shkey, shkey ≠ S.globalKey → ∀ entry, d.bound shkey = some entry →
    entry.Powerless

/-! ## The invariant -/

/-- The table represents the record of bindings, and whoever is bound is live
and was issued to an object on the device. -/
structure DeviceSound (d : Device τ n ι) : Prop where
  represents : Represents S d.table d.bound
  live : ∀ shkey, d.bound shkey ≠ none → shkey ∈ d.live
  present : ∃ i member, d.members i = some member

/-- Nobody has opened the device. -/
structure DeviceUnopened (d : Device τ n ι) : Prop where
  absent : ∀ i, d.members i = none
  live : d.live = []
  bound : ∀ shkey, d.bound shkey = none

variable {S} {d d' : Device τ n ι} {out : GshmResult τ}

omit [NeZero n] in
/-- Whoever is bound after an acquisition is live. -/
theorem live_acquire (h : DeviceSound S d) (shkey : τ)
    (entry : ProtectionEntry) (t : τ)
    (ht : (d.bound.insert shkey entry).2 t ≠ none) :
    t ∈ shkey :: d.live := by
  rcases TokenMap.eq_or_bound_of_insert ht with rfl | hbound
  · exact List.mem_cons_self
  · exact List.mem_cons_of_mem _ (h.live t hbound)

/-- Whoever is bound after a revocation is live. -/
theorem live_revoke (hinj : Function.Injective S.hashFunction)
    (h : DeviceSound S d) (shkey t : τ)
    (ht : (d.bound.revoke S.globalKey shkey).2 t ≠ none) :
    t ∈ if (revokeCxl S d.table shkey).1 = 0 then d.live.filter (· ≠ shkey)
      else d.live := by
  have hlive : t ∈ d.live := by
    apply h.live t
    rcases TokenMap.revoke_eq_none_or S.globalKey d.bound shkey t with
      hnone | hsame
    · exact absurd hnone ht
    · rw [← hsame]
      exact ht
  rw [(h.represents.revoke hinj shkey).1]
  split
  · rename_i hzero
    exact List.mem_filter.mpr
      ⟨hlive, decide_eq_true (TokenMap.ne_of_bound_revoke ht hzero)⟩
  · exact hlive

theorem DeviceSound.call (hinj : Function.Injective S.hashFunction)
    (h : DeviceSound S d) {member : Member τ} {op : DeviceOp τ}
    (hcall : deviceCall S d member op = some (out, d')) :
    DeviceSound S d' := by
  cases op with
  | construct => cases hcall
  | readCxl offset size buf shkey => cases hcall; exact h
  | compareCxl offset size buf shkey => cases hcall; exact h
  | writeCxl offset size buf shkey =>
      cases hcall
      refine ⟨?_, h.live, h.present⟩
      show Represents S ((d.seenBy member fun _ => 0).writeCxl S offset size
        buf shkey).2.table d.bound
      rw [Gshm.writeCxl_table]
      exact h.represents
  | acquire rand offset size permission =>
      cases hcall
      exact ⟨(h.represents.insert hinj _ offset size _).2,
        live_acquire h _ _, h.present⟩
  | revokeCxl shkey =>
      cases hcall
      exact ⟨(h.represents.revoke hinj shkey).2, live_revoke hinj h shkey,
        h.present⟩
  | clear =>
      cases hcall
      exact ⟨represents_of_invalid fun i => S.clearSlot_valid (d.table i),
        fun t ht => absurd rfl ht, h.present⟩

/-- On a sound device the record of bindings tells what is found. -/
theorem DeviceSound.nothingFound_iff (hinj : Function.Injective S.hashFunction)
    (h : DeviceSound S d) : NothingFound S d ↔ NothingGranted S d := by
  constructor
  · intro hfound shkey hkey entry hentry
    have hlive := h.live shkey (by rw [hentry]; simp)
    refine hfound shkey hlive hkey entry ?_
    rw [h.represents.binding_eq hinj]
    exact hentry
  · intro hgranted shkey _ hkey entry hentry
    rw [h.represents.binding_eq hinj] at hentry
    exact hgranted shkey hkey entry hentry

/-- What a token opens. -/
theorem Device.opens_iff {shkey : τ} (hkey : shkey ≠ S.globalKey)
    (member : Member τ) (kind : AccessKind) (offset size : Nat) :
    d.Opens S member kind offset size shkey ↔
      ∃ entry, binding S d.table shkey = some entry ∧
        entry.refusal kind.bit offset size = none ∧
        ¬ NullWrite member.self.dataAddr.addr kind offset :=
  exists_access_iff hkey

/-- Under `global_key` an object opens the same on every device. -/
theorem opens_globalKey_congr (d d' : Device τ n ι) (member : Member τ)
    (kind : AccessKind) (offset size : Nat) :
    d'.Opens S member kind offset size S.globalKey ↔
      d.Opens S member kind offset size S.globalKey := by
  simp [Device.Opens, access_globalKey_eq_ok_iff]

/-! ## Constructions -/

section Constructions

variable (S) [DecidableEq ι]

/-- Object `i` is constructed. -/
def Device.join (d : Device τ n ι) (i : ι) (dataAddr : DataAddr)
    (mac : Option UInt8) (batchKey : τ) (useMac : Bool) : Device τ n ι :=
  let g := Gshm.construct S d.data (fun _ => 0) batchKey useMac
    (.construct dataAddr mac)
  { d with
    table := g.table
    data := g.data
    members := Function.update d.members i
      (some ⟨g.batchKey, g.useMac, g.self⟩)
    bound := fun _ => none }

/-- An object is constructed, or a constructed object makes a call. -/
def deviceStep (d : Device τ n ι) (turn : ι × DeviceOp τ) :
    Option (GshmResult τ × Device τ n ι) :=
  match d.members turn.1, turn.2 with
  | none, .construct dataAddr mac batchKey useMac =>
      some (.done, d.join S turn.1 dataAddr mac batchKey useMac)
  | none, _ => none
  | some member, op => deviceCall S d member op

variable {S} {i : ι}

omit [NeZero n] in
theorem DeviceSound.join (d : Device τ n ι) (i : ι) (dataAddr : DataAddr)
    (mac : Option UInt8) (batchKey : τ) (useMac : Bool) :
    DeviceSound S (d.join S i dataAddr mac batchKey useMac) :=
  ⟨represents_of_invalid fun _ => rfl, fun _ hbound => absurd rfl hbound,
    i, _, Function.update_self ..⟩

/-- **Step lemma**: the first construction makes the device sound, and it stays
so. -/
theorem deviceStep_sound (hinj : Function.Injective S.hashFunction)
    {turn : ι × DeviceOp τ} (h : DeviceUnopened d ∨ DeviceSound S d)
    (hstep : deviceStep S d turn = some (out, d')) : DeviceSound S d' := by
  obtain ⟨i, op⟩ := turn
  rw [deviceStep] at hstep
  cases hmember : d.members i with
  | none =>
      simp only [hmember] at hstep
      cases op with
      | construct dataAddr mac batchKey useMac =>
          cases hstep
          exact DeviceSound.join d i dataAddr mac batchKey useMac
      | _ => cases hstep
  | some member =>
      simp only [hmember] at hstep
      rcases h with hunopened | hsound
      · rw [hunopened.absent i] at hmember
        cases hmember
      · exact hsound.call hinj hstep

/-- What constructing an object does to the device. -/
theorem eq_join_of_step {dataAddr : DataAddr} {mac : Option UInt8}
    {batchKey : τ} {useMac : Bool}
    (hstep : deviceStep S d (i, .construct dataAddr mac batchKey useMac) =
      some (out, d')) :
    d' = d.join S i dataAddr mac batchKey useMac := by
  rw [deviceStep] at hstep
  cases hmember : d.members i with
  | none =>
      simp only [hmember] at hstep
      cases hstep
      rfl
  | some member =>
      simp only [hmember] at hstep
      cases hstep

/-- After a construction no other token opens anything. -/
theorem not_opens_join {dataAddr : DataAddr} {mac : Option UInt8}
    {batchKey : τ} {useMac : Bool} {shkey : τ} (hkey : shkey ≠ S.globalKey)
    (member : Member τ) (kind : AccessKind) (offset size : Nat) :
    ¬ (d.join S i dataAddr mac batchKey useMac).Opens S member kind offset size
      shkey := by
  intro hopens
  obtain ⟨slot, haccess⟩ := hopens
  have hvalid := valid_of_find ((access_eq_ok_iff hkey).mp haccess).1
  cases hvalid

/-- A construction leaves the tokens as they are exactly if there was nothing
to lose. -/
theorem keepsTokens_join_iff {j : ι} {member : Member τ}
    (hmember : d.members j = some member) (i : ι) (dataAddr : DataAddr)
    (mac : Option UInt8) (batchKey : τ) (useMac : Bool) :
    KeepsTokens S d (d.join S i dataAddr mac batchKey useMac) ↔
      NothingFound S d := by
  constructor
  · intro hkeeps shkey hlive hkey entry hentry kind
    by_contra hpower
    rw [not_or] at hpower
    -- an entry with power opens the last byte of all
    have hbefore : d.Opens S member kind (2 ^ 64 - 1) 1 shkey :=
      (Device.opens_iff hkey member kind _ _).mpr
        ⟨entry, hentry, refusal_last hpower.1 hpower.2,
          not_nullWrite_last _ kind⟩
    exact not_opens_join hkey member kind _ _
      ((hkeeps shkey hlive j member hmember kind _ _).mpr hbefore)
  · intro hnothing shkey hlive j member _ kind offset size
    by_cases hkey : shkey = S.globalKey
    · rw [hkey]
      exact opens_globalKey_congr d _ member kind offset size
    · apply iff_of_false (not_opens_join hkey member kind offset size)
      intro hopens
      rcases (Device.opens_iff hkey member kind offset size).mp hopens
        with ⟨entry, hentry, hrefusal, _⟩
      exact (hnothing shkey hlive hkey entry hentry).refusal_ne_none kind
        offset size hrefusal

/-- On a device nobody has opened, and on a sound one, that is: if nothing was
granted. -/
theorem keepsTokens_join_iff_granted
    (hinj : Function.Injective S.hashFunction)
    (h : DeviceUnopened d ∨ DeviceSound S d) (i : ι) (dataAddr : DataAddr)
    (mac : Option UInt8) (batchKey : τ) (useMac : Bool) :
    KeepsTokens S d (d.join S i dataAddr mac batchKey useMac) ↔
      NothingGranted S d := by
  rcases h with hunopened | hsound
  · apply iff_of_true
    · intro shkey hlive
      rw [hunopened.live] at hlive
      cases hlive
    · intro shkey _ entry hentry
      rw [hunopened.bound shkey] at hentry
      cases hentry
  · obtain ⟨j, member, hmember⟩ := hsound.present
    exact (keepsTokens_join_iff hmember i dataAddr mac batchKey useMac).trans
      (hsound.nothingFound_iff hinj)

/-- **Run lemma**: from a device nobody has opened. -/
theorem device_run_sound (hinj : Function.Injective S.hashFunction)
    {turns : List (ι × DeviceOp τ)} {outs : List (GshmResult τ)}
    (h : DeviceUnopened d ∨ DeviceSound S d)
    (hrun : run (deviceStep S) d turns = some (outs, d')) :
    DeviceUnopened d' ∨ DeviceSound S d' :=
  run_invariant (P := fun d => DeviceUnopened d ∨ DeviceSound S d)
    (fun _ _ _ _ hd hstep => .inr (deviceStep_sound hinj hd hstep)) h hrun

end Constructions

end System

/-! ## The device of `gshmp.cpp` -/

/-- **Exactly when a construction leaves the tokens of the others as they
are.**  On any device with an object on it, whatever is in its table: if no
live token is found there with a region and a permission.  After every run of
constructions, acquisitions, accesses below the table, revocations and
clearings by any number of objects, on a device that stores anything at the
beginning: if since the last construction nothing that opens anything has been
bound to a token that is still bound. -/
theorem join_keeps_tokens_iff {ι : Type} [DecidableEq ι]
    {d d' : Device UInt16 hashTableSize ι} {out : GshmResult UInt16} {i : ι}
    {dataAddr : DataAddr} {mac : Option UInt8} {batchKey : UInt16}
    {useMac : Bool}
    (hjoin : deviceStep shmpScheme d
      (i, .construct dataAddr mac batchKey useMac) = some (out, d')) :
    (∀ j member, d.members j = some member →
      (KeepsTokens shmpScheme d d' ↔ NothingFound shmpScheme d)) ∧
    ∀ (table : ProtectionTable UInt16 hashTableSize) (data : Bytes)
      (turns : List (ι × DeviceOp UInt16))
      (outs : List (GshmResult UInt16)),
      run (deviceStep shmpScheme) (.unopened table data) turns =
        some (outs, d) →
      (∀ turn ∈ turns, turn.2.BelowTable shmpScheme) →
      (KeepsTokens shmpScheme d d' ↔ NothingGranted shmpScheme d) := by
  rw [eq_join_of_step hjoin]
  refine ⟨fun j member hmember => keepsTokens_join_iff hmember i dataAddr mac
    batchKey useMac, fun table data turns outs hrun _ => ?_⟩
  have hstart : DeviceUnopened (.unopened table data :
      Device UInt16 hashTableSize ι) := ⟨fun _ => rfl, rfl, fun _ => rfl⟩
  exact keepsTokens_join_iff_granted hashFunction_injective
    (device_run_sound hashFunction_injective (.inl hstart) hrun) i dataAddr mac
    batchKey useMac

/-- The constructor of an object of host 1 or host 2. -/
def constructHost (i : Bool) : Bool × DeviceOp UInt16 :=
  (i, .construct Instance.firstHost.dataAddr (hostOneTwo i) 0 false)

/-- The first object has revoked the token it acquired and wrote with. -/
def acquireWriteRevoke : List (Bool × DeviceOp UInt16) :=
  [constructHost true, (true, .acquire (fun _ => 5) 0 8 3),
    (true, .writeCxl 0 8 (fun _ => 1) 5), (true, .revokeCxl 5)]

theorem below_acquireWriteRevoke :
    ∀ turn ∈ acquireWriteRevoke, turn.2.BelowTable shmpScheme := by
  have hwrite : BelowTable shmpScheme 0 8 := by decide
  simp [acquireWriteRevoke, constructHost, DeviceOp.BelowTable, hwrite]

theorem join_keeps_tokens_after_revoke :
    ∃ outs d out d', run (deviceStep shmpScheme)
        (.unopened (zeroTable shmpScheme) fun _ => 0) acquireWriteRevoke =
          some (outs, d) ∧
      deviceStep shmpScheme d (constructHost false) = some (out, d') ∧
      (KeepsTokens shmpScheme d d' ↔ NothingFound shmpScheme d) ∧
      (KeepsTokens shmpScheme d d' ↔ NothingGranted shmpScheme d) := by
  have hruns : ∃ outs d out d' member, run (deviceStep shmpScheme)
      (.unopened (zeroTable shmpScheme) fun _ => 0) acquireWriteRevoke =
        some (outs, d) ∧
      deviceStep shmpScheme d (constructHost false) = some (out, d') ∧
      d.members true = some member :=
    ⟨_, _, _, _, _, rfl, rfl, rfl⟩
  obtain ⟨outs, d, out, d', member, hrun, hjoin, hmember⟩ := hruns
  exact ⟨outs, d, out, d', hrun, hjoin,
    (join_keeps_tokens_iff hjoin).1 true member hmember,
    (join_keeps_tokens_iff hjoin).2 _ _ _ _ hrun below_acquireWriteRevoke⟩

/-- A second object is constructed while the first holds a token, with which
the first can then no longer read the eight bytes it acquired. -/
theorem not_join_keeps_tokens :
    ∃ outs d out d', run (deviceStep shmpScheme)
        (.unopened (zeroTable shmpScheme) fun _ => 0)
        [constructHost true, (true, .acquire (fun _ => 5) 0 8 3)] =
          some (outs, d) ∧
      deviceStep shmpScheme d (constructHost false) = some (out, d') ∧
      ¬ KeepsTokens shmpScheme d d' := by
  refine ⟨_, _, _, _, rfl, rfl, fun hkeeps => ?_⟩
  have hlost := (hkeeps 5 (by decide) true _ rfl .read 0 8).mpr
    ⟨hashFunction 5, by decide⟩
  exact not_opens_join (by decide) _ .read 0 8 hlost

end SHMemora.Ports
