import SHMemora.Verified.AtomicObject
import SHMemora.Ports.TableThreads
import SHMemora.Ports.TokenMap

/-!
# Calls on a map of tokens

The protection table as an object that serves one call at a time: insertions,
accesses and revocations on a `TokenMap`, for a hash without collisions.

Interleaved calls on one token can go wrong.  An insertion shows the token and
its region only after it has marked the slot valid, so that no other call on
the token may run beside it; and two revocations of a token both succeed.
`CalmTokens` excludes this and nothing else: calls on different tokens never
meet, and an access may run beside a revocation.

`TableSound` is what the table and the hosts between two accesses are like in a
calm run: every slot that is valid is the home slot of its token or of a token
that is about to be stored there, and every call knows about the slot what it
has tested so far.

## Main result

* `tableSound_turn` — a calm turn keeps this.
-/

namespace SHMemora.Ports

open SHMemora.Verified.ByteMemory
open SHMemora.Verified.StepRun
open SHMemora.Verified.ThreadPool

/-! ## Calls and conflicts -/

/-- A call, for an insertion with the entry it is going to store. -/
inductive TokenCall (τ : Type) where
  | insert (shkey : τ) (entry : ProtectionEntry)
  | access (shkey : τ) (wanted : Wanted)
  | revoke (shkey : τ)

namespace TokenCall

variable {τ : Type}

def shkey : TokenCall τ → τ
  | insert shkey _ => shkey
  | access shkey _ => shkey
  | revoke shkey => shkey

def isInsert : TokenCall τ → Bool
  | insert _ _ => true
  | _ => false

def isRevoke : TokenCall τ → Bool
  | revoke _ => true
  | _ => false

/-- Two calls that must not run beside each other. -/
def Conflicts (call call' : TokenCall τ) : Prop :=
  call.shkey = call'.shkey ∧
    (call.isInsert = true ∨ call'.isInsert = true ∨
      (call.isRevoke = true ∧ call'.isRevoke = true))

end TokenCall

/-- The call of a lookup or of `revoke_cxl`. -/
def Query.call {ι τ : Type} (query : Query ι τ) : TokenCall τ :=
  match query.purpose with
  | .access wanted => .access query.shkey wanted
  | .revoke => .revoke query.shkey

/-- The call an insertion makes. -/
def InsertCall.call {ι τ : Type} (call : InsertCall ι τ) : TokenCall τ :=
  .insert call.shkey call.pentry

/-- The call a host begins. -/
def HostCall.call {τ : Type} : HostCall τ → TokenCall τ
  | .insert shkey offset size permission =>
      .insert shkey (.of offset size permission)
  | .access shkey bit offset size => .access shkey ⟨bit, offset, size⟩
  | .revoke shkey => .revoke shkey

@[simp] theorem Query.call_shkey {ι τ : Type} (query : Query ι τ) :
    query.call.shkey = query.shkey := by
  unfold Query.call
  split <;> rfl

@[simp] theorem Query.call_isInsert {ι τ : Type} (query : Query ι τ) :
    query.call.isInsert = false := by
  unfold Query.call
  split <;> rfl

namespace TablePhase

variable {ι τ : Type} {n : Nat}

/-- The call a host is in. -/
def call : TablePhase ι τ n → Option (TokenCall τ)
  | idle => none
  | claim call _ | testShkey call _ | storeShkey call _
  | storePentry call _ => some call.call
  | loopValid query _ | loopShkey query _ | finalValid query _
  | finalShkey query _ | regionSize query _ _ _ | regionOffset query _ _ _
  | endOffset query _ _ _ | endSize query _ _ _ _ | permission query _ _ _
  | storeValid query _ => some query.call

/-- The slot a host is looking at. -/
def slot : TablePhase ι τ n → Option (Fin n)
  | idle => none
  | claim _ i | testShkey _ i | storeShkey _ i | storePentry _ i => some i
  | loopValid _ i | loopShkey _ i | finalValid _ i | finalShkey _ i
  | regionSize _ _ i _ | regionOffset _ _ i _ | endOffset _ _ i _
  | endSize _ _ i _ _ | permission _ _ i _ | storeValid _ i => some i

/-- The insertion that has claimed its slot. -/
def claims : TablePhase ι τ n → Option (InsertCall ι τ)
  | storeShkey call _ | storePentry call _ => some call
  | _ => none

end TablePhase

/-! ## Assertions -/

section Assertions

variable {ι τ : Type} [DecidableEq τ] {n : Nat} [NeZero n]
  (S : TokenScheme τ n)

omit [DecidableEq τ] [NeZero n] in
/-- No two hosts are in calls that must not run beside each other. -/
def CalmTokens (p : TablePool ι τ n) : Prop :=
  ∀ i j, i ≠ j → ∀ c c', (p.phase i).call = some c →
    (p.phase j).call = some c' → ¬ c.Conflicts c'

omit [DecidableEq τ] [NeZero n] in
/-- What a search knows about its slot once it has found it valid. -/
def FoundIn (query : Query ι τ) (i : Fin n) (σ : SharedTable ι τ n) : Prop :=
  (σ.table i).shkey = query.shkey ∧
    (query.purpose = .revoke → (σ.table i).valid = true)

omit [DecidableEq τ] [NeZero n] in
/-- What a lookup knows about the slot whose region it tests. -/
def Tests (query : Query ι τ) (wanted : Wanted) (i : Fin n)
    (σ : SharedTable ι τ n) (passed : ProtectionEntry → Prop) : Prop :=
  query.purpose = .access wanted ∧ (query.shkey ≠ S.globalKey →
    (σ.table i).shkey = query.shkey ∧ passed (σ.table i).pentry)

omit [DecidableEq τ] [NeZero n] in
/-- The tests of the bounds have been passed. -/
def WithinBounds (wanted : Wanted) (entry : ProtectionEntry) : Prop :=
  entry.size ≠ 0 ∧ ¬ (wanted.offset < entry.offset ∨
    wrap (entry.offset + entry.size) < wrap (wanted.offset + wanted.size))

omit [DecidableEq τ] [NeZero n] in
/-- What a host knows about its slot before its next access. -/
def Knows (phase : TablePhase ι τ n) (σ : SharedTable ι τ n) : Prop :=
  match phase with
  | .idle | .claim _ _ | .loopValid _ _ | .finalValid _ _ => True
  | .testShkey call i => (σ.table i).shkey = call.shkey
  | .storeShkey _ i => (σ.table i).valid = true
  | .storePentry call i =>
      (σ.table i).valid = true ∧ (σ.table i).shkey = call.shkey
  | .loopShkey query i => (σ.table i).shkey = query.shkey
  | .finalShkey query i => FoundIn query i σ
  | .regionSize query wanted i _ =>
      Tests S query wanted i σ fun _ => True
  | .regionOffset query wanted i _ =>
      Tests S query wanted i σ fun entry => entry.size ≠ 0
  | .endOffset query wanted i _ =>
      Tests S query wanted i σ fun entry =>
        entry.size ≠ 0 ∧ ¬ wanted.offset < entry.offset
  | .endSize query wanted i _ regionOffset =>
      Tests S query wanted i σ fun entry =>
        entry.size ≠ 0 ∧ ¬ wanted.offset < entry.offset ∧
          regionOffset = entry.offset
  | .permission query wanted i _ =>
      Tests S query wanted i σ (WithinBounds wanted)
  | .storeValid query i =>
      query.purpose = .revoke ∧
        (query.shkey = S.globalKey ∨ FoundIn query i σ)

/-- The table and the hosts between two accesses. -/
structure TableSound (p : TablePool ι τ n) : Prop where
  home : ∀ i, (p.shared.table i).valid = true →
    S.hashFunction (p.shared.table i).shkey = i ∨
      ∃ j call, p.phase j = .storeShkey call i
  slots : ∀ j c i, (p.phase j).call = some c → (p.phase j).slot = some i →
    i = S.hashFunction c.shkey
  knows : ∀ j, Knows S (p.phase j) p.shared

/-! ## Interference -/

variable {S} {p : TablePool ι τ n} {i : ι} {phase phase' : TablePhase ι τ n}
  {σ σ' : SharedTable ι τ n} {o : TableEvent ι τ} {c : TokenCall τ}
  {k : Fin n}

omit [DecidableEq τ] [NeZero n] in
/-- What a host knows depends on the token and the region in its slot, and for
all but an access on the flag. -/
theorem Knows.congr (h : Knows S phase σ) (hslot : phase.slot = some k)
    (hshkey : (σ'.table k).shkey = (σ.table k).shkey)
    (hpentry : (σ'.table k).pentry = (σ.table k).pentry)
    (hvalid : (∀ c wanted, phase.call = some c → c ≠ .access c.shkey wanted) →
      (σ'.table k).valid = (σ.table k).valid) : Knows S phase σ' := by
  cases phase <;> cases hslot <;>
    simp only [Knows, FoundIn, Tests, hshkey, hpentry] at h ⊢
  case testShkey => exact h
  case storeShkey call =>
    rw [hvalid fun c wanted hcall => by cases hcall; simp [InsertCall.call]]
    exact h
  case storePentry call =>
    rw [hvalid fun c wanted hcall => by cases hcall; simp [InsertCall.call]]
    exact h
  case finalShkey query =>
    refine ⟨h.1, fun hrevoke => ?_⟩
    rw [hvalid fun c wanted hcall => by
      cases hcall
      simp [Query.call, hrevoke]]
    exact h.2 hrevoke
  case storeValid query =>
    refine ⟨h.1, h.2.imp_right fun hfound => ⟨hfound.1, fun hrevoke => ?_⟩⟩
    rw [hvalid fun c wanted hcall => by
      cases hcall
      simp [Query.call, hrevoke]]
    exact hfound.2 hrevoke
  all_goals exact h

/-- What an access does to the table. -/
inductive TableChange (σ : SharedTable ι τ n) :
    TablePhase ι τ n → TablePhase ι τ n → SharedTable ι τ n → Prop
  | none {phase phase' : TablePhase ι τ n}
      (hquiet : ∀ call i, phase ≠ .storeShkey call i) :
      TableChange σ phase phase' σ
  | claim (call : InsertCall ι τ) (i : Fin n)
      (hfree : (σ.table i).valid = false) :
      TableChange σ (.claim call i) (.storeShkey call i) (σ.claim call i)
  | storeShkey (call : InsertCall ι τ) (i : Fin n) :
      TableChange σ (.storeShkey call i) (.storePentry call i)
        (σ.storeShkey call i)
  | storePentry (call : InsertCall ι τ) (i : Fin n) :
      TableChange σ (.storePentry call i) .idle (σ.storePentry call i)
  | revoke (query : Query ι τ) (i : Fin n) :
      TableChange σ (.storeValid query i) .idle (σ.revoke query.shkey i)

/-- **Inversion lemma**: all that an access can do to the table. -/
theorem tableChange_of_hostAccess
    (hact : hostAccess S phase σ = some (o, phase', σ')) :
    TableChange σ phase phase' σ' := by
  cases phase with
  | idle => cases hact
  | claim call i =>
      simp only [hostAccess] at hact
      split at hact
      · rename_i hfree
        cases hact
        exact .claim call i hfree
      · cases hact
        exact .none (by simp)
  | storeShkey call i =>
      cases hact
      exact .storeShkey call i
  | storePentry call i =>
      cases hact
      exact .storePentry call i
  | storeValid query i =>
      cases hact
      exact .revoke query i
  | _ =>
      simp only [hostAccess] at hact
      repeat' split at hact
      all_goals
        cases hact
        exact .none (by simp)

variable (hinj : Function.Injective S.hashFunction) (h : TableSound S p)
  (hcalm : CalmTokens p)
include hinj h hcalm

omit [DecidableEq τ] [NeZero n] in
/-- A valid slot of a host in a call shows the token of the call, unless it is
about to be stored. -/
theorem shows_of_valid (hcall : (p.phase i).call = some c)
    (hslot : (p.phase i).slot = some k)
    (hnot : ∀ call j, p.phase i ≠ .storeShkey call j)
    (hvalid : (p.shared.table k).valid = true) :
    (p.shared.table k).shkey = c.shkey := by
  have hk := h.slots i c k hcall hslot
  rcases h.home k hvalid with hhome | ⟨j, call, hj⟩
  · exact hinj (hhome.trans hk)
  · have hne : j ≠ i := by
      rintro rfl
      exact hnot call k hj
    have hsame : k = S.hashFunction call.shkey :=
      h.slots j call.call k (by rw [hj]; rfl) (by rw [hj]; rfl)
    refine absurd ⟨hinj (hsame.symm.trans hk), .inl rfl⟩
      (hcalm j i hne call.call c (by rw [hj]; rfl) hcall)

/-- What a turn of another host leaves alone of the slot of a host. -/
theorem slot_kept {j : ι} (hj : j ≠ i)
    (hact : hostAccess S (p.phase i) p.shared = some (o, phase', σ'))
    (hcall : (p.phase j).call = some c) (hslot : (p.phase j).slot = some k) :
    (σ'.table k).shkey = (p.shared.table k).shkey ∧
      (σ'.table k).pentry = (p.shared.table k).pentry ∧
      ((∀ wanted, c ≠ .access c.shkey wanted) →
        (σ'.table k).valid = (p.shared.table k).valid) := by
  have hk := h.slots j c k hcall hslot
  -- The slot of another call with which this one may run is another slot.
  have hapart : ∀ c' k', (p.phase i).call = some c' →
      (p.phase i).slot = some k' → k = k' → ¬ c'.Conflicts c ∧
        c'.shkey = c.shkey := by
    intro c' k' hcall' hslot' heq
    have hk' := h.slots i c' k' hcall' hslot'
    exact ⟨hcalm i j (Ne.symm hj) c' c hcall' hcall,
      hinj (hk'.symm.trans (heq.symm.trans hk))⟩
  have hinsert : ∀ (call : InsertCall ι τ) k',
      (p.phase i).call = some call.call → (p.phase i).slot = some k' →
        k ≠ k' := by
    intro call k' hcall' hslot' heq
    obtain ⟨hconflict, hsame⟩ := hapart _ k' hcall' hslot' heq
    exact hconflict ⟨hsame, .inl rfl⟩
  have hchange := tableChange_of_hostAccess hact
  generalize hphase : p.phase i = phase at hchange
  cases hchange with
  | none => exact ⟨rfl, rfl, fun _ => rfl⟩
  | claim call k' =>
      have hne := hinsert call k' (by rw [hphase]; rfl) (by rw [hphase]; rfl)
      simp [SharedTable.claim_table_of_ne hne]
  | storeShkey call k' =>
      have hne := hinsert call k' (by rw [hphase]; rfl) (by rw [hphase]; rfl)
      simp [SharedTable.storeShkey_table_of_ne hne]
  | storePentry call k' =>
      have hne := hinsert call k' (by rw [hphase]; rfl) (by rw [hphase]; rfl)
      simp [SharedTable.storePentry_table_of_ne hne]
  | revoke query k' =>
      refine ⟨by simp, by simp, fun hother => ?_⟩
      by_cases heq : k = k'
      · have hrevoke := (h.knows i)
        rw [hphase] at hrevoke
        obtain ⟨hconflict, hsame⟩ := hapart query.call k'
          (by rw [hphase]; rfl) (by rw [hphase]; rfl) heq
        refine absurd ⟨hsame, ?_⟩ hconflict
        have hmine : query.call.isRevoke = true := by
          simp [Query.call, hrevoke.1, TokenCall.isRevoke]
        cases c with
        | insert => exact .inr (.inl rfl)
        | access shkey wanted => exact absurd rfl (hother wanted)
        | revoke => exact .inr (.inr ⟨hmine, rfl⟩)
      · rw [SharedTable.revoke_table_of_ne heq]

omit hinj h hcalm in
omit [DecidableEq τ] [NeZero n] in
theorem idle_sound (σ : SharedTable ι τ n) :
    (∀ c k, (.idle : TablePhase ι τ n).call = some c →
      (.idle : TablePhase ι τ n).slot = some k →
        k = S.hashFunction c.shkey) ∧
      Knows S (.idle : TablePhase ι τ n) σ :=
  ⟨fun _ _ hcall => (nomatch hcall), trivial⟩

/-- A host goes on with its call at its slot, and knows what it has tested. -/
theorem own_turn (hact : hostAccess S (p.phase i) p.shared =
      some (o, phase', σ')) :
    (∀ c k, phase'.call = some c → phase'.slot = some k →
      k = S.hashFunction c.shkey) ∧ Knows S phase' σ' := by
  have hown := h.knows i
  have hslots := fun c k => h.slots i c k
  have hshows := fun c k hcall hslot =>
    shows_of_valid hinj h hcalm (i := i) (c := c) (k := k) hcall hslot
  cases hphase : p.phase i <;> rw [hphase] at hact hown hslots hshows
  case idle => cases hact
  case claim call k =>
    simp only [hostAccess] at hact
    split at hact
    · cases hact
      exact ⟨hslots, by simp [Knows]⟩
    · rename_i hbusy
      cases hact
      exact ⟨hslots, hshows call.call k rfl rfl (by simp)
        (by simpa using hbusy)⟩
  case testShkey call k =>
    simp only [hostAccess] at hact
    rw [if_pos (show _ = call.shkey from hown)] at hact
    cases hact
    exact idle_sound _
  case storeShkey call k =>
    cases hact
    refine ⟨hslots, ?_, by simp⟩
    rw [SharedTable.storeShkey_valid]
    exact hown
  case storePentry call k =>
    cases hact
    exact idle_sound _
  case loopValid query k =>
    simp only [hostAccess] at hact
    split at hact
    · rename_i hvalid
      cases hact
      refine ⟨hslots, ?_⟩
      have hshkey := hshows query.call k rfl rfl (by simp) hvalid
      rw [query.call_shkey] at hshkey
      exact hshkey
    · cases hact
      exact ⟨hslots, trivial⟩
  case loopShkey query k =>
    simp only [hostAccess] at hact
    rw [if_neg fun hother => hother.1 hown] at hact
    cases hact
    exact ⟨hslots, trivial⟩
  case finalValid query k =>
    simp only [hostAccess] at hact
    split at hact
    · rename_i hvalid
      cases hact
      have hshkey := hshows query.call k rfl rfl (by simp) hvalid
      rw [query.call_shkey] at hshkey
      exact ⟨hslots, hshkey, fun _ => hvalid⟩
    · split at hact
      · cases hact
        exact idle_sound _
      · rename_i hglobal
        rw [not_not] at hglobal
        cases hact
        unfold Query.proceed
        split
        · rename_i wanted hpurpose
          exact ⟨hslots, hpurpose, fun hne => absurd hglobal hne⟩
        · rename_i hpurpose
          exact ⟨hslots, hpurpose, .inl hglobal⟩
  case finalShkey query k =>
    simp only [hostAccess] at hact
    rw [if_neg fun hother => hother.1 hown.1] at hact
    cases hact
    unfold Query.proceed
    split
    · rename_i wanted hpurpose
      exact ⟨hslots, hpurpose, fun _ => ⟨hown.1, trivial⟩⟩
    · rename_i hpurpose
      exact ⟨hslots, hpurpose, .inr hown⟩
  case regionSize query wanted k used =>
    simp only [hostAccess] at hact
    split at hact
    · cases hact
      exact idle_sound _
    · rename_i hsize
      cases hact
      refine ⟨hslots, hown.1, fun hne => ⟨(hown.2 hne).1, fun hzero => ?_⟩⟩
      exact hsize ⟨hzero, hne⟩
  case regionOffset query wanted k used =>
    simp only [hostAccess] at hact
    split at hact
    · rename_i hlow
      split at hact
      · cases hact
        exact idle_sound _
      · rename_i hglobal
        cases hact
        exact ⟨hslots, hown.1, fun hne => absurd hne hglobal⟩
    · rename_i hlow
      cases hact
      exact ⟨hslots, hown.1, fun hne =>
        ⟨(hown.2 hne).1, (hown.2 hne).2, hlow⟩⟩
  case endOffset query wanted k used =>
    cases hact
    exact ⟨hslots, hown.1, fun hne => ⟨(hown.2 hne).1, (hown.2 hne).2.1,
      (hown.2 hne).2.2, rfl⟩⟩
  case endSize query wanted k used regionOffset =>
    simp only [hostAccess] at hact
    split at hact
    · cases hact
      exact idle_sound _
    · rename_i hhigh
      cases hact
      refine ⟨hslots, hown.1, fun hne => ?_⟩
      rcases hown.2 hne with ⟨hshkey, hsize, hlow, hoffset⟩
      refine ⟨hshkey, hsize, fun hout => ?_⟩
      rcases hout with hout | hout
      · exact hlow hout
      · exact hhigh ⟨by rw [hoffset]; exact hout, hne⟩
  case permission query wanted k used =>
    simp only [hostAccess] at hact
    split at hact <;> cases hact <;>
      exact idle_sound _
  case storeValid query k =>
    cases hact
    exact idle_sound _

variable [DecidableEq ι]

omit hinj hcalm in
/-- Valid slots stay home slots. -/
theorem home_turn (hact : hostAccess S (p.phase i) p.shared =
      some (o, phase', σ')) (m : Fin n) (hvalid : (σ'.table m).valid = true) :
    S.hashFunction (σ'.table m).shkey = m ∨
      ∃ j call, (p.advance i phase' σ').phase j = .storeShkey call m := by
  -- A token that another host is about to store is still to be stored.
  have hkeep : (∀ call, p.phase i ≠ .storeShkey call m) →
      S.hashFunction (p.shared.table m).shkey = m ∨
        (∃ j call, p.phase j = .storeShkey call m) →
      S.hashFunction (p.shared.table m).shkey = m ∨
        ∃ j call, (p.advance i phase' σ').phase j = .storeShkey call m := by
    intro hnot hwas
    refine hwas.imp_right fun hstore => ?_
    rcases hstore with ⟨j, call, hj⟩
    have hne : j ≠ i := by
      rintro rfl
      exact hnot call hj
    exact ⟨j, call, by rw [Pool.advance_phase_of_ne p hne, hj]⟩
  have hslots := fun c k => h.slots i c k
  have hchange := tableChange_of_hostAccess hact
  generalize hphase : p.phase i = phase at hchange hslots
  rw [hphase] at hkeep
  cases hchange with
  | none hquiet =>
      exact hkeep (fun call => hquiet call m) (h.home m hvalid)
  | claim call k =>
      by_cases hm : m = k
      · exact .inr ⟨i, call, by rw [hm, Pool.advance_phase_self]⟩
      · rw [SharedTable.claim_table_of_ne hm] at hvalid ⊢
        exact hkeep (by simp) (h.home m hvalid)
  | storeShkey call k =>
      by_cases hm : m = k
      · left
        rw [hm, SharedTable.storeShkey_table_self]
        exact (hslots call.call k rfl rfl).symm
      · rw [SharedTable.storeShkey_table_of_ne hm] at hvalid ⊢
        refine hkeep (fun call' hsame => hm ?_) (h.home m hvalid)
        cases hsame
        rfl
  | storePentry call k =>
      rw [SharedTable.storePentry_valid] at hvalid
      rw [SharedTable.storePentry_shkey]
      exact hkeep (by simp) (h.home m hvalid)
  | revoke query k =>
      by_cases hm : m = k
      · rw [hm, SharedTable.revoke_table_self] at hvalid
        cases hvalid
      · rw [SharedTable.revoke_table_of_ne hm] at hvalid ⊢
        exact hkeep (by simp) (h.home m hvalid)

/-- **Turn lemma**: a calm turn leaves the table and the hosts sound. -/
theorem tableSound_turn {op : Option (HostCall τ)}
    (hact : hostTurn S i op (p.phase i) p.shared = some (o, phase', σ')) :
    TableSound S (p.advance i phase' σ') := by
  cases op with
  | some op =>
      cases hphase : p.phase i <;> simp only [hphase, hostTurn] at hact <;>
        cases hact
      refine ⟨fun m hvalid => ?_, fun j c k hcall hslot => ?_, fun j => ?_⟩
      · refine (h.home m hvalid).imp_right fun hstore => ?_
        rcases hstore with ⟨j, call, hj⟩
        have hne : j ≠ i := by
          rintro rfl
          rw [hphase] at hj
          cases hj
        exact ⟨j, call, by rw [Pool.advance_phase_of_ne p hne, hj]⟩
      · by_cases hj : j = i
        · rw [hj, Pool.advance_phase_self] at hcall hslot
          cases op <;> cases hcall <;> cases hslot <;> rfl
        · rw [Pool.advance_phase_of_ne p hj] at hcall hslot
          exact h.slots j c k hcall hslot
      · by_cases hj : j = i
        · rw [hj, Pool.advance_phase_self]
          cases op <;> exact trivial
        · rw [Pool.advance_phase_of_ne p hj]
          exact h.knows j
  | none =>
      refine ⟨home_turn h hact, fun j c k hcall hslot => ?_,
        fun j => ?_⟩
      · by_cases hj : j = i
        · rw [hj, Pool.advance_phase_self] at hcall hslot
          exact (own_turn hinj h hcalm hact).1 c k hcall hslot
        · rw [Pool.advance_phase_of_ne p hj] at hcall hslot
          exact h.slots j c k hcall hslot
      · by_cases hj : j = i
        · rw [hj, Pool.advance_phase_self]
          exact (own_turn hinj h hcalm hact).2
        · rw [Pool.advance_phase_of_ne p hj]
          have hknows := h.knows j
          cases hphase : p.phase j
          case idle => exact trivial
          all_goals
            obtain ⟨hshkey, hpentry, hvalid⟩ := slot_kept hinj h hcalm hj hact
              (by rw [hphase]; rfl) (by rw [hphase]; rfl)
            rw [hphase] at hknows
            refine hknows.congr rfl hshkey hpentry fun hother => hvalid ?_
            exact fun wanted => hother _ wanted rfl

end Assertions

end SHMemora.Ports
