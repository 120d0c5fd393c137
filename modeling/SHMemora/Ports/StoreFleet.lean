import SHMemora.Ports.LayoutCalls
import SHMemora.Ports.SharedAllocation

/-!
# Calls of several objects

`SharedAllocation` follows the insertions of several `gshm` objects on one
shared memory.  Here the objects make any calls of the public interface, one
after another and in any order (`fleetCall`).

What a call may do to the table is little: it makes acquisitions, one after
another, and apart from those only `revoke_cxl` and `clear_protection_table`
touch it.  `Returned` lists the tokens that the acquisitions of a call return;
`returned_of_gshmStep` finds them for every call of the interface.
-/

namespace SHMemora.Ports

open SHMemora.Verified.ByteMemory
open SHMemora.Verified.StepRun

/-! ## The system -/

/-- A call of the public interface by one of the objects; `rand` lists what
`rand()` returns during the call. -/
structure StoreCall (ι τ : Type) where
  member : ι
  op : GshmOp τ
  rand : Nat → Nat

section System

variable {τ : Type} [DecidableEq τ] {n : Nat} [NeZero n] {ι : Type}
  [DecidableEq ι]

/-- The shared memory as one object sees it, with what `rand()` will return. -/
def Fleet.view (f : Fleet τ n ι) (i : ι) (rand : Nat → Nat) : Gshm τ n where
  table := f.table
  data := f.data
  rand := rand
  randCalls := 0
  batchKey := (f.members i).batchKey
  useMac := (f.members i).useMac
  self := (f.members i).self

/-- The system as a call of one of the objects leaves it. -/
def Fleet.leave (f : Fleet τ n ι) (i : ι) (g : Gshm τ n) : Fleet τ n ι where
  table := g.table
  data := g.data
  members := Function.update f.members i ⟨g.batchKey, g.useMac, g.self⟩

/-- What a call leaves behind.  An insertion into a full partition ends its
process: there is no result, but what it has done to the shared memory until
then stays. -/
def callEnd (S : TokenScheme τ n) (fuel : Nat) (g : Gshm τ n)
    (op : GshmOp τ) : Option (Option (GshmResult τ) × Gshm τ n) :=
  match gshmStep S fuel g op, op with
  | some (result, g'), _ => some (some result, g')
  | none, .insert key value =>
      match g.insert S key value with
      | .exited g' => some (none, g')
      | _ => none
  | none, _ => none

/-- One call. -/
def fleetCall (S : TokenScheme τ n) (fuel : Nat) (f : Fleet τ n ι)
    (call : StoreCall ι τ) : Option (Option (GshmResult τ) × Fleet τ n ι) :=
  (callEnd S fuel (f.view call.member call.rand) call.op).map fun r =>
    (r.1, f.leave call.member r.2)

/-! ## What a call does to an object -/

/-- A call returns or ends the process, and leaves this state behind. -/
inductive EndsIn (S : TokenScheme τ n) (fuel : Nat) (g : Gshm τ n)
    (op : GshmOp τ) (g' : Gshm τ n) : Prop
  | returned (result : GshmResult τ)
      (hstep : gshmStep S fuel g op = some (result, g'))
  | exited (key : Key) (value : Bytes) (hop : op = .insert key value)
      (hinsert : g.insert S key value = .exited g')

theorem callEnd_endsIn {S : TokenScheme τ n} {fuel : Nat} {g g' : Gshm τ n}
    {op : GshmOp τ} {result : Option (GshmResult τ)}
    (h : callEnd S fuel g op = some (result, g')) :
    EndsIn S fuel g op g' := by
  rw [callEnd.eq_def] at h
  split at h
  case h_1 hstep =>
    cases h
    exact .returned _ hstep
  case h_2 key value _ =>
    split at h
    case h_1 g₁ hinsert =>
      cases h
      exact .exited key value rfl hinsert
    case h_2 => contradiction
  case h_3 => contradiction

theorem fleetCall_endsIn {S : TokenScheme τ n} {fuel : Nat}
    {f f' : Fleet τ n ι} {call : StoreCall ι τ}
    {result : Option (GshmResult τ)}
    (h : fleetCall S fuel f call = some (result, f')) :
    ∃ g', f' = f.leave call.member g' ∧
      EndsIn S fuel (f.view call.member call.rand) call.op g' := by
  rw [fleetCall, Option.map_eq_some_iff] at h
  obtain ⟨r, hend, heq⟩ := h
  cases heq
  exact ⟨r.2, rfl, callEnd_endsIn hend⟩

/-- Where the partition is full, only the token for the bucket word was
drawn. -/
theorem insert_exited {S : TokenScheme τ n} {g g' : Gshm τ n} {key : Key}
    {value : Bytes} (h : g.insert S key value = .exited g') :
    g' = (g.acquire S (entryOffset key) 8 3).2 := by
  rw [Gshm.insert] at h
  split at h
  case isTrue =>
    rw [Gshm.insertBatched] at h
    simp only at h
    split at h <;> contradiction
  case isFalse => exact insertPlain_exited h

end System

/-! ## The tokens of a call -/

section Tokens

variable {τ : Type} [DecidableEq τ] {n : Nat} [NeZero n]
variable {S : TokenScheme τ n} {g g₁ g' : Gshm τ n}

/-- The table is the same, and so are the tokens that come next. -/
structure SameTokens (g g' : Gshm τ n) : Prop where
  table_eq : g'.table = g.table
  rand_eq : g'.rand = g.rand
  randCalls_eq : g'.randCalls = g.randCalls
  useMac_eq : g'.useMac = g.useMac

/-- The calls of `acquire` on the way from `g` to `g'` have returned these
tokens. -/
inductive Returned (S : TokenScheme τ n) :
    Gshm τ n → List τ → Gshm τ n → Prop
  | done {g g' : Gshm τ n} (h : SameTokens g g') : Returned S g [] g'
  | acquire {g g₁ g' : Gshm τ n} {tokens : List τ} (h : SameTokens g g₁)
      (offset size : Nat) (permission : UInt8)
      (rest : Returned S (g₁.acquire S offset size permission).2 tokens g') :
      Returned S g ((g₁.acquire S offset size permission).1 :: tokens) g'

omit [DecidableEq τ] [NeZero n] in
theorem SameTokens.refl (g : Gshm τ n) : SameTokens g g := ⟨rfl, rfl, rfl, rfl⟩

omit [DecidableEq τ] [NeZero n] in
theorem SameTokens.trans (h : SameTokens g g₁) (h' : SameTokens g₁ g') :
    SameTokens g g' :=
  ⟨h'.table_eq.trans h.table_eq, h'.rand_eq.trans h.rand_eq,
    h'.randCalls_eq.trans h.randCalls_eq, h'.useMac_eq.trans h.useMac_eq⟩

theorem sameTokens_writeCxl (S : TokenScheme τ n) (g : Gshm τ n)
    (offset size : Nat) (buf : Bytes) (shkey : τ) :
    SameTokens g (g.writeCxl S offset size buf shkey).2 :=
  ⟨g.writeCxl_table S .., g.writeCxl_rand S .., g.writeCxl_randCalls S ..,
    g.writeCxl_useMac S ..⟩

theorem sameTokens_fillEntry (S : TokenScheme τ n) (g : Gshm τ n)
    (start valueSize : Nat) (key : Key) (value : Bytes) (shkey : τ) :
    SameTokens g (g.fillEntry S start valueSize key value shkey) :=
  ((sameTokens_writeCxl S g ..).trans (sameTokens_writeCxl S ..)).trans
    (sameTokens_writeCxl S ..)

namespace Returned

variable {tokens tokens' : List τ}

theorem same_left (h : SameTokens g g₁) (h' : Returned S g₁ tokens g') :
    Returned S g tokens g' := by
  cases h' with
  | done hdone => exact .done (h.trans hdone)
  | acquire hsame offset size permission rest =>
      exact .acquire (h.trans hsame) offset size permission rest

theorem trans (h : Returned S g tokens g₁) (h' : Returned S g₁ tokens' g') :
    Returned S g (tokens ++ tokens') g' := by
  induction h with
  | done hsame => exact h'.same_left hsame
  | acquire hsame offset size permission rest ih =>
      exact .acquire hsame offset size permission (ih h')

theorem same_right (h : Returned S g tokens g₁) (h' : SameTokens g₁ g') :
    Returned S g tokens g' := by
  have happend := h.trans (.done h')
  rwa [List.append_nil] at happend

/-- One acquisition. -/
theorem one (S : TokenScheme τ n) (g : Gshm τ n) (offset size : Nat)
    (permission : UInt8) :
    Returned S g [(g.acquire S offset size permission).1]
      (g.acquire S offset size permission).2 :=
  .acquire (.refl g) offset size permission (.done (.refl _))

end Returned

/-! ### Every call of the interface -/

theorem Draws.returned (h : Draws S g g') :
    ∃ tokens, Returned S g tokens g' := by
  induction h with
  | refl g => exact ⟨[], .done (.refl g)⟩
  | @acquire g g' offset size permission _ ih =>
      obtain ⟨tokens, hreturned⟩ := ih
      exact ⟨_, .acquire (.refl g) offset size permission hreturned⟩

/-- The writes of an insertion. -/
theorem sameTokens_entry (S : TokenScheme τ n) (g : Gshm τ n)
    (start valueSize : Nat) (key : Key) (value : Bytes) (shkey shkey' : τ) :
    SameTokens g ((g.fillEntry S start valueSize key value shkey).writeCxl S
      (entryOffset key) 8 (ofWord start) shkey').2 :=
  (sameTokens_fillEntry S g ..).trans (sameTokens_writeCxl S ..)

/-- An acquisition and the writes under its token. -/
theorem Returned.entry (S : TokenScheme τ n) (g : Gshm τ n)
    (start size valueSize : Nat) (key : Key) (value : Bytes) (shkey : τ) :
    Returned S g [(g.acquire S start size 3).1]
      (((g.acquire S start size 3).2.fillEntry S start valueSize key value
        (g.acquire S start size 3).1).writeCxl S (entryOffset key) 8
          (ofWord start) shkey).2 :=
  (one S g start size 3).same_right (sameTokens_entry S ..)

theorem insertBatched_returned {t t' : τ} {key : Key} {value : Bytes}
    (h : g.insertBatched S t key value = .returned t' g') :
    ∃ tokens, Returned S g tokens g' := by
  rw [Gshm.insertBatched] at h
  simp only at h
  split at h
  case isTrue =>
    cases h
    have hself : SameTokens g { g with self := { g.self with
      availableSlots := wrap (g.self.batchKvs + (2 ^ 64 - 1))
      nextFreeOffset := wrap (g.self.nextFreeOffset +
        wrap (g.self.kvSize * g.self.batchKvs)) } } := ⟨rfl, rfl, rfl, rfl⟩
    have hentry := (Returned.entry S _ g.self.nextFreeOffset
      (wrap (g.self.kvSize * g.self.batchKvs)) g.self.valueSize key value
      t).same_left hself
    exact ⟨_, hentry.same_right ⟨rfl, rfl, rfl, rfl⟩⟩
  case isFalse =>
    cases h
    have hself : SameTokens g { g with self := { g.self with
      availableSlots := g.self.availableSlots - 1 } } := ⟨rfl, rfl, rfl, rfl⟩
    exact ⟨[], .done (hself.trans (sameTokens_entry S _ _ g.self.valueSize key
      value _ t))⟩

theorem insertPlain_returned {t t' : τ} {key : Key} {value : Bytes}
    (h : g.insertPlain S t key value = .returned t' g') :
    ∃ tokens, Returned S g tokens g' := by
  rw [Gshm.insertPlain] at h
  simp only at h
  split at h
  case isTrue => contradiction
  case isFalse =>
    cases h
    have hentry := Returned.entry S g g.self.nextFreeOffset g.self.entrySize
      g.self.valueSize key value t
    exact ⟨_, hentry.same_right ⟨rfl, rfl, rfl, rfl⟩⟩

theorem insert_returned {t : τ} {key : Key} {value : Bytes}
    (h : g.insert S key value = .returned t g') :
    ∃ tokens, Returned S g tokens g' := by
  have hone := Returned.one S g (entryOffset key) 8 3
  rw [Gshm.insert] at h
  split at h
  case isTrue =>
    obtain ⟨tokens, hrest⟩ := insertBatched_returned h
    exact ⟨_, hone.trans hrest⟩
  case isFalse =>
    obtain ⟨tokens, hrest⟩ := insertPlain_returned h
    exact ⟨_, hone.trans hrest⟩

theorem putLoop_returned {key : Key} {value : Bytes} {fuel entry : Nat}
    {b : Bool} (h : g.putLoop S key value fuel entry = some (b, g')) :
    ∃ tokens, Returned S g tokens g' := by
  induction fuel generalizing g entry with
  | zero => contradiction
  | succ fuel ih =>
      have hone := Returned.one S g entry 328 3
      rw [Gshm.putLoop] at h
      split at h
      case isTrue =>
        cases h
        exact ⟨[], .done (.refl _)⟩
      case isFalse =>
        simp only at h
        split at h
        case isTrue =>
          cases h
          exact ⟨_, hone.same_right (sameTokens_writeCxl S ..)⟩
        case isFalse =>
          obtain ⟨tokens, hrest⟩ := ih h
          exact ⟨_, hone.trans hrest⟩

theorem putNew_returned {key : Key} {value : Bytes} {t : τ} {b : Bool}
    (h : g.putNew S t key value = .returned b g') :
    ∃ tokens, Returned S g tokens g' := by
  rw [Gshm.putNew] at h
  simp only at h
  split at h
  case isTrue =>
    cases h
    exact ⟨[], .done (.refl g)⟩
  case isFalse =>
    cases h
    have hentry := Returned.entry S g g.self.nextFreeOffset 328 256 key value t
    exact ⟨_, hentry.same_right ⟨rfl, rfl, rfl, rfl⟩⟩

theorem put_returned {key : Key} {value : Bytes} {fuel : Nat} {b : Bool}
    (h : g.put S fuel key value = .returned b g') :
    ∃ tokens, Returned S g tokens g' := by
  have hone := Returned.one S g (entryOffset key) 8 3
  rw [Gshm.put] at h
  split at h
  case h_1 => contradiction
  case h_2 g₁ hloop =>
    cases h
    obtain ⟨tokens, hrest⟩ := putLoop_returned hloop
    exact ⟨_, hone.trans hrest⟩
  case h_3 g₁ hloop =>
    obtain ⟨tokens, hwalk⟩ := putLoop_returned hloop
    obtain ⟨tokens', hnew⟩ := putNew_returned h
    exact ⟨_, (hone.trans hwalk).trans hnew⟩

theorem sameTokens_del {key : Key} {shkey : τ} {b : Bool}
    (h : g.del S key shkey = .returned b g') : SameTokens g g' := by
  rw [del_eq] at h
  split at h
  case h_1 => contradiction
  case h_2 p hend =>
    rw [unlink] at h
    split at h
    case isTrue =>
      cases h
      exact .refl g
    case isFalse =>
      cases h
      exact sameTokens_writeCxl S ..

theorem get_draws {key : Key} {value : Bytes} {shkey : τ} {r : Bool × Bytes}
    (h : g.get S key value shkey = .returned r g') : Draws S g g' := by
  rw [Gshm.get] at h
  split at h
  case h_1 => contradiction
  case h_2 entry g₁ hlookup =>
    split at h <;> cases h <;> exact draws_of_lookup hlookup

theorem update_returned {key : Key} {value : Bytes} {shkey : τ} {b : Bool}
    (h : g.update S key value shkey = .returned b g') :
    ∃ tokens, Returned S g tokens g' := by
  rw [Gshm.update] at h
  split at h
  case h_1 => contradiction
  case h_2 entry g₁ hlookup =>
    obtain ⟨tokens, hdrawn⟩ := (draws_of_lookup hlookup).returned
    split at h
    case isTrue =>
      cases h
      exact ⟨tokens, hdrawn⟩
    case isFalse =>
      cases h
      exact ⟨tokens, hdrawn.same_right (sameTokens_writeCxl S ..)⟩

/-- The two calls that take tokens out of the table. -/
def GshmOp.Invalidates : GshmOp τ → Prop
  | .revokeCxl _ => True
  | .clear => True
  | _ => False

/-- **Every other call only makes acquisitions** as far as the table is
concerned. -/
theorem returned_of_gshmStep {fuel : Nat} {op : GshmOp τ}
    {result : GshmResult τ} (hop : ¬ op.Invalidates)
    (hstep : gshmStep S fuel g op = some (result, g')) :
    ∃ tokens, Returned S g tokens g' := by
  cases op with
  | acquire offset size permission =>
      cases hstep
      exact ⟨_, .one S g offset size permission⟩
  | readCxl offset size buf shkey =>
      cases hstep
      exact ⟨[], .done (.refl g)⟩
  | writeCxl offset size buf shkey =>
      cases hstep
      exact ⟨[], .done (sameTokens_writeCxl S ..)⟩
  | compareCxl offset size buf shkey =>
      cases hstep
      exact ⟨[], .done (.refl g)⟩
  | revokeCxl shkey => exact absurd trivial hop
  | clear => exact absurd trivial hop
  | get key value shkey =>
      obtain ⟨r, g₁, hcall, heq⟩ := Outcome.next_map_eq_some_iff.mp hstep
      cases heq
      exact (get_draws hcall).returned
  | update key value shkey =>
      obtain ⟨b, g₁, hcall, heq⟩ := Outcome.next_map_eq_some_iff.mp hstep
      cases heq
      exact update_returned hcall
  | insert key value =>
      obtain ⟨t, g₁, hcall, heq⟩ := Outcome.next_map_eq_some_iff.mp hstep
      cases heq
      exact insert_returned hcall
  | put key value =>
      obtain ⟨b, g₁, hcall, heq⟩ := Outcome.next_map_eq_some_iff.mp hstep
      cases heq
      exact put_returned hcall
  | del key shkey =>
      obtain ⟨b, g₁, hcall, heq⟩ := Outcome.next_map_eq_some_iff.mp hstep
      cases heq
      exact ⟨[], .done (sameTokens_del hcall)⟩

theorem EndsIn.returned_tokens {fuel : Nat} {op : GshmOp τ}
    (h : EndsIn S fuel g op g') (hop : ¬ op.Invalidates) :
    ∃ tokens, Returned S g tokens g' := by
  cases h with
  | returned result hstep => exact returned_of_gshmStep hop hstep
  | exited key value _ hinsert =>
      rw [insert_exited hinsert]
      exact ⟨_, .one S g (entryOffset key) 8 3⟩

end Tokens

end SHMemora.Ports
