import SHMemora.Ports.GshmStore

/-!
# Calls of the protected store

`GshmOp` is one call of the public interface of `gshm` and `gshmStep` what it
does; a history of the store is a list of calls fed to `run`.  A call that
does not return has no step.

The number of draws never goes down (`randCalls_le_of_step`), which lets a
property of the tokens drawn in a run be used at every step of it.
-/

namespace SHMemora.Ports

open SHMemora.Verified.ByteMemory
open SHMemora.Verified.StepRun

/-- A call of the public interface. -/
inductive GshmOp (τ : Type) where
  | acquire (offset size : Nat) (permission : UInt8)
  | readCxl (offset size : Nat) (buf : Bytes) (shkey : τ)
  | writeCxl (offset size : Nat) (buf : Bytes) (shkey : τ)
  | compareCxl (offset size : Nat) (buf : Bytes) (shkey : τ)
  | revokeCxl (shkey : τ)
  | clear
  | get (key : Key) (value : Bytes) (shkey : τ)
  | update (key : Key) (value : Bytes) (shkey : τ)
  | insert (key : Key) (value : Bytes)
  | put (key : Key) (value : Bytes)
  | del (key : Key) (shkey : τ)

/-- What a call hands back: a token, a status code, an answer, and for reads
and `get` the buffer next to it. -/
inductive GshmResult (τ : Type) where
  | shkey (shkey : τ)
  | status (code : Int)
  | read (code : Int) (buf : Bytes)
  | answer (found : Bool)
  | fetched (found : Bool) (value : Bytes)
  | done

section Step

variable {τ : Type} [DecidableEq τ] {n : Nat} [NeZero n]

/-- One call; `fuel` bounds the rounds of the loop in `put`. -/
def gshmStep (S : TokenScheme τ n) (fuel : Nat) (g : Gshm τ n) :
    GshmOp τ → Option (GshmResult τ × Gshm τ n)
  | .acquire offset size permission =>
      let r := g.acquire S offset size permission
      some (.shkey r.1, r.2)
  | .readCxl offset size buf shkey =>
      let r := g.readCxl S offset size buf shkey
      some (.read r.1 r.2, g)
  | .writeCxl offset size buf shkey =>
      let r := g.writeCxl S offset size buf shkey
      some (.status r.1, r.2)
  | .compareCxl offset size buf shkey =>
      some (.status (g.compareCxl S offset size buf shkey), g)
  | .revokeCxl shkey =>
      let r := revokeCxl S g.table shkey
      some (.status r.1, { g with table := r.2 })
  | .clear => some (.done, { g with table := clearProtectionTable S g.table })
  | .get key value shkey =>
      (g.get S key value shkey).next.map fun r => (.fetched r.1.1 r.1.2, r.2)
  | .update key value shkey =>
      (g.update S key value shkey).next.map fun r => (.answer r.1, r.2)
  | .insert key value =>
      (g.insert S key value).next.map fun r => (.shkey r.1, r.2)
  | .put key value =>
      (g.put S fuel key value).next.map fun r => (.answer r.1, r.2)
  | .del key shkey =>
      (g.del S key shkey).next.map fun r => (.answer r.1, r.2)

/-! ## Accesses and draws -/

/-- An access of the store is accepted. -/
def Accepted (S : TokenScheme τ n) (g : Gshm τ n) (kind : AccessKind)
    (offset size : Nat) (shkey : τ) : Prop :=
  ∃ i, access S g.table g.self.dataAddr.addr kind offset size shkey = .ok i

/-- The region and permission a call of `acquire` asks for. -/
def request (offset size : Nat) (permission : UInt8) : ProtectionEntry :=
  .of offset size (.ofNat 32 permission.toNat)

/-- The token the next `acquire` returns. -/
def drawn (S : TokenScheme τ n) (g : Gshm τ n) : τ := (g.draw S).1

variable {S : TokenScheme τ n} {g : Gshm τ n}

/-- Whoever draws `global_key` may read everything. -/
theorem accepted_globalKey (o s : Nat) :
    Accepted S g .read o s S.globalKey :=
  ⟨S.hashFunction S.globalKey,
    access_globalKey_eq_ok_iff.mpr ⟨rfl, by simp [NullWrite]⟩⟩

/-! ## The number of draws -/

variable (S g) in
theorem randCalls_le_acquire (offset size : Nat) (permission : UInt8) :
    g.randCalls ≤ (g.acquire S offset size permission).2.randCalls :=
  Nat.le_add_right _ _

@[simp] theorem fillEntry_randCalls (start valueSize : Nat) (key : Key)
    (value : Bytes) (shkey : τ) :
    (g.fillEntry S start valueSize key value shkey).randCalls =
      g.randCalls := by
  simp [Gshm.fillEntry]

@[simp] theorem fillEntry_self (start valueSize : Nat) (key : Key)
    (value : Bytes) (shkey : τ) :
    (g.fillEntry S start valueSize key value shkey).self = g.self := by
  simp [Gshm.fillEntry]

theorem chainLoop_randCalls_le {key : Key} {permission : UInt8}
    {fuel entry e : Nat} {g' : Gshm τ n}
    (h : g.chainLoop S key permission fuel entry = some (e, g')) :
    g.randCalls ≤ g'.randCalls := by
  induction fuel generalizing g entry with
  | zero => contradiction
  | succ fuel ih =>
      rw [Gshm.chainLoop] at h
      split at h
      case isTrue => cases h; exact Nat.le_refl _
      case isFalse =>
        apply Nat.le_trans
          (randCalls_le_acquire S g entry g.self.entrySize permission)
        simp only at h
        split at h
        case isTrue => cases h; exact Nat.le_refl _
        case isFalse => exact ih h

theorem lookup_randCalls_le {key : Key} {permission : UInt8} {e : Nat}
    {g' : Gshm τ n} (h : g.lookup S key permission = some (e, g')) :
    g.randCalls ≤ g'.randCalls :=
  Nat.le_trans (randCalls_le_acquire S g (entryOffset key) 8 permission)
    (chainLoop_randCalls_le h)

theorem get_randCalls_le {key : Key} {value : Bytes} {shkey : τ}
    {r : Bool × Bytes} {g' : Gshm τ n}
    (h : g.get S key value shkey = .returned r g') :
    g.randCalls ≤ g'.randCalls := by
  rw [Gshm.get] at h
  split at h
  case h_1 => contradiction
  case h_2 entry g₁ hlookup =>
    have hle := lookup_randCalls_le hlookup
    split at h
    case isTrue => cases h; exact hle
    case isFalse => cases h; exact hle

theorem update_randCalls_le {key : Key} {value : Bytes} {shkey : τ} {b : Bool}
    {g' : Gshm τ n} (h : g.update S key value shkey = .returned b g') :
    g.randCalls ≤ g'.randCalls := by
  rw [Gshm.update] at h
  split at h
  case h_1 => contradiction
  case h_2 entry g₁ hlookup =>
    have hle := lookup_randCalls_le hlookup
    split at h
    case isTrue => cases h; exact hle
    case isFalse =>
      cases h
      rw [Gshm.writeCxl_randCalls]
      exact hle

theorem putLoop_randCalls_le {key : Key} {value : Bytes} {fuel entry : Nat}
    {b : Bool} {g' : Gshm τ n}
    (h : g.putLoop S key value fuel entry = some (b, g')) :
    g.randCalls ≤ g'.randCalls := by
  induction fuel generalizing g entry with
  | zero => contradiction
  | succ fuel ih =>
      rw [Gshm.putLoop] at h
      split at h
      case isTrue => cases h; exact Nat.le_refl _
      case isFalse =>
        apply Nat.le_trans (randCalls_le_acquire S g entry 328 3)
        simp only at h
        split at h
        case isTrue =>
          cases h
          rw [Gshm.writeCxl_randCalls]
        case isFalse => exact ih h

theorem delLoop_randCalls {key : Key} {shkey : τ}
    {fuel prevNextPtr entry : Nat} {b : Bool} {g' : Gshm τ n}
    (h : g.delLoop S key shkey fuel prevNextPtr entry = .returned b g') :
    g'.randCalls = g.randCalls := by
  induction fuel generalizing prevNextPtr entry with
  | zero => contradiction
  | succ fuel ih =>
      rw [Gshm.delLoop] at h
      split at h
      case isTrue => cases h; rfl
      case isFalse =>
        simp only at h
        split at h
        case isTrue =>
          cases h
          rw [Gshm.writeCxl_randCalls]
        case isFalse => exact ih h

theorem insert_randCalls_le {key : Key} {value : Bytes} {t : τ}
    {g' : Gshm τ n} (h : g.insert S key value = .returned t g') :
    g.randCalls ≤ g'.randCalls := by
  have hfirst : g.randCalls ≤
      (g.acquire S (entryOffset key) 8 3).2.randCalls :=
    randCalls_le_acquire S g (entryOffset key) 8 3
  apply Nat.le_trans hfirst
  rw [Gshm.insert] at h
  split at h
  case isTrue =>
    rw [Gshm.insertBatched] at h
    split at h
    case isTrue =>
      cases h
      simp only [Gshm.writeCxl_randCalls, fillEntry_randCalls]
      exact Nat.le_add_right _ _
    case isFalse =>
      cases h
      simp only [Gshm.writeCxl_randCalls, fillEntry_randCalls, Nat.le_refl]
  case isFalse =>
    rw [Gshm.insertPlain] at h
    split at h
    case isTrue => contradiction
    case isFalse =>
      cases h
      simp only [Gshm.writeCxl_randCalls, fillEntry_randCalls]
      exact Nat.le_add_right _ _

theorem put_randCalls_le {fuel : Nat} {key : Key} {value : Bytes} {b : Bool}
    {g' : Gshm τ n} (h : g.put S fuel key value = .returned b g') :
    g.randCalls ≤ g'.randCalls := by
  apply Nat.le_trans (randCalls_le_acquire S g (entryOffset key) 8 3)
  rw [Gshm.put] at h
  split at h
  case h_1 => contradiction
  case h_2 g₁ hloop =>
    cases h
    exact putLoop_randCalls_le hloop
  case h_3 g₁ hloop =>
    apply Nat.le_trans (putLoop_randCalls_le hloop)
    rw [Gshm.putNew] at h
    split at h
    case isTrue => cases h; exact Nat.le_refl _
    case isFalse =>
      cases h
      simp only [Gshm.writeCxl_randCalls, fillEntry_randCalls]
      exact Nat.le_add_right _ _

/-- **No call takes a draw back.** -/
theorem randCalls_le_of_step {fuel : Nat} {op : GshmOp τ}
    {result : GshmResult τ} {g' : Gshm τ n}
    (h : gshmStep S fuel g op = some (result, g')) :
    g.randCalls ≤ g'.randCalls := by
  cases op with
  | acquire offset size permission =>
      cases h
      exact randCalls_le_acquire S g offset size permission
  | readCxl offset size buf shkey => cases h; exact Nat.le_refl _
  | writeCxl offset size buf shkey =>
      cases h
      rw [Gshm.writeCxl_randCalls]
  | compareCxl offset size buf shkey => cases h; exact Nat.le_refl _
  | revokeCxl shkey => cases h; exact Nat.le_refl _
  | clear => cases h; exact Nat.le_refl _
  | get key value shkey =>
      obtain ⟨r, g₁, hcall, heq⟩ := Outcome.next_map_eq_some_iff.mp h
      cases heq
      exact get_randCalls_le hcall
  | update key value shkey =>
      obtain ⟨b, g₁, hcall, heq⟩ := Outcome.next_map_eq_some_iff.mp h
      cases heq
      exact update_randCalls_le hcall
  | insert key value =>
      obtain ⟨t, g₁, hcall, heq⟩ := Outcome.next_map_eq_some_iff.mp h
      cases heq
      exact insert_randCalls_le hcall
  | put key value =>
      obtain ⟨b, g₁, hcall, heq⟩ := Outcome.next_map_eq_some_iff.mp h
      cases heq
      exact put_randCalls_le hcall
  | del key shkey =>
      obtain ⟨b, g₁, hcall, heq⟩ := Outcome.next_map_eq_some_iff.mp h
      cases heq
      exact Nat.le_of_eq (delLoop_randCalls hcall).symm

/-! ## Insertion outside batch mode -/

/-- A full partition ends the process. -/
theorem insert_of_full (hbatch : g.self.useBatch = false) (key : Key)
    (value : Bytes) (hfull : g.self.partitionEnd <
      wrap (g.self.nextFreeOffset + g.self.entrySize)) :
    g.insert S key value =
      .exited (g.acquire S (entryOffset key) 8 3).2 := by
  have hplain : ¬ g.self.useBatch = true := by
    rw [hbatch]
    decide
  rw [Gshm.insert, if_neg hplain, Gshm.insertPlain, Gshm.acquire_self,
    if_pos hfull]

/-- Otherwise the call returns with two tokens drawn and the cursor moved on,
whatever becomes of its writes. -/
theorem insert_of_notFull (hbatch : g.self.useBatch = false) (key : Key)
    (value : Bytes) (hroom : ¬ g.self.partitionEnd <
      wrap (g.self.nextFreeOffset + g.self.entrySize)) :
    ∃ t g', g.insert S key value = .returned t g' ∧
      g'.randCalls = ((g.acquire S (entryOffset key) 8 3).2.acquire S
        g.self.nextFreeOffset g.self.entrySize 3).2.randCalls ∧
      g'.self = { g.self with
        nextFreeOffset :=
          wrap (g.self.nextFreeOffset + g.self.entrySize) } := by
  have hplain : ¬ g.self.useBatch = true := by
    rw [hbatch]
    decide
  rw [Gshm.insert, if_neg hplain, Gshm.insertPlain, Gshm.acquire_self,
    if_neg hroom]
  refine ⟨_, _, rfl, ?_, ?_⟩
  · simp only [Gshm.writeCxl_randCalls, fillEntry_randCalls]
  · simp only [Gshm.writeCxl_self, fillEntry_self, Gshm.acquire_self]

end Step

end SHMemora.Ports
