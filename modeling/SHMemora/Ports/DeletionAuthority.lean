import SHMemora.Ports.FreshTokens

/-!
# Deletion and the authority to delete

`del` reads the next pointer of the entry under the token of its caller and
everything else under `global_key`.  It ignores the status of that read: where
the token is refused, the variable for the next pointer keeps its initial `0`,
and `del` goes on to write this `0` over the pointer to the entry and returns
`true`.  So the token protects nothing, and what stands behind the entry in
its chain is lost with it.

`delGuarded_iff` says exactly when a caller without authority leaves the store
alone: when there was no entry to delete.
-/

namespace SHMemora.Ports

open SHMemora.Verified.ByteMemory
open SHMemora.Verified.StepRun

section Authority

variable {τ : Type} [DecidableEq τ] {n : Nat} [NeZero n]
variable (S : TokenScheme τ n)

/-- The token may read the entry of the key. -/
def MayRead (g : Gshm τ n) (key : Key) (shkey : τ) : Prop :=
  ∃ e, e ≠ 0 ∧ chainEnd g.data (64 + g.self.valueSize) key = some e ∧
    Accepted S g .read e g.self.entrySize shkey

/-- A call of `del` with a token other than `global_key` that may not read
the entry of the key returns `false` and leaves the memory as it is. -/
def DelGuarded (g : Gshm τ n) : GshmOp τ → Prop
  | .del key shkey =>
      shkey ≠ S.globalKey → ¬ MayRead S g key shkey →
        ∃ g', g.del S key shkey = .returned false g' ∧ g'.data = g.data
  | _ => True

/-- A call of `del` with a token other than `global_key` that may not read
the entry of the key names a key that is not stored. -/
def DelAbsent (g : Gshm τ n) : GshmOp τ → Prop
  | .del key shkey =>
      shkey ≠ S.globalKey → ¬ MayRead S g key shkey →
        chainEnd g.data (64 + g.self.valueSize) key = some 0
  | _ => True

variable {S}

theorem delGuarded_iff (g : Gshm τ n) (op : GshmOp τ) :
    DelGuarded S g op ↔ DelAbsent S g op := by
  cases op with
  | del key shkey =>
      exact forall_congr' fun _ => forall_congr' fun _ =>
        ⟨fun ⟨_, hdel, _⟩ => chainEnd_of_del_eq_false shkey hdel,
          fun h => ⟨g, del_of_chainEnd_zero shkey h, rfl⟩⟩
  | _ => exact Iff.rfl

end Authority

/-- **Exactly when `del` of `gshmp.cpp` refuses a caller without authority**:
in a run of any calls from any state, whenever the key is not stored. -/
theorem shmp_del_guarded_iff (fuel : Nat) (g : Gshm UInt16 hashTableSize)
    (calls : List (GshmOp UInt16)) :
    AtEveryStep (gshmStep shmpScheme fuel) (DelGuarded shmpScheme) g calls ↔
      AtEveryStep (gshmStep shmpScheme fuel) (DelAbsent shmpScheme) g
        calls :=
  atEveryStep_congr delGuarded_iff g calls

/-! ## A deletion with a token that was never issued -/

/-- A stored key is not guarded against a token that is not bound. -/
theorem not_delGuarded_of_unbound {g : ShmpStore} {m : TokenMap UInt16}
    (h : Issued g m) (hsound : Sound g.self g.data) {key : Key}
    (hne : entryOf g.data key ≠ 0) {shkey : UInt16} (hkey : shkey ≠ 0)
    (hunbound : m shkey = none) :
    ¬ DelGuarded shmpScheme g (.del key shkey) := by
  rw [delGuarded_iff]
  intro habsent
  have hrefused : ¬ MayRead shmpScheme g key shkey := by
    intro hmay
    rcases hmay with ⟨e, _, _, haccept⟩
    refine refused_of_binding hkey (fun entry hentry => ?_) haccept
    rw [h.binding_eq, hunbound] at hentry
    contradiction
  have hzero := habsent hkey hrefused
  rw [chainEnd_eq hsound.shape key] at hzero
  exact hne (Option.some.inj hzero)

/-- Token `500` is never drawn, but deletes the entry under token `2`. -/
theorem not_del_guarded_unissued :
    ¬ AtEveryStep (gshmStep shmpScheme 0) (DelGuarded shmpScheme)
      countingStore [.insert (fun _ => 0) (fun _ => 7),
        .del (fun _ => 0) 500] := by
  intro h
  have hroom : HasRoom countingStore.self := by decide
  have hstep : gshmStep shmpScheme 0 countingStore
      (.insert (fun _ => 0) fun _ => 7) =
      some (.shkey 2,
        afterInsert countingStore (fun _ => 0) fun _ => 7) :=
    step_insert_of_fresh issued_countingStore sound_countingStore hroom
      freshBelow_countingStore _ _
  have hissued := issued_countingStore.afterInsert (fun _ => 0) (fun _ => 7)
    freshBelow_countingStore
  refine not_delGuarded_of_unbound hissued
    (sound_afterInsert sound_countingStore hroom _ _) ?_ (by decide)
    (by decide) (h.2 _ _ hstep).1
  rw [entryOf_afterInsert sound_countingStore hroom]
  decide

end SHMemora.Ports
