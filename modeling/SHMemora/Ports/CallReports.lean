import SHMemora.Ports.TornInsertion

/-!
# What `get` and `update` report

`get` and `update` of `gshm` walk through `global_key`, so they find the entry
of a key whatever token the caller has.  The last access alone is made under
that token, and neither of them looks at its result: both return `true` for a
stored key, also when the value was not read or not written.

## Main result

* `calls_report_iff` — in any state whatever, exactly when `get` and `update`
  report what they did, and what is left of that condition in the states that
  regular calls lead to: a stored key needs a token that authorises the access.
-/

namespace SHMemora.Ports

open SHMemora.Verified.ByteMemory
open SHMemora.Verified.StepRun

/-! ## IsStored values -/

/-- The walk for the key ends at the entry `e`. -/
structure StoredAt (m : Bytes) (valueSize : Nat) (key : Key) (e : Nat) :
    Prop where
  ne_zero : e ≠ 0
  chainEnd_eq : chainEnd m (64 + valueSize) key = some e

/-- The key is stored. -/
def IsStored (m : Bytes) (valueSize : Nat) (key : Key) : Prop :=
  ∃ e, StoredAt m valueSize key e

/-- The key is stored with this value. -/
def ReadsBack (m : Bytes) (valueSize : Nat) (key : Key) (value : Bytes) :
    Prop :=
  ∃ e, StoredAt m valueSize key e ∧
    ∀ k, k < valueSize → m (wrap (wrap (e + 64) + k)) = value k

section Stored

variable {m : Bytes} {valueSize : Nat} {key : Key}

theorem StoredAt.unique {e e' : Nat} (h : StoredAt m valueSize key e)
    (h' : StoredAt m valueSize key e') : e = e' :=
  Option.some.inj (h.chainEnd_eq.symm.trans h'.chainEnd_eq)

theorem not_stored_of_chainEnd_zero
    (h : chainEnd m (64 + valueSize) key = some 0) :
    ¬ IsStored m valueSize key := by
  rintro ⟨e, hstored⟩
  exact hstored.ne_zero
    (Option.some.inj (hstored.chainEnd_eq.symm.trans h))

/-- Where the walk ends, what is said of its end is said of stored keys. -/
theorem ends_iff {P : Nat → Prop} {last : Nat}
    (hend : chainEnd m (64 + valueSize) key = some last) :
    (∃ e, chainEnd m (64 + valueSize) key = some e ∧ (e ≠ 0 → P e)) ↔
      (IsStored m valueSize key → ∃ e, StoredAt m valueSize key e ∧ P e) := by
  constructor
  · rintro ⟨e, he, himp⟩ ⟨e', hstored⟩
    rw [hstored.chainEnd_eq] at he
    obtain rfl := Option.some.inj he
    exact ⟨e', hstored, himp hstored.ne_zero⟩
  · intro himp
    refine ⟨last, hend, fun hne => ?_⟩
    obtain ⟨e, hstored, hP⟩ := himp ⟨last, hne, hend⟩
    rwa [hstored.unique ⟨hne, hend⟩] at hP

end Stored

section Calls

variable {τ : Type} [DecidableEq τ] {n : Nat} [NeZero n]
variable (S : TokenScheme τ n)

/-- A token authorises an access to the value that is stored for the key. -/
def Authorises (g : Gshm τ n) (kind : AccessKind) (key : Key) (shkey : τ) :
    Prop :=
  ∃ e, StoredAt g.data g.self.valueSize key e ∧
    Accepted S g kind (wrap (e + 64)) g.self.valueSize shkey

/-- `get` returns.  It returns `true` if and only if the key is stored and the
token authorises reading its value, and then the buffer holds the stored
bytes; otherwise the buffer is untouched. -/
def GetReports (g : Gshm τ n) (key : Key) (buf : Bytes) (shkey : τ) : Prop :=
  ∃ found out g', g.get S key buf shkey = .returned (found, out) g' ∧
    (found = true ↔ Authorises S g .read key shkey) ∧
    (found = true → ∀ e, StoredAt g.data g.self.valueSize key e →
      ∀ k, out k = if k < g.self.valueSize then
        g.data (wrap (wrap (e + 64) + k)) else buf k) ∧
    (found = false → out = buf)

/-- The key is stored, and every authorised `get`, by any object on this table
and this data area, yields the value. -/
def GetYields (g : Gshm τ n) (key : Key) (value : Bytes) : Prop :=
  IsStored g.data g.self.valueSize key ∧
    ∀ later : Gshm τ n, later.table = g.table → later.data = g.data →
      later.self.valueSize = g.self.valueSize → ∀ buf shkey,
        Authorises S later .read key shkey →
          ∃ out g', later.get S key buf shkey = .returned (true, out) g' ∧
            ∀ k, k < g.self.valueSize → out k = value k

/-- `update` returns.  It returns `true` if and only if the key is stored and
the token authorises writing its value, and then a `get` that follows yields
the new value; otherwise no stored value changes. -/
def UpdateReports (g : Gshm τ n) (key : Key) (value : Bytes) (shkey : τ) :
    Prop :=
  ∃ found g', g.update S key value shkey = .returned found g' ∧
    (found = true ↔ Authorises S g .write key shkey) ∧
    (found = true → GetYields S g' key value) ∧
    (found = false → g'.data = g.data)

variable {S} {g g' : Gshm τ n} {key : Key}

/-! ## Tokens drawn on the way -/

/-- A token that opens something still opens it when other tokens are drawn. -/
theorem Accepted.acquire {kind : AccessKind} {o s : Nat} {t : τ}
    (h : Accepted S g kind o s t) (offset size : Nat) (permission : UInt8) :
    Accepted S (g.acquire S offset size permission).2 kind o s t := by
  by_cases hkey : t = S.globalKey
  · subst hkey
    obtain ⟨i, hi⟩ := h
    exact ⟨i, access_globalKey_eq_ok_iff.mpr
      (access_globalKey_eq_ok_iff.mp hi)⟩
  · obtain ⟨entry, hbound, hallows⟩ := (exists_access_iff hkey).mp h
    exact (exists_access_iff hkey).mpr
      ⟨entry, binding_insert_of_some _ _ _ _ hbound, hallows⟩

theorem Draws.accepted {kind : AccessKind} {o s : Nat} {t : τ}
    (hdraws : Draws S g g') (h : Accepted S g kind o s t) :
    Accepted S g' kind o s t := by
  induction hdraws with
  | refl g => exact h
  | acquire offset size permission hdraws ih =>
      exact ih (h.acquire offset size permission)

/-! ## `get` -/

theorem lookup_of_chainEnd_none (permission : UInt8)
    (h : chainEnd g.data (64 + g.self.valueSize) key = none) :
    g.lookup S key permission = none := by
  have hfollows := lookup_follows S key permission g
  rwa [h] at hfollows

/-- `get` under a token that authorises it. -/
theorem get_of_authorises {shkey : τ} (buf : Bytes) {e : Nat}
    (hstored : StoredAt g.data g.self.valueSize key e)
    (haccept : Accepted S g .read (wrap (e + 64)) g.self.valueSize shkey) :
    ∃ g', g.get S key buf shkey = .returned
      (true, fetch g.data (wrap (e + 64)) buf g.self.valueSize) g' := by
  obtain ⟨g', hdraws, heq⟩ := get_of_chainEnd S buf shkey hstored.ne_zero
    hstored.chainEnd_eq
  rw [readCxl_of_accepted (hdraws.accepted haccept), hdraws.data_eq] at heq
  exact ⟨g', heq⟩

/-- **Exactly when `get` reports what it did**, in any state: the walk ends,
and if it ends at an entry, the token authorises reading its value. -/
theorem getReports_iff {buf : Bytes} {shkey : τ} :
    GetReports S g key buf shkey ↔
      ∃ e, chainEnd g.data (64 + g.self.valueSize) key = some e ∧
        (e ≠ 0 →
          Accepted S g .read (wrap (e + 64)) g.self.valueSize shkey) := by
  constructor
  · rintro ⟨found, out, g', hget, hfound, _, _⟩
    cases hend : chainEnd g.data (64 + g.self.valueSize) key with
    | none =>
        rw [Gshm.get, lookup_of_chainEnd_none 1 hend] at hget
        contradiction
    | some e =>
        refine ⟨e, rfl, fun he => ?_⟩
        obtain ⟨g₁, _, heq⟩ := get_of_chainEnd S buf shkey he hend
        rw [heq] at hget
        cases hget
        obtain ⟨e', hstored, haccept⟩ := hfound.mp rfl
        rwa [hstored.unique ⟨he, hend⟩] at haccept
  · rintro ⟨e, hend, hopens⟩
    by_cases he : e = 0
    · subst he
      obtain ⟨g', _, heq⟩ := get_of_chainEnd_zero S buf shkey hend
      have hnone := not_stored_of_chainEnd_zero hend
      refine ⟨false, buf, g', heq, ?_, fun h => absurd h (by decide),
        fun _ => rfl⟩
      refine iff_of_false (by decide) ?_
      rintro ⟨e, hstored, _⟩
      exact hnone ⟨e, hstored⟩
    · have hstored : StoredAt g.data g.self.valueSize key e := ⟨he, hend⟩
      obtain ⟨g', heq⟩ := get_of_authorises buf hstored (hopens he)
      refine ⟨true, _, g', heq, ?_, fun _ e' hstored' k => ?_,
        fun h => absurd h (by decide)⟩
      · exact iff_of_true rfl ⟨e, hstored, hopens he⟩
      · rw [hstored'.unique hstored, fetch_apply]

/-! ## `update` -/

/-- What `get` yields under authorised tokens is what is stored. -/
theorem getYields_iff {value : Bytes} :
    GetYields S g key value ↔
      ReadsBack g.data g.self.valueSize key value := by
  constructor
  · rintro ⟨⟨e, hstored⟩, hyields⟩
    -- `global_key` authorises every read
    have hglobal : Accepted S g .read (wrap (e + 64)) g.self.valueSize
        S.globalKey := accepted_globalKey _ _
    obtain ⟨out, g₁, hget, hvalue⟩ := hyields g rfl rfl rfl (fun _ => 0)
      S.globalKey ⟨e, hstored, hglobal⟩
    obtain ⟨g₂, heq⟩ := get_of_authorises (fun _ => 0) hstored hglobal
    rw [heq] at hget
    cases hget
    refine ⟨e, hstored, fun k hk => ?_⟩
    have hread := hvalue k hk
    rwa [fetch_apply, if_pos hk] at hread
  · rintro ⟨e, hstored, hvalue⟩
    refine ⟨⟨e, hstored⟩, ?_⟩
    intro later _ hdata hsize buf shkey hauthorised
    rw [← hdata, ← hsize] at hstored
    obtain ⟨e', hstored', haccept⟩ := hauthorised
    rw [hstored'.unique hstored] at haccept
    obtain ⟨g₁, heq⟩ := get_of_authorises buf hstored haccept
    refine ⟨_, g₁, heq, fun k hk => ?_⟩
    rw [fetch_apply, hsize, if_pos hk, hdata]
    exact hvalue k hk

/-- **Exactly when `update` reports what it did**, in any state: the walk ends,
and if it ends at an entry, the token authorises writing its value and writing
it does not spoil the walk or the value. -/
theorem updateReports_iff {value : Bytes} {shkey : τ} :
    UpdateReports S g key value shkey ↔
      ∃ e, chainEnd g.data (64 + g.self.valueSize) key = some e ∧
        (e ≠ 0 →
          Accepted S g .write (wrap (e + 64)) g.self.valueSize shkey ∧
            ReadsBack (writeValue g.data g.self.valueSize e value)
              g.self.valueSize key value) := by
  -- what an authorised update leaves behind
  have hwritten : ∀ e g₁, Draws S g g₁ →
      Accepted S g .write (wrap (e + 64)) g.self.valueSize shkey →
      (GetYields S (g₁.writeCxl S (wrap (e + 64)) g.self.valueSize value
          shkey).2 key value ↔
        ReadsBack (writeValue g.data g.self.valueSize e value)
          g.self.valueSize key value) := by
    intro e g₁ hdraws haccept
    rw [getYields_iff, Gshm.writeCxl_self, hdraws.self_eq,
      writeCxl_of_accepted (hdraws.accepted haccept), hdraws.data_eq]
    rfl
  constructor
  · rintro ⟨found, g', hupdate, hfound, hyields, _⟩
    cases hend : chainEnd g.data (64 + g.self.valueSize) key with
    | none =>
        rw [Gshm.update, lookup_of_chainEnd_none 3 hend] at hupdate
        contradiction
    | some e =>
        refine ⟨e, rfl, fun he => ?_⟩
        obtain ⟨g₁, hdraws, heq⟩ := update_of_chainEnd S value shkey he hend
        rw [heq] at hupdate
        cases hupdate
        obtain ⟨e', hstored, haccept⟩ := hfound.mp rfl
        rw [hstored.unique ⟨he, hend⟩] at haccept
        exact ⟨haccept, (hwritten e g₁ hdraws haccept).mp (hyields rfl)⟩
  · rintro ⟨e, hend, hopens⟩
    by_cases he : e = 0
    · subst he
      obtain ⟨g', hdraws, heq⟩ := update_of_chainEnd_zero S value shkey hend
      have hnone := not_stored_of_chainEnd_zero hend
      refine ⟨false, g', heq, ?_, fun h => absurd h (by decide),
        fun _ => hdraws.data_eq⟩
      refine iff_of_false (by decide) ?_
      rintro ⟨e, hstored, _⟩
      exact hnone ⟨e, hstored⟩
    · obtain ⟨haccept, hreads⟩ := hopens he
      obtain ⟨g₁, hdraws, heq⟩ := update_of_chainEnd S value shkey he hend
      refine ⟨true, _, heq, ?_, fun _ => ?_, fun h => absurd h (by decide)⟩
      · exact iff_of_true rfl ⟨e, ⟨he, hend⟩, haccept⟩
      · exact (hwritten e g₁ hdraws haccept).mpr hreads

end Calls

/-! ## After regular calls -/

section Fleet

variable {τ : Type} [DecidableEq τ] {n : Nat} [NeZero n] {ι : Type}

/-- What regular calls lead to that new objects make on hosts of their own,
over a zeroed data area and with one value size. -/
inductive RegularRun [DecidableEq ι] (S : TokenScheme τ n) (fuel : Nat)
    (f : Fleet τ n ι) : Prop
  | of_run (valueSize : Nat) (table : ProtectionTable τ n) (batchKey : ι → τ)
      (useMac : ι → Bool) (dataAddr : ι → DataAddr) (mac : ι → Option UInt8)
      (hsmall : 72 + valueSize < 2 ^ 31) (hpos : ∀ i, 0 < getMac (mac i))
      (hinj : ∀ i j, getMac (mac i) = getMac (mac j) → i = j)
      (calls : List (StoreCall ι τ))
      (hregular : ∀ call ∈ calls, call.Regular valueSize)
      (results : List (Option (GshmResult τ)))
      (hrun : run (fleetCall S fuel) (.construct table (fun _ => 0) batchKey
        useMac dataAddr mac fun _ => valueSize) calls = some (results, f))

theorem RegularRun.arranged [DecidableEq ι] {S : TokenScheme τ n} {fuel : Nat}
    {f : Fleet τ n ι} (h : RegularRun S fuel f) :
    ∃ valueSize, Arranged valueSize f.instances f.data := by
  cases h with
  | of_run valueSize table batchKey useMac dataAddr mac hsmall hpos hinj calls
      hregular results hrun =>
      exact ⟨valueSize, arranged_of_run table batchKey useMac dataAddr mac
        hsmall hpos hinj hregular hrun⟩

section Memory

variable {valueSize : Nat} {members : ι → Instance} {m : Bytes} {key : Key}
  (h : Arranged valueSize members m)
include h

theorem Arranged.chainEnd_eq (key : Key) :
    chainEnd m (64 + valueSize) key = some (entryOf m key) :=
  chainEnd_of_short (h.short trivial)

/-- A value that is written over the one stored is found again. -/
theorem Arranged.readsBack {e : Nat} (hstored : StoredAt m valueSize key e)
    (value : Bytes) :
    ReadsBack (writeValue m valueSize e value) valueSize key value := by
  have hentry : e = entryOf m key :=
    Option.some.inj (hstored.chainEnd_eq.symm.trans (h.chainEnd_eq key))
  have hne : entryOf m key ≠ 0 := by
    rw [← hentry]
    exact hstored.ne_zero
  obtain ⟨hbucket, hmatch⟩ := entryOf_eq_bucket hne
  have hblock := h.handedOut_entryOf trivial hne
  rw [← hentry] at hblock
  rw [← hbucket, ← hentry] at hmatch
  have hbounds := h.hosts.bounds hblock
  have hfront : entryOffset key + 8 ≤ e := h.front_block trivial hblock
  have hafter : Arranged valueSize members (writeValue m valueSize e value) :=
    h.value hblock (.inr rfl : Written m (writeValue m valueSize e value)
      (wrap (e + 64)) value valueSize)
  -- the walk comes to the same entry
  have hword : bucket (writeValue m valueSize e value) key = e := by
    rw [bucket_congr (agree_writeValue (by omega) (.inl (by omega))),
      ← hbucket, ← hentry]
  have hsame : keyAt (writeValue m valueSize e value) e = key := by
    rw [keyAt_congr (by omega) (agree_writeValue (by omega)
      (.inl (Nat.le_refl _))), hmatch]
  refine ⟨e, ⟨hstored.ne_zero, ?_⟩, fun k hk => ?_⟩
  · rw [hafter.chainEnd_eq key, entryOf, hword, if_pos hsame]
  · rw [wrap_of_lt (by omega : e + 64 < 2 ^ 64), wrap_of_lt (by omega)]
    exact value_writeValue (by omega) hk

end Memory

/-- In arranged memory a call reports what it did if and only if a token that
is given for a stored key authorises the access. -/
theorem Arranged.reports_iff {S : TokenScheme τ n} {valueSize : Nat}
    {f : Fleet τ n ι} (h : Arranged valueSize f.instances f.data) (i : ι)
    (rand : Nat → Nat) (key : Key) (buf value : Bytes) (shkey : τ) :
    (GetReports S (f.view i rand) key buf shkey ↔
      (IsStored f.data (f.instances i).valueSize key →
        Authorises S (f.view i rand) .read key shkey)) ∧
    (UpdateReports S (f.view i rand) key value shkey ↔
      (IsStored f.data (f.instances i).valueSize key →
        Authorises S (f.view i rand) .write key shkey)) := by
  have hsize : (f.view i rand).self.valueSize = valueSize := h.hosts.size i
  have hend : chainEnd (f.view i rand).data
      (64 + (f.view i rand).self.valueSize) key =
        some (entryOf f.data key) := by
    rw [hsize]
    exact h.chainEnd_eq key
  have hreads : ∀ e, StoredAt (f.view i rand).data
      (f.view i rand).self.valueSize key e →
      ReadsBack (writeValue (f.view i rand).data
        (f.view i rand).self.valueSize e value)
        (f.view i rand).self.valueSize key value := by
    intro e hstored
    rw [hsize] at hstored ⊢
    exact h.readsBack hstored value
  refine ⟨getReports_iff.trans (ends_iff hend),
    updateReports_iff.trans ((ends_iff hend).trans ?_)⟩
  constructor
  · intro hopens hstored
    obtain ⟨e, hat, haccept, _⟩ := hopens hstored
    exact ⟨e, hat, haccept⟩
  · intro hopens hstored
    obtain ⟨e, hat, haccept⟩ := hopens hstored
    exact ⟨e, hat, haccept, hreads e hat⟩

/-- Whatever calls were made before, `get` and `update` report what they did if
and only if their walk, which keeps below the offsets that lead round into the
table, ends and, where it ends at an entry, the token authorises the access,
which for `update` must leave the walk as it is.  Where the calls before were
regular, all that is needed is that the token authorises the access if the key
is stored. -/
theorem calls_report_iff [DecidableEq ι] (S : TokenScheme τ n) (fuel : Nat)
    (f : Fleet τ n ι) (i : ι) (rand : Nat → Nat) (key : Key)
    (buf value : Bytes) (shkey : τ) :
    (GetReports S (f.view i rand) key buf shkey ↔
      ∃ e, chainEnd f.data (64 + (f.instances i).valueSize) key = some e ∧
        (e ≠ 0 → Accepted S (f.view i rand) .read (wrap (e + 64))
          (f.instances i).valueSize shkey)) ∧
    (UpdateReports S (f.view i rand) key value shkey ↔
      ∃ e, chainEnd f.data (64 + (f.instances i).valueSize) key = some e ∧
        (e ≠ 0 → Accepted S (f.view i rand) .write (wrap (e + 64))
            (f.instances i).valueSize shkey ∧
          ReadsBack (writeValue f.data (f.instances i).valueSize e value)
            (f.instances i).valueSize key value)) ∧
    (RegularRun S fuel f →
      (GetReports S (f.view i rand) key buf shkey ↔
        (IsStored f.data (f.instances i).valueSize key →
          Authorises S (f.view i rand) .read key shkey)) ∧
      (UpdateReports S (f.view i rand) key value shkey ↔
        (IsStored f.data (f.instances i).valueSize key →
          Authorises S (f.view i rand) .write key shkey))) := by
  refine ⟨getReports_iff, updateReports_iff, fun hrun => ?_⟩
  obtain ⟨valueSize, harranged⟩ := hrun.arranged
  exact harranged.reports_iff i rand key buf value shkey

end Fleet

/-! ## A token that was never issued -/

/-- The first of two objects before it inserts, with the tokens `1`, `2`, … -/
def firstStore : ShmpStore := twoStores.view false fun k => k + 1

theorem issued_firstStore : Issued firstStore fun _ => none :=
  issued_construct (fun _ => 0) _ 0 false _

theorem sound_firstStore : Sound firstStore.self firstStore.data := by
  have hmac : 0 < getMac (hostOneTwo false) := by decide
  have hsmall : 72 + 256 < 2 ^ 31 := by decide
  exact Sound.construct hmac hsmall fun _ => rfl

theorem freshBelow_firstStore :
    FreshBelow firstStore.useMac firstStore.rand
      (firstStore.randCalls + 2) := by
  unfold FreshBelow
  decide

/-- It has inserted a key. -/
def oneInserted : Fleet UInt16 hashTableSize Bool :=
  twoStores.leave false
    (afterInsert firstStore (fun _ => 7) fun _ => 1)

theorem regularRun_oneInserted : RegularRun shmpScheme 0 oneInserted := by
  have hroom : HasRoom (twoStores.instances false) := by decide
  have hinsert : (twoStores.view false fun k => k + 1).insert shmpScheme
      (fun _ => 7) (fun _ => 1) =
        .returned 2 (afterInsert firstStore (fun _ => 7) fun _ => 1) :=
    insert_of_fresh issued_firstStore sound_firstStore hroom
      freshBelow_firstStore _ _
  have hstep : fleetCall shmpScheme 0 twoStores
      ⟨false, .insert (fun _ => 7) fun _ => 1, fun k => k + 1⟩ =
        some (some (.shkey 2), oneInserted) := by
    simp [fleetCall, callEnd, gshmStep, hinsert, Outcome.next, oneInserted]
  have hrun : run (fleetCall shmpScheme 0) twoStores
      [⟨false, .insert (fun _ => 7) fun _ => 1, fun k => k + 1⟩] =
        some ([some (.shkey 2)], oneInserted) := by
    rw [run_cons_of_step hstep]
    rfl
  refine .of_run 256 _ _ _ _ hostOneTwo (by decide) (by decide) (by decide) _
    ?_ _ hrun
  intro call hcall
  rw [List.mem_singleton.mp hcall]
  exact ⟨trivial, fun h => h.elim⟩

/-- The second object uses the token that the first one got for the key. -/
theorem calls_report_iff_other_host :
    (GetReports shmpScheme (oneInserted.view true fun k => k + 3) (fun _ => 7)
        (fun _ => 0) 2 ↔
      (IsStored oneInserted.data (oneInserted.instances true).valueSize
          (fun _ => 7) →
        Authorises shmpScheme (oneInserted.view true fun k => k + 3) .read
          (fun _ => 7) 2)) ∧
    (UpdateReports shmpScheme (oneInserted.view true fun k => k + 3)
        (fun _ => 7) (fun _ => 9) 2 ↔
      (IsStored oneInserted.data (oneInserted.instances true).valueSize
          (fun _ => 7) →
        Authorises shmpScheme (oneInserted.view true fun k => k + 3) .write
          (fun _ => 7) 2)) :=
  (calls_report_iff shmpScheme 0 oneInserted true (fun k => k + 3) (fun _ => 7)
    (fun _ => 0) (fun _ => 9) 2).2.2 regularRun_oneInserted

theorem isStored_oneInserted (i : Bool) :
    IsStored oneInserted.data (oneInserted.instances i).valueSize
      fun _ => 7 := by
  obtain ⟨valueSize, harranged⟩ := regularRun_oneInserted.arranged
  have hroom : HasRoom firstStore.self :=
    show HasRoom (twoStores.instances false) by decide
  have hentry : entryOf oneInserted.data (fun _ => 7) =
      (twoStores.instances false).nextFreeOffset :=
    entryOf_afterInsert sound_firstStore hroom (fun _ => 7) fun _ => 1
  have hne : (twoStores.instances false).nextFreeOffset ≠ 0 := by decide
  refine ⟨(twoStores.instances false).nextFreeOffset, hne, ?_⟩
  rw [harranged.hosts.size i, harranged.chainEnd_eq, hentry]

/-- The token `9` is not in the table, and opens nothing. -/
theorem not_authorises_unknown (i : Bool) (rand : Nat → Nat)
    (kind : AccessKind) (key : Key) :
    ¬ Authorises shmpScheme (oneInserted.view i rand) kind key 9 := by
  have hissued := issued_firstStore.afterInsert (fun _ => 7) (fun _ => 1)
    freshBelow_firstStore
  have hnone : binding shmpScheme (oneInserted.view i rand).table 9 = none :=
    (hissued.binding_eq 9).trans (by decide)
  rintro ⟨e, _, haccept⟩
  obtain ⟨entry, hbound, _⟩ := (exists_access_iff (by decide)).mp haccept
  rw [hnone] at hbound
  cases hbound

/-- `get` of the stored key returns `true` under that token without reading
the value, and `update` returns `true` without writing it. -/
theorem not_calls_report_unknown_token :
    RegularRun shmpScheme 0 oneInserted ∧
      ¬ GetReports shmpScheme (oneInserted.view false fun k => k + 3)
        (fun _ => 7) (fun _ => 0) 9 ∧
      ¬ UpdateReports shmpScheme (oneInserted.view false fun k => k + 3)
        (fun _ => 7) (fun _ => 9) 9 := by
  obtain ⟨valueSize, harranged⟩ := regularRun_oneInserted.arranged
  obtain ⟨hget, hupdate⟩ := harranged.reports_iff false (fun k => k + 3)
    (fun _ => 7) (fun _ => 0) (fun _ => 9) 9
  refine ⟨regularRun_oneInserted, ?_, ?_⟩
  · rw [hget]
    intro hopens
    exact not_authorises_unknown _ _ _ _ (hopens (isStored_oneInserted false))
  · rw [hupdate]
    intro hopens
    exact not_authorises_unknown _ _ _ _ (hopens (isStored_oneInserted false))

end SHMemora.Ports
