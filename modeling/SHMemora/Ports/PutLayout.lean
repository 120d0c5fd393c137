import SHMemora.Ports.PlainAllocation

/-!
# The entries of `put`

`put` of `gshm_upr` writes 256 bytes of value and a next pointer at 320, where
`insert`, `get`, `update` and `del` go by `value_size`.  `PutFits` says that a
`put` stays inside the entry of its key and that the calls behind it find the
fields of the entry where it has left them.

Objects whose values have 256 bytes are fine, whatever they and others have
done before.  With any other size already the first `put` of a new object goes
wrong: with shorter values it leaves bytes of the value where the next pointer
is read, with longer ones zeroes inside the value.

## Main result

* `putFits_iff` — exactly with values of 256 bytes.
-/

namespace SHMemora.Ports

open SHMemora.Verified.ByteMemory
open SHMemora.Verified.StepRun

/-! ## What `put` should leave behind -/

/-- A buffer into which a value of this size was copied. -/
def copiedOver (valueSize : Nat) (value buf : Bytes) : Bytes :=
  fun i => if i < valueSize then value i else buf i

/-- The byte belongs to the bucket word of the key or to the entry at `e`. -/
def OwnByte (valueSize : Nat) (key : Key) (e x : Nat) : Prop :=
  (entryOffset key ≤ x ∧ x < entryOffset key + 8) ∨
    (e ≤ x ∧ x < e + (72 + valueSize))

/-- The call has changed nothing outside of the entry of its key, and all
calls for keys of the bucket find the fields of the entry as it has left
them. -/
structure LeavesEntry (u u' : GshmUpr) (key : Key) (value : Bytes)
    (e next : Nat) : Prop where
  frame : ∀ x, u'.data x ≠ u.data x → OwnByte u.self.valueSize key e x
  key_at : keyAt u'.data e = key
  value_at : ∀ i, i < u.self.valueSize → u'.data (wrap (e + 64 + i)) = value i
  next_at : nextEntry u'.data (64 + u.self.valueSize) e = next
  get : ∀ k, entryOffset k = entryOffset key → ∀ buf, u'.get k buf =
    .returned (if k = key then (true, copiedOver u.self.valueSize value buf)
      else (false, buf)) u'
  update : ∀ k, entryOffset k = entryOffset key → ∀ w, u'.update k w =
    if k = key then
      .returned true ⟨writeValue u'.data u.self.valueSize e w, u'.self⟩
    else .returned false u'
  del : ∀ k, entryOffset k = entryOffset key → u'.del k =
    if k = key then .returned true ⟨setBucket u'.data key next, u'.self⟩
    else .returned false u'

/-- The entry of the key: the one its walk finds, or, if there is none, a new
one at `next_free_offset`. -/
def OwnEntry (u : GshmUpr) (key : Key) (e next : Nat) : Prop :=
  (chainEnd u.data (64 + u.self.valueSize) key = some e ∧ e ≠ 0 ∧
      next = nextEntry u.data (64 + u.self.valueSize) e) ∨
    (chainEnd u.data (64 + u.self.valueSize) key = some 0 ∧
      e = u.self.nextFreeOffset ∧ next = 0)

/-- `put` returns; with `false` it has changed nothing, with `true` it leaves
the entry of its key. -/
def PutFits (u : GshmUpr) (key : Key) (value : Bytes) : Prop :=
  ∃ b u', u.put key value = .returned b u' ∧ (b = false → u' = u) ∧
    (b = true → ∃ e next, OwnEntry u key e next ∧
      LeavesEntry u u' key value e next)

/-! ## The calls behind a `put` -/

section Behind

variable {u u' : GshmUpr} {key k : Key} {value : Bytes} {e : Nat}

/-- The bucket leads to one entry, with this key. -/
structure OneEntry (m : Bytes) (valueSize : Nat) (key : Key) (e : Nat) :
    Prop where
  bucket_eq : bucket m key = e
  ne : e ≠ 0
  key_at : keyAt m e = key
  last : nextEntry m (64 + valueSize) e = 0
  end_le : e + (72 + valueSize) ≤ 2 ^ 63

theorem OneEntry.entryOf_eq {m : Bytes} {valueSize : Nat}
    (h : OneEntry m valueSize key e) (hhome : entryOffset k = entryOffset key) :
    entryOf m k = if k = key then e else 0 := by
  rw [entryOf, bucket_of_home hhome, h.bucket_eq, h.key_at]
  by_cases hk : k = key
  · rw [if_pos hk, if_pos hk.symm]
  · rw [if_neg hk, if_neg (Ne.symm hk)]

theorem OneEntry.short {m : Bytes} {valueSize : Nat}
    (h : OneEntry m valueSize key e) (hhome : entryOffset k = entryOffset key) :
    ShortChain m valueSize k := by
  intro _
  rw [bucket_of_home hhome, h.bucket_eq]
  exact h.last

/-- What the calls for keys of such a bucket come to. -/
theorem leavesEntry_of_one (h : OneEntry u'.data u'.self.valueSize key e)
    (hsize : u'.self.valueSize = u.self.valueSize)
    (hframe : ∀ x, u'.data x ≠ u.data x → OwnByte u.self.valueSize key e x)
    (hvalue : ∀ i, i < u.self.valueSize → u'.data (e + 64 + i) = value i) :
    LeavesEntry u u' key value e 0 := by
  have hend := h.end_le
  have hread : ∀ i, i < u.self.valueSize →
      u'.data (wrap (e + 64 + i)) = value i := by
    intro i hi
    rw [hsize] at hend
    rw [wrap_of_lt (by omega), hvalue i hi]
  refine ⟨hframe, h.key_at, hread, hsize ▸ h.last, ?_, ?_, ?_⟩
  · intro k hhome buf
    rw [GshmUpr.get_of_short (h.short hhome), h.entryOf_eq hhome]
    by_cases hk : k = key
    · have hcopy : fetch u'.data (wrap (e + 64)) buf u'.self.valueSize =
          copiedOver u.self.valueSize value buf := by
        funext i
        rw [fetch_apply, copiedOver, wrap_of_lt (show e + 64 < 2 ^ 64 by omega),
          hsize]
        by_cases hi : i < u.self.valueSize
        · rw [if_pos hi, if_pos hi, hread i hi]
        · rw [if_neg hi, if_neg hi]
      simp only [if_pos hk, if_neg h.ne, hcopy]
    · simp only [if_neg hk, if_true]
  · intro k hhome w
    have hentry : entryOf u'.data k ≠ 0 →
        entryOf u'.data k + (72 + u'.self.valueSize) ≤ 2 ^ 63 := by
      rw [h.entryOf_eq hhome]
      intro hne
      by_cases hk : k = key
      · rw [if_pos hk]
        exact hend
      · rw [if_neg hk] at hne
        exact absurd rfl hne
    rw [GshmUpr.update_of_short (h.short hhome) hentry, h.entryOf_eq hhome,
      hsize]
    by_cases hk : k = key
    · simp only [if_pos hk, if_neg h.ne]
    · simp only [if_neg hk, if_true]
  · intro k hhome
    rw [GshmUpr.del_of_short (h.short hhome), h.entryOf_eq hhome]
    by_cases hk : k = key
    · rw [if_pos hk, if_pos hk, if_neg h.ne, hk]
    · simp only [if_neg hk, if_true]

end Behind

/-! ## Values of 256 bytes -/

section Fits

variable {ι : Type} {f : UprFleet ι}

/-- A byte that differs is not in a range on which the memories agree. -/
theorem not_agree_of_ne {m m' : Bytes} {x : Nat} (hne : m' x ≠ m x) :
    ¬ Agree m m' x 1 :=
  fun hagree => hne (hagree x (Nat.le_refl x) (Nat.lt_succ_self x))

theorem ownByte_of_writeValue {m : Bytes} {valueSize e : Nat} {key : Key}
    {value : Bytes} (hend : e + (72 + valueSize) ≤ 2 ^ 63) {x : Nat}
    (hne : writeValue m valueSize e value x ≠ m x) :
    OwnByte valueSize key e x := by
  right
  by_contra hout
  refine not_agree_of_ne hne (agree_writeValue hend ?_)
  unfold Apart
  omega

theorem ownByte_of_insertEntry {m : Bytes} {valueSize e : Nat} {key : Key}
    {value : Bytes} (hend : e + (72 + valueSize) ≤ 2 ^ 63) {x : Nat}
    (hne : insertEntry m valueSize e key value x ≠ m x) :
    OwnByte valueSize key e x := by
  unfold OwnByte
  by_contra hout
  have hbucket : Apart x 1 (entryOffset key) 8 := by
    unfold Apart
    omega
  have hentry : Apart x 1 e (72 + valueSize) := by
    unfold Apart
    omega
  exact not_agree_of_ne hne
    ((agree_writeEntry hend hentry).trans (agree_setBucket hbucket))

/-- `put` of a stored key. -/
theorem FleetSound.put_stored (h : FleetSound f) (i : ι) {key : Key}
    (hne : entryOf f.data key ≠ 0) (value : Bytes) :
    PutFits ⟨f.data, f.members i⟩ key value := by
  have hsize := h.hosts.size i
  have hset := h.hosts.blockSet
  have hblock := h.chained.block_entryOf hne
  have hend := hset.end_le _ hblock
  have hbehind := hset.behind _ hblock
  obtain ⟨hfirst, hkey⟩ := entryOf_eq_bucket hne
  have hshort := h.chained.short key
  have hchain := chainEnd_of_short hshort
  have hkept := h.chained.writeValue hset hblock value
  have hput := GshmUpr.put_of_short_stored (u := ⟨f.data, f.members i⟩)
    (hsize.symm ▸ hshort) hsize hne (hsize.symm ▸ hend) value
  rw [hsize] at hput
  have hone : OneEntry (writeValue f.data 256 (entryOf f.data key) value) 256
      key (entryOf f.data key) := by
    refine ⟨?_, hne, ?_, hkept.last _ hblock, hend⟩
    · rw [hfirst] at hbehind hend ⊢
      exact bucket_congr (agree_writeValue hend
        (apart_bucket_of_behind (by omega) key))
    · rw [keyAt_congr (by omega) (agree_writeValue hend (.inl (by omega))),
        hfirst]
      exact hkey
  refine ⟨true, _, hput, fun hfalse => by simp at hfalse, fun _ =>
    ⟨entryOf f.data key, 0, .inl ⟨?_, hne, ?_⟩,
      leavesEntry_of_one (hsize.symm ▸ hone) rfl ?_ ?_⟩⟩
  · exact hsize.symm ▸ hchain
  · rw [hsize]
    exact (h.chained.last _ hblock).symm
  · intro x hx
    rw [hsize]
    exact ownByte_of_writeValue hend hx
  · intro j hj
    rw [hsize] at hj
    exact value_writeValue hend hj

/-- `put` of a key without an entry. -/
theorem FleetSound.put_absent [DecidableEq ι] (h : FleetSound f) (i : ι)
    {key : Key} (hzero : entryOf f.data key = 0) (value : Bytes) :
    PutFits ⟨f.data, f.members i⟩ key value := by
  have hsize := h.hosts.size i
  have hplain := h.hosts.plain i
  have hshort := h.chained.short key
  have hchain := chainEnd_of_short hshort
  rw [hzero] at hchain
  have hput := GshmUpr.put_of_short_absent (u := ⟨f.data, f.members i⟩)
    (hsize.symm ▸ hshort) hsize (by rw [hplain.sizes, hsize]) hzero value
  rw [GshmUpr.insertPlain_of_plain hplain] at hput
  by_cases hroom : HasRoom (f.members i)
  · rw [if_pos hroom] at hput
    have hset := h.hosts.blockSet_next hroom
    have hend := hset.end_le _ (.inr rfl)
    have hbehind := hset.behind _ (.inr rfl)
    have hnew := h.chained.insertEntry hset
      (h.hosts.not_allocated_next hroom) key value
    have hagree : Agree
        (writeEntry f.data 256 (f.members i).nextFreeOffset key value)
        (insertEntry f.data 256 (f.members i).nextFreeOffset key value)
        (f.members i).nextFreeOffset (72 + 256) :=
      agree_setBucket (.inr (by
        have := entryOffset_add_le key
        omega))
    have hone : OneEntry
        (insertEntry f.data 256 (f.members i).nextFreeOffset key value) 256 key
        (f.members i).nextFreeOffset := by
      refine ⟨bucket_setBucket (by omega) rfl, by omega, ?_,
        hnew.last _ (.inr rfl), hend⟩
      rw [keyAt_congr (by omega) (hagree.mono (Nat.le_refl _) (by omega))]
      exact keyAt_writeEntry hend
    rw [← hsize] at hone
    refine ⟨true, _, hput, fun hfalse => by simp at hfalse, fun _ =>
      ⟨(f.members i).nextFreeOffset, 0, .inr ⟨?_, rfl, rfl⟩,
        leavesEntry_of_one hone rfl ?_ ?_⟩⟩
    · exact hsize.symm ▸ hchain
    · intro x hx
      rw [hsize] at hx ⊢
      exact ownByte_of_insertEntry hend hx
    · intro j hj
      rw [hsize] at hj ⊢
      exact (hagree ((f.members i).nextFreeOffset + 64 + j) (by omega)
        (by omega)).trans (value_writeEntry hend hj)
  · rw [if_neg hroom] at hput
    exact ⟨false, _, hput, fun _ => rfl, fun htrue => by simp at htrue⟩

/-- With values of 256 bytes every `put` fits. -/
theorem FleetSound.putFits [DecidableEq ι] (h : FleetSound f) (i : ι)
    (key : Key) (value : Bytes) : PutFits ⟨f.data, f.members i⟩ key value := by
  by_cases hzero : entryOf f.data key = 0
  · exact h.put_absent i hzero value
  · exact h.put_stored i hzero value

end Fits

/-! ## Other sizes -/

section Misfit

/-- `put` of a key without an entry, where there is room for 328 bytes. -/
theorem GshmUpr.put_new {u : GshmUpr} {key : Key}
    (hlookup : u.lookup 320 key = some 0) (hroom : ¬ u.self.Full 328)
    (hend : u.self.nextFreeOffset + 328 ≤ 2 ^ 63) (value : Bytes) :
    u.put key value = .returned true
      ⟨insertEntry u.data 256 u.self.nextFreeOffset key value,
        u.self.moved (wrap (u.self.nextFreeOffset + 328))⟩ := by
  have hentry : u.self.nextFreeOffset + (72 + 256) ≤ 2 ^ 63 := hend
  unfold Instance.Full at hroom
  rw [put, hlookup]
  simp only [ne_eq, not_true_eq_false, if_false, if_neg hroom,
    fillEntry_eq hentry, writeCxl_bucket]
  rfl

/-- A word is zero only if its bytes are. -/
theorem byte_eq_zero_of_word {b : Bytes} (h : word b = 0) : b 0 = 0 := by
  unfold word at h
  apply UInt8.toNat_inj.mp
  show (b 0).toNat = 0
  omega

/-- What the new entry of `put` looks like from the inside: 256 bytes of value
and a zero byte. -/
theorem insertEntry_byte (m : Bytes) (key : Key) (value : Bytes) {e : Nat}
    (hbehind : 2 ^ 26 + 2 ^ 28 ≤ e) (hend : e + (72 + 256) ≤ 2 ^ 63) :
    (∀ i, i < 256 → insertEntry m 256 e key value (e + 64 + i) = value i) ∧
      insertEntry m 256 e key value (e + 320) = 0 := by
  have hagree : Agree (writeEntry m 256 e key value)
      (insertEntry m 256 e key value) e 328 :=
    agree_setBucket (.inr (by
      have := entryOffset_add_le key
      omega))
  constructor
  · exact fun i hi => value_insertEntry hbehind hend hi
  · rw [hagree _ (by omega) (by omega), writeEntry_eq hend,
      store_apply (by omega), if_pos (by omega)]
    simp [ofWord]

/-- **In a new store `put` fits values of 256 bytes only.** -/
theorem not_putFits_new {u : GshmUpr} {key : Key}
    (hchain : ∀ size, chainEnd u.data (64 + size) key = some 0)
    (hroom : ¬ u.self.Full 328)
    (hbehind : 2 ^ 26 + 2 ^ 28 ≤ u.self.nextFreeOffset)
    (hend : u.self.nextFreeOffset + (328 + u.self.valueSize) ≤ 2 ^ 63)
    (hsize : u.self.valueSize ≠ 256) : ¬ PutFits u key fun _ => 1 := by
  rintro ⟨b, u', hput, _, hleaves⟩
  have hlookup : u.lookup 320 key = some 0 := by
    rw [GshmUpr.lookup_eq]
    exact hchain 256
  rw [GshmUpr.put_new hlookup hroom (by omega)] at hput
  cases hput
  obtain ⟨e, next, hown, hentry⟩ := hleaves rfl
  rcases hown with ⟨hfound, hne, _⟩ | ⟨_, rfl, rfl⟩
  · rw [hchain] at hfound
    cases hfound
    exact hne rfl
  · obtain ⟨hvalue, hzero⟩ := insertEntry_byte u.data key (fun _ => 1)
      hbehind (by omega)
    rcases Nat.lt_or_gt_of_ne hsize with hshort | hlong
    · -- the next pointer is read in the middle of the value
      have hplace : wrap (u.self.nextFreeOffset + (64 + u.self.valueSize)) =
          u.self.nextFreeOffset + 64 + u.self.valueSize := by
        rw [wrap_of_lt (by omega), Nat.add_assoc]
      have hnext := hentry.next_at
      rw [nextEntry, hplace] at hnext
      have hbyte := byte_eq_zero_of_word hnext
      simp only [Nat.add_zero] at hbyte
      rw [wrap_of_lt (by omega)] at hbyte
      exact absurd ((hvalue _ hshort).symm.trans hbyte) (by decide)
    · -- the next pointer is written in the middle of the value
      have hplace : wrap (u.self.nextFreeOffset + 64 + 256) =
          u.self.nextFreeOffset + 320 := wrap_of_lt (by omega)
      have hbyte := hentry.value_at 256 hlong
      rw [hplace] at hbyte
      exact absurd (hzero.symm.trans hbyte) (by decide)

end Misfit

/-! ## When every `put` fits -/

section Sized

variable {ι : Type} (dataAddr : ι → DataAddr) (mac : ι → Option UInt8)
  (valueSize : ι → Nat)

theorem chainEnd_zero (size : Nat) (key : Key) :
    chainEnd (fun _ => 0) (64 + size) key = some 0 := by
  have hbucket : ∀ k, bucket (fun _ => 0) k = 0 := fun _ => rfl
  have hshort : ShortChain (fun _ => 0) size key :=
    fun hne => absurd (hbucket key) hne
  rw [chainEnd_of_short hshort, entryOf, hbucket]
  simp

/-- The first `put` of a new object. -/
theorem not_putFits_construct {i : ι} (hpos : 0 < getMac (mac i))
    (hsmall : 72 + valueSize i < 2 ^ 31) (hsize : valueSize i ≠ 256)
    (key : Key) :
    ¬ PutFits ⟨fun _ => 0, .at (dataAddr i) (mac i) (valueSize i)
      (arenaStart mac i)⟩ key fun _ => 1 := by
  have hlimit := arenaLimit_le mac i
  have hroom : arenaStart mac i + 328 ≤ arenaLimit mac i := by
    rw [arenaLimit]
    omega
  have hcursor : arenaStart mac i ≤ arenaLimit mac i := arenaStart_le i
  have hfull := (not_full_iff dataAddr valueSize hcursor
    (show 328 < 2 ^ 31 by decide)).mpr hroom
  refine not_putFits_new (fun size => chainEnd_zero size key) hfull ?_ ?_ hsize
  · show 2 ^ 26 + 2 ^ 28 ≤ arenaStart mac i
    rw [arenaStart]
    omega
  · show arenaStart mac i + (328 + valueSize i) ≤ 2 ^ 63
    omega

variable [DecidableEq ι]

/-- **Exactly with values of 256 bytes every `put` fits**: objects on hosts of
their own with one value size make calls in any order over a zeroed data
area. -/
theorem putFits_iff [Nonempty ι] (hpos : ∀ i, 0 < getMac (mac i))
    (hinj : ∀ i j, getMac (mac i) = getMac (mac j) → i = j) (size : Nat)
    (hsmall : 72 + size < 2 ^ 31) :
    (∀ (calls : List (ι × UprOp)) (replies : List Reply) (f : UprFleet ι),
      run uprFleetStep (.constructSized (fun _ => 0) dataAddr mac
        fun _ => size) calls = some (replies, f) →
      ∀ i key value, PutFits ⟨f.data, f.members i⟩ key value) ↔
    size = 256 := by
  constructor
  · intro hall
    by_contra hsize
    obtain ⟨i⟩ := ‹Nonempty ι›
    have hfits := hall [] [] _ rfl i (fun _ => 0) fun _ => 1
    refine not_putFits_construct dataAddr mac (fun _ => size) (hpos i) hsmall
      hsize (fun _ => 0) ?_
    have hself : (UprFleet.constructSized (fun _ => 0) dataAddr mac
        fun _ => size).members i =
        .at (dataAddr i) (mac i) size (arenaStart mac i) := by
      rw [arenaStart, ← Instance.partitionStart_construct (dataAddr i) (mac i)]
      rfl
    rw [hself] at hfits
    exact hfits
  · rintro rfl calls replies f hrun i key value
    obtain ⟨replies', f', hrun', hsound⟩ :=
      (FleetSound.construct dataAddr mac hpos hinj).run calls
    have hsame : some (replies, f) = some (replies', f') :=
      hrun.symm.trans hrun'
    cases hsame
    exact hsound.putFits i key value

end Sized

/-- Two hosts with values of 8 bytes. -/
theorem putFits_iff_two_hosts :
    ¬ ∀ (calls : List (Bool × UprOp)) (replies : List Reply)
      (f : UprFleet Bool),
      run uprFleetStep (.constructSized (fun _ => 0)
        (fun _ => Instance.firstHost.dataAddr) hostOneTwo fun _ => 8) calls =
        some (replies, f) →
      ∀ i key value, PutFits ⟨f.data, f.members i⟩ key value := by
  intro hall
  have hsize := (putFits_iff (fun _ => Instance.firstHost.dataAddr) hostOneTwo
    (by decide) (by decide) 8 (by decide)).mp hall
  cases hsize

/-- The first `put` of an object with values of 8 bytes. -/
theorem not_putFits_eight :
    ¬ PutFits ⟨fun _ => 0, .at Instance.firstHost.dataAddr (some 1) 8
      (arenaStart hostOneTwo false)⟩ (fun _ => 0) fun _ => 1 :=
  not_putFits_construct (fun _ => Instance.firstHost.dataAddr) hostOneTwo
    (fun _ => 8) (show 0 < getMac (hostOneTwo false) by decide) (by decide)
    (by decide) fun _ => 0

end SHMemora.Ports
