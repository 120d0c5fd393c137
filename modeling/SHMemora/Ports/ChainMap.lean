import SHMemora.Verified.LinkedChain
import SHMemora.Ports.SharedChains

/-!
# Chains as a map

`get`, `update` and `del` of `gshm_upr` are written for buckets with chains of
any length.  `ChainMemory` is the memory they are written for: every chain
ends, its entries are blocks of their own outside of the bucket table, and no
key occurs twice.  Such a memory represents a map from keys to values
(`represented`), and the three functions are lookup, overwriting and removal
in it.

The stores build chains of at most one entry, see `SharedChains`; their
memories are of this shape as well (`Chained.chainMemory`).

## Main result

* `chain_operations` — the three functions on a memory of this shape.
-/

namespace SHMemora.Ports

open SHMemora.Verified.OrbitSearch
open SHMemora.Verified.ByteMemory
open SHMemora.Verified.LinkedChain

/-! ## The memory and the map it represents -/

/-- The chain of each bucket, listed by the offset of its bucket word. -/
structure ChainMemory (valueSize : Nat) (nodes : Nat → List Nat) (m : Bytes) :
    Prop where
  chain : ∀ key, Visits (nextEntry m (64 + valueSize)) 0 (bucket m key)
    (nodes (entryOffset key))
  outside : ∀ key, ∀ e ∈ nodes (entryOffset key),
    Apart (2 ^ 26) (2 ^ 28) e (72 + valueSize)
  end_le : ∀ key, ∀ e ∈ nodes (entryOffset key), e + (72 + valueSize) ≤ 2 ^ 63
  apart : ∀ key key', ∀ e ∈ nodes (entryOffset key),
    ∀ e' ∈ nodes (entryOffset key'), e ≠ e' →
      Apart e (72 + valueSize) e' (72 + valueSize)
  distinct : ∀ key, ((nodes (entryOffset key)).map (keyAt m)).Nodup
  home : ∀ key, ∀ e ∈ nodes (entryOffset key),
    entryOffset (keyAt m e) = entryOffset key

/-- The value of the entry at `e`. -/
def storedValue (m : Bytes) (valueSize e : Nat) : Fin valueSize → UInt8 :=
  fun i => m (e + 64 + i)

/-- The value of the entry in the chain that has the key. -/
def lookupIn (valueSize : Nat) (chain : List Nat) (m : Bytes) (key : Key) :
    Option (Fin valueSize → UInt8) :=
  (chain.find? fun e => decide (keyAt m e = key)).map (storedValue m valueSize)

/-- The map a memory stands for. -/
def represented (valueSize : Nat) (nodes : Nat → List Nat) (m : Bytes) :
    Key → Option (Fin valueSize → UInt8) := fun key =>
  lookupIn valueSize (nodes (entryOffset key)) m key

/-- A value copied into a buffer. -/
def overlay {valueSize : Nat} (value : Fin valueSize → UInt8) (buf : Bytes) :
    Bytes := fun i => if h : i < valueSize then value ⟨i, h⟩ else buf i

section Map

variable {valueSize : Nat} {nodes : Nat → List Nat} {m m' : Bytes} {key : Key}
  {e : Nat}

/-- The entry of a key in its chain. -/
structure Stored (m : Bytes) (chain before after : List Nat) (key : Key)
    (e : Nat) : Prop where
  split : chain = before ++ e :: after
  key_at : keyAt m e = key
  before_ne : ∀ x ∈ before, keyAt m x ≠ key

theorem Stored.mem {chain before after : List Nat}
    (h : Stored m chain before after key e) : e ∈ chain := by
  rw [h.split]
  simp

theorem Stored.mem_before {chain before after : List Nat}
    (h : Stored m chain before after key e) {x : Nat} (hx : x ∈ before) :
    x ∈ chain := by
  rw [h.split]
  simp [hx]

theorem Stored.mem_after {chain before after : List Nat}
    (h : Stored m chain before after key e) {x : Nat} (hx : x ∈ after) :
    x ∈ chain := by
  rw [h.split]
  simp [hx]

theorem Stored.find_eq {chain before after : List Nat}
    (h : Stored m chain before after key e) :
    chain.find? (fun x => decide (keyAt m x = key)) = some e := by
  rw [List.find?_eq_some_iff_append]
  refine ⟨by simpa using h.key_at, before, after, h.split, fun x hx => ?_⟩
  simpa using h.before_ne x hx

/-- A key is in its chain or not. -/
theorem stored_or_missing (m : Bytes) (chain : List Nat) (key : Key) :
    (∃ before after e, Stored m chain before after key e) ∨
      ∀ x ∈ chain, keyAt m x ≠ key := by
  cases hfind : chain.find? (fun x => decide (keyAt m x = key)) with
  | none =>
      refine .inr fun x hx => ?_
      simpa using List.find?_eq_none.mp hfind x hx
  | some e =>
      obtain ⟨hkey, before, after, hsplit, hbefore⟩ :=
        List.find?_eq_some_iff_append.mp hfind
      exact .inl ⟨before, after, e, hsplit, by simpa using hkey,
        fun x hx => by simpa using hbefore x hx⟩

theorem lookupIn_of_stored {chain before after : List Nat}
    (h : Stored m chain before after key e) :
    lookupIn valueSize chain m key = some (storedValue m valueSize e) := by
  rw [lookupIn, h.find_eq]
  rfl

theorem lookupIn_of_missing {chain : List Nat}
    (h : ∀ x ∈ chain, keyAt m x ≠ key) :
    lookupIn valueSize chain m key = none := by
  rw [lookupIn, List.find?_eq_none.mpr fun x hx => by simpa using h x hx]
  rfl

/-- A key whose entry keeps its value stands for the same. -/
theorem lookupIn_congr {chain : List Nat}
    (hkey : ∀ x ∈ chain, keyAt m' x = keyAt m x)
    (hvalue : ∀ x ∈ chain, keyAt m x = key →
      storedValue m' valueSize x = storedValue m valueSize x) :
    lookupIn valueSize chain m' key = lookupIn valueSize chain m key := by
  rcases stored_or_missing m chain key with
    ⟨before, after, x, hs⟩ | hmissing
  · have hs' : Stored m' chain before after key x := by
      refine ⟨hs.split, by rw [hkey x hs.mem, hs.key_at], fun y hy => ?_⟩
      rw [hkey y (hs.mem_before hy)]
      exact hs.before_ne y hy
    rw [lookupIn_of_stored hs, lookupIn_of_stored hs',
      hvalue x hs.mem hs.key_at]
  · rw [lookupIn_of_missing hmissing, lookupIn_of_missing fun x hx => by
      rw [hkey x hx]
      exact hmissing x hx]

/-- Without an entry all other keys stand for the same. -/
theorem lookupIn_erase {before after : List Nat} (hne : keyAt m e ≠ key) :
    lookupIn valueSize (before ++ after) m key =
      lookupIn valueSize (before ++ e :: after) m key := by
  simp [lookupIn, List.find?_append, hne]

/-! ## Walks -/

/-- A walk that ends with some fuel is found to end. -/
theorem chainEnd_ne_none_of_search {link fuel b : Nat}
    (hsearch : search (nextEntry m link) (endsWalk m key) fuel
      (bucket m key) = some b) : chainEnd m link key ≠ none := by
  obtain ⟨d, _, hd, hstop, _⟩ := search_eq_some_iff.mp hsearch
  intro hnone
  have hgo := chainEnd_eq_none_iff.mp hnone d
  rw [hd, hstop] at hgo
  cases hgo

variable (h : ChainMemory valueSize nodes m)
include h

/-- The entries are not null, so that only those with the key stop a walk. -/
theorem ChainMemory.endsWalk_eq_false (hin : e ∈ nodes (entryOffset key))
    {k : Key} (hne : keyAt m e ≠ k) : endsWalk m k e = false :=
  endsWalk_eq_false_iff.mpr ⟨(h.chain key).ne_null e hin, hne⟩

theorem ChainMemory.chainEnd_stored {before after : List Nat}
    (hs : Stored m (nodes (entryOffset key)) before after key e) :
    chainEnd m (64 + valueSize) key = some e := by
  have hchain := h.chain key
  rw [hs.split] at hchain
  have hsearch := search_found hchain
    (fun x hx => h.endsWalk_eq_false (hs.mem_before hx) (hs.before_ne x hx))
    (endsWalk_eq_true_iff.mpr (.inr hs.key_at))
  exact search_eq_of_ne_none hsearch (chainEnd_ne_none_of_search hsearch)

theorem ChainMemory.chainEnd_missing
    (hmissing : ∀ x ∈ nodes (entryOffset key), keyAt m x ≠ key) :
    chainEnd m (64 + valueSize) key = some 0 := by
  have hsearch := search_missing (h.chain key)
    (fun x hx => h.endsWalk_eq_false hx (hmissing x hx))
    (endsWalk_eq_true_iff.mpr (.inl rfl))
  exact search_eq_of_ne_none hsearch (chainEnd_ne_none_of_search hsearch)

/-- The walk of `del` stops at the entry of the key and knows the place of the
pointer to it. -/
theorem ChainMemory.linkEnd_stored {before after : List Nat}
    (hs : Stored m (nodes (entryOffset key)) before after key e) :
    linkEnd m (64 + valueSize) key =
      some (linkTo (fun x => wrap (x + (64 + valueSize))) (entryOffset key)
        before, e) := by
  have hchain := h.chain key
  rw [hs.split] at hchain
  have hsearch := search_link_found (fun x => wrap (x + (64 + valueSize)))
    (entryOffset key) hchain
    (fun x hx => h.endsWalk_eq_false (hs.mem_before hx) (hs.before_ne x hx))
    (endsWalk_eq_true_iff.mpr (.inr hs.key_at))
  refine search_eq_of_ne_none hsearch fun hnone => ?_
  have hmap := linkEnd_map m (64 + valueSize) key
  rw [h.chainEnd_stored hs, linkEnd, hnone] at hmap
  cases hmap

theorem ChainMemory.linkEnd_missing
    (hmissing : ∀ x ∈ nodes (entryOffset key), keyAt m x ≠ key) :
    ∃ place, linkEnd m (64 + valueSize) key = some (place, 0) := by
  have hmap := linkEnd_map m (64 + valueSize) key
  rw [h.chainEnd_missing hmissing, Option.map_eq_some_iff] at hmap
  obtain ⟨⟨place, x⟩, hlink, hx⟩ := hmap
  exact ⟨place, by rw [hlink]; exact congrArg some (Prod.ext rfl hx)⟩

/-! ## Writes -/

omit h in
/-- The bucket words are apart from the entries. -/
theorem ChainMemory.bucket_apart (h : ChainMemory valueSize nodes m)
    (hin : e ∈ nodes (entryOffset key)) (k : Key) :
    Apart (entryOffset k) 8 e (72 + valueSize) := by
  have hout := h.outside key e hin
  have hend := entryOffset_add_le k
  have hstart := entryOffset_eq k
  unfold Apart at hout ⊢
  omega

/-- A memory with the same keys, whose chains are parts of the ones before. -/
theorem ChainMemory.of_chains {nodes' : Nat → List Nat}
    (hkey : ∀ k, ∀ x ∈ nodes (entryOffset k), keyAt m' x = keyAt m x)
    (hsub : ∀ k, (nodes' (entryOffset k)).Sublist (nodes (entryOffset k)))
    (hchain : ∀ k, Visits (nextEntry m' (64 + valueSize)) 0 (bucket m' k)
      (nodes' (entryOffset k))) : ChainMemory valueSize nodes' m' where
  chain := hchain
  outside k x hx := h.outside k x ((hsub k).subset hx)
  end_le k x hx := h.end_le k x ((hsub k).subset hx)
  apart k k' x hx y hy :=
    h.apart k k' x ((hsub k).subset hx) y ((hsub k').subset hy)
  distinct k := by
    have hkeys : (nodes' (entryOffset k)).map (keyAt m') =
        (nodes' (entryOffset k)).map (keyAt m) :=
      List.map_congr_left fun x hx => hkey k x ((hsub k).subset hx)
    rw [hkeys]
    exact (h.distinct k).sublist ((hsub k).map _)
  home k x hx := by
    rw [hkey k x ((hsub k).subset hx)]
    exact h.home k x ((hsub k).subset hx)

omit h in
theorem storedValue_congr (hagree : Agree m m' e (64 + valueSize)) :
    storedValue m' valueSize e = storedValue m valueSize e := by
  funext i
  have := i.isLt
  exact hagree _ (by omega) (by omega)

/-! ### Overwriting -/

section Overwrite

variable (hin : e ∈ nodes (entryOffset key)) (value : Bytes)
include hin

/-- Another entry is not touched. -/
theorem ChainMemory.agree_writeValue {k : Key} {x : Nat}
    (hx : x ∈ nodes (entryOffset k)) (hne : x ≠ e) :
    Agree m (writeValue m valueSize e value) x (72 + valueSize) := by
  have hapart := h.apart k key x hx e hin hne
  refine Ports.agree_writeValue (h.end_le key e hin) ?_
  unfold Apart at hapart ⊢
  omega

theorem ChainMemory.keyAt_writeValue {k : Key} {x : Nat}
    (hx : x ∈ nodes (entryOffset k)) :
    keyAt (writeValue m valueSize e value) x = keyAt m x := by
  have hend := h.end_le k x hx
  refine keyAt_congr (by omega) ?_
  by_cases hne : x = e
  · rw [hne]
    exact Ports.agree_writeValue (h.end_le key e hin) (.inl (Nat.le_refl _))
  · exact (h.agree_writeValue hin value hx hne).mono (Nat.le_refl _)
      (by omega)

theorem ChainMemory.nextEntry_writeValue {k : Key} {x : Nat}
    (hx : x ∈ nodes (entryOffset k)) :
    nextEntry (writeValue m valueSize e value) (64 + valueSize) x =
      nextEntry m (64 + valueSize) x := by
  have hend := h.end_le k x hx
  by_cases hne : x = e
  · rw [nextEntry, nextEntry, wrap_of_lt (by omega), hne]
    refine loadWord_congr (by omega)
      (Ports.agree_writeValue (h.end_le key e hin) (.inr ?_))
    omega
  · exact nextEntry_congr (by omega) (h.agree_writeValue hin value hx hne)

theorem ChainMemory.bucket_writeValue (k : Key) :
    bucket (writeValue m valueSize e value) k = bucket m k := by
  have hapart := h.bucket_apart hin k
  refine bucket_congr (Ports.agree_writeValue (h.end_le key e hin) ?_)
  unfold Apart at hapart ⊢
  omega

/-- **Overwriting keeps the chains.** -/
theorem ChainMemory.writeValue :
    ChainMemory valueSize nodes (writeValue m valueSize e value) := by
  refine h.of_chains (fun k x hx => h.keyAt_writeValue hin value hx)
    (fun k => List.Sublist.refl _) fun k => ?_
  rw [h.bucket_writeValue hin value]
  exact (h.chain k).congr fun x hx => h.nextEntry_writeValue hin value hx

end Overwrite

/-- **Overwriting changes the map at the key only.** -/
theorem ChainMemory.represented_writeValue {before after : List Nat}
    (hs : Stored m (nodes (entryOffset key)) before after key e)
    (value : Bytes) :
    represented valueSize nodes (Ports.writeValue m valueSize e value) =
      Function.update (represented valueSize nodes m) key
        (some fun i => value i) := by
  have hkeys : ∀ k, ∀ x ∈ nodes (entryOffset k),
      keyAt (Ports.writeValue m valueSize e value) x = keyAt m x :=
    fun k x hx => h.keyAt_writeValue hs.mem value hx
  funext k
  by_cases hk : k = key
  · rw [hk, Function.update_self]
    have hs' : Stored (Ports.writeValue m valueSize e value)
        (nodes (entryOffset key)) before after key e := by
      refine ⟨hs.split, by rw [hkeys key e hs.mem, hs.key_at], fun y hy => ?_⟩
      rw [hkeys key y (hs.mem_before hy)]
      exact hs.before_ne y hy
    refine (lookupIn_of_stored hs').trans (congrArg some (funext fun i => ?_))
    exact value_writeValue (h.end_le key e hs.mem) i.isLt
  · rw [Function.update_of_ne hk]
    refine lookupIn_congr (hkeys k) fun x hx hkey => storedValue_congr ?_
    have hne : x ≠ e := by
      rintro rfl
      exact hk (hkey.symm.trans hs.key_at)
    exact (h.agree_writeValue hs.mem value hx hne).mono (Nat.le_refl _)
      (by omega)

/-! ### Removal -/

section Remove

variable {before after : List Nat}
  (hs : Stored m (nodes (entryOffset key)) before after key e)
include hs

/-- The entries of a chain are all different. -/
theorem ChainMemory.nodup : (before ++ e :: after).Nodup := by
  have hnodup := (h.distinct key).of_map
  rw [hs.split] at hnodup
  exact hnodup

omit h hs in
/-- The chains without an entry. -/
def without (nodes : Nat → List Nat) (key : Key) (before after : List Nat) :
    Nat → List Nat :=
  Function.update nodes (entryOffset key) (before ++ after)

omit h in
theorem without_sublist (k : Key) :
    (without nodes key before after (entryOffset k)).Sublist
      (nodes (entryOffset k)) := by
  by_cases hk : entryOffset k = entryOffset key
  · rw [without, hk, Function.update_self, hs.split]
    exact (List.Sublist.refl before).append (List.sublist_cons_self e after)
  · rw [without, Function.update_of_ne hk]

theorem ChainMemory.after_ne : ∀ x ∈ after, keyAt m x ≠ key := by
  have hkeys := h.distinct key
  rw [hs.split, List.map_append, List.map_cons, List.nodup_append,
    List.nodup_cons] at hkeys
  intro x hx heq
  refine hkeys.2.1.1 ?_
  rw [hs.key_at, ← heq]
  exact List.mem_map_of_mem hx

/-- **The map loses the key**, where all entries keep their contents and the
chain of the key goes around its entry. -/
theorem ChainMemory.without
    (hkey : ∀ k, ∀ x ∈ nodes (entryOffset k), keyAt m' x = keyAt m x)
    (hvalue : ∀ k, ∀ x ∈ nodes (entryOffset k),
      storedValue m' valueSize x = storedValue m valueSize x)
    (hchain : ∀ k, Visits (nextEntry m' (64 + valueSize)) 0 (bucket m' k)
      (Ports.without nodes key before after (entryOffset k))) :
    ChainMemory valueSize (Ports.without nodes key before after) m' ∧
      represented valueSize (Ports.without nodes key before after) m' =
        Function.update (represented valueSize nodes m) key none := by
  have hsub := without_sublist hs
  refine ⟨h.of_chains hkey hsub hchain, ?_⟩
  funext k
  have hsame : represented valueSize (Ports.without nodes key before after) m' k
      = lookupIn valueSize
        (Ports.without nodes key before after (entryOffset k)) m k :=
    lookupIn_congr (fun x hx => hkey k x ((hsub k).subset hx))
      fun x hx _ => hvalue k x ((hsub k).subset hx)
  rw [hsame]
  by_cases hk : k = key
  · rw [hk, Function.update_self, Ports.without, Function.update_self]
    refine lookupIn_of_missing fun x hx => ?_
    rcases List.mem_append.mp hx with hbefore | hafter
    · exact hs.before_ne x hbefore
    · exact h.after_ne hs x hafter
  · rw [Function.update_of_ne hk, Ports.without, represented]
    by_cases hhome : entryOffset k = entryOffset key
    · have hne : keyAt m e ≠ k := by
        rw [hs.key_at]
        exact Ne.symm hk
      rw [hhome, Function.update_self, hs.split]
      exact lookupIn_erase hne
    · rw [Function.update_of_ne hhome]

/-! ### The write of `del` -/

omit h hs in
/-- The pointer to an entry: the bucket word, or the next pointer of the entry
in front of it. -/
def pointerTo (valueSize : Nat) (key : Key) (before : List Nat) : Nat :=
  linkTo (fun x => wrap (x + (64 + valueSize))) (entryOffset key) before

omit h hs in
/-- The memory behind the write of `del`. -/
def unlinked (m : Bytes) (valueSize : Nat) (key : Key) (before : List Nat)
    (e : Nat) : Bytes :=
  store m (pointerTo valueSize key before)
    (ofWord (nextEntry m (64 + valueSize) e)) 8

omit h hs in
theorem pointerTo_nil : pointerTo valueSize key [] = entryOffset key := by
  rw [pointerTo, linkTo]

omit h hs in
theorem pointerTo_append_singleton (bs : List Nat) (b : Nat) :
    pointerTo valueSize key (bs ++ [b]) = wrap (b + (64 + valueSize)) :=
  linkTo_append_singleton _ _ bs b

/-- The pointer to the entry is behind the value of the entry it is in, and
in no other entry. -/
theorem ChainMemory.pointerTo_place :
    (before = [] ∧ pointerTo valueSize key before = entryOffset key) ∨
      ∃ bs b, before = bs ++ [b] ∧ b ∈ nodes (entryOffset key) ∧
        pointerTo valueSize key before = b + (64 + valueSize) := by
  rcases List.eq_nil_or_concat before with rfl | ⟨bs, b, rfl⟩
  · exact .inl ⟨rfl, pointerTo_nil⟩
  · have hb : b ∈ nodes (entryOffset key) := hs.mem_before (by simp)
    have hend := h.end_le key b hb
    refine .inr ⟨bs, b, by simp, hb, ?_⟩
    rw [List.concat_eq_append, pointerTo_append_singleton,
      wrap_of_lt (by omega)]

/-- Keys and values are not touched. -/
theorem ChainMemory.agree_unlinked {k : Key} {x : Nat}
    (hx : x ∈ nodes (entryOffset k)) :
    Agree m (unlinked m valueSize key before e) x (64 + valueSize) := by
  rcases h.pointerTo_place hs with ⟨_, hplace⟩ | ⟨bs, b, _, hb, hplace⟩
  · have hapart := h.bucket_apart hx key
    have hend := entryOffset_add_le key
    rw [unlinked, hplace]
    refine agree_store (by omega) ?_
    unfold Apart at hapart ⊢
    omega
  · have hend := h.end_le key b hb
    rw [unlinked, hplace]
    refine agree_store (by omega) ?_
    by_cases hxb : x = b
    · rw [hxb]
      exact .inl (Nat.le_refl _)
    · have hapart := h.apart k key x hx b hb hxb
      unfold Apart at hapart ⊢
      omega

/-- The next pointers of entries other than the one in front are not
touched. -/
theorem ChainMemory.nextEntry_unlinked {k : Key} {x : Nat}
    (hx : x ∈ nodes (entryOffset k))
    (hne : ∀ bs b, before = bs ++ [b] → x ≠ b) :
    nextEntry (unlinked m valueSize key before e) (64 + valueSize) x =
      nextEntry m (64 + valueSize) x := by
  have hxend := h.end_le k x hx
  rcases h.pointerTo_place hs with ⟨_, hplace⟩ | ⟨bs, b, hbs, hb, hplace⟩
  · have hapart := h.bucket_apart hx key
    have hend := entryOffset_add_le key
    rw [unlinked, hplace]
    refine nextEntry_congr (by omega) (agree_store (by omega) ?_)
    unfold Apart at hapart ⊢
    omega
  · have hend := h.end_le key b hb
    have hapart := h.apart k key x hx b hb (hne bs b hbs)
    rw [unlinked, hplace]
    refine nextEntry_congr (by omega) (agree_store (by omega) ?_)
    unfold Apart at hapart ⊢
    omega

/-- The bucket words stay, but for that of the key if its entry is the
first. -/
theorem ChainMemory.bucket_unlinked {k : Key}
    (hne : before = [] → entryOffset k ≠ entryOffset key) :
    bucket (unlinked m valueSize key before e) k = bucket m k := by
  rcases h.pointerTo_place hs with ⟨hnil, hplace⟩ | ⟨bs, b, _, hb, hplace⟩
  · rw [unlinked, hplace]
    exact bucket_setBucket_of_ne (hne hnil)
  · have hend := h.end_le key b hb
    have hapart := h.bucket_apart hb k
    rw [unlinked, hplace]
    refine bucket_congr (agree_store (by omega) ?_)
    unfold Apart at hapart ⊢
    omega

omit hs in
/-- The first entry is unlinked by a write to the bucket word. -/
theorem ChainMemory.visits_unlinked_head {k : Key}
    (hs : Stored m (nodes (entryOffset key)) [] after key e)
    (hk : entryOffset k = entryOffset key) :
    Visits (nextEntry (unlinked m valueSize key [] e) (64 + valueSize)) 0
      (bucket (unlinked m valueSize key [] e) k) after := by
  have hbucket : bucket (unlinked m valueSize key [] e) k =
      nextEntry m (64 + valueSize) e := by
    rw [unlinked, pointerTo_nil]
    exact bucket_setBucket (loadWord_lt m _) hk
  have hchain := h.chain k
  rw [hk, hs.split, List.nil_append] at hchain
  rw [hbucket]
  apply hchain.skip_head
  intro x hx
  exact h.nextEntry_unlinked hs (hs.mem_after hx) (by simp)

omit hs in
/-- Any other entry is unlinked by a write to the next pointer of the entry in
front of it. -/
theorem ChainMemory.visits_unlinked_behind {bs : List Nat} {b : Nat} {k : Key}
    (hs : Stored m (nodes (entryOffset key)) (bs ++ [b]) after key e)
    (hk : entryOffset k = entryOffset key) :
    Visits (nextEntry (unlinked m valueSize key (bs ++ [b]) e)
        (64 + valueSize)) 0
      (bucket (unlinked m valueSize key (bs ++ [b]) e) k)
      (bs ++ b :: after) := by
  have hlt : nextEntry m (64 + valueSize) e < 2 ^ 64 := loadWord_lt m _
  have hb : b ∈ nodes (entryOffset key) := hs.mem_before (by simp)
  have hend := h.end_le key b hb
  have hnext : nextEntry (unlinked m valueSize key (bs ++ [b]) e)
      (64 + valueSize) b = nextEntry m (64 + valueSize) e := by
    rw [nextEntry, wrap_of_lt (by omega), unlinked, pointerTo_append_singleton,
      wrap_of_lt (by omega)]
    exact loadWord_store_self (by omega) hlt
  have hother : ∀ x ∈ nodes (entryOffset key), x ≠ b →
      nextEntry (unlinked m valueSize key (bs ++ [b]) e) (64 + valueSize) x =
        nextEntry m (64 + valueSize) x := by
    intro x hx hne
    refine h.nextEntry_unlinked hs hx fun bs' b' heq => ?_
    rw [← (List.append_singleton_inj.mp heq).2]
    exact hne
  -- `b` occurs neither in front of its place nor behind it
  have hnodup := h.nodup hs
  rw [List.append_assoc, List.singleton_append, List.nodup_append,
    List.nodup_cons] at hnodup
  have hchain := h.chain k
  rw [hk, hs.split, List.append_assoc, List.singleton_append] at hchain
  rw [h.bucket_unlinked hs (by simp)]
  refine hchain.skip (fun x hx => ?_) hnext (fun x hx => ?_)
  · exact hother x (hs.mem_before (by simp [hx]))
      (hnodup.2.2 x hx b List.mem_cons_self)
  · refine hother x (hs.mem_after hx) ?_
    rintro rfl
    exact hnodup.2.1.1 (List.mem_cons_of_mem e hx)

/-- **The chains behind the write of `del`.** -/
theorem ChainMemory.visits_unlinked (k : Key) :
    Visits (nextEntry (unlinked m valueSize key before e) (64 + valueSize)) 0
      (bucket (unlinked m valueSize key before e) k)
      (Ports.without nodes key before after (entryOffset k)) := by
  by_cases hk : entryOffset k = entryOffset key
  · rw [hk, Ports.without, Function.update_self]
    rcases List.eq_nil_or_concat before with rfl | ⟨bs, b, rfl⟩
    · exact h.visits_unlinked_head hs hk
    · rw [List.concat_eq_append] at hs ⊢
      rw [List.append_assoc]
      exact h.visits_unlinked_behind hs hk
  · rw [Ports.without, Function.update_of_ne hk,
      h.bucket_unlinked hs fun _ => hk]
    refine (h.chain k).congr fun x hx => h.nextEntry_unlinked hs hx ?_
    -- an entry has one home
    rintro bs b hbs rfl
    have hb : x ∈ nodes (entryOffset key) := hs.mem_before (by simp [hbs])
    exact hk ((h.home k x hx).symm.trans (h.home key x hb))

/-- **Removal**: the map loses the key. -/
theorem ChainMemory.unlinked :
    ChainMemory valueSize (Ports.without nodes key before after)
        (unlinked m valueSize key before e) ∧
      represented valueSize (Ports.without nodes key before after)
          (Ports.unlinked m valueSize key before e) =
        Function.update (represented valueSize nodes m) key none := by
  refine h.without hs (fun k x hx => ?_) (fun k x hx => ?_)
    (h.visits_unlinked hs)
  · have hend := h.end_le k x hx
    exact keyAt_congr (by omega)
      ((h.agree_unlinked hs hx).mono (Nat.le_refl _) (by omega))
  · exact storedValue_congr (h.agree_unlinked hs hx)

end Remove

/-! ### A longer chain -/

omit h in
/-- The block at `e` holds the key and is in front of the chain of the key. -/
def linkFront (m : Bytes) (valueSize e : Nat) (key : Key) : Bytes :=
  setBucket (store (store m e key.buf 64) (e + (64 + valueSize))
    (ofWord (bucket m key)) 8) key e

section LinkFront

variable (hend : e + (72 + valueSize) ≤ 2 ^ 63)
include hend

omit h in
theorem agree_linkFront {a k : Nat} (hblock : Apart a k e (72 + valueSize))
    (hbucket : Apart a k (entryOffset key) 8) :
    Agree m (linkFront m valueSize e key) a k := by
  have hfields : Agree m (store (store m e key.buf 64) (e + (64 + valueSize))
      (ofWord (bucket m key)) 8) a k := by
    refine (agree_store (by omega) ?_).trans (agree_store (by omega) ?_)
    · unfold Apart at hblock ⊢
      omega
    · unfold Apart at hblock ⊢
      omega
  exact hfields.trans (agree_setBucket hbucket)

variable (hout : Apart (2 ^ 26) (2 ^ 28) e (72 + valueSize))
include hout

variable (m key) in
omit h in
/-- The new entry. -/
theorem linkFront_self :
    keyAt (linkFront m valueSize e key) e = key ∧
      nextEntry (linkFront m valueSize e key) (64 + valueSize) e =
        bucket m key := by
  have hstart := entryOffset_eq key
  have hstop := entryOffset_add_le key
  have hfields : Agree (store (store m e key.buf 64) (e + (64 + valueSize))
      (ofWord (bucket m key)) 8) (linkFront m valueSize e key) e
      (72 + valueSize) := by
    refine agree_setBucket ?_
    unfold Apart at hout ⊢
    omega
  constructor
  · rw [keyAt_congr (by omega) (hfields.mono (Nat.le_refl _) (by omega)),
      keyAt_congr (by omega) (agree_store (by omega) (.inl (by omega))),
      keyAt_store_self (by omega)]
  · rw [nextEntry_congr (by omega) hfields, nextEntry, wrap_of_lt (by omega)]
    exact loadWord_store_self (by omega) (loadWord_lt m _)

/-- Chains may be as long as there are blocks. -/
theorem ChainMemory.linkFront (hne : e ≠ 0)
    (hnew : ∀ k, ∀ x ∈ nodes (entryOffset k),
      Apart x (72 + valueSize) e (72 + valueSize))
    (hmissing : ∀ x ∈ nodes (entryOffset key), keyAt m x ≠ key) :
    ChainMemory valueSize (Function.update nodes (entryOffset key)
        (e :: nodes (entryOffset key))) (linkFront m valueSize e key) := by
  obtain ⟨hself, hnext⟩ := linkFront_self m key hend hout
  have hmem : ∀ k x, x ∈ Function.update nodes (entryOffset key)
      (e :: nodes (entryOffset key)) (entryOffset k) →
      (x = e ∧ entryOffset k = entryOffset key) ∨
        x ∈ nodes (entryOffset k) := by
    intro k x hx
    by_cases hk : entryOffset k = entryOffset key
    · rw [hk, Function.update_self, List.mem_cons] at hx
      rw [hk]
      exact hx.imp_left fun hxe => ⟨hxe, rfl⟩
    · rw [Function.update_of_ne hk] at hx
      exact .inr hx
  have hagree : ∀ k, ∀ x ∈ nodes (entryOffset k),
      Agree m (Ports.linkFront m valueSize e key) x (72 + valueSize) :=
    fun k x hx => agree_linkFront hend (hnew k x hx)
      (h.bucket_apart hx key).symm
  have hkeys : ∀ k, ∀ x ∈ nodes (entryOffset k),
      keyAt (Ports.linkFront m valueSize e key) x = keyAt m x := by
    intro k x hx
    have hxend := h.end_le k x hx
    exact keyAt_congr (by omega)
      ((hagree k x hx).mono (Nat.le_refl _) (by omega))
  have hchains : ∀ k, Visits
      (nextEntry (Ports.linkFront m valueSize e key) (64 + valueSize)) 0
      (bucket m k) (nodes (entryOffset k)) := by
    refine fun k => (h.chain k).congr fun x hx => ?_
    have hxend := h.end_le k x hx
    exact nextEntry_congr (by omega) (hagree k x hx)
  constructor
  case chain =>
    intro k
    by_cases hk : entryOffset k = entryOffset key
    · have hbucket : bucket (Ports.linkFront m valueSize e key) k = e :=
        bucket_setBucket (by omega) hk
      rw [hk, Function.update_self, hbucket]
      refine .visit hne ?_
      rw [hnext]
      exact hchains key
    · have hbucket : bucket (Ports.linkFront m valueSize e key) k =
          bucket m k := by
        have hstart := entryOffset_eq k
        have hstop := entryOffset_add_le k
        refine bucket_congr (agree_linkFront hend ?_
          (apart_of_entryOffset_ne hk))
        unfold Apart at hout ⊢
        omega
      rw [Function.update_of_ne hk, hbucket]
      exact hchains k
  case outside =>
    intro k x hx
    rcases hmem k x hx with ⟨rfl, _⟩ | hx
    · exact hout
    · exact h.outside k x hx
  case end_le =>
    intro k x hx
    rcases hmem k x hx with ⟨rfl, _⟩ | hx
    · exact hend
    · exact h.end_le k x hx
  case apart =>
    intro k k' x hx y hy hxy
    rcases hmem k x hx with ⟨hxe, _⟩ | hx
    · rcases hmem k' y hy with ⟨hye, _⟩ | hy
      · exact absurd (hxe.trans hye.symm) hxy
      · rw [hxe]
        exact (hnew k' y hy).symm
    · rcases hmem k' y hy with ⟨hye, _⟩ | hy
      · rw [hye]
        exact hnew k x hx
      · exact h.apart k k' x hx y hy hxy
  case distinct =>
    intro k
    have hmap : ∀ k, (nodes (entryOffset k)).map
        (keyAt (Ports.linkFront m valueSize e key)) =
          (nodes (entryOffset k)).map (keyAt m) :=
      fun k => List.map_congr_left (hkeys k)
    by_cases hk : entryOffset k = entryOffset key
    · rw [hk, Function.update_self, List.map_cons, hself, hmap]
      refine List.nodup_cons.mpr ⟨fun hin => ?_, h.distinct key⟩
      obtain ⟨x, hx, hkey⟩ := List.mem_map.mp hin
      exact hmissing x hx hkey
    · rw [Function.update_of_ne hk, hmap]
      exact h.distinct k
  case home =>
    intro k x hx
    rcases hmem k x hx with ⟨rfl, hk⟩ | hx
    · rw [hself, hk]
    · rw [hkeys k x hx]
      exact h.home k x hx

end LinkFront

end Map

/-! ## The functions -/

section Operations

variable {u : GshmUpr} {nodes : Nat → List Nat}
  (h : ChainMemory u.self.valueSize nodes u.data) (key : Key)
include h

/-- `get` copies the value of the key out. -/
theorem ChainMemory.get_eq (buf : Bytes) :
    u.get key buf =
      match represented u.self.valueSize nodes u.data key with
      | none => .returned (false, buf) u
      | some value => .returned (true, overlay value buf) u := by
  rw [GshmUpr.get, GshmUpr.lookup_eq]
  rcases stored_or_missing u.data (nodes (entryOffset key)) key with
    ⟨before, after, e, hs⟩ | hmissing
  · have hne : e ≠ 0 := (h.chain key).ne_null e hs.mem
    have hend := h.end_le key e hs.mem
    have hbuf : fetch u.data (wrap (e + 64)) buf u.self.valueSize =
        overlay (storedValue u.data u.self.valueSize e) buf := by
      funext i
      rw [fetch_apply, overlay]
      by_cases hi : i < u.self.valueSize
      · have hstart : wrap (e + 64) = e + 64 := wrap_of_lt (by omega)
        rw [if_pos hi, dif_pos hi, storedValue, hstart,
          wrap_of_lt (by omega)]
      · rw [if_neg hi, dif_neg hi]
    rw [h.chainEnd_stored hs, represented, lookupIn_of_stored hs]
    simp only [if_neg hne, GshmUpr.readCxl, hbuf]
  · rw [h.chainEnd_missing hmissing, represented, lookupIn_of_missing hmissing]
    rfl

/-- `update` overwrites the value of the key. -/
theorem ChainMemory.update_eq (value : Bytes) :
    match represented u.self.valueSize nodes u.data key with
    | none => u.update key value = .returned false u
    | some _ => ∃ m, u.update key value = .returned true ⟨m, u.self⟩ ∧
        ChainMemory u.self.valueSize nodes m ∧
        represented u.self.valueSize nodes m =
          Function.update (represented u.self.valueSize nodes u.data) key
            (some fun i => value i) := by
  rcases stored_or_missing u.data (nodes (entryOffset key)) key with
    ⟨before, after, e, hs⟩ | hmissing
  · have hne : e ≠ 0 := (h.chain key).ne_null e hs.mem
    have hend := h.end_le key e hs.mem
    have hlt : wrap (e + 64) < 2 ^ 63 := by
      rw [wrap_of_lt (by omega)]
      omega
    have hcall : u.update key value = .returned true
        ⟨Ports.writeValue u.data u.self.valueSize e value, u.self⟩ := by
      rw [GshmUpr.update, GshmUpr.lookup_eq, h.chainEnd_stored hs]
      simp only [if_neg hne, GshmUpr.writeCxl_of_lt hlt]
      rfl
    rw [represented, lookupIn_of_stored hs]
    exact ⟨_, hcall, h.writeValue hs.mem value,
      h.represented_writeValue hs value⟩
  · rw [represented, lookupIn_of_missing hmissing]
    show u.update key value = .returned false u
    rw [GshmUpr.update, GshmUpr.lookup_eq, h.chainEnd_missing hmissing]
    rfl

/-- `del` takes the key out. -/
theorem ChainMemory.del_eq :
    match represented u.self.valueSize nodes u.data key with
    | none => u.del key = .returned false u
    | some _ => ∃ m nodes', u.del key = .returned true ⟨m, u.self⟩ ∧
        ChainMemory u.self.valueSize nodes' m ∧
        represented u.self.valueSize nodes' m =
          Function.update (represented u.self.valueSize nodes u.data) key
            none := by
  rcases stored_or_missing u.data (nodes (entryOffset key)) key with
    ⟨before, after, e, hs⟩ | hmissing
  · have hne : e ≠ 0 := (h.chain key).ne_null e hs.mem
    have hlt : pointerTo u.self.valueSize key before < 2 ^ 63 := by
      rcases h.pointerTo_place hs with ⟨_, hplace⟩ | ⟨_, b, _, hb, hplace⟩
      · have hend := entryOffset_add_le key
        omega
      · have hend := h.end_le key b hb
        omega
    have hcall : u.del key = .returned true
        ⟨Ports.unlinked u.data u.self.valueSize key before e, u.self⟩ := by
      rw [GshmUpr.del_eq, h.linkEnd_stored hs]
      show GshmUpr.unlink u (pointerTo u.self.valueSize key before, e) = _
      rw [GshmUpr.unlink, if_neg hne, GshmUpr.writeCxl_of_lt hlt]
      rfl
    rw [represented, lookupIn_of_stored hs]
    exact ⟨_, _, hcall, h.unlinked hs⟩
  · obtain ⟨place, hlink⟩ := h.linkEnd_missing hmissing
    rw [represented, lookupIn_of_missing hmissing]
    show u.del key = .returned false u
    rw [GshmUpr.del_eq, hlink]
    exact if_pos rfl

end Operations

/-! ## The memory of the stores -/

/-- The chains of a memory whose entries are the last of their chains. -/
def shortChains (m : Bytes) (off : Nat) : List Nat :=
  if loadWord m off = 0 then [] else [loadWord m off]

theorem mem_shortChains_iff {m : Bytes} {key : Key} {e : Nat} :
    e ∈ shortChains m (entryOffset key) ↔
      bucket m key ≠ 0 ∧ e = bucket m key := by
  rw [shortChains, bucket]
  split <;> simp [*]

/-- Whatever objects on hosts of their own leave behind has this shape. -/
theorem Chained.chainMemory {valueSize : Nat} {block : Nat → Prop} {m : Bytes}
    (h : Chained valueSize block m) (hset : BlockSet valueSize block) :
    ChainMemory valueSize (shortChains m) m := by
  have hblock : ∀ key, ∀ e ∈ shortChains m (entryOffset key), block e := by
    intro key e he
    obtain ⟨hne, rfl⟩ := mem_shortChains_iff.mp he
    exact h.pointers key hne
  constructor
  case chain =>
    intro key
    by_cases hzero : bucket m key = 0
    · have hnil : shortChains m (entryOffset key) = [] := if_pos hzero
      rw [hzero, hnil]
      exact .done
    · have hone : shortChains m (entryOffset key) = [bucket m key] :=
        if_neg hzero
      have hlast := h.last _ (h.pointers key hzero)
      rw [hone]
      refine .visit hzero ?_
      rw [hlast]
      exact .done
  case outside => exact fun key e he => .inl (hset.behind e (hblock key e he))
  case end_le => exact fun key e he => hset.end_le e (hblock key e he)
  case apart =>
    exact fun key key' e he e' he' => hset.apart e e' (hblock key e he)
      (hblock key' e' he')
  case distinct =>
    intro key
    rw [shortChains]
    split <;> simp
  case home =>
    intro key e he
    obtain ⟨hne, rfl⟩ := mem_shortChains_iff.mp he
    exact h.home key hne

/-! ## The result -/

/-- On a memory whose chains all end, whose entries are blocks of their own
outside of the bucket table, and whose chains have every key once and only keys
of their bucket, `get` is lookup in the map that the memory represents and
leaves everything as it is.  `update` and `del` return `true` if and only if
the key is in the map, whose value at this key is then replaced or removed; the
memory has the same shape again.  Where they return `false` nothing is
changed. -/
theorem chain_operations (u : GshmUpr) {nodes : Nat → List Nat}
    (h : ChainMemory u.self.valueSize nodes u.data) (key : Key)
    (buf value : Bytes) :
    (u.get key buf =
      match represented u.self.valueSize nodes u.data key with
      | none => .returned (false, buf) u
      | some stored => .returned (true, overlay stored buf) u) ∧
    (match represented u.self.valueSize nodes u.data key with
      | none => u.update key value = .returned false u
      | some _ => ∃ m, u.update key value = .returned true ⟨m, u.self⟩ ∧
          ChainMemory u.self.valueSize nodes m ∧
          represented u.self.valueSize nodes m =
            Function.update (represented u.self.valueSize nodes u.data) key
              (some fun i => value i)) ∧
    match represented u.self.valueSize nodes u.data key with
      | none => u.del key = .returned false u
      | some _ => ∃ m nodes', u.del key = .returned true ⟨m, u.self⟩ ∧
          ChainMemory u.self.valueSize nodes' m ∧
          represented u.self.valueSize nodes' m =
            Function.update (represented u.self.valueSize nodes u.data) key
              none :=
  ⟨h.get_eq key buf, h.update_eq key value, h.del_eq key⟩

/-- A zeroed data area. -/
theorem ChainMemory.zero (valueSize : Nat) :
    ChainMemory valueSize (fun _ => []) fun _ => 0 where
  chain _ := .done
  outside _ _ he := by cases he
  end_le _ _ he := by cases he
  apart _ _ _ he := by cases he
  distinct _ := List.nodup_nil
  home _ _ he := by cases he

/-- Two keys of one bucket. -/
def tailKey : Key := fun _ => 0

def headKey : Key := fun i => if i.val = 20 then 1 else 0

theorem entryOffset_headKey : entryOffset headKey = entryOffset tailKey := by
  decide

/-- A chain of one entry, and one of two. -/
def oneNode : Nat → List Nat :=
  Function.update (fun _ => []) (entryOffset tailKey) [2 ^ 29]

def twoNodes : Nat → List Nat :=
  Function.update oneNode (entryOffset tailKey) [2 ^ 30, 2 ^ 29]

def oneEntry : Bytes := linkFront (fun _ => 0) 256 (2 ^ 29) tailKey

def twoEntries : GshmUpr :=
  ⟨linkFront oneEntry 256 (2 ^ 30) headKey, .firstHost⟩

theorem twoEntries_data :
    twoEntries.data = linkFront oneEntry 256 (2 ^ 30) headKey := rfl

theorem oneEntry_chainMemory : ChainMemory 256 oneNode oneEntry :=
  (ChainMemory.zero 256).linkFront (by decide) (.inl (by decide)) (by decide)
    (by simp) (by simp)

theorem mem_oneNode {key : Key} {e : Nat}
    (he : e ∈ oneNode (entryOffset key)) : e = 2 ^ 29 := by
  by_cases hk : entryOffset key = entryOffset tailKey
  · rw [oneNode, hk, Function.update_self] at he
    exact List.mem_singleton.mp he
  · rw [oneNode, Function.update_of_ne hk] at he
    cases he

theorem keyAt_oneEntry : keyAt oneEntry (2 ^ 29) = tailKey :=
  (linkFront_self _ _ (by decide) (.inl (by decide))).1

theorem twoEntries_chainMemory :
    ChainMemory twoEntries.self.valueSize twoNodes twoEntries.data := by
  have hnodes : twoNodes = Function.update oneNode (entryOffset headKey)
      (2 ^ 30 :: oneNode (entryOffset headKey)) := by
    rw [entryOffset_headKey, twoNodes, oneNode, Function.update_self]
  rw [hnodes]
  refine oneEntry_chainMemory.linkFront (by decide) (.inl (by decide))
    (by decide) (fun k x hx => ?_) (fun x hx => ?_)
  · rw [mem_oneNode hx]
    exact .inl (by decide)
  · rw [mem_oneNode hx, keyAt_oneEntry]
    decide

theorem stored_tailKey :
    Stored twoEntries.data (twoNodes (entryOffset tailKey)) [2 ^ 30] []
      tailKey (2 ^ 29) := by
  rw [twoEntries_data]
  refine ⟨Function.update_self _ _ _, ?_, fun x hx => ?_⟩
  · rw [keyAt_congr (by decide) (agree_linkFront (by decide) (.inl (by decide))
      (.inr (by decide))), keyAt_oneEntry]
  · rw [List.mem_singleton.mp hx,
      (linkFront_self _ _ (by decide) (.inl (by decide))).1]
    decide

/-- The entry behind the other one is removed. -/
theorem chain_operations_two_entries :
    ∃ m nodes', twoEntries.del tailKey =
        .returned true ⟨m, twoEntries.self⟩ ∧
      ChainMemory twoEntries.self.valueSize nodes' m ∧
      represented twoEntries.self.valueSize nodes' m =
        Function.update (represented twoEntries.self.valueSize twoNodes
          twoEntries.data) tailKey none := by
  have hstored : represented twoEntries.self.valueSize twoNodes
      twoEntries.data tailKey = some (storedValue twoEntries.data
        twoEntries.self.valueSize (2 ^ 29)) :=
    lookupIn_of_stored stored_tailKey
  have hcalls := chain_operations twoEntries twoEntries_chainMemory tailKey
    (fun _ => 0) fun _ => 0
  rw [hstored] at hcalls
  exact hcalls.2.2

end SHMemora.Ports
