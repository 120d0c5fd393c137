import SHMemora.Verified.OrbitSearch

/-!
# Visits chains

A chain starts somewhere and follows a `next` function up to a null pointer.
`Visits` lists the elements it visits.  Nothing is said about how `next` comes
about; when it is read from a memory, a write shows as another function
`next'`, and what the write leaves alone as an equation between the two.

## Main results

* `Visits.congr`, `Visits.skip_head`, `Visits.skip` — what a chain becomes when
  nothing on it changes, and when one element is taken out of it.
* `search_found`, `search_link_found`, `search_missing` — a walk along a chain
  stops at the first element that passes its test, or at the null pointer.
-/

namespace SHMemora.Verified.LinkedChain

open SHMemora.Verified.OrbitSearch

variable {α β : Type*} {next next' : α → α} {null a : α} {l : List α}

/-- The chain from an element on visits exactly these elements. -/
inductive Visits (next : α → α) (null : α) : α → List α → Prop
  | done : Visits next null null []
  | visit {a : α} {l : List α} (hne : a ≠ null)
      (rest : Visits next null (next a) l) : Visits next null a (a :: l)

theorem Visits.ne_null (h : Visits next null a l) : ∀ x ∈ l, x ≠ null := by
  induction h with
  | done => simp
  | visit hne _ ih =>
      intro x hx
      rcases List.mem_cons.mp hx with rfl | hx
      · exact hne
      · exact ih x hx

/-! ## Chains that change -/

/-- A chain none of whose elements has changed. -/
theorem Visits.congr (h : Visits next null a l)
    (hsame : ∀ x ∈ l, next' x = next x) : Visits next' null a l := by
  induction h with
  | done => exact .done
  | @visit a l hne _ ih =>
      have hrest := ih fun x hx => hsame x (List.mem_cons_of_mem _ hx)
      rw [← hsame a List.mem_cons_self] at hrest
      exact .visit hne hrest

/-- The first element taken out. -/
theorem Visits.skip_head {e : α} {after : List α}
    (h : Visits next null a (e :: after))
    (hafter : ∀ x ∈ after, next' x = next x) :
    Visits next' null (next e) after := by
  cases h with
  | visit _ rest => exact rest.congr hafter

/-- An element taken out by letting the one in front of it point to where it
points. -/
theorem Visits.skip {before after : List α} {b e : α}
    (h : Visits next null a (before ++ b :: e :: after))
    (hbefore : ∀ x ∈ before, next' x = next x) (hb : next' b = next e)
    (hafter : ∀ x ∈ after, next' x = next x) :
    Visits next' null a (before ++ b :: after) := by
  induction before generalizing a with
  | nil =>
      cases h with
      | visit hne rest =>
          have hrest := rest.skip_head hafter
          rw [← hb] at hrest
          exact .visit hne hrest
  | cons x before ih =>
      cases h with
      | visit hne rest =>
          have hrest := ih rest fun y hy =>
            hbefore y (List.mem_cons_of_mem _ hy)
          rw [← hbefore x List.mem_cons_self] at hrest
          exact .visit hne hrest

/-! ## Walks along a chain -/

section Walk

variable {stop : α → Bool}

/-- The place a walk has come from when it stands behind these elements:
`field` is the place of the pointer in an element. -/
def linkTo (field : α → β) (start : β) : List α → β
  | [] => start
  | b :: before => linkTo field (field b) before

theorem linkTo_append_singleton (field : α → β) (start : β)
    (before : List α) (b : α) :
    linkTo field start (before ++ [b]) = field b := by
  induction before generalizing start with
  | nil => rfl
  | cons x before ih => exact ih (field x)

/-- A walk that keeps track of the place it has come from. -/
theorem search_link_found {before after : List α} {e : α} (field : α → β)
    (start : β) (h : Visits next null a (before ++ e :: after))
    (hbefore : ∀ x ∈ before, stop x = false) (he : stop e = true) :
    search (fun q : β × α => (field q.2, next q.2)) (fun q => stop q.2)
        (before.length + 1) (start, a) =
      some (linkTo field start before, e) := by
  induction before generalizing a start with
  | nil =>
      cases h with
      | visit _ _ => simp [search, he, linkTo]
  | cons x before ih =>
      cases h with
      | visit _ rest =>
          have hx := hbefore x List.mem_cons_self
          have hrest := ih (field x) rest fun y hy =>
            hbefore y (List.mem_cons_of_mem _ hy)
          rw [List.length_cons, search, hx]
          exact hrest

/-- A walk stops at the first element that passes the test. -/
theorem search_found {before after : List α} {e : α}
    (h : Visits next null a (before ++ e :: after))
    (hbefore : ∀ x ∈ before, stop x = false) (he : stop e = true) :
    search next stop (before.length + 1) a = some e := by
  have hlink := search_link_found (fun _ => ()) () h hbefore he
  have hmap : (search (fun q : Unit × α => ((), next q.2))
      (fun q => stop q.2) (before.length + 1) ((), a)).map Prod.snd =
      search next stop (before.length + 1) a :=
    search_map Prod.snd (fun _ => rfl) (fun _ => rfl) _ _
  rw [hlink] at hmap
  exact hmap.symm

/-- Where no element passes it, the walk goes on to the null pointer. -/
theorem search_missing (h : Visits next null a l)
    (hl : ∀ x ∈ l, stop x = false) (hnull : stop null = true) :
    search next stop (l.length + 1) a = some null := by
  induction h with
  | done => simp [search, hnull]
  | @visit a l _ _ ih =>
      rw [List.length_cons, search, hl a List.mem_cons_self]
      exact ih fun x hx => hl x (List.mem_cons_of_mem _ hx)

end Walk

end SHMemora.Verified.LinkedChain
