import Mathlib.Data.Finmap
import Mathlib.Tactic.Ring

/-!
# Finite maps that are filled by finding a key

* `upsert` : the value under a key is found and changed, or put in where there is none;
* `Listing` : the entries of a map in some order, each once;
* `foldlM_upsert` : a listing that is gone through changes each of its keys once, in whatever order it is;
* `emplace`, `Listing.foldl_emplace` : a map is what its entries are put into, in any order;
* `Counts`, `Tally` : numbers under a key, and under two; `Proper.ext` : a tally without zeros is determined by its numbers;
* `Adds` : what counts the pairs of a list, and the rule for a loop.
-/

namespace S2Moe.Lib

section Upsert
variable {κ β γ : Type*} [DecidableEq κ]

/-- Changes the value under `k`, if there is one, or puts one in; nothing if `f` gives none. -/
def upsert (m : Finmap fun _ : κ => β) (k : κ) (f : Option β → Option β) : Option (Finmap fun _ : κ => β) :=
  (f (m.lookup k)).map fun v => m.insert k v

theorem lookup_insert_ite (m : Finmap fun _ : κ => β) (k k' : κ) (v : β) :
    (m.insert k v).lookup k' = if k' = k then some v else m.lookup k' := by
  by_cases h : k' = k
  · rw [if_pos h, h, Finmap.lookup_insert]
  · rw [if_neg h, Finmap.lookup_insert_of_ne m h]

omit [DecidableEq κ] in
theorem mem_keys_of_mem_eq {items : List (Σ _ : κ, γ)} {x : Σ _ : κ, γ} {k : κ} (hx : x ∈ items) (h : x.1 = k) :
    k ∈ items.keys := by
  rw [← h]
  exact List.mem_keys_of_mem hx

/-- The entries of a map in the order in which they are gone through. -/
structure Listing (m : Finmap fun _ : κ => β) where
  items : List (Σ _ : κ, β)
  items_eq : (items : Multiset (Σ _ : κ, β)) = m.entries

namespace Listing
variable {m : Finmap fun _ : κ => β} (o : Listing m)

omit [DecidableEq κ] in
theorem nodupKeys : o.items.NodupKeys := Multiset.coe_nodupKeys.mp (o.items_eq ▸ m.nodupKeys)

theorem dlookup (k : κ) : o.items.dlookup k = m.lookup k := by
  have hm : AList.toFinmap ⟨o.items, o.nodupKeys⟩ = m := Finmap.ext o.items_eq
  calc o.items.dlookup k = (AList.toFinmap ⟨o.items, o.nodupKeys⟩).lookup k :=
    (@Finmap.lookup_toFinmap κ (fun _ => β) _ k ⟨o.items, o.nodupKeys⟩).symm
    _ = m.lookup k := by rw [hm]

theorem mem_items {x : Σ _ : κ, β} : x ∈ o.items ↔ m.lookup x.1 = some x.2 := by
  rw [Finmap.lookup_eq_some_iff, ← o.items_eq, Multiset.mem_coe]

omit [DecidableEq κ] in
theorem length_items : o.items.length = m.entries.card := by
  rw [← o.items_eq, Multiset.coe_card]

omit [DecidableEq κ] in
theorem nonempty (m : Finmap fun _ : κ => β) : Nonempty (Listing m) := ⟨m.entries.toList, Multiset.coe_toList _⟩

end Listing

/-- **Each key of the list is changed once.** -/
theorem foldlM_upsert {f : (Σ _ : κ, γ) → Option β → Option β} : ∀ {items : List (Σ _ : κ, γ)} {m : Finmap fun _ : κ => β},
    items.NodupKeys → (∀ x ∈ items, (f x (m.lookup x.1)).isSome) →
    ∃ m', items.foldlM (fun m x => upsert m x.1 (f x)) m = some m' ∧
      ∀ k, m'.lookup k = match items.dlookup k with
        | none => m.lookup k
        | some v => f ⟨k, v⟩ (m.lookup k)
  | [], m, _, _ => ⟨m, rfl, fun k => rfl⟩
  | ⟨k, v⟩ :: items, m, hnodup, hsome => by
    obtain ⟨hfresh, hnodup⟩ := List.nodupKeys_cons.mp hnodup
    obtain ⟨w, hw⟩ := Option.isSome_iff_exists.mp (hsome ⟨k, v⟩ List.mem_cons_self)
    have hne : ∀ x ∈ items, x.1 ≠ k := fun x hx h => hfresh (mem_keys_of_mem_eq hx h)
    obtain ⟨m', hm', hlookup⟩ := @foldlM_upsert _ items (m.insert k w) hnodup fun x hx => by
      rw [Finmap.lookup_insert_of_ne _ (hne x hx)]
      exact hsome x (List.mem_cons_of_mem _ hx)
    refine ⟨m', ?_, fun k' => ?_⟩
    · rw [List.foldlM_cons]
      have hstep : upsert m k (f ⟨k, v⟩) = some (m.insert k w) := by
        rw [upsert, hw]
        rfl
      show (upsert m k (f ⟨k, v⟩)).bind _ = _
      rw [hstep]
      exact hm'
    · rw [hlookup k', lookup_insert_ite]
      by_cases hk : k' = k
      · subst hk
        rw [if_pos rfl, List.dlookup_cons_eq, List.dlookup_eq_none.mpr hfresh]
        exact hw.symm
      · rw [if_neg hk, List.dlookup_cons_ne items ⟨k, v⟩ hk]

end Upsert

section Tally
variable {α β : Type*} [DecidableEq α] [DecidableEq β]

/-- A number for each key that has been seen. -/
abbrev Counts (β : Type*) := Finmap fun _ : β => Int

abbrev Tally (α β : Type*) := Finmap fun _ : α => Counts β

/-- The number under a key, zero where there is none. -/
def Counts.count (p : Counts β) (t : β) : Int := (p.lookup t).getD 0

/-- What is under the first key. -/
def Tally.part (c : Tally α β) (k : α) : Counts β := (c.lookup k).getD ∅

def Tally.count (c : Tally α β) (k : α) (t : β) : Int := (c.part k).count t

@[simp] theorem count_empty (t : β) : Counts.count (∅ : Counts β) t = 0 := by
  rw [Counts.count, Finmap.lookup_empty]
  rfl

@[simp] theorem tally_count_empty (k : α) (t : β) : Tally.count (∅ : Tally α β) k t = 0 := by
  rw [Tally.count, Tally.part, Finmap.lookup_empty]
  exact count_empty t

/-- All the numbers are positive, and below the bound. -/
def Counts.Proper (limit : Int) (p : Counts β) : Prop := ∀ t n, p.lookup t = some n → 0 < n ∧ n < limit

/-- Nothing is kept that has not been seen. -/
def Tally.Proper (limit : Int) (c : Tally α β) : Prop := ∀ k p, c.lookup k = some p → p ≠ ∅ ∧ p.Proper limit

variable {limit : Int}

theorem Counts.Proper.nonneg {p : Counts β} (h : p.Proper limit) (t : β) : 0 ≤ p.count t := by
  rw [Counts.count]
  cases ht : p.lookup t with
  | none => exact le_rfl
  | some n => exact (h t n ht).1.le

theorem Counts.Proper.lookup_eq {p : Counts β} (h : p.Proper limit) (t : β) :
    p.lookup t = if p.count t = 0 then none else some (p.count t) := by
  rw [Counts.count]
  cases ht : p.lookup t with
  | none => rfl
  | some n => exact (if_neg (h t n ht).1.ne').symm

theorem Counts.Proper.ext {p q : Counts β} (hp : p.Proper limit) (hq : q.Proper limit)
    (h : ∀ t, p.count t = q.count t) : p = q :=
  Finmap.ext_lookup fun t => by rw [hp.lookup_eq, hq.lookup_eq, h t]

theorem Counts.proper_empty : (∅ : Counts β).Proper limit := fun t n h => by simp at h

theorem Tally.proper_empty : (∅ : Tally α β).Proper limit := fun k p h => by simp at h

theorem Tally.Proper.part {c : Tally α β} (h : c.Proper limit) (k : α) : (c.part k).Proper limit := by
  rw [Tally.part]
  cases hk : c.lookup k with
  | none => exact Counts.proper_empty
  | some p => exact (h k p hk).2

theorem Counts.exists_mem {p : Counts β} (h : p ≠ ∅) : ∃ t, t ∈ p := by
  by_contra hno
  refine h (Finmap.ext_lookup fun t => ?_)
  rw [Finmap.lookup_empty, Finmap.lookup_eq_none]
  exact fun ht => hno ⟨t, ht⟩

/-- **A tally without zeros is determined by its numbers.** -/
theorem Tally.Proper.ext {c d : Tally α β} (hc : c.Proper limit) (hd : d.Proper limit)
    (h : ∀ k t, c.count k t = d.count k t) : c = d := by
  have hpart : ∀ k, c.part k = d.part k := fun k => (hc.part k).ext (hd.part k) (h k)
  refine Finmap.ext_lookup fun k => ?_
  have hk := hpart k
  rw [Tally.part, Tally.part] at hk
  cases hck : c.lookup k with
  | none =>
      cases hdk : d.lookup k with
      | none => rfl
      | some q =>
          rw [hck, hdk] at hk
          exact absurd hk.symm (hd k q hdk).1
  | some p =>
      cases hdk : d.lookup k with
      | none =>
          rw [hck, hdk] at hk
          exact absurd hk (hc k p hck).1
      | some q =>
          rw [hck, hdk] at hk
          rw [show p = q from hk]

/-- So many more under the two keys. -/
def Tally.add (c : Tally α β) (k : α) (t : β) (n : Int) : Tally α β := c.insert k ((c.part k).insert t (c.count k t + n))

theorem Counts.count_insert (p : Counts β) (t t' : β) (n : Int) : Counts.count (p.insert t n) t' = if t' =
    t then n else p.count t' := by
  rw [Counts.count, lookup_insert_ite]
  by_cases h : t' = t
  · rw [if_pos h, if_pos h, Option.getD_some]
  · rw [if_neg h, if_neg h]
    rfl

omit [DecidableEq β] in
theorem Tally.part_insert (c : Tally α β) (k k' : α) (p : Counts β) : Tally.part (c.insert k p) k' = if k' =
    k then p else c.part k' := by
  rw [Tally.part, lookup_insert_ite]
  by_cases h : k' = k
  · rw [if_pos h, if_pos h, Option.getD_some]
  · rw [if_neg h, if_neg h]
    rfl

theorem Tally.count_add (c : Tally α β) (k k' : α) (t t' : β) (n : Int) :
    (c.add k t n).count k' t' = c.count k' t' + if k' = k ∧ t' = t then n else 0 := by
  rw [Tally.count, Tally.add, Tally.part_insert]
  by_cases hk : k' = k
  · subst hk
    rw [if_pos rfl, Counts.count_insert]
    by_cases ht : t' = t
    · subst ht
      rw [if_pos rfl, if_pos ⟨rfl, rfl⟩]
    · rw [if_neg ht, if_neg fun h => ht h.2, Int.add_zero]
      rfl
  · rw [if_neg hk, if_neg fun h => hk h.1, Int.add_zero]
    rfl

theorem Tally.Proper.insert {c : Tally α β} (h : c.Proper limit) {k : α} {p : Counts β} (hne : p ≠ ∅) (hp : p.Proper limit) :
    Tally.Proper limit (Finmap.insert k p c) := by
  intro k' q hq
  rw [lookup_insert_ite] at hq
  by_cases hk : k' = k
  · rw [if_pos hk] at hq
    cases hq
    exact ⟨hne, hp⟩
  · rw [if_neg hk] at hq
    exact h k' q hq

theorem Counts.insert_ne_empty (p : Counts β) (t : β) (n : Int) : p.insert t n ≠ ∅ := by
  intro h
  have ht : (p.insert t n).lookup t = some n := Finmap.lookup_insert p
  rw [h, Finmap.lookup_empty] at ht
  cases ht

theorem Counts.Proper.insert {p : Counts β} (h : p.Proper limit) {t : β} {n : Int} (hpos : 0 < n) (hlt : n < limit) :
    Counts.Proper limit (Finmap.insert t n p) := by
  intro t' m hm
  rw [lookup_insert_ite] at hm
  by_cases ht : t' = t
  · rw [if_pos ht] at hm
    cases hm
    exact ⟨hpos, hlt⟩
  · rw [if_neg ht] at hm
    exact h t' m hm

theorem Tally.Proper.add {c : Tally α β} (h : c.Proper limit) {k : α} {t : β} {n : Int} (hn : 0 < n)
    (hlt : c.count k t + n < limit) : (c.add k t n).Proper limit := by
  have hpos : 0 < c.count k t + n := by
    have hnonneg : 0 ≤ c.count k t := (h.part k).nonneg t
    omega
  exact h.insert (Counts.insert_ne_empty _ t _) ((h.part k).insert hpos hlt)

/-- What a computation does that counts the pairs of a list, where it is not stopped by the bound. -/
def Adds (limit : Int) (f : Tally α β → Option (Tally α β)) (es : List (α × β)) : Prop :=
  ∀ c : Tally α β, c.Proper limit → (∀ k t, c.count k t + es.count (k, t) < limit) →
    ∃ c' : Tally α β, f c = some c' ∧ c'.Proper limit ∧ ∀ k t, c'.count k t = c.count k t + es.count (k, t)

/-- **A loop counts what its rounds count.** -/
theorem Adds.foldlM {ι : Type*} {f : Tally α β → ι → Option (Tally α β)} {es : ι → List (α × β)} :
    ∀ {is : List ι}, (∀ i ∈ is, Adds limit (fun c => f c i) (es i)) → Adds limit (fun c => is.foldlM f c) (is.flatMap es)
  | [], _ => fun c hc _ => ⟨c, rfl, hc, fun k t => (by simp)⟩
  | i :: is, h => by
    intro c hc hlt
    have hcount : ∀ k t, ((i :: is).flatMap es).count (k, t) = (es i).count (k, t) + (is.flatMap es).count (k, t) := by
      intro k t
      rw [List.flatMap_cons, List.count_append]
    obtain ⟨c₁, h₁, hc₁, hcount₁⟩ := h i List.mem_cons_self c hc fun k t => by
      have hkt := hlt k t
      rw [hcount] at hkt
      omega
    obtain ⟨c₂, h₂, hc₂, hcount₂⟩ := Adds.foldlM (fun j hj => h j (List.mem_cons_of_mem _ hj)) c₁ hc₁ fun k t => by
      have hkt := hlt k t
      rw [hcount] at hkt
      rw [hcount₁]
      omega
    refine ⟨c₂, ?_, hc₂, fun k t => ?_⟩
    · have h₁ : f c i = some c₁ := h₁
      show (f c i).bind (fun c => is.foldlM f c) = some c₂
      rw [h₁]
      exact h₂
    · rw [hcount₂, hcount₁, hcount]
      push_cast
      ring

/-- An entry is put in, or leaves what is there. -/
def emplace {κ γ : Type*} [DecidableEq κ] (m : Finmap fun _ : κ => γ) (k : κ) (v : γ) : Finmap fun _ : κ => γ :=
  match m.lookup k with
  | none => m.insert k v
  | some _ => m

/-- **What is put in entry by entry.** -/
theorem lookup_foldl_emplace {κ γ : Type*} [DecidableEq κ] : ∀ {items : List (Σ _ : κ, γ)} {m : Finmap fun _ : κ => γ},
    items.NodupKeys → (∀ x ∈ items, m.lookup x.1 = none) →
    ∀ k, (items.foldl (fun m x => emplace m x.1 x.2) m).lookup k = (items.dlookup k).or (m.lookup k)
  | [], m, _, _ => fun k => by
    rw [List.dlookup_nil, Option.none_or]
    rfl
  | ⟨k, v⟩ :: items, m, hnodup, hnone => by
    intro k'
    obtain ⟨hfresh, hnodup⟩ := List.nodupKeys_cons.mp hnodup
    have hstep : emplace m k v = m.insert k v := by
      have hk : m.lookup k = none := hnone ⟨k, v⟩ List.mem_cons_self
      rw [emplace, hk]
    rw [List.foldl_cons, hstep, lookup_foldl_emplace hnodup, lookup_insert_ite]
    · by_cases hk : k' = k
      · subst hk
        rw [if_pos rfl, List.dlookup_cons_eq, List.dlookup_eq_none.mpr hfresh]
        rfl
      · rw [if_neg hk, List.dlookup_cons_ne items ⟨k, v⟩ hk]
    · intro x hx
      have hne : x.1 ≠ k := fun h => hfresh (mem_keys_of_mem_eq hx h)
      rw [Finmap.lookup_insert_of_ne _ hne]
      exact hnone x (List.mem_cons_of_mem _ hx)

/-- A map is that of its listing. -/
theorem Listing.foldl_emplace {κ γ : Type*} [DecidableEq κ] {m : Finmap fun _ : κ => γ} (o : Listing m) :
    o.items.foldl (fun m x => emplace m x.1 x.2) ∅ = m := by
  refine Finmap.ext_lookup fun k => ?_
  rw [lookup_foldl_emplace o.nodupKeys (fun _ _ => Finmap.lookup_empty _), Finmap.lookup_empty, Option.or_none, o.dlookup]

end Tally

end S2Moe.Lib
