import S2Moe.Kv.Cache

/-!
# Decoding into the KV cache

* `findSlot` : `find_slot` for cells that need not be neighbours; without a sliding window only empty cells are usable;
* `emplace` : `find_slot` and `apply_ubatch` for one ubatch; `decode` : for each ubatch of a batch. `none` when a ubatch
  finds no slot, and the batch is refused as a whole;
* `Placed c rows idxs c'` : the tokens `rows` are in the cells `idxs`, which were empty, and nothing else changed;
* `Holds c s vals` : sequence `s` has one cell for each of the positions `0, 1, ...`, with the values `vals`.
-/

namespace S2Moe.Kv
open S2Moe.Lib
open S2Moe.Recurrent (lower upper posMax)

/-- At most `tests` cells are looked at, until `need` empty ones are found. -/
def findIdxs (c : Cells) : Nat → Nat → Nat → Option (List Nat)
  | 0, _, _ => none
  | tests + 1, head, need =>
    let idx := if c.size < head + 1 then 0 else head
    if c.isEmpty idx then
      if need ≤ 1 then some [idx] else (findIdxs c tests (idx + 1) (need - 1)).map (idx :: ·)
    else findIdxs c tests (idx + 1) need

namespace Cache
variable {D : Type}

def findSlot (c : Cache D) (nTokens : Nat) : Option (List Nat) :=
  let head := if c.cells.getUsed + 2 * nTokens < c.head then 0 else c.head
  if c.cells.size < nTokens then none else findIdxs c.cells c.cells.size head nTokens

/-- `apply_ubatch`; the cells of the slot are empty. -/
def applyUbatch (c : Cache D) : List Nat → List (Row D) → Cache D
  | i :: idxs, r :: rows =>
    applyUbatch { c with
      cells := c.cells.place i r.pos r.ids, data := Function.update c.data i r.val, head := i + 1 } idxs rows
  | _, _ => c

def emplace (c : Cache D) (rows : List (Row D)) : Option (List Nat × Cache D) :=
  (c.findSlot rows.length).map fun idxs => (idxs, c.applyUbatch idxs rows)

/-- All ubatches of a batch, with the cells of their tokens. -/
def decode (c : Cache D) : List (List (Row D)) → Option (List Nat × Cache D)
  | [] => some ([], c)
  | u :: us =>
    match c.emplace u with
    | none => none
    | some (idxs, c) => (decode c us).map fun r => (idxs ++ r.1, r.2)

end Cache

/-! ## The search -/

theorem findIdxs_eq (c : Cells) : ∀ tests head need, findIdxs c tests head need = collect c.isEmpty c.size tests head need
  | 0, _, _ => rfl
  | tests + 1, head, need => by
    rw [findIdxs, collect, findIdxs_eq c tests, findIdxs_eq c tests]

section Slot
variable {D : Type} {c c' : Cache D}

theorem Cache.findSlot_spec {n : Nat} {idxs : List Nat} (hn : 0 < n) (hhead : c.head ≤ c.cells.size)
    (hfind : c.findSlot n = some idxs) :
    idxs.length = n ∧ idxs.Nodup ∧ ∀ i ∈ idxs, i < c.cells.size ∧ (c.cells.cell i).pos = -1 := by
  unfold Cache.findSlot at hfind
  dsimp only at hfind
  split at hfind
  · cases hfind
  · rename_i hfit
    rw [findIdxs_eq] at hfind
    obtain ⟨hlen, hall, hpair⟩ := collect_spec (by omega) c.cells.size _ n hn (by split <;> omega) le_rfl hfind
    refine ⟨hlen, ?_, fun i hi => ⟨(hall i hi).1, of_decide_eq_true (hall i hi).2.1⟩⟩
    refine hpair.imp fun hij heq => ?_
    rw [heq] at hij
    exact lt_irrefl _ hij

/-- A token that the cache can store. -/
structure Row.Ok (r : Row D) : Prop where
  pos : 0 ≤ r.pos
  ne : r.ids ≠ []
  nodup : r.ids.Nodup

/-! ## Placing tokens -/

structure Placed (c : Cache D) (rows : List (Row D)) (idxs : List Nat) (c' : Cache D) : Prop where
  ok : c'.Ok
  size_eq : c'.cells.size = c.cells.size
  length : idxs.length = rows.length
  nodup : idxs.Nodup
  fresh : ∀ i ∈ idxs, i < c.cells.size ∧ (c.cells.cell i).pos = -1
  cell_at : ∀ (k i : Nat) (r : Row D), idxs[k]? = some i → rows[k]? = some r →
    c'.cells.cell i = ⟨r.pos, 0, r.ids.toFinset⟩ ∧ c'.data i = r.val
  rest : ∀ i, i ∉ idxs → c'.cells.cell i = c.cells.cell i ∧ c'.data i = c.data i

theorem Placed.refl (h : c.Ok) : Placed c [] [] c where
  ok := h
  size_eq := rfl
  length := rfl
  nodup := List.nodup_nil
  fresh i hi := absurd hi List.not_mem_nil
  cell_at k i r hi _ := by simp at hi
  rest _ _ := ⟨rfl, rfl⟩

theorem Placed.trans {c₁ : Cache D} {rows₁ rows₂ : List (Row D)} {idxs₁ idxs₂ : List Nat}
    (h₁ : Placed c rows₁ idxs₁ c₁) (h₂ : Placed c₁ rows₂ idxs₂ c') (hok : ∀ r ∈ rows₁, r.Ok) :
    Placed c (rows₁ ++ rows₂) (idxs₁ ++ idxs₂) c' := by
  -- cells that were filled are not empty any more
  have hfull : ∀ i ∈ idxs₁, (c₁.cells.cell i).pos ≠ -1 := by
    intro i hi
    obtain ⟨k, hk⟩ := List.mem_iff_getElem?.mp hi
    have hklt : k < rows₁.length := by
      rw [← h₁.length]
      exact (List.getElem?_eq_some_iff.mp hk).1
    obtain ⟨hcell, -⟩ := h₁.cell_at k i rows₁[k] hk (List.getElem?_eq_getElem hklt)
    rw [hcell]
    have := (hok _ (List.getElem_mem hklt)).pos
    dsimp only
    omega
  have hdisj : ∀ i ∈ idxs₁, i ∉ idxs₂ := fun i h1 h2 => hfull i h1 (h₂.fresh i h2).2
  refine ⟨h₂.ok, h₂.size_eq.trans h₁.size_eq, ?_, ?_, fun i hi => ?_, fun k i r hi hr => ?_, fun i hi => ?_⟩
  · rw [List.length_append, List.length_append, h₁.length, h₂.length]
  · rw [List.nodup_append]
    exact ⟨h₁.nodup, h₂.nodup, fun a ha b hb hab => hdisj a ha (hab ▸ hb)⟩
  · rcases List.mem_append.mp hi with hi | hi
    · exact h₁.fresh i hi
    · obtain ⟨hlt, hp⟩ := h₂.fresh i hi
      have hnot : i ∉ idxs₁ := fun hc => hdisj i hc hi
      rw [h₁.size_eq] at hlt
      rw [(h₁.rest i hnot).1] at hp
      exact ⟨hlt, hp⟩
  · by_cases hk : k < idxs₁.length
    · rw [List.getElem?_append_left hk] at hi
      rw [List.getElem?_append_left (by rw [← h₁.length]; exact hk)] at hr
      have hmem : i ∈ idxs₁ := List.mem_of_getElem? hi
      obtain ⟨hcell, hdata⟩ := h₁.cell_at k i r hi hr
      obtain ⟨h3, h4⟩ := h₂.rest i (hdisj i hmem)
      rw [h3, h4]
      exact ⟨hcell, hdata⟩
    · rw [List.getElem?_append_right (by omega)] at hi
      rw [List.getElem?_append_right (by rw [← h₁.length]; omega), ← h₁.length] at hr
      exact h₂.cell_at _ i r hi hr
  · rw [List.mem_append, not_or] at hi
    obtain ⟨h1, h2⟩ := h₁.rest i hi.1
    obtain ⟨h3, h4⟩ := h₂.rest i hi.2
    exact ⟨h3.trans h1, h4.trans h2⟩

theorem Placed.one (h : c.Ok) {i : Nat} {r : Row D} (hi : i < c.cells.size) (he : (c.cells.cell i).pos = -1)
    (hr : r.Ok) : Placed c [r] [i] { c with
      cells := c.cells.place i r.pos r.ids, data := Function.update c.data i r.val, head := i + 1 } := by
  obtain ⟨h1, -, h3, -⟩ := h.rep.place_spec (p := r.pos) hi he hr.nodup
  refine ⟨⟨h.rep.place hi he hr.nodup hr.ne hr.pos, ?_⟩, h1, rfl, List.nodup_singleton i, fun j hj =>
    ?_, fun k j q hj hq => ?_,
    fun j hj => ?_⟩
  · dsimp only
    rw [h1]
    omega
  · rw [List.mem_singleton.mp hj]
    exact ⟨hi, he⟩
  · cases k with
    | zero =>
        simp only [List.getElem?_cons_zero, Option.some.injEq] at hj hq
        subst hj hq
        dsimp only
        rw [h3, Function.update_self, Function.update_self]
        exact ⟨rfl, rfl⟩
    | succ k => simp at hj
  · rw [List.mem_singleton] at hj
    dsimp only
    rw [h3, Function.update_of_ne hj, Function.update_of_ne hj]
    exact ⟨rfl, rfl⟩

theorem Placed.applyUbatch : ∀ (idxs : List Nat) (rows : List (Row D)) (c : Cache D), c.Ok →
    idxs.length = rows.length → idxs.Nodup →
    (∀ i ∈ idxs, i < c.cells.size ∧ (c.cells.cell i).pos = -1) → (∀ r ∈ rows, r.Ok) →
    Placed c rows idxs (c.applyUbatch idxs rows)
  | [], [], c, h, _, _, _, _ => Placed.refl h
  | i :: idxs, r :: rows, c, h, hlen, hnodup, hfresh, hok => by
    obtain ⟨hi, he⟩ := hfresh i List.mem_cons_self
    have hone := Placed.one h hi he (hok r List.mem_cons_self)
    rw [List.nodup_cons] at hnodup
    have hrest := Placed.applyUbatch idxs rows _ hone.ok (by simpa using hlen) hnodup.2
      (fun j hj => by
        have hji : j ∉ [i] := fun hc => hnodup.1 (List.mem_singleton.mp hc ▸ hj)
        rw [hone.size_eq, (hone.rest j hji).1]
        exact hfresh j (List.mem_cons_of_mem _ hj))
      (fun q hq => hok q (List.mem_cons_of_mem _ hq))
    exact hone.trans hrest fun q hq => hok q (List.mem_singleton.mp hq ▸ List.mem_cons_self)

theorem Placed.emplace (h : c.Ok) {rows : List (Row D)} (hne : rows ≠ [])
    (hok : ∀ r ∈ rows, r.Ok) {idxs : List Nat} (hrun : c.emplace rows = some (idxs, c')) : Placed c rows idxs c' := by
  obtain ⟨found, hfind, heq⟩ := Option.map_eq_some_iff.mp hrun
  obtain ⟨rfl, rfl⟩ := Prod.mk.inj heq
  obtain ⟨hlen, hnodup, hfresh⟩ := Cache.findSlot_spec (List.length_pos_iff.mpr hne) h.head_le hfind
  exact Placed.applyUbatch _ rows c h hlen hnodup hfresh hok

/-- The whole batch, however it is split. -/
theorem Placed.decode : ∀ (us : List (List (Row D))) (c c' : Cache D) (idxs : List Nat), c.Ok →
    (∀ u ∈ us, u ≠ []) → (∀ u ∈ us, ∀ r ∈ u, r.Ok) → c.decode us = some (idxs, c') →
    Placed c us.flatten idxs c'
  | [], c, c', idxs, h, _, _, hrun => by
    cases hrun
    exact Placed.refl h
  | u :: us, c, c', idxs, h, hne, hok, hrun => by
    rw [Cache.decode] at hrun
    cases hu : c.emplace u with
    | none =>
        rw [hu] at hrun
        cases hrun
    | some r =>
        obtain ⟨idxs₁, c₁⟩ := r
        rw [hu] at hrun
        obtain ⟨⟨idxs₂, c₂⟩, hrest, heq⟩ := Option.map_eq_some_iff.mp hrun
        cases heq
        have h₁ := Placed.emplace h (hne u List.mem_cons_self) (hok u List.mem_cons_self) hu
        have h₂ := Placed.decode us c₁ _ idxs₂ h₁.ok (fun v hv => hne v (List.mem_cons_of_mem _ hv))
          (fun v hv => hok v (List.mem_cons_of_mem _ hv)) hrest
        exact h₁.trans h₂ (hok u List.mem_cons_self)

/-- Which cells a sequence has behind a decode. -/
theorem Placed.mem_seq {rows : List (Row D)} {idxs : List Nat} (h : Placed c rows idxs c') (hrep : Rep c.cells) {s j : Nat} :
    s ∈ (c'.cells.cell j).seq ↔
      s ∈ (c.cells.cell j).seq ∨ ∃ (k : Nat) (r : Row D), idxs[k]? = some j ∧ rows[k]? = some r ∧ s ∈ r.ids := by
  by_cases hj : j ∈ idxs
  · obtain ⟨k, hk⟩ := List.mem_iff_getElem?.mp hj
    have hklt : k < rows.length := by
      rw [← h.length]
      exact (List.getElem?_eq_some_iff.mp hk).1
    have hrow : rows[k]? = some rows[k] := List.getElem?_eq_getElem hklt
    obtain ⟨hlt, hp⟩ := h.fresh j hj
    rw [(h.cell_at k j _ hk hrow).1, (hrep.empty j hlt hp).1]
    dsimp only
    rw [List.mem_toFinset]
    constructor
    · intro hs
      exact .inr ⟨k, _, hk, hrow, hs⟩
    · rintro (hc | ⟨k', r, hk', hr, hs⟩)
      · cases hc
      · obtain ⟨hlt1, h1⟩ := List.getElem?_eq_some_iff.mp hk
        obtain ⟨hlt2, h2⟩ := List.getElem?_eq_some_iff.mp hk'
        have hkk : k = k' := (h.nodup.getElem_inj_iff).mp (h1.trans h2.symm)
        subst hkk
        rw [hrow] at hr
        cases hr
        exact hs
  · rw [(h.rest j hj).1]
    constructor
    · exact .inl
    · rintro (hs | ⟨k, r, hk, -, -⟩)
      · exact hs
      · exact absurd (List.mem_of_getElem? hk) hj

/-! ## The contents of a sequence -/

structure Holds (c : Cache D) (s : Nat) (vals : List D) : Prop where
  sound : ∀ j < c.cells.size, s ∈ (c.cells.cell j).seq → ∃ p : Nat, (c.cells.cell j).pos = p ∧ vals[p]? = some (c.data j)
  unique : ∀ i < c.cells.size, ∀ j < c.cells.size, s ∈ (c.cells.cell i).seq → s ∈ (c.cells.cell j).seq →
    (c.cells.cell i).pos = (c.cells.cell j).pos → i = j
  complete : ∀ p < vals.length, ∃ j < c.cells.size, s ∈ (c.cells.cell j).seq ∧ (c.cells.cell j).pos = p

theorem Holds.pos_lt {vals : List D} {s j : Nat} (h : Holds c s vals) (hj : j < c.cells.size)
    (hs : s ∈ (c.cells.cell j).seq) : 0 ≤ (c.cells.cell j).pos ∧ (c.cells.cell j).pos < vals.length := by
  obtain ⟨p, hp, hv⟩ := h.sound j hj hs
  have := (List.getElem?_eq_some_iff.mp hv).1
  omega

/-- The last position stored. -/
theorem Holds.seqPosMax {vals : List D} {s : Nat} (h : Holds c s vals) (hrep : Rep c.cells) :
    c.cells.seqPosMax s = (vals.length : Int) - 1 := by
  cases hlen : vals.length with
  | zero =>
      rw [hrep.seqPosMax_none]
      · rfl
      · intro i hi hs
        have := h.pos_lt hi hs
        omega
  | succ n =>
      obtain ⟨j, hj, hs, hp⟩ := h.complete n (by omega)
      rw [hrep.seqPosMax_eq ⟨j, hj, hs, hp⟩ fun i hi hsi => ?_]
      · push_cast
        ring
      · have := h.pos_lt hi hsi
        omega

/-- Tokens that continue the sequence, at the positions behind its end. -/
theorem Holds.placed {vals : List D} {s : Nat} {rows : List (Row D)} {idxs : List Nat} (h : Holds c s vals) (more : List D)
    (hrep : Rep c.cells) (hp : Placed c rows idxs c')
    (hsound : ∀ (k : Nat) (r : Row D), rows[k]? = some r → s ∈ r.ids →
      ∃ d : Nat, r.pos = vals.length + d ∧ more[d]? = some r.val)
    (hunique : ∀ (k k' : Nat) (r r' : Row D), rows[k]? = some r → rows[k']? = some r' → s ∈ r.ids → s ∈ r'.ids →
      r.pos = r'.pos → k = k')
    (hcomplete : ∀ d < more.length, ∃ (k : Nat) (r : Row D), rows[k]? = some r ∧ s ∈ r.ids ∧ r.pos = vals.length + d) :
    Holds c' s (vals ++ more) := by
  -- a cell of the sequence is an old one, or one of the new tokens
  have hcases : ∀ j < c.cells.size, s ∈ (c'.cells.cell j).seq →
      (s ∈ (c.cells.cell j).seq ∧ c'.cells.cell j = c.cells.cell j ∧ c'.data j = c.data j) ∨
      ∃ (k : Nat) (r : Row D), idxs[k]? = some j ∧ rows[k]? = some r ∧ s ∈ r.ids ∧ (c'.cells.cell j).pos = r.pos ∧
        c'.data j = r.val := by
    intro j hj hs
    rcases (hp.mem_seq hrep).mp hs with hold | ⟨k, r, hk, hr, hsr⟩
    · left
      have hnot : j ∉ idxs := fun hc => hrep.pos_ne hj hold (hp.fresh j hc).2
      exact ⟨hold, (hp.rest j hnot).1, (hp.rest j hnot).2⟩
    · right
      obtain ⟨h1, h2⟩ := hp.cell_at k j r hk hr
      exact ⟨k, r, hk, hr, hsr, by rw [h1], h2⟩
  refine ⟨fun j hj hs => ?_, fun i hi j hj hsi hsj hpos => ?_, fun p hlt => ?_⟩
  · rw [hp.size_eq] at hj
    rcases hcases j hj hs with ⟨hold, hcell, hdata⟩ | ⟨k, r, -, hr, hsr, hpos, hdata⟩
    · obtain ⟨p, hpp, hv⟩ := h.sound j hj hold
      refine ⟨p, by rw [hcell]; exact hpp, ?_⟩
      rw [List.getElem?_append_left (List.getElem?_eq_some_iff.mp hv).1, hdata]
      exact hv
    · obtain ⟨d, hd, hv⟩ := hsound k r hr hsr
      refine ⟨vals.length + d, by rw [hpos, hd]; push_cast; rfl, ?_⟩
      rw [List.getElem?_append_right (by omega), Nat.add_sub_cancel_left, hdata]
      exact hv
  · rw [hp.size_eq] at hi hj
    rcases hcases i hi hsi with ⟨holdi, hcelli, -⟩ | ⟨k, r, hk, hr, hsr, hposr, -⟩ <;>
      rcases hcases j hj hsj with ⟨holdj, hcellj, -⟩ | ⟨k', r', hk', hr', hsr', hposr', -⟩
    · rw [hcelli, hcellj] at hpos
      exact h.unique i hi j hj holdi holdj hpos
    · obtain ⟨d, hd, -⟩ := hsound k' r' hr' hsr'
      have := h.pos_lt hi holdi
      rw [hcelli, hposr', hd] at hpos
      omega
    · obtain ⟨d, hd, -⟩ := hsound k r hr hsr
      have := h.pos_lt hj holdj
      rw [hcellj, hposr, hd] at hpos
      omega
    · rw [hposr, hposr'] at hpos
      have hkk := hunique k k' r r' hr hr' hsr hsr' hpos
      subst hkk
      rw [hk] at hk'
      exact Option.some.inj hk'
  · rw [List.length_append] at hlt
    rw [hp.size_eq]
    by_cases hold : p < vals.length
    · obtain ⟨j, hj, hs, hpp⟩ := h.complete p hold
      have hnot : j ∉ idxs := fun hc => hrep.pos_ne hj hs (hp.fresh j hc).2
      refine ⟨j, hj, ?_, ?_⟩
      · rw [(hp.rest j hnot).1]
        exact hs
      · rw [(hp.rest j hnot).1]
        exact hpp
    · obtain ⟨k, r, hr, hsr, hpos⟩ := hcomplete (p - vals.length) (by omega)
      have hklt : k < idxs.length := by
        rw [hp.length]
        exact (List.getElem?_eq_some_iff.mp hr).1
      have hk : idxs[k]? = some idxs[k] := List.getElem?_eq_getElem hklt
      obtain ⟨hcell, -⟩ := hp.cell_at k _ r hk hr
      refine ⟨idxs[k], (hp.fresh _ (List.getElem_mem hklt)).1, ?_, ?_⟩
      · rw [hcell]
        exact List.mem_toFinset.mpr hsr
      · rw [hcell]
        dsimp only
        omega

/-- Operations that leave the cells of a sequence before position `n`, and may call it `s'`. -/
theorem Holds.each {vals : List D} {s s' : Nat} {g : Cell → Cell} (h : Holds c s vals) (he : Each c c' g) (n : Nat)
    (hmem : ∀ j < c.cells.size, s' ∈ (g (c.cells.cell j)).seq ↔ s ∈ (c.cells.cell j).seq ∧ (c.cells.cell j).pos < n)
    (hpos : ∀ j < c.cells.size, s ∈ (c.cells.cell j).seq → (c.cells.cell j).pos < n →
      (g (c.cells.cell j)).pos = (c.cells.cell j).pos) : Holds c' s' (vals.take n) := by
  have hcell : ∀ j < c.cells.size, s' ∈ (c'.cells.cell j).seq →
      s ∈ (c.cells.cell j).seq ∧ (c.cells.cell j).pos < n ∧ (c'.cells.cell j).pos = (c.cells.cell j).pos := by
    intro j hj hs
    rw [he.cell_eq j hj] at hs ⊢
    obtain ⟨h1, h2⟩ := (hmem j hj).mp hs
    exact ⟨h1, h2, hpos j hj h1 h2⟩
  refine ⟨fun j hj hs => ?_, fun i hi j hj hsi hsj heq => ?_, fun p hp => ?_⟩
  · rw [he.size_eq] at hj
    obtain ⟨h1, h2, h3⟩ := hcell j hj hs
    obtain ⟨p, hp, hv⟩ := h.sound j hj h1
    refine ⟨p, h3.trans hp, ?_⟩
    rw [he.data_eq, List.getElem?_take_of_lt (by omega)]
    exact hv
  · rw [he.size_eq] at hi hj
    obtain ⟨h1, -, h3⟩ := hcell i hi hsi
    obtain ⟨h4, -, h6⟩ := hcell j hj hsj
    exact h.unique i hi j hj h1 h4 (by rw [← h3, ← h6]; exact heq)
  · rw [List.length_take] at hp
    obtain ⟨j, hj, hs, hjp⟩ := h.complete p (by omega)
    have hlt : (c.cells.cell j).pos < n := by omega
    refine ⟨j, by rw [he.size_eq]; exact hj, ?_, ?_⟩
    · rw [he.cell_eq j hj]
      exact (hmem j hj).mpr ⟨hs, hlt⟩
    · rw [he.cell_eq j hj, hpos j hj hs hlt]
      exact hjp

end Slot

end S2Moe.Kv
