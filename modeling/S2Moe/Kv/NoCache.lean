import S2Moe.Kv.Apply
import S2Moe.Kv.Mask

/-!
# The mask without a cache

A context without a cache attends to the tokens of the ubatch itself, with a mask of its own.

* `noCacheMask` : that mask, over the tokens of the ubatch;
* `applyUbatch_fresh` : the cells behind `apply_ubatch` in an empty cache are the tokens;
* `MasksAgree` : the two masks have the same entries, where a cell stands for its token;
* `masksAgree_iff` : they do if no token has the first sequence of another one behind its own first sequence.
-/

namespace S2Moe.Kv
open S2Moe.Recurrent (posMax)

section
variable {D : Type}

/-- The bias of a visible token. -/
def bias (alibi : Bool) (p0 p1 : Int) : Int := if alibi then -|p0 - p1| else 0

/-- The loop over the sequences of the token `r0`, which looks at the first one each time. -/
def noCacheEntry (causal alibi : Bool) (r1 r0 : Row D) : Option Int :=
  (List.range r0.ids.length).foldl
    (fun f _ =>
      if r0.ids.headD 0 ≠ r1.ids.headD 0 then f
      else if causal ∧ r1.pos < r0.pos then f
      else some (bias alibi r0.pos r1.pos))
    none

/-- `llm_graph_input_attn_no_cache::set_input`: the entry in row `i1`, column `i0`. -/
def noCacheMask (causal alibi : Bool) (ubatch : List (Row D)) (i1 i0 : Nat) : Option Int :=
  match ubatch[i1]?, ubatch[i0]? with
  | some r1, some r0 => noCacheEntry causal alibi r1 r0
  | _, _ => none

theorem not_later_iff {causal : Bool} {p0 p1 : Int} : (causal = true → p0 ≤ p1) ↔ ¬ (causal = true ∧ p1 < p0) := by
  rw [not_and, not_lt]

/-- The loop gives what each of its turns gives. -/
theorem noCacheEntry_eq {r0 : Row D} (hne : r0.ids ≠ []) (causal alibi : Bool) (r1 : Row D) :
    noCacheEntry causal alibi r1 r0 =
    if r0.ids.headD 0 = r1.ids.headD 0 ∧ (causal = true → r0.pos ≤ r1.pos) then some (bias alibi r0.pos r1.pos)
    else none := by
  obtain ⟨k, hk⟩ : ∃ k, List.range r0.ids.length = 0 :: k := by
    rw [← Nat.succ_pred_eq_of_pos (List.length_pos_of_ne_nil hne), List.range_succ_eq_map]
    exact ⟨_, rfl⟩
  unfold noCacheEntry
  rw [hk, List.foldl_cons]
  generalize some (bias alibi r0.pos r1.pos) = v
  simp only [not_later_iff]
  by_cases hid : r0.ids.headD 0 = r1.ids.headD 0
  · by_cases hlt : causal = true ∧ r1.pos < r0.pos
    · simp only [hid, hlt, ne_eq, not_true_eq_false, and_self, and_false, if_true, if_false]
      exact List.foldl_fixed' (fun _ => rfl) _
    · simp only [hid, hlt, ne_eq, not_true_eq_false, not_false_eq_true, and_self, if_true, if_false]
      exact List.foldl_fixed' (f := fun _ _ => v) (fun _ => rfl) _
  · simp only [ne_eq, hid, not_false_eq_true, if_true, false_and, if_false]
    exact List.foldl_fixed' (fun _ => rfl) _

end

/-! ## An empty cache -/

section Fresh
variable {D : Type} {n : Nat} {st : Streams D} {part : Part D} {idxs : List Nat}

/-- A cache of one stream without tokens, and cells of it for the tokens of a ubatch. -/
structure Fresh (n : Nat) (st : Streams D) (part : Part D) (idxs : List Nat) : Prop where
  inv : st.Inv n
  one : st.nStream = 1
  empty : ∀ i < n, (st.strm 0).cells.cell i = {}
  slotted : Streams.Slotted n st [(part, idxs)]

theorem Fresh.streamOf (h : Fresh n st part idxs) (s : Nat) : st.streamOf s = 0 := by
  rw [Streams.streamOf, h.one]
  exact if_neg (lt_irrefl 1)

theorem Fresh.home (h : Fresh n st part idxs) : st.Home := by
  intro k hk i hi s hs
  rw [h.one] at hk
  obtain rfl : k = 0 := by omega
  rw [(h.inv.good 0 h.inv.pos).size_eq] at hi
  rw [h.empty i hi] at hs
  exact absurd hs (Finset.notMem_empty s)

theorem Row.Ok.cell_seq_ne {r : Row D} (h : r.Ok) : r.cell.seq ≠ ∅ := by
  intro hempty
  exact h.ne (List.toFinset_eq_empty_iff _ |>.mp hempty)

/-- Behind `apply_ubatch` the cells of the slot hold the tokens, and the others are still empty. -/
theorem applyUbatch_fresh (h : Fresh n st part idxs) :
    ((st.applyUbatch [(part, idxs)]).strm 0).Good n ∧
      (∀ x ∈ idxs.zip part.rows, ((st.applyUbatch [(part, idxs)]).strm 0).cells.cell x.1 = x.2.cell) ∧
      ∀ j < n, j ∉ idxs → ((st.applyUbatch [(part, idxs)]).strm 0).cells.cell j = {} := by
  obtain ⟨rm, happ⟩ := Streams.applyUbatch_spec h.inv h.home h.slotted
  have hmem : (part, idxs) ∈ [(part, idxs)] := List.mem_singleton.mpr rfl
  -- no cell was taken from another token
  have hrm : ∀ s, rm s = -1 := by
    intro s
    rcases happ.remembers.last s with heq | ⟨x, hx, i, hi, hpos, hne, -⟩
    · exact heq
    · rw [h.streamOf, h.empty i (h.slotted.lt x hx i hi)] at hpos
      exact hpos.symm
  refine ⟨happ.inv.good 0 happ.inv.pos, fun x hx => ?_, fun j hj hno => ?_⟩
  · have hok := (h.slotted.rows _ hmem x.2 (List.of_mem_zip hx).2).1
    have hshed := happ.stored _ hmem x hx
    rw [h.streamOf] at hshed
    refine hshed.eq_self (fun he => absurd he hok.cell_seq_ne) fun u _ => ?_
    rw [hrm]
    have := hok.pos
    omega
  · have hshed := happ.left 0 h.inv.pos j hj fun x hx _ => by rwa [List.mem_singleton.mp hx]
    rw [h.empty j hj] at hshed
    exact hshed.eq_self (fun _ => rfl) fun u hu => absurd hu (Finset.notMem_empty u)

/-! ## The two masks -/

/-- Entry by entry: the cell of a token has the entry of the token, and the cells without tokens are out of sight. -/
def MasksAgree (st : Streams D) (part : Part D) (idxs : List Nat) (flashAttn causal alibi : Bool) : Prop :=
  ∀ i1 < part.rows.length,
    (∀ i0 j, idxs[i0]? = some j →
      ((st.applyUbatch [(part, idxs)]).strm 0).setInputKqMask (nPad flashAttn) causal alibi part.rows i1 j =
        noCacheMask causal alibi part.rows i1 i0) ∧
    ∀ j ∉ idxs, ((st.applyUbatch [(part, idxs)]).strm 0).setInputKqMask (nPad flashAttn) causal alibi part.rows i1 j = none

/-- A token that has the first sequence of another one, and may be seen by it, has it as its own first sequence. -/
def FirstIdsOnly (causal : Bool) (rows : List (Row D)) : Prop :=
  ∀ r1 ∈ rows, ∀ r0 ∈ rows, r1.ids.headD 0 ∈ r0.ids → (causal = true → r0.pos ≤ r1.pos) → r0.ids.headD 0 = r1.ids.headD 0

/-- The entry of a cell that holds a token. -/
theorem maskEntry_of_cell {c : Cache D} {r0 : Row D} {j : Nat} (hcell : c.cells.cell j = r0.cell) (hok : r0.Ok)
    (causal alibi : Bool) (r1 : Row D) : c.maskEntry causal alibi r1 j =
      if r1.ids.headD 0 ∈ r0.ids ∧ (causal = true → r0.pos ≤ r1.pos) then some (bias alibi r0.pos r1.pos)
      else none := by
  have hne : r0.pos ≠ -1 := by
    have := hok.pos
    omega
  unfold Cache.maskEntry Cells.isEmpty Cells.seqHas
  rw [hcell]
  change (if decide (r0.pos = -1) = true then none
    else if ¬ decide (r1.ids.headD 0 ∈ r0.ids.toFinset) = true then none
    else if causal = true ∧ r1.pos < r0.pos then none else some (bias alibi r0.pos r1.pos)) = _
  generalize some (bias alibi r0.pos r1.pos) = v
  simp only [decide_eq_true_eq, List.mem_toFinset, hne, if_false, not_later_iff]
  by_cases hid : r1.ids.headD 0 ∈ r0.ids
  · by_cases hlt : causal = true ∧ r1.pos < r0.pos
    · simp only [hid, hlt, not_true_eq_false, and_self, and_false, if_true, if_false]
    · simp only [hid, hlt, not_true_eq_false, not_false_eq_true, and_self, if_true, if_false]
  · simp only [hid, not_false_eq_true, if_true, false_and, if_false]

theorem head_mem {r : Row D} (h : r.Ok) : r.ids.headD 0 ∈ r.ids := by
  cases hids : r.ids with
  | nil => exact absurd hids h.ne
  | cons s ids => exact List.mem_cons_self

/-- The entries of a pair of tokens, in both masks. -/
theorem Fresh.entries (h : Fresh n st part idxs) {flashAttn : Bool}
    (hdvd : nPad flashAttn ∣ n) (hmax : n < 2 ^ 32) (causal alibi : Bool) {i1 i0 j : Nat} {r1 r0 : Row D}
    (h1 : part.rows[i1]? = some r1) (h0 : part.rows[i0]? = some r0) (hj : idxs[i0]? = some j) :
    ((st.applyUbatch [(part, idxs)]).strm 0).setInputKqMask (nPad flashAttn) causal alibi part.rows i1 j =
      (if r1.ids.headD 0 ∈ r0.ids ∧ (causal = true → r0.pos ≤ r1.pos) then some (bias alibi r0.pos r1.pos)
        else none) ∧
    noCacheMask causal alibi part.rows i1 i0 =
      if r0.ids.headD 0 = r1.ids.headD 0 ∧ (causal = true → r0.pos ≤ r1.pos) then some (bias alibi r0.pos r1.pos)
      else none := by
  obtain ⟨hgood, hcells, -⟩ := applyUbatch_fresh h
  have hok := (h.slotted.rows _ (List.mem_singleton.mpr rfl) r0 (List.mem_of_getElem? h0)).1
  have hzip : (j, r0) ∈ idxs.zip part.rows := by
    refine List.mem_iff_getElem?.mpr ⟨i0, ?_⟩
    rw [List.getElem?_zip_eq_some]
    exact ⟨hj, h0⟩
  have hcell := hcells _ hzip
  have hjn : j < ((st.applyUbatch [(part, idxs)]).strm 0).cells.size := by
    rw [hgood.size_eq]
    exact h.slotted.lt _ (List.mem_singleton.mpr rfl) j (List.mem_of_getElem? hj)
  have hused : (((st.applyUbatch [(part, idxs)]).strm 0).cells.cell j).pos ≠ -1 := by
    rw [hcell]
    have := hok.pos
    change r0.pos ≠ -1
    omega
  have hsized : ((st.applyUbatch [(part, idxs)]).strm 0).Sized flashAttn := by
    refine ⟨?_, ?_⟩ <;> rwa [hgood.size_eq]
  have hlt := hsized.lt_nKv hgood.ok.rep hjn hused
  constructor
  · rw [Cache.setInputKqMask, h1]
    dsimp only
    rw [if_pos hlt, maskEntry_of_cell hcell hok]
  · rw [noCacheMask, h1, h0]
    exact noCacheEntry_eq hok.ne causal alibi r1

/-- Where the masks agree, the order of the sequences of a token does not matter. -/
theorem Fresh.firstIds_of_agree (h : Fresh n st part idxs) (flashAttn : Bool) (hdvd : nPad flashAttn ∣ n) (hmax : n < 2 ^ 32)
    {causal alibi : Bool} (hagree : MasksAgree st part idxs flashAttn causal alibi) : FirstIdsOnly causal part.rows := by
  intro r1 hr1 r0 hr0 hmem hpos
  obtain ⟨i1, hi1⟩ := List.mem_iff_getElem?.mp hr1
  obtain ⟨i0, hi0⟩ := List.mem_iff_getElem?.mp hr0
  have hi0lt : i0 < idxs.length := by
    rw [h.slotted.length _ (List.mem_singleton.mpr rfl)]
    exact (List.getElem?_eq_some_iff.mp hi0).1
  have hj := List.getElem?_eq_getElem hi0lt
  obtain ⟨hcached, hplain⟩ := h.entries hdvd hmax causal alibi hi1 hi0 hj
  have heq := (hagree i1 (List.getElem?_eq_some_iff.mp hi1).1).1 i0 _ hj
  rw [hcached, hplain, if_pos ⟨hmem, hpos⟩] at heq
  by_contra hne
  rw [if_neg fun hc => hne hc.1] at heq
  exact Option.some_ne_none _ heq

/-- **The two masks.** They agree exactly when the tokens that share a sequence have it first. -/
theorem masksAgree_iff (h : Fresh n st part idxs) (flashAttn : Bool) (hdvd : nPad flashAttn ∣ n) (hmax : n < 2 ^ 32)
    (causal alibi : Bool) : MasksAgree st part idxs flashAttn causal alibi ↔ FirstIdsOnly causal part.rows := by
  have hrows := h.slotted.rows _ (List.mem_singleton.mpr rfl)
  refine ⟨h.firstIds_of_agree flashAttn hdvd hmax, fun hfirst i1 hi1 => ?_⟩
  have hr1 := List.getElem?_eq_getElem hi1
  refine ⟨fun i0 j hj => ?_, fun j hno => ?_⟩
  · have hi0 : i0 < part.rows.length := by
      rw [← h.slotted.length _ (List.mem_singleton.mpr rfl)]
      exact (List.getElem?_eq_some_iff.mp hj).1
    obtain ⟨hcached, hplain⟩ := h.entries hdvd hmax causal alibi hr1 (List.getElem?_eq_getElem hi0) hj
    rw [hcached, hplain]
    have hsame : part.rows[i1].ids.headD 0 ∈ part.rows[i0].ids ∧ (causal = true → part.rows[i0].pos ≤ part.rows[i1].pos) ↔
        part.rows[i0].ids.headD 0 = part.rows[i1].ids.headD 0 ∧ (causal = true → part.rows[i0].pos ≤ part.rows[i1].pos) := by
      constructor
      · exact fun hc => ⟨hfirst _ (List.getElem_mem hi1) _ (List.getElem_mem hi0) hc.1 hc.2, hc.2⟩
      · exact fun hc => ⟨hc.1 ▸ head_mem (hrows _ (List.getElem_mem hi0)).1, hc.2⟩
    simp only [hsame]
  · obtain ⟨hgood, -, hrest⟩ := applyUbatch_fresh h
    rw [Cache.setInputKqMask, hr1]
    dsimp only
    split
    · rename_i hlt
      have hjn : j < n := by
        rw [← hgood.size_eq]
        exact lt_of_lt_of_le hlt (min_le_left _ _)
      rw [Cache.maskEntry, Cells.isEmpty, hrest j hjn hno]
      rfl
    · rfl

end Fresh

/-! ## A token of two sequences -/

def emptyCells : Streams Unit := Streams.create {} 1 32 fun _ _ => ()

/-- The first token is of the sequences `ids`, the second one of the sequence `s`. -/
def sharedToken (ids : List Nat) (s : Nat) : Part Unit := ⟨s, [⟨0, ids, ()⟩, ⟨1, [s], ()⟩]⟩

theorem emptyCells_fresh (ids : List Nat) (s : Nat) (hne : ids ≠ []) (hnodup : ids.Nodup) (hids : ∀ u ∈ ids, u < maxSeq)
    (hs : s < maxSeq) : Fresh 32 emptyCells (sharedToken ids s) [0, 1] where
  inv := ⟨Nat.one_pos, fun k _ => ⟨⟨Rep.init 32, Nat.zero_le _⟩, fun _ _ => pos_empty_le, rfl⟩⟩
  one := rfl
  empty _ _ := rfl
  slotted :=
    { distinct := List.nodup_singleton _
      stream := List.forall_mem_singleton.mpr Nat.one_pos
      length := List.forall_mem_singleton.mpr rfl
      nodup := List.forall_mem_singleton.mpr (show [0, 1].Nodup by decide)
      lt := List.forall_mem_singleton.mpr (show ∀ i ∈ [0, 1], i < 32 by decide)
      rows := by
        refine List.forall_mem_singleton.mpr (List.forall_mem_cons.mpr ⟨?_, List.forall_mem_singleton.mpr ?_⟩)
        · exact ⟨⟨le_rfl, hne, hnodup⟩, show (0 : Int) ≤ posMax by decide⟩
        · exact ⟨⟨Int.one_nonneg, List.cons_ne_nil _ _, List.nodup_singleton _⟩, show (1 : Int) ≤ posMax by decide⟩
      home := by
        refine List.forall_mem_singleton.mpr (List.forall_mem_cons.mpr ⟨?_, List.forall_mem_singleton.mpr ?_⟩)
        · exact fun u hu => ⟨hids u hu, rfl⟩
        · exact List.forall_mem_singleton.mpr ⟨hs, rfl⟩ }

theorem masksAgree_iff_firstShared :
    MasksAgree emptyCells (sharedToken [0, 1] 0) [0, 1] false true false ↔ FirstIdsOnly true (sharedToken [0, 1] 0).rows :=
  masksAgree_iff (emptyCells_fresh [0, 1] 0 (by decide) (by decide) (by decide) (by decide)) false ⟨1, rfl⟩ (by decide)
    true false

/-- The second token sees the first one through the cache only, whose sequence 1 is behind its sequence 0. -/
theorem not_masksAgree_secondShared : ¬ MasksAgree emptyCells (sharedToken [0, 1] 1) [0, 1] false true false := by
  intro hagree
  have hfresh := emptyCells_fresh [0, 1] 1 (by decide) (by decide) (by decide) (by decide)
  have hfirst := hfresh.firstIds_of_agree false ⟨1, rfl⟩ (by decide) hagree
  exact absurd (hfirst ⟨1, [1], ()⟩ (by decide) ⟨0, [0, 1], ()⟩ (by decide) (by decide) fun _ => by decide) (by decide)

end S2Moe.Kv
