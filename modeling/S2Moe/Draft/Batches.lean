import S2Moe.Draft.Tree

/-!
# Batches with one token for each sequence

* `tokensFor_eq`, `tokensFor_of_notMem` : the token of a sequence in the batch;
* `batchInit_rowsAt` : such a batch is accepted when its position is the next one of each of its sequences;
* `holds_rowsAt` : the decode appends the token.
-/

namespace S2Moe.Draft.Tree
open S2Moe.Kv
open S2Moe.Spec (Token)

variable {batch : List (Nat × Token)} {pos x : Nat}

theorem rowsAt_getElem? {k : Nat} {r : Row Token} :
    (rowsAt pos batch)[k]? = some r ↔ ∃ b, batch[k]? = some b ∧ r = ⟨pos, [b.1], b.2⟩ := by
  unfold rowsAt
  rw [List.getElem?_map, Option.map_eq_some_iff]
  exact exists_congr fun b => and_congr_right fun _ => eq_comm

theorem tokensFor_of_notMem (hx : x ∉ batch.map Prod.fst) : tokensFor batch x = [] := by
  unfold tokensFor
  rw [List.map_eq_nil_iff, List.filter_eq_nil_iff]
  intro b hb hbx
  exact hx (List.mem_map.mpr ⟨b, hb, by simpa using hbx⟩)

theorem tokensFor_eq (hnodup : (batch.map Prod.fst).Nodup) {b : Nat × Token} (hb : b ∈ batch) :
    tokensFor batch b.1 = [b.2] := by
  induction batch with
  | nil => cases hb
  | cons a batch ih =>
      rw [List.map_cons, List.nodup_cons] at hnodup
      rcases List.mem_cons.mp hb with rfl | hb
      · have hrest : tokensFor batch b.1 = [] := tokensFor_of_notMem hnodup.1
        unfold tokensFor at hrest ⊢
        rw [List.filter_cons_of_pos (by simp), List.map_cons, hrest]
      · have hne : a.1 ≠ b.1 := fun heq => hnodup.1 (List.mem_map.mpr ⟨b, hb, heq.symm⟩)
        have hrest := ih hnodup.2 hb
        unfold tokensFor at hrest ⊢
        rw [List.filter_cons_of_neg (by simpa using hne)]
        exact hrest

theorem batchPos_rowsAt (hnodup : (batch.map Prod.fst).Nodup) :
    batchPos (rowsAt pos batch) x = if x ∈ batch.map Prod.fst then [(pos : Int)] else [] := by
  have hfilter : batchPos (rowsAt pos batch) x = (tokensFor batch x).map fun _ => (pos : Int) := by
    unfold batchPos rowsAt tokensFor
    rw [List.filter_map, List.map_map, List.map_map]
    have hpred : ((fun r : Row Token => decide (x ∈ r.ids)) ∘ fun b : Nat × Token => (⟨pos, [b.1], b.2⟩ : Row Token)) =
        fun b => b.1 == x := by
      funext b
      show decide (x ∈ [b.1]) = (b.1 == x)
      rw [Bool.eq_iff_iff, decide_eq_true_iff, List.mem_singleton, beq_iff_eq, eq_comm]
    rw [hpred]
    rfl
  rw [hfilter]
  split
  · rename_i hx
    obtain ⟨b, hb, rfl⟩ := List.mem_map.mp hx
    rw [tokensFor_eq hnodup hb]
    rfl
  · rename_i hx
    rw [tokensFor_of_notMem hx]
    rfl

/-- The checks of `llama_batch_allocr::init` pass. -/
theorem batchInit_rowsAt {c : Cells} {nSeqMax : Nat} (hnodup : (batch.map Prod.fst).Nodup)
    (hlt : ∀ x ∈ batch.map Prod.fst, x < nSeqMax) (hnext : ∀ x ∈ batch.map Prod.fst, c.seqPosMax x = (pos : Int) - 1) :
    batchInit c nSeqMax (rowsAt pos batch) = true := by
  have hrow : ∀ r ∈ rowsAt pos batch, ∃ b ∈ batch, r = ⟨pos, [b.1], b.2⟩ := by
    intro r hr
    obtain ⟨b, hb, rfl⟩ := List.mem_map.mp hr
    exact ⟨b, hb, rfl⟩
  unfold batchInit
  simp only [Bool.and_eq_true, List.all_eq_true, decide_eq_true_eq]
  refine ⟨⟨⟨fun r hr s hs => ?_, fun s _ => ?_⟩, fun s1 _ s0 _ => ?_⟩, fun r hr => ?_⟩
  · obtain ⟨b, hb, rfl⟩ := hrow r hr
    rw [List.mem_singleton.mp hs]
    exact hlt _ (List.mem_map.mpr ⟨b, hb, rfl⟩)
  · unfold seqConsistent
    rw [batchPos_rowsAt hnodup]
    by_cases hs : s ∈ batch.map Prod.fst
    · rw [if_pos hs]
      simp [hnext s hs]
    · rw [if_neg hs]
      rfl
  · -- no token has two sequences
    have hnot : coupled (rowsAt pos batch) s1 s0 = false := by
      unfold coupled
      rw [List.any_eq_false]
      intro r hr
      obtain ⟨b, -, rfl⟩ := hrow r hr
      simp
    rw [hnot]
    rfl
  · obtain ⟨b, -, rfl⟩ := hrow r hr
    dsimp only
    omega

theorem rowsAt_ok : ∀ r ∈ rowsAt pos batch, r.Ok := by
  intro r hr
  obtain ⟨b, -, rfl⟩ := List.mem_map.mp hr
  exact ⟨by dsimp only; omega, List.cons_ne_nil _ _, List.nodup_singleton _⟩

theorem holds_rowsAt {c c' : Cache Token} {idxs : List Nat} {vals : List Token} (h : Holds c x vals) (hrep : Rep c.cells)
    (hp : Placed c (rowsAt pos batch) idxs c') (hnodup : (batch.map Prod.fst).Nodup)
    (hpos : x ∈ batch.map Prod.fst → vals.length = pos) : Holds c' x (vals ++ tokensFor batch x) := by
  refine h.placed _ hrep hp (fun k r hr hx => ?_) (fun k k' r r' hr hr' hx hx' _ => ?_) (fun d hd => ?_)
  · obtain ⟨b, hb, rfl⟩ := rowsAt_getElem?.mp hr
    obtain rfl := List.mem_singleton.mp hx
    have hmem := List.mem_of_getElem? hb
    rw [tokensFor_eq hnodup hmem]
    exact ⟨0, by rw [hpos (List.mem_map.mpr ⟨b, hmem, rfl⟩)]; simp, rfl⟩
  · obtain ⟨b, hb, rfl⟩ := rowsAt_getElem?.mp hr
    obtain ⟨b', hb', rfl⟩ := rowsAt_getElem?.mp hr'
    have hsame : b.1 = b'.1 := (List.mem_singleton.mp hx).symm.trans (List.mem_singleton.mp hx')
    have h1 : (batch.map Prod.fst)[k]? = some b.1 := by rw [List.getElem?_map, hb]; rfl
    have h2 : (batch.map Prod.fst)[k']? = some b.1 := by rw [List.getElem?_map, hb', hsame]; rfl
    obtain ⟨hk, hk'⟩ := List.getElem?_eq_some_iff.mp h1
    obtain ⟨hl, hl'⟩ := List.getElem?_eq_some_iff.mp h2
    exact (hnodup.getElem_inj_iff).mp (hk'.trans hl'.symm)
  · by_cases hx : x ∈ batch.map Prod.fst
    · obtain ⟨b, hb, rfl⟩ := List.mem_map.mp hx
      rw [tokensFor_eq hnodup hb, List.length_singleton] at hd
      obtain ⟨k, hk⟩ := List.mem_iff_getElem?.mp hb
      refine ⟨k, _, rowsAt_getElem?.mpr ⟨b, hk, rfl⟩, List.mem_singleton_self _, ?_⟩
      obtain rfl : d = 0 := by omega
      rw [hpos hx]
      simp
    · rw [tokensFor_of_notMem hx] at hd
      exact absurd hd (Nat.not_lt_zero d)

end S2Moe.Draft.Tree
