import S2Moe.Kv.Decode

/-!
# Branches of a draft in the KV cache

What `main` of `llama-speculative` does to a cache around a round.

* `Cache.fork` : before the decode, sequence 0 is copied to the other branches;
* `Cache.keepAs0` : the branch `s_keep` becomes sequence 0, and the other ones go;
* `Cache.keepTgt`, `Cache.keepDft` : this and the removal of what was not accepted, in the order of the target's and of the
  draft's cache.
-/

namespace S2Moe.Kv
open S2Moe.Lib
open S2Moe.Recurrent (lower upper posMax)

namespace Cache
variable {D : Type}

def fork (c : Cache D) (nSeq : Nat) : Cache D :=
  (List.range (nSeq - 1)).foldl (fun d s => d.seqCp 0 (s + 1) (-1) (-1)) (c.seqKeep 0)

def keepAs0 (c : Cache D) (sKeep : Nat) : Cache D :=
  ((c.seqKeep sKeep).seqCp sKeep 0 (-1) (-1)).seqKeep 0

def keepTgt (c : Cache D) (sKeep nPast : Nat) : Cache D := (c.seqRm sKeep nPast (-1)).keepAs0 sKeep

def keepDft (c : Cache D) (sKeep nPast : Nat) : Cache D := (c.keepAs0 sKeep).seqRm 0 nPast (-1)

end Cache

/-- No position of the sequence is the last one there is, so that `p1 = -1` means all of them. -/
def Below {D : Type} (c : Cache D) (s : Nat) : Prop :=
  ∀ j < c.cells.size, s ∈ (c.cells.cell j).seq → (c.cells.cell j).pos < posMax

def Cache.Small {D : Type} (c : Cache D) : Prop := ∀ j < c.cells.size, (c.cells.cell j).pos < posMax

/-- The sequences in `new` are copies of `s`, and the other ones are as before. -/
structure Copies {D : Type} (c c' : Cache D) (s : Nat) (new : Nat → Prop) : Prop where
  ok : c'.Ok
  size_eq : c'.cells.size = c.cells.size
  small : c'.Small
  other : ∀ x vals, ¬ new x → Holds c x vals → Holds c' x vals
  copy : ∀ x vals, new x → Holds c s vals → Holds c' x vals

/-- Sequence `s` under the name 0, up to position `n`. -/
def Cell.renamed (s : Nat) (n : Int) (x : Cell) : Cell := if s ∈ x.seq ∧ x.pos < n then { x with seq := {0} } else {}

section
variable {D : Type} {c : Cache D}

theorem Holds.below {s : Nat} {vals : List D} (h : Holds c s vals) (hlen : (vals.length : Int) ≤ posMax) : Below c s := by
  intro j hj hs
  have := h.pos_lt hj hs
  omega

theorem Rep.within_all {d : Cells} (h : Rep d) {j s : Nat} (hj : j < d.size) (hs : s ∈ (d.cell j).seq)
    (hlt : (d.cell j).pos < posMax) : (d.cell j).within (-1) (-1) :=
  ⟨h.nonneg j hj (h.pos_ne hj hs), hlt⟩

/-- All branches have the cells of sequence 0. -/
theorem Cache.Ok.fork (h : c.Ok) (hb : Below c 0) (nSeq : Nat) :
    Each c (c.fork nSeq) (fun x => if 0 ∈ x.seq then { x with seq := Finset.range (nSeq - 1 + 1) } else {}) := by
  refine foldl_range_rule (f := fun d s => d.seqCp 0 (s + 1) (-1) (-1))
    (P := fun n d => Each c d (fun x => if 0 ∈ x.seq then { x with seq := Finset.range (n + 1) } else {})) ?_ (nSeq - 1) ?_
  · exact (h.seqKeep 0).congr fun j _ => rfl
  · intro n _ d hd
    have hnew : ∀ j < d.cells.size, n + 1 ∉ (d.cells.cell j).seq := by
      intro j hj hmem
      rw [hd.size_eq] at hj
      rw [hd.cell_eq j hj] at hmem
      split at hmem
      · exact absurd (Finset.mem_range.mp hmem) (lt_irrefl _)
      · cases hmem
    refine (hd.trans (hd.ok.seqCp (by omega) hnew (-1) (-1))).congr fun j hj => ?_
    by_cases hmem : 0 ∈ (c.cells.cell j).seq
    · have hin := h.rep.within_all hj hmem (hb j hj hmem)
      rw [if_pos hmem, if_pos hmem, Cell.copied_of_mem]
      · dsimp only
        rw [← Finset.range_add_one]
      · exact hin
      · exact Finset.mem_range.mpr (Nat.succ_pos n)
    · rw [if_neg hmem, if_neg hmem, Cell.copied_of_notMem (Finset.notMem_empty 0)]

theorem Cache.Ok.keepAs0 (h : c.Ok) {s : Nat} (hb : Below c s) :
    Each c (c.keepAs0 s) (fun x => if s ∈ x.seq then { x with seq := {0} } else {}) := by
  have hkeep := h.seqKeep s
  unfold Cache.keepAs0
  by_cases hs : s = 0
  · -- nothing is copied
    have hcp : (c.seqKeep s).seqCp s 0 (-1) (-1) = c.seqKeep s := by
      unfold Cache.seqCp
      rw [if_pos hs]
    rw [hcp]
    refine (hkeep.trans (hkeep.ok.seqKeep 0)).congr fun j _ => ?_
    subst hs
    by_cases hmem : 0 ∈ (c.cells.cell j).seq
    · rw [if_pos hmem, Cell.kept_of_mem hmem, Cell.kept_of_mem (Finset.mem_singleton_self 0)]
    · rw [if_neg hmem, Cell.kept_of_notMem hmem, Cell.kept_of_notMem (Finset.notMem_empty 0)]
  · have hnew : ∀ j < (c.seqKeep s).cells.size, 0 ∉ ((c.seqKeep s).cells.cell j).seq := by
      intro j hj hmem
      rw [hkeep.size_eq] at hj
      rw [hkeep.cell_eq j hj] at hmem
      unfold Cell.kept at hmem
      split at hmem
      · exact hs (Finset.mem_singleton.mp hmem).symm
      · cases hmem
    have hcp := hkeep.trans (hkeep.ok.seqCp hs hnew (-1) (-1))
    refine (hcp.trans (hcp.ok.seqKeep 0)).congr fun j hj => ?_
    by_cases hmem : s ∈ (c.cells.cell j).seq
    · have hin := h.rep.within_all hj hmem (hb j hj hmem)
      rw [if_pos hmem, Cell.kept_of_mem hmem, Cell.copied_of_mem, Cell.kept_of_mem (Finset.mem_insert_self 0 _)]
      · exact hin
      · exact Finset.mem_singleton_self s
    · rw [if_neg hmem, Cell.kept_of_notMem hmem, Cell.copied_of_notMem (Finset.notMem_empty s),
        Cell.kept_of_notMem (Finset.notMem_empty 0)]

theorem within_from {x : Cell} (n : Nat) : x.within n (-1) ↔ n ≤ x.pos ∧ x.pos < posMax := by
  unfold Cell.within lower upper
  rw [if_neg (by omega), if_pos (by omega)]

theorem Cache.Ok.keepDft (h : c.Ok) {s : Nat} (hb : Below c s) (n : Nat) :
    Each c (c.keepDft s n) (Cell.renamed s n) := by
  have hkeep := h.keepAs0 hb
  refine (hkeep.trans (hkeep.ok.seqRm 0 n (-1))).congr fun j hj => ?_
  unfold Cell.renamed
  by_cases hmem : s ∈ (c.cells.cell j).seq
  · have hlt := hb j hj hmem
    rw [if_pos hmem]
    by_cases hn : (c.cells.cell j).pos < n
    · rw [if_pos ⟨hmem, hn⟩, Cell.removed_of_not]
      rw [within_from]
      dsimp only
      omega
    · rw [if_neg (c := s ∈ _ ∧ _) fun hc => hn hc.2, Cell.removed_of_mem _ rfl]
      rw [within_from]
      dsimp only
      omega
  · rw [if_neg hmem, if_neg (c := s ∈ _ ∧ _) fun hc => hmem hc.1,
      Cell.removed_of_not fun hc => absurd hc.2 (Finset.notMem_empty 0)]

theorem Cache.Ok.keepTgt (h : c.Ok) {s : Nat} (hb : Below c s) (n : Nat) :
    Each c (c.keepTgt s n) (Cell.renamed s n) := by
  have hrm := h.seqRm s n (-1)
  -- which cells are left to the branch
  have hleft : ∀ j < c.cells.size, s ∈ ((c.cells.cell j).removed s n (-1)).seq →
      s ∈ (c.cells.cell j).seq ∧ (c.cells.cell j).pos < n ∧ (c.cells.cell j).removed s n (-1) = c.cells.cell j := by
    intro j hj hmem
    unfold Cell.removed at hmem ⊢
    by_cases hc : (c.cells.cell j).within n (-1) ∧ s ∈ (c.cells.cell j).seq
    · rw [if_pos hc] at hmem
      split at hmem
      · cases hmem
      · exact absurd rfl (Finset.ne_of_mem_erase hmem)
    · rw [if_neg hc] at hmem ⊢
      refine ⟨hmem, ?_, rfl⟩
      by_contra hn
      exact hc ⟨(within_from n).mpr ⟨by omega, hb j hj hmem⟩, hmem⟩
  have hstay : ∀ j, (c.cells.cell j).pos < n → (c.cells.cell j).removed s n (-1) = c.cells.cell j := by
    intro j hn
    apply Cell.removed_of_not
    rw [within_from]
    omega
  have hbelow : Below (c.seqRm s n (-1)) s := by
    intro j hj hmem
    rw [hrm.size_eq] at hj
    rw [hrm.cell_eq j hj] at hmem ⊢
    obtain ⟨h1, -, h3⟩ := hleft j hj hmem
    rw [h3]
    exact hb j hj h1
  refine (hrm.trans (hrm.ok.keepAs0 hbelow)).congr fun j hj => ?_
  unfold Cell.renamed
  by_cases hc : s ∈ (c.cells.cell j).seq ∧ (c.cells.cell j).pos < n
  · rw [if_pos hc, hstay j hc.2, if_pos hc.1]
  · rw [if_neg hc, if_neg]
    intro hmem
    obtain ⟨h1, h2, -⟩ := hleft j hj hmem
    exact hc ⟨h1, h2⟩

theorem Holds.renamed {c' : Cache D} {s n : Nat} {vals : List D} (h : Holds c s vals)
    (he : Each c c' (Cell.renamed s n)) : Holds c' 0 (vals.take n) := by
  refine h.each he n (fun j _ => ?_) (fun j _ hs hn => ?_)
  · unfold Cell.renamed
    by_cases hc : s ∈ (c.cells.cell j).seq ∧ (c.cells.cell j).pos < n
    · rw [if_pos hc]
      exact iff_of_true (Finset.mem_singleton_self 0) hc
    · rw [if_neg hc]
      exact iff_of_false (Finset.notMem_empty 0) hc
  · unfold Cell.renamed
    rw [if_pos ⟨hs, hn⟩]

/-- A sequence has no more positions than the cache has cells. -/
theorem Holds.length_le {s : Nat} {vals : List D} (h : Holds c s vals) : vals.length ≤ c.cells.size := by
  choose! cellAt hlt hmem hpos using h.complete
  have hcard := Finset.card_le_card_of_injOn (s := Finset.range vals.length) (t := Finset.range c.cells.size) cellAt
    (fun p hp => ?_) (fun p hp q hq heq => ?_)
  · simpa using hcard
  · rw [Finset.coe_range, Set.mem_Iio] at hp
    exact Finset.mem_coe.mpr (Finset.mem_range.mpr (hlt p hp))
  · rw [Finset.coe_range, Set.mem_Iio] at hp hq
    have hsame : (c.cells.cell (cellAt p)).pos = (c.cells.cell (cellAt q)).pos := by rw [heq]
    rw [hpos p hp, hpos q hq] at hsame
    exact Int.ofNat.inj hsame

theorem Cache.Ok.copySeq (h : c.Ok) (hsmall : c.Small) {s n : Nat} (hne : s ≠ n) :
    Copies c ((c.seqRm n (-1) (-1)).seqCp s n (-1) (-1)) s (· = n) := by
  have hrm := h.seqRm n (-1) (-1)
  have hall : ∀ j < c.cells.size, ∀ x, x ∈ (c.cells.cell j).seq → (c.cells.cell j).within (-1) (-1) :=
    fun j hj x hx => h.rep.within_all hj hx (hsmall j hj)
  have hnew : ∀ j < (c.seqRm n (-1) (-1)).cells.size, n ∉ ((c.seqRm n (-1) (-1)).cells.cell j).seq := by
    intro j hj
    rw [hrm.size_eq] at hj
    rw [hrm.cell_eq j hj]
    exact Cell.removed_notMem (hall j hj n)
  have heach := hrm.trans (hrm.ok.seqCp hne hnew (-1) (-1))
  -- a cell of `s` also is one of `n` behind the copy, and no other one is
  have hcopy : ∀ j < c.cells.size, s ∈ (c.cells.cell j).seq →
      Cell.copied s n (-1) (-1) ((c.cells.cell j).removed n (-1) (-1)) =
        { (c.cells.cell j).removed n (-1) (-1) with seq := insert n ((c.cells.cell j).removed n (-1) (-1)).seq } := by
    intro j hj hs
    refine Cell.copied_of_mem ?_ ((Cell.mem_removed hne).mpr hs)
    have hin := hall j hj s hs
    unfold Cell.within at hin ⊢
    rw [Cell.removed_pos hne hs]
    exact hin
  have hother : ∀ j < c.cells.size, s ∉ (c.cells.cell j).seq →
      Cell.copied s n (-1) (-1) ((c.cells.cell j).removed n (-1) (-1)) = (c.cells.cell j).removed n (-1) (-1) :=
    fun j _ hs => Cell.copied_of_notMem (mt (Cell.mem_removed hne).mp hs)
  have hmem : ∀ j < c.cells.size, ∀ x, x ≠ n →
      (x ∈ (Cell.copied s n (-1) (-1) ((c.cells.cell j).removed n (-1) (-1))).seq ↔ x ∈ (c.cells.cell j).seq) := by
    intro j hj x hx
    by_cases hs : s ∈ (c.cells.cell j).seq
    · rw [hcopy j hj hs, Finset.mem_insert, Cell.mem_removed hx]
      exact ⟨fun hor => hor.resolve_left hx, .inr⟩
    · rw [hother j hj hs, Cell.mem_removed hx]
  have hpos : ∀ j < c.cells.size, ∀ x, x ≠ n → x ∈ (c.cells.cell j).seq →
      (Cell.copied s n (-1) (-1) ((c.cells.cell j).removed n (-1) (-1))).pos = (c.cells.cell j).pos := by
    intro j hj x hx hxm
    by_cases hs : s ∈ (c.cells.cell j).seq
    · rw [hcopy j hj hs]
      exact Cell.removed_pos hx hxm
    · rw [hother j hj hs]
      exact Cell.removed_pos hx hxm
  refine ⟨heach.ok, heach.size_eq, fun j hj => ?_, fun x vals hx hv => ?_, fun x vals hx hv => ?_⟩
  · rw [heach.size_eq] at hj
    rw [heach.cell_eq j hj]
    have hlt := hsmall j hj
    have hrmlt : ((c.cells.cell j).removed n (-1) (-1)).pos < posMax := by
      unfold Cell.removed
      split
      · split
        · exact (by decide : (-1 : Int) < posMax)
        · exact hlt
      · exact hlt
    by_cases hs : s ∈ (c.cells.cell j).seq
    · rw [hcopy j hj hs]
      exact hrmlt
    · rw [hother j hj hs]
      exact hrmlt
  · have hx' : Holds _ x (vals.take vals.length) := hv.each heach vals.length
      (fun j hj => (hmem j hj x hx).trans ⟨fun hm => ⟨hm, (hv.pos_lt hj hm).2⟩, And.left⟩)
      (fun j hj hm _ => hpos j hj x hx hm)
    rwa [List.take_length] at hx'
  · subst hx
    have hn : Holds _ x (vals.take vals.length) := hv.each heach vals.length (fun j hj => ?_)
      (fun j hj hm _ => hpos j hj s hne hm)
    · rwa [List.take_length] at hn
    · by_cases hs : s ∈ (c.cells.cell j).seq
      · rw [hcopy j hj hs]
        exact iff_of_true (Finset.mem_insert_self x _) ⟨hs, (hv.pos_lt hj hs).2⟩
      · rw [hother j hj hs]
        exact iff_of_false (Cell.removed_notMem (hall j hj x)) fun hc => hs hc.1

/-- Every branch starts with what sequence 0 holds. -/
theorem Holds.fork (h : c.Ok) {vals : List D} (h0 : Holds c 0 vals) (hlen : (vals.length : Int) ≤ posMax) {nSeq s : Nat}
    (hs : s < nSeq) : Holds (c.fork nSeq) s vals := by
  have hmem : s ∈ Finset.range (nSeq - 1 + 1) := Finset.mem_range.mpr (by omega)
  have heach : Holds (c.fork nSeq) s (vals.take vals.length) :=
    h0.each (h.fork (h0.below hlen) nSeq) vals.length (fun j hj => ?_) (fun j _ h0j _ => ?_)
  · rwa [List.take_length] at heach
  · by_cases h0j : 0 ∈ (c.cells.cell j).seq
    · rw [if_pos h0j]
      exact iff_of_true hmem ⟨h0j, (h0.pos_lt hj h0j).2⟩
    · rw [if_neg h0j]
      exact iff_of_false (Finset.notMem_empty s) fun hc => h0j hc.1
  · rw [if_pos h0j]

end

end S2Moe.Kv
