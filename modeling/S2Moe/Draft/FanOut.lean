import S2Moe.Draft.TargetTree

/-!
# The candidates that `draft_tree_original` reads

A sequence that is drafting is split by a loop that runs up to the eighth candidate, whatever the sampler returned.

* `Visit` : a sequence in a turn, with the state in front of it; `treeVisits` : those of a draft;
* `Visit.reads` : the indices of `cur_p->data` it reads; `Visit.children` : the tokens it adds to `batch_tgt`;
* `Sound` : what a draft should do with its candidates;
* `Visit.Within` : the loop ends inside the list;
* `draftSound_iff` : a draft is sound exactly when all its loops do.
-/

namespace S2Moe.Draft.Target
open S2Moe.Lib
open S2Moe.Spec (Candidate Token)

section Code
variable (cfg : Config)

/-- The indices that the loop over `f` reads while `cur` sequences are in use. -/
def splitReads (c : Candidates) : List Nat → Nat → List Nat
  | [], _ => []
  | f :: fs, cur =>
    if cur < cfg.nSeqDft then f :: (if cfg.pSplit < (c.data f).p then splitReads c fs (cur + 1) else []) else []

/-- A sequence that is drafting, in turn `turn`. -/
structure Visit where
  before : Drafting
  turn : Nat
  seq : Nat
  cands : Candidates

namespace Visit

/-- Behind the loop over `f`. -/
def split (v : Visit) : Drafting × List Nat := splitsOriginal cfg v.cands v.seq [1, 2, 3, 4, 5, 6, 7] v.before [v.seq]

def after (v : Visit) : Drafting := addOriginal cfg v.turn v.cands (v.split cfg).2 0 (v.split cfg).1

/-- The loop over `f`, and the loop over `sa`. -/
def reads (v : Visit) : List Nat :=
  splitReads cfg v.cands [1, 2, 3, 4, 5, 6, 7] v.before.nSeqCur ++ List.range (v.split cfg).2.length

/-- The tokens of the new rows. -/
def children (v : Visit) : List Token := ((v.after cfg).batchTgt.drop v.before.batchTgt.length).map Row.token

end Visit

/-- `draftSeqOriginal`, and what it visits. -/
def visitSeq (i : Nat) (cands : Nat → Candidates) (r : Drafting × List Visit) (s : Nat) : Drafting × List Visit :=
  (draftSeqOriginal cfg i cands r.1 s,
    if (r.1.drafts s).drafting ∧ ¬ (r.1.drafts s).skip then r.2 ++ [⟨r.1, i, s, cands s⟩] else r.2)

def visitTurn (i : Nat) (cands : Nat → Candidates) (t : Drafting) : Drafting × List Visit :=
  (List.range cfg.nSeqDft).foldl (visitSeq cfg i cands) (t.startTurn, [])

/-- The visits of `draftTreeOriginal`. -/
def treeVisits (oracle : Nat → Nat → Candidates) : Nat → Nat → Drafting → List Visit
  | 0, _, _ => []
  | n + 1, i, t =>
    let r := visitTurn cfg i (oracle i) t
    if r.1.nBatchDft = 0 then r.2 else r.2 ++ treeVisits oracle n (i + 1) r.1

end Code

section Spec
variable (cfg : Config)

/-- What a sampler returns: at least one candidate, and no token twice. -/
structure Candidates.Listed (c : Candidates) : Prop where
  pos : 0 < c.size
  inj : ∀ a < c.size, ∀ b < c.size, (c.data a).id = (c.data b).id → a = b

/-- Only candidates that there are, different children, and no more branches than there may be. -/
structure Sound (oracle : Nat → Nat → Candidates) (t : Drafting) : Prop where
  reads : ∀ v ∈ treeVisits cfg oracle cfg.nDraft 0 t, ∀ k ∈ v.reads cfg, k < v.cands.size
  children : ∀ v ∈ treeVisits cfg oracle cfg.nDraft 0 t, (v.children cfg).Nodup
  branches : ∀ v ∈ treeVisits cfg oracle cfg.nDraft 0 t, ∀ s, ((v.after cfg).drafts s).active = true → s < cfg.nSeqDft

/-- The list has all eight candidates, or there is a candidate for each branch that may be in use, or one of the others is not
probable enough. -/
def Visit.Within (v : Visit) : Prop :=
  8 ≤ v.cands.size ∨ cfg.nSeqDft < v.before.nSeqCur + v.cands.size ∨
    ∃ f, 1 ≤ f ∧ f < v.cands.size ∧ (v.cands.data f).p ≤ cfg.pSplit

end Spec

/-! ## The reads -/

section Reads
variable {cfg : Config} {c : Candidates}

/-- From `f` on, where all candidates in front were probable enough. -/
theorem splitReads_lt_iff : ∀ (n f cur : Nat), f ≤ c.size →
    ((∀ k ∈ splitReads cfg c (List.range' f n) cur, k < c.size) ↔
      f + n ≤ c.size ∨ cfg.nSeqDft ≤ cur + (c.size - f) ∨ ∃ k, f ≤ k ∧ k < c.size ∧ (c.data k).p ≤ cfg.pSplit)
  | 0, f, cur, hf => iff_of_true (fun k hk => absurd hk List.not_mem_nil) (.inl hf)
  | n + 1, f, cur, hf => by
    rw [List.range'_succ, splitReads]
    by_cases hcur : cur < cfg.nSeqDft
    · rw [if_pos hcur, List.forall_mem_cons]
      by_cases hlt : f < c.size
      · by_cases hp : cfg.pSplit < (c.data f).p
        · rw [if_pos hp, splitReads_lt_iff n (f + 1) (cur + 1) hlt]
          have hex : (∃ k, f ≤ k ∧ k < c.size ∧ (c.data k).p ≤ cfg.pSplit) ↔
              ∃ k, f + 1 ≤ k ∧ k < c.size ∧ (c.data k).p ≤ cfg.pSplit := by
            constructor
            · rintro ⟨k, hk, hks, hle⟩
              rcases Nat.lt_or_eq_of_le hk with h | rfl
              · exact ⟨k, h, hks, hle⟩
              · exact absurd hp (not_lt.mpr hle)
            · rintro ⟨k, hk, hks, hle⟩
              exact ⟨k, by omega, hks, hle⟩
          rw [hex]
          have h1 : f + 1 + n ≤ c.size ↔ f + (n + 1) ≤ c.size := by omega
          have h2 : cfg.nSeqDft ≤ cur + 1 + (c.size - (f + 1)) ↔ cfg.nSeqDft ≤ cur + (c.size - f) := by omega
          rw [h1, h2]
          exact and_iff_right hlt
        · rw [if_neg hp]
          exact iff_of_true ⟨hlt, fun k hk => absurd hk List.not_mem_nil⟩ (.inr (.inr ⟨f, le_rfl, hlt, not_lt.mp hp⟩))
      · -- the list has ended, and the loop has not
        refine iff_of_false (fun h => hlt h.1) ?_
        rintro (h | h | ⟨k, hk, hks, -⟩) <;> omega
    · rw [if_neg hcur]
      exact iff_of_true (fun k hk => absurd hk List.not_mem_nil) (.inr (.inl (by omega)))

/-- A sequence that was split off got a candidate that was read. -/
theorem splitsOriginal_reads (cfg : Config) (c : Candidates) (s : Nat) : ∀ (n f : Nat) (t : Drafting) (sa : List Nat),
    ∃ q, (splitsOriginal cfg c s (List.range' f n) t sa).2.length = sa.length + q ∧
      ∀ k < q, f + k ∈ splitReads cfg c (List.range' f n) t.nSeqCur
  | 0, _, _, _ => ⟨0, rfl, fun k hk => absurd hk (Nat.not_lt_zero k)⟩
  | n + 1, f, t, sa => by
    rw [List.range'_succ, splitsOriginal, splitReads]
    by_cases hc : t.nSeqCur < cfg.nSeqDft ∧ cfg.pSplit < (c.data f).p
    · rw [if_pos hc, if_pos hc.1, if_pos hc.2]
      obtain ⟨q, hlen, hq⟩ := splitsOriginal_reads cfg c s n (f + 1) (t.splitOriginal s) (sa ++ [t.nSeqCur])
      refine ⟨q + 1, ?_, fun k hk => ?_⟩
      · rw [hlen, List.length_append, List.length_singleton]
        omega
      · cases k with
        | zero => exact List.mem_cons_self
        | succ k =>
          have hmem := hq k (by omega)
          rw [Nat.add_right_comm] at hmem
          exact List.mem_cons_of_mem _ hmem
    · rw [if_neg hc]
      exact ⟨0, rfl, fun k hk => absurd hk (Nat.not_lt_zero k)⟩

theorem Visit.reads_lt_iff {v : Visit} (hpos : 0 < v.cands.size) : (∀ k ∈ v.reads cfg, k < v.cands.size) ↔ v.Within cfg := by
  have hloop : (∀ k ∈ splitReads cfg v.cands [1, 2, 3, 4, 5, 6, 7] v.before.nSeqCur, k < v.cands.size) ↔ v.Within cfg := by
    refine (splitReads_lt_iff (c := v.cands) 7 1 v.before.nSeqCur hpos).trans ?_
    have h2 : cfg.nSeqDft ≤ v.before.nSeqCur + (v.cands.size - 1) ↔ cfg.nSeqDft < v.before.nSeqCur + v.cands.size := by omega
    rw [h2]
    rfl
  rw [← hloop, Visit.reads, List.forall_mem_append]
  refine and_iff_left_of_imp fun hreads k hk => ?_
  obtain ⟨q, hlen, hq⟩ := splitsOriginal_reads cfg v.cands v.seq 7 1 v.before [v.seq]
  have hk' : k < 1 + q := by
    rw [← List.length_singleton (a := v.seq), ← hlen]
    exact List.mem_range.mp hk
  rcases Nat.eq_zero_or_pos k with rfl | hk0
  · exact hpos
  · have := hreads _ (hq (k - 1) (by omega))
    omega

end Reads

/-! ## The children -/

section Children
variable {cfg : Config}

theorem length_splitsOriginal (c : Candidates) (s : Nat) : ∀ (fs : List Nat) (t : Drafting) (sa : List Nat),
    (splitsOriginal cfg c s fs t sa).1.batchTgt.length = t.batchTgt.length
  | [], _, _ => rfl
  | f :: fs, t, sa => by
    rw [splitsOriginal]
    split
    · rw [length_splitsOriginal c s fs]
      exact List.length_map _
    · rfl

theorem addOriginal_rows (i : Nat) (c : Candidates) : ∀ (sa : List Nat) (k : Nat) (t : Drafting),
    ∃ rows, (addOriginal cfg i c sa k t).batchTgt = t.batchTgt ++ rows ∧
      rows.map Row.token = (List.range' k sa.length).map fun j => (c.data j).id
  | [], _, t => ⟨[], (List.append_nil _).symm, rfl⟩
  | s :: sa, k, t => by
    rw [addOriginal]
    obtain ⟨rows, hrows, htok⟩ := addOriginal_rows i c sa (k + 1)
      ((t.propose c s k).commit s (c.data k).id (cfg.nPastTgt + i + 1))
    refine ⟨⟨(c.data k).id, cfg.nPastTgt + i + 1, [s]⟩ :: rows, ?_, ?_⟩
    · rw [hrows]
      exact List.append_assoc _ _ _
    · rw [List.map_cons, htok]
      rfl

/-- The children are the first candidates. -/
theorem Visit.children_eq (v : Visit) :
    v.children cfg = (List.range (v.split cfg).2.length).map fun j => (v.cands.data j).id := by
  obtain ⟨rows, hrows, htok⟩ := @addOriginal_rows cfg v.turn v.cands (v.split cfg).2 0 (v.split cfg).1
  have hlen : (v.split cfg).1.batchTgt.length = v.before.batchTgt.length := length_splitsOriginal _ _ _ _ _
  rw [Visit.children, Visit.after, hrows, ← hlen, List.drop_left, htok, List.range_eq_range']

/-- Candidates that there are are different ones. -/
theorem Visit.nodup_children {v : Visit} (hlist : v.cands.Listed) (hreads : ∀ k ∈ v.reads cfg, k < v.cands.size) :
    (v.children cfg).Nodup := by
  rw [v.children_eq]
  refine List.Nodup.map_on ?_ List.nodup_range
  intro a ha b hb heq
  have hlt : ∀ k ∈ List.range (v.split cfg).2.length, k < v.cands.size := fun k hk =>
    hreads k (List.mem_append_right _ hk)
  exact hlist.inj a (hlt a ha) b (hlt b hb) heq

end Children

/-! ## The branches -/

section Branches
variable {cfg : Config}

/-- The drafts are well formed, and what was visited stayed within the branches. -/
structure VisitInv (cfg : Config) (oracle : Nat → Nat → Candidates) (vs : List Visit) : Prop where
  cands : ∀ v ∈ vs, v.cands = oracle v.turn v.seq
  active : ∀ v ∈ vs, ∀ s, ((v.after cfg).drafts s).active = true → s < cfg.nSeqDft

theorem VisitInv.append {oracle : Nat → Nat → Candidates} {vs vs' : List Visit} (h : VisitInv cfg oracle vs)
    (h' : VisitInv cfg oracle vs') : VisitInv cfg oracle (vs ++ vs') where
  cands v hv := (List.mem_append.mp hv).elim (h.cands v) (h'.cands v)
  active v hv := (List.mem_append.mp hv).elim (h.active v) (h'.active v)

/-- One turn of the loop over `s`. -/
theorem visitSeq_spec {oracle : Nat → Nat → Candidates} {i k : Nat} {r : Drafting × List Visit}
    (h : Original cfg i (doneBefore r.1 k) r.1) (hvs : VisitInv cfg oracle r.2) :
    Original cfg i (doneBefore (visitSeq cfg i (oracle i) r k).1 (k + 1)) (visitSeq cfg i (oracle i) r k).1 ∧
      VisitInv cfg oracle (visitSeq cfg i (oracle i) r k).2 := by
  have hstep := draftSeqOriginal_spec (oracle i) h
  refine ⟨hstep, ?_⟩
  dsimp only [visitSeq]
  split
  · case isTrue hdraft =>
    refine hvs.append ⟨fun v hv => ?_, fun v hv s hs => ?_⟩
    · rw [List.mem_singleton.mp hv]
    · have hafter : draftSeqOriginal cfg i (oracle i) r.1 k = (Visit.mk r.1 i k (oracle i k)).after cfg := if_pos hdraft
      rw [List.mem_singleton.mp hv, ← hafter, hstep.active] at hs
      exact Nat.lt_of_lt_of_le hs hstep.bound
  · exact hvs

theorem visitTurn_fst (i : Nat) (cands : Nat → Candidates) (t : Drafting) :
    (visitTurn cfg i cands t).1 = turnOriginal cfg i cands t :=
  foldl_range_rule (f := visitSeq cfg i cands) (s := (t.startTurn, []))
    (P := fun k r => r.1 = (List.range k).foldl (draftSeqOriginal cfg i cands) t.startTurn) rfl cfg.nSeqDft
    fun k _ r hr => by
      rw [List.range_succ, List.foldl_append, ← hr]
      rfl

theorem treeVisits_spec (oracle : Nat → Nat → Candidates) : ∀ (n i : Nat) (t : Drafting),
    Original cfg i (fun _ => false) t → VisitInv cfg oracle (treeVisits cfg oracle n i t)
  | 0, i, t, _ => ⟨fun v hv => absurd hv List.not_mem_nil, fun v hv => absurd hv List.not_mem_nil⟩
  | n + 1, i, t, h => by
    have hturn := foldl_range_rule (f := visitSeq cfg i (oracle i)) (s := (t.startTurn, []))
      (P := fun k r => Original cfg i (doneBefore r.1 k) r.1 ∧ VisitInv cfg oracle r.2)
      ⟨h.startTurn, ⟨fun v hv => absurd hv List.not_mem_nil, fun v hv => absurd hv List.not_mem_nil⟩⟩ cfg.nSeqDft
      fun k _ r hr => visitSeq_spec hr.1 hr.2
    have hnext := turnOriginal_spec (oracle i) h
    rw [← visitTurn_fst] at hnext
    rw [treeVisits]
    split
    · exact hturn.2
    · exact VisitInv.append hturn.2 (treeVisits_spec oracle n (i + 1) _ hnext)

end Branches

/-- **A draft is sound exactly when each of its loops ends inside the list.** -/
theorem draftSound_iff (cfg : Config) (oracle : Nat → Nat → Candidates) (hlist : ∀ i s, (oracle i s).Listed) (tok : Token)
    (drafts : Nat → SeqDraft) : Sound cfg oracle (startRound cfg tok drafts) ↔
      ∀ v ∈ treeVisits cfg oracle cfg.nDraft 0 (startRound cfg tok drafts), v.Within cfg := by
  have hvs := treeVisits_spec oracle cfg.nDraft 0 _ (startRound_original cfg tok drafts)
  have hcands : ∀ v ∈ treeVisits cfg oracle cfg.nDraft 0 (startRound cfg tok drafts), v.cands.Listed := by
    intro v hv
    rw [hvs.cands v hv]
    exact hlist _ _
  constructor
  · intro h v hv
    exact (Visit.reads_lt_iff (hcands v hv).pos).mp (h.reads v hv)
  · intro h
    have hreads : ∀ v ∈ treeVisits cfg oracle cfg.nDraft 0 (startRound cfg tok drafts), ∀ k ∈ v.reads cfg, k < v.cands.size :=
      fun v hv => (Visit.reads_lt_iff (hcands v hv).pos).mpr (h v hv)
    exact ⟨hreads, fun v hv => Visit.nodup_children (hcands v hv) (hreads v hv), hvs.active⟩

theorem draftSound_iff_threeCandidates : let cfg : Config := ⟨2, Nat.two_pos, 2, 10, 1 / 10, 1, 1⟩
    let oracle : Nat → Nat → Candidates := fun _ _ => ⟨3, fun k => ⟨k + 5, 1 / 3⟩⟩
    Sound cfg oracle (startRound cfg 3 fun _ => {}) := by
  intro cfg oracle
  refine (draftSound_iff cfg oracle (fun _ _ => ⟨Nat.succ_pos 2, fun a _ b _ h => Nat.add_right_cancel h⟩) 3 fun _ =>
    {}).mpr ?_
  have hall : ∀ v ∈ treeVisits cfg oracle cfg.nDraft 0 (startRound cfg 3 fun _ => {}),
      cfg.nSeqDft < v.before.nSeqCur + v.cands.size := by
    decide +kernel
  intro v hv
  exact .inr (.inl (hall v hv))

/-- The sampler kept one candidate, and the next one had a probability before it was cut off. -/
theorem not_sound_oneCandidate : let cfg : Config := ⟨2, Nat.two_pos, 1, 10, 1 / 10, 1, 1⟩
    ¬ Sound cfg (fun _ _ => ⟨1, fun k => if k = 0 then ⟨5, 1⟩ else ⟨6, 7 / 20⟩⟩) (startRound cfg 3 fun _ => {}) := by
  intro cfg h
  have hread : ¬ ∀ v ∈ treeVisits cfg (fun _ _ => ⟨1, fun k => if k = 0 then ⟨5, 1⟩ else ⟨6, 7 / 20⟩⟩) cfg.nDraft 0
      (startRound cfg 3 fun _ => {}), ∀ k ∈ v.reads cfg, k < v.cands.size := by
    decide +kernel
  exact hread h.reads

end S2Moe.Draft.Target
