import S2Moe.Draft.Budget

/-!
# The routing that scores a candidate

`i_batch_dft` of a candidate is its row in the batch of the next decode. The routing that scores it is looked up under
this index in the last decode, whose rows belong to the sequences of the turn before.

* `proposers`, `Single` : the sequences that propose, and those that are not split;
* `ReadsOwn`, `Steady` : every candidate is scored with the row of its parent; what that takes, before the turn;
* `proposals_index`, `proposals_parents` : the rows of the candidates and the order of their parents;
* `visits` : the turns of a run; `readsOwn_iff_steady`.
-/

namespace S2Moe.Draft.Target
open S2Moe.Lib
open S2Moe.Spec (Token)
open S2Moe.Prune

/-- The sequences before `k` that propose a token. -/
def proposersBefore (cands : Nat → Candidates) (t : Drafting) (k : Nat) : List Nat :=
  (List.range k).filter fun s => (t.drafts s).drafting && decide ((cands s).size ≠ 0)

/-- The sequences that propose a token in a turn, in their order. -/
def proposers (cfg : Config) (cands : Nat → Candidates) (t : Drafting) : List Nat := proposersBefore cands t cfg.nSeqDft

/-- No candidate of the sequence but the first is likely enough to split it. -/
def Single (cfg : Config) (step : Nat) (c : Candidates) (t : Drafting) : Prop :=
  ∀ f, 1 ≤ f → f < nCandidates cfg step c t → (c.data f).p ≤ 1 / 10

/-- No sequence is split, and those that propose have the first rows of the last decode, in their order. -/
structure Steady (cfg : Config) (step : Nat) (cands : Nat → Candidates) (p : Pruner) : Prop where
  single : ∀ s ∈ proposers cfg cands p.tree, Single cfg step (cands s) p.tree
  rows : proposers cfg cands p.tree <+: p.decoded

/-- Every candidate is scored with a row of the last decode, that of its parent, and never with one that another parent
reads. -/
structure ReadsOwn (decoded : List Nat) (cs : List Proposal) : Prop where
  within : ∀ c ∈ cs, c.iBatchDft < decoded.length
  row : ∀ c ∈ cs, decoded[c.iBatchDft]? = some c.parentSeq
  apart : ∀ c ∈ cs, ∀ d ∈ cs, c.parentSeq ≠ d.parentSeq → decoded[c.iBatchDft]? ≠ decoded[d.iBatchDft]?

section Code
variable (cfg : Config) (g : PruneConfig) (o : Policy) (oracle : Nat → Nat → Candidates)
  (routing : Nat → Nat → List TopkLayer)

/-- The turns from `step` on, with the variables before each of them. -/
def visitsFrom : Nat → Nat → Pruner → List (Nat × Pruner)
  | 0, _, _ => []
  | n + 1, step, p =>
    if step < max 1 cfg.maxDepth then
      (step, p) :: match p.turn cfg g o step (oracle step) (routing step) with
        | some (true, p) => visitsFrom n (step + 1) p
        | _ => []
    else []

/-- The turns of `draft_tree_prune`. -/
def visits (t : Drafting) : List (Nat × Pruner) :=
  match startScored g t with
  | some p => visitsFrom cfg g o oracle routing cfg.nDraft 0 p
  | none => []

end Code

/-! ## The candidates of a turn -/

section Turn
variable {cfg : Config} {step : Nat} {cands : Nat → Candidates} {c : Candidates} {s : Nat}

theorem splitsPrune_nBatchDft : ∀ (fs : List Nat) (t : Drafting) (sa : List Nat),
    (splitsPrune cfg c s fs t sa).1.nBatchDft = t.nBatchDft
  | [], _, _ => rfl
  | f :: fs, t, sa => by
    rw [splitsPrune]
    split_ifs
    · exact splitsPrune_nBatchDft fs _ _
    · exact splitsPrune_nBatchDft fs t sa

/-- Nothing is split off. -/
theorem splitsPrune_single : ∀ (fs : List Nat) (t : Drafting) (sa : List Nat), (∀ f ∈ fs, (c.data f).p ≤ 1 / 10) →
    splitsPrune cfg c s fs t sa = (t, sa)
  | [], _, _, _ => rfl
  | f :: fs, t, sa, h => by
    rw [splitsPrune, if_neg fun hc => absurd (h f List.mem_cons_self) (not_le.mpr hc.2)]
    exact splitsPrune_single fs t sa fun d hd => h d (List.mem_cons_of_mem _ hd)

theorem splitsPrune_length : ∀ (fs : List Nat) (t : Drafting) (sa : List Nat),
    sa.length ≤ (splitsPrune cfg c s fs t sa).2.length
  | [], _, _ => le_rfl
  | f :: fs, t, sa => by
    rw [splitsPrune]
    split_ifs
    · have hle := splitsPrune_length fs (t.copyDraft s) (sa ++ [t.nSeqCur])
      rw [List.length_append, List.length_singleton] at hle
      omega
    · exact splitsPrune_length fs t sa

/-- Something is. -/
theorem splitsPrune_split : ∀ (fs : List Nat) (t : Drafting) (sa : List Nat), t.nSeqCur < cfg.nSeqDft →
    (∃ f ∈ fs, 1 / 10 < (c.data f).p) → sa.length < (splitsPrune cfg c s fs t sa).2.length
  | [], _, _, _, h => absurd h (by simp)
  | f :: fs, t, sa, hroom, h => by
    rw [splitsPrune]
    split_ifs with hf
    · have hle := @splitsPrune_length cfg c s fs (t.copyDraft s) (sa ++ [t.nSeqCur])
      rw [List.length_append, List.length_singleton] at hle
      omega
    · refine splitsPrune_split fs t sa hroom ?_
      obtain ⟨d, hd, hp⟩ := h
      rcases List.mem_cons.mp hd with rfl | hd
      · exact absurd ⟨hroom, hp⟩ hf
      · exact ⟨d, hd, hp⟩

/-- The candidates count the rows of the batch. -/
def Indexed (r : Drafting × List Proposal) : Prop :=
  r.1.nBatchDft = r.2.length ∧ ∀ (k : Nat) (d : Proposal), r.2[k]? = some d → d.iBatchDft = k

theorem Indexed.addProposals (parent : Nat) : ∀ (sa : List Nat) (k : Nat) {r : Drafting × List Proposal}, Indexed r →
    Indexed (Target.addProposals step parent c sa k r)
  | [], _, _, h => h
  | s :: sa, k, (t, cs), h => by
    obtain ⟨hcount, hidx⟩ := h
    dsimp only at hcount hidx
    refine Indexed.addProposals parent sa (k + 1) ⟨?_, fun j d hj => ?_⟩
    · show t.nBatchDft + 1 = (cs ++ [_]).length
      rw [List.length_append, List.length_singleton, hcount]
    · dsimp only at hj
      rcases Nat.lt_or_ge j cs.length with hlt | hge
      · rw [List.getElem?_append_left hlt] at hj
        exact hidx j d hj
      · rw [List.getElem?_append_right hge, List.getElem?_singleton] at hj
        split_ifs at hj with hzero
        cases hj
        dsimp only
        omega

/-- **The index of a candidate is its place among the candidates.** -/
theorem proposals_index (t : Drafting) : Indexed (proposals cfg step cands t) := by
  refine foldl_range_rule (f := proposeSeq cfg step cands) (s := (t.startTurn, [])) (P := fun _ r => Indexed r)
    ⟨rfl, fun k d hk => by cases hk⟩ cfg.nSeqDft fun s _ r hr => ?_
  rw [proposeSeq]
  dsimp only
  split_ifs
  · exact hr
  · exact Indexed.addProposals s _ 0 ⟨(splitsPrune_nBatchDft _ _ _).trans hr.1, hr.2⟩
  · exact hr

theorem addProposals_parents (parent : Nat) : ∀ (sa : List Nat) (k : Nat) (r : Drafting × List Proposal),
    (addProposals step parent c sa k r).2.map Proposal.parentSeq = r.2.map Proposal.parentSeq ++
    List.replicate sa.length parent
  | [], _, r => (List.append_nil _).symm
  | s :: sa, k, (t, cs) => by
    rw [addProposals, addProposals_parents parent sa, List.map_append, List.append_assoc, List.length_cons,
      List.replicate_succ]
    rfl

/-- What a turn has come to at sequence `k`: the parents so far, one candidate each; or one of them has several. -/
def Parents (cfg : Config) (step : Nat) (cands : Nat → Candidates) (t : Drafting) (k : Nat)
    (r : Drafting × List Proposal) : Prop :=
  ((∀ s ∈ proposersBefore cands t k, Single cfg step (cands s) t) ∧ r.1.nSeqCur = t.nSeqCur ∧
      (∀ s, (r.1.drafts s).drafting = (t.drafts s).drafting ∧ (r.1.drafts s).skip = false) ∧
      r.2.map Proposal.parentSeq = proposersBefore cands t k) ∨
    (¬ ∀ s ∈ proposersBefore cands t k, Single cfg step (cands s) t) ∧ ¬ (r.2.map Proposal.parentSeq).Nodup

theorem proposersBefore_succ (t : Drafting) (k : Nat) : proposersBefore cands t (k + 1) =
    proposersBefore cands t k ++ if (t.drafts k).drafting = true ∧ (cands k).size ≠ 0 then [k] else [] := by
  rw [proposersBefore, List.range_succ, List.filter_append, List.filter_singleton, proposersBefore]
  congr 1
  cases (t.drafts k).drafting <;> by_cases hsize : (cands k).size = 0 <;> simp [hsize]

/-- There is a token unless there are no candidates at all. -/
theorem nCandidates_eq_zero (c : Candidates) (t : Drafting) : nCandidates cfg step c t = 0 ↔ c.size = 0 := by
  rw [nCandidates]
  split_ifs <;> omega

theorem nCandidates_congr {t t' : Drafting} (h : t'.nSeqCur = t.nSeqCur) (c : Candidates) :
    nCandidates cfg step c t' = nCandidates cfg step c t := by
  rw [nCandidates, nCandidates, h]

/-- More than one candidate is looked at only where there is room for a sequence. -/
theorem room_of_nCandidates {c : Candidates} {t : Drafting} (h : 1 < nCandidates cfg step c t) : t.nSeqCur < cfg.nSeqDft := by
  rw [nCandidates] at h
  split_ifs at h <;> omega

/-- One sequence: either it adds itself as a parent, or it is split and adds itself more than once. -/
theorem Parents.proposeSeq {t : Drafting} {k : Nat} {r : Drafting × List Proposal} (h : Parents cfg step cands t k r) :
    Parents cfg step cands t (k + 1) (Target.proposeSeq cfg step cands r k) := by
  rcases h with ⟨hsingle, hcur, hflags, hparents⟩ | ⟨hno, hdup⟩
  · obtain ⟨hdraft, hskip⟩ := hflags k
    have hnone : ¬ ((t.drafts k).drafting = true ∧ (cands k).size ≠ 0) → Parents cfg step cands t (k + 1) r := by
      intro hidle
      rw [Parents, proposersBefore_succ, if_neg hidle, List.append_nil]
      exact .inl ⟨hsingle, hcur, hflags, hparents⟩
    rw [Target.proposeSeq]
    dsimp only
    split_ifs with hturn hzero
    · rw [nCandidates_congr hcur, nCandidates_eq_zero] at hzero
      exact hnone fun hc => hc.2 hzero
    · have hprop : (t.drafts k).drafting = true ∧ (cands k).size ≠ 0 := by
        rw [nCandidates_congr hcur, nCandidates_eq_zero] at hzero
        exact ⟨hdraft ▸ hturn.1, hzero⟩
      have hmem : ∀ P : Nat → Prop, (∀ s ∈ proposersBefore cands t k ++ [k], P s) ↔
        (∀ s ∈ proposersBefore cands t k, P s) ∧ P k := by
        intro P
        simp only [List.mem_append, List.mem_singleton, or_imp, forall_and, forall_eq]
      rw [Parents, proposersBefore_succ, if_pos hprop, hmem, addProposals_parents, hparents, nCandidates_congr hcur]
      by_cases hk : Single cfg step (cands k) t
      · rw [splitsPrune_single _ r.1 [k] fun f hf => by
          rw [List.mem_range'_1] at hf
          exact hk f hf.1 (by omega)]
        refine .inl ⟨⟨hsingle, hk⟩, hcur, fun s => ?_, rfl⟩
        show ((Function.update r.1.drafts k _ s).drafting) = _ ∧ (Function.update r.1.drafts k _ s).skip = false
        by_cases hs : s = k
        · rw [hs, Function.update_self]
          exact hflags k
        · rw [Function.update_of_ne hs]
          exact hflags s
      · refine .inr ⟨fun hall => hk hall.2, ?_⟩
        rw [Single] at hk
        simp only [not_forall, not_le] at hk
        obtain ⟨f, hf, hlt, hp⟩ := hk
        have hroom : t.nSeqCur < cfg.nSeqDft := room_of_nCandidates (hf.trans_lt hlt)
        have hlen := @splitsPrune_split cfg (cands k) k (List.range' 1 (nCandidates cfg step (cands k) t - 1)) r.1 [k]
          (hcur ▸ hroom) ⟨f, List.mem_range'_1.mpr ⟨hf, by omega⟩, hp⟩
        rw [List.length_singleton] at hlen
        intro hnodup
        have hrep := (List.nodup_append.mp hnodup).2.1
        rw [List.nodup_replicate] at hrep
        omega
    · refine hnone fun hc => hturn ⟨hdraft.trans hc.1, ?_⟩
      rw [hskip]
      exact Bool.false_ne_true
  · refine .inr ⟨fun hall => hno fun s hs => hall s ?_, ?_⟩
    · rw [proposersBefore_succ]
      exact List.mem_append_left _ hs
    · rw [Target.proposeSeq]
      dsimp only
      split_ifs
      · exact hdup
      · rw [addProposals_parents]
        exact fun hnodup => hdup (List.nodup_append.mp hnodup).1
      · exact hdup

/-- **The parents of a turn**: the sequences that propose, unless one of them is split. -/
theorem proposals_parents (t : Drafting) : Parents cfg step cands t cfg.nSeqDft (proposals cfg step cands t) :=
  foldl_range_rule (f := proposeSeq cfg step cands) (s := (t.startTurn, [])) (P := fun k r => Parents cfg step cands t k r)
    (.inl ⟨fun _ hs => absurd hs List.not_mem_nil, rfl, fun _ => ⟨rfl, rfl⟩, rfl⟩) cfg.nSeqDft fun _ _ _ hr => hr.proposeSeq

/-- Since the index of a candidate is its place, the rows that are read are the first ones. -/
theorem readsOwn_iff_parents (t : Drafting) (decoded : List Nat) : ReadsOwn decoded (proposals cfg step cands t).2 ↔
    (proposals cfg step cands t).2.map Proposal.parentSeq <+: decoded := by
  obtain ⟨-, hidx⟩ := @proposals_index cfg step cands t
  generalize (proposals cfg step cands t).2 = cs at hidx
  rw [List.prefix_iff_getElem?]
  constructor
  · intro h k hk
    rw [List.length_map] at hk
    have hget : cs[k]? = some cs[k] := List.getElem?_eq_getElem hk
    have hrow := h.row cs[k] (List.getElem_mem hk)
    rw [hidx k _ hget] at hrow
    rw [hrow, List.getElem_map]
  · intro h
    have hrow : ∀ d ∈ cs, decoded[d.iBatchDft]? = some d.parentSeq := by
      intro d hd
      obtain ⟨k, hk⟩ := List.mem_iff_getElem?.mp hd
      have hlt := (List.getElem?_eq_some_iff.mp hk).1
      have hpar := h k (by rw [List.length_map]; exact hlt)
      rw [hidx k d hk, hpar, List.getElem_map, (List.getElem?_eq_some_iff.mp hk).2]
    refine ⟨fun d hd => (List.getElem?_eq_some_iff.mp (hrow d hd)).1, hrow, fun d hd e he hne heq => hne ?_⟩
    rw [hrow d hd, hrow e he] at heq
    exact Option.some.inj heq

/-- **One turn**: its candidates are scored with the rows of their parents exactly if it is steady. -/
theorem readsOwn_iff_steady {p : Pruner} (hnodup : p.decoded.Nodup) :
    ReadsOwn p.decoded (proposals cfg step cands p.tree).2 ↔ Steady cfg step cands p := by
  rw [readsOwn_iff_parents]
  rcases @proposals_parents cfg step cands p.tree with ⟨hsingle, _, _, hparents⟩ | ⟨hno, hdup⟩
  · rw [hparents]
    exact ⟨fun h => ⟨hsingle, h⟩, fun h => h.rows⟩
  · exact ⟨fun h => absurd (h.sublist.nodup hnodup) hdup, fun h => absurd h.single hno⟩

end Turn

/-! ## The turns of a run -/

section Run
variable {cfg : Config} {g : PruneConfig} {o : Policy} {step : Nat}

/-- What holds between two turns: the sequences are as `Draft.TargetTree` says, and those of the last decode differ. -/
def Between (cfg : Config) (step : Nat) (p : Pruner) : Prop := (∃ st, Turned cfg step p.toPruning st) ∧ p.decoded.Nodup

theorem Between.turn {cands : Nat → Candidates} {routing : Nat → List TopkLayer} {p p' : Pruner} (h : Between cfg step p)
    (hturn : p.turn cfg g o step cands routing = some (true, p')) : Between cfg (step + 1) p' := by
  obtain ⟨⟨st, hturned⟩, _⟩ := h
  refine ⟨?_, ?_⟩
  · obtain ⟨sc, hsc⟩ := turn_refines hturned hturn
    obtain ⟨step', st', hnext, hgoes⟩ := turnPrune_spec cands sc hturned
    rw [hsc] at hnext hgoes
    obtain rfl : step' = step + 1 := hgoes rfl
    exact ⟨st', hnext⟩
  · obtain ⟨_, hprop⟩ := hturned.propose cands (erase_proposals cands p.tree).symm
    rcases turn_cases hturn with ⟨_, hgoes, _⟩ | ⟨_, _, _, _, _, _, rfl⟩
    · cases hgoes
    · have hseqs := hprop.nodup
      rw [erase, List.map_map] at hseqs
      exact hseqs

theorem visitsFrom_between (oracle : Nat → Nat → Candidates) (routing : Nat → Nat → List TopkLayer) :
    ∀ (n step : Nat) (p : Pruner),
    Between cfg step p → ∀ v ∈ visitsFrom cfg g o oracle routing n step p, Between cfg v.1 v.2
  | 0, _, _, _, v, hv => absurd hv List.not_mem_nil
  | n + 1, step, p, h, v, hv => by
    rw [visitsFrom] at hv
    split_ifs at hv
    · rcases List.mem_cons.mp hv with rfl | hv
      · exact h
      · cases hturn : p.turn cfg g o step (oracle step) (routing step) with
        | none =>
          rw [hturn] at hv
          cases hv
        | some x =>
          obtain ⟨goes, q⟩ := x
          rw [hturn] at hv
          cases goes with
          | true => exact visitsFrom_between oracle routing n (step + 1) q (h.turn hturn) v hv
          | false => cases hv
    · cases hv

end Run

/-- **The routing of `draft_tree_prune`**: in every run, all candidates of all turns are scored with the rows of their
parents exactly if every turn is steady. -/
theorem visits_readsOwn (cfg : Config) (g : PruneConfig) (o : Policy) (oracle : Nat → Nat → Candidates)
    (routing : Nat → Nat → List TopkLayer) (tok : Token) (drafts : Nat → SeqDraft) :
    (∀ v ∈ visits cfg g o oracle routing (startRound cfg tok drafts),
      ReadsOwn v.2.decoded (proposals cfg v.1 (oracle v.1) v.2.tree).2) ↔
    ∀ v ∈ visits cfg g o oracle routing (startRound cfg tok drafts), Steady cfg v.1 (oracle v.1) v.2 := by
  have hnodup : ∀ v ∈ visits cfg g o oracle routing (startRound cfg tok drafts), v.2.decoded.Nodup := by
    intro v hv
    rw [visits] at hv
    cases hstart : startScored g (startRound cfg tok drafts) with
    | none =>
      rw [hstart] at hv
      cases hv
    | some p =>
      rw [hstart] at hv
      obtain ⟨u, _, rfl⟩ := Option.map_eq_some_iff.mp hstart
      refine (visitsFrom_between oracle routing _ _ _ ⟨⟨_, startPruning_turned cfg tok drafts⟩, ?_⟩ v hv).2
      exact List.nodup_singleton 0
  exact forall₂_congr fun v hv => readsOwn_iff_steady (hnodup v hv)

/-- **A branch is scored with a row that was never decoded**: it is the second candidate, and the last decode had one row. -/
theorem branch_reads_outside : ¬ ∀ v ∈ visits twoBranches unitCost plainPolicy branchOnce expertFive
    (startRound twoBranches 3 fun _ => {}),
    ReadsOwn v.2.decoded (proposals twoBranches v.1 (branchOnce v.1) v.2.tree).2 := by
  intro h
  have hturns : ((visits twoBranches unitCost plainPolicy branchOnce expertFive
    (startRound twoBranches 3 fun _ => {})).map fun v =>
      (v.2.decoded.length, (proposals twoBranches v.1 (branchOnce v.1) v.2.tree).2.map Proposal.iBatchDft)) =
        [(1, [0]), (1, [0, 1]), (2, [0, 1])] := by decide +kernel
  have hmem : (1, [0, 1]) ∈ [(1, [0]), (1, [0, 1]), (2, [0, 1])] := by decide
  rw [← hturns] at hmem
  obtain ⟨v, hv, hval⟩ := List.mem_map.mp hmem
  obtain ⟨hlen, hidx⟩ := Prod.mk.inj hval
  have hone : 1 ∈ (proposals twoBranches v.1 (branchOnce v.1) v.2.tree).2.map Proposal.iBatchDft := by
    rw [hidx]
    decide
  obtain ⟨c, hc, hrow⟩ := List.mem_map.mp hone
  have hlt := (h v hv).within c hc
  rw [hlen, hrow] at hlt
  exact lt_irrefl 1 hlt

end S2Moe.Draft.Target
