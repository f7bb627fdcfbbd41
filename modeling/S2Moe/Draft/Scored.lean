import S2Moe.Draft.TargetTree
import S2Moe.Prune.RoutingNoise
import S2Moe.Prune.Sizes

/-!
# `draft_tree_prune` with its scores

`Draft.TargetBatch` leaves the scores of the candidates open. Here they come from the routing of the draft's last decode,
and the selection keeps a budget and the experts that it has paid for. Arithmetic is exact; the entropy, the powers, the
noise and the order of equal scores are open.

* `getMoeInfo`, `scoreCand` : what a candidate is worth and what it costs;
* `selectScored`, `Pruner.turn`, `draftTreeScored` : the selection, a turn, the turns;
* `turn_refines`, `scored_refines` : with scores chosen in hindsight, `turnPrune` and `draftTreePrune` do the same;
* `Sized` : the sizes of the sets that are kept; `draftTreePruned_isSome` : operands always fit.
-/

namespace S2Moe.Draft.Target
open S2Moe.Lib
open S2Moe.Spec (Token)
open S2Moe.Prune

/-- `llama_moe_topk_layer`. -/
structure TopkLayer where
  layer : Int
  expertId : List Int
  score : List Rat

/-- `g_prune_config`, and the layers of the draft. -/
structure PruneConfig where
  nLayers : Int
  expertMax : Int
  budgetB : Rat
  mRoute : Int
  kTgt : Int
  tpot : Rat
  eps : Rat
  expertBytes : Rat
  bandwidth : Rat
  confThresh : Rat
  scoreThresh : Rat
  routingNoise : Rat
  routingNoiseExperts : Int

/-- What one expert costs. -/
def PruneConfig.cost (g : PruneConfig) : Rat := g.expertBytes / g.bandwidth

/-- A candidate before it is scored. -/
structure Proposal extends Cand where
  parentSeq : Nat
  iBatchDft : Nat
  cT : Rat

structure Scored extends Proposal where
  a : Rat
  H : Rat
  hasMoe : Bool
  unionExperts : ExpertLayers
  newExperts : ExpertLayers
  deltaC : Rat
  score : Rat

/-- What is left open. -/
structure Policy where
  tae : List TopkLayer → Rat
  alpha : Rat → Rat → Rat
  shuffle : Proposal → List Position → List Position
  pick : Proposal → Nat → List Int → Int
  sort : List Scored → List Scored
  perm : ∀ cs, (sort cs).Perm cs
  sorted : ∀ cs, (sort cs).Pairwise fun x y => y.score ≤ x.score

/-- A node that was selected, with what `u_cache` was before. -/
structure Selection where
  cand : Scored
  before : ExpertLayers

/-- The variables of `draft_tree_prune`. `decoded` has the sequence of each row of the draft's last decode. -/
structure Pruner extends Pruning where
  budgetUsed : Rat := 0
  uCache : ExpertLayers
  seqA : Nat → Rat := fun _ => 1
  seqH : Nat → Rat := fun _ => 0
  seqU : Nat → ExpertLayers
  expertMax : Int
  decoded : List Nat := [0]
  chosen : List Selection := []

section Code
variable (cfg : Config) (g : PruneConfig) (o : Policy)

/-- `llama_get_last_moe_topk` : nothing for a row that was not decoded. -/
def lastMoeTopk (routing : Nat → List TopkLayer) (nTokens tokenIndex : Nat) : List TopkLayer :=
  if tokenIndex < nTokens then routing tokenIndex else []

/-- The experts of one layer. -/
def recordExperts (expertMax : Int) (experts : ExpertLayers) (l : TopkLayer) : ExpertLayers :=
  if min (l.expertId.length : Int) g.mRoute ≤ 0 then experts
  else
    (l.expertId.take (min (l.expertId.length : Int) g.kTgt).toNat).foldl
      (fun experts id => if id < 0 ∨ expertMax ≤ id then experts else (experts.set l.layer id expertMax).1) experts

/-- `get_moe_info` : whether there is routing, the entropy and the experts. -/
def getMoeInfo (expertMax : Int) (layers : List TopkLayer) : Option (Bool × Rat × ExpertLayers) :=
  (ExpertLayers.resize g.nLayers expertMax).map fun experts =>
    if layers = [] then (false, 1 / 2, experts.clear)
    else (true, o.tae layers, layers.foldl (recordExperts g expertMax) experts.clear)

def perturbPredictedExperts (c : Proposal) (experts : ExpertLayers) (expertMax : Int) : Option (ExpertLayers × Int) :=
  if g.routingNoise ≤ 0 ∨ g.routingNoiseExperts ≤ 0 then some (experts, expertMax)
  else
    setsToLayers (perturbLayeredExpertIds (layersToSets experts) g.routingNoise g.routingNoiseExperts (o.shuffle c)
      (o.pick c)).result
      expertMax

/-- The loop over `sa`. -/
def addProposals (step parent : Nat) (c : Candidates) : List Nat → Nat → Drafting × List Proposal → Drafting × List Proposal
  | [], _, r => r
  | s :: sa, k, (t, cs) =>
    addProposals step parent c sa (k + 1)
      (t.propose c s k, cs ++ [⟨⟨s, decide (s ≠ parent), (c.data k).id, step + 1⟩, parent, t.nBatchDft, (c.data k).p⟩])

def proposeSeq (step : Nat) (cands : Nat → Candidates) (r : Drafting × List Proposal) (s : Nat) : Drafting × List Proposal :=
  if (r.1.drafts s).drafting ∧ ¬ (r.1.drafts s).skip then
    let n := nCandidates cfg step (cands s) r.1
    if n = 0 then r
    else
      let q := splitsPrune cfg (cands s) s (List.range' 1 (n - 1)) r.1 [s]
      addProposals step s (cands s) q.2 0 (q.1, r.2)
  else r

/-- The candidates of a turn. -/
def proposals (step : Nat) (cands : Nat → Candidates) (t : Drafting) : Drafting × List Proposal :=
  (List.range cfg.nSeqDft).foldl (proposeSeq cfg step cands) (t.startTurn, [])

/-- The experts that a candidate needs in addition to its parent's, and those of them that are not paid for. -/
def newExperts (p : Pruner) (c : Proposal) (hasMoe : Bool) (predicted : ExpertLayers) :
    Option (ExpertLayers × ExpertLayers) :=
  if hasMoe then do
    let unionExperts ← (p.seqU c.parentSeq).orWith predicted
    let uSeg ← unionExperts.andnotWith (p.seqU c.parentSeq)
    let fresh ← uSeg.andnotWith p.uCache
    some (unionExperts, fresh)
  else (ExpertLayers.resize g.nLayers p.expertMax).map fun fresh => (p.seqU c.parentSeq, fresh)

/-- What a candidate is charged; the first is charged for one expert at least. -/
def chargeOf (step : Nat) (hasMoe : Bool) (fresh : ExpertLayers) : Rat :=
  let deltaC := if hasMoe then fresh.popcount * g.cost else g.cost
  if step = 0 ∧ deltaC = 0 then g.cost else deltaC

/-- One turn of the loop that scores; the noise may raise `expert_max`. -/
def scoreCand (routing : Nat → List TopkLayer) (step : Nat) (p : Pruner) (expertMax : Int) (c : Proposal) :
    Option (Scored × Int) := do
  let info ← getMoeInfo g o expertMax (lastMoeTopk routing p.decoded.length c.iBatchDft)
  let predicted ← perturbPredictedExperts g o c info.2.2 expertMax
  let a := p.seqA c.parentSeq * o.alpha c.cT info.2.1
  let experts ← newExperts g p c info.1 predicted.1
  let deltaC := chargeOf g step info.1 experts.2
  some (
    { c with
      a := a, H := p.seqH c.parentSeq + a, hasMoe := info.1, unionExperts := experts.1, newExperts := experts.2
      deltaC := deltaC, score := a * g.tpot / (deltaC + g.eps) }, predicted.2)

def scoreAll (routing : Nat → List TopkLayer) (step : Nat) (p : Pruner) : List Proposal → Int → Option (List Scored × Int)
  | [], expertMax => some ([], expertMax)
  | c :: cs, expertMax => do
    let r ← scoreCand g o routing step p expertMax c
    let rs ← scoreAll routing step p cs r.2
    some (r.1 :: rs.1, rs.2)

/-- The tests on budget, confidence and score. -/
def passes (step : Nat) (budgetUsed : Rat) (c : Scored) : Bool :=
  !(decide (0 < g.budgetB) && decide (g.budgetB < budgetUsed + c.deltaC)) &&
    if step = 0 then !(decide (0 < g.confThresh) && decide (c.cT < g.confThresh)) else !decide (c.score < g.scoreThresh)

/-- The experts that are paid for, once a candidate is selected. -/
def payFor (uCache : ExpertLayers) (c : Scored) : Option ExpertLayers :=
  if c.hasMoe then uCache.orWith c.newExperts else some uCache

/-- A candidate is selected. -/
def Pruner.select (p : Pruner) (step : Nat) (c : Scored) (uCache : ExpertLayers) : Pruner :=
  { p with
    tree := p.tree.choose cfg step c.toCand
    selectedNodes := p.selectedNodes + 1
    budgetUsed := p.budgetUsed + c.deltaC
    uCache := uCache
    seqA := Function.update p.seqA c.seq c.a
    seqH := Function.update p.seqH c.seq c.H
    seqU := Function.update p.seqU c.seq c.unionExperts
    chosen := p.chosen ++ [⟨c, p.uCache⟩] }

/-- The loop over the sorted candidates, with the sequences that are selected. -/
def selectScored (step : Nat) : List Scored → Pruner → List Nat → Option (Pruner × List Nat)
  | [], p, sel => some (p, sel)
  | c :: cs, p, sel =>
    if max 1 cfg.maxNodes ≤ p.selectedNodes then some (p, sel)
    else if max 1 cfg.maxDepth < c.depth then selectScored step cs p sel
    else if passes g step p.budgetUsed c = false then selectScored step cs p sel
    else if cfg.nDraft ≤ p.tree.batchTgt.length then some (p, sel)
    else (payFor p.uCache c).bind fun uCache => selectScored step cs (p.select cfg step c uCache) (c.seq :: sel)

/-- The end of a turn, behind the selection. -/
def Pruner.finish (p : Pruner) (activeBefore : Nat → Bool) (sel : List Nat) (sorted : List Scored) : Pruner :=
  let dropped := Pruning.dropped activeBefore sel (sorted.map fun c => c.toCand)
  let t := dropped.foldl Drafting.takeBack p.tree
  let activeSeq := fun s => activeBefore s || decide (s ∈ sel)
  { p with
    tree := { t with drafts := fun s => { t.drafts s with active := activeSeq s, drafting := decide (s ∈ sel) } }
    activeSeq := activeSeq
    rolledBack := p.rolledBack || !dropped.isEmpty }

/-- One turn, and whether the loop goes on; then the batch is decoded. -/
def Pruner.turn (p : Pruner) (step : Nat) (cands : Nat → Candidates) (routing : Nat → List TopkLayer) :
    Option (Bool × Pruner) :=
  let q := proposals cfg step cands p.tree
  if q.1.nBatchDft = 0 then some (false, { p with tree := q.1 })
  else do
    let scored ← scoreAll g o routing step p q.2 p.expertMax
    let r ← selectScored cfg g step (o.sort scored.1) { p with tree := q.1, expertMax := scored.2 } []
    let p' := r.1.finish p.activeSeq r.2 (o.sort scored.1)
    let goes := !(decide (max 1 cfg.maxNodes ≤ p'.selectedNodes) || decide (cfg.nDraft ≤ p'.tree.batchTgt.length)) &&
      (List.range cfg.nSeqDft).any (fun s => (p'.tree.drafts s).drafting)
    some (goes, { p' with decoded := if goes then q.2.map fun c => c.seq else p'.decoded })

/-- The turns from `step` on. -/
def draftTreeScored (oracle : Nat → Nat → Candidates) (routing : Nat → Nat → List TopkLayer) : Nat → Nat → Pruner →
    Option Pruner
  | 0, _, p => some p
  | n + 1, step, p =>
    if step < max 1 cfg.maxDepth then
      match p.turn cfg g o step (oracle step) (routing step) with
      | some (true, p) => draftTreeScored oracle routing n (step + 1) p
      | some (false, p) => some p
      | none => none
    else some p

/-- The variables at the start; the sampled token of sequence 0 has been decoded. -/
def startScored (t : Drafting) : Option Pruner :=
  (ExpertLayers.resize g.nLayers g.expertMax).map fun u =>
    { startPruning t with uCache := u.clear, seqU := fun _ => u, expertMax := g.expertMax }

/-- `draft_tree_prune`. -/
def draftTreePruned (oracle : Nat → Nat → Candidates) (routing : Nat → Nat → List TopkLayer) (t : Drafting) : Option Pruner :=
  (startScored g t).bind (draftTreeScored cfg g o oracle routing cfg.nDraft 0)

end Code

/-! ## Without the scores -/

section Erase
variable {cfg : Config} {g : PruneConfig} {o : Policy} {step : Nat}

/-- The candidates as `Draft.TargetBatch` has them. -/
def erase (r : Drafting × List Proposal) : Drafting × List Cand := (r.1, r.2.map fun c => c.toCand)

theorem erase_addProposals (parent : Nat) (c : Candidates) : ∀ (sa : List Nat) (k : Nat) (r : Drafting × List Proposal),
    erase (addProposals step parent c sa k r) = addPrune step parent c sa k (erase r)
  | [], _, _ => rfl
  | s :: sa, k, (t, cs) => by
    rw [addProposals, erase_addProposals parent c sa, erase, erase, addPrune, List.map_append]
    rfl

theorem erase_proposeSeq (cands : Nat → Candidates) (r : Drafting × List Proposal) (s : Nat) :
    erase (proposeSeq cfg step cands r s) = draftSeqPrune cfg step cands (erase r) s := by
  rw [proposeSeq]
  dsimp only
  by_cases hturn : (r.1.drafts s).drafting ∧ ¬ (r.1.drafts s).skip
  · rw [if_pos hturn]
    by_cases hzero : nCandidates cfg step (cands s) r.1 = 0
    · rw [if_pos hzero]
      exact ((if_pos hturn).trans (if_pos hzero)).symm
    · rw [if_neg hzero, erase_addProposals]
      exact ((if_pos hturn).trans (if_neg hzero)).symm
  · rw [if_neg hturn]
    exact (if_neg hturn).symm

theorem erase_proposals (cands : Nat → Candidates) (t : Drafting) :
    erase (proposals cfg step cands t) = (List.range cfg.nSeqDft).foldl (draftSeqPrune cfg step cands) (t.startTurn, []) := by
  rw [proposals]
  exact (List.foldl_hom erase fun r s => (erase_proposeSeq cands r s).symm).symm

/-- Scoring adds to the candidates and leaves them in place. -/
theorem scoreCand_spec {routing : Nat → List TopkLayer} {p : Pruner} {expertMax : Int} {c : Proposal} {r : Scored × Int}
    (h : scoreCand g o routing step p expertMax c = some r) :
    r.1.toProposal = c ∧ r.1.deltaC = chargeOf g step r.1.hasMoe r.1.newExperts ∧
      ∃ predicted, newExperts g p c r.1.hasMoe predicted = some (r.1.unionExperts, r.1.newExperts) := by
  rw [scoreCand] at h
  obtain ⟨info, _, h⟩ := Option.bind_eq_some_iff.mp h
  obtain ⟨predicted, _, h⟩ := Option.bind_eq_some_iff.mp h
  obtain ⟨experts, hexperts, h⟩ := Option.bind_eq_some_iff.mp h
  cases h
  exact ⟨rfl, rfl, predicted.1, hexperts⟩

theorem scoreAll_spec {routing : Nat → List TopkLayer} {p : Pruner} : ∀ {cs : List Proposal} {expertMax : Int}
    {r : List Scored × Int}, scoreAll g o routing step p cs expertMax = some r →
      r.1.map (fun c => c.toProposal) = cs ∧ ∀ c ∈ r.1, ∃ m r', scoreCand g o routing step p m c.toProposal = some r' ∧
        r'.1 = c
  | [], _, _, h => by
    cases h
    exact ⟨rfl, fun c hc => absurd hc List.not_mem_nil⟩
  | c :: cs, expertMax, r, h => by
    rw [scoreAll] at h
    obtain ⟨x, hx, h⟩ := Option.bind_eq_some_iff.mp h
    obtain ⟨xs, hxs, h⟩ := Option.bind_eq_some_iff.mp h
    cases h
    obtain ⟨hmap, hall⟩ := scoreAll_spec hxs
    have hc := (scoreCand_spec hx).1
    refine ⟨by rw [List.map_cons, hmap, hc], fun d hd => ?_⟩
    rcases List.mem_cons.mp hd with rfl | hd
    · exact ⟨expertMax, x, by rw [hc]; exact hx, rfl⟩
    · exact hall d hd

/-- The selection asks only for the outcome of the tests on its candidates. -/
theorem selectLoop_congr {pass pass' : Nat → Bool} : ∀ (cs : List Cand) (t : Drafting) (nodes : Nat) (sel : List Nat),
    (∀ c ∈ cs, pass' c.seq = pass c.seq) → selectLoop cfg step pass' cs t nodes sel = selectLoop cfg step pass cs t nodes sel
  | [], _, _, _, _ => rfl
  | c :: cs, t, nodes, sel, h => by
    have hrest := fun d hd => h d (List.mem_cons_of_mem _ hd)
    rw [selectLoop, selectLoop, h c List.mem_cons_self]
    split_ifs
    · rfl
    · exact selectLoop_congr cs t nodes sel hrest
    · exact selectLoop_congr cs t nodes sel hrest
    · rfl
    · exact selectLoop_congr cs _ _ _ hrest

/-- What the selection does not touch. -/
structure SameTurn (p p' : Pruner) : Prop where
  activeSeq : p'.activeSeq = p.activeSeq
  rolledBack : p'.rolledBack = p.rolledBack
  expertMax : p'.expertMax = p.expertMax
  decoded : p'.decoded = p.decoded

/-- The outcomes of the tests, collected along the selection. -/
theorem selectScored_refines : ∀ (cs : List Scored) (p : Pruner) (sel : List Nat) {r : Pruner × List Nat},
    selectScored cfg g step cs p sel = some r → (cs.map fun c => c.seq).Nodup →
    SameTurn p r.1 ∧ ∃ pass, selectLoop cfg step pass (cs.map fun c => c.toCand) p.tree p.selectedNodes sel =
      (r.1.tree, r.1.selectedNodes, r.2)
  | [], p, sel, r, h, _ => by
    cases h
    exact ⟨⟨rfl, rfl, rfl, rfl⟩, fun _ => true, rfl⟩
  | c :: cs, p, sel, r, h, hnodup => by
    rw [List.map_cons, List.nodup_cons] at hnodup
    have hother : ∀ (pass : Nat → Bool) (b : Bool), ∀ d ∈ cs.map fun c => c.toCand, Function.update pass c.seq b d.seq =
      pass d.seq := by
      intro pass b d hd
      obtain ⟨x, hx, rfl⟩ := List.mem_map.mp hd
      have hne : x.seq ≠ c.seq := fun he => hnodup.1 (he ▸ List.mem_map_of_mem (f := fun c => c.seq) hx)
      exact Function.update_of_ne hne _ _
    rw [selectScored] at h
    split_ifs at h with hnodes hdepth hpass hfull
    · cases h
      exact ⟨⟨rfl, rfl, rfl, rfl⟩, fun _ => true, by rw [List.map_cons, selectLoop, if_pos hnodes]⟩
    · obtain ⟨hsame, pass, hloop⟩ := selectScored_refines cs p sel h hnodup.2
      refine ⟨hsame, pass, ?_⟩
      rw [List.map_cons, selectLoop, if_neg hnodes, if_pos hdepth]
      exact hloop
    · obtain ⟨hsame, pass, hloop⟩ := selectScored_refines cs p sel h hnodup.2
      refine ⟨hsame, Function.update pass c.seq false, ?_⟩
      rw [List.map_cons, selectLoop, if_neg hnodes, if_neg hdepth, if_pos (Function.update_self _ _ _),
        selectLoop_congr _ _ _ _ (hother pass false)]
      exact hloop
    · cases h
      refine ⟨⟨rfl, rfl, rfl, rfl⟩, fun _ => true, ?_⟩
      rw [List.map_cons, selectLoop, if_neg hnodes, if_neg hdepth, if_neg (by simp), if_pos hfull]
    · obtain ⟨uCache, _, h⟩ := Option.bind_eq_some_iff.mp h
      obtain ⟨hsame, pass, hloop⟩ := selectScored_refines cs _ _ h hnodup.2
      refine ⟨⟨hsame.activeSeq, hsame.rolledBack, hsame.expertMax, hsame.decoded⟩, Function.update pass c.seq true, ?_⟩
      have hyes : ¬ Function.update pass c.seq true c.toCand.seq = false := by
        rw [Function.update_self]
        exact fun he => Bool.false_ne_true he.symm
      rw [List.map_cons, selectLoop, if_neg hnodes, if_neg hdepth, if_neg hyes, if_neg hfull,
        selectLoop_congr _ _ _ _ (hother pass true)]
      exact hloop

/-- Any order of candidates of different sequences is the order of some scores. -/
theorem exists_mergeSort_eq {sorted cs : List Cand} (hperm : sorted.Perm cs) (hnodup : (cs.map Cand.seq).Nodup) :
    ∃ score : Nat → Rat, (cs.mergeSort fun a b => decide (score b.seq ≤ score a.seq)) = sorted := by
  have hnodup' : (sorted.map Cand.seq).Nodup := (hperm.map Cand.seq).nodup_iff.mpr hnodup
  refine ⟨fun s => -((sorted.map Cand.seq).idxOf s : Rat), ?_⟩
  generalize hle : (fun a b : Cand => decide (-((sorted.map Cand.seq).idxOf b.seq : Rat) ≤
    -((sorted.map Cand.seq).idxOf a.seq : Rat))) = le
  have hiff : ∀ a b, le a b = true ↔ (sorted.map Cand.seq).idxOf a.seq ≤ (sorted.map Cand.seq).idxOf b.seq := by
    intro a b
    rw [← hle, decide_eq_true_eq, neg_le_neg_iff, Nat.cast_le]
  have hsorted : sorted.Pairwise fun a b => le a b = true := by
    rw [List.pairwise_iff_getElem]
    intro i j hi hj hij
    rw [hiff]
    have hget : ∀ (k : Nat) (hk : k < sorted.length), (sorted.map Cand.seq).idxOf sorted[k].seq = k := by
      intro k hk
      have hidx := hnodup'.idxOf_getElem k (by rw [List.length_map]; exact hk)
      rwa [List.getElem_map] at hidx
    rw [hget i hi, hget j hj]
    exact hij.le
  have hmerge : (cs.mergeSort le).Pairwise fun a b => le a b = true :=
    List.pairwise_mergeSort (fun a b c hab hbc => by rw [hiff] at *; omega) (fun a b => by
      rw [Bool.or_eq_true, hiff, hiff]
      omega) cs
  refine ((List.mergeSort_perm cs le).trans hperm.symm).eq_of_pairwise (fun a b ha hb hab hba => ?_) hmerge hsorted
  rw [hiff] at hab hba
  have ha : a ∈ sorted := hperm.symm.subset ((List.mergeSort_perm cs le).subset ha)
  have hseq : a.seq = b.seq :=
    (List.idxOf_inj (List.mem_map_of_mem ha)).mp (Nat.le_antisymm hab hba)
  exact List.inj_on_of_nodup_map hnodup' ha hb hseq

/-- A turn, once its candidates and its selection are known. -/
theorem turnPrune_eq {cands : Nat → Candidates} {sc : Scoring} {p : Pruning} {q : Drafting × List Cand} {sorted : List Cand}
    {r : Drafting × Nat × List Nat} (hq : (List.range cfg.nSeqDft).foldl (draftSeqPrune cfg step cands)
      (p.tree.startTurn, []) = q)
    (hzero : q.1.nBatchDft ≠ 0) (hsorted : (q.2.mergeSort fun a b => decide (sc.score b.seq ≤ sc.score a.seq)) = sorted)
    (hr : selectLoop cfg step sc.pass sorted q.1 p.selectedNodes [] = r) :
    turnPrune cfg step cands sc p =
      let t := (Pruning.dropped p.activeSeq r.2.2 sorted).foldl Drafting.takeBack r.1
      let activeSeq := fun s => p.activeSeq s || decide (s ∈ r.2.2)
      (!(decide (max 1 cfg.maxNodes ≤ r.2.1) || decide (cfg.nDraft ≤ t.batchTgt.length)) &&
        (List.range cfg.nSeqDft).any (fun s => decide (s ∈ r.2.2)),
        { tree := { t with drafts := fun s => { t.drafts s with active := activeSeq s, drafting := decide (s ∈ r.2.2) } }
          activeSeq := activeSeq
          selectedNodes := r.2.1
          rolledBack := p.rolledBack || !(Pruning.dropped p.activeSeq r.2.2 sorted).isEmpty }) := by
  subst hr hsorted hq
  exact if_neg hzero

/-- Whether the loop goes on behind a turn. -/
def Pruner.goesOn (cfg : Config) (p : Pruner) : Bool :=
  !(decide (max 1 cfg.maxNodes ≤ p.selectedNodes) || decide (cfg.nDraft ≤ p.tree.batchTgt.length)) &&
    (List.range cfg.nSeqDft).any fun s => (p.tree.drafts s).drafting

/-- A turn has no candidates, or it scores them, selects and perhaps decodes. -/
theorem turn_cases {cands : Nat → Candidates} {routing : Nat → List TopkLayer} {p p' : Pruner} {goes : Bool}
    (h : p.turn cfg g o step cands routing = some (goes, p')) :
    ((proposals cfg step cands p.tree).1.nBatchDft = 0 ∧ goes = false ∧
      p' = { p with tree := (proposals cfg step cands p.tree).1 }) ∨
    ((proposals cfg step cands p.tree).1.nBatchDft ≠ 0 ∧
      ∃ scored r, scoreAll g o routing step p (proposals cfg step cands p.tree).2 p.expertMax = some scored ∧
        selectScored cfg g step (o.sort scored.1)
          { p with tree := (proposals cfg step cands p.tree).1, expertMax := scored.2 } [] = some r ∧
        goes = (r.1.finish p.activeSeq r.2 (o.sort scored.1)).goesOn cfg ∧
        p' = { r.1.finish p.activeSeq r.2 (o.sort scored.1) with
          decoded := if goes then (proposals cfg step cands p.tree).2.map fun c => c.seq else r.1.decoded }) := by
  rw [Pruner.turn] at h
  dsimp only at h
  split_ifs at h with hzero
  · cases h
    exact .inl ⟨hzero, rfl, rfl⟩
  · obtain ⟨scored, hscored, h⟩ := Option.bind_eq_some_iff.mp h
    obtain ⟨r, hr, h⟩ := Option.bind_eq_some_iff.mp h
    cases h
    exact .inr ⟨hzero, scored, r, hscored, hr, rfl, rfl⟩

/-- **A turn with scores is a turn** of `Draft.TargetBatch`. -/
theorem turn_refines {cands : Nat → Candidates} {routing : Nat → List TopkLayer} {p p' : Pruner} {goes : Bool}
    {st : Nat → Status}
    (hturned : Turned cfg step p.toPruning st) (h : p.turn cfg g o step cands routing = some (goes, p')) :
    ∃ sc, turnPrune cfg step cands sc p.toPruning = (goes, p'.toPruning) := by
  have herase := @erase_proposals cfg step cands p.tree
  obtain ⟨st', hprop⟩ := hturned.propose cands herase.symm
  rcases turn_cases h with ⟨hzero, rfl, rfl⟩ | ⟨hzero, scored, r, hscored, hr, rfl, rfl⟩
  · refine ⟨⟨fun _ => 0, fun _ => true⟩, ?_⟩
    rw [turnPrune, ← herase]
    exact if_pos hzero
  · have hmap : (scored.1.map fun c => c.toCand) = (proposals cfg step cands p.tree).2.map fun c => c.toCand := by
      rw [← (scoreAll_spec hscored).1, List.map_map]
      rfl
    have hperm : ((o.sort scored.1).map fun c => c.toCand).Perm ((proposals cfg step cands p.tree).2.map fun c => c.toCand) :=
      hmap ▸ (o.perm scored.1).map _
    obtain ⟨score, hscore⟩ := exists_mergeSort_eq hperm hprop.nodup
    have hnodup : ((o.sort scored.1).map fun c => c.seq).Nodup := by
      have := (hperm.map Cand.seq).nodup_iff.mpr hprop.nodup
      rwa [List.map_map] at this
    obtain ⟨hsame, pass, hloop⟩ := selectScored_refines _ _ _ hr hnodup
    have hrolled : r.1.rolledBack = p.rolledBack := hsame.rolledBack
    refine ⟨⟨score, pass⟩, ?_⟩
    rw [@turnPrune_eq cfg step cands ⟨score, pass⟩ p.toPruning _ _ _ herase.symm hzero hscore hloop]
    dsimp only [Pruner.finish]
    rw [hrolled]
    rfl

/-- Only the scores of the turns that are still to come matter. -/
theorem draftTreePrune_congr {oracle : Nat → Nat → Candidates} {sc sc' : Nat → Scoring} : ∀ (n step : Nat) (p : Pruning),
    (∀ k, step ≤ k → sc' k = sc k) → draftTreePrune cfg oracle sc' n step p = draftTreePrune cfg oracle sc n step p
  | 0, _, _, _ => rfl
  | n + 1, step, p, h => by
    rw [draftTreePrune, draftTreePrune, h step le_rfl]
    split_ifs
    · generalize turnPrune cfg step (oracle step) (sc step) p = r
      obtain ⟨goes, q⟩ := r
      cases goes with
      | true => exact draftTreePrune_congr n (step + 1) q fun k hk => h k (by omega)
      | false => rfl
    · rfl

/-- The invariant rule of the turns. -/
theorem draftTreeScored_rule {I : Pruner → Prop} (oracle : Nat → Nat → Candidates) (routing : Nat → Nat → List TopkLayer)
    (hturn : ∀ step p goes p', I p → p.turn cfg g o step (oracle step) (routing step) = some (goes, p') → I p') :
    ∀ (n step : Nat) {p r : Pruner}, I p → draftTreeScored cfg g o oracle routing n step p = some r → I r
  | 0, _, _, _, hp, h => by
    cases h
    exact hp
  | n + 1, step, p, r, hp, h => by
    rw [draftTreeScored] at h
    split_ifs at h
    · cases hx : p.turn cfg g o step (oracle step) (routing step) with
      | none =>
        rw [hx] at h
        cases h
      | some x =>
        obtain ⟨goes, q⟩ := x
        have hq := hturn step p goes q hp hx
        rw [hx] at h
        cases goes with
        | true => exact draftTreeScored_rule oracle routing hturn n (step + 1) hq h
        | false =>
          cases h
          exact hq
    · cases h
      exact hp

/-- **So are all turns**: what is known of `draftTreePrune` for any scores is known of `draftTreeScored`. -/
theorem scored_refines (oracle : Nat → Nat → Candidates) (routing : Nat → Nat → List TopkLayer) :
    ∀ (n step : Nat) (p p' : Pruner)
    (st : Nat → Status), Turned cfg step p.toPruning st → draftTreeScored cfg g o oracle routing n step p = some p' →
    ∃ sc, draftTreePrune cfg oracle sc n step p.toPruning = p'.toPruning
  | 0, _, _, _, _, _, h => by
    cases h
    exact ⟨fun _ => ⟨fun _ => 0, fun _ => true⟩, rfl⟩
  | n + 1, step, p, p', st, hturned, h => by
    rw [draftTreeScored] at h
    split_ifs at h with hdepth
    · cases hturn : p.turn cfg g o step (oracle step) (routing step) with
      | none =>
        rw [hturn] at h
        cases h
      | some r =>
        obtain ⟨goes, q⟩ := r
        obtain ⟨sc, hsc⟩ := turn_refines hturned hturn
        rw [hturn] at h
        cases goes with
        | false =>
          cases h
          refine ⟨fun _ => sc, ?_⟩
          rw [draftTreePrune, if_pos hdepth, hsc]
        | true =>
          obtain ⟨step', st', hturned', hstep⟩ := turnPrune_spec (oracle step) sc hturned
          rw [hsc] at hturned' hstep
          obtain rfl : step' = step + 1 := hstep rfl
          obtain ⟨sc', hrest⟩ := scored_refines oracle routing n (step + 1) q p' st' hturned' h
          refine ⟨fun k => if k = step then sc else sc' k, ?_⟩
          rw [draftTreePrune, if_pos hdepth, if_pos rfl, hsc]
          dsimp only
          rw [← hrest]
          apply draftTreePrune_congr
          intro k hk
          exact if_neg (by omega)
    · cases h
      refine ⟨fun _ => ⟨fun _ => 0, fun _ => true⟩, ?_⟩
      rw [draftTreePrune, if_neg hdepth]

end Erase

/-! ## The sizes of the sets -/

section Sized
variable {cfg : Config} {g : PruneConfig} {o : Policy} {step : Nat}

theorem length_perturbLayered (layers : List (Finset Int)) (rate : ℚ) (expertCount : Int)
    (shuffle : List Position → List Position)
    (pick : Nat → List Int → Int) : (perturbLayeredExpertIds layers rate expertCount shuffle pick).result.length =
    layers.length := by
  have hfrom : ∀ (ps : List Position) (i : Nat) (s : Noise), (replaceFrom expertCount pick i ps s).result.length =
    s.result.length := by
    intro ps
    induction ps with
    | nil => exact fun _ _ => rfl
    | cons pos ps ih =>
      intro i s
      rw [replaceFrom, ih, replaceAt]
      split_ifs
      · rfl
      · exact List.length_set
  rw [perturbLayeredExpertIds]
  split_ifs
  · rfl
  · rfl
  · exact hfrom _ 0 _

/-- A set that is kept. -/
abbrev Kept (g : PruneConfig) : ExpertLayers → Prop := Shape g.nLayers.toNat (wordsFor g.expertMax)

/-- A set that is read. -/
abbrev Enough (g : PruneConfig) : ExpertLayers → Prop := Wide g.nLayers.toNat (wordsFor g.expertMax)

/-- All sets that are kept are as large as at the start. -/
structure Sized (g : PruneConfig) (p : Pruner) : Prop where
  uCache : Kept g p.uCache
  seqU : ∀ s, Kept g (p.seqU s)
  expertMax : g.expertMax ≤ p.expertMax

/-- What a scored candidate leaves for the selection. -/
structure Scored.Sized (g : PruneConfig) (c : Scored) : Prop where
  unionExperts : Kept g c.unionExperts
  newExperts : c.hasMoe = true → Kept g c.newExperts

theorem recordExperts_wide {experts : ExpertLayers} (h : Enough g experts) (expertMax : Int) (l : TopkLayer) :
    Enough g (recordExperts g expertMax experts l) := by
  rw [recordExperts]
  split_ifs
  · exact h
  · generalize l.expertId.take _ = ids
    induction ids generalizing experts with
    | nil => exact h
    | cons id ids ih =>
      rw [List.foldl_cons]
      apply ih
      split_ifs
      · exact h
      · exact (h.set l.layer id expertMax).1

theorem getMoeInfo_isSome (hmax : 0 ≤ (g.expertMax + 63).tdiv 64) {m : Int} (hle : g.expertMax ≤ m)
    (layers : List TopkLayer) :
    ∃ r, getMoeInfo g o m layers = some r ∧ Enough g r.2.2 := by
  obtain ⟨experts, hexperts⟩ := @resize_isSome g.nLayers g.expertMax m hmax hle
  refine ⟨_, Option.map_eq_some_iff.mpr ⟨experts, hexperts, rfl⟩, ?_⟩
  have hfold : ∀ (ls : List TopkLayer) (e : ExpertLayers), Enough g e → Enough g (ls.foldl (recordExperts g m) e) := by
    intro ls
    induction ls with
    | nil => exact fun _ he => he
    | cons l ls ih => exact fun e he => ih _ (recordExperts_wide he m l)
  have hclear : Enough g experts.clear := (resize_wide hle hexperts).clear
  split_ifs
  · exact hclear
  · exact hfold layers _ hclear

theorem perturb_isSome (hmax : 0 ≤ (g.expertMax + 63).tdiv 64) {m : Int} (hle : g.expertMax ≤ m) {experts : ExpertLayers}
    (h : Enough g experts) (c : Proposal) :
    ∃ r, perturbPredictedExperts g o c experts m = some r ∧ Enough g r.1 ∧ g.expertMax ≤ r.2 := by
  rw [perturbPredictedExperts]
  split_ifs
  · exact ⟨_, rfl, h, hle⟩
  · have hsome := @setsToLayers_isSome g.expertMax m hmax hle
      (perturbLayeredExpertIds (layersToSets experts) g.routingNoise g.routingNoiseExperts (o.shuffle c) (o.pick c)).result
    rwa [length_perturbLayered, layersToSets, List.length_map, h.layers] at hsome

theorem newExperts_isSome (hmax : 0 ≤ (g.expertMax + 63).tdiv 64) {p : Pruner} (hp : Sized g p) {predicted : ExpertLayers}
    (h : Enough g predicted) (c : Proposal) (hasMoe : Bool) :
    ∃ r, newExperts g p c hasMoe predicted = some r ∧ Kept g r.1 ∧ (hasMoe = true → Kept g r.2) := by
  rw [newExperts]
  cases hasMoe with
  | true =>
    obtain ⟨union, hunion, hkept, _⟩ := (hp.seqU c.parentSeq).orWith h
    obtain ⟨uSeg, huSeg, hkept', _⟩ := hkept.andnotWith (hp.seqU c.parentSeq).wide
    obtain ⟨fresh, hfresh, hkept'', _⟩ := hkept'.andnotWith hp.uCache.wide
    refine ⟨(union, fresh), ?_, hkept, fun _ => hkept''⟩
    rw [if_pos rfl, hunion, Option.bind_eq_bind, Option.bind_some, huSeg, Option.bind_some, hfresh]
    rfl
  | false =>
    obtain ⟨fresh, hfresh⟩ := @resize_isSome g.nLayers g.expertMax p.expertMax hmax hp.expertMax
    refine ⟨(p.seqU c.parentSeq, fresh), ?_, hp.seqU _, fun hno => absurd hno Bool.false_ne_true⟩
    rw [if_neg Bool.false_ne_true, hfresh]
    rfl

theorem scoreCand_isSome (hmax : 0 ≤ (g.expertMax + 63).tdiv 64) (routing : Nat → List TopkLayer) {p : Pruner}
    (hp : Sized g p)
    {m : Int} (hle : g.expertMax ≤ m) (c : Proposal) :
    ∃ r, scoreCand g o routing step p m c = some r ∧ r.1.Sized g ∧ g.expertMax ≤ r.2 := by
  obtain ⟨info, hinfo, hwide⟩ := @getMoeInfo_isSome g o hmax m hle (lastMoeTopk routing p.decoded.length c.iBatchDft)
  obtain ⟨predicted, hpredicted, hwide', hle'⟩ := @perturb_isSome g o hmax m hle info.2.2 hwide c
  obtain ⟨experts, hexperts, hunion, hnew⟩ := newExperts_isSome hmax hp hwide' c info.1
  simp only [scoreCand, hinfo, hpredicted, hexperts, Option.bind_eq_bind, Option.bind_some]
  exact ⟨_, rfl, ⟨hunion, hnew⟩, hle'⟩

theorem scoreAll_isSome (hmax : 0 ≤ (g.expertMax + 63).tdiv 64) (routing : Nat → List TopkLayer) {p : Pruner}
    (hp : Sized g p) :
    ∀ (cs : List Proposal) {m : Int}, g.expertMax ≤ m →
      ∃ r, scoreAll g o routing step p cs m = some r ∧ (∀ c ∈ r.1, c.Sized g) ∧ g.expertMax ≤ r.2
  | [], m, hle => ⟨_, rfl, fun c hc => absurd hc List.not_mem_nil, hle⟩
  | c :: cs, m, hle => by
    obtain ⟨r, hr, hsized, hle'⟩ := @scoreCand_isSome g o step hmax routing p hp m hle c
    obtain ⟨rs, hrs, hall, hle''⟩ := scoreAll_isSome hmax routing hp cs hle'
    refine ⟨(r.1 :: rs.1, rs.2), ?_, fun d hd => ?_, hle''⟩
    · rw [scoreAll, hr, Option.bind_eq_bind, Option.bind_some, hrs]
      rfl
    · rcases List.mem_cons.mp hd with rfl | hd
      · exact hsized
      · exact hall d hd

theorem payFor_isSome {uCache : ExpertLayers} (h : Kept g uCache) {c : Scored} (hc : c.Sized g) :
    ∃ r, payFor uCache c = some r ∧ Kept g r := by
  rw [payFor]
  split_ifs with hmoe
  · obtain ⟨r, hr, hkept, _⟩ := h.orWith (hc.newExperts hmoe).wide
    exact ⟨r, hr, hkept⟩
  · exact ⟨uCache, rfl, h⟩

theorem Sized.select {p : Pruner} (h : Sized g p) {c : Scored} (hc : c.Sized g) {uCache : ExpertLayers}
    (hkept : Kept g uCache) :
    Sized g (p.select cfg step c uCache) where
  uCache := hkept
  seqU s := by
    show Kept g (Function.update p.seqU c.seq c.unionExperts s)
    by_cases hs : s = c.seq
    · rw [hs, Function.update_self]
      exact hc.unionExperts
    · rw [Function.update_of_ne hs]
      exact h.seqU s
  expertMax := h.expertMax

theorem selectScored_isSome : ∀ (cs : List Scored) {p : Pruner} (sel : List Nat), Sized g p → (∀ c ∈ cs, c.Sized g) →
    ∃ r, selectScored cfg g step cs p sel = some r ∧ Sized g r.1
  | [], _, _, hp, _ => ⟨_, rfl, hp⟩
  | c :: cs, p, sel, hp, hall => by
    have hrest := fun d hd => hall d (List.mem_cons_of_mem _ hd)
    rw [selectScored]
    split_ifs
    · exact ⟨_, rfl, hp⟩
    · exact selectScored_isSome cs sel hp hrest
    · exact selectScored_isSome cs sel hp hrest
    · exact ⟨_, rfl, hp⟩
    · obtain ⟨uCache, hpay, hkept⟩ := payFor_isSome hp.uCache (hall c List.mem_cons_self)
      rw [hpay, Option.bind_some]
      exact selectScored_isSome cs (c.seq :: sel) (hp.select (hall c List.mem_cons_self) hkept) hrest

theorem turn_isSome (hmax : 0 ≤ (g.expertMax + 63).tdiv 64) {p : Pruner} (hp : Sized g p) (cands : Nat → Candidates)
    (routing : Nat → List TopkLayer) : ∃ r, p.turn cfg g o step cands routing = some r ∧ Sized g r.2 := by
  rw [Pruner.turn]
  dsimp only
  split_ifs
  · exact ⟨_, rfl, hp.uCache, hp.seqU, hp.expertMax⟩
  · obtain ⟨scored, hscored, hall, hle⟩ := @scoreAll_isSome g o step hmax routing p hp
      (proposals cfg step cands p.tree).2 _ hp.expertMax
    have hsel : Sized g { p with tree := (proposals cfg step cands p.tree).1, expertMax := scored.2 } :=
      ⟨hp.uCache, hp.seqU, hle⟩
    obtain ⟨r, hr, hsized⟩ := @selectScored_isSome cfg g step (o.sort scored.1) _ [] hsel
      fun c hc => hall c ((o.perm scored.1).subset hc)
    rw [hscored, Option.bind_eq_bind, Option.bind_some, hr]
    exact ⟨_, rfl, hsized.uCache, hsized.seqU, hsized.expertMax⟩

theorem draftTreeScored_isSome (hmax : 0 ≤ (g.expertMax + 63).tdiv 64) (oracle : Nat → Nat → Candidates)
    (routing : Nat → Nat → List TopkLayer) : ∀ (n step : Nat) {p : Pruner}, Sized g p →
    ∃ r, draftTreeScored cfg g o oracle routing n step p = some r
  | 0, _, p, _ => ⟨p, rfl⟩
  | n + 1, step, p, hp => by
    rw [draftTreeScored]
    split_ifs
    · obtain ⟨⟨goes, q⟩, hturn, hq⟩ := @turn_isSome cfg g o step hmax p hp (oracle step) (routing step)
      rw [hturn]
      cases goes with
      | true => exact draftTreeScored_isSome hmax oracle routing n (step + 1) hq
      | false => exact ⟨q, rfl⟩
    · exact ⟨p, rfl⟩

/-- **The drafter returns**, if its sets can be made: no operation reads outside a set. -/
theorem draftTreePruned_isSome (hmax : 0 ≤ (g.expertMax + 63).tdiv 64) (oracle : Nat → Nat → Candidates)
    (routing : Nat → Nat → List TopkLayer) (t : Drafting) : ∃ r, draftTreePruned cfg g o oracle routing t = some r := by
  obtain ⟨u, hu⟩ := @resize_isSome g.nLayers g.expertMax g.expertMax hmax le_rfl
  have hshape := resize_shape hu
  rw [draftTreePruned, startScored, hu, Option.map_some, Option.bind_some]
  exact draftTreeScored_isSome hmax oracle routing cfg.nDraft 0 ⟨hshape.clear, fun _ => hshape, le_rfl⟩

end Sized

end S2Moe.Draft.Target
