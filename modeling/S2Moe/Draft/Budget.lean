import S2Moe.Draft.Scored

/-!
# The budget of a draft tree

The selection charges a node for the experts that `u_cache` did not have when its turn was scored. Another node of the
same turn may have brought them in since.

* `Bounded` : nodes, depths, rows and the budget; `routedCharge` : what is charged for nodes with routing;
* `Paid` : the charges against what `u_cache` has;
* `selectScored_paid`, `turn_paid` : a selection and a turn keep both;
* `draftTreePruned_budget` : when every pair is charged once.
-/

namespace S2Moe.Draft.Target
open S2Moe.Lib
open S2Moe.Spec (Token)
open S2Moe.Prune

/-- The minimum charge of the first turn, for a node that needs no new experts. -/
def Selection.minimum (s : Selection) : Bool := decide (s.cand.depth = 1) && decide (s.cand.newExperts.popcount = 0)

/-- The charge for the nodes with routing, except for the minimum charge. -/
def routedCharge (chosen : List Selection) : Rat :=
  ((chosen.filter fun s => s.cand.hasMoe && !s.minimum).map fun s => s.cand.deltaC).sum

/-- The new experts of the nodes with routing, node by node. -/
def routedExperts (chosen : List Selection) : Nat :=
  ((chosen.filter fun s => s.cand.hasMoe).map fun s => s.cand.newExperts.popcount).sum

/-- None of the new experts of a node were paid for when it was selected. -/
def Selection.Fresh (s : Selection) : Prop := s.cand.hasMoe = true → Disjoint s.cand.newExperts.pairs s.before.pairs

/-- A candidate of turn `step`, with its charge. -/
structure Scored.Priced (g : PruneConfig) (step : Nat) (c : Scored) : Prop where
  depth : c.depth = step + 1
  deltaC : c.deltaC = chargeOf g step c.hasMoe c.newExperts

/-- The bounds. -/
structure Bounded (cfg : Config) (g : PruneConfig) (p : Pruner) : Prop where
  count : p.chosen.length = p.selectedNodes
  nodes : p.selectedNodes ≤ max 1 cfg.maxNodes
  depth : ∀ s ∈ p.chosen, s.cand.depth ≤ max 1 cfg.maxDepth
  rows : p.tree.batchTgt.length ≤ max 1 cfg.nDraft
  spent : p.budgetUsed = (p.chosen.map fun s => s.cand.deltaC).sum
  budget : 0 < g.budgetB → p.budgetUsed ≤ g.budgetB

/-- The charges, and the pairs of `u_cache`: there are no more than were charged, and as many only if all were fresh. -/
structure Paid (g : PruneConfig) (p : Pruner) : Prop where
  priced : ∀ s ∈ p.chosen, ∃ step, s.cand.Priced g step
  le : p.uCache.pairs.card ≤ routedExperts p.chosen
  eq_iff : p.uCache.pairs.card = routedExperts p.chosen ↔ ∀ s ∈ p.chosen, s.Fresh

section Charges
variable {cfg : Config} {g : PruneConfig} {o : Policy} {step : Nat}

/-- A node without the minimum charge costs what its new experts cost. -/
theorem Scored.Priced.routed {s : Selection} (h : s.cand.Priced g step) (hmoe : s.cand.hasMoe = true)
    (hmin : s.minimum = false) :
    s.cand.deltaC = s.cand.newExperts.popcount * g.cost := by
  rw [h.deltaC, chargeOf, hmoe, if_pos rfl]
  split_ifs with hzero
  · have hpop : s.cand.newExperts.popcount ≠ 0 := by
      intro hpop
      rw [Selection.minimum, decide_eq_true (show s.cand.depth = 1 by rw [h.depth, hzero.1]), decide_eq_true hpop] at hmin
      cases hmin
    have hcost : g.cost = 0 := (mul_eq_zero.mp hzero.2).resolve_left (Nat.cast_ne_zero.mpr hpop)
    rw [hcost, mul_zero]
  · rfl

/-- With exact arithmetic the charge is a multiple of the cost of an expert. -/
theorem routedCharge_eq : ∀ (chosen : List Selection), (∀ s ∈ chosen, ∃ step, s.cand.Priced g step) →
    routedCharge chosen = routedExperts chosen * g.cost
  | [], _ => by simp [routedCharge, routedExperts]
  | s :: chosen, h => by
    have ih := routedCharge_eq chosen fun x hx => h x (List.mem_cons_of_mem _ hx)
    obtain ⟨step, hs⟩ := h s List.mem_cons_self
    rw [routedCharge] at ih ⊢
    rw [routedExperts] at ih ⊢
    cases hmoe : s.cand.hasMoe with
    | false =>
      rw [List.filter_cons_of_neg (by simp [hmoe]), List.filter_cons_of_neg (by simp [hmoe])]
      exact ih
    | true =>
      rw [List.filter_cons_of_pos (l := chosen) (p := fun s : Selection => s.cand.hasMoe) hmoe]
      cases hmin : s.minimum with
      | true =>
        have hpop : s.cand.newExperts.popcount = 0 := by
          rw [Selection.minimum, Bool.and_eq_true] at hmin
          exact of_decide_eq_true hmin.2
        rw [List.filter_cons_of_neg (by simp [hmin]), ih, List.map_cons, List.sum_cons, hpop, Nat.zero_add]
      | false =>
        rw [List.filter_cons_of_pos (by simp [hmoe, hmin]), List.map_cons, List.sum_cons, List.map_cons, List.sum_cons, ih,
          hs.routed hmoe hmin, Nat.cast_add, add_mul]

/-- **The charge is that of the pairs in `u_cache`** exactly if all new experts were fresh. -/
theorem Paid.charge_iff {p : Pruner} (h : Paid g p) :
    routedCharge p.chosen = p.uCache.pairs.card * g.cost ↔ g.cost = 0 ∨ ∀ s ∈ p.chosen, s.Fresh := by
  rw [routedCharge_eq p.chosen h.priced, mul_eq_mul_right_iff, Nat.cast_inj, or_comm, eq_comm (b := p.uCache.pairs.card),
    h.eq_iff]

theorem routedExperts_append (chosen : List Selection) (s : Selection) :
    routedExperts (chosen ++ [s]) = routedExperts chosen + if s.cand.hasMoe then s.cand.newExperts.popcount else 0 := by
  rw [routedExperts, routedExperts, List.filter_append, List.map_append, List.sum_append]
  cases hmoe : s.cand.hasMoe with
  | true => simp [hmoe]
  | false => simp [hmoe]

/-- What a selection adds to `u_cache`. -/
theorem payFor_pairs {p : Pruner} (hp : Sized g p) {c : Scored} (hc : c.Sized g) {uCache : ExpertLayers}
    (h : payFor p.uCache c = some uCache) :
    uCache.pairs = if c.hasMoe then p.uCache.pairs ∪ c.newExperts.pairs else p.uCache.pairs := by
  rw [payFor] at h
  split_ifs at h ⊢ with hmoe
  · obtain ⟨r, hr, _, hsets⟩ := hp.uCache.orWith (hc.newExperts hmoe).wide
    obtain rfl : uCache = r := Option.some.inj (h.symm.trans hr)
    exact pairs_union (hsets (hc.newExperts hmoe))
  · cases h
    rfl

/-- **One selection**: the pairs grow by what was charged, unless some were there. -/
theorem Paid.select {p : Pruner} (h : Paid g p) (hp : Sized g p) {c : Scored} (hc : c.Sized g) (hprice : c.Priced g step)
    {uCache : ExpertLayers} (hpay : payFor p.uCache c = some uCache) : Paid g (p.select cfg step c uCache) := by
  have hpairs := payFor_pairs hp hc hpay
  have hmem : ∀ {P : Selection → Prop}, (∀ s ∈ p.chosen ++ [⟨c, p.uCache⟩], P s) ↔ (∀ s ∈ p.chosen, P s) ∧
    P ⟨c, p.uCache⟩ := by
    intro P
    simp only [List.mem_append, List.mem_singleton, or_imp, forall_and, forall_eq]
  have hle := h.le
  have heq := h.eq_iff
  refine ⟨hmem.mpr ⟨h.priced, step, hprice⟩, ?_, ?_⟩
  · show uCache.pairs.card ≤ routedExperts (p.chosen ++ [⟨c, p.uCache⟩])
    rw [routedExperts_append, hpairs]
    dsimp only
    split_ifs
    · have hunion := Finset.card_union_le p.uCache.pairs c.newExperts.pairs
      rw [card_pairs]
      omega
    · exact hle
  · show uCache.pairs.card = routedExperts (p.chosen ++ [⟨c, p.uCache⟩]) ↔ ∀ s ∈ p.chosen ++ [⟨c, p.uCache⟩], s.Fresh
    rw [hmem, ← heq, routedExperts_append, hpairs]
    dsimp only [Selection.Fresh]
    split_ifs with hmoe
    · have hunion := Finset.card_union_le p.uCache.pairs c.newExperts.pairs
      have hiff := Finset.card_union_eq_card_add_card (s := p.uCache.pairs) (t := c.newExperts.pairs)
      rw [disjoint_comm] at hiff
      rw [card_pairs, forall_prop_of_true hmoe, ← hiff]
      omega
    · simp [hmoe]

end Charges

/-! ## The turns -/

section Turns
variable {cfg : Config} {g : PruneConfig} {o : Policy} {step : Nat}

theorem length_addSeq (n : Nat) : ∀ (idxs : List Nat) (rows : List Row), (addSeq n idxs rows).length = rows.length
  | [], _ => rfl
  | k :: idxs, rows => by rw [addSeq, length_addSeq n idxs, List.length_modify]

/-- A selected node gets one row. -/
theorem length_choose (t : Drafting) (c : Cand) : (t.choose cfg step c).batchTgt.length = t.batchTgt.length + 1 := by
  rw [Drafting.choose]
  show (List.length (_ ++ [_])) = _
  rw [List.length_append, List.length_singleton]
  split_ifs
  · rw [length_addSeq]
  · rfl

theorem Bounded.select {p : Pruner} (h : Bounded cfg g p) {c : Scored} (hnodes : p.selectedNodes < max 1 cfg.maxNodes)
    (hdepth : c.depth ≤ max 1 cfg.maxDepth) (hpass : passes g step p.budgetUsed c = true)
    (hrows : p.tree.batchTgt.length < cfg.nDraft) (uCache : ExpertLayers) : Bounded cfg g (p.select cfg step c uCache) where
  count := by
    show (p.chosen ++ [_]).length = p.selectedNodes + 1
    rw [List.length_append, h.count, List.length_singleton]
  nodes := hnodes
  depth := by
    intro s hs
    rcases List.mem_append.mp hs with hs | hs
    · exact h.depth s hs
    · rw [List.mem_singleton.mp hs]
      exact hdepth
  rows := by
    show (p.tree.choose cfg step c.toCand).batchTgt.length ≤ _
    rw [length_choose]
    omega
  spent := by
    show p.budgetUsed + c.deltaC = ((p.chosen ++ [Selection.mk c p.uCache]).map fun s => s.cand.deltaC).sum
    rw [List.map_append, List.sum_append, ← h.spent, List.map_singleton, List.sum_singleton]
  budget := by
    intro hpos
    rw [passes, Bool.and_eq_true, decide_eq_true hpos, Bool.true_and, Bool.not_eq_true', decide_eq_false_iff_not,
      not_lt] at hpass
    exact hpass.1

/-- The invariant of the drafter. -/
structure Charged (cfg : Config) (g : PruneConfig) (p : Pruner) : Prop where
  bounded : Bounded cfg g p
  paid : Paid g p
  sized : Sized g p

/-- The selection keeps it. -/
theorem selectScored_charged : ∀ (cs : List Scored) {p : Pruner} (sel : List Nat) {r : Pruner × List Nat}, Charged cfg g p →
    (∀ c ∈ cs, c.Sized g ∧ c.Priced g step) → selectScored cfg g step cs p sel = some r → Charged cfg g r.1
  | [], _, _, _, hp, _, h => by
    cases h
    exact hp
  | c :: cs, p, sel, r, hp, hall, h => by
    obtain ⟨hsized, hprice⟩ := hall c List.mem_cons_self
    have hrest := fun d hd => hall d (List.mem_cons_of_mem _ hd)
    rw [selectScored] at h
    split_ifs at h with hnodes hdepth hpass hrows
    · cases h
      exact hp
    · exact selectScored_charged cs sel hp hrest h
    · exact selectScored_charged cs sel hp hrest h
    · cases h
      exact hp
    · obtain ⟨uCache, hpay, h⟩ := Option.bind_eq_some_iff.mp h
      obtain ⟨kept, hkept, hshape⟩ := payFor_isSome hp.sized.uCache hsized
      obtain rfl : uCache = kept := Option.some.inj (hpay.symm.trans hkept)
      refine selectScored_charged cs (c.seq :: sel) ⟨?_, hp.paid.select hp.sized hsized hprice hpay, ?_⟩ hrest h
      · exact hp.bounded.select (not_le.mp hnodes) (not_lt.mp hdepth) (Bool.not_eq_false _ |>.mp hpass)
          (not_le.mp hrows) uCache
      · exact hp.sized.select hsized hshape

theorem addProposals_depth (parent : Nat) (c : Candidates) : ∀ (sa : List Nat) (k : Nat) (r : Drafting × List Proposal),
    (∀ d ∈ r.2, d.depth = step + 1) → (addProposals step parent c sa k r).1.batchTgt = r.1.batchTgt ∧
      ∀ d ∈ (addProposals step parent c sa k r).2, d.depth = step + 1
  | [], _, _, h => ⟨rfl, h⟩
  | s :: sa, k, (t, cs), h => by
    refine addProposals_depth parent c sa (k + 1) _ fun d hd => ?_
    rcases List.mem_append.mp hd with hd | hd
    · exact h d hd
    · rw [List.mem_singleton.mp hd]

theorem splitsPrune_batchTgt (c : Candidates) (s : Nat) : ∀ (fs : List Nat) (t : Drafting) (sa : List Nat),
    (splitsPrune cfg c s fs t sa).1.batchTgt = t.batchTgt
  | [], _, _ => rfl
  | f :: fs, t, sa => by
    rw [splitsPrune]
    split_ifs
    · exact splitsPrune_batchTgt c s fs _ _
    · exact splitsPrune_batchTgt c s fs t sa

/-- Candidates get no rows of `batch_tgt` yet. -/
theorem proposals_depth (cands : Nat → Candidates) (t : Drafting) :
    (proposals cfg step cands t).1.batchTgt = t.batchTgt ∧ ∀ c ∈ (proposals cfg step cands t).2, c.depth = step + 1 := by
  refine foldl_range_rule (f := proposeSeq cfg step cands) (s := (t.startTurn, []))
    (P := fun _ r => r.1.batchTgt = t.batchTgt ∧ ∀ c ∈ r.2, c.depth = step + 1)
    ⟨rfl, fun c hc => absurd hc List.not_mem_nil⟩ cfg.nSeqDft fun s _ r hr => ?_
  rw [proposeSeq]
  dsimp only
  split_ifs
  · exact hr
  · obtain ⟨hrows, hdepth⟩ := addProposals_depth s (cands s)
      (splitsPrune cfg (cands s) s (List.range' 1 (nCandidates cfg step (cands s) r.1 - 1)) r.1 [s]).2 0
      ((splitsPrune cfg (cands s) s (List.range' 1 (nCandidates cfg step (cands s) r.1 - 1)) r.1 [s]).1, r.2) hr.2
    exact ⟨hrows.trans ((splitsPrune_batchTgt _ _ _ _ _).trans hr.1), hdepth⟩
  · exact hr

theorem foldl_takeBack_batchTgt : ∀ (ss : List Nat) (t : Drafting), (ss.foldl Drafting.takeBack t).batchTgt = t.batchTgt
  | [], _ => rfl
  | s :: ss, t => foldl_takeBack_batchTgt ss (t.takeBack s)

/-- **A turn keeps the bounds and the charges.** -/
theorem turn_charged {cands : Nat → Candidates} {routing : Nat → List TopkLayer} {p p' : Pruner} {goes : Bool}
    (hmax : 0 ≤ (g.expertMax + 63).tdiv 64) (hp : Charged cfg g p) (h : p.turn cfg g o step cands routing = some (goes, p')) :
    Charged cfg g p' := by
  obtain ⟨hrows, hdepth⟩ := @proposals_depth cfg step cands p.tree
  have hb := hp.bounded
  rcases turn_cases h with ⟨_, _, rfl⟩ | ⟨_, scored, r, hscored, hr, _, rfl⟩
  · exact ⟨⟨hb.count, hb.nodes, hb.depth, hrows ▸ hb.rows, hb.spent, hb.budget⟩, ⟨hp.paid.priced, hp.paid.le, hp.paid.eq_iff⟩,
      ⟨hp.sized.uCache, hp.sized.seqU, hp.sized.expertMax⟩⟩
  · obtain ⟨scored', hscored', hsized, hle⟩ := @scoreAll_isSome g o step hmax routing p hp.sized
      (proposals cfg step cands p.tree).2 _
      hp.sized.expertMax
    obtain rfl : scored = scored' := Option.some.inj (hscored.symm.trans hscored')
    have hall : ∀ c ∈ o.sort scored.1, c.Sized g ∧ c.Priced g step := by
      intro c hc
      have hc := (o.perm scored.1).subset hc
      obtain ⟨hmap, hone⟩ := scoreAll_spec hscored
      obtain ⟨m, r', hr', rfl⟩ := hone c hc
      obtain ⟨_, hdelta, _⟩ := scoreCand_spec hr'
      refine ⟨hsized _ hc, hdepth _ ?_, hdelta⟩
      rw [← hmap]
      exact List.mem_map_of_mem hc
    have hstart : Charged cfg g { p with tree := (proposals cfg step cands p.tree).1, expertMax := scored.2 } :=
      ⟨⟨hb.count, hb.nodes, hb.depth, hrows ▸ hb.rows, hb.spent, hb.budget⟩, ⟨hp.paid.priced, hp.paid.le, hp.paid.eq_iff⟩,
        ⟨hp.sized.uCache, hp.sized.seqU, hle⟩⟩
    obtain ⟨hb', hpaid, hs'⟩ := selectScored_charged _ [] hstart hall hr
    refine ⟨⟨hb'.count, hb'.nodes, hb'.depth, ?_, hb'.spent, hb'.budget⟩, ⟨hpaid.priced, hpaid.le, hpaid.eq_iff⟩,
      ⟨hs'.uCache, hs'.seqU, hs'.expertMax⟩⟩
    show (List.foldl Drafting.takeBack r.1.tree _).batchTgt.length ≤ _
    rw [foldl_takeBack_batchTgt]
    exact hb'.rows

/-- Nothing is charged at the start. -/
theorem startScored_charged (tok : Token) (drafts : Nat → SeqDraft) {p : Pruner}
    (h : startScored g (startRound cfg tok drafts) = some p) : Charged cfg g p := by
  obtain ⟨u, hu, rfl⟩ := Option.map_eq_some_iff.mp h
  have hshape := resize_shape hu
  have hempty : u.clear.pairs = ∅ := by
    apply Finset.eq_empty_of_forall_notMem
    intro x hx
    have hids : u.clear.ids x.1 = ∅ := congrFun (congrArg Sets.ids (sets_clear u)) x.1
    rw [mem_pairs, hids] at hx
    exact Finset.notMem_empty _ hx
  refine ⟨⟨rfl, Nat.zero_le _, fun s hs => absurd hs List.not_mem_nil, le_max_left 1 _, rfl, fun hpos => hpos.le⟩, ?_, ?_⟩
  · refine ⟨fun s hs => absurd hs List.not_mem_nil, ?_, ?_⟩
    · show u.clear.pairs.card ≤ 0
      rw [hempty]
      exact le_rfl
    · show u.clear.pairs.card = 0 ↔ _
      rw [hempty]
      exact ⟨fun _ s hs => absurd hs List.not_mem_nil, fun _ => rfl⟩
  · exact ⟨hshape.clear, fun _ => hshape, le_rfl⟩

end Turns

/-- **The budget of `draft_tree_prune`.** Nodes, depths, rows and the budget are kept in every run. The nodes with routing
are charged for what `u_cache` has, the minimum charge apart, exactly if no node is selected whose new experts another
node of its turn has brought in. -/
theorem draftTreePruned_budget (cfg : Config) (g : PruneConfig) (o : Policy) (oracle : Nat → Nat → Candidates)
    (routing : Nat → Nat → List TopkLayer) (tok : Token) (drafts : Nat → SeqDraft) :
    (draftTreePruned cfg g o oracle routing (startRound cfg tok drafts) = none ↔ ExpertSet.new g.expertMax = none) ∧
      ∀ r, draftTreePruned cfg g o oracle routing (startRound cfg tok drafts) = some r →
        (r.chosen.length ≤ max 1 cfg.maxNodes ∧ (∀ s ∈ r.chosen, s.cand.depth ≤ max 1 cfg.maxDepth) ∧
          r.tree.batchTgt.length ≤ max 1 cfg.nDraft ∧
          (0 < g.budgetB → (r.chosen.map fun s => s.cand.deltaC).sum ≤ g.budgetB)) ∧
        (routedCharge r.chosen = r.uCache.pairs.card * g.cost ↔ g.cost = 0 ∨ ∀ s ∈ r.chosen, s.Fresh) := by
  have hnew : ExpertSet.new g.expertMax = none ↔ ¬ 0 ≤ (g.expertMax + 63).tdiv 64 := by
    rw [ExpertSet.new, ite_eq_right_iff]
    exact ⟨fun h hmax => (Option.some_ne_none _ (h hmax)), fun h hmax => absurd hmax h⟩
  have hnone : ¬ 0 ≤ (g.expertMax + 63).tdiv 64 →
      draftTreePruned cfg g o oracle routing (startRound cfg tok drafts) = none := by
    intro hmax
    rw [draftTreePruned, startScored, ExpertLayers.resize, hnew.mpr hmax]
    rfl
  refine ⟨⟨fun h => hnew.mpr fun hmax => ?_, fun h => hnone (hnew.mp h)⟩, fun r hr => ?_⟩
  · obtain ⟨r, hr⟩ := @draftTreePruned_isSome cfg g o hmax oracle routing (startRound cfg tok drafts)
    rw [h] at hr
    cases hr
  · have hmax : 0 ≤ (g.expertMax + 63).tdiv 64 := by
      by_contra hmax
      rw [hnone hmax] at hr
      cases hr
    obtain ⟨p, hstart, hrun⟩ := Option.bind_eq_some_iff.mp hr
    have hcharged := draftTreeScored_rule oracle routing (fun _ _ _ _ hp hturn => turn_charged hmax hp hturn) cfg.nDraft 0
      (startScored_charged tok drafts hstart) hrun
    have hb := hcharged.bounded
    exact ⟨⟨hb.count.le.trans hb.nodes, hb.depth, hb.rows, fun hpos => hb.spent ▸ hb.budget hpos⟩, hcharged.paid.charge_iff⟩

/-! ## Two branches that are routed to one expert -/

/-- Scores that are equal stay in order. -/
def sortScored (cs : List Scored) : List Scored := cs.insertionSort fun x y => y.score ≤ x.score

def plainPolicy : Policy where
  tae _ := 1 / 2
  alpha _ _ := 1
  shuffle _ ps := ps
  pick _ _ _ := 0
  sort := sortScored
  perm := List.perm_insertionSort _
  sorted cs := by
    have htotal : Std.Total fun x y : Scored => y.score ≤ x.score := ⟨fun x y => le_total y.score x.score⟩
    have htrans : IsTrans Scored fun x y : Scored => y.score ≤ x.score := ⟨fun _ _ _ hxy hyz => hyz.trans hxy⟩
    exact List.pairwise_insertionSort _ cs

def twoBranches : Config := ⟨2, Nat.zero_lt_two, 8, 0, 0, 3, 8⟩

def unitCost : PruneConfig where
  nLayers := 1
  expertMax := 64
  budgetB := 10
  mRoute := 8
  kTgt := 8
  tpot := 1
  eps := 1
  expertBytes := 1
  bandwidth := 1
  confThresh := 0
  scoreThresh := 0
  routingNoise := 0
  routingNoiseExperts := 0

/-- The second turn has two tokens to choose from, the others have one. -/
def branchOnce (step _s : Nat) : Candidates := if step = 1 then ⟨2, fun k => ⟨7 + k, 1 / 2⟩⟩ else ⟨1, fun _ => ⟨7, 1⟩⟩

/-- Every row of the third decode is routed to expert 5. -/
def expertFive (step _row : Nat) : List TopkLayer := if step = 2 then [⟨0, [5], [1]⟩] else []

def branchRun : Option Pruner := draftTreePruned twoBranches unitCost plainPolicy branchOnce expertFive
    (startRound twoBranches 3 fun _ => {})

theorem branchRun_spec : ∃ r, branchRun = some r ∧ r.chosen.length = 5 ∧ routedCharge r.chosen = 2 ∧
    r.uCache.pairs.card = 1 := by
  have hrun : (branchRun.map fun r => (r.chosen.length, routedCharge r.chosen, r.uCache.pairs.card)) = some (5, 2, 1) := by
    decide +kernel
  obtain ⟨r, hr, hval⟩ := Option.map_eq_some_iff.mp hrun
  obtain ⟨hlen, hval⟩ := Prod.mk.inj hval
  exact ⟨r, hr, hlen, Prod.mk.inj hval⟩

/-- The bounds hold there, and a node is selected whose expert has been paid for. -/
theorem draftTreePruned_budget_branchRun : ∃ r, branchRun = some r ∧ r.chosen.length = 5 ∧
    (r.chosen.map fun s => s.cand.deltaC).sum ≤ 10 ∧ ¬ ∀ s ∈ r.chosen, s.Fresh := by
  obtain ⟨r, hr, hlen, hcharge, hcard⟩ := branchRun_spec
  obtain ⟨⟨_, _, _, hbudget⟩, hiff⟩ :=
    (draftTreePruned_budget twoBranches unitCost plainPolicy branchOnce expertFive 3 fun _ => {}).2 r hr
  refine ⟨r, hr, hlen, hbudget (by decide), fun hfresh => ?_⟩
  have heq := hiff.mpr (.inr hfresh)
  rw [hcharge, hcard] at heq
  norm_num [PruneConfig.cost, unitCost] at heq

/-- **Two nodes of a turn pay for one expert.** -/
theorem charged_twice : ¬ ∀ (cfg : Config) (g : PruneConfig) (o : Policy) (oracle : Nat → Nat → Candidates)
    (routing : Nat → Nat → List TopkLayer) (tok : Token) (drafts : Nat → SeqDraft) (r : Pruner), 0 < g.budgetB →
      draftTreePruned cfg g o oracle routing (startRound cfg tok drafts) = some r →
      routedCharge r.chosen = r.uCache.pairs.card * g.cost := by
  intro h
  obtain ⟨r, hr, _, hcharge, hcard⟩ := branchRun_spec
  have heq := h twoBranches unitCost plainPolicy branchOnce expertFive 3 (fun _ => {}) r (by decide) hr
  rw [hcharge, hcard] at heq
  norm_num [PruneConfig.cost, unitCost] at heq

end S2Moe.Draft.Target
