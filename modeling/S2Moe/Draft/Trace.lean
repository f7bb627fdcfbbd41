import S2Moe.Draft.Budget
import S2Moe.Draft.Counters

/-!
# The trace of the rounds

`draft_tree_prune` records a node for each token that it selects. `main` keeps the nodes of a round and marks, at each
acceptance, the first node with the sequence and the token that were accepted.

* `TraceNode`, `StepTrace` : what is recorded; `markAccepted`, `StepTrace.complete` : the update of a verification;
* `Tracing.step` : the outer loop with `g_all_traces`, for one question after the other;
* `Verdict.expected`, `Attributed` : what the traces should say;
* `Found` : the first such node is the one on the accepted branch;
* `reaches_attributed` : the traces are right in runs where it is, and where a round without nodes overwrites nothing.
-/

namespace S2Moe.Draft.Target
open S2Moe.Lib
open S2Moe.Spec (Candidate Token Acceptance Draw activeSeqs tokensOf roundFuel verify verify_rule)
open S2Moe.Prune

section Code

/-- `TraceNode`, without its text, its experts and its logits. -/
structure TraceNode where
  nodeId : Nat
  parentId : Nat
  tokenId : Token
  depth : Nat
  confidence : Rat
  cost : Rat
  accepted : Bool := false
  tmpTargetBatchIdx : Nat

/-- `StepTrace`, without the times and the reads. -/
structure StepTrace where
  stepIdx : Nat := 0
  generatedTokens : Nat := 0
  totalCost : Rat := 0
  effectiveCost : Rat := 0
  redundantCost : Rat := 0
  nodes : List TraceNode := []

/-- The node of a selection, with the row that its token gets. -/
def Selection.node (s : Selection) (targetIdx : Nat) : TraceNode where
  nodeId := s.cand.seq
  parentId := s.cand.parentSeq
  tokenId := s.cand.id
  depth := s.cand.depth
  confidence := s.cand.cT
  cost := s.cand.deltaC
  tmpTargetBatchIdx := targetIdx

/-- Row 0 has the sampled token. -/
def traceNodes (chosen : List Selection) : List TraceNode := chosen.mapIdx fun k s => s.node (k + 1)

/-- `current_trace` behind `draft_tree_prune`. -/
def drawTrace (stepIdx : Nat) (chosen : List Selection) : StepTrace :=
  { stepIdx := stepIdx, totalCost := (chosen.map fun s => s.cand.deltaC).sum, nodes := traceNodes chosen }

/-- The loop that looks for the accepted node. -/
def markAccepted (sKeep : Nat) (token : Token) : List TraceNode → List TraceNode
  | [] => []
  | n :: ns =>
    if n.nodeId = sKeep ∧ n.tokenId = token then { n with accepted := true } :: ns else n :: markAccepted sKeep token ns

def markAll (acc : List Acceptance) (nodes : List TraceNode) : List TraceNode :=
  acc.foldl (fun nodes e => markAccepted e.seq e.token nodes) nodes

/-- The update behind the verification. -/
def StepTrace.complete (tr : StepTrace) (generated : Nat) : StepTrace :=
  { tr with
    generatedTokens := generated
    effectiveCost := ((tr.nodes.filter TraceNode.accepted).map TraceNode.cost).sum
    redundantCost := ((tr.nodes.filter fun n => !n.accepted).map TraceNode.cost).sum }

/-- A round that was verified: its trace as it was recorded, the rows of the accepted tokens, and how many tokens there
were. -/
structure Verdict where
  trace : StepTrace
  rows : List Nat
  emitted : Nat

/-- `allTraces` is `g_all_traces`. The verdicts are no part of the program. -/
structure Tracing where
  drafts : Nat → SeqDraft := fun _ => {}
  nPastTgt : Int
  nPredict : Nat := 0
  stepCount : Nat := 0
  sampled : Option Token := none
  currentTrace : StepTrace := {}
  allTraces : List StepTrace := []
  questionTraceStart : Nat := 0
  verdicts : List Verdict := []

namespace Tracing

/-- A verification, a draft, or the next question. -/
inductive Op
  | greedy (sample : List Token → Nat → Token)
  | stochastic (target : List Token → Nat → List Candidate) (draws : Nat → Draw) (tok : Token)
  | draft (nDraft : Nat) (o : Policy) (oracle : Nat → Nat → Candidates) (routing : Nat → Nat → List TopkLayer)
  | question (nInput : Int)

/-- The drafts, as verification reads them. -/
def view (p : Settings) (st : Tracing) : List Spec.SeqDraft :=
  Question.view p { drafts := st.drafts, nPastTgt := st.nPastTgt }

/-- `s_keep` behind the acceptances of a greedy verification. -/
def keptSeq (acc : List Acceptance) : Nat := (acc.getLast?.map Acceptance.seq).getD 0

/-- The acceptances, `s_keep` and the token that the verification ends with. -/
def accepts (p : Settings) (st : Tracing) : Op → Option (List Acceptance × Nat × Token)
  | .greedy sample =>
    (greedyRound sample (roundFuel (st.view p)) 0 0 [] (st.view p)).map fun r => (r.1, keptSeq r.1, r.2)
  | .stochastic target draws tok =>
    (verify target (fun s i => (st.drafts s).dists.getD i []) draws (st.view p)).map fun r => (r.accepted, r.sKeep, tok)
  | _ => none

/-- The rows `i_batch_tgt[1..a]` of the kept sequence. -/
def acceptedRows (st : Tracing) (sKeep a : Nat) : List Nat := ((st.drafts sKeep).iBatchTgt.drop 1).take a

/-- Behind a verification. -/
def update (st : Tracing) (acc : List Acceptance) (sKeep : Nat) (tok : Token) : Tracing :=
  let nPredict := st.nPredict + (acc.length + 1)
  { st with
    nPastTgt := st.nPastTgt + acc.length
    nPredict := nPredict
    sampled := some tok
    allTraces :=
      if st.questionTraceStart < st.allTraces.length then
        st.allTraces.modify (st.allTraces.length - 1) fun tr =>
          { tr with nodes := markAll acc tr.nodes }.complete (nPredict - st.nPredict)
      else st.allTraces
    verdicts :=
      if st.currentTrace.nodes = [] then st.verdicts
      else st.verdicts ++ [⟨st.currentTrace, st.acceptedRows sKeep acc.length, nPredict - st.nPredict⟩] }

/-- Behind a draft, and the decode of the target. -/
def record (st : Tracing) (r : Pruner) : Tracing :=
  let trace := drawTrace st.stepCount r.chosen
  { st with
    drafts := eraseFront r.tree.drafts
    nPastTgt := st.nPastTgt + 1
    stepCount := st.stepCount + 1
    sampled := none
    currentTrace := trace
    allTraces := if trace.nodes = [] then st.allTraces else st.allTraces ++ [trace] }

/-- One half of the outer loop; behind a verification the question may also be over. -/
def step (p : Settings) (g : PruneConfig) (op : Op) (st : Tracing) : Option Tracing :=
  match st.sampled, op with
  | some tok, .draft nDraft o oracle routing =>
    let cfg := p.config nDraft st.nPastTgt
    (draftTreePruned cfg g o oracle routing (startRound cfg tok st.drafts)).map st.record
  | some _, .question nInput =>
    some { nPastTgt := nInput, allTraces := st.allTraces, questionTraceStart := st.allTraces.length, verdicts := st.verdicts }
  | none, op => (st.accepts p op).map fun r => st.update r.1 r.2.1 r.2.2
  | _, _ => none

/-- The first question, behind its prompt. -/
def start (nInput : Int) : Tracing := { nPastTgt := nInput }

end Tracing

end Code

section Spec

/-- The nodes of the accepted rows are marked. -/
def Verdict.expected (v : Verdict) : StepTrace :=
  { v.trace with nodes := v.trace.nodes.map fun n : TraceNode => { n with accepted := decide (n.tmpTargetBatchIdx ∈ v.rows) } }.complete v.emitted

namespace Tracing

/-- Each round that drafted a node has its trace, which its own verification completes. -/
def Attributed (st : Tracing) : Prop :=
  st.allTraces = st.verdicts.map Verdict.expected ++ if st.sampled = none ∧
    st.currentTrace.nodes ≠ [] then [st.currentTrace] else []

/-- What is accepted is on the branch that is kept, its nodes were created under the sequences that were kept when they were
accepted, and no earlier node has that sequence and that token. -/
structure Found (nodes : List TraceNode) (d : SeqDraft) (acc : List Acceptance) : Prop where
  branch : ∀ e ∈ acc, d.tokens[e.index]? = some e.token
  own : ∀ e ∈ acc, ∀ n ∈ nodes, d.iBatchTgt[e.index + 1]? = some n.tmpTargetBatchIdx → n.nodeId = e.seq
  first : ∀ e ∈ acc, ∀ n ∈ nodes, d.iBatchTgt[e.index + 1]? = some n.tmpTargetBatchIdx →
    ∀ m ∈ nodes, m.nodeId = n.nodeId → m.tokenId = n.tokenId → n.tmpTargetBatchIdx ≤ m.tmpTargetBatchIdx

/-- A round with nodes is verified along nodes that are found; in front of a round without nodes the last trace of the
question, if there is one, is of a round that emitted one token. -/
def Traceable (p : Settings) (st : Tracing) (op : Op) : Prop :=
  ∀ r, st.accepts p op = some r →
    if st.currentTrace.nodes = [] then
      st.questionTraceStart < st.allTraces.length → ∀ tr, st.allTraces.getLast? = some tr → tr.generatedTokens = 1
    else Found st.currentTrace.nodes (st.drafts r.2.1) r.1

end Tracing

end Spec

/-! ## The marks -/

section Marks

def TraceNode.mark (n : TraceNode) (b : Bool) : TraceNode := { n with accepted := n.accepted || b }

/-- `e` finds its node in row `k`. -/
def Finds (nodes : List TraceNode) (e : Acceptance) (k : Nat) : Prop :=
  ∃ n ∈ nodes, n.tmpTargetBatchIdx = k ∧ n.nodeId = e.seq ∧ n.tokenId = e.token ∧
    ∀ m ∈ nodes, m.nodeId = e.seq → m.tokenId = e.token → k ≤ m.tmpTargetBatchIdx

/-- The rows of the nodes grow. -/
def Ordered (nodes : List TraceNode) : Prop := nodes.Pairwise fun n m => n.tmpTargetBatchIdx < m.tmpTargetBatchIdx

theorem TraceNode.mark_false (n : TraceNode) : n.mark false = n := by
  rw [mark, Bool.or_false]

theorem TraceNode.mark_mark (n : TraceNode) (b c : Bool) : (n.mark b).mark c = n.mark (b || c) := by
  rw [mark, mark, mark, Bool.or_assoc]

theorem map_mark_false {nodes : List TraceNode} {b : TraceNode → Bool} (h : ∀ n ∈ nodes, b n = false) :
    nodes.map (fun n => n.mark (b n)) = nodes := by
  refine (List.map_congr_left fun n hn => ?_).trans (List.map_id nodes)
  rw [h n hn, TraceNode.mark_false]
  rfl

theorem markAccepted_eq {e : Acceptance} {k : Nat} : ∀ {nodes : List TraceNode}, Ordered nodes → Finds nodes e k →
    markAccepted e.seq e.token nodes = nodes.map fun n => n.mark (decide (n.tmpTargetBatchIdx = k))
  | [], _, ⟨n, hn, _⟩ => absurd hn List.not_mem_nil
  | m :: ms, hord, ⟨n, hn, hk, hseq, htok, hfirst⟩ => by
    obtain ⟨hlt, hrest⟩ := List.pairwise_cons.mp hord
    rw [markAccepted, List.map_cons]
    rcases List.mem_cons.mp hn with rfl | hn
    · have hother : ms.map (fun x => x.mark (decide (x.tmpTargetBatchIdx = k))) = ms := by
        apply map_mark_false
        intro x hx
        have := hlt x hx
        exact decide_eq_false (by omega)
      rw [if_pos ⟨hseq, htok⟩, hother, decide_eq_true hk, TraceNode.mark, Bool.or_true]
    · have hno : ¬ (m.nodeId = e.seq ∧ m.tokenId = e.token) := by
        intro hm
        have hle := hfirst m List.mem_cons_self hm.1 hm.2
        have := hlt n hn
        omega
      have hne : m.tmpTargetBatchIdx ≠ k := by
        have := hlt n hn
        omega
      rw [if_neg hno, markAccepted_eq hrest ⟨n, hn, hk, hseq, htok, fun x hx => hfirst x (List.mem_cons_of_mem m hx)⟩,
        decide_eq_false hne, TraceNode.mark_false]

theorem Ordered.map {nodes : List TraceNode} (h : Ordered nodes) (b : TraceNode → Bool) :
    Ordered (nodes.map fun n => n.mark (b n)) := List.pairwise_map.mpr h

theorem Finds.map {nodes : List TraceNode} {e : Acceptance} {k : Nat} (h : Finds nodes e k) (b : TraceNode → Bool) :
    Finds (nodes.map fun n => n.mark (b n)) e k := by
  obtain ⟨n, hn, hk, hseq, htok, hfirst⟩ := h
  refine ⟨n.mark (b n), List.mem_map_of_mem hn, hk, hseq, htok, fun m hm => ?_⟩
  obtain ⟨m', hm', rfl⟩ := List.mem_map.mp hm
  exact hfirst m' hm'

/-- **All acceptances mark their nodes**, and no others. -/
theorem markAll_eq (row : Acceptance → Nat) : ∀ (acc : List Acceptance) {nodes : List TraceNode}, Ordered nodes →
    (∀ e ∈ acc, Finds nodes e (row e)) → markAll acc nodes = nodes.map fun n =>
      n.mark (decide (n.tmpTargetBatchIdx ∈ acc.map row))
  | [], nodes, _, _ => (map_mark_false fun _ _ => decide_eq_false List.not_mem_nil).symm
  | e :: acc, nodes, hord, hfinds => by
    have hmark := markAccepted_eq hord (hfinds e List.mem_cons_self)
    have hrest := markAll_eq row acc (hord.map fun n => decide (n.tmpTargetBatchIdx = row e)) fun d hd =>
      (hfinds d (List.mem_cons_of_mem e hd)).map _
    rw [markAll, List.foldl_cons, hmark]
    refine hrest.trans ?_
    rw [List.map_map]
    refine List.map_congr_left fun n _ => ?_
    rw [Function.comp_apply, TraceNode.mark_mark, List.map_cons, ← Bool.decide_or]
    simp only [List.mem_cons]
    rfl

end Marks

/-! ## The verification -/

section Verification

/-- The acceptances go along active sequences, position by position. -/
def Along (drafts : List Spec.SeqDraft) (acc : List Acceptance) : Prop :=
  ∀ (k : Nat) (e : Acceptance), acc[k]? = some e → e.index = k ∧ e.seq ∈ activeSeqs drafts ∧
    (tokensOf drafts e.seq)[k]? = some e.token

theorem Along.append {drafts : List Spec.SeqDraft} {acc : List Acceptance} (h : Along drafts acc) {s : Nat} {x : Token}
    (hs : s ∈ activeSeqs drafts) (hx : (tokensOf drafts s)[acc.length]? = some x) :
    Along drafts (acc ++ [⟨s, acc.length, x⟩]) := by
  intro k e he
  rcases Nat.lt_trichotomy k acc.length with hk | rfl | hk
  · rw [List.getElem?_append_left hk] at he
    exact h k e he
  · rw [List.getElem?_concat_length] at he
    cases he
    exact ⟨rfl, hs, hx⟩
  · rw [List.getElem?_eq_none (by rw [List.length_append, List.length_singleton]; omega)] at he
    cases he

namespace Tracing

theorem keptSeq_concat (acc : List Acceptance) (e : Acceptance) : keptSeq (acc ++ [e]) = e.seq := by
  rw [keptSeq, List.getLast?_concat]
  rfl

/-- `s_keep` is the sequence that was accepted last. -/
theorem verifyRound_sKeep (target : List Token → Nat → List Candidate) (draws : Nat → Draw) : ∀ (fuel i sKeep : Nat)
    (acc : List Acceptance) (v : Spec.Verification) {r : Spec.RoundResult}, keptSeq acc = sKeep →
    Spec.verifyRound target draws fuel i sKeep acc v = some r → r.sKeep = keptSeq r.accepted
  | 0, _, _, _, _, _, _, h => by cases h
  | fuel + 1, i, sKeep, acc, v, r, hkeep, h => by
    rw [Spec.verifyRound] at h
    dsimp only at h
    split at h
    case h_1 s v _ =>
      exact verifyRound_sKeep target draws fuel (i + 1) s _ v (keptSeq_concat acc ⟨s, i, (v.tokens s).getD i 0⟩) h
    case h_2 =>
      cases h
      exact hkeep.symm

variable {p : Settings} {st : Tracing}

theorem accepts_spec {op : Op} {r : List Acceptance × Nat × Token} (h : st.accepts p op = some r) :
    r.2.1 = keptSeq r.1 ∧ ∀ (k : Nat) (e : Acceptance), r.1[k]? = some e →
      e.index = k ∧ (st.drafts e.seq).active = true ∧ (st.drafts e.seq).tokens[k]? = some e.token := by
  have hview : ∀ acc, Along (st.view p) acc → ∀ (k : Nat) (e : Acceptance), acc[k]? = some e →
      e.index = k ∧ (st.drafts e.seq).active = true ∧ (st.drafts e.seq).tokens[k]? = some e.token := by
    intro acc hacc k e he
    obtain ⟨hk, hs, hx⟩ := hacc k e he
    obtain ⟨hactive, htokens⟩ := Question.mem_activeSeqs_view hs
    exact ⟨hk, hactive, htokens ▸ hx⟩
  cases op with
  | greedy sample =>
    obtain ⟨q, hq, rfl⟩ := Option.map_eq_some_iff.mp h
    obtain ⟨q', n, hq', hlen, halong⟩ := greedy_rule sample (st.view p) (fun n acc => acc.length = n ∧ Along (st.view p) acc)
      ⟨rfl, fun k e he => by cases he⟩ fun i acc s x hI hs hx =>
        ⟨by rw [List.length_append, hI.1, List.length_singleton], hI.1 ▸ hI.2.append hs (hI.1 ▸ hx)⟩
    obtain rfl := Option.some.inj (hq.symm.trans hq')
    exact ⟨rfl, hview _ halong⟩
  | stochastic target draws tok =>
    obtain ⟨q, hq, rfl⟩ := Option.map_eq_some_iff.mp h
    obtain ⟨q', n, hq', hlen, halong⟩ := verify_rule target draws (fun s i => (st.drafts s).dists.getD i []) (st.view p)
      (fun n acc => acc.length = n ∧ Along (st.view p) acc) ⟨rfl, fun k e he => by cases he⟩ fun i acc s hI hs hlt => by
        obtain ⟨rfl, halong⟩ := hI
        refine ⟨by rw [List.length_append, List.length_singleton], halong.append hs ?_⟩
        rw [List.getD_eq_getElem _ _ hlt]
        exact List.getElem?_eq_getElem hlt
    obtain rfl := Option.some.inj (hq.symm.trans hq')
    exact ⟨verifyRound_sKeep target draws _ 0 0 [] _ rfl hq, hview _ halong⟩
  | draft nDraft o oracle routing => cases h
  | question nInput => cases h

end Tracing

end Verification

/-! ## The draft -/

section Draft
variable {cfg : Config} {g : PruneConfig} {o : Policy}

/-- Each selected node has its row, behind that of the sampled token. -/
structure Rowed (p : Pruner) : Prop where
  length : p.tree.batchTgt.length = p.chosen.length + 1
  label : ∀ k sel, p.chosen[k]? = some sel → ∃ pos, Labelled p.tree.batchTgt (k + 1) sel.cand.id pos

theorem extends_choose (t : Drafting) (step : Nat) (c : Cand) : Extends t.batchTgt (t.choose cfg step c).batchTgt := by
  intro k x pos h
  rw [Drafting.choose]
  apply extends_append
  split_ifs
  · exact extends_addSeq _ _ _ _ _ _ h
  · exact h

theorem labelled_choose (t : Drafting) (step : Nat) (c : Cand) :
    Labelled (t.choose cfg step c).batchTgt t.batchTgt.length c.id (cfg.nPastTgt + step + 1) := by
  rw [Drafting.choose]
  split_ifs
  · have h := labelled_append (addSeq c.seq (t.drafts c.seq).iBatchTgt t.batchTgt) ⟨c.id, cfg.nPastTgt + step + 1, [c.seq]⟩
    rwa [length_addSeq] at h
  · exact labelled_append t.batchTgt ⟨c.id, cfg.nPastTgt + step + 1, [c.seq]⟩

theorem Rowed.select {p : Pruner} (h : Rowed p) (step : Nat) (c : Scored) (uCache : ExpertLayers) :
    Rowed (p.select cfg step c uCache) where
  length := by
    show (p.tree.choose cfg step c.toCand).batchTgt.length = (p.chosen ++ [_]).length + 1
    rw [length_choose, h.length, List.length_append, List.length_singleton]
  label k sel hk := by
    change (p.chosen ++ [Selection.mk c p.uCache])[k]? = some sel at hk
    rcases Nat.lt_or_ge k p.chosen.length with hlt | hge
    · rw [List.getElem?_append_left hlt] at hk
      obtain ⟨pos, hlabel⟩ := h.label k sel hk
      exact ⟨pos, extends_choose _ _ _ _ _ _ hlabel⟩
    · obtain rfl : k = p.chosen.length := by
        have := (List.getElem?_eq_some_iff.mp hk).1
        rw [List.length_append, List.length_singleton] at this
        omega
      rw [List.getElem?_concat_length] at hk
      cases hk
      exact ⟨_, h.length ▸ labelled_choose p.tree step c.toCand⟩

theorem selectScored_rowed {step : Nat} : ∀ (cs : List Scored) {p : Pruner} (sel : List Nat) {r : Pruner × List Nat},
    Rowed p →
    selectScored cfg g step cs p sel = some r → Rowed r.1
  | [], _, _, _, hp, h => by
    cases h
    exact hp
  | c :: cs, p, sel, r, hp, h => by
    rw [selectScored] at h
    split_ifs at h
    · cases h
      exact hp
    · exact selectScored_rowed cs sel hp h
    · exact selectScored_rowed cs sel hp h
    · cases h
      exact hp
    · obtain ⟨uCache, _, h⟩ := Option.bind_eq_some_iff.mp h
      exact selectScored_rowed cs (c.seq :: sel) (hp.select step c uCache) h

/-- **A turn keeps the rows of the nodes.** -/
theorem Rowed.turn {step : Nat} {cands : Nat → Candidates} {routing : Nat → List TopkLayer} {p p' : Pruner} {goes : Bool}
    (hp : Rowed p) (h : p.turn cfg g o step cands routing = some (goes, p')) : Rowed p' := by
  have hrows := (@proposals_depth cfg step cands p.tree).1
  have hstart : ∀ m, Rowed { p with tree := (proposals cfg step cands p.tree).1, expertMax := m } :=
    fun _ => ⟨hrows ▸ hp.length, hrows ▸ hp.label⟩
  rcases turn_cases h with ⟨_, _, rfl⟩ | ⟨_, scored, r, _, hr, _, rfl⟩
  · exact ⟨hrows ▸ hp.length, hrows ▸ hp.label⟩
  · have hsel := selectScored_rowed _ [] (hstart scored.2) hr
    have hback := foldl_takeBack_batchTgt
      (Pruning.dropped p.activeSeq r.2 ((o.sort scored.1).map fun c => c.toCand)) r.1.tree
    exact ⟨hback.symm ▸ hsel.length, hback.symm ▸ hsel.label⟩

/-- The tokens of a sequence have nodes. -/
def Laid (nodes : List TraceNode) (d : SeqDraft) : Prop :=
  ∀ (j : Nat) (x : Token), d.tokens[j]? = some x → ∃ n ∈ nodes, d.iBatchTgt[j + 1]? = some n.tmpTargetBatchIdx ∧ n.tokenId = x

theorem ordered_traceNodes (chosen : List Selection) : Ordered (traceNodes chosen) := by
  rw [Ordered, List.pairwise_iff_getElem]
  intro i j hi hj hij
  simp only [traceNodes, List.getElem_mapIdx, Selection.node]
  omega

theorem mem_traceNodes {chosen : List Selection} {k : Nat} {sel : Selection} (h : chosen[k]? = some sel) :
    ∃ n ∈ traceNodes chosen, n.tmpTargetBatchIdx = k + 1 ∧ n.tokenId = sel.cand.id := by
  have hget : (traceNodes chosen)[k]? = some (sel.node (k + 1)) := by
    rw [traceNodes, List.getElem?_mapIdx, h]
    rfl
  exact ⟨_, List.mem_of_getElem? hget, rfl, rfl⟩

theorem traceNodes_accepted {chosen : List Selection} {n : TraceNode} (h : n ∈ traceNodes chosen) : n.accepted = false := by
  obtain ⟨k, hk⟩ := List.mem_iff_getElem?.mp h
  rw [traceNodes, List.getElem?_mapIdx] at hk
  obtain ⟨sel, _, rfl⟩ := Option.map_eq_some_iff.mp hk
  rfl

/-- A chain of rows behind the first one. -/
theorem Live.laid {nPast : Int} {p : Pruner} {d : SeqDraft} {s l : Nat} (hp : Rowed p)
    (h : Live nPast p.tree.batchTgt d s true l none) {d' : SeqDraft} (htokens : d'.tokens = d.tokens.drop 1)
    (hrows : d'.iBatchTgt = d.iBatchTgt) : Laid (traceNodes p.chosen) d' := by
  intro j x hx
  rw [htokens, List.getElem?_drop, Nat.add_comm] at hx
  have hj : j + 1 < d.iBatchTgt.length := by
    have hlt := (List.getElem?_eq_some_iff.mp hx).1
    rw [h.length_tokens] at hlt
    rw [h.len]
    exact hlt
  obtain ⟨y, hy, hlabel⟩ := h.chain.label (j + 1) _ (List.getElem?_eq_getElem hj)
  obtain rfl := Option.some.inj (hx.symm.trans hy)
  -- the rows grow, so this is not the first one
  have hpos : d.iBatchTgt[0] < d.iBatchTgt[j + 1] := List.pairwise_iff_getElem.mp h.chain.sorted 0 (j + 1) _ hj
    (Nat.succ_pos j)
  have hlt := hlabel.lt
  rw [hp.length] at hlt
  obtain ⟨k, hk⟩ : ∃ k, d.iBatchTgt[j + 1] = k + 1 := ⟨d.iBatchTgt[j + 1] - 1, by omega⟩
  have hsel : p.chosen[k]? = some p.chosen[k] := List.getElem?_eq_getElem (by omega)
  obtain ⟨n, hn, hrow, htoken⟩ := mem_traceNodes hsel
  obtain ⟨pos, r, hr, hid, _⟩ := hp.label k _ hsel
  obtain ⟨r', hr', hid', _⟩ := hlabel
  rw [hk] at hr'
  obtain rfl := Option.some.inj (hr.symm.trans hr')
  refine ⟨n, hn, ?_, htoken.trans (hid.symm.trans hid')⟩
  rw [hrows, List.getElem?_eq_getElem hj, hk, hrow]

/-- **Behind a draft the tokens of every active sequence have nodes.** -/
theorem draftTreePruned_laid {oracle : Nat → Nat → Candidates} {routing : Nat → Nat → List TopkLayer} {tok : Token}
    {drafts : Nat → SeqDraft} {r : Pruner} (h : draftTreePruned cfg g o oracle routing (startRound cfg tok drafts) =
      some r) {s : Nat}
    (hs : (eraseFront r.tree.drafts s).active = true) : Laid (traceNodes r.chosen) (eraseFront r.tree.drafts s) := by
  obtain ⟨p, hstart, hrun⟩ := Option.bind_eq_some_iff.mp h
  obtain ⟨u, _, rfl⟩ := Option.map_eq_some_iff.mp hstart
  have hrowed : Rowed r := draftTreeScored_rule oracle routing (fun _ _ _ _ hp hturn => hp.turn hturn) cfg.nDraft 0
    (I := Rowed) ⟨rfl, fun k sel hk => by cases hk⟩ hrun
  have hturned := startPruning_turned cfg tok drafts
  obtain ⟨sc, hsc⟩ := scored_refines oracle routing cfg.nDraft 0 _ r _ hturned hrun
  obtain ⟨step, st, hfinal⟩ := draftTreePrune_spec oracle sc cfg.nDraft 0 _ _ hturned
  have hactive : (r.tree.drafts s).active = true := by
    rw [eraseFront] at hs
    split_ifs at hs with hactive
    · exact hactive
    · exact hs
  rw [hsc] at hfinal
  obtain ⟨l, hl, _⟩ := hfinal.idle s ((hfinal.active s).symm.trans hactive)
  refine (hfinal.inv.live hl).laid hrowed ?_ ?_
  · rw [eraseFront, if_pos hactive]
  · rw [eraseFront, if_pos hactive]

end Draft

/-! ## Runs -/

theorem modify_length {α : Type} (x : α) (f : α → α) : ∀ xs : List α, (xs ++ [x]).modify xs.length f = xs ++ [f x]
  | [] => rfl
  | y :: xs => by
    rw [List.cons_append, List.length_cons, List.modify_succ_cons, modify_length x f xs, List.cons_append]

/-- `back()` is changed. -/
theorem modify_concat {α : Type} (xs : List α) (x : α) (f : α → α) :
    (xs ++ [x]).modify ((xs ++ [x]).length - 1) f = xs ++ [f x] := by
  rw [List.length_append, List.length_singleton, Nat.add_sub_cancel, modify_length]

namespace Tracing
variable {p : Settings} {g : PruneConfig} {st st' : Tracing}

/-- Between the two halves of the loop. -/
structure Inv (st : Tracing) : Prop where
  traces : st.Attributed
  start : st.questionTraceStart ≤ st.verdicts.length
  laid : st.sampled = none → ∀ s, (st.drafts s).active = true → Laid st.currentTrace.nodes (st.drafts s)
  ordered : Ordered st.currentTrace.nodes
  fresh : ∀ n ∈ st.currentTrace.nodes, n.accepted = false

theorem inv_start (nInput : Int) : Inv (start nInput) where
  traces := rfl
  start := le_rfl
  laid _ s hs := by cases hs
  ordered := List.Pairwise.nil
  fresh n hn := absurd hn List.not_mem_nil

/-- The rows of the accepted tokens, one by one. -/
theorem acceptedRows_eq (st : Tracing) (sKeep : Nat) {acc : List Acceptance}
    (hindex : ∀ (k : Nat) (e : Acceptance), acc[k]? = some e → e.index = k)
    (hrow : ∀ e ∈ acc, ∃ k, (st.drafts sKeep).iBatchTgt[e.index + 1]? = some k) :
    acc.map (fun e => ((st.drafts sKeep).iBatchTgt[e.index + 1]?).getD 0) = st.acceptedRows sKeep acc.length := by
  refine List.ext_getElem? fun k => ?_
  rw [List.getElem?_map, acceptedRows, List.getElem?_take]
  rcases Nat.lt_or_ge k acc.length with hk | hk
  · have he := List.getElem?_eq_getElem hk
    obtain ⟨row, hrow⟩ := hrow _ (List.getElem_mem hk)
    rw [hindex k _ he] at hrow
    rw [he, Option.map_some, hindex k _ he, hrow, if_pos hk, List.getElem?_drop, Nat.add_comm, hrow]
    rfl
  · rw [List.getElem?_eq_none hk, if_neg (not_lt.mpr hk)]
    rfl

/-- The accepted nodes are found one by one. -/
theorem Inv.finds (h : Inv st) (hsampled : st.sampled = none) {op : Op} {r : List Acceptance × Nat × Token}
    (hr : st.accepts p op = some r) (hfound : Found st.currentTrace.nodes (st.drafts r.2.1) r.1) :
    ∀ e ∈ r.1, ∃ k, (st.drafts r.2.1).iBatchTgt[e.index + 1]? = some k ∧ Finds st.currentTrace.nodes e k := by
  intro e he
  obtain ⟨hkeep, halong⟩ := accepts_spec hr
  have hactive : (st.drafts r.2.1).active = true := by
    obtain ⟨last, hlast⟩ : ∃ last, r.1.getLast? = some last := by
      rw [← Option.isSome_iff_exists, List.getLast?_isSome]
      exact List.ne_nil_of_mem he
    rw [hkeep, keptSeq, hlast]
    rw [List.getLast?_eq_getElem?] at hlast
    exact (halong _ last hlast).2.1
  obtain ⟨n, hn, hrow, htoken⟩ := h.laid hsampled _ hactive _ _ (hfound.branch e he)
  have hseq := hfound.own e he n hn hrow
  exact ⟨_, hrow, n, hn, rfl, hseq, htoken, fun m hm hms hmt =>
    hfound.first e he n hn hrow m hm (hms.trans hseq.symm) (hmt.trans htoken.symm)⟩

/-- **A verification completes the trace of its round.** -/
theorem Inv.update (h : Inv st) (hsampled : st.sampled = none) {op : Op} {r : List Acceptance × Nat × Token}
    (hr : st.accepts p op = some r) (hok : Traceable p st op) : Inv (st.update r.1 r.2.1 r.2.2) := by
  have hok := hok r hr
  have htraces := h.traces
  have hstart := h.start
  have hone : ∀ n, st.nPredict + n - st.nPredict = n := fun _ => Nat.add_sub_cancel_left _ _
  rw [Attributed, hsampled] at htraces
  by_cases hnil : st.currentTrace.nodes = []
  · rw [if_pos hnil] at hok
    rw [if_neg (fun hc => hc.2 hnil), List.append_nil] at htraces
    -- nothing can be accepted
    have hacc : r.1 = [] := by
      rw [List.eq_nil_iff_forall_not_mem]
      intro e he
      obtain ⟨k, hk⟩ := List.mem_iff_getElem?.mp he
      obtain ⟨_, hactive, hx⟩ := (accepts_spec hr).2 k e hk
      obtain ⟨n, hn, _⟩ := h.laid hsampled _ hactive k _ hx
      rw [hnil] at hn
      exact absurd hn List.not_mem_nil
    have hsame : (st.update r.1 r.2.1 r.2.2).allTraces = st.allTraces := by
      dsimp only [Tracing.update]
      split_ifs with hlt
      · have hok := hok hlt
        rcases List.eq_nil_or_concat' st.verdicts with hv | ⟨vs, v, hv⟩
        · rw [htraces, hv]
          rfl
        · rw [htraces, hv, List.map_append, List.map_singleton, modify_concat, hacc, hone]
          -- the last trace has this number already
          have hgenerated : v.emitted = 1 := hok v.expected
            (by rw [htraces, hv, List.map_append, List.map_singleton, List.getLast?_concat])
          rw [Verdict.expected, hgenerated]
          rfl
      · rfl
    refine ⟨?_, ?_, fun hno => (Option.some_ne_none _ hno).elim, h.ordered, h.fresh⟩
    · rw [Attributed, hsame, if_neg (fun hc => Option.some_ne_none _ hc.1), List.append_nil, htraces]
      dsimp only [Tracing.update]
      rw [if_pos hnil]
    · dsimp only [Tracing.update]
      rw [if_pos hnil]
      exact hstart
  · rw [if_neg hnil] at hok
    rw [if_pos ⟨rfl, hnil⟩] at htraces
    have hfinds := h.finds hsampled hr hok
    have hrows := acceptedRows_eq st r.2.1 (fun k e hk => ((accepts_spec hr).2 k e hk).1)
      fun e he => (hfinds e he).imp fun k hk => hk.1
    have hmark : markAll r.1 st.currentTrace.nodes = st.currentTrace.nodes.map fun n : TraceNode =>
        { n with accepted := decide (n.tmpTargetBatchIdx ∈ st.acceptedRows r.2.1 r.1.length) } := by
      rw [markAll_eq (fun e => ((st.drafts r.2.1).iBatchTgt[e.index + 1]?).getD 0) r.1 h.ordered ?_, hrows]
      · refine List.map_congr_left fun n hn => ?_
        rw [TraceNode.mark, h.fresh n hn, Bool.false_or]
      · intro e he
        obtain ⟨k, hk, hfind⟩ := hfinds e he
        rw [hk]
        exact hfind
    have hlt : st.questionTraceStart < st.allTraces.length := by
      rw [htraces, List.length_append, List.length_map, List.length_singleton]
      omega
    refine ⟨?_, ?_, fun hno => (Option.some_ne_none _ hno).elim, h.ordered, h.fresh⟩
    · rw [Attributed, if_neg (fun hc => Option.some_ne_none _ hc.1), List.append_nil]
      dsimp only [Tracing.update]
      rw [if_pos hlt, if_neg hnil, htraces, modify_concat, List.map_append, List.map_singleton, hmark]
      rfl
    · dsimp only [Tracing.update]
      rw [if_neg hnil, List.length_append]
      omega

theorem Inv.record (h : Inv st) {tok : Token} (hsampled : st.sampled = some tok) {cfg : Config} {o : Policy}
    {oracle : Nat → Nat → Candidates} {routing : Nat → Nat → List TopkLayer} {r : Pruner}
    (hr : draftTreePruned cfg g o oracle routing (startRound cfg tok st.drafts) = some r) : Inv (st.record r) where
  traces := by
    have htraces := h.traces
    rw [Attributed, if_neg (fun hc => Option.some_ne_none tok (hsampled.symm.trans hc.1)), List.append_nil] at htraces
    have hpos : traceNodes r.chosen = [] → (st.record r).allTraces = st.allTraces := fun hnil => if_pos hnil
    have hneg : traceNodes r.chosen ≠ [] → (st.record r).allTraces = st.allTraces ++ [(st.record r).currentTrace] :=
      fun hnil => if_neg hnil
    by_cases hnil : traceNodes r.chosen = []
    · rw [Attributed, hpos hnil, if_neg (fun hc => hc.2 hnil), List.append_nil, htraces]
      rfl
    · rw [Attributed, hneg hnil, if_pos ⟨rfl, hnil⟩, htraces]
      rfl
  start := h.start
  laid _ s hs := draftTreePruned_laid hr hs
  ordered := ordered_traceNodes r.chosen
  fresh _ hn := traceNodes_accepted hn

/-- The three kinds of steps. -/
theorem step_inv {op : Op} (h : st.step p g op = some st') :
    (∃ r, st.sampled = none ∧ st.accepts p op = some r ∧ st' = st.update r.1 r.2.1 r.2.2) ∨
    (∃ tok cfg o oracle routing r, st.sampled = some tok ∧
      draftTreePruned cfg g o oracle routing (startRound cfg tok st.drafts) = some r ∧ st' = st.record r) ∨
    ∃ tok nInput, st.sampled = some tok ∧ st' =
      { nPastTgt := nInput, allTraces := st.allTraces, questionTraceStart := st.allTraces.length, verdicts := st.verdicts } := by
  unfold step at h
  cases hsampled : st.sampled with
  | none =>
    rw [hsampled] at h
    obtain ⟨r, hr, hst'⟩ := Option.map_eq_some_iff.mp h
    exact .inl ⟨r, rfl, hr, hst'.symm⟩
  | some tok =>
    rw [hsampled] at h
    cases op with
    | greedy sample => cases h
    | stochastic target draws tok => cases h
    | draft nDraft o oracle routing =>
      obtain ⟨r, hr, hst'⟩ := Option.map_eq_some_iff.mp h
      exact .inr (.inl ⟨tok, _, o, oracle, routing, r, rfl, hr, hst'.symm⟩)
    | question nInput => exact .inr (.inr ⟨tok, nInput, rfl, (Option.some.inj h).symm⟩)

theorem Inv.step (h : Inv st) {op : Op} (hok : Traceable p st op) (hstep : st.step p g op = some st') : Inv st' := by
  rcases step_inv hstep with ⟨r, hsampled, hr, rfl⟩ | ⟨tok, cfg, o, oracle, routing, r, hsampled, hr, rfl⟩ |
    ⟨tok, nInput, hsampled, rfl⟩
  · exact h.update hsampled hr hok
  · exact h.record hsampled hr
  · have htraces := h.traces
    rw [Attributed, if_neg (fun hc => Option.some_ne_none tok (hsampled.symm.trans hc.1)), List.append_nil] at htraces
    refine ⟨?_, ?_, fun _ s hs => (by cases hs), List.Pairwise.nil, fun n hn => absurd hn List.not_mem_nil⟩
    · rw [Attributed, if_neg (fun hc => hc.2 rfl), List.append_nil]
      exact htraces
    · show st.allTraces.length ≤ st.verdicts.length
      rw [htraces, List.length_map]

/-- **In runs where the accepted nodes are found, and a round without nodes comes behind one that emitted one token, every
trace is that of its round.** -/
theorem reaches_attributed (p : Settings) (g : PruneConfig) (nInput : Int) {st : Tracing}
    (h : Reaches (Tracing.step p g) (Traceable p) (start nInput) st) : st.Attributed :=
  (h.invariant (inv_start nInput) fun _ _ _ hinv hok hstep => hinv.step hok hstep).traces

end Tracing

/-- One sequence, and up to two tokens. -/
def twoTokens : Settings := ⟨true, 1, Nat.one_pos, 0, 2, 2⟩

/-- Two tokens are drafted. -/
def draftBoth (draft : Nat → Token) : Tracing.Op :=
  .draft 4 plainPolicy (fun step _ => ⟨1, fun _ => ⟨draft step, 1⟩⟩) (fun _ _ => [])

/-- Both are accepted. -/
def acceptBoth (draft : Nat → Token) : Tracing.Op := .greedy fun acc _ => if acc.length < 2 then draft acc.length else 3

theorem reaches_attributed_distinct : ∃ st, Reaches (Tracing.step twoTokens unitCost) (Tracing.Traceable twoTokens)
    (Tracing.start 10) st ∧ st.allTraces.map (fun tr => tr.nodes.map TraceNode.accepted) = [[true, true]] ∧
    st.Attributed := by
  have h₀ : Reaches (Tracing.step twoTokens unitCost) (Tracing.Traceable twoTokens) (Tracing.start 10) _ := .start
  have h₁ := h₀.step (u := (Tracing.start 10).update [] 0 3) (.greedy fun _ _ => 3)
    (fun r _ hlt => absurd hlt (lt_irrefl 0)) rfl
  obtain ⟨st, hst⟩ : ∃ st, Tracing.step twoTokens unitCost (draftBoth (· + 7)) ((Tracing.start 10).update [] 0 3) = some st :=
    Option.isSome_iff_exists.mp (by decide +kernel)
  have hall : (Tracing.step twoTokens unitCost (draftBoth (· + 7)) ((Tracing.start 10).update [] 0 3)).all (fun st => decide
      (st.sampled = none ∧ st.accepts twoTokens (acceptBoth (· + 7)) = some ([⟨0, 0, 7⟩, ⟨0, 1, 8⟩], 0, 3) ∧
        st.currentTrace.nodes ≠ [] ∧
        ((st.update [⟨0, 0, 7⟩, ⟨0, 1, 8⟩] 0 3).allTraces.map fun tr => tr.nodes.map TraceNode.accepted) = [[true, true]] ∧
        (∀ e ∈ [Acceptance.mk 0 0 7, Acceptance.mk 0 1 8], (st.drafts 0).tokens[e.index]? = some e.token) ∧
        (∀ n ∈ st.currentTrace.nodes, n.nodeId = 0) ∧
        ∀ n ∈ st.currentTrace.nodes, ∀ m ∈ st.currentTrace.nodes, m.tokenId = n.tokenId →
          n.tmpTargetBatchIdx ≤ m.tmpTargetBatchIdx)) = true := by
    decide +kernel
  obtain ⟨hsampled, haccepts, hnodes, hmarks, hbranch, hown, hfirst⟩ :=
    of_decide_eq_true ((Option.all_eq_true _ _).mp hall st hst)
  have h₂ := h₁.step (draftBoth (· + 7)) (fun r hr => by cases hr) hst
  have h₃ := h₂.step (acceptBoth (· + 7)) (u := st.update [⟨0, 0, 7⟩, ⟨0, 1, 8⟩] 0 3) (by
      intro r hr
      obtain rfl := Option.some.inj (haccepts.symm.trans hr)
      rw [if_neg hnodes]
      refine ⟨hbranch, fun e he n hn _ => ?_, fun e _ n hn _ m hm _ htok => hfirst n hn m hm htok⟩
      rw [hown n hn]
      simp only [List.mem_cons, List.not_mem_nil, or_false] at he
      rcases he with rfl | rfl <;> rfl) (by
      rw [Tracing.step]
      · exact Option.map_eq_some_iff.mpr ⟨_, haccepts, rfl⟩
      · exact hsampled)
  exact ⟨_, h₃, hmarks, Tracing.reaches_attributed twoTokens unitCost 10 h₃⟩

/-- The second token is the first one again, and its node stays unmarked. -/
theorem not_attributed_repeated : ¬ ∀ (p : Settings) (g : PruneConfig) (nInput : Int) (st : Tracing),
    Reaches (Tracing.step p g) (fun _ _ => True) (Tracing.start nInput) st → st.Attributed := by
  intro h
  have hmarks : (runList (Tracing.step twoTokens unitCost) [.greedy fun _ _ => 3, draftBoth fun _ => 7, acceptBoth fun _ => 7]
      (Tracing.start 10)).map
      (fun st => (st.sampled, st.allTraces.map fun tr => tr.nodes.map TraceNode.accepted,
        st.verdicts.map fun v => v.expected.nodes.map TraceNode.accepted)) =
      some (some 3, [[true, false]], [[true, true]]) := by
    decide +kernel
  obtain ⟨st, hst, hval⟩ := Option.map_eq_some_iff.mp hmarks
  obtain ⟨hsampled, hval⟩ := Prod.mk.inj hval
  obtain ⟨hreal, hexpected⟩ := Prod.mk.inj hval
  have htraces := h twoTokens unitCost 10 st (Reaches.start.runList (fun _ _ _ => trivial) hst)
  rw [Tracing.Attributed, if_neg (fun hc => Option.some_ne_none _ (hsampled.symm.trans hc.1)), List.append_nil] at htraces
  have heq := congrArg (List.map fun tr : StepTrace => tr.nodes.map TraceNode.accepted) htraces
  rw [List.map_map] at heq
  exact absurd (hreal.symm.trans (heq.trans hexpected)) (by decide)

end S2Moe.Draft.Target
