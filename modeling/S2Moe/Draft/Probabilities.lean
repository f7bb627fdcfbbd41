import S2Moe.Draft.TargetTree
import S2Moe.Lib.Run

/-!
# The probabilities that stand beside the drafted tokens

`seq_draft::probs` grows, is copied and loses its front with the tokens. Two places forget it: the start of a round clears the
tokens and not the probabilities, and `draft_tree_prune` takes back a token and leaves its probability.

* `Round`, `step` : one turn of the outer loop, from one verification to the next;
* `cumProb` : the product that the verification reports;
* `Recorded` : each probability is the one its token was drafted with;
* `Clean` : nothing is left of the round before, and no token is taken back;
* `recorded_of_clean` : in a run of clean rounds the active drafts are recorded at every verification.
-/

namespace S2Moe.Draft.Target
open S2Moe.Lib
open S2Moe.Spec (Candidate Token)

/-- One turn of the outer loop. The verification changes the flags and sorts the distributions; `tok` is what it samples. -/
structure Round where
  cfg : Config
  keep : Nat → Bool
  sort : Nat → List (List Candidate)
  tok : Token
  oracle : Nat → Nat → Candidates
  sc : Nat → Scoring

/-- What a verification leaves of the drafts. -/
def verified (r : Round) (drafts : Nat → SeqDraft) (s : Nat) : SeqDraft :=
  { drafts s with active := (drafts s).active && r.keep s, dists := r.sort s }

/-- The first token is the sampled one and is erased. -/
def eraseFront (drafts : Nat → SeqDraft) (s : Nat) : SeqDraft :=
  if (drafts s).active then
    { drafts s with
      tokens := (drafts s).tokens.drop 1, probs := (drafts s).probs.drop 1, dists := (drafts s).dists.drop 1
      drawn := (drafts s).drawn.drop 1 }
  else drafts s

/-- The drafter's part of a round. -/
def drafted (prune : Bool) (r : Round) (drafts : Nat → SeqDraft) : Drafting × Bool :=
  draftTree r.cfg prune r.oracle r.sc (startRound r.cfg r.tok (verified r drafts))

/-- From the start of one verification to the start of the next. -/
def step (prune : Bool) (r : Round) (drafts : Nat → SeqDraft) : Option (Nat → SeqDraft) :=
  some (eraseFront (drafted prune r drafts).1.drafts)

/-- The cumulative probability that is reported for token `i`. -/
def cumProb (d : SeqDraft) (i : Nat) : Rat := (d.probs.take (i + 1)).foldl (· * ·) 1

/-- Every probability is the one that its token was drafted with. -/
structure Recorded (d : SeqDraft) : Prop where
  size : d.probs.length = d.tokens.length
  recorded : ∀ j < d.tokens.length, ∃ x q, d.tokens[j]? = some x ∧ d.probs[j]? = some q ∧ d.drawn[j]? = some (x, q)
  cumulative : ∀ i < d.tokens.length, cumProb d i = ((d.drawn.take (i + 1)).map Prod.snd).prod

/-- The round finds no probability of sequence 0, and takes no token back. -/
def Clean (prune : Bool) (drafts : Nat → SeqDraft) (r : Round) : Prop :=
  (drafts 0).probs = [] ∧ (drafted prune r drafts).2 = false

/-! ## The vectors stay parallel -/

structure Aligned (d : SeqDraft) : Prop where
  tokens : d.tokens = d.drawn.map Prod.fst
  probs : d.probs = d.drawn.map Prod.snd

theorem Aligned.recorded {d : SeqDraft} (h : Aligned d) : Recorded d where
  size := by rw [h.tokens, h.probs, List.length_map, List.length_map]
  recorded j hj := by
    have hjd : j < d.drawn.length := by
      rw [h.tokens, List.length_map] at hj
      exact hj
    refine ⟨d.drawn[j].1, d.drawn[j].2, ?_, ?_, List.getElem?_eq_getElem hjd⟩
    · simp [h.tokens, List.getElem?_eq_getElem hjd]
    · simp [h.probs, List.getElem?_eq_getElem hjd]
  cumulative i _ := by
    rw [cumProb, h.probs, ← List.map_take, List.prod_eq_foldl]

theorem Aligned.propose {d : SeqDraft} (h : Aligned d) (x : Token) (q : Rat) (dist : List Candidate) (n : Nat) :
    Aligned { d with
      tokens := d.tokens ++ [x], probs := d.probs ++ [q], dists := d.dists ++ [dist], drawn := d.drawn ++ [(x, q)]
      iBatchDft := n } where
  tokens := by simp [h.tokens]
  probs := by simp [h.probs]

/-- The drafts of all sequences in use are aligned, and only these are drafting. -/
structure Parallel (t : Drafting) : Prop where
  aligned : ∀ s < t.nSeqCur, Aligned (t.drafts s)
  drafting : ∀ s, (t.drafts s).drafting = true → s < t.nSeqCur

theorem Parallel.copyDraft {t : Drafting} (h : Parallel t) {s : Nat} (hs : s < t.nSeqCur) : Parallel (t.copyDraft s) where
  aligned k hk := by
    by_cases hkn : k = t.nSeqCur
    · subst hkn
      simp only [Drafting.copyDraft, Function.update_self]
      exact ⟨(h.aligned s hs).tokens, (h.aligned s hs).probs⟩
    · have hlt : k < t.nSeqCur + 1 := hk
      simp only [Drafting.copyDraft, Function.update_of_ne hkn]
      exact h.aligned k (by omega)
  drafting k hk := by
    change k < t.nSeqCur + 1
    by_cases hkn : k = t.nSeqCur
    · omega
    · simp only [Drafting.copyDraft, Function.update_of_ne hkn] at hk
      exact Nat.lt_succ_of_lt (h.drafting k hk)

theorem Parallel.propose {t : Drafting} (h : Parallel t) (c : Candidates) (s k : Nat) : Parallel (t.propose c s k) where
  aligned m hm := by
    by_cases hms : m = s
    · subst hms
      simp only [Drafting.propose, Drafting.modify, Function.update_self]
      exact (h.aligned m hm).propose _ _ _ _
    · simp only [Drafting.propose, Drafting.modify, Function.update_of_ne hms]
      exact h.aligned m hm
  drafting m hm := h.drafting m (((sameFlags_propose t c s k).2 m).2.1.symm.trans hm)

theorem Parallel.commit {t : Drafting} (h : Parallel t) (s : Nat) (x : Token) (pos : Int) : Parallel (t.commit s x pos) where
  aligned m hm := by
    by_cases hms : m = s
    · subst hms
      simp only [Drafting.commit, Drafting.modify, Function.update_self]
      exact ⟨(h.aligned m hm).tokens, (h.aligned m hm).probs⟩
    · simp only [Drafting.commit, Drafting.modify, Function.update_of_ne hms]
      exact h.aligned m hm
  drafting m hm := h.drafting m (((sameFlags_commit t s x pos).2 m).2.1.symm.trans hm)

/-! ## `draft_tree_original` -/

theorem Parallel.splitsOriginal {cfg : Config} {c : Candidates} {s : Nat} : ∀ (fs : List Nat) {t : Drafting} (sa : List Nat),
    Parallel t → s < t.nSeqCur → Parallel (Target.splitsOriginal cfg c s fs t sa).1
  | [], t, sa, h, _ => h
  | f :: fs, t, sa, h, hs => by
    rw [Target.splitsOriginal]
    split
    · have hsplit : Parallel (t.splitOriginal s) := ⟨(h.copyDraft hs).aligned, (h.copyDraft hs).drafting⟩
      exact Parallel.splitsOriginal fs _ hsplit (Nat.lt_succ_of_lt hs)
    · exact h

theorem Parallel.addOriginal {cfg : Config} {i : Nat} {c : Candidates} : ∀ (sa : List Nat) (k : Nat) {t : Drafting},
    Parallel t → Parallel (Target.addOriginal cfg i c sa k t)
  | [], _, _, h => h
  | s :: sa, k, _, h => Parallel.addOriginal sa (k + 1) ((h.propose c s k).commit s _ _)

theorem Parallel.turnOriginal {cfg : Config} {i : Nat} (cands : Nat → Candidates) {t : Drafting} (h : Parallel t) :
    Parallel (Target.turnOriginal cfg i cands t) := by
  have hstart : Parallel t.startTurn :=
    ⟨fun s hs => ⟨(h.aligned s hs).tokens, (h.aligned s hs).probs⟩, h.drafting⟩
  refine foldl_range_rule (P := fun _ t => Parallel t) hstart cfg.nSeqDft fun s _ t h => ?_
  rw [draftSeqOriginal]
  split
  · rename_i hyes
    exact (h.splitsOriginal _ _ (h.drafting s hyes.1)).addOriginal _ _
  · exact h

theorem Parallel.draftTreeOriginal {cfg : Config} {oracle : Nat → Nat → Candidates} : ∀ (n i : Nat) {t : Drafting},
    Parallel t → Parallel (Target.draftTreeOriginal cfg oracle n i t)
  | 0, i, t, h => h
  | n + 1, i, t, h => by
    rw [Target.draftTreeOriginal]
    split
    · exact h.turnOriginal (oracle i)
    · exact Parallel.draftTreeOriginal n (i + 1) (h.turnOriginal (oracle i))

/-! ## `draft_tree_prune`, when no token is taken back -/

theorem Parallel.splitsPrune {cfg : Config} {c : Candidates} {s : Nat} : ∀ (fs : List Nat) {t : Drafting} (sa : List Nat),
    Parallel t → s < t.nSeqCur → Parallel (Target.splitsPrune cfg c s fs t sa).1
  | [], t, sa, h, _ => h
  | f :: fs, t, sa, h, hs => by
    rw [Target.splitsPrune]
    split
    · exact Parallel.splitsPrune fs _ (h.copyDraft hs) (Nat.lt_succ_of_lt hs)
    · exact Parallel.splitsPrune fs _ h hs

theorem Parallel.addPrune {step parent : Nat} {c : Candidates} : ∀ (sa : List Nat) (k : Nat) {t : Drafting} (cs : List Cand),
    Parallel t → Parallel (Target.addPrune step parent c sa k (t, cs)).1
  | [], _, _, _, h => h
  | s :: sa, k, _, _, h => Parallel.addPrune sa (k + 1) _ (h.propose c s k)

theorem Parallel.draftSeqPrune {cfg : Config} {step s : Nat} (cands : Nat → Candidates) {r : Drafting × List Cand}
    (h : Parallel r.1) : Parallel (Target.draftSeqPrune cfg step cands r s).1 := by
  rw [Target.draftSeqPrune]
  split
  · rename_i hyes
    dsimp only
    split
    · exact h
    · exact (h.splitsPrune _ _ (h.drafting s hyes.1)).addPrune _ _ _
  · exact h

theorem Parallel.selectLoop {cfg : Config} {step : Nat} {pass : Nat → Bool} : ∀ (cs : List Cand) {t : Drafting} (nodes : Nat)
    (sel : List Nat), Parallel t → Parallel (Target.selectLoop cfg step pass cs t nodes sel).1
  | [], t, nodes, sel, h => h
  | c :: cs, t, nodes, sel, h => by
    have hchoose : Parallel (t.choose cfg step c) := by
      rw [Drafting.choose]
      split
      · have hadd : Parallel { t with batchTgt := addSeq c.seq (t.drafts c.seq).iBatchTgt t.batchTgt } :=
          ⟨h.aligned, h.drafting⟩
        exact hadd.commit _ _ _
      · exact h.commit _ _ _
    rw [Target.selectLoop]
    split
    · exact h
    · split
      · exact Parallel.selectLoop cs nodes sel h
      · split
        · exact Parallel.selectLoop cs nodes sel h
        · split
          · exact h
          · exact Parallel.selectLoop cs (nodes + 1) _ hchoose

/-- A turn that takes no token back. -/
theorem turnPrune_aligned {cfg : Config} {step : Nat} (cands : Nat → Candidates) (sc : Scoring) {p : Pruning}
    {st : Nat → Status} (h : Turned cfg step p st) (ha : ∀ s < p.tree.nSeqCur, Aligned (p.tree.drafts s))
    (hback : (turnPrune cfg step cands sc p).2.rolledBack = false) :
    ∀ s < (turnPrune cfg step cands sc p).2.tree.nSeqCur, Aligned ((turnPrune cfg step cands sc p).2.tree.drafts s) := by
  have hstart : Parallel p.tree.startTurn :=
    { aligned := fun s hs => ⟨(ha s hs).tokens, (ha s hs).probs⟩
      drafting := fun s hs => by
        apply h.inUse s
        by_contra hno
        have hoff := (h.unused s (Bool.eq_false_iff.mpr hno)).2
        exact absurd (hs.symm.trans hoff) (by simp) }
  have hfold : Parallel ((List.range cfg.nSeqDft).foldl (draftSeqPrune cfg step cands) (p.tree.startTurn, [])).1 :=
    foldl_range_rule (P := fun _ (r : Drafting × List Cand) => Parallel r.1) hstart cfg.nSeqDft fun s _ r hr =>
      hr.draftSeqPrune cands
  rw [turnPrune] at hback ⊢
  generalize (List.range cfg.nSeqDft).foldl (draftSeqPrune cfg step cands) (p.tree.startTurn, []) = q at hfold hback ⊢
  dsimp only at hback ⊢
  split at hback
  case isTrue hzero =>
    rw [if_pos hzero]
    exact hfold.aligned
  case isFalse hzero =>
    rw [if_neg hzero]
    have hsel : Parallel (Target.selectLoop cfg step sc.pass
        (q.2.mergeSort fun a b => decide (sc.score b.seq ≤ sc.score a.seq)) q.1 p.selectedNodes []).1 :=
      hfold.selectLoop _ _ _
    have hdrop := List.isEmpty_iff.mp (by simpa using (Bool.or_eq_false_iff.mp hback).2)
    simp only [hdrop, List.foldl_nil]
    exact fun s hs => ⟨(hsel.aligned s hs).tokens, (hsel.aligned s hs).probs⟩

theorem rolledBack_turnPrune {cfg : Config} {step : Nat} {cands : Nat → Candidates} {sc : Scoring} {p : Pruning}
    (h : (turnPrune cfg step cands sc p).2.rolledBack = false) : p.rolledBack = false := by
  rw [turnPrune] at h
  dsimp only at h
  split at h
  · exact h
  · exact (Bool.or_eq_false_iff.mp h).1

theorem rolledBack_draftTreePrune {cfg : Config} {oracle : Nat → Nat → Candidates} {sc : Nat → Scoring} :
    ∀ (n step : Nat) (p : Pruning), (draftTreePrune cfg oracle sc n step p).rolledBack = false → p.rolledBack = false
  | 0, _, _, h => h
  | n + 1, step, p, h => by
    rw [draftTreePrune] at h
    split at h
    · generalize hr : turnPrune cfg step (oracle step) (sc step) p = r at h
      obtain ⟨go, p'⟩ := r
      have hp' : p'.rolledBack = false := by
        cases go with
        | true => exact rolledBack_draftTreePrune n (step + 1) p' h
        | false => exact h
      exact rolledBack_turnPrune ((congrArg (·.2.rolledBack) hr).trans hp')
    · exact h

theorem draftTreePrune_aligned {cfg : Config} (oracle : Nat → Nat → Candidates) (sc : Nat → Scoring) : ∀ (n step : Nat)
    (p : Pruning) (st : Nat → Status), Turned cfg step p st → (∀ s < p.tree.nSeqCur, Aligned (p.tree.drafts s)) →
      (draftTreePrune cfg oracle sc n step p).rolledBack = false →
      ∀ s < (draftTreePrune cfg oracle sc n step p).tree.nSeqCur,
        Aligned ((draftTreePrune cfg oracle sc n step p).tree.drafts s)
  | 0, _, _, _, _, ha, _ => ha
  | n + 1, step, p, st, h, ha, hback => by
    rw [draftTreePrune] at hback ⊢
    split
    case isFalse => exact ha
    case isTrue hlt =>
      rw [if_pos hlt] at hback
      have halign := turnPrune_aligned (oracle step) (sc step) h ha
      obtain ⟨step', st', h', hgo⟩ := turnPrune_spec (oracle step) (sc step) h
      generalize turnPrune cfg step (oracle step) (sc step) p = r at hback halign h' hgo ⊢
      obtain ⟨go, p'⟩ := r
      cases go with
      | true =>
          obtain rfl : step' = step + 1 := hgo rfl
          have hp' : p'.rolledBack = false := rolledBack_draftTreePrune n (step + 1) p' hback
          exact draftTreePrune_aligned oracle sc n (step + 1) p' st' h' (halign hp') hback
      | false => exact halign hback

/-! ## Runs -/

/-- After a clean start either drafter leaves aligned drafts, unless a token is taken back. -/
theorem draftTree_aligned {cfg : Config} {prune : Bool} (oracle : Nat → Nat → Candidates) (sc : Nat → Scoring) (tok : Token)
    {drafts : Nat → SeqDraft} (hp : (drafts 0).probs = [])
    (hback : (draftTree cfg prune oracle sc (startRound cfg tok drafts)).2 = false) {s : Nat}
    (hs : ((draftTree cfg prune oracle sc (startRound cfg tok drafts)).1.drafts s).active = true) :
    Aligned ((draftTree cfg prune oracle sc (startRound cfg tok drafts)).1.drafts s) := by
  have hstart : ∀ s < 1, Aligned ((startRound cfg tok drafts).drafts s) := by
    intro s hs
    obtain rfl : s = 0 := by omega
    exact ⟨by simp [startRound, resetDrafts], by simp [startRound, resetDrafts, hp]⟩
  cases prune
  case false =>
    have hpar : Parallel (startRound cfg tok drafts) :=
      ⟨hstart, fun s hs => by
        by_contra hno
        have hne : s ≠ 0 := fun h0 => hno (h0 ▸ Nat.one_pos)
        simp [startRound, resetDrafts, hne] at hs⟩
    obtain ⟨i, h⟩ := draftTreeOriginal_spec oracle cfg.nDraft 0 _ (startRound_original cfg tok drafts)
    exact (hpar.draftTreeOriginal cfg.nDraft 0).aligned s ((h.active s).mp hs)
  case true =>
    have hturned := startPruning_turned cfg tok drafts
    obtain ⟨step, st, h⟩ := draftTreePrune_spec oracle sc cfg.nDraft 0 _ _ hturned
    exact draftTreePrune_aligned oracle sc cfg.nDraft 0 _ _ hturned hstart hback s
      (h.inUse s ((h.active s).symm.trans hs))

/-- **In a run of clean rounds the probabilities of every active draft are those of its tokens, at every verification.** -/
theorem recorded_of_clean (prune : Bool) (drafts : Nat → SeqDraft)
    (h : Reaches (step prune) (Clean prune) (fun _ => {}) drafts) :
    ∀ s, (drafts s).active = true → Recorded (drafts s) := by
  refine h.invariant (I := fun drafts => ∀ s, (drafts s).active = true → Recorded (drafts s)) (by simp) ?_
  intro d d' r _ hclean hstep s hs
  obtain rfl := Option.some.inj hstep
  have hactive : ((drafted prune r d).1.drafts s).active = true := by
    rw [eraseFront] at hs
    split at hs
    · assumption
    · exact hs
  have halign : Aligned ((drafted prune r d).1.drafts s) :=
    draftTree_aligned r.oracle r.sc r.tok hclean.1 hclean.2 hactive
  apply Aligned.recorded
  rw [eraseFront, if_pos hactive]
  exact ⟨by simp [halign.tokens], by simp [halign.probs]⟩

/-- One sequence, one drafted token. -/
def shortRound : Round where
  cfg := ⟨1, Nat.one_pos, 1, 10, 1 / 4, 1, 1⟩
  keep _ := true
  sort _ := []
  tok := 3
  oracle _ _ := ⟨1, fun _ => ⟨5, 1 / 2⟩⟩
  sc _ := ⟨fun _ => 0, fun _ => true⟩

theorem recorded_of_clean_first : Recorded (eraseFront (drafted false shortRound fun _ => {}).1.drafts 0) :=
  recorded_of_clean false _ (Reaches.start.step shortRound ⟨rfl, rfl⟩ rfl) 0 (by decide +kernel)

/-- In the second round the probability of the first round's token still stands in front. -/
theorem probs_of_round_before : ¬ ∀ (prune : Bool) (drafts : Nat → SeqDraft),
    Reaches (step prune) (fun _ _ => True) (fun _ => {}) drafts →
      ∀ s, (drafts s).active = true → Recorded (drafts s) := by
  intro h
  have hrun := (Reaches.start : Reaches (step false) (fun _ _ => True) (fun _ => {}) _).step shortRound trivial rfl
  have hsize := (h false _ (.step shortRound hrun trivial rfl) 0 (by decide +kernel)).size
  revert hsize
  decide +kernel

end S2Moe.Draft.Target
