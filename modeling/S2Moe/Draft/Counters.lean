import S2Moe.Draft.Probabilities

/-!
# The counters of a question

`n_drafted` grows with every decode of a drafter, `n_predict` and `n_accept` with the tokens of a verification. The report
divides the accepted tokens by the decodes.

* `decodesOriginal`, `decodesPrune` : the decodes of a draft; `draft_tree_prune` may leave its loop between a selection
and its decode;
* `greedyRound` : greedy verification, next to `Spec.verify`;
* `Question.step` : the outer loop, a verification and a draft in turn;
* `draftTree_levels` : no draft has more tokens than the decodes, and the selection that was not decoded;
* `accept_le_drafted` : what the counters say of each other.
-/

namespace S2Moe.Draft.Target
open S2Moe.Lib
open S2Moe.Spec (Candidate Token Acceptance Draw activeSeqs tokensOf roundFuel verify verify_rule length_tokensOf_lt)

section Code

/-- The decodes of `draft_tree_original` from turn `i` on. -/
def decodesOriginal (cfg : Config) (oracle : Nat → Nat → Candidates) : Nat → Nat → Drafting → Nat
  | 0, _, _ => 0
  | n + 1, i, t =>
    let t := turnOriginal cfg i (oracle i) t
    if t.nBatchDft = 0 then 0 else decodesOriginal cfg oracle n (i + 1) t + 1

/-- The decodes of `draft_tree_prune` from turn `step` on, and the turn that selected a token but did not get to its
decode. -/
def decodesPrune (cfg : Config) (oracle : Nat → Nat → Candidates) (sc : Nat → Scoring) : Nat → Nat → Pruning →
    Nat × Option Nat
  | 0, _, _ => (0, none)
  | n + 1, step, p =>
    if step < max 1 cfg.maxDepth then
      match turnPrune cfg step (oracle step) (sc step) p with
      | (true, q) => ((decodesPrune cfg oracle sc n (step + 1) q).1 + 1, (decodesPrune cfg oracle sc n (step + 1) q).2)
      | (false, q) => (0, if p.selectedNodes < q.selectedNodes then some step else none)
    else (0, none)

/-- What the drafter that is chosen adds to `n_drafted`, and the turn that it does not count. -/
def decodes (cfg : Config) (prune : Bool) (oracle : Nat → Nat → Candidates) (sc : Nat → Scoring) (t : Drafting) :
    Nat × Option Nat :=
  if prune then decodesPrune cfg oracle sc cfg.nDraft 0 (startPruning t) else
    (decodesOriginal cfg oracle cfg.nDraft 0 t, none)

/-- `drafts[s].active` behind the greedy pass over the sequences. -/
def matching (token : Token) (i : Nat) (drafts : List Spec.SeqDraft) : List Spec.SeqDraft :=
  drafts.map fun d => { d with active := d.active && decide (d.tokens[i]? = some token) }

/-- The loop over the positions, greedy. `sample` is the target's choice at a row behind some accepted tokens; `s_keep` is
the last sequence that matches. The result is `none` if the passes given run out. -/
def greedyRound (sample : List Token → Nat → Token) : Nat → Nat → Nat → List Acceptance → List Spec.SeqDraft →
    Option (List Acceptance × Token)
  | 0, _, _, _, _ => none
  | fuel + 1, i, sKeep, acc, drafts =>
    let row := (((drafts[sKeep]?).map Spec.SeqDraft.iBatchTgt).getD []).getD i 0
    let token := sample (acc.map Acceptance.token) row
    match (activeSeqs (matching token i drafts)).getLast? with
    | some s => greedyRound sample fuel (i + 1) s (acc ++ [⟨s, i, token⟩]) (matching token i drafts)
    | none => some (acc, token)

/-- The command line, as far as the drafters read it. -/
structure Settings where
  prune : Bool
  nSeqDft : Nat
  pos : 0 < nSeqDft
  pSplit : Rat
  maxDepth : Int
  maxNodes : Int

/-- The arguments of a drafter. -/
def Settings.config (p : Settings) (nDraft : Nat) (nPastTgt : Int) : Config where
  nSeqDft := p.nSeqDft
  pos := p.pos
  nDraft := nDraft
  nPastTgt := nPastTgt
  pSplit := p.pSplit
  maxDepth := (max 1 p.maxDepth).toNat
  maxNodes := (max 1 (min (max 1 p.maxNodes) (max 1 (nDraft : Int)))).toNat

/-- `sampled` is the token of a verification whose draft has not begun. Two fields are no part of the program: `rounds`
counts the verifications, and `last` is `decodes` of the last draft. -/
structure Question where
  drafts : Nat → SeqDraft := fun _ => {}
  nPastTgt : Int
  nPredict : Nat := 0
  nAccept : Nat := 0
  nDrafted : Nat := 0
  sampled : Option Token := none
  rounds : Nat := 0
  last : Nat × Option Nat := (0, none)

namespace Question

/-- The two verifications and the draft; a stochastic verification ends with a token drawn from what is left. -/
inductive Op
  | greedy (sample : List Token → Nat → Token)
  | stochastic (target : List Token → Nat → List Candidate) (draws : Nat → Draw) (tok : Token)
  | draft (nDraft : Nat) (oracle : Nat → Nat → Candidates) (sc : Nat → Scoring)

/-- The drafts, as verification reads them. -/
def view (p : Settings) (q : Question) : List Spec.SeqDraft :=
  (List.range p.nSeqDft).map fun s => ⟨(q.drafts s).active, (q.drafts s).tokens, (q.drafts s).iBatchTgt⟩

/-- How many tokens a verification accepts, and the token it ends with. -/
def verification (p : Settings) (q : Question) : Op → Option (Nat × Token)
  | .greedy sample =>
    (greedyRound sample (roundFuel (q.view p)) 0 0 [] (q.view p)).map fun r => (r.1.length, r.2)
  | .stochastic target draws tok =>
    (verify target (fun s i => (q.drafts s).dists.getD i []) draws (q.view p)).map fun r => (r.accepted.length, tok)
  | .draft .. => none

/-- One half of the outer loop. What a verification does to the drafts is not read again. -/
def step (p : Settings) (op : Op) (q : Question) : Option Question :=
  match q.sampled, op with
  | some tok, .draft nDraft oracle sc =>
    let cfg := p.config nDraft q.nPastTgt
    let start := startRound cfg tok q.drafts
    let d := decodes cfg p.prune oracle sc start
    some { q with
      drafts := eraseFront (draftTree cfg p.prune oracle sc start).1.drafts
      nPastTgt := q.nPastTgt + 1, nDrafted := q.nDrafted + d.1, sampled := none, last := d }
  | none, op =>
    (q.verification p op).map fun r =>
      { q with
        nPastTgt := q.nPastTgt + r.1, nPredict := q.nPredict + (r.1 + 1), nAccept := q.nAccept + r.1, sampled := some r.2
        rounds := q.rounds + 1 }
  | _, _ => none

/-- In front of the first verification, behind the prompt. -/
def start (nInput : Int) : Question := { nPastTgt := nInput }

/-- A verification accepts no token of the turn that was not counted. -/
def Counts (p : Settings) (q : Question) (op : Op) : Prop :=
  ∀ r turn, q.verification p op = some r → q.last.2 = some turn → r.1 ≤ turn

end Question

end Code

/-! ## `draft_tree_original` -/

section Original
variable {cfg : Config} {i : Nat}

theorem splitsOriginal_counts (c : Candidates) (s : Nat) : ∀ (fs : List Nat) (t : Drafting) (sa : List Nat),
    (splitsOriginal cfg c s fs t sa).1.nBatchDft = t.nBatchDft ∧ t.nSeqCur ≤ (splitsOriginal cfg c s fs t sa).1.nSeqCur ∧
      sa.length ≤ (splitsOriginal cfg c s fs t sa).2.length
  | [], _, _ => ⟨rfl, le_rfl, le_rfl⟩
  | f :: fs, t, sa => by
    rw [splitsOriginal]
    split_ifs
    · obtain ⟨hbatch, hcur, hlen⟩ := splitsOriginal_counts c s fs (t.splitOriginal s) (sa ++ [t.nSeqCur])
      rw [List.length_append] at hlen
      exact ⟨hbatch, (Nat.le_succ _).trans hcur, (Nat.le_add_right _ _).trans hlen⟩
    · exact ⟨rfl, le_rfl, le_rfl⟩

theorem addOriginal_counts (c : Candidates) : ∀ (sa : List Nat) (k : Nat) (t : Drafting),
    (addOriginal cfg i c sa k t).nBatchDft = t.nBatchDft + sa.length ∧ (addOriginal cfg i c sa k t).nSeqCur = t.nSeqCur
  | [], _, _ => ⟨rfl, rfl⟩
  | s :: sa, k, t => by
    obtain ⟨hbatch, hcur⟩ := addOriginal_counts c sa (k + 1) ((t.propose c s k).commit s (c.data k).id (cfg.nPastTgt + i + 1))
    rw [addOriginal, hbatch, hcur]
    refine ⟨?_, rfl⟩
    show t.nBatchDft + 1 + sa.length = t.nBatchDft + (sa.length + 1)
    omega

/-- A sequence that is drafting gets a row of `batch_dft`. -/
theorem draftSeqOriginal_counts (cands : Nat → Candidates) (t : Drafting) (s : Nat) :
    t.nBatchDft ≤ (draftSeqOriginal cfg i cands t s).nBatchDft ∧ t.nSeqCur ≤ (draftSeqOriginal cfg i cands t s).nSeqCur ∧
      ((t.drafts s).drafting = true → (t.drafts s).skip = false → 0 < (draftSeqOriginal cfg i cands t s).nBatchDft) := by
  rw [draftSeqOriginal]
  split_ifs with h
  · obtain ⟨hbatch, hcur, hlen⟩ := @splitsOriginal_counts cfg (cands s) s [1, 2, 3, 4, 5, 6, 7] t [s]
    obtain ⟨hbatch', hcur'⟩ := @addOriginal_counts cfg i (cands s)
      (splitsOriginal cfg (cands s) s [1, 2, 3, 4, 5, 6, 7] t [s]).2 0
      (splitsOriginal cfg (cands s) s [1, 2, 3, 4, 5, 6, 7] t [s]).1
    rw [List.length_singleton] at hlen
    dsimp only
    rw [hbatch', hcur', hbatch]
    exact ⟨Nat.le_add_right _ _, hcur, fun _ _ => by omega⟩
  · refine ⟨le_rfl, le_rfl, fun hdraft hskip => absurd ⟨hdraft, ?_⟩ h⟩
    rw [hskip]
    exact Bool.false_ne_true

/-- Sequence 0 is always drafting, so no turn ends the loop. -/
theorem turnOriginal_counts (cands : Nat → Candidates) {t : Drafting} (h : Original cfg i (fun _ => false) t)
    (hcur : 0 < t.nSeqCur) : 0 < (turnOriginal cfg i cands t).nBatchDft ∧ 0 < (turnOriginal cfg i cands t).nSeqCur := by
  have hfold := foldl_range_rule (f := draftSeqOriginal cfg i cands) (s := t.startTurn)
    (P := fun k u => 0 < u.nSeqCur ∧ (k = 0 → u = t.startTurn) ∧ (0 < k → 0 < u.nBatchDft)) ⟨hcur, fun _ => rfl, by omega⟩
    cfg.nSeqDft (by
      intro k _ u ⟨hu, hzero, hpos⟩
      obtain ⟨hbatch, hseq, hrow⟩ := @draftSeqOriginal_counts cfg i cands u k
      refine ⟨lt_of_lt_of_le hu hseq, by omega, fun _ => ?_⟩
      by_cases hk : k = 0
      · subst hk
        rw [hzero rfl] at hrow ⊢
        exact hrow ((h.drafting 0).mpr hcur) rfl
      · exact lt_of_lt_of_le (hpos (Nat.pos_of_ne_zero hk)) hbatch)
  exact ⟨hfold.2.2 cfg.pos, hfold.1⟩

/-- Every decode gives every sequence in use one more token. -/
theorem draftTreeOriginal_decodes (oracle : Nat → Nat → Candidates) : ∀ (n i : Nat) (t : Drafting),
    Original cfg i (fun _ => false) t → 0 < t.nSeqCur →
      Original cfg (i + decodesOriginal cfg oracle n i t) (fun _ => false) (draftTreeOriginal cfg oracle n i t)
  | 0, _, _, h, _ => h
  | n + 1, i, t, h, hcur => by
    obtain ⟨hbatch, hcur'⟩ := turnOriginal_counts (oracle i) h hcur
    have hrest := draftTreeOriginal_decodes oracle n (i + 1) _ (turnOriginal_spec (oracle i) h) hcur'
    rw [draftTreeOriginal, decodesOriginal, if_neg hbatch.ne', if_neg hbatch.ne']
    rwa [Nat.add_right_comm] at hrest

end Original

/-! ## `draft_tree_prune` -/

/-- No sequence has more than `n` rows. -/
def Drafting.RowsLe (t : Drafting) (n : Nat) : Prop := ∀ s, (t.drafts s).iBatchTgt.length ≤ n

section Prune
variable {cfg : Config} {n : Nat}

theorem Drafting.RowsLe.copyDraft {t : Drafting} (h : t.RowsLe n) (s : Nat) : (t.copyDraft s).RowsLe n := by
  intro k
  show (Function.update t.drafts t.nSeqCur _ k).iBatchTgt.length ≤ n
  by_cases hk : k = t.nSeqCur
  · rw [hk, Function.update_self]
    exact h s
  · rw [Function.update_of_ne hk]
    exact h k

theorem Drafting.iBatchTgt_propose (t : Drafting) (c : Candidates) (s j k : Nat) :
    ((t.propose c s j).drafts k).iBatchTgt = (t.drafts k).iBatchTgt := by
  show (Function.update t.drafts s _ k).iBatchTgt = _
  by_cases hk : k = s
  · rw [hk, Function.update_self]
  · rw [Function.update_of_ne hk]

theorem Drafting.iBatchTgt_takeBack (t : Drafting) (s k : Nat) :
    ((t.takeBack s).drafts k).iBatchTgt = (t.drafts k).iBatchTgt := by
  show (Function.update t.drafts s _ k).iBatchTgt = _
  by_cases hk : k = s
  · rw [hk, Function.update_self]
  · rw [Function.update_of_ne hk]

theorem Drafting.RowsLe.splitsPrune {c : Candidates} {s : Nat} : ∀ (fs : List Nat) {t : Drafting} (sa : List Nat),
    t.RowsLe n → (Target.splitsPrune cfg c s fs t sa).1.RowsLe n
  | [], _, _, h => h
  | f :: fs, t, sa, h => by
    rw [Target.splitsPrune]
    split_ifs
    · exact Drafting.RowsLe.splitsPrune fs _ (h.copyDraft s)
    · exact Drafting.RowsLe.splitsPrune fs sa h

theorem Drafting.RowsLe.addPrune {step parent : Nat} {c : Candidates} : ∀ (sa : List Nat) (k : Nat) {t : Drafting}
    (cs : List Cand),
    t.RowsLe n → (Target.addPrune step parent c sa k (t, cs)).1.RowsLe n
  | [], _, _, _, h => h
  | s :: sa, k, t, cs, h => by
    apply Drafting.RowsLe.addPrune sa (k + 1) (t := t.propose c s k)
    intro m
    rw [Drafting.iBatchTgt_propose]
    exact h m

theorem Drafting.RowsLe.draftSeqPrune {step s : Nat} (cands : Nat → Candidates) {r : Drafting × List Cand}
    (h : r.1.RowsLe n) :
    (Target.draftSeqPrune cfg step cands r s).1.RowsLe n := by
  rw [Target.draftSeqPrune]
  dsimp only
  split_ifs
  · exact h
  · exact (h.splitsPrune _ _).addPrune _ _ _
  · exact h

theorem Drafting.RowsLe.foldl_takeBack : ∀ (ss : List Nat) {t : Drafting}, t.RowsLe n →
    (ss.foldl Drafting.takeBack t).RowsLe n
  | [], _, h => h
  | s :: ss, t, h => by
    rw [List.foldl_cons]
    apply Drafting.RowsLe.foldl_takeBack ss
    intro m
    rw [Drafting.iBatchTgt_takeBack]
    exact h m

theorem Drafting.iBatchTgt_choose (t : Drafting) (step : Nat) (c : Cand) (k : Nat) :
    ((t.choose cfg step c).drafts k).iBatchTgt.length = (t.drafts k).iBatchTgt.length + if k = c.seq then 1 else 0 := by
  have hcommit : ∀ u : Drafting, ((u.commit c.seq c.id (cfg.nPastTgt + step + 1)).drafts k).iBatchTgt.length =
      (u.drafts k).iBatchTgt.length + if k = c.seq then 1 else 0 := by
    intro u
    show (Function.update u.drafts c.seq _ k).iBatchTgt.length = _
    by_cases hk : k = c.seq
    · rw [if_pos hk, hk, Function.update_self, List.length_append, List.length_singleton]
    · rw [if_neg hk, Function.update_of_ne hk, Nat.add_zero]
  rw [Drafting.choose, hcommit]
  split_ifs <;> rfl

/-- Only a selected sequence gets a row, and it gets one. -/
theorem selectLoop_rows {step : Nat} (pass : Nat → Bool) : ∀ (cs : List Cand) (t : Drafting) (nodes : Nat) (sel : List Nat),
    (cs.map Cand.seq).Nodup → (∀ s ∈ cs.map Cand.seq, s ∉ sel) →
    (∀ s, (t.drafts s).iBatchTgt.length ≤ n + if s ∈ sel then 1 else 0) → ∀ r, selectLoop cfg step pass cs t nodes sel = r →
      (∀ s, (r.1.drafts s).iBatchTgt.length ≤ n + if s ∈ r.2.2 then 1 else 0) ∧ r.2.1 + sel.length = nodes + r.2.2.length
  | [], t, nodes, sel, _, _, h, r, hr => by
    subst hr
    exact ⟨h, rfl⟩
  | c :: cs, t, nodes, sel, hnodup, hnew, h, r, hr => by
    rw [List.map_cons, List.nodup_cons] at hnodup
    have hrest : ∀ s ∈ cs.map Cand.seq, s ∉ sel := fun s hs => hnew s (List.mem_cons_of_mem _ hs)
    rw [selectLoop] at hr
    split_ifs at hr
    · subst hr
      exact ⟨h, rfl⟩
    · exact selectLoop_rows pass cs t nodes sel hnodup.2 hrest h r hr
    · exact selectLoop_rows pass cs t nodes sel hnodup.2 hrest h r hr
    · subst hr
      exact ⟨h, rfl⟩
    · obtain ⟨hrows, hcount⟩ := selectLoop_rows pass cs (t.choose cfg step c) (nodes + 1) (c.seq :: sel) hnodup.2 (by
          intro s hs hmem
          rcases List.mem_cons.mp hmem with rfl | hmem
          · exact hnodup.1 hs
          · exact hrest s hs hmem) (by
          intro s
          rw [Drafting.iBatchTgt_choose]
          have hs := h s
          by_cases hc : s = c.seq
          · rw [if_neg (by rw [hc]; exact hnew c.seq List.mem_cons_self)] at hs
            rw [if_pos hc, if_pos (by rw [hc]; exact List.mem_cons_self)]
            omega
          · have hiff : s ∈ c.seq :: sel ↔ s ∈ sel := ⟨fun hm => (List.mem_cons.mp hm).resolve_left hc,
              List.mem_cons_of_mem _⟩
            rw [if_neg hc, if_congr hiff rfl rfl]
            exact hs) r hr
      rw [List.length_cons] at hcount
      exact ⟨hrows, by omega⟩

/-- A turn adds a row to every sequence at most, and none if it selects nothing. -/
theorem turnPrune_rows {step : Nat} (cands : Nat → Candidates) (sc : Scoring) {p : Pruning} {st : Nat → Status}
    (h : Turned cfg step p st) (hrows : p.tree.RowsLe n) :
    (turnPrune cfg step cands sc p).2.tree.RowsLe (n + 1) ∧
      (¬p.selectedNodes < (turnPrune cfg step cands sc p).2.selectedNodes →
        (turnPrune cfg step cands sc p).2.tree.RowsLe n) := by
  have hfold : ((List.range cfg.nSeqDft).foldl (draftSeqPrune cfg step cands) (p.tree.startTurn, [])).1.RowsLe n :=
    foldl_range_rule (P := fun _ (r : Drafting × List Cand) => r.1.RowsLe n) hrows cfg.nSeqDft fun s _ r hr =>
      hr.draftSeqPrune cands
  rw [turnPrune]
  generalize hq : (List.range cfg.nSeqDft).foldl (draftSeqPrune cfg step cands) (p.tree.startTurn, []) = q at hfold ⊢
  obtain ⟨_, hprop⟩ := h.propose cands hq
  dsimp only
  by_cases hzero : q.1.nBatchDft = 0
  · rw [if_pos hzero]
    exact ⟨fun s => (hfold s).trans (Nat.le_succ n), fun _ => hfold⟩
  rw [if_neg hzero]
  generalize hsorted : (q.2.mergeSort fun a b => decide (sc.score b.seq ≤ sc.score a.seq)) = sorted
  have hperm : sorted.Perm q.2 := hsorted ▸ List.mergeSort_perm _ _
  obtain ⟨hsel, hcount⟩ := @selectLoop_rows cfg n step sc.pass sorted q.1 p.selectedNodes []
    ((hperm.map Cand.seq).nodup_iff.mpr hprop.nodup) (fun _ _ => List.not_mem_nil)
    (fun s => by rw [if_neg List.not_mem_nil]; exact hfold s) _ rfl
  generalize selectLoop cfg step sc.pass sorted q.1 p.selectedNodes [] = r at hsel hcount ⊢
  rw [List.length_nil, Nat.add_zero] at hcount
  constructor
  · apply Drafting.RowsLe.foldl_takeBack
    intro s
    exact (hsel s).trans (by split_ifs <;> omega)
  · intro hnone
    have hnil : r.2.2 = [] := List.length_eq_zero_iff.mp (by dsimp only at hnone; omega)
    apply Drafting.RowsLe.foldl_takeBack
    intro s
    have hs := hsel s
    rwa [hnil, if_neg List.not_mem_nil] at hs

/-- The rows are counted, except for those of the turn that `decodesPrune` names, which is the last. -/
theorem draftTreePrune_decodes (oracle : Nat → Nat → Candidates) (sc : Nat → Scoring) : ∀ (m step n : Nat)
    (p : Pruning) (st : Nat → Status), Turned cfg step p st → p.tree.RowsLe n →
    (draftTreePrune cfg oracle sc m step p).tree.RowsLe
        (n + (decodesPrune cfg oracle sc m step p).1 + (decodesPrune cfg oracle sc m step p).2.toList.length) ∧
      ∀ turn, (decodesPrune cfg oracle sc m step p).2 = some turn → turn = step + (decodesPrune cfg oracle sc m step p).1
  | 0, _, _, _, _, _, hrows => ⟨hrows, fun _ h => by cases h⟩
  | m + 1, step, n, p, st, h, hrows => by
    rw [draftTreePrune, decodesPrune]
    split_ifs with hdepth
    · obtain ⟨hrows', hnone⟩ := turnPrune_rows (oracle step) (sc step) h hrows
      obtain ⟨step', st', h', hgo⟩ := turnPrune_spec (oracle step) (sc step) h
      generalize turnPrune cfg step (oracle step) (sc step) p = r at hrows' hnone h' hgo ⊢
      obtain ⟨go, q⟩ := r
      cases go with
      | true =>
        obtain rfl : step' = step + 1 := hgo rfl
        obtain ⟨hrest, hturn⟩ := draftTreePrune_decodes oracle sc m (step + 1) (n + 1) q st' h' hrows'
        refine ⟨fun s => (hrest s).trans (le_of_eq ?_), fun turn heq => ?_⟩
        · dsimp only
          omega
        · rw [hturn turn heq]
          dsimp only
          omega
      | false =>
        dsimp only at hrows' hnone ⊢
        split_ifs with hsel
        · exact ⟨hrows', fun turn heq => (Option.some.inj heq).symm⟩
        · exact ⟨hnone hsel, fun turn heq => by cases heq⟩
    · exact ⟨hrows, fun _ heq => by cases heq⟩

end Prune

/-! ## A draft -/

theorem rowsLe_startRound (cfg : Config) (tok : Token) (drafts : Nat → SeqDraft) : (startRound cfg tok drafts).RowsLe 1 := by
  intro s
  show (resetDrafts tok drafts s).iBatchTgt.length ≤ 1
  rw [resetDrafts]
  split_ifs
  · exact le_rfl
  · exact Nat.zero_le 1

/-- **The tokens of a draft are counted**, but for those of a turn that was not. -/
theorem draftTree_levels (cfg : Config) (prune : Bool) (oracle : Nat → Nat → Candidates) (sc : Nat → Scoring) (tok : Token)
    (drafts : Nat → SeqDraft) (d : Nat × Option Nat) (hd : decodes cfg prune oracle sc (startRound cfg tok drafts) = d) :
    (∀ s, (eraseFront (draftTree cfg prune oracle sc (startRound cfg tok drafts)).1.drafts s).active = true →
      (eraseFront (draftTree cfg prune oracle sc (startRound cfg tok drafts)).1.drafts s).tokens.length ≤
        d.1 + d.2.toList.length) ∧ ∀ turn, d.2 = some turn → turn = d.1 := by
  have htokens : (∀ s, ((draftTree cfg prune oracle sc (startRound cfg tok drafts)).1.drafts s).active = true →
      ((draftTree cfg prune oracle sc (startRound cfg tok drafts)).1.drafts s).tokens.length ≤ 1 + d.1 + d.2.toList.length) ∧
      ∀ turn, d.2 = some turn → turn = d.1 := by
    subst hd
    cases prune with
    | false =>
      have h := draftTreeOriginal_decodes oracle cfg.nDraft 0 _ (startRound_original cfg tok drafts) Nat.one_pos
      refine ⟨fun s hactive => ?_, fun turn h => by cases h⟩
      have hst : statusOriginal (0 + decodesOriginal cfg oracle cfg.nDraft 0 (startRound cfg tok drafts))
          (draftTreeOriginal cfg oracle cfg.nDraft 0 (startRound cfg tok drafts)).nSeqCur (fun _ => false) s =
          .live true (0 + decodesOriginal cfg oracle cfg.nDraft 0 (startRound cfg tok drafts) + 1) none := by
        simp [statusOriginal, (h.active s).mp hactive]
      show ((draftTreeOriginal cfg oracle cfg.nDraft 0 (startRound cfg tok drafts)).drafts s).tokens.length ≤
        1 + decodesOriginal cfg oracle cfg.nDraft 0 (startRound cfg tok drafts) + 0
      rw [(h.inv.live hst).length_tokens, Option.toList_none, List.length_nil]
      omega
    | true =>
      obtain ⟨hrows, hturn⟩ := draftTreePrune_decodes oracle sc cfg.nDraft 0 1 _ _ (startPruning_turned cfg tok drafts)
        (rowsLe_startRound cfg tok drafts)
      refine ⟨fun s hactive => ?_, fun turn h => (hturn turn h).trans (Nat.zero_add _)⟩
      rw [← (wellFormed_draftTree cfg true oracle sc tok drafts s hactive).iBatchTgt]
      exact hrows s
  refine ⟨fun s hactive => ?_, htokens.2⟩
  have hactive' : ((draftTree cfg prune oracle sc (startRound cfg tok drafts)).1.drafts s).active = true := by
    rw [eraseFront] at hactive
    split_ifs at hactive with h
    · exact h
    · exact hactive
  have hle := htokens.1 s hactive'
  rw [eraseFront, if_pos hactive', List.length_drop]
  omega

/-! ## The verifications -/

/-- As many tokens as an active sequence has. -/
def Within (drafts : List Spec.SeqDraft) (n : Nat) : Prop := n = 0 ∨ ∃ s ∈ activeSeqs drafts, n ≤ (tokensOf drafts s).length

theorem tokensOf_matching (token : Token) (i : Nat) (drafts : List Spec.SeqDraft) (s : Nat) :
    tokensOf (matching token i drafts) s = tokensOf drafts s := by
  rw [tokensOf, tokensOf, matching, List.map_map]
  rfl

theorem activeSeqs_matching (token : Token) (i : Nat) (drafts : List Spec.SeqDraft) {s : Nat}
    (h : s ∈ activeSeqs (matching token i drafts)) : s ∈ activeSeqs drafts ∧ (tokensOf drafts s)[i]? = some token := by
  rw [activeSeqs, List.mem_filter, List.mem_range, matching, List.length_map, List.getElem?_map] at h
  have hget : drafts[s]? = some drafts[s] := List.getElem?_eq_getElem h.1
  rw [hget] at h
  have hactive := Bool.and_eq_true_iff.mp h.2
  refine ⟨?_, ?_⟩
  · rw [activeSeqs, List.mem_filter, List.mem_range, hget]
    exact ⟨h.1, hactive.1⟩
  · rw [tokensOf, List.getElem?_map, hget]
    exact of_decide_eq_true hactive.2

/-- The rule for greedy verification, next to `verify_rule`. -/
theorem greedyRound_rule (sample : List Token → Nat → Token) (drafts : List Spec.SeqDraft) (I : Nat → List Acceptance → Prop)
    (hstep : ∀ i acc s token, I i acc → s ∈ activeSeqs drafts → (tokensOf drafts s)[i]? = some token →
      I (i + 1) (acc ++ [⟨s, i, token⟩])) : ∀ (fuel i sKeep : Nat) (acc : List Acceptance) (ds : List Spec.SeqDraft),
    0 < fuel → (∀ s, (tokensOf drafts s).length < i + fuel) → (∀ s, tokensOf ds s = tokensOf drafts s) →
    (∀ s ∈ activeSeqs ds, s ∈ activeSeqs drafts) → I i acc →
    ∃ r n, greedyRound sample fuel i sKeep acc ds = some r ∧ I n r.1
  | 0, _, _, _, _, hpos, _, _, _, _ => absurd hpos (lt_irrefl 0)
  | fuel + 1, i, sKeep, acc, ds, _, hlen, htokens, hactive, hI => by
    rw [greedyRound]
    generalize sample (acc.map Acceptance.token) ((((ds[sKeep]?).map Spec.SeqDraft.iBatchTgt).getD []).getD i 0) = token
    cases hlast : (activeSeqs (matching token i ds)).getLast? with
    | none => exact ⟨_, i, rfl, hI⟩
    | some s =>
      obtain ⟨hs, hget⟩ := activeSeqs_matching token i ds (List.mem_of_getLast? hlast)
      rw [htokens] at hget
      have hlt := (List.getElem?_eq_some_iff.mp hget).1
      have hbound := hlen s
      apply greedyRound_rule sample drafts I hstep fuel (i + 1) s _ (matching token i ds) (by omega)
      · intro t
        have := hlen t
        omega
      · intro t
        rw [tokensOf_matching, htokens]
      · intro t ht
        exact hactive t (activeSeqs_matching token i ds ht).1
      · exact hstep i acc s token hI (hactive s hs) hget

theorem greedy_rule (sample : List Token → Nat → Token) (drafts : List Spec.SeqDraft) (I : Nat → List Acceptance → Prop)
    (hinit : I 0 []) (hstep : ∀ i acc s token, I i acc → s ∈ activeSeqs drafts → (tokensOf drafts s)[i]? = some token →
      I (i + 1) (acc ++ [⟨s, i, token⟩])) :
    ∃ r n, greedyRound sample (roundFuel drafts) 0 0 [] drafts = some r ∧ I n r.1 :=
  greedyRound_rule sample drafts I hstep (roundFuel drafts) 0 0 [] drafts (Nat.succ_pos _)
    (fun s => by rw [Nat.zero_add]; exact length_tokensOf_lt drafts s) (fun _ => rfl) (fun _ h => h) hinit

/-- Greedy verification ends, with tokens of an active sequence. -/
theorem greedyRound_within (sample : List Token → Nat → Token) (drafts : List Spec.SeqDraft) :
    ∃ r, greedyRound sample (roundFuel drafts) 0 0 [] drafts = some r ∧ Within drafts r.1.length := by
  obtain ⟨r, n, hr, hlen, hwithin⟩ := greedy_rule sample drafts (fun n acc => acc.length = n ∧ Within drafts n)
    ⟨rfl, .inl rfl⟩ (by
      intro i acc s token h hs hget
      rw [List.length_append, h.1, List.length_singleton]
      exact ⟨rfl, .inr ⟨s, hs, (List.getElem?_eq_some_iff.mp hget).1⟩⟩)
  rw [← hlen] at hwithin
  exact ⟨r, hr, hwithin⟩

theorem verify_within (target : List Token → Nat → List Candidate) (dists : Nat → Nat → List Candidate) (draws : Nat → Draw)
    (drafts : List Spec.SeqDraft) : ∃ r, verify target dists draws drafts = some r ∧ Within drafts r.accepted.length := by
  obtain ⟨r, n, hr, hlen, hwithin⟩ := verify_rule target draws dists drafts
    (fun n acc => acc.length = n ∧ Within drafts n) ⟨rfl, .inl rfl⟩ (by
      intro i acc s h hs hlt
      rw [List.length_append, h.1, List.length_singleton]
      exact ⟨rfl, .inr ⟨s, hs, hlt⟩⟩)
  rw [← hlen] at hwithin
  exact ⟨r, hr, hwithin⟩

/-! ## Runs -/

namespace Question
variable {p : Settings} {q q' : Question}

theorem mem_activeSeqs_view {s : Nat} (h : s ∈ activeSeqs (q.view p)) :
    (q.drafts s).active = true ∧ tokensOf (q.view p) s = (q.drafts s).tokens := by
  rw [activeSeqs, List.mem_filter, List.mem_range] at h
  have hlt : s < p.nSeqDft := by
    have hlen := h.1
    rwa [view, List.length_map, List.length_range] at hlen
  have hget : (q.view p)[s]? = some ⟨(q.drafts s).active, (q.drafts s).tokens, (q.drafts s).iBatchTgt⟩ := by
    rw [view, List.getElem?_map, List.getElem?_range hlt]
    rfl
  rw [hget] at h
  refine ⟨h.2, ?_⟩
  rw [tokensOf, List.getElem?_map, hget]
  rfl

/-- Every verification ends, with tokens of an active sequence. -/
theorem verification_spec (p : Settings) (q : Question) (op : Op) (hop : ∀ nDraft oracle sc, op ≠ .draft nDraft oracle sc) :
    ∃ r, q.verification p op = some r ∧ (r.1 = 0 ∨ ∃ s, (q.drafts s).active = true ∧ r.1 ≤ (q.drafts s).tokens.length) := by
  have hactive : ∀ n, Within (q.view p) n → n = 0 ∨ ∃ s, (q.drafts s).active = true ∧ n ≤ (q.drafts s).tokens.length := by
    intro n h
    refine h.imp_right fun ⟨s, hs, hle⟩ => ⟨s, (mem_activeSeqs_view hs).1, ?_⟩
    rwa [(mem_activeSeqs_view hs).2] at hle
  cases op with
  | greedy sample =>
    obtain ⟨r, hr, hwithin⟩ := greedyRound_within sample (q.view p)
    exact ⟨_, by rw [verification, hr]; rfl, hactive _ hwithin⟩
  | stochastic target draws tok =>
    obtain ⟨r, hr, hwithin⟩ := verify_within target (fun s i => (q.drafts s).dists.getD i []) draws (q.view p)
    exact ⟨_, by rw [verification, hr]; rfl, hactive _ hwithin⟩
  | draft nDraft oracle sc => exact absurd rfl (hop nDraft oracle sc)

/-- What is known in every run: between a draft and its verification, how many tokens there are. -/
structure Known (q : Question) : Prop where
  rounds : q.nPredict = q.nAccept + q.rounds
  tokens : q.sampled = none → ∀ s, (q.drafts s).active = true → (q.drafts s).tokens.length ≤ q.last.1 + q.last.2.toList.length
  turn : ∀ turn, q.last.2 = some turn → turn = q.last.1

/-- What the counters say of each other when all tokens are counted. -/
structure Covered (q : Question) : Prop extends Known q where
  accept : q.nAccept + (if q.sampled = none then q.last.1 else 0) ≤ q.nDrafted

theorem known_start (nInput : Int) : Known (start nInput) where
  rounds := rfl
  tokens _ s h := by cases h
  turn _ h := by cases h

/-- A verification accepts no more tokens than there are. -/
theorem Known.verification_le (h : Known q) (hsampled : q.sampled = none) {op : Op} {r : Nat × Token}
    (hr : q.verification p op = some r) : r.1 ≤ q.last.1 + q.last.2.toList.length := by
  cases op with
  | draft nDraft oracle sc => cases hr
  | greedy sample =>
    obtain ⟨r', hr', hle⟩ := verification_spec p q (.greedy sample) fun _ _ _ h => by cases h
    obtain rfl := Option.some.inj (hr.symm.trans hr')
    rcases hle with hzero | ⟨s, hs, hle⟩
    · omega
    · exact hle.trans (h.tokens hsampled s hs)
  | stochastic target draws tok =>
    obtain ⟨r', hr', hle⟩ := verification_spec p q (.stochastic target draws tok) fun _ _ _ h => by cases h
    obtain rfl := Option.some.inj (hr.symm.trans hr')
    rcases hle with hzero | ⟨s, hs, hle⟩
    · omega
    · exact hle.trans (h.tokens hsampled s hs)

/-- What is accepted is counted exactly if no token of the last turn is accepted that was not. -/
theorem Known.counts_iff (h : Known q) (hsampled : q.sampled = none) {op : Op} {r : Nat × Token}
    (hr : q.verification p op = some r) : Counts p q op ↔ r.1 ≤ q.last.1 := by
  constructor
  · intro hcounts
    have hle := h.verification_le hsampled hr
    cases hlast : q.last.2 with
    | none =>
      rw [hlast] at hle
      exact hle
    | some turn =>
      rw [← h.turn turn hlast]
      exact hcounts r turn hr hlast
  · intro hle r' turn hr' hturn
    obtain rfl := Option.some.inj (hr.symm.trans hr')
    rwa [h.turn turn hturn]

/-- The two kinds of steps. -/
theorem step_cases {op : Op} (h : q.step p op = some q') :
    (∃ r, q.sampled = none ∧ q.verification p op = some r ∧
      q' = { q with
        nPastTgt := q.nPastTgt + r.1, nPredict := q.nPredict + (r.1 + 1), nAccept := q.nAccept + r.1, sampled := some r.2
        rounds := q.rounds + 1 }) ∨
    ∃ tok cfg oracle sc, q.sampled = some tok ∧ q' = { q with
      drafts := eraseFront (draftTree cfg p.prune oracle sc (startRound cfg tok q.drafts)).1.drafts
      nPastTgt := q.nPastTgt + 1
      nDrafted := q.nDrafted + (decodes cfg p.prune oracle sc (startRound cfg tok q.drafts)).1
      sampled := none
      last := decodes cfg p.prune oracle sc (startRound cfg tok q.drafts) } := by
  unfold step at h
  cases hsampled : q.sampled with
  | none =>
    rw [hsampled] at h
    obtain ⟨r, hr, hq'⟩ := Option.map_eq_some_iff.mp h
    exact .inl ⟨r, rfl, hr, hq'.symm⟩
  | some tok =>
    rw [hsampled] at h
    cases op with
    | greedy sample => cases h
    | stochastic target draws tok => cases h
    | draft nDraft oracle sc => exact .inr ⟨tok, _, oracle, sc, rfl, (Option.some.inj h).symm⟩

theorem Known.step (h : Known q) {op : Op} (hstep : q.step p op = some q') : Known q' := by
  rcases step_cases hstep with ⟨r, _, _, rfl⟩ | ⟨tok, cfg, oracle, sc, _, rfl⟩
  · refine ⟨?_, fun hnone => absurd hnone (Option.some_ne_none r.2), h.turn⟩
    have := h.rounds
    dsimp only
    omega
  · obtain ⟨htokens, hturn⟩ := draftTree_levels cfg p.prune oracle sc tok q.drafts _ rfl
    exact ⟨h.rounds, fun _ => htokens, hturn⟩

theorem Covered.step (h : Covered q) {op : Op} (hcounts : Counts p q op) (hstep : q.step p op = some q') : Covered q' := by
  refine ⟨h.toKnown.step hstep, ?_⟩
  have haccept := h.accept
  rcases step_cases hstep with ⟨r, hsampled, hr, rfl⟩ | ⟨tok, cfg, oracle, sc, hsampled, rfl⟩
  · have hle := (h.toKnown.counts_iff hsampled hr).mp hcounts
    rw [if_pos hsampled] at haccept
    rw [if_neg (Option.some_ne_none r.2)]
    dsimp only
    omega
  · rw [hsampled, if_neg (Option.some_ne_none tok)] at haccept
    rw [if_pos rfl]
    dsimp only
    omega

/-- **The counters of a question.** There is one predicted token for every accepted one and one for every verification.
While no verification accepts a token of a turn that was not counted, at most as many tokens are accepted as are drafted;
and where all that was counted has been accepted, that is the exact condition. -/
theorem accept_le_drafted (p : Settings) (nInput : Int) :
    (∀ q, Reaches (Question.step p) (fun _ _ => True) (start nInput) q →
      q.nAccept ≤ q.nPredict ∧ q.nPredict - q.nAccept = q.rounds) ∧
    (∀ q, Reaches (Question.step p) (Counts p) (start nInput) q →
      q.nAccept ≤ q.nDrafted ∧ (0 < q.nAccept → q.nDrafted ≠ 0)) ∧
    ∀ q q' op, Reaches (Question.step p) (fun _ _ => True) (start nInput) q → q.step p op = some q' → q.sampled = none →
      q.nDrafted = q.nAccept + q.last.1 → (q'.nAccept ≤ q'.nDrafted ↔ Counts p q op) := by
  have hknown : ∀ q, Reaches (Question.step p) (fun _ _ => True) (start nInput) q → Known q :=
    fun q hq => hq.invariant (known_start nInput) fun _ _ _ h _ hstep => h.step hstep
  refine ⟨fun q hq => ?_, fun q hq => ?_, fun q q' op hq hstep hsampled hall => ?_⟩
  · have := (hknown q hq).rounds
    omega
  · have hcovered : Covered q := hq.invariant ⟨known_start nInput, le_rfl⟩ fun _ _ _ h hcounts hstep => h.step hcounts hstep
    have := hcovered.accept
    omega
  · rcases step_cases hstep with ⟨r, _, hr, rfl⟩ | ⟨tok, cfg, oracle, sc, htok, _⟩
    · rw [(hknown q hq).counts_iff hsampled hr]
      dsimp only
      omega
    · rw [hsampled] at htok
      cases htok

end Question

/-- One sequence; with pruning, one node at most. -/
def oneSequence (prune : Bool) : Settings := ⟨prune, 1, Nat.one_pos, 1 / 4, 5, 1⟩

/-- The token 7 is drafted and then accepted. -/
def acceptSeven : List Question.Op :=
  [.greedy fun _ _ => 3, .draft 2 (fun _ _ => ⟨1, fun _ => ⟨7, 1⟩⟩) fun _ => ⟨fun _ => 0, fun _ => true⟩,
    .greedy fun acc _ => if acc = [] then 7 else 3]

theorem accept_le_drafted_acceptSeven : ∃ q, runList (Question.step (oneSequence false)) acceptSeven (Question.start 10) =
    some q ∧
    q.nAccept = 1 ∧ q.nAccept ≤ q.nDrafted ∧ q.nPredict - q.nAccept = q.rounds := by
  obtain ⟨hrounds, haccept, _⟩ := Question.accept_le_drafted (oneSequence false) 10
  have hcounts : ∀ q op, q.last.2 = none → Question.Counts (oneSequence false) q op := by
    intro q op h r turn _ hturn
    rw [h] at hturn
    cases hturn
  have h₀ : Reaches (Question.step (oneSequence false)) (Question.Counts (oneSequence false)) (Question.start 10) _ := .start
  have h₁ := h₀.step (.greedy fun _ _ => 3) (hcounts _ _ rfl) rfl
  have h₂ := h₁.step (.draft 2 (fun _ _ => ⟨1, fun _ => ⟨7, 1⟩⟩) fun _ => ⟨fun _ => 0, fun _ => true⟩) (hcounts _ _ rfl) rfl
  have h₃ := h₂.step (.greedy fun acc _ => if acc = [] then 7 else 3) (hcounts _ _ rfl) rfl
  exact ⟨_, rfl, rfl, (haccept _ h₃).1, (hrounds _ (h₃.mono fun _ _ _ => trivial)).2⟩

/-- The selection of the token 7 ends the draft. -/
theorem acceptSeven_uncounted : ¬ ∀ (p : Settings) (nInput : Int) (q : Question),
    Reaches (Question.step p) (fun _ _ => True) (Question.start nInput) q →
      q.nAccept ≤ q.nDrafted ∧ q.nPredict - q.nAccept = q.rounds := by
  intro h
  have hrun : ∃ q, runList (Question.step (oneSequence true)) acceptSeven (Question.start 10) = some q ∧
      q.nDrafted < q.nAccept := by
    have hsome : (runList (Question.step (oneSequence true)) acceptSeven (Question.start 10)).map
        (fun q => (q.nAccept, q.nDrafted)) = some (1, 0) := by decide +kernel
    obtain ⟨q, hq, hcount⟩ := Option.map_eq_some_iff.mp hsome
    obtain ⟨haccept, hdrafted⟩ := Prod.mk.inj hcount
    exact ⟨q, hq, by omega⟩
  obtain ⟨q, hq, hlt⟩ := hrun
  have hle := (h (oneSequence true) 10 q (Reaches.start.runList (fun _ _ _ => trivial) hq)).1
  omega

end S2Moe.Draft.Target
