import S2Moe.Lib.Loop
import S2Moe.Spec.Verify

/-!
# The batch that a draft tree leaves for the target

`draft_tree_original` and `draft_tree_prune` with the vectors of `seq_draft` and the rows of `batch_tgt`. What they do to the
draft's KV cache is in `Draft.Tree`; here a sampler is any function from turns and sequences to candidates.

* `Drafting` : the drafts, `batch_tgt`, and the two counters; `copyDraft`, `propose`, `commit` : a branch is copied, gets a
  token, and the token gets a row;
* `draftTreeOriginal`, `draftTreePrune` : the two drafters;
* `Marked` : the rows of a sequence, `Chain` : rows with given tokens at consecutive positions;
* `Status`, `At`, `Inv` : how far each sequence is, while the drafter works on it;
* `Inv.propose`, `Inv.commit`, `Inv.splitOriginal`, `Inv.copyDraft`, `Inv.addSeq`, `Inv.takeBack` : what one operation does.
-/

namespace S2Moe.Draft.Target
open S2Moe.Lib
open S2Moe.Spec (Candidate Token)

/-- `llama_token_data_array`. The array has entries behind `size`, which the first drafter reads. -/
structure Candidates where
  size : Nat
  data : Nat → Candidate

def Candidates.list (c : Candidates) : List Candidate := (List.range c.size).map c.data

/-- `seq_draft`. The field `drawn` is no part of it: it has the tokens with the probabilities they were drawn with. -/
structure SeqDraft where
  active : Bool := false
  drafting : Bool := false
  skip : Bool := false
  iBatchDft : Nat := 0
  iBatchTgt : List Nat := []
  tokens : List Token := []
  probs : List Rat := []
  dists : List (List Candidate) := []
  drawn : List (Token × Rat) := []

structure Row where
  token : Token
  pos : Int
  seqIds : List Nat

/-- `nBatchDft` is `batch_dft.n_tokens`. -/
structure Drafting where
  drafts : Nat → SeqDraft
  batchTgt : List Row
  nBatchDft : Nat := 0
  nSeqCur : Nat := 1

structure Config where
  nSeqDft : Nat
  pos : 0 < nSeqDft
  nDraft : Nat
  nPastTgt : Int
  pSplit : Rat
  maxDepth : Nat
  maxNodes : Nat

namespace Drafting

def modify (t : Drafting) (s : Nat) (f : SeqDraft → SeqDraft) : Drafting :=
  { t with drafts := Function.update t.drafts s (f (t.drafts s)) }

/-- The next sequence becomes a copy of `s`. -/
def copyDraft (t : Drafting) (s : Nat) : Drafting :=
  { t with
    drafts := Function.update t.drafts t.nSeqCur { t.drafts s with active := true, drafting := true, skip := true }
    nSeqCur := t.nSeqCur + 1 }

/-- Candidate `k` of `c` is added to sequence `s` and to `batch_dft`. -/
def propose (t : Drafting) (c : Candidates) (s k : Nat) : Drafting :=
  { t.modify s fun d =>
      { d with
        tokens := d.tokens ++ [(c.data k).id]
        probs := d.probs ++ [(c.data k).p]
        dists := d.dists ++ [c.list]
        drawn := d.drawn ++ [((c.data k).id, (c.data k).p)]
        iBatchDft := t.nBatchDft } with
    nBatchDft := t.nBatchDft + 1 }

/-- The token gets a row of `batch_tgt`. -/
def commit (t : Drafting) (s : Nat) (id : Token) (pos : Int) : Drafting :=
  { t.modify s fun d => { d with iBatchTgt := d.iBatchTgt ++ [t.batchTgt.length] } with
    batchTgt := t.batchTgt ++ [⟨id, pos, [s]⟩] }

/-- The start of a turn. -/
def startTurn (t : Drafting) : Drafting :=
  { t with nBatchDft := 0, drafts := fun s => { t.drafts s with skip := false } }

end Drafting

/-! ## `draft_tree_original` -/

/-- All rows of `s` become rows of `n` as well. -/
def shareRows (rows : List Row) (s n : Nat) : List Row :=
  rows.map fun r => if s ∈ r.seqIds then { r with seqIds := r.seqIds ++ [n] } else r

def Drafting.splitOriginal (t : Drafting) (s : Nat) : Drafting :=
  { t.copyDraft s with batchTgt := shareRows t.batchTgt s t.nSeqCur }

/-- The loop over `f`; `sa` has the sequences that get a token. -/
def splitsOriginal (cfg : Config) (c : Candidates) (s : Nat) : List Nat → Drafting → List Nat → Drafting × List Nat
  | [], t, sa => (t, sa)
  | f :: fs, t, sa =>
    if t.nSeqCur < cfg.nSeqDft ∧ cfg.pSplit < (c.data f).p then
      splitsOriginal cfg c s fs (t.splitOriginal s) (sa ++ [t.nSeqCur])
    else (t, sa)

/-- The loop over `sa`. -/
def addOriginal (cfg : Config) (i : Nat) (c : Candidates) : List Nat → Nat → Drafting → Drafting
  | [], _, t => t
  | s :: sa, k, t =>
    addOriginal cfg i c sa (k + 1) ((t.propose c s k).commit s (c.data k).id (cfg.nPastTgt + i + 1))

def draftSeqOriginal (cfg : Config) (i : Nat) (cands : Nat → Candidates) (t : Drafting) (s : Nat) : Drafting :=
  if (t.drafts s).drafting ∧ ¬ (t.drafts s).skip then
    let r := splitsOriginal cfg (cands s) s [1, 2, 3, 4, 5, 6, 7] t [s]
    addOriginal cfg i (cands s) r.2 0 r.1
  else t

def turnOriginal (cfg : Config) (i : Nat) (cands : Nat → Candidates) (t : Drafting) : Drafting :=
  (List.range cfg.nSeqDft).foldl (draftSeqOriginal cfg i cands) t.startTurn

/-- The turns from `i` on. -/
def draftTreeOriginal (cfg : Config) (oracle : Nat → Nat → Candidates) : Nat → Nat → Drafting → Drafting
  | 0, _, t => t
  | n + 1, i, t =>
    let t := turnOriginal cfg i (oracle i) t
    if t.nBatchDft = 0 then t else draftTreeOriginal cfg oracle n (i + 1) t

/-! ## `draft_tree_prune` -/

/-- `Candidate`, without what the scores are computed from. -/
structure Cand where
  seq : Nat
  newSeq : Bool
  id : Token
  depth : Nat

/-- The scores, and the outcome of the tests on budget, confidence and score, for the candidate of each sequence. -/
structure Scoring where
  score : Nat → Rat
  pass : Nat → Bool

/-- The loop over `f`. -/
def splitsPrune (cfg : Config) (c : Candidates) (s : Nat) : List Nat → Drafting → List Nat → Drafting × List Nat
  | [], t, sa => (t, sa)
  | f :: fs, t, sa =>
    if t.nSeqCur < cfg.nSeqDft ∧ 1 / 10 < (c.data f).p then splitsPrune cfg c s fs (t.copyDraft s) (sa ++ [t.nSeqCur])
    else splitsPrune cfg c s fs t sa

/-- The loop over `sa`; `parent` is the sequence that is being split. -/
def addPrune (step parent : Nat) (c : Candidates) : List Nat → Nat → Drafting × List Cand → Drafting × List Cand
  | [], _, r => r
  | s :: sa, k, (t, cs) =>
    addPrune step parent c sa (k + 1) (t.propose c s k, cs ++ [⟨s, decide (s ≠ parent), (c.data k).id, step + 1⟩])

def nCandidates (cfg : Config) (step : Nat) (c : Candidates) (t : Drafting) : Nat :=
  let n := min c.size (1 + (cfg.nSeqDft - t.nSeqCur))
  if step = 0 then min n 1 else n

def draftSeqPrune (cfg : Config) (step : Nat) (cands : Nat → Candidates) (r : Drafting × List Cand) (s : Nat) :
    Drafting × List Cand :=
  if (r.1.drafts s).drafting ∧ ¬ (r.1.drafts s).skip then
    let n := nCandidates cfg step (cands s) r.1
    if n = 0 then r
    else
      let q := splitsPrune cfg (cands s) s (List.range' 1 (n - 1)) r.1 [s]
      addPrune step s (cands s) q.2 0 (q.1, r.2)
  else r

/-- Sequence `n` is added to the rows in `idxs`, where it is not there yet. -/
def addSeq (n : Nat) : List Nat → List Row → List Row
  | [], rows => rows
  | k :: idxs, rows =>
    addSeq n idxs (rows.modify k fun r => if n ∈ r.seqIds then r else { r with seqIds := r.seqIds ++ [n] })

/-- A candidate is selected. -/
def Drafting.choose (t : Drafting) (cfg : Config) (step : Nat) (c : Cand) : Drafting :=
  let t := if c.newSeq then { t with batchTgt := addSeq c.seq (t.drafts c.seq).iBatchTgt t.batchTgt } else t
  t.commit c.seq c.id (cfg.nPastTgt + step + 1)

/-- The loop over the sorted candidates: the selected nodes so far, and the sequences with a selected token. -/
def selectLoop (cfg : Config) (step : Nat) (pass : Nat → Bool) : List Cand → Drafting → Nat → List Nat →
    Drafting × Nat × List Nat
  | [], t, nodes, sel => (t, nodes, sel)
  | c :: cs, t, nodes, sel =>
    if max 1 cfg.maxNodes ≤ nodes then (t, nodes, sel)
    else if max 1 cfg.maxDepth < c.depth then selectLoop cfg step pass cs t nodes sel
    else if pass c.seq = false then selectLoop cfg step pass cs t nodes sel
    else if cfg.nDraft ≤ t.batchTgt.length then (t, nodes, sel)
    else selectLoop cfg step pass cs (t.choose cfg step c) (nodes + 1) (c.seq :: sel)

/-- The token that was not selected is taken back; its probability stays. -/
def Drafting.takeBack (t : Drafting) (s : Nat) : Drafting :=
  t.modify s fun d => { d with tokens := d.tokens.dropLast, dists := d.dists.dropLast, drawn := d.drawn.dropLast }

/-- `rolledBack` is no part of the program: it says that a token was taken back. -/
structure Pruning where
  tree : Drafting
  activeSeq : Nat → Bool
  selectedNodes : Nat := 0
  rolledBack : Bool := false

/-- The sequences whose token is taken back. -/
def Pruning.dropped (activeBefore : Nat → Bool) (sel : List Nat) (cs : List Cand) : List Nat :=
  (cs.map Cand.seq).filter fun s => !(decide (s ∈ sel) || !activeBefore s)

/-- One turn, and whether the loop goes on. -/
def turnPrune (cfg : Config) (step : Nat) (cands : Nat → Candidates) (sc : Scoring) (p : Pruning) : Bool × Pruning :=
  let q := (List.range cfg.nSeqDft).foldl (draftSeqPrune cfg step cands) (p.tree.startTurn, [])
  if q.1.nBatchDft = 0 then (false, { p with tree := q.1 })
  else
    let sorted := q.2.mergeSort fun a b => decide (sc.score b.seq ≤ sc.score a.seq)
    let r := selectLoop cfg step sc.pass sorted q.1 p.selectedNodes []
    let dropped := Pruning.dropped p.activeSeq r.2.2 sorted
    let t := dropped.foldl Drafting.takeBack r.1
    let activeSeq := fun s => p.activeSeq s || decide (s ∈ r.2.2)
    let t := { t with drafts := fun s =>
      { t.drafts s with active := activeSeq s, drafting := decide (s ∈ r.2.2) } }
    let p := { tree := t, activeSeq := activeSeq, selectedNodes := r.2.1
               rolledBack := p.rolledBack || !dropped.isEmpty }
    (!(decide (max 1 cfg.maxNodes ≤ p.selectedNodes) || decide (cfg.nDraft ≤ t.batchTgt.length)) &&
      (List.range cfg.nSeqDft).any (fun s => (t.drafts s).drafting), p)

/-- The turns from `step` on. -/
def draftTreePrune (cfg : Config) (oracle : Nat → Nat → Candidates) (sc : Nat → Scoring) : Nat → Nat → Pruning → Pruning
  | 0, _, p => p
  | n + 1, step, p =>
    if step < max 1 cfg.maxDepth then
      match turnPrune cfg step (oracle step) (sc step) p with
      | (true, p) => draftTreePrune cfg oracle sc n (step + 1) p
      | (false, p) => p
    else p

/-! ## A round -/

/-- `main` between the verification and the drafter: the drafts are cleared, except for their probabilities, and sequence 0
gets the sampled token. -/
def resetDrafts (tok : Token) (drafts : Nat → SeqDraft) (s : Nat) : SeqDraft :=
  let d := { drafts s with active := false, drafting := false, tokens := [], iBatchTgt := [], dists := [], drawn := [] }
  if s = 0 then
    { d with
      active := true, drafting := true, iBatchDft := 0, tokens := d.tokens ++ [tok], probs := d.probs ++ [1]
      dists := d.dists ++ [[]], iBatchTgt := d.iBatchTgt ++ [0], drawn := d.drawn ++ [(tok, 1)] }
  else d

/-- The state the drafters start from. -/
def startRound (cfg : Config) (tok : Token) (drafts : Nat → SeqDraft) : Drafting where
  drafts := resetDrafts tok drafts
  batchTgt := [⟨tok, cfg.nPastTgt, [0]⟩]

def startPruning (t : Drafting) : Pruning where
  tree := t
  activeSeq s := decide (s = 0)

/-- The drafter that is chosen, and whether it took a token back. -/
def draftTree (cfg : Config) (prune : Bool) (oracle : Nat → Nat → Candidates) (sc : Nat → Scoring) (t : Drafting) :
    Drafting × Bool :=
  if prune then
    let p := draftTreePrune cfg oracle sc cfg.nDraft 0 (startPruning t)
    (p.tree, p.rolledBack)
  else (draftTreeOriginal cfg oracle cfg.nDraft 0 t, false)

/-! ## Rows and chains -/

/-- Row `k` belongs to sequence `s`. -/
def Marked (rows : List Row) (s k : Nat) : Prop := ∃ r, rows[k]? = some r ∧ s ∈ r.seqIds

/-- Row `k` has this token at this position. -/
def Labelled (rows : List Row) (k : Nat) (x : Token) (pos : Int) : Prop :=
  ∃ r, rows[k]? = some r ∧ r.token = x ∧ r.pos = pos

/-- No row changes its token or position. -/
def Extends (rows rows' : List Row) : Prop := ∀ k x pos, Labelled rows k x pos → Labelled rows' k x pos

theorem Labelled.lt {rows : List Row} {k : Nat} {x : Token} {pos : Int} (h : Labelled rows k x pos) : k < rows.length := by
  obtain ⟨r, hr, -, -⟩ := h
  exact (List.getElem?_eq_some_iff.mp hr).1

theorem extends_append (rows : List Row) (r : Row) : Extends rows (rows ++ [r]) := by
  rintro k x pos ⟨q, hq, hx, hp⟩
  refine ⟨q, ?_, hx, hp⟩
  rw [List.getElem?_append_left (List.getElem?_eq_some_iff.mp hq).1]
  exact hq

theorem labelled_append (rows : List Row) (r : Row) : Labelled (rows ++ [r]) rows.length r.token r.pos :=
  ⟨r, by simp, rfl, rfl⟩

theorem marked_append (rows : List Row) (x : Token) (pos : Int) (n s k : Nat) :
    Marked (rows ++ [⟨x, pos, [n]⟩]) s k ↔ Marked rows s k ∨ s = n ∧ k = rows.length := by
  simp only [Marked]
  rcases lt_trichotomy k rows.length with h | h | h
  · rw [List.getElem?_append_left h]
    simp [Nat.ne_of_lt h]
  · subst h
    simp
  · rw [List.getElem?_eq_none (by simp; omega), List.getElem?_eq_none (by omega)]
    simp [Nat.ne_of_gt h]

theorem extends_shareRows (rows : List Row) (s n : Nat) : Extends rows (shareRows rows s n) := by
  rintro k x pos ⟨r, hr, hx, hp⟩
  refine ⟨_, by simp only [shareRows, List.getElem?_map, hr, Option.map_some]; rfl, ?_, ?_⟩
  · split <;> exact hx
  · split <;> exact hp

theorem marked_shareRows (rows : List Row) (s n m k : Nat) :
    Marked (shareRows rows s n) m k ↔ Marked rows m k ∨ m = n ∧ Marked rows s k := by
  simp only [Marked, shareRows, List.getElem?_map]
  cases rows[k]? with
  | none => simp
  | some r =>
    simp only [Option.map_some, Option.some.injEq, exists_eq_left']
    by_cases h : s ∈ r.seqIds <;> simp [h]

theorem nodup_shareRows {rows : List Row} {s n : Nat} (h : ∀ r ∈ rows, r.seqIds.Nodup) (hn : ∀ k, ¬ Marked rows n k) :
    ∀ r ∈ shareRows rows s n, r.seqIds.Nodup := by
  intro q hq
  obtain ⟨r, hr, rfl⟩ := List.mem_map.mp hq
  obtain ⟨k, hk⟩ := List.mem_iff_getElem?.mp hr
  have hnew : n ∉ r.seqIds := fun hm => hn k ⟨r, hk, hm⟩
  split
  · simpa using (h r hr).concat hnew
  · exact h r hr

/-- What `addSeq` does with one row. -/
theorem addSeq_cons (n k : Nat) (idxs : List Nat) (rows : List Row) :
    addSeq n (k :: idxs) rows = addSeq n idxs (rows.modify k
      fun r => if n ∈ r.seqIds then r else { r with seqIds := r.seqIds ++ [n] }) := rfl

theorem extends_addSeq (n : Nat) (idxs : List Nat) (rows : List Row) : Extends rows (addSeq n idxs rows) := by
  induction idxs generalizing rows with
  | nil => exact fun k x pos h => h
  | cons i idxs ih =>
    rintro k x pos ⟨r, hr, hx, hp⟩
    rw [addSeq_cons]
    apply ih
    simp only [Labelled, List.getElem?_modify, hr, Option.map_eq_map, Option.map_some, Option.some.injEq, exists_eq_left']
    split
    · split <;> exact ⟨hx, hp⟩
    · exact ⟨hx, hp⟩

theorem marked_addSeq (n : Nat) (idxs : List Nat) (rows : List Row) (h : ∀ i ∈ idxs, i < rows.length) (m k : Nat) :
    Marked (addSeq n idxs rows) m k ↔ Marked rows m k ∨ m = n ∧ k ∈ idxs := by
  induction idxs generalizing rows with
  | nil => simp [addSeq]
  | cons i idxs ih =>
    rw [addSeq_cons, ih _ (by simpa using fun j hj => h j (List.mem_cons_of_mem _ hj))]
    have hi := h i List.mem_cons_self
    have hone : Marked (rows.modify i fun r => if n ∈ r.seqIds then r else { r with seqIds := r.seqIds ++ [n] }) m k ↔
        Marked rows m k ∨ m = n ∧ k = i := by
      simp only [Marked, List.getElem?_modify]
      by_cases hk : i = k
      · subst hk
        obtain ⟨r, hr⟩ : ∃ r, rows[i]? = some r := ⟨_, List.getElem?_eq_getElem hi⟩
        simp only [hr, Option.map_eq_map, Option.map_some, if_true, Option.some.injEq, exists_eq_left']
        split <;> rename_i hm
        · simpa using fun h => h ▸ hm
        · simp
      · simp [hk, Ne.symm hk]
    rw [hone]
    simp only [List.mem_cons]
    tauto

theorem nodup_addSeq (n : Nat) (idxs : List Nat) (rows : List Row) (h : ∀ r ∈ rows, r.seqIds.Nodup) :
    ∀ r ∈ addSeq n idxs rows, r.seqIds.Nodup := by
  induction idxs generalizing rows with
  | nil => exact h
  | cons i idxs ih =>
    rw [addSeq_cons]
    apply ih
    intro q hq
    obtain ⟨k, hk⟩ := List.mem_iff_getElem?.mp hq
    rw [List.getElem?_modify] at hk
    obtain ⟨r, hr, rfl⟩ := Option.map_eq_some_iff.mp hk
    have hnd := h r (List.mem_of_getElem? hr)
    split
    · split
      · exact hnd
      · rename_i hm
        simpa using hnd.concat hm
    · exact hnd

/-! ## How far a sequence is -/

/-- The first tokens of `toks` are in the rows `idxs`, one position behind the other. -/
structure Chain (nPast : Int) (rows : List Row) (idxs : List Nat) (toks : List Token) : Prop where
  sorted : idxs.Pairwise (· < ·)
  label : ∀ j i : Nat, idxs[j]? = some i → ∃ x, toks[j]? = some x ∧ Labelled rows i x (nPast + j)

/-- Where the drafter is with a sequence: it has no rows, or it has a chain of `l` rows and perhaps a token behind them.
A branch of the pruning drafter has its parent's chain before the rows know of it; then `own` is false. -/
inductive Status where
  | fresh
  | live (own : Bool) (l : Nat) (pending : Option Token)

/-- A sequence with `l` rows. -/
structure Live (nPast : Int) (rows : List Row) (d : SeqDraft) (s : Nat) (own : Bool) (l : Nat) (pending : Option Token) :
    Prop where
  chain : Chain nPast rows d.iBatchTgt d.tokens
  len : d.iBatchTgt.length = l
  pos : 0 < l
  rest : d.tokens.drop l = pending.toList
  dists : d.dists.length = d.tokens.length
  marked : ∀ k, Marked rows s k ↔ own = true ∧ k ∈ d.iBatchTgt

def At (nPast : Int) (rows : List Row) (d : SeqDraft) (s : Nat) : Status → Prop
  | .fresh => ∀ k, ¬ Marked rows s k
  | .live own l pending => Live nPast rows d s own l pending

theorem Chain.extend {nPast : Int} {rows rows' : List Row} {idxs : List Nat} {toks : List Token}
    (h : Chain nPast rows idxs toks) (he : Extends rows rows') : Chain nPast rows' idxs toks where
  sorted := h.sorted
  label j i hi := by
    obtain ⟨x, hx, hl⟩ := h.label j i hi
    exact ⟨x, hx, he _ _ _ hl⟩

theorem Chain.lt {nPast : Int} {rows : List Row} {idxs : List Nat} {toks : List Token} (h : Chain nPast rows idxs toks) :
    ∀ i ∈ idxs, i < rows.length := by
  intro i hi
  obtain ⟨j, hj⟩ := List.mem_iff_getElem?.mp hi
  obtain ⟨x, -, hl⟩ := h.label j i hj
  exact hl.lt

/-- The chain does not look at what is behind it. -/
theorem Chain.congr {nPast : Int} {rows : List Row} {idxs : List Nat} {toks toks' : List Token}
    (h : Chain nPast rows idxs toks) (ht : ∀ j < idxs.length, toks'[j]? = toks[j]?) : Chain nPast rows idxs toks' where
  sorted := h.sorted
  label j i hi := by
    rw [ht j (List.getElem?_eq_some_iff.mp hi).1]
    exact h.label j i hi

theorem Live.length_tokens {nPast : Int} {rows : List Row} {d : SeqDraft} {s l : Nat} {own : Bool} {p : Option Token}
    (h : Live nPast rows d s own l p) : d.tokens.length = l + p.toList.length := by
  have hrest := congrArg List.length h.rest
  rw [List.length_drop] at hrest
  have hlast : l - 1 < d.tokens.length := by
    have hj : l - 1 < d.iBatchTgt.length := by have := h.len; have := h.pos; omega
    obtain ⟨x, hx, -⟩ := h.chain.label (l - 1) _ (List.getElem?_eq_getElem hj)
    exact (List.getElem?_eq_some_iff.mp hx).1
  omega

/-- A sequence stays where it is when other sequences change. -/
theorem At.frame {nPast : Int} {rows rows' : List Row} {d d' : SeqDraft} {s : Nat} {st : Status} (h : At nPast rows d s st)
    (he : Extends rows rows') (hm : ∀ k, Marked rows' s k ↔ Marked rows s k) (hi : d'.iBatchTgt = d.iBatchTgt)
    (ht : d'.tokens = d.tokens) (hd : d'.dists = d.dists) : At nPast rows' d' s st := by
  cases st with
  | fresh => exact fun k hk => h k ((hm k).mp hk)
  | live own l p =>
    have h : Live nPast rows d s own l p := h
    exact
      { chain := by rw [hi, ht]; exact h.chain.extend he
        len := by rw [hi]; exact h.len
        pos := h.pos
        rest := by rw [ht]; exact h.rest
        dists := by rw [hd, ht]; exact h.dists
        marked := fun k => by rw [hm k, hi]; exact h.marked k }

/-- All sequences are where `st` says, and no row names a sequence twice. -/
structure Inv (nPast : Int) (t : Drafting) (st : Nat → Status) : Prop where
  nodup : ∀ r ∈ t.batchTgt, r.seqIds.Nodup
  seq : ∀ s, At nPast t.batchTgt (t.drafts s) s (st s)

theorem Inv.live {nPast : Int} {t : Drafting} {st : Nat → Status} (h : Inv nPast t st) {s l : Nat} {own : Bool}
    {p : Option Token} (hs : st s = .live own l p) : Live nPast t.batchTgt (t.drafts s) s own l p := by
  have := h.seq s
  rw [hs] at this
  exact this

theorem Inv.unmarked {nPast : Int} {t : Drafting} {st : Nat → Status} (h : Inv nPast t st) {s : Nat} (hs : st s = .fresh) :
    ∀ k, ¬ Marked t.batchTgt s k := by
  have := h.seq s
  rw [hs] at this
  exact this

/-- Flags are no part of the invariant. -/
theorem Inv.congr {nPast : Int} {t t' : Drafting} {st : Nat → Status} (h : Inv nPast t st) (hb : t'.batchTgt = t.batchTgt)
    (hd : ∀ s, (t'.drafts s).iBatchTgt = (t.drafts s).iBatchTgt ∧ (t'.drafts s).tokens = (t.drafts s).tokens ∧
      (t'.drafts s).dists = (t.drafts s).dists) : Inv nPast t' st where
  nodup := by rw [hb]; exact h.nodup
  seq s := by
    obtain ⟨hi, ht, hd⟩ := hd s
    rw [hb]
    exact (h.seq s).frame (fun _ _ _ hl => hl) (fun _ => Iff.rfl) hi ht hd

/-- One sequence goes to another status; for all others nothing but rows is added. -/
theorem Inv.step {nPast : Int} {t t' : Drafting} {st : Nat → Status} (h : Inv nPast t st) (s : Nat) (new : Status)
    (hn : ∀ r ∈ t'.batchTgt, r.seqIds.Nodup) (he : Extends t.batchTgt t'.batchTgt)
    (hm : ∀ m k, m ≠ s → (Marked t'.batchTgt m k ↔ Marked t.batchTgt m k)) (hd : ∀ m, m ≠ s → t'.drafts m = t.drafts m)
    (hs : At nPast t'.batchTgt (t'.drafts s) s new) : Inv nPast t' (Function.update st s new) where
  nodup := hn
  seq m := by
    by_cases hms : m = s
    · subst hms
      simpa using hs
    · rw [Function.update_of_ne hms, hd m hms]
      exact (h.seq m).frame he (hm m · hms) rfl rfl rfl

/-! ## What one operation does -/

/-- A sequence gets a candidate's token. -/
theorem Inv.propose {nPast : Int} {t : Drafting} {st : Nat → Status} (h : Inv nPast t st) (c : Candidates) (k : Nat)
    {s l : Nat} {own : Bool} (hs : st s = .live own l none) :
    Inv nPast (t.propose c s k) (Function.update st s (.live own l (some (c.data k).id))) := by
  have hl := h.live hs
  have hlen : (t.drafts s).tokens.length = l := by simpa using hl.length_tokens
  refine h.step s _ h.nodup (fun _ _ _ hx => hx) (fun _ _ _ => Iff.rfl) ?_ ?_
  · intro m hm
    simp [Drafting.propose, Drafting.modify, hm]
  · simp only [Drafting.propose, Drafting.modify, Function.update_self]
    exact
      { chain := hl.chain.congr fun j hj => by
          rw [List.getElem?_append_left (by have := hl.len; omega)]
        len := hl.len
        pos := hl.pos
        rest := by simp [← hlen]
        dists := by simp [hl.dists]
        marked := hl.marked }

/-- The pending token gets the next row. -/
theorem Inv.commit {nPast : Int} {t : Drafting} {st : Nat → Status} (h : Inv nPast t st) {s l : Nat} {x : Token}
    (hs : st s = .live true l (some x)) :
    Inv nPast (t.commit s x (nPast + l)) (Function.update st s (.live true (l + 1) none)) := by
  have hl := h.live hs
  have hlen : (t.drafts s).tokens.length = l + 1 := by simpa using hl.length_tokens
  have hx : (t.drafts s).tokens[l]? = some x := by
    have := congrArg (·[0]?) hl.rest
    simpa using this
  apply h.step s
  · intro r hr
    rcases List.mem_append.mp hr with hr | hr
    · exact h.nodup r hr
    · rw [List.mem_singleton.mp hr]
      simp
  · exact extends_append _ _
  · intro m k hm
    simp [Drafting.commit, marked_append, hm]
  · intro m hm
    simp [Drafting.commit, Drafting.modify, hm]
  · simp only [Drafting.commit, Drafting.modify, Function.update_self]
    exact
      { chain :=
          { sorted := by
              refine List.pairwise_append.mpr ⟨hl.chain.sorted, by simp, ?_⟩
              intro i hi j hj
              rw [List.mem_singleton.mp hj]
              exact hl.chain.lt i hi
            label := by
              intro j i hi
              rcases Nat.lt_or_ge j l with hj | hj
              · rw [List.getElem?_append_left (by rw [hl.len]; exact hj)] at hi
                exact (hl.chain.extend (extends_append _ _)).label j i hi
              · have hjl : j = l := by
                  have := (List.getElem?_eq_some_iff.mp hi).1
                  rw [List.length_append, hl.len, List.length_singleton] at this
                  omega
                subst hjl
                rw [← hl.len, List.getElem?_concat_length, Option.some.injEq] at hi
                subst hi
                exact ⟨x, hx, labelled_append _ _⟩ }
        len := by simp [hl.len]
        pos := Nat.succ_pos l
        rest := by simp [hlen]
        dists := hl.dists
        marked := fun k => by
          rw [marked_append, hl.marked]
          simp }

/-- A branch that the rows know of at once. -/
theorem Inv.splitOriginal {nPast : Int} {t : Drafting} {st : Nat → Status} (h : Inv nPast t st) {s l : Nat}
    (hs : st s = .live true l none) (hn : st t.nSeqCur = .fresh) :
    Inv nPast (t.splitOriginal s) (Function.update st t.nSeqCur (.live true l none)) := by
  have hl := h.live hs
  have hnew := h.unmarked hn
  apply h.step t.nSeqCur
  · exact nodup_shareRows h.nodup hnew
  · exact extends_shareRows _ _ _
  · intro m k hm
    simp [Drafting.splitOriginal, marked_shareRows, hm]
  · intro m hm
    simp [Drafting.splitOriginal, Drafting.copyDraft, hm]
  · simp only [Drafting.splitOriginal, Drafting.copyDraft, Function.update_self]
    exact
      { chain := hl.chain.extend (extends_shareRows _ _ _)
        len := hl.len
        pos := hl.pos
        rest := hl.rest
        dists := hl.dists
        marked := fun k => by
          rw [marked_shareRows, ← hl.marked k]
          simp [hnew k] }

/-- A branch that the rows do not know of yet. -/
theorem Inv.copyDraft {nPast : Int} {t : Drafting} {st : Nat → Status} (h : Inv nPast t st) {s l : Nat}
    (hs : st s = .live true l none) (hn : st t.nSeqCur = .fresh) :
    Inv nPast (t.copyDraft s) (Function.update st t.nSeqCur (.live false l none)) := by
  have hl := h.live hs
  have hnew := h.unmarked hn
  refine h.step t.nSeqCur _ h.nodup (fun _ _ _ hx => hx) (fun _ _ _ => Iff.rfl) ?_ ?_
  · intro m hm
    simp [Drafting.copyDraft, hm]
  · simp only [Drafting.copyDraft, Function.update_self]
    exact ⟨hl.chain, hl.len, hl.pos, hl.rest, hl.dists, fun k => by simpa using hnew k⟩

/-- The rows learn of a branch. -/
theorem Inv.addSeq {nPast : Int} {t : Drafting} {st : Nat → Status} (h : Inv nPast t st) {s l : Nat} {p : Option Token}
    (hs : st s = .live false l p) :
    Inv nPast { t with batchTgt := addSeq s (t.drafts s).iBatchTgt t.batchTgt }
      (Function.update st s (.live true l p)) := by
  have hl := h.live hs
  have hm := marked_addSeq s (t.drafts s).iBatchTgt t.batchTgt hl.chain.lt
  apply h.step s
  · exact nodup_addSeq _ _ _ h.nodup
  · exact extends_addSeq _ _ _
  · intro m k hne
    rw [hm]
    simp [hne]
  · exact fun _ _ => rfl
  · exact
      { chain := hl.chain.extend (extends_addSeq _ _ _)
        len := hl.len
        pos := hl.pos
        rest := hl.rest
        dists := hl.dists
        marked := fun k => by
          rw [hm, hl.marked]
          simp }

/-- The pending token is taken back. -/
theorem Inv.takeBack {nPast : Int} {t : Drafting} {st : Nat → Status} (h : Inv nPast t st) {s l : Nat} {own : Bool}
    {x : Token} (hs : st s = .live own l (some x)) :
    Inv nPast (t.takeBack s) (Function.update st s (.live own l none)) := by
  have hl := h.live hs
  have hlen : (t.drafts s).tokens.length = l + 1 := by simpa using hl.length_tokens
  refine h.step s _ h.nodup (fun _ _ _ hx => hx) (fun _ _ _ => Iff.rfl) ?_ ?_
  · intro m hm
    simp [Drafting.takeBack, Drafting.modify, hm]
  · simp only [Drafting.takeBack, Drafting.modify, Function.update_self]
    exact
      { chain := hl.chain.congr fun j hj => by
          rw [List.getElem?_dropLast, if_pos (by rw [hlen]; have := hl.len; omega)]
        len := hl.len
        pos := hl.pos
        rest := by simp [hlen]
        dists := by simp [hl.dists]
        marked := hl.marked }

/-- A branch that no row knows of is given up. -/
theorem Inv.forget {nPast : Int} {t : Drafting} {st st' : Nat → Status} (h : Inv nPast t st)
    (hst : ∀ s, st' s = st s ∨ st' s = .fresh ∧ ∃ l p, st s = .live false l p) : Inv nPast t st' where
  nodup := h.nodup
  seq s := by
    rcases hst s with heq | ⟨heq, l, p, hs⟩
    · rw [heq]
      exact h.seq s
    · rw [heq]
      intro k hk
      exact absurd ((h.live hs).marked k |>.mp hk).1 (by simp)

end S2Moe.Draft.Target
