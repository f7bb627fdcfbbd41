import S2Moe.Kv.Mirror
import S2Moe.Lib.Run
import S2Moe.Spec.Verify

/-!
# The draft context of `llama-speculative`

What `main`, `draft_tree_original` and `draft_tree_prune` do to the KV cache of a draft model that has a context of its own,
over the rounds of one question.

* `State.keep`, `State.begin` : the bookkeeping behind a verification, up to the decode of the sampled token and behind it;
* `State.sampled` : the sequences that are drafting get a token each, and may split;
* `State.pruned` : which of these tokens `draft_tree_prune` selects;
* `State.takeTurn` : one turn of the loop of either drafter, and whether it gets to its decode;
* `step`, `prepared` : the operations of a run, and the state in front of the decode of one, if it has any.

A refused decode is not noticed: the program goes on with the cache as it was.
-/

namespace S2Moe.Draft.Tree
open S2Moe.Kv S2Moe.Lib
open S2Moe.Spec (Candidate Token)

structure Config where
  nSeqDft : Nat
  nSeqMax : Nat
  nUbatch : Nat
  /-- `draft_tree_prune` instead of `draft_tree_original`. -/
  prune : Bool
  pSplit : Rat
  maxDepth : Nat
  maxNodes : Nat

/-- `cur_p`, which is never empty. -/
structure Candidates where
  first : Candidate
  rest : List Candidate

/-- `seq_draft`, as far as drafting reads it. -/
structure SeqDraft where
  active : Bool := false
  drafting : Bool := false
  skip : Bool := false
  tokens : List Token := []

inductive Phase
  | verify
  | draft (turn : Nat)
deriving DecidableEq

/-- `batch` has the tokens of `batch_dft` with their sequence; they all are at position `nPastCur`. Of `batch_tgt`, only the
number of tokens is there. Two fields are no part of the program: `text` has the tokens that are committed, and `held` what is
decoded behind them in each sequence. -/
structure State where
  cache : Cache Token
  drafts : Nat → SeqDraft := fun _ => {}
  nPastDft : Nat
  nPastCur : Nat
  nSeqCur : Nat := 1
  nDraft : Nat := 0
  selectedNodes : Nat := 0
  nTgt : Nat := 0
  batch : List (Nat × Token) := []
  phase : Phase := .verify
  text : List Token
  held : Nat → List Token := fun _ => []

/-- What a turn of a drafter finds: the candidates of each sequence, the order of the scores, and which candidates pass the
tests on budget, confidence and score. -/
structure Turn where
  cands : Nat → Candidates
  rank : List Nat := []
  pass : Nat → Bool := fun _ => true

/-- `verify acc tok nDraft` : token `i` of sequence `acc[i]` is accepted for each `i`, then `tok` is sampled; the next draft
has at most `nDraft` levels. -/
inductive Op
  | verify (acc : List Nat) (tok : Token) (nDraft : Nat)
  | turn (t : Turn)

/-- A batch at one position. -/
def rowsAt (pos : Nat) (batch : List (Nat × Token)) : List (Row Token) := batch.map fun b => ⟨pos, [b.1], b.2⟩

def tokensFor (batch : List (Nat × Token)) (x : Nat) : List Token := (batch.filter fun b => b.1 == x).map Prod.snd

namespace State

def rows (st : State) : List (Row Token) := rowsAt st.nPastCur st.batch

def decode (cfg : Config) (st : State) : State :=
  match st.cache.llamaDecode cfg.nSeqMax cfg.nUbatch st.rows with
  | none => st
  | some c => { st with cache := c, held := fun x => st.held x ++ tokensFor st.batch x }

/-! ## Behind a verification -/

/-- What the verification can accept: token `i` of an active sequence that has one. -/
def possible (cfg : Config) (st : State) (acc : List Nat) : Bool :=
  acc.zipIdx.all fun a =>
    decide (a.1 < cfg.nSeqDft) && (st.drafts a.1).active && decide (a.2 < (st.drafts a.1).tokens.length)

def sKeep (acc : List Nat) : Nat := acc.getLastD 0

def accepted (st : State) (acc : List Nat) : List Token := acc.mapIdx fun i s => (st.drafts s).tokens.getD i 0

def keep (st : State) (acc : List Nat) (tok : Token) : State :=
  let nPast := st.nPastDft + acc.length
  { st with
    cache := st.cache.keepDft (sKeep acc) nPast
    nPastDft := nPast, nPastCur := nPast, batch := [(0, tok)], text := st.text ++ st.accepted acc, held := fun _ => [] }

def begin (st : State) (tok : Token) (nDraft : Nat) : State :=
  { st with
    drafts := fun x => if x = 0 then { active := true, drafting := true, tokens := [tok] } else {}
    nPastDft := st.nPastDft + 1, nPastCur := st.nPastDft + 1, nSeqCur := 1, nDraft := nDraft, selectedNodes := 0, nTgt := 1
    batch := [], phase := .draft 0, text := st.text ++ [tok], held := fun _ => [] }

/-! ## A turn of a drafter -/

/-- How many sequences a drafting one splits into, besides itself. `draft_tree_original` stops at the first candidate that is
not probable enough; `draft_tree_prune` counts those that are, from its second turn on. -/
def newSeqs (cfg : Config) (st : State) (turn : Nat) (c : Candidates) : Nat :=
  if cfg.prune then
    if turn = 0 then 0 else (c.rest.take (cfg.nSeqDft - st.nSeqCur)).countP fun x => decide (1 / 10 < x.p)
  else min (cfg.nSeqDft - st.nSeqCur) ((c.rest.take 7).takeWhile fun x => decide (cfg.pSplit < x.p)).length

/-- The cache with sequence `s` copied to `m` sequences from `n` on. -/
def copySeqs (c : Cache Token) (s n : Nat) : Nat → Cache Token
  | 0 => c
  | m + 1 => ((copySeqs c s n m).seqRm (n + m : Nat) (-1) (-1)).seqCp s (n + m) (-1) (-1)

/-- Sequence `s` is copied `m` times, and each of the `m + 1` gets its own candidate. -/
def split (st : State) (s m : Nat) (c : Candidates) : State :=
  let tok (k : Nat) : Token := ((c.rest[k]?).map Candidate.id).getD 0
  { st with
    cache := copySeqs st.cache s st.nSeqCur m
    drafts := fun x =>
      if x = s then { st.drafts s with tokens := (st.drafts s).tokens ++ [c.first.id] }
      else if st.nSeqCur ≤ x ∧ x < st.nSeqCur + m then
        { active := true, drafting := true, skip := true, tokens := (st.drafts s).tokens ++ [tok (x - st.nSeqCur)] }
      else st.drafts x
    batch := st.batch ++ (s, c.first.id) :: (List.range m).map fun k => (st.nSeqCur + k, tok k)
    nSeqCur := st.nSeqCur + m
    held := fun x => if st.nSeqCur ≤ x ∧ x < st.nSeqCur + m then st.held s else st.held x }

def sampleSeq (cfg : Config) (turn : Nat) (cands : Nat → Candidates) (st : State) (s : Nat) : State :=
  if (st.drafts s).drafting ∧ ¬ (st.drafts s).skip then st.split s (st.newSeqs cfg turn (cands s)) (cands s) else st

def sampled (cfg : Config) (turn : Nat) (cands : Nat → Candidates) (st : State) : State :=
  (List.range cfg.nSeqDft).foldl (sampleSeq cfg turn cands)
    { st with batch := [], drafts := fun x => { st.drafts x with skip := false } }

/-- `max_nodes`, as `main` and the drafter bound it. -/
def nodeLimit (cfg : Config) (st : State) : Nat := max 1 (min (max 1 cfg.maxNodes) (max 1 st.nDraft))

/-- The loop over the candidates, best score first: the sequences whose token is selected. -/
def select (limit nDraft : Nat) (pass : Nat → Bool) : List Nat → Nat → Nat → List Nat
  | [], _, _ => []
  | x :: xs, nodes, nTgt =>
    if limit ≤ nodes then []
    else if pass x = false then select limit nDraft pass xs nodes nTgt
    else if nDraft ≤ nTgt then []
    else x :: select limit nDraft pass xs (nodes + 1) (nTgt + 1)

/-- Behind the selection; `start` is the state at the start of the turn, whose active sequences are `active_seq`. A token that
was not selected is taken back from a sequence that was active, though not out of the batch. -/
def pruned (cfg : Config) (t : Turn) (turn : Nat) (st start : State) : State :=
  let chosen := select (nodeLimit cfg st) st.nDraft t.pass t.rank st.selectedNodes st.nTgt
  let dropped := t.rank.filter fun x => !decide (x ∈ chosen) && (start.drafts x).active
  { st with
    cache := dropped.foldl (fun c (x : Nat) => c.seqRm x (st.nPastDft + turn : Nat) (-1)) st.cache
    drafts := fun x =>
      { st.drafts x with
        active := (start.drafts x).active || decide (x ∈ chosen)
        drafting := decide (x ∈ chosen)
        tokens := if x ∈ dropped then (st.drafts x).tokens.dropLast else (st.drafts x).tokens }
    selectedNodes := st.selectedNodes + chosen.length, nTgt := st.nTgt + chosen.length }

/-- Neither of the two `break`s in front of the decode of `draft_tree_prune`. -/
def goesOn (cfg : Config) (st : State) : Bool :=
  !(decide (nodeLimit cfg st ≤ st.selectedNodes) || decide (st.nDraft ≤ st.nTgt)) &&
    (List.range cfg.nSeqDft).any fun s => (st.drafts s).drafting

/-- Whether the turn gets to its decode, and the state there or behind the `break`; `none` if the order given is not one of
the candidates. -/
def takeTurn (cfg : Config) (t : Turn) (turn : Nat) (start : State) : Option (Bool × State) :=
  let st := start.sampled cfg turn t.cands
  if st.batch = [] then some (false, st)
  else if cfg.prune then
    if t.rank.isPerm (st.batch.map Prod.fst) then
      let p := st.pruned cfg t turn start
      some (p.goesOn cfg, p)
    else none
  else some (true, st)

/-- The condition of the loop. -/
def more (cfg : Config) (st : State) (turn : Nat) : Bool :=
  decide (turn < st.nDraft) && (!cfg.prune || decide (turn < max 1 cfg.maxDepth))

/-- The first token of the active sequences is the one that the target sampled. -/
def finish (st : State) : State :=
  { st with
    phase := .verify
    drafts := fun x => if (st.drafts x).active then { st.drafts x with tokens := (st.drafts x).tokens.tail } else st.drafts x }

end State

/-! ## Runs -/

/-- The state in front of the decode of an operation, if there is one. -/
def prepared (cfg : Config) (op : Op) (st : State) : Option State :=
  match op, st.phase with
  | .verify acc tok _, .verify => if st.possible cfg acc then some (st.keep acc tok) else none
  | .turn t, .draft i =>
    match if st.more cfg i then st.takeTurn cfg t i else none with
    | some (true, p) => some p
    | _ => none
  | _, _ => none

def step (cfg : Config) (op : Op) (st : State) : Option State :=
  match op, st.phase with
  | .verify acc tok nDraft, .verify =>
    if st.possible cfg acc then some (((st.keep acc tok).decode cfg).begin tok nDraft) else none
  | .turn t, .draft i =>
    if st.more cfg i then
      match st.takeTurn cfg t i with
      | some (true, p) => some { p.decode cfg with nPastCur := p.nPastCur + 1, phase := .draft (i + 1) }
      | some (false, p) => some p.finish
      | none => none
    else some st.finish
  | _, _ => none

/-- The prompt is in the cache. -/
def State.start (c : Cache Token) (inp : List Token) : State :=
  { cache := c, nPastDft := inp.length, nPastCur := inp.length, text := inp }

end S2Moe.Draft.Tree
