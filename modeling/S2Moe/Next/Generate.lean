import Mathlib.Data.Rat.Defs
import S2Moe.Next.Build

/-!
# `generate`: one request, with or without the draft

The target context is an oracle for its greedy token. It reads the attention entries that a row sees, the recurrent
state of that row, and whether expert reuse was switched on for the batch.

* `Options.validate` : the checks at the end of `parse`, in their order and with their messages;
* `generate` : context setup, prefill, and the generation loop. With `ar` it decodes one token after another. Without
  it a round drafts a tree, restores the prefix and verifies the tree path by path (`scanRows`, `verify`, `round`);
* `Run` : the loop's variables, with the round counters of the report.

The `while` loops get as many steps as they can use at most and fail with `outOfSteps` beyond that. Timers, rendering
and the byte accounting of `check_memory` never touch a token and are left out.
-/

namespace S2Moe.Next

structure PruneConfig where
  enabled : Bool := false
  maxDepth : Int := 31
  maxNodes : Int := 31
  budgetMs : Rat := 0
  tpotMs : Rat := 100
  bandwidth : Rat := 1024 * 1024
  scoreThreshold : Rat := 1
  confidenceThreshold : Rat := 0
  lambda : Rat := 1
  epsilon : Rat := 1 / 1000000

structure Options where
  model : String := ""
  draftModel : String := ""
  hot : String := ""
  predict : Int := 32
  draft : Int := 8
  experts : Int := 2
  gpuLayers : Int := 99
  context : Int := 512
  ubatch : Int := 32
  threads : Int := 8
  probeBatch2At : Int := -1
  ssd : Bool := false
  ar : Bool := false
  ignoreEos : Bool := false
  memoryMib : Nat := 0
  reserveMib : Nat := 2048
  reuseStrength : Rat := 0
  reuseCap : Int := 0
  reuseRuntime : Bool := false
  branches : Int := 1
  prune : PruneConfig := {}

namespace Options

/-- What `parse` requires of the options once all arguments are read. -/
def validate (o : Options) : Except String Unit := do
  require (o.model != "") "-m is required"
  require (o.draftModel == "" || o.draftModel == o.model) "hybrid S2-MoE requires a shared self-draft model"
  require (decide (0 ≤ o.predict ∧ 0 < o.context ∧ 0 < o.threads)) "invalid generation limits"
  require (decide (0 ≤ o.draft ∧ o.draft ≤ 31)) "--draft-max must be in [0, 31]"
  require (decide (o.draft + 1 ≤ o.ubatch ∧ o.ubatch ≤ 512))
    "-ub must fit root + draft in one ubatch and be at most 512"
  require (decide (0 < o.experts)) "--draft-expert-topk must be positive"
  require (decide (0 < o.branches ∧ o.branches ≤ 8)) "--draft-branches must be in [1, 8]"
  require (decide (0 ≤ o.prune.maxDepth ∧ o.prune.maxDepth ≤ 31 ∧ 0 ≤ o.prune.maxNodes ∧ o.prune.maxNodes ≤ 512 ∧
      0 ≤ o.prune.budgetMs ∧ 0 < o.prune.tpotMs ∧ 0 < o.prune.bandwidth ∧ 0 ≤ o.prune.scoreThreshold ∧
      0 ≤ o.prune.confidenceThreshold ∧ o.prune.confidenceThreshold ≤ 1 ∧ 0 ≤ o.prune.lambda ∧ 0 < o.prune.epsilon))
    "invalid pruning configuration"
  require (decide (0 ≤ o.reuseStrength ∧ 0 ≤ o.reuseCap)) "invalid expert reuse configuration"
  require (o.ssd || (o.hot == "" && o.memoryMib == 0)) "placement options require --ssd-moe"
  require (o.memoryMib == 0 || decide (o.reserveMib < o.memoryMib)) "runtime reserve must be smaller than memory budget"
  require (!o.ssd || decide (99 ≤ o.gpuLayers)) "hybrid SSD mode requires all compute layers on GPU (-ngl 99)"

/-- `reuse` in the verification step. -/
def reuse (o : Options) : Bool := decide (0 < o.reuseCap) && (o.reuseRuntime || decide (0 < o.reuseStrength))

/-- The draft depth of a round that starts with `emitted` tokens out. -/
def limit (o : Options) (emitted : Nat) : Int :=
  min (min o.draft (o.predict - emitted))
    (min (if o.prune.enabled then o.prune.maxDepth else o.draft) (if o.prune.enabled then o.prune.maxNodes else o.draft))

end Options

/-- `GGML_PAD`. -/
def ggmlPad (x n : Nat) : Nat := (x + n - 1) / n * n

/-- The hybrid memory of a new context: the attention cells are padded to 32 without flash attention, and the physical
batch is bounded by the context and by `GGML_KQ_MASK_PAD`. -/
def Memory.create (o : Options) : Memory where
  nCtx := ggmlPad o.context.toNat 32
  nUbatch := min (max (min o.context.toNat (max 64 o.ubatch.toNat)) 64) o.ubatch.toNat

/-- The target context and its vocabulary. -/
structure Target where
  /-- Greedy token of a row: the reuse switch, the attention entries it sees, its recurrent state. -/
  next : Bool → List Entry → List Entry → Token
  isEog : Token → Bool

/-- A decode by the target; the second component is `target_greedy(i)`. -/
def Target.decode (T : Target) (reuse : Bool) (m : Memory) (tokens : List Token) (first : Int) :
    Except String (Memory × (Nat → Token)) := do
  let m' ← m.decode .target tokens first
  .ok (m', fun i => T.next reuse (m'.visible (first + i)) (m.recr ++ (entries .target first tokens).take (i + 1)))

structure Run where
  mem : Memory
  pos : Int
  root : Token
  emitted : List Token := []
  stopped : Bool := false
  acceptedTotal : Nat := 0
  proposedTotal : Nat := 0
  rounds : Nat := 0
  zeroRounds : Nat := 0
  partialRounds : Nat := 0
  fullRounds : Nat := 0
  treeSwitches : Nat := 0
  verificationBatches : Nat := 0

/-- The variables of one round that its verification changes. -/
structure Round where
  mem : Memory
  pos : Int
  root : Token
  emitted : List Token
  stopped : Bool := false
  accepted : Nat := 0
  reachedLeaf : Bool := false
  treeSwitches : Nat
  verificationBatches : Nat

/-- The variables of the loop over one batch's rows. -/
structure Scan where
  root : Token
  emitted : List Token
  stopped : Bool
  accepted : Nat
  reachedLeaf : Bool
  treeSwitches : Nat
  prefixTokens : Nat := 0
  alternate : Option Nat := none

def outOfSteps : String := "out of steps"

section Code
variable {L σ π : Type} [LinearOrder L] (T : Target) (D : Draft L σ π) (o : Options)

/-- `emit` refuses this token. -/
def stops (token : Token) : Bool := !o.ignoreEos && T.isEog token

/-- The loop over the rows of one verified path; `i` counts them. -/
def scanRows (tree : HybridTree) (row : Nat → Token) : List Nat → Nat → Scan → Scan
  | [], _, s => s
  | v :: rest, i, s =>
    let s := { s with
      prefixTokens := s.prefixTokens + 1
      root := row i
      reachedLeaf := (tree.children v).isEmpty }
    match tree.child v (row i) with
    | none => s
    | some matching =>
      if stops T o (row i) then { s with stopped := true }
      else
        let s := { s with emitted := s.emitted ++ [row i], accepted := s.accepted + 1 }
        if rest.head? ≠ some matching then
          { s with alternate := some matching, treeSwitches := s.treeSwitches + 1 }
        else scanRows tree row rest (i + 1) s

/-- One pass of `while (current >= 0)`: the batch, its rows and the commit. -/
def verifyPath (tree : HybridTree) (current : Nat) (r : Round) : Except String (Round × Option Nat) := do
  let some path := tree.path current | .error outOfSteps
  let verification := path.map tree.token
  let begun := r.mem.historyBegin r.pos verification.length
  require begun.1 "could not begin verification history"
  let (mem, row) ← T.decode o.reuse begun.2 verification r.pos
  let finished := mem.historyFinish
  require finished.1 "incomplete verification history"
  let s := scanRows T o tree row path 0 {
    root := r.root, emitted := r.emitted, stopped := r.stopped, accepted := r.accepted
    reachedLeaf := r.reachedLeaf, treeSwitches := r.treeSwitches }
  let committed := finished.2.historyCommit s.prefixTokens
  require committed.1 "accepted-prefix history commit failed"
  .ok ({
    mem := committed.2, pos := r.pos + s.prefixTokens, root := s.root, emitted := s.emitted, stopped := s.stopped
    accepted := s.accepted, reachedLeaf := s.reachedLeaf, treeSwitches := s.treeSwitches
    verificationBatches := r.verificationBatches + 1 }, s.alternate)

/-- `while (current >= 0)`. -/
def verify (tree : HybridTree) : Nat → Nat → Round → Except String Round
  | 0, _, _ => .error outOfSteps
  | fuel + 1, current, r => do
    let (r, alternate) ← verifyPath T o tree current r
    if r.stopped ∨ o.predict ≤ r.emitted.length then .ok r
    else
      match alternate with
      | none => .ok r
      | some current => verify tree fuel current r

/-- The bookkeeping after a round whose tree has `size` nodes. -/
def Run.endRound (r : Run) (size : Nat) (v : Round) : Run :=
  { r with
    mem := v.mem, pos := v.pos, root := v.root, emitted := v.emitted, stopped := v.stopped
    proposedTotal := r.proposedTotal + (size - 1)
    acceptedTotal := r.acceptedTotal + v.accepted
    rounds := r.rounds + 1
    zeroRounds := r.zeroRounds + if v.accepted = 0 then 1 else 0
    fullRounds := r.fullRounds + if v.accepted ≠ 0 ∧ v.reachedLeaf then 1 else 0
    partialRounds := r.partialRounds + if v.accepted ≠ 0 ∧ ¬ v.reachedLeaf then 1 else 0
    treeSwitches := v.treeSwitches
    verificationBatches := v.verificationBatches }

/-- One speculative round, after its root was emitted. -/
def round (r : Run) : Except String Run := do
  let saved := r.mem.snapshot
  let built ← buildTree D o.branches o.prune.maxNodes r.mem r.root r.pos (o.limit r.emitted.length)
  let mem ← built.mem.restore saved
  let v ← verify T o built.tree (built.tree.size + 1) 0 {
    mem := mem, pos := r.pos, root := r.root, emitted := r.emitted
    treeSwitches := r.treeSwitches, verificationBatches := r.verificationBatches }
  .ok (r.endRound built.tree.size v)

/-- The batch probe of `ar` mode: two decodes that are rolled back. -/
def probe (r : Run) : Except String Memory :=
  if o.probeBatch2At = r.emitted.length then do
    require (decide (2 ≤ o.ubatch)) "batch probe requires ubatch >= 2"
    let saved := r.mem.snapshot
    let (mem, row) ← T.decode false r.mem [r.root] r.pos
    let mem ← mem.restore saved
    let (mem, _) ← T.decode false mem [r.root, row 0] r.pos
    mem.restore saved
  else .ok r.mem

/-- One step of `ar` mode, after its root was emitted. -/
def arStep (r : Run) : Except String Run := do
  let mem ← probe T o r
  let (mem, row) ← T.decode false mem [r.root] r.pos
  .ok { r with mem := mem, pos := r.pos + 1, root := row 0 }

/-- The generation loop. -/
def loop : Nat → Run → Except String Run
  | 0, _ => .error outOfSteps
  | fuel + 1, r =>
    if r.emitted.length < o.predict then
      if stops T o r.root then .ok r
      else
        let r := { r with emitted := r.emitted ++ [r.root] }
        if r.emitted.length = o.predict then .ok r
        else if o.ar then do
          let r ← arStep T o r
          loop fuel r
        else do
          let r ← round T D o r
          if r.stopped then .ok r else loop fuel r
    else .ok r

/-- The prefill loop: `-ub` tokens at a time; the greedy token of the last row is the first root. -/
def prefill : Nat → Memory → List Token → Int → Token → Except String (Memory × Token)
  | 0, _, _, _, _ => .error outOfSteps
  | fuel + 1, m, tokens, off, root =>
    if tokens = [] then .ok (m, root)
    else do
      let chunk := tokens.take o.ubatch.toNat
      let (m, row) ← T.decode false m chunk off
      prefill fuel m (tokens.drop o.ubatch.toNat) (off + o.ubatch) (row (chunk.length - 1))

/-- `generate`, from the tokenized prompt on. -/
def generate (prompt : List Token) : Except String Run := do
  let created := Memory.create o
  let reserved := if o.ar then (true, created) else created.historyReserve (o.draft + 1).toNat
  require reserved.1 "history reservation failed"
  require (!prompt.isEmpty) "prompt must tokenize to at least one token"
  require (decide (prompt.length + o.predict ≤ o.context)) "prompt + output exceeds context capacity"
  let (mem, root) ← prefill T o (prompt.length + 1) reserved.2 prompt 0 0
  loop T D o (o.predict.toNat + 1) { mem := mem, pos := prompt.length, root := root }

end Code

end S2Moe.Next
