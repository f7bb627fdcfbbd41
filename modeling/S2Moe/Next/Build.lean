import S2Moe.Next.Tree

/-!
# `build_tree`: the depth-first draft

The draft decodes a node, picks at most `branches` continuations by their logits, lets the pruning policy drop some,
appends the rest as children and descends. Before it descends into a node with several children it takes a partial
snapshot, which does not save the attention part, and restores it between siblings.

* `Draft` : the oracle: logits and pruning decisions are functions of what the last decode saw;
* `expand`, `visit`, `buildTree` : the recursion of the source; `BuildState.decodes` records the memory that each
  `next_spec::decode` of `expand` starts from;
* `Faithful P t d` : that memory is `P` followed by the tokens above the decoded node, in both components;
* `buildTree_spec` : the draft returns, every decode of it is faithful, and its tree has the right levels;
* `buildTree_memory` : the same with the restore of the round's own snapshot behind it.
-/

namespace S2Moe.Next

/-- The draft context and the pruning policy, `π` being its `path_state` and `σ` its counters. -/
structure Draft (L σ π : Type) where
  nVocab : Nat
  /-- The logits after a decode, from the attention entries and the recurrent state it saw. -/
  logits : List Entry → List Entry → Token → L
  /-- `prune_policy::select` at a depth, for a proposed token; it reads the logits and routing of the last decode. -/
  select : σ → List Entry → List Entry → Nat → Token → π → Option π × σ
  /-- `path_state{}`. -/
  path : π
  reset : σ

/-- One `next_spec::decode` call of `expand`. -/
structure DraftDecode where
  node : Nat
  depth : Nat
  before : Memory

structure BuildState (σ : Type) where
  tree : HybridTree
  mem : Memory
  policy : σ
  decodes : List DraftDecode := []

/-- The attention entries that the causal mask leaves visible at position `p`. -/
def Memory.visible (m : Memory) (p : Int) : List Entry := m.attn.filter (fun e => decide (e.pos ≤ p))

section Code
variable {L σ π : Type} [LinearOrder L]

/-- `std::partial_sort` by falling logit, equal logits by token, cut to `width`. -/
def topChoices (logits : Token → L) (nVocab width : Nat) : List Token :=
  ((List.range nVocab).mergeSort fun a b => decide (logits b < logits a ∨ logits a = logits b ∧ a ≤ b)).take width

/-- The loop that asks the pruning policy about each choice, while the node budget lasts. -/
def selectLoop (D : Draft L σ π) (nodeLimit : Int) (size depth : Nat) (attn recr : List Entry) (state : π) :
    List Token → List (Token × π) → σ → List (Token × π) × σ
  | [], selected, policy => (selected, policy)
  | token :: choices, selected, policy =>
    if nodeLimit < (size + selected.length : Nat) then (selected, policy)
    else
      match D.select policy attn recr (depth + 1) token state with
      | (some branch, policy) =>
        selectLoop D nodeLimit size depth attn recr state choices (selected ++ [(token, branch)]) policy
      | (none, policy) => selectLoop D nodeLimit size depth attn recr state choices selected policy

/-- `if (i) parent->restore(draft)`; an empty `parent` cannot be dereferenced. -/
def restoreParent (again : Bool) (parent : Option Memory.Snapshot) (m : Memory) : Except String Memory :=
  if again then
    match parent with
    | none => .error "no snapshot"
    | some s => m.restore s
  else .ok m

/-- The loop over the children; `again` is false for the first of them. -/
def visit (nodeLimit : Int) (parent : Option Memory.Snapshot)
    (descend : Nat → π → BuildState σ → Except String (BuildState σ)) :
    Bool → List (Nat × π) → BuildState σ → Except String (BuildState σ)
  | _, [], st => .ok st
  | again, (child, state) :: rest, st =>
    if nodeLimit < st.tree.size then .ok st
    else do
      let mem ← restoreParent again parent st.mem
      let st ← descend child state { st with mem := mem }
      visit nodeLimit parent descend true rest st

/-- `expand(index, depth, state)`; the first argument is `depth_limit - depth`. -/
def expand (D : Draft L σ π) (branches nodeLimit pos : Int) :
    Nat → Nat → Nat → π → BuildState σ → Except String (BuildState σ)
  | 0, _, _, _, st => .ok st
  | rem + 1, index, depth, state, st =>
    if nodeLimit < st.tree.size then .ok st
    else do
      let mem ← st.mem.decode .draft [st.tree.token index] (pos + depth)
      let attn := mem.visible (pos + depth)
      -- the choices are copied before recursive decoding overwrites the logits buffer
      let choices := topChoices (D.logits attn mem.recr) D.nVocab (min branches D.nVocab).toNat
      let chosen := selectLoop D nodeLimit st.tree.size depth attn mem.recr state choices [] st.policy
      let selected := chosen.1
      -- siblings are added before the first child is expanded
      let children := (List.range selected.length).map (st.tree.size + ·)
      let st' : BuildState σ := {
        tree := (st.tree.pushAll (selected.map Prod.fst)).setChildren index children
        mem := mem
        policy := chosen.2
        decodes := st.decodes ++ [⟨index, depth, st.mem⟩] }
      if rem = 0 ∨ children = [] then .ok st'
      else
        let parent := if 1 < children.length then some mem.snapshot else none
        visit nodeLimit parent (fun child state st => expand D branches nodeLimit pos rem child (depth + 1) state st)
          false (children.zip (selected.map Prod.snd)) st'

/-- `build_tree`. -/
def buildTree (D : Draft L σ π) (branches nodeLimit : Int) (m : Memory) (root : Token) (pos depthLimit : Int) :
    Except String (BuildState σ) :=
  expand D branches nodeLimit pos depthLimit.toNat 0 0 D.path
    { tree := ⟨[⟨root, []⟩]⟩, mem := m, policy := D.reset }

end Code

/-! ## What the draft leaves behind -/

/-- The decode of `d.node` started from `P` and the tokens above the node, in both components. -/
def Faithful (P : List Entry) (t : HybridTree) (d : DraftDecode) : Prop :=
  ∃ ts, t.RootPath ts d.node ∧ ts.length = d.depth ∧ d.before.Holds (P ++ entries .draft P.length ts)

theorem Faithful.mono {P : List Entry} {t u : HybridTree} {d : DraftDecode} (h : Faithful P t d)
    (hu : HybridTree.Extends t u) : Faithful P u d := by
  obtain ⟨ts, hts, hlen, hold⟩ := h
  exact ⟨ts, hts.mono hu, hlen, hold⟩

section Spec
variable {L σ π : Type} [LinearOrder L]

/-- From `st` to `st'` the tree grew, only the nodes `W` of `st` got children, and every new decode was faithful. -/
structure Built (P : List Entry) (limit : Nat) (W : Nat → Prop) (st st' : BuildState σ) (dep dep' : Nat → Nat) :
    Prop where
  extends_ : HybridTree.Extends st.tree st'.tree
  frame : ∀ v < st.tree.size, ¬ W v → st'.tree.children v = st.tree.children v
  dep_eq : ∀ v < st.tree.size, dep' v = dep v
  shape : st'.tree.Shape dep' limit
  decodes : ∃ new, st'.decodes = st.decodes ++ new ∧ ∀ d ∈ new, Faithful P st'.tree d
  nCtx : st'.mem.nCtx = st.mem.nCtx
  nUbatch : st'.mem.nUbatch = st.mem.nUbatch
  history : st'.mem.history = st.mem.history

theorem Built.refl {P : List Entry} {limit : Nat} {W : Nat → Prop} {st : BuildState σ} {dep : Nat → Nat}
    (h : st.tree.Shape dep limit) : Built P limit W st st dep dep :=
  ⟨.refl _, fun _ _ _ => rfl, fun _ _ => rfl, h, ⟨[], by simp⟩, rfl, rfl, rfl⟩

theorem Built.trans {P : List Entry} {limit : Nat} {W W' : Nat → Prop} {s₁ s₂ s₃ : BuildState σ} {d₁ d₂ d₃ : Nat → Nat}
    (h : Built P limit W s₁ s₂ d₁ d₂) (k : Built P limit W' s₂ s₃ d₂ d₃) (hW : ∀ v < s₁.tree.size, W' v → W v) :
    Built P limit W s₁ s₃ d₁ d₃ := by
  obtain ⟨new, hnew, hf⟩ := h.decodes
  obtain ⟨new', hnew', hf'⟩ := k.decodes
  have hlt : ∀ v < s₁.tree.size, v < s₂.tree.size := fun v hv => lt_of_lt_of_le hv h.extends_.size_le
  refine ⟨h.extends_.trans k.extends_, fun v hv hw => ?_, fun v hv => ?_, k.shape, ⟨new ++ new', ?_, ?_⟩,
    k.nCtx.trans h.nCtx, k.nUbatch.trans h.nUbatch, k.history.trans h.history⟩
  · rw [k.frame v (hlt v hv) (fun hw' => hw (hW v hv hw')), h.frame v hv hw]
  · rw [k.dep_eq v (hlt v hv), h.dep_eq v hv]
  · rw [hnew', hnew, List.append_assoc]
  · intro d hd
    rcases List.mem_append.mp hd with hd | hd
    · exact (hf d hd).mono k.extends_
    · exact hf' d hd

theorem Built.mono {P : List Entry} {limit : Nat} {W W' : Nat → Prop} {st st' : BuildState σ} {dep dep' : Nat → Nat}
    (h : Built P limit W st st' dep dep') (hW : ∀ v < st.tree.size, W v → W' v) :
    Built P limit W' st st' dep dep' :=
  { h with frame := fun v hv hw => h.frame v hv (fun hw' => hw (hW v hv hw')) }

/-- `c` is a node to descend into: a leaf of the tree so far, with `ts` above it. -/
structure Fresh (t : HybridTree) (dep : Nat → Nat) (ts : List Token) (c : Nat) : Prop where
  lt : c < t.size
  leaf : t.children c = []
  path : t.RootPath ts c
  dep_eq : dep c = ts.length

theorem Built.fresh {P : List Entry} {limit : Nat} {W : Nat → Prop} {st st' : BuildState σ} {dep dep' : Nat → Nat}
    {ts : List Token} {c : Nat} (h : Built P limit W st st' dep dep') (hc : Fresh st.tree dep ts c) (hW : ¬ W c) :
    Fresh st'.tree dep' ts c where
  lt := lt_of_lt_of_le hc.lt h.extends_.size_le
  leaf := (h.frame c hc.lt hW).trans hc.leaf
  path := hc.path.mono h.extends_
  dep_eq := (h.dep_eq c hc.lt).trans hc.dep_eq

/-- What every state of the draft satisfies: no capture runs, the levels are right, and the deepest path fits. -/
structure Drafting (P : List Entry) (limit : Nat) (st : BuildState σ) (dep : Nat → Nat) : Prop where
  shape : st.tree.Shape dep limit
  idle : st.mem.history.capturing = false
  room : P.length + limit ≤ st.mem.nCtx

theorem Built.drafting {P : List Entry} {limit : Nat} {W : Nat → Prop} {st st' : BuildState σ} {dep dep' : Nat → Nat}
    (h : Built P limit W st st' dep dep') (hd : Drafting P limit st dep) : Drafting P limit st' dep' where
  shape := h.shape
  idle := by rw [h.history]; exact hd.idle
  room := by rw [h.nCtx]; exact hd.room

/-- The attention part still starts with `P` and `ts`; what follows is numbered on. -/
def Memory.StartsWith (m : Memory) (P : List Entry) (ts : List Token) : Prop :=
  ∃ b, m.attn = (P ++ entries .draft P.length ts) ++ b ∧ NumberedFrom 0 ((P ++ entries .draft P.length ts) ++ b)

theorem numberedFrom_path {P : List Entry} (hP : NumberedFrom 0 P) (w : Writer) (ts : List Token) :
    NumberedFrom 0 (P ++ entries w P.length ts) :=
  numberedFrom_append.mpr ⟨hP, by simpa using NumberedFrom.entries w P.length ts⟩

theorem Memory.Holds.startsWith {P : List Entry} (hP : NumberedFrom 0 P) {m : Memory} {ts : List Token}
    (h : m.Holds (P ++ entries .draft P.length ts)) : m.StartsWith P ts :=
  ⟨[], by rw [h.1, List.append_nil], by rw [List.append_nil]; exact numberedFrom_path hP _ ts⟩

theorem Memory.StartsWith.parent {P : List Entry} {m : Memory} {ts : List Token} {x : Token}
    (h : m.StartsWith P (ts ++ [x])) : m.StartsWith P ts := by
  obtain ⟨b, hb, hn⟩ := h
  refine ⟨entries .draft (P.length + ts.length) [x] ++ b, ?_, ?_⟩
  · rw [hb, entries_append]
    simp only [List.append_assoc]
  · rw [entries_append] at hn
    simpa only [List.append_assoc] using hn

/-! ## One level -/

/-- The children that `expand` adds below `index` are nodes to descend into. -/
theorem Fresh.grow {t : HybridTree} {dep : Nat → Nat} {ts : List Token} {index c : Nat} (h : Fresh t dep ts index)
    (xs : List Token) (hc : c ∈ (List.range xs.length).map (t.size + ·)) :
    Fresh ((t.pushAll xs).setChildren index ((List.range xs.length).map (t.size + ·)))
      (HybridTree.growLabels dep t.size (dep index)) (ts ++ [t.token index]) c := by
  have hrange := HybridTree.mem_grow_children hc
  have hlt := h.lt
  have hext := HybridTree.Extends.grow h.leaf xs ((List.range xs.length).map (t.size + ·))
  refine ⟨?_, ?_, ?_, ?_⟩
  · rw [HybridTree.size_setChildren, HybridTree.size_pushAll]
    omega
  · rw [HybridTree.children_setChildren_ne _ (by omega), HybridTree.children_pushAll,
      HybridTree.children_of_le hrange.1]
  · rw [← hext.token_eq index hlt]
    refine .child (h.path.mono hext) (lt_of_lt_of_le hlt hext.size_le) ?_
    rwa [HybridTree.children_setChildren_self _ (by rw [HybridTree.size_pushAll]; omega)]
  · rw [HybridTree.growLabels, if_neg (by omega), h.dep_eq, List.length_append, List.length_singleton]

/-- A decode of the draft below `ts`, with no capture running. -/
theorem Memory.Holds.draft {P : List Entry} (hP : NumberedFrom 0 P) {m : Memory} {ts : List Token} (x : Token)
    (h : m.Holds (P ++ entries .draft P.length ts)) (hidle : m.history.capturing = false)
    (hroom : P.length + ts.length < m.nCtx) :
    ∃ m', m.decode .draft [x] (P.length + ts.length) = .ok m' ∧
      m'.Holds (P ++ entries .draft P.length (ts ++ [x])) ∧ m'.nCtx = m.nCtx ∧ m'.nUbatch = m.nUbatch ∧
      m'.history = m.history := by
  have hlen : (P ++ entries .draft P.length ts).length = P.length + ts.length := by
    rw [List.length_append, length_entries]
  obtain ⟨m', hm', hold, h1, h2, h3⟩ := h.decode (numberedFrom_path hP _ ts) .draft (List.cons_ne_nil x [])
    (by simp [Memory.captureFits, hidle]) (by rw [hlen, List.length_singleton]; omega)
  refine ⟨m', ?_, ?_, h1, h2, ?_⟩
  · rw [← hm', hlen]
    push_cast
    rfl
  · rw [entries_append, ← List.append_assoc]
    rw [hlen] at hold
    exact_mod_cast hold
  · have hrows : ∀ new, m.captureRows new = m.history.rows := by
      intro new
      simp [Memory.captureRows, hidle]
    rw [h3, hrows]

/-- The state of `expand` once the children of `index` are in the tree. -/
theorem built_grow {P : List Entry} {limit : Nat} {st : BuildState σ} {dep : Nat → Nat} {ts : List Token} {index : Nat}
    (hd : Drafting P limit st dep) (hi : Fresh st.tree dep ts index) (hlim : ts.length < limit)
    (hold : st.mem.Holds (P ++ entries .draft P.length ts)) (xs : List Token) (mem : Memory) (policy : σ)
    (h1 : mem.nCtx = st.mem.nCtx) (h2 : mem.nUbatch = st.mem.nUbatch) (h3 : mem.history = st.mem.history) :
    Built P limit (· = index) st
      { tree := (st.tree.pushAll xs).setChildren index ((List.range xs.length).map (st.tree.size + ·))
        mem := mem
        policy := policy
        decodes := st.decodes ++ [⟨index, ts.length, st.mem⟩] }
      dep (HybridTree.growLabels dep st.tree.size (dep index)) := by
  have hext := HybridTree.Extends.grow hi.leaf xs ((List.range xs.length).map (st.tree.size + ·))
  refine ⟨hext, fun v _ hw => ?_, fun v hv => if_pos hv, ?_, ⟨_, rfl, ?_⟩, h1, h2, h3⟩
  · rw [HybridTree.children_setChildren_ne _ hw, HybridTree.children_pushAll]
  · exact hd.shape.grow hi.lt (by rw [hi.dep_eq]; exact hlim) xs
  · intro d hd'
    rw [List.mem_singleton] at hd'
    subst hd'
    exact ⟨ts, hi.path.mono hext, rfl, hold⟩

/-! ## The recursion -/

variable {P : List Entry} {limit : Nat} (nodeLimit : Int)

/-- What one call of `expand` at a node below `ts` does. -/
def ExpandsTo (P : List Entry) (limit : Nat) (ts : List Token) (index : Nat) (st : BuildState σ) (dep : Nat → Nat)
    (result : Except String (BuildState σ)) : Prop :=
  ∃ st' dep', result = .ok st' ∧ Built P limit (· = index) st st' dep dep' ∧ st'.mem.StartsWith P ts

/-- `J` is an invariant of the tree and the policy, and `S` of a node below some tokens and its path state: the children of
a node keep them. -/
structure Tracks (D : Draft L σ π) (branches : Int) (P : List Entry) (limit : Nat) (J : HybridTree → σ → Prop)
    (S : HybridTree → List Token → Nat → π → Prop) : Prop where
  mono : ∀ {t u : HybridTree} {ts : List Token} {c : Nat} {state : π}, HybridTree.Extends t u → c < t.size → S t ts c state →
    S u ts c state
  grow : ∀ {t : HybridTree} {ts : List Token} {index : Nat} {state : π} {policy : σ}, J t policy → t.RootPath ts index →
    index < t.size → t.children index = [] → S t ts index state → ts.length < limit →
    ∀ chosen, chosen = selectLoop D nodeLimit t.size ts.length (P ++ entries .draft P.length (ts ++ [t.token index]))
        (P ++ entries .draft P.length (ts ++ [t.token index])) state
        (topChoices (D.logits (P ++ entries .draft P.length (ts ++ [t.token index]))
          (P ++ entries .draft P.length (ts ++ [t.token index]))) D.nVocab (min branches D.nVocab).toNat) [] policy →
      J ((t.pushAll (chosen.1.map Prod.fst)).setChildren index ((List.range (chosen.1.map Prod.fst).length).map (t.size + ·)))
          chosen.2 ∧
        ∀ q ∈ ((List.range (chosen.1.map Prod.fst).length).map (t.size + ·)).zip (chosen.1.map Prod.snd),
          S ((t.pushAll (chosen.1.map Prod.fst)).setChildren index
            ((List.range (chosen.1.map Prod.fst).length).map (t.size + ·))) (ts ++ [t.token index]) q.1 q.2

theorem Tracks.trivial (D : Draft L σ π) (branches : Int) :
    Tracks nodeLimit D branches P limit (fun _ _ => True) fun _ _ _ _ => True :=
  ⟨fun _ _ _ => True.intro, fun _ _ _ _ _ _ _ _ => ⟨True.intro, fun _ _ => True.intro⟩⟩

/-- The loop over the children. On a later child the memory is whatever the subtrees before it left, but its attention
part starts with the parent's path, so the snapshot brings back that path. -/
theorem visit_spec (hP : NumberedFrom 0 P) {ts : List Token} (hts : ts ≠ []) (parent : Option Memory.Snapshot)
    {J : HybridTree → σ → Prop} {S : HybridTree → List Token → Nat → π → Prop}
    (hmono : ∀ {t u : HybridTree} {ts : List Token} {c : Nat} {state : π}, HybridTree.Extends t u → c < t.size →
      S t ts c state →
      S u ts c state)
    {descend : Nat → π → BuildState σ → Except String (BuildState σ)}
    (hdescend : ∀ c state st dep, Drafting P limit st dep → Fresh st.tree dep ts c → J st.tree st.policy →
      S st.tree ts c state →
      st.mem.Holds (P ++ entries .draft P.length ts) → ∃ st', descend c state st = .ok st' ∧ J st'.tree st'.policy ∧
        ExpandsTo P limit ts c st dep (descend c state st)) :
    ∀ (cs : List (Nat × π)) (again : Bool) (st : BuildState σ) (dep : Nat → Nat), Drafting P limit st dep →
      (cs.map Prod.fst).Nodup → (∀ c ∈ cs.map Prod.fst, Fresh st.tree dep ts c) → J st.tree st.policy →
      (∀ q ∈ cs, S st.tree ts q.1 q.2) → st.mem.StartsWith P ts →
      (again = false → st.mem.Holds (P ++ entries .draft P.length ts)) →
      (again = true ∨ 1 < cs.length → cs = [] ∨
        parent = some ⟨(P ++ entries .draft P.length ts).length, P ++ entries .draft P.length ts⟩) →
      ∃ st' dep', visit nodeLimit parent descend again cs st = .ok st' ∧ J st'.tree st'.policy ∧
        Built P limit (· ∈ cs.map Prod.fst) st st' dep dep' ∧ st'.mem.StartsWith P ts
  | [], _, st, dep, hd, _, _, hj, _, hs, _, _ => ⟨st, dep, rfl, hj, .refl hd.shape, hs⟩
  | (c, state) :: rest, again, st, dep, hd, hnd, hfresh, hj, hstates, hs, hfirst, hpar => by
    rw [List.map_cons, List.nodup_cons] at hnd
    rw [visit]
    split
    · exact ⟨st, dep, rfl, hj, .refl hd.shape, hs⟩
    -- the memory before the child: untouched for the first one, restored for the others
    have hmem : ∃ mem, restoreParent again parent st.mem = .ok mem ∧
        mem.Holds (P ++ entries .draft P.length ts) ∧ mem.nCtx = st.mem.nCtx ∧ mem.nUbatch = st.mem.nUbatch ∧
        mem.history = st.mem.history := by
      cases again with
      | false => exact ⟨st.mem, rfl, hfirst rfl, rfl, rfl, rfl⟩
      | true =>
          obtain ⟨b, hb, hn⟩ := hs
          have hne : P ++ entries .draft P.length ts ≠ [] := by
            intro he
            exact entries_ne_nil hts (List.append_eq_nil_iff.mp he).2
          rcases hpar (.inl rfl) with hp | hp
          · cases hp
          · rw [hp]
            exact Memory.restore_prefix hne hn hb
    obtain ⟨mem, hok, hold, h1, h2, h3⟩ := hmem
    rw [hok]
    have hrestored : Built P limit (· = c) st { st with mem := mem } dep dep :=
      { Built.refl hd.shape with nCtx := h1, nUbatch := h2, history := h3 }
    obtain ⟨st₁', he₁', hj₁, st₁, dep₁, he₁, hb₁, hs₁⟩ := hdescend c state { st with mem := mem } dep (hrestored.drafting hd)
      (hfresh c (by simp)) hj (hstates _ List.mem_cons_self) hold
    obtain rfl : st₁' = st₁ := Except.ok.inj (he₁'.symm.trans he₁)
    have hb₁ := hrestored.trans hb₁ (fun _ _ h => h)
    obtain ⟨st₂, dep₂, he₂, hj₂, hb₂, hs₂⟩ := visit_spec (J := J)
      (S := S) hP hts parent hmono hdescend rest true st₁' dep₁ (hb₁.drafting hd) hnd.2
      (fun c' hc' => hb₁.fresh (hfresh c' (List.mem_cons_of_mem _ hc')) (fun he => hnd.1 (he ▸ hc'))) hj₁
      (fun q hq => hmono hb₁.extends_ (hfresh q.1 (List.mem_cons_of_mem _ (List.mem_map_of_mem hq))).lt
        (hstates q (List.mem_cons_of_mem _ hq))) hs₁
      (by simp) (fun _ => by
        cases rest with
        | nil => exact .inl rfl
        | cons d ds => exact (hpar (.inr (by simp))).imp_left (by simp))
    refine ⟨st₂, dep₂, ?_, hj₂, ?_, hs₂⟩
    · change (descend c state { st with mem := mem } >>= fun st => visit nodeLimit parent descend true rest st) = _
      rw [he₁]
      exact he₂
    · refine (hb₁.mono fun v _ hv => ?_).trans hb₂ fun v _ hv => ?_
      · exact hv ▸ List.mem_cons_self
      · exact List.mem_cons_of_mem _ hv

theorem Memory.Holds.visible {P : List Entry} (hP : NumberedFrom 0 P) {m : Memory} {ts : List Token} {x : Token}
    (h : m.Holds (P ++ entries .draft P.length (ts ++ [x]))) :
    m.visible (P.length + ts.length) = P ++ entries .draft P.length (ts ++ [x]) := by
  rw [Memory.visible, h.1]
  apply List.filter_eq_self.mpr
  intro e he
  have hlt := ((numberedFrom_path hP .draft (ts ++ [x])).pos_mem e he).2
  rw [List.length_append, length_entries, List.length_append, List.length_singleton] at hlt
  rw [decide_eq_true_eq]
  omega

theorem expand_spec (D : Draft L σ π) (branches : Int) (hP : NumberedFrom 0 P) {J : HybridTree → σ → Prop}
    {S : HybridTree → List Token → Nat → π → Prop} (htracks : Tracks nodeLimit D branches P limit J S) :
    ∀ (rem index : Nat) (ts : List Token) (state : π) (st : BuildState σ) (dep : Nat → Nat), ts.length + rem = limit →
      Drafting P limit st dep → Fresh st.tree dep ts index → J st.tree st.policy → S st.tree ts index state →
      st.mem.Holds (P ++ entries .draft P.length ts) →
      ∃ st', expand D branches nodeLimit P.length rem index ts.length state st = .ok st' ∧ J st'.tree st'.policy ∧
        ExpandsTo P limit ts index st dep (expand D branches nodeLimit P.length rem index ts.length state st)
  | 0, index, ts, state, st, dep, _, hd, _, hj, _, hold =>
    ⟨st, rfl, hj, st, dep, rfl, .refl hd.shape, hold.startsWith hP⟩
  | rem + 1, index, ts, state, st, dep, hlim, hd, hi, hj, hstate, hold => by
    have hroom := hd.room
    obtain ⟨mem, hdec, hmem, h1, h2, h3⟩ := hold.draft hP (st.tree.token index) hd.idle (by omega)
    rw [expand]
    split
    · exact ⟨st, rfl, hj, st, dep, rfl, .refl hd.shape, hold.startsWith hP⟩
    rw [hdec]
    simp only [bind, Except.bind]
    rw [hmem.visible hP, hmem.2]
    obtain ⟨hj', hstates'⟩ := htracks.grow hj hi.path hi.lt hi.leaf hstate (by omega) _ rfl
    generalize selectLoop D nodeLimit st.tree.size ts.length _ _ state _ [] st.policy = chosen at hj' hstates'
    have hlen : chosen.1.length = (chosen.1.map Prod.fst).length := by rw [List.length_map]
    rw [hlen]
    have hgrow := built_grow hd hi (by omega) hold (chosen.1.map Prod.fst) mem chosen.2 h1 h2 h3
    have hstart : mem.StartsWith P (ts ++ [st.tree.token index]) := hmem.startsWith hP
    split
    · exact ⟨_, rfl, hj', _, _, rfl, hgrow, hstart.parent⟩
    have hfst : (((List.range (chosen.1.map Prod.fst).length).map (st.tree.size + ·)).zip
        (chosen.1.map Prod.snd)).map Prod.fst = (List.range (chosen.1.map Prod.fst).length).map (st.tree.size + ·) := by
      rw [List.map_fst_zip]
      simp
    have hchild : ∀ c state s d, Drafting P limit s d → Fresh s.tree d (ts ++ [st.tree.token index]) c → J s.tree s.policy →
        S s.tree (ts ++ [st.tree.token index]) c state →
          s.mem.Holds (P ++ entries .draft P.length (ts ++ [st.tree.token index])) →
        ∃ s', expand D branches nodeLimit P.length rem c (ts.length + 1) state s = .ok s' ∧ J s'.tree s'.policy ∧
          ExpandsTo P limit (ts ++ [st.tree.token index]) c s d
            (expand D branches nodeLimit P.length rem c (ts.length + 1) state s) := by
      intro c state s d hd hc hj hstate hold
      have := expand_spec D branches hP htracks rem c (ts ++ [st.tree.token index]) state s d (by simp; omega) hd hc hj hstate
        hold
      rwa [List.length_append, List.length_singleton] at this
    obtain ⟨st', dep', hv, hj₂, hb, hs⟩ := visit_spec (J := J) (S := S) nodeLimit hP (by simp)
      (if 1 < ((List.range (chosen.1.map Prod.fst).length).map (st.tree.size + ·)).length then some mem.snapshot
        else none) htracks.mono hchild
      (((List.range (chosen.1.map Prod.fst).length).map (st.tree.size + ·)).zip (chosen.1.map Prod.snd)) false _ _
      (hgrow.drafting hd) (by rw [hfst]; exact List.nodup_range.map (add_right_injective _))
      (by rw [hfst]; exact fun c hc => hi.grow _ hc) hj' hstates' hstart (fun _ => hmem)
      (fun h => by
        rw [if_pos (by simpa using h), hmem.snapshot (numberedFrom_path hP _ _)]
        exact .inr rfl)
    rw [hfst] at hb
    refine ⟨st', hv, hj₂, st', dep', hv, hgrow.trans hb fun v hv hc => ?_, hs.parent⟩
    have := (HybridTree.mem_grow_children hc).1
    omega

/-- What a finished draft leaves to the round: a tree over `root` within the depth limit, faithful decodes, and a
memory whose attention part still starts with the prefix. -/
structure Drafted (P : List Entry) (limit : Nat) (m : Memory) (root : Token) (st : BuildState σ) (dep : Nat → Nat) :
    Prop where
  pos : 0 < st.tree.size
  token_zero : st.tree.token 0 = root
  dep_zero : dep 0 = 0
  shape : st.tree.Shape dep limit
  faithful : ∀ d ∈ st.decodes, Faithful P st.tree d
  start : ∃ b, st.mem.attn = P ++ b ∧ NumberedFrom 0 (P ++ b)
  nCtx : st.mem.nCtx = m.nCtx
  nUbatch : st.mem.nUbatch = m.nUbatch
  history : st.mem.history = m.history

/-- The draft returns, with what it leaves and with the invariants that its steps keep. -/
theorem buildTree_tracks (D : Draft L σ π) (branches : Int) (hP : NumberedFrom 0 P) {m : Memory} (hold : m.Holds P)
    (hidle : m.history.capturing = false) (root : Token) (depthLimit : Int)
    (hroom : P.length + depthLimit.toNat ≤ m.nCtx) {J : HybridTree → σ → Prop}
    {S : HybridTree → List Token → Nat → π → Prop} (htracks : Tracks nodeLimit D branches P depthLimit.toNat J S)
    (hj : J ⟨[⟨root, []⟩]⟩ D.reset) (hstate : S ⟨[⟨root, []⟩]⟩ [] 0 D.path) :
    ∃ st dep, buildTree D branches nodeLimit m root P.length depthLimit = .ok st ∧
      Drafted P depthLimit.toNat m root st dep ∧ J st.tree st.policy := by
  have hleaf : ∀ v, (⟨[⟨root, []⟩]⟩ : HybridTree).children v = []
    | 0 => rfl
    | _ + 1 => rfl
  let st₀ : BuildState σ := { tree := ⟨[⟨root, []⟩]⟩, mem := m, policy := D.reset }
  have hd : Drafting P depthLimit.toNat st₀ (fun _ => 0) := by
    refine ⟨fun v _ c hc => ?_, hidle, hroom⟩
    rw [hleaf v] at hc
    cases hc
  obtain ⟨st', hst', hj', st, dep, hst, hb, hs⟩ := expand_spec nodeLimit D branches hP htracks depthLimit.toNat 0
    [] D.path st₀
    (fun _ => 0) (by simp) hd ⟨Nat.one_pos, hleaf 0, .root, rfl⟩ hj hstate (by simpa [entries] using hold)
  obtain rfl : st' = st := Except.ok.inj (hst'.symm.trans hst)
  obtain ⟨new, hnew, hf⟩ := hb.decodes
  refine ⟨st', dep, hst, ⟨lt_of_lt_of_le Nat.one_pos hb.extends_.size_le, hb.extends_.token_eq 0 Nat.one_pos,
    hb.dep_eq 0 Nat.one_pos, hb.shape, ?_, ?_, hb.nCtx, hb.nUbatch, hb.history⟩, hj'⟩
  · rw [hnew]
    exact hf
  · obtain ⟨b, hb, hn⟩ := hs
    rw [entries, List.append_nil] at hb hn
    exact ⟨b, hb, hn⟩

theorem buildTree_spec (D : Draft L σ π) (branches : Int) (hP : NumberedFrom 0 P) {m : Memory} (hold : m.Holds P)
    (hidle : m.history.capturing = false) (root : Token) (depthLimit : Int)
    (hroom : P.length + depthLimit.toNat ≤ m.nCtx) :
    ∃ st dep, buildTree D branches nodeLimit m root P.length depthLimit = .ok st ∧
      Drafted P depthLimit.toNat m root st dep := by
  obtain ⟨st, dep, hst, hd, _⟩ := buildTree_tracks nodeLimit D branches hP hold hidle root depthLimit hroom
    (Tracks.trivial nodeLimit D branches) True.intro True.intro
  exact ⟨st, dep, hst, hd⟩

theorem Drafted.restore {P : List Entry} {limit : Nat} {m : Memory} {root : Token} {st : BuildState σ} {dep : Nat → Nat}
    (h : Drafted P limit m root st dep) (hP : NumberedFrom 0 P) (hne : P ≠ []) (hold : m.Holds P) :
    ∃ m', st.mem.restore m.snapshot = .ok m' ∧ m'.Holds P ∧ m'.nCtx = m.nCtx ∧ m'.nUbatch = m.nUbatch ∧
      m'.history = m.history := by
  obtain ⟨b, hb, hn⟩ := h.start
  obtain ⟨m', hm', hold', h1, h2, h3⟩ := Memory.restore_prefix hne hn hb
  refine ⟨m', ?_, hold', h1.trans h.nCtx, h2.trans h.nUbatch, h3.trans h.history⟩
  rw [hold.snapshot hP]
  exact hm'

/-- **No draft decode sees a sibling branch**: whatever the draft, the pruning policy, the width and the limits, each
decode of `build_tree` starts from the committed prefix and the tokens above its node, in both components, and the
snapshot of the round then brings the prefix back. -/
theorem buildTree_memory (D : Draft L σ π) (branches : Int) (hP : NumberedFrom 0 P) (hne : P ≠ []) {m : Memory}
    (hold : m.Holds P) (hidle : m.history.capturing = false) (root : Token) (depthLimit : Int)
    (hroom : P.length + depthLimit.toNat ≤ m.nCtx) :
    ∃ st m', buildTree D branches nodeLimit m root P.length depthLimit = .ok st ∧
      (∀ d ∈ st.decodes, Faithful P st.tree d) ∧ st.mem.restore m.snapshot = .ok m' ∧ m'.Holds P := by
  obtain ⟨st, dep, hst, hd⟩ := buildTree_spec nodeLimit D branches hP hold hidle root depthLimit hroom
  obtain ⟨m', hm', hold', -⟩ := hd.restore hP hne hold
  exact ⟨st, m', hst, hd.faithful, hm', hold'⟩

end Spec

/-- A draft over three tokens that ranks them by number and prunes nothing. -/
def rankDraft : Draft Nat Unit Unit where
  nVocab := 3
  logits _ _ t := t
  select _ _ _ _ _ _ := (some (), ())
  path := ()
  reset := ()

/-- A memory in which the target has decoded two tokens. -/
def twoTokens : Memory where
  nCtx := 8
  nUbatch := 4
  attn := entries .target 0 [1, 2]
  recr := entries .target 0 [1, 2]

theorem buildTree_memory_rankDraft :
    ∃ st m', buildTree rankDraft 2 6 twoTokens 0 2 2 = .ok st ∧
      (∀ d ∈ st.decodes, Faithful (entries .target 0 [1, 2]) st.tree d) ∧
      st.mem.restore twoTokens.snapshot = .ok m' ∧ m'.Holds (entries .target 0 [1, 2]) :=
  buildTree_memory 6 rankDraft 2 (NumberedFrom.entries .target 0 [1, 2]) (by decide) ⟨rfl, rfl⟩ rfl 0 2 (by decide)

end S2Moe.Next
