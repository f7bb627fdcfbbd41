import Mathlib.Algebra.BigOperators.Group.Finset.Basic
import Mathlib.Algebra.Order.Field.Basic
import Mathlib.Data.Rat.Cast.Lemmas
import S2Moe.Next.Shape

/-!
# The pruning policy

`prune_policy` weighs a proposed token against the experts that the decode before it was routed to and the path has not
used yet. Arithmetic is exact; the confidence, the routing and the power function are open.

* `validateSsdRegistry` : the check behind a load; `bundles` : the constructor's map;
* `select` : one proposal; `Policy.draft` : the policy as `build_tree` calls it;
* `coldBytes` : what an expert costs; `newExperts_spec` : the experts that are new to a path;
* `Accounts` : what a path state says of the tokens on its path; `next_accounts` : one proposal, `selectLoop_accounts` :
the children of a node;
* `buildTree_accounts` : the state of each kept node.
-/

namespace S2Moe.Next

open Lib

section Registry

/-- A layer and an expert of it. -/
abbrev ExpertKey := Int × Int

/-- A split expert in the registry. `key` is what its name is read as, if it can be read. -/
structure SsdExpert where
  name : String
  key : Option ExpertKey
  size : Nat
  resident : Bool

/-- The loop of `llama_validate_ssd_registry`, behind the names `names`. -/
def validateRecords (hotExperts : List ExpertKey) : List String → List SsdExpert → Except String Unit
  | _, [] => .ok ()
  | names, record :: records =>
    if record.name ∈ names then .error ("SSD registry contains a duplicate key: " ++ record.name)
    else
      match record.key with
      | none => .error ("invalid split-expert registry key: " ++ record.name)
      | some key =>
        if record.resident ≠ decide (key ∈ hotExperts) then
          .error ((if record.resident then "cold SSD expert has a resident pointer: "
            else "requested hot expert has no resident pointer: ") ++ record.name)
        else validateRecords hotExperts (record.name :: names) records

/-- `llama_validate_ssd_registry`. -/
def validateSsdRegistry (hotExperts : List ExpertKey) (records : List SsdExpert) : Except String Unit := do
  validateRecords hotExperts [] records
  match hotExperts.find? fun hot => records.all fun record => record.key != some hot with
  | some hot => .error s!"requested hot expert [{hot.1}, {hot.2}] is absent from the SSD registry"
  | none => .ok ()

/-- `bundle.first += size; bundle.second = resident`. -/
def addItem (bundle : Option (Nat × Bool)) (item : SsdExpert) : Option (Nat × Bool) :=
  some ((bundle.getD (0, false)).1 + item.size, item.resident)

/-- The constructor of `prune_policy`. -/
def bundles : List SsdExpert → (ExpertKey → Option (Nat × Bool)) → Except String (ExpertKey → Option (Nat × Bool))
  | [], experts => .ok experts
  | item :: items, experts =>
    match item.key with
    | none => .error "invalid expert registry name"
    | some key => bundles items (Function.update experts key (addItem (experts key) item))

end Registry

section Policy
variable {K : Type} [Field K] [LinearOrder K]

/-- A layer of the captured routing, with the experts of the first row. -/
structure RoutedLayer where
  layer : Int
  experts : List Int

/-- `path_state`. -/
structure PathState (K : Type) where
  seen : Finset ExpertKey
  probability : K
  costMs : K

/-- `prune_policy`, and what it reads of the last decode. Without a captured routing `select` throws, so there is one. -/
structure Policy (K : Type) where
  config : PruneConfig
  experts : ExpertKey → Option (Nat × Bool)
  nExpertUsed : Nat
  confidence : List Entry → List Entry → Token → K
  routing : List Entry → List Entry → { layers : List RoutedLayer // layers ≠ [] }
  pow : K → K → K

/-- A node that was kept, and its path state. -/
structure KeptNode (K : Type) where
  token : Token
  state : PathState K

/-- The counters, with the kept nodes in order. -/
structure Counters (K : Type) where
  kept : Nat := 0
  rejected : Nat := 0
  log : List (KeptNode K) := []

/-- The pairs of the first `n_expert_used` experts of each layer. -/
def Policy.routed (p : Policy K) (attn recr : List Entry) : List ExpertKey :=
  (p.routing attn recr).1.flatMap fun layer => (layer.experts.take p.nExpertUsed).map fun expert => (layer.layer, expert)

/-- `if (it != experts.end() && !it->second.second) new_bytes += it->second.first`. -/
def Policy.bytes (p : Policy K) (key : ExpertKey) : Nat :=
  match p.experts key with
  | some (size, false) => size
  | _ => 0

/-- The loops over the routing: the pairs seen, and the bytes of the new ones. -/
def Policy.newExperts (p : Policy K) : List ExpertKey → Finset ExpertKey → Nat → Finset ExpertKey × Nat
  | [], seen, newBytes => (seen, newBytes)
  | key :: keys, seen, newBytes =>
    if key ∈ seen then p.newExperts keys seen newBytes else p.newExperts keys (insert key seen) (newBytes + p.bytes key)

/-- `prune_policy::select`: whether the token is kept, and the path state and the counters after it. -/
def Policy.select (p : Policy K) (attn recr : List Entry) (depth : Nat) (proposed : Token) (state : PathState K)
    (c : Counters K) : Bool × PathState K × Counters K :=
  if !p.config.enabled then (true, state, c)
  else
    let confidence := p.confidence attn recr proposed
    let pathProbability := state.probability * p.pow confidence p.config.lambda
    let new := p.newExperts (p.routed attn recr) state.seen 0
    let increment := (new.2 : K) / p.config.bandwidth
    let score := pathProbability * p.config.tpotMs / (increment + p.config.epsilon)
    if (depth : Int) ≤ p.config.maxDepth ∧ (c.kept : Int) < p.config.maxNodes ∧
        (p.config.budgetMs = 0 ∨ state.costMs + increment ≤ p.config.budgetMs) ∧
        (p.config.confidenceThreshold : K) ≤ confidence ∧ (depth = 1 ∨ (p.config.scoreThreshold : K) ≤ score) then
      let state : PathState K := ⟨new.1, pathProbability, state.costMs + increment⟩
      (true, state, { c with kept := c.kept + 1, log := c.log ++ [⟨proposed, state⟩] })
    else (false, state, { c with rejected := c.rejected + 1 })

/-- The draft of `build_tree` with this policy: a branch that is not kept is dropped with its copy of the path state. -/
def Policy.draft {L : Type} (p : Policy K) (nVocab : Nat) (logits : List Entry → List Entry → Token → L) :
    Draft L (Counters K) (PathState K) where
  nVocab := nVocab
  logits := logits
  select c attn recr depth token state :=
    let r := p.select attn recr depth token state c
    (if r.1 then some r.2.1 else none, r.2.2)
  path := ⟨∅, 1, 0⟩
  reset := {}

end Policy

section Bundles

theorem resident_of_validateRecords {hot : List ExpertKey} : ∀ {records : List SsdExpert} {names : List String},
    validateRecords hot names records = .ok () →
    ∀ record ∈ records, ∃ key, record.key = some key ∧ record.resident = decide (key ∈ hot)
  | [], _, _, _, h => absurd h List.not_mem_nil
  | record :: records, names, hok, r, hr => by
    rw [validateRecords] at hok
    split at hok
    · cases hok
    · cases hkey : record.key with
      | none =>
        rw [hkey] at hok
        cases hok
      | some key =>
        rw [hkey] at hok
        dsimp only at hok
        split_ifs at hok with hresident
        rcases List.mem_cons.mp hr with rfl | hr
        · exact ⟨key, hkey, not_not.mp hresident⟩
        · exact resident_of_validateRecords hok r hr

theorem resident_of_validate {hot : List ExpertKey} {records : List SsdExpert}
    (h : validateSsdRegistry hot records = .ok ()) : ∀ record ∈ records, ∀ key, record.key = some key →
      record.resident = decide (key ∈ hot) := by
  intro record hrecord key hkey
  rw [validateSsdRegistry] at h
  obtain ⟨_, hok, _⟩ := bind_eq_ok h
  obtain ⟨key', hkey', hresident⟩ := resident_of_validateRecords hok record hrecord
  rw [hkey] at hkey'
  cases hkey'
  exact hresident

/-- The bytes of a bundle: those of all its projections. -/
def bundleBytes (items : List SsdExpert) (key : ExpertKey) : Nat :=
  ((items.filter fun item => item.key = some key).map SsdExpert.size).sum

/-- The bundle is resident. -/
def residentBundle (items : List SsdExpert) (key : ExpertKey) : Bool := items.any fun item =>
    item.key = some key && item.resident

/-- What an expert costs: nothing if it is resident or not registered. -/
def coldBytes (items : List SsdExpert) (key : ExpertKey) : Nat :=
    if residentBundle items key then 0 else bundleBytes items key

theorem bundles_eq (key : ExpertKey) : ∀ {items : List SsdExpert} {f g : ExpertKey → Option (Nat × Bool)},
    bundles items f = .ok g → g key = (items.filter fun item => item.key = some key).foldl addItem (f key)
  | [], f, g, h => by
    cases h
    rfl
  | item :: items, f, g, h => by
    rw [bundles] at h
    cases hkey : item.key with
    | none =>
      rw [hkey] at h
      cases h
    | some key' =>
      rw [hkey] at h
      rw [bundles_eq key h]
      by_cases hk : key' = key
      · subst hk
        rw [Function.update_self, List.filter_cons_of_pos (by simp [hkey]), List.foldl_cons]
      · rw [Function.update_of_ne (Ne.symm hk), List.filter_cons_of_neg (by simp [hkey, hk])]

theorem foldl_addItem {resident : Bool} : ∀ (items : List SsdExpert) (size : Nat),
    (∀ item ∈ items, item.resident = resident) →
    items.foldl addItem (some (size, resident)) = some (size + (items.map SsdExpert.size).sum, resident)
  | [], size, _ => by simp
  | item :: items, size, h => by
    rw [List.foldl_cons, addItem, h item List.mem_cons_self]
    rw [show (some (size, resident)).getD (0, false) = (size, resident) from rfl, foldl_addItem items _ fun i hi =>
      h i (List.mem_cons_of_mem _ hi), List.map_cons, List.sum_cons, Nat.add_assoc]

variable {K : Type}

/-- With a valid registry it does not matter which projection comes last. -/
theorem Policy.bytes_eq {p : Policy K} {hot : List ExpertKey} {items : List SsdExpert}
    (hvalid : validateSsdRegistry hot items = .ok ())
    (hexperts : bundles items (fun _ => none) = .ok p.experts) (key : ExpertKey) : p.bytes key = coldBytes items key := by
  have hresident : ∀ item ∈ items.filter (fun item => item.key = some key), item.resident = decide (key ∈ hot) := by
    intro item hitem
    rw [List.mem_filter, decide_eq_true_eq] at hitem
    exact resident_of_validate hvalid item hitem.1 key hitem.2
  have hany : residentBundle items key = (items.filter fun item => item.key = some key).any SsdExpert.resident := by
    rw [residentBundle, List.any_filter]
  rw [Policy.bytes, bundles_eq key hexperts, coldBytes, hany, bundleBytes]
  cases hfilter : items.filter (fun item => item.key = some key) with
  | nil => rfl
  | cons item rest =>
    rw [hfilter] at hresident
    have hrest : ∀ i ∈ rest, i.resident = decide (key ∈ hot) := fun i hi => hresident i (List.mem_cons_of_mem _ hi)
    rw [List.foldl_cons, addItem, hresident item List.mem_cons_self, foldl_addItem rest _ hrest, List.any_cons,
      hresident item List.mem_cons_self, List.map_cons, List.sum_cons]
    cases hk : decide (key ∈ hot) with
    | true => rfl
    | false =>
      have hnone : rest.any SsdExpert.resident = false := by
        rw [List.any_eq_false]
        intro i hi
        rw [hrest i hi, hk]
        exact Bool.false_ne_true
      rw [hnone]
      simp

end Bundles

section Accounts
variable {K : Type}

/-- The new pairs are added once each, with their bytes. -/
theorem newExperts_spec (p : Policy K) : ∀ (keys : List ExpertKey) (seen : Finset ExpertKey) (newBytes : Nat),
    (p.newExperts keys seen newBytes).1 = seen ∪ keys.toFinset ∧
      (p.newExperts keys seen newBytes).2 + ∑ key ∈ seen, p.bytes key = newBytes + ∑ key ∈ seen ∪ keys.toFinset, p.bytes key
  | [], seen, newBytes => by
    rw [Policy.newExperts, List.toFinset_nil, Finset.union_empty]
    exact ⟨rfl, rfl⟩
  | key :: keys, seen, newBytes => by
    rw [Policy.newExperts, List.toFinset_cons, Finset.union_insert]
    split_ifs with hseen
    · obtain ⟨h1, h2⟩ := newExperts_spec p keys seen newBytes
      rw [Finset.insert_eq_of_mem (Finset.mem_union_left _ hseen)]
      exact ⟨h1, h2⟩
    · obtain ⟨h1, h2⟩ := newExperts_spec p keys (insert key seen) (newBytes + p.bytes key)
      rw [Finset.insert_union] at h1 h2
      rw [Finset.sum_insert hseen] at h2
      exact ⟨h1, by omega⟩

variable [Field K] [LinearOrder K]

/-- What the draft has in its memory behind the tokens `ts`. -/
def draftText (P : List Entry) (ts : List Token) : List Entry := P ++ entries .draft P.length ts

/-- The pairs routed at the decode of the last of `ts`. -/
def Policy.routedAt (p : Policy K) (P : List Entry) (ts : List Token) : List ExpertKey :=
  p.routed (draftText P ts) (draftText P ts)

/-- The confidence to the power of `lambda`, of the token `x` behind `ts`. -/
def Policy.factor (p : Policy K) (P : List Entry) (ts : List Token) (x : Token) : K :=
  p.pow (p.confidence (draftText P ts) (draftText P ts) x) p.config.lambda

/-- The path state of a node with the token `x` and the tokens `ts` above it: one decode and one proposal for each of `ts`. -/
structure Accounts (p : Policy K) (items : List SsdExpert) (P : List Entry) (ts : List Token) (x : Token) (s : PathState K) :
    Prop where
  seen : s.seen = (Finset.range ts.length).biUnion fun k => (p.routedAt P (ts.take (k + 1))).toFinset
  cost : s.costMs = ((∑ key ∈ s.seen, coldBytes items key : Nat) : K) / p.config.bandwidth
  probability : s.probability = ∏ k ∈ Finset.range ts.length, p.factor P (ts.take (k + 1)) ((ts ++ [x]).getD (k + 1) 0)
  budget : 0 < p.config.budgetMs → s.costMs ≤ p.config.budgetMs

/-- The state of a child that is kept. -/
def Policy.next (p : Policy K) (attn recr : List Entry) (proposed : Token) (state : PathState K) : PathState K where
  seen := (p.newExperts (p.routed attn recr) state.seen 0).1
  probability := state.probability * p.pow (p.confidence attn recr proposed) p.config.lambda
  costMs := state.costMs + ((p.newExperts (p.routed attn recr) state.seen 0).2 : K) / p.config.bandwidth

theorem select_enabled {p : Policy K} (henabled : p.config.enabled = true) (attn recr : List Entry) (depth : Nat)
    (proposed : Token)
    (state : PathState K) (c : Counters K) :
    (p.select attn recr depth proposed state c = (true, p.next attn recr proposed state,
        { c with kept := c.kept + 1, log := c.log ++ [⟨proposed, p.next attn recr proposed state⟩] }) ∧
      (p.config.budgetMs = 0 ∨ (p.next attn recr proposed state).costMs ≤ p.config.budgetMs)) ∨
    p.select attn recr depth proposed state c = (false, state, { c with rejected := c.rejected + 1 }) := by
  have hno : ¬(!p.config.enabled) = true := by
    rw [henabled]
    exact Bool.false_ne_true
  rw [Policy.select, if_neg hno]
  dsimp only
  split_ifs with hcond
  · exact .inl ⟨rfl, hcond.2.2.1⟩
  · exact .inr rfl

theorem select_disabled {p : Policy K} (henabled : p.config.enabled = false) (attn recr : List Entry) (depth : Nat)
    (proposed : Token) (state : PathState K) (c : Counters K) : p.select attn recr depth proposed state c =
    (true, state, c) := by
  rw [Policy.select, henabled]
  rfl

/-- A rejected proposal leaves the path state. -/
theorem select_rejected (p : Policy K) (attn recr : List Entry) (depth : Nat) (proposed : Token) (state : PathState K)
    (c : Counters K) (h : (p.select attn recr depth proposed state c).1 = false) :
    (p.select attn recr depth proposed state c).2.1 = state := by
  cases henabled : p.config.enabled with
  | false => rw [select_disabled henabled]
  | true =>
    rcases select_enabled henabled attn recr depth proposed state c with ⟨hkept, _⟩ | hrejected
    · rw [hkept] at h
      cases h
    · rw [hrejected]

/-- **The state of a child** that is kept within the budget. -/
theorem next_accounts {p : Policy K} {items : List SsdExpert} (hbytes : ∀ key, p.bytes key = coldBytes items key)
    {P : List Entry} {ts : List Token} {x y : Token} {state : PathState K} (h : Accounts p items P ts y state)
    (hbudget : p.config.budgetMs = 0 ∨
      (p.next (draftText P (ts ++ [y])) (draftText P (ts ++ [y])) x state).costMs ≤ p.config.budgetMs) :
    Accounts p items P (ts ++ [y]) x (p.next (draftText P (ts ++ [y])) (draftText P (ts ++ [y])) x state) := by
  obtain ⟨hnew, hsum⟩ := newExperts_spec p (p.routedAt P (ts ++ [y])) state.seen 0
  have hlen : (ts ++ [y]).length = ts.length + 1 := List.length_append
  have htake : ∀ k ∈ Finset.range ts.length, (ts ++ [y]).take (k + 1) = ts.take (k + 1) := by
    intro k hk
    exact List.take_append_of_le_length (Finset.mem_range.mp hk)
  have hall : (ts ++ [y]).take (ts.length + 1) = ts ++ [y] := List.take_of_length_le hlen.le
  constructor
  · show (p.newExperts (p.routedAt P (ts ++ [y])) state.seen 0).1 = _
    rw [hnew, h.seen, hlen, Finset.range_add_one, Finset.biUnion_insert, hall, Finset.union_comm]
    congr 1
    exact Finset.biUnion_congr rfl fun k hk => by rw [htake k hk]
  · show state.costMs + ((p.newExperts (p.routedAt P (ts ++ [y])) state.seen 0).2 : K) / p.config.bandwidth =
      ((∑ key ∈ (p.newExperts (p.routedAt P (ts ++ [y])) state.seen 0).1, coldBytes items key : Nat) : K) / p.config.bandwidth
    rw [hnew, h.cost, ← add_div, ← Nat.cast_add]
    simp only [← hbytes]
    congr 2
    omega
  · show state.probability * p.factor P (ts ++ [y]) x = _
    rw [h.probability, hlen, Finset.prod_range_succ, hall]
    have hlast : ((ts ++ [y]) ++ [x]).getD (ts.length + 1) 0 = x := by
      rw [List.getD_eq_getElem?_getD, ← hlen, List.getElem?_concat_length]
      rfl
    rw [hlast]
    congr 1
    apply Finset.prod_congr rfl
    intro k hk
    rw [htake k hk, List.getD_append (ts ++ [y]) [x] _ _ (by rw [hlen]; have := Finset.mem_range.mp hk; omega)]
  · intro hpos
    exact hbudget.resolve_left hpos.ne'

theorem draft_select {L : Type} (p : Policy K) (nVocab : Nat) (logits : List Entry → List Entry → Token → L) (c : Counters K)
    (attn recr : List Entry) (depth : Nat) (token : Token) (state : PathState K) :
    (p.draft nVocab logits).select c attn recr depth token state =
      (if (p.select attn recr depth token state c).1 then some (p.select attn recr depth token state c).2.1 else none,
        (p.select attn recr depth token state c).2.2) := rfl

/-- The children of a node: the log has their states, in order. -/
theorem selectLoop_accounts {L : Type} {p : Policy K} {items : List SsdExpert}
    (hbytes : ∀ key, p.bytes key = coldBytes items key)
    (henabled : p.config.enabled = true) {P : List Entry} {ts : List Token} {y : Token} {state : PathState K}
    (h : Accounts p items P ts y state) (nVocab : Nat) (logits : List Entry → List Entry → Token → L) (nodeLimit : Int)
    (size depth : Nat) (log : List (KeptNode K)) :
    ∀ (choices : List Token) (selected : List (Token × PathState K)) (c : Counters K),
      (∀ q ∈ selected, Accounts p items P (ts ++ [y]) q.1 q.2) → c.log = log ++ selected.map (fun q => ⟨q.1, q.2⟩) →
      ∀ r, r = selectLoop (p.draft nVocab logits) nodeLimit size depth (draftText P (ts ++ [y]))
        (draftText P (ts ++ [y])) state
          choices selected c →
        (∀ q ∈ r.1, Accounts p items P (ts ++ [y]) q.1 q.2) ∧ r.2.log = log ++ r.1.map (fun q => ⟨q.1, q.2⟩)
  | [], selected, c, hselected, hlog, r, hr => by
    rw [hr]
    exact ⟨hselected, hlog⟩
  | token :: choices, selected, c, hselected, hlog, r, hr => by
    rw [selectLoop] at hr
    split at hr
    · rw [hr]
      exact ⟨hselected, hlog⟩
    · rcases select_enabled henabled (draftText P (ts ++ [y])) (draftText P (ts ++ [y])) (depth + 1) token state c with
        ⟨hkept, hbudget⟩ | hrejected
      · have hnext := next_accounts (x := token) hbytes h hbudget
        rw [draft_select, hkept, if_pos rfl] at hr
        dsimp only at hr
        apply selectLoop_accounts hbytes henabled h nVocab logits nodeLimit size depth log choices _ _ _ _ r hr
        · intro q hq
          rcases List.mem_append.mp hq with hq | hq
          · exact hselected q hq
          · rw [List.mem_singleton.mp hq]
            exact hnext
        · rw [hlog, List.map_append, List.append_assoc]
          rfl
      · rw [draft_select, hrejected, if_neg Bool.false_ne_true] at hr
        dsimp only at hr
        exact selectLoop_accounts hbytes henabled h nVocab logits nodeLimit size depth log choices selected
          { c with rejected := c.rejected + 1 } hselected hlog r hr

theorem selectLoop_disabled {L : Type} {p : Policy K} (henabled : p.config.enabled = false) (nVocab : Nat)
    (logits : List Entry → List Entry → Token → L) (nodeLimit : Int) (size depth : Nat) (attn recr : List Entry)
    (state : PathState K) (c : Counters K) : ∀ (choices : List Token) (selected : List (Token × PathState K)),
    (selectLoop (p.draft nVocab logits) nodeLimit size depth attn recr state choices selected c).2 = c
  | [], _ => rfl
  | token :: choices, selected => by
    rw [selectLoop]
    split
    · rfl
    · rw [draft_select, select_disabled henabled, if_pos rfl]
      exact selectLoop_disabled henabled nVocab logits nodeLimit size depth attn recr state c choices _

/-- The log has the nodes behind the root, with their states. -/
structure Logged (p : Policy K) (items : List SsdExpert) (P : List Entry) (t : HybridTree) (c : Counters K) : Prop where
  length : p.config.enabled = true → c.log.length + 1 = t.size
  disabled : p.config.enabled = false → c.log = []
  node : ∀ k kept, c.log[k]? = some kept → kept.token = t.token (k + 1) ∧
    ∃ ts, t.RootPath ts (k + 1) ∧ Accounts p items P ts kept.token kept.state

/-- The state that `expand` gets for a node below `ts`. -/
def Expanded (p : Policy K) (items : List SsdExpert) (P : List Entry) (t : HybridTree) (ts : List Token) (c : Nat)
    (state : PathState K) : Prop := p.config.enabled = true → Accounts p items P ts (t.token c) state

open HybridTree

/-- Below a node, the root path and the token of its `j`-th child. -/
theorem rootPath_grow {t : HybridTree} {ts : List Token} {index : Nat} (hpath : t.RootPath ts index) (hlt : index < t.size)
    (hleaf : t.children index = []) (xs : List Token) {j : Nat} (hj : j < xs.length) :
    ((t.pushAll xs).setChildren index ((List.range xs.length).map (t.size + ·))).RootPath (ts ++ [t.token index])
      (t.size + j) ∧
      ((t.pushAll xs).setChildren index ((List.range xs.length).map (t.size + ·))).token (t.size + j) = xs[j] := by
  have hext := Extends.grow hleaf xs ((List.range xs.length).map (t.size + ·))
  constructor
  · rw [← hext.token_eq index hlt]
    apply RootPath.child (hpath.mono hext) (lt_of_lt_of_le hlt hext.size_le)
    rw [children_grow hlt, if_pos rfl]
    exact List.mem_map.mpr ⟨j, List.mem_range.mpr hj, rfl⟩
  · rw [token_setChildren, token_pushAll_add xs t hj]

theorem rootPath_unique {limit width : Nat} {nodeLimit : Int} {t : HybridTree} {dep : Nat → Nat}
    (h : Formed limit width nodeLimit t dep) {ts us : List Token} {v : Nat} (hts : t.RootPath ts v) (hus : t.RootPath us v) :
    ts = us := by
  induction hts generalizing us with
  | root =>
    cases hus with
    | root => rfl
    | child hp hlt hc => exact absurd (h.shape _ hlt 0 hc).1 (Nat.not_lt_zero _)
  | @child ts v c hp hlt hc ih =>
    have hshape := h.shape v hlt c hc
    cases hus with
    | root => exact absurd hshape.1 (Nat.not_lt_zero _)
    | @child us w _ hp' hlt' hc' =>
      obtain rfl : v = w := (h.parent c (by omega) hshape.2.1).unique hc hc'
      rw [ih hp']

variable {L : Type} [LinearOrder L]

/-- Every node that `expand` decodes keeps the log and the states of its children. -/
theorem tracks_accounts {p : Policy K} {items : List SsdExpert} (hbytes : ∀ key, p.bytes key = coldBytes items key)
    (nVocab : Nat) (logits : List Entry → List Entry → Token → L) (nodeLimit branches : Int) (P : List Entry) (limit : Nat) :
    Tracks nodeLimit (p.draft nVocab logits) branches P limit (Logged p items P) (Expanded p items P) where
  mono := by
    intro t u ts c state hext hc hstate henabled
    rw [hext.token_eq c hc]
    exact hstate henabled
  grow := by
    intro t ts index state policy hj hpath hlt hleaf hstate _ chosen hchosen
    have hext := Extends.grow hleaf (chosen.1.map Prod.fst) ((List.range (chosen.1.map Prod.fst).length).map (t.size + ·))
    cases henabled : p.config.enabled with
    | false =>
      have hpolicy : chosen.2 = policy := by
        rw [hchosen]
        exact selectLoop_disabled henabled nVocab logits nodeLimit t.size ts.length _ _ state policy _ []
      rw [hpolicy]
      have hlog := hj.disabled henabled
      refine ⟨⟨fun h => ?_, fun _ => hlog, fun k kept hk => ?_⟩, fun q _ h => ?_⟩
      · exact absurd (henabled.symm.trans h) Bool.false_ne_true
      · rw [hlog] at hk
        cases hk
      · exact absurd (henabled.symm.trans h) Bool.false_ne_true
    | true =>
      obtain ⟨hchildren, hlog⟩ := selectLoop_accounts hbytes henabled
        (hstate henabled) nVocab logits nodeLimit t.size ts.length
        policy.log _ [] policy (fun _ h => absurd h List.not_mem_nil) (List.append_nil _).symm chosen hchosen
      have hlen := hj.length henabled
      -- the `j`-th child of the node, its token and its state
      have hchild : ∀ j (hj : j < chosen.1.length), ((t.pushAll (chosen.1.map Prod.fst)).setChildren index
            ((List.range (chosen.1.map Prod.fst).length).map (t.size + ·))).RootPath (ts ++ [t.token index]) (t.size + j) ∧
          ((t.pushAll (chosen.1.map Prod.fst)).setChildren index
            ((List.range (chosen.1.map Prod.fst).length).map (t.size + ·))).token (t.size + j) = chosen.1[j].1 := by
        intro j hj
        have hgrow := rootPath_grow hpath hlt hleaf (chosen.1.map Prod.fst) (j := j) (by rw [List.length_map]; exact hj)
        rwa [List.getElem_map] at hgrow
      refine ⟨⟨fun _ => ?_, fun h => ?_, fun k kept hk => ?_⟩, fun q hq _ => ?_⟩
      · rw [size_setChildren, size_pushAll, hlog, List.length_append, List.length_map, List.length_map]
        omega
      · exact absurd (henabled.symm.trans h) (Ne.symm Bool.false_ne_true)
      · rw [hlog] at hk
        by_cases hold : k < policy.log.length
        · rw [List.getElem?_append_left hold] at hk
          obtain ⟨htoken, us, hus, haccounts⟩ := hj.node k kept hk
          rw [hext.token_eq (k + 1) (by omega)]
          exact ⟨htoken, us, hus.mono hext, haccounts⟩
        · rw [List.getElem?_append_right (by omega), List.getElem?_map] at hk
          obtain ⟨q, hq, rfl⟩ := Option.map_eq_some_iff.mp hk
          obtain ⟨hlt', hget⟩ := List.getElem?_eq_some_iff.mp hq
          obtain ⟨hroot, htoken⟩ := hchild (k - policy.log.length) hlt'
          rw [show t.size + (k - policy.log.length) = k + 1 by omega] at hroot htoken
          rw [htoken, hget]
          exact ⟨rfl, _, hroot, hchildren q (List.mem_of_getElem? hq)⟩
      · obtain ⟨j, hlt', hget⟩ := List.mem_iff_getElem.mp hq
        rw [List.length_zip, List.length_map, List.length_range, List.length_map, List.length_map] at hlt'
        rw [List.getElem_zip, List.getElem_map, List.getElem_range, List.getElem_map] at hget
        subst hget
        dsimp only
        rw [(hchild j (by omega)).2]
        exact hchildren _ (List.getElem_mem _)

/-- Without room for a node nothing is decoded. -/
theorem buildTree_noRoom {σ π : Type} (D : Draft L σ π) (branches pos depthLimit : Int) {nodeLimit : Int} (h : nodeLimit < 0)
    (m : Memory) (root : Token) : buildTree D branches nodeLimit m root pos depthLimit =
      .ok { tree := ⟨[⟨root, []⟩]⟩, mem := m, policy := D.reset } := by
  have hfull : nodeLimit < ((⟨[⟨root, []⟩]⟩ : HybridTree).size : Int) := by
    show nodeLimit < ((1 : Nat) : Int)
    omega
  rw [buildTree]
  cases depthLimit.toNat with
  | zero => rfl
  | succ rem => rw [expand, if_pos hfull]

variable [IsStrictOrderedRing K]

/-- **The pruning policy keeps its accounts.** Whatever the routing and the logits, the path state of each kept node says what
its root path was routed to and what that costs, and stays within the budget; it depends on no other node. A rejected proposal
leaves the path state. -/
theorem buildTree_accounts (p : Policy K) {hot : List ExpertKey} {items : List SsdExpert}
    (hvalid : validateSsdRegistry hot items = .ok ()) (hexperts : bundles items (fun _ => none) = .ok p.experts)
    (nVocab : Nat) (logits : List Entry → List Entry → Token → L) (branches : Int) {P : List Entry} (hP : NumberedFrom 0 P)
    {m : Memory} (hold : m.Holds P) (hidle : m.history.capturing = false) (root : Token) (depthLimit : Int)
    (hroom : P.length + depthLimit.toNat ≤ m.nCtx) :
    (∃ st, buildTree (p.draft nVocab logits) branches p.config.maxNodes m root P.length depthLimit = .ok st ∧
      (p.config.enabled = true → st.policy.log.length + 1 = st.tree.size) ∧
      (p.config.enabled = false → st.policy.log = []) ∧
      ∀ k kept, st.policy.log[k]? = some kept → kept.token = st.tree.token (k + 1) ∧ (∃ ts, st.tree.RootPath ts (k + 1)) ∧
        ∀ ts, st.tree.RootPath ts (k + 1) → Accounts p items P ts kept.token kept.state) ∧
    ∀ attn recr depth proposed state c, (p.select attn recr depth proposed state c).1 = false →
      (p.select attn recr depth proposed state c).2.1 = state := by
  refine ⟨?_, select_rejected p⟩
  have hroot : Accounts p items P [] root (p.draft nVocab logits).path := by
    refine ⟨rfl, ?_, rfl, fun hbudget => ?_⟩
    · show (0 : K) = ((0 : Nat) : K) / _
      rw [Nat.cast_zero, zero_div]
    · show (0 : K) ≤ _
      exact_mod_cast hbudget.le
  have hempty : Logged p items P ⟨[⟨root, []⟩]⟩ (p.draft nVocab logits).reset :=
    ⟨fun _ => rfl, fun _ => rfl, fun k kept h => by cases h⟩
  obtain ⟨st, dep, hst, hdrafted, hlogged⟩ := buildTree_tracks p.config.maxNodes
    (p.draft nVocab logits) branches hP hold hidle root
    depthLimit hroom (tracks_accounts (Policy.bytes_eq hvalid hexperts) nVocab logits _ branches P depthLimit.toNat) hempty
    (fun _ => hroot)
  refine ⟨st, hst, hlogged.length, hlogged.disabled, fun k kept hk => ?_⟩
  obtain ⟨htoken, ts, hts, haccounts⟩ := hlogged.node k kept hk
  refine ⟨htoken, ⟨ts, hts⟩, fun us hus => ?_⟩
  have hnodes : 0 ≤ p.config.maxNodes := by
    by_contra hneg
    have hst' := buildTree_noRoom (p.draft nVocab logits) branches P.length depthLimit (not_le.mp hneg) m root
    obtain rfl := Except.ok.inj (hst.symm.trans hst')
    cases hk
  obtain ⟨dep, hformed, _, _⟩ := buildTree_formed (p.draft nVocab logits) hnodes hst
  rw [rootPath_unique hformed hus hts]
  exact haccounts

end Accounts

/-- Three experts in two layers, one of them resident. -/
def twoLayers : List SsdExpert :=
  [⟨"blk.0.ffn_gate_exps.0.weight", some (0, 0), 10, false⟩, ⟨"blk.0.ffn_up_exps.0.weight", some (0, 0), 20, false⟩,
    ⟨"blk.1.ffn_gate_exps.0.weight", some (1, 0), 10, true⟩, ⟨"blk.1.ffn_up_exps.0.weight", some (1, 0), 20, true⟩,
    ⟨"blk.1.ffn_gate_exps.1.weight", some (1, 1), 15, false⟩]

/-- A policy over `twoLayers`: every token is half certain, and the last token routes the second layer. -/
def halfPolicy : Policy ℚ where
  config := { enabled := true, bandwidth := 10, budgetMs := 100, scoreThreshold := 0 }
  experts key := (twoLayers.filter fun item => item.key = some key).foldl addItem none
  nExpertUsed := 1
  confidence _ _ _ := 1 / 2
  routing _ recr := ⟨[⟨0, [0, 1]⟩, ⟨1, [if recr.length = 3 then 0 else 1, 2]⟩], List.cons_ne_nil _ _⟩
  pow x _ := x

theorem halfPolicy_experts : bundles twoLayers (fun _ => none) = .ok halfPolicy.experts := by
  have hok : ∃ g, bundles twoLayers (fun _ => none) = .ok g := ⟨_, rfl⟩
  obtain ⟨g, hg⟩ := hok
  rw [hg]
  congr 1
  funext key
  exact bundles_eq key hg

theorem buildTree_accounts_halfPolicy :
    ∃ st, buildTree (halfPolicy.draft 3 fun _ _ t => t) 2 31 twoTokens 0 2 2 = .ok st ∧
      st.policy.log.length + 1 = st.tree.size ∧
      ∀ k kept, st.policy.log[k]? = some kept → kept.token = st.tree.token (k + 1) ∧ (∃ ts, st.tree.RootPath ts (k + 1)) ∧
        ∀ ts, st.tree.RootPath ts (k + 1) →
          Accounts halfPolicy twoLayers (entries .target 0 [1, 2]) ts kept.token kept.state := by
  obtain ⟨⟨st, hst, hlen, _, hlog⟩, _⟩ := buildTree_accounts halfPolicy
    (show validateSsdRegistry [(1, 0)] twoLayers = .ok () by decide) halfPolicy_experts 3 (fun _ _ t => t) 2
    (NumberedFrom.entries .target 0 [1, 2]) (m := twoTokens) ⟨rfl, rfl⟩ rfl 0 2
    (by decide)
  exact ⟨st, hst, hlen rfl, hlog⟩

end S2Moe.Next
