import S2Moe.Lib.Run
import S2Moe.Next.Lossless

/-!
# The shape of the draft tree

Whatever the logits, the pruning policy and the memory, a tree that `build_tree` returns keeps to the limits.

* `Formed t dep` : the invariant of the recursion, `dep` being the levels; `Formed.grow` : the children of one node;
* `Grown W` : the tree grew, and of its nodes only those in `W` got children;
* `visit_formed`, `expand_formed` : the recursion;
* `WellShaped` : what follows for the finished tree; `buildTree_wellShaped`.
-/

namespace S2Moe.Next

namespace HybridTree

/-- The tree within its limits: `limit` levels below the root, `width` children, `nodeLimit` nodes besides the root. -/
structure Formed (limit width : Nat) (nodeLimit : Int) (t : HybridTree) (dep : Nat → Nat) : Prop where
  size_le : (t.size : Int) ≤ nodeLimit + 1
  shape : t.Shape dep limit
  dep_le : ∀ v < t.size, dep v ≤ limit
  parent : ∀ c, 0 < c → c < t.size → ∃! v, c ∈ t.children v
  tokens : ∀ v, ((t.children v).map t.token).Nodup
  number : ∀ v, (t.children v).length ≤ width

/-- From `t` to `t'` only the nodes `W` of `t` got children. -/
structure Grown (limit width : Nat) (nodeLimit : Int) (W : Nat → Prop) (t t' : HybridTree) (dep dep' : Nat → Nat) : Prop where
  size_le : t.size ≤ t'.size
  frame : ∀ v < t.size, ¬W v → t'.children v = t.children v
  dep_eq : ∀ v < t.size, dep' v = dep v
  formed : Formed limit width nodeLimit t' dep'

variable {limit width : Nat} {nodeLimit : Int} {t t' t'' : HybridTree} {dep dep' dep'' : Nat → Nat} {W W' : Nat → Prop}

theorem Formed.refl (h : Formed limit width nodeLimit t dep) : Grown limit width nodeLimit W t t dep dep :=
  ⟨le_rfl, fun _ _ _ => rfl, fun _ _ => rfl, h⟩

theorem Grown.trans (h : Grown limit width nodeLimit W t t' dep dep') (h' : Grown limit width nodeLimit W' t' t'' dep' dep'')
    (hW : ∀ v < t.size, W' v → W v) : Grown limit width nodeLimit W t t'' dep dep'' where
  size_le := h.size_le.trans h'.size_le
  frame v hv hno := by
    have hv' := lt_of_lt_of_le hv h.size_le
    rw [h'.frame v hv' fun hw => hno (hW v hv hw), h.frame v hv hno]
  dep_eq v hv := (h'.dep_eq v (lt_of_lt_of_le hv h.size_le)).trans (h.dep_eq v hv)
  formed := h'.formed

theorem Grown.mono (h : Grown limit width nodeLimit W t t' dep dep') (hW : ∀ v < t.size, W v → W' v) :
    Grown limit width nodeLimit W' t t' dep dep' :=
  { h with frame := fun v hv hno => h.frame v hv fun hw => hno (hW v hv hw) }

/-- The children of a node before and after `i` got new ones. -/
theorem children_grow {i : Nat} (hi : i < t.size) (xs : List Token) (v : Nat) :
    ((t.pushAll xs).setChildren i ((List.range xs.length).map (t.size + ·))).children v =
      if v = i then (List.range xs.length).map (t.size + ·) else t.children v := by
  by_cases h : v = i
  · subst h
    rw [if_pos rfl, children_setChildren_self _ (by rw [size_pushAll]; omega)]
  · rw [if_neg h, children_setChildren_ne _ h, children_pushAll]

theorem map_token_grow (xs : List Token) (i : Nat) (cs : List Nat) :
    ((List.range xs.length).map (t.size + ·)).map ((t.pushAll xs).setChildren i cs).token = xs := by
  apply List.ext_getElem
  · rw [List.length_map, List.length_map, List.length_range]
  · intro k _ hk
    rw [List.getElem_map, List.getElem_map, List.getElem_range, token_setChildren, token_pushAll_add xs t hk]

/-- A leaf gets its children. -/
theorem Formed.grow (h : Formed limit width nodeLimit t dep) {i : Nat} (hi : i < t.size) (hleaf : t.children i = [])
    (hdep : dep i < limit) {xs : List Token} (hnodup : xs.Nodup) (hwidth : xs.length ≤ width)
    (hsize : ((t.size + xs.length : Nat) : Int) ≤ nodeLimit + 1) :
    Grown limit width nodeLimit (· = i) t ((t.pushAll xs).setChildren i ((List.range xs.length).map (t.size + ·))) dep
      (growLabels dep t.size (dep i)) := by
  have hsz : ((t.pushAll xs).setChildren i ((List.range xs.length).map (t.size + ·))).size = t.size + xs.length := by
    rw [size_setChildren, size_pushAll]
  refine ⟨by omega, fun v _ hv => ?_, fun v hv => if_pos hv, ?_⟩
  · rw [children_grow hi, if_neg hv]
  refine ⟨by rw [hsz]; exact hsize, h.shape.grow hi hdep xs, fun v hv => ?_, fun c hc0 hc => ?_, fun v => ?_, fun v => ?_⟩
  · rw [growLabels]
    split_ifs with hold
    · exact h.dep_le v hold
    · omega
  · rw [hsz] at hc
    simp only [children_grow hi]
    by_cases hold : c < t.size
    · -- an old node keeps its parent, which is not `i`
      obtain ⟨v, hv, huniq⟩ := h.parent c hc0 hold
      dsimp only at hv huniq
      have hvi : v ≠ i := by
        rintro rfl
        rw [hleaf] at hv
        cases hv
      refine ⟨v, by simp only [if_neg hvi]; exact hv, fun w hw => ?_⟩
      dsimp only at hw
      split_ifs at hw with hwi
      · have := (mem_grow_children hw).1
        omega
      · exact huniq w hw
    · refine ⟨i, ?_, fun w hw => ?_⟩
      · simp only [if_true]
        exact List.mem_map.mpr ⟨c - t.size, List.mem_range.mpr (by omega), by omega⟩
      · dsimp only at hw
        split_ifs at hw with hwi
        · exact hwi
        · have hlt : w < t.size := by
            by_contra hge
            rw [children_of_le (by omega)] at hw
            cases hw
          exact absurd (h.shape w hlt c hw).2.1 hold
  · rw [children_grow hi]
    split_ifs
    · rw [map_token_grow]
      exact hnodup
    · have htoken : (t.children v).map ((t.pushAll xs).setChildren i ((List.range xs.length).map (t.size + ·))).token =
          (t.children v).map t.token := by
        apply List.map_congr_left
        intro c hc
        have hlt : v < t.size := by
          by_contra hge
          rw [children_of_le (by omega)] at hc
          cases hc
        rw [token_setChildren, token_pushAll_lt xs (h.shape v hlt c hc).2.1]
      rw [htoken]
      exact h.tokens v
  · rw [children_grow hi]
    split_ifs
    · rw [List.length_map, List.length_range]
      exact hwidth
    · exact h.number v

end HybridTree

open Lib HybridTree

section Recursion
variable {L σ π : Type} {limit width : Nat} {nodeLimit : Int}

/-- Some of the choices are selected, as many as there is room for. -/
theorem selectLoop_sublist (nodeLimit : Int) (D : Draft L σ π) (size depth : Nat) (attn recr : List Entry) (state : π) :
    ∀ (choices : List Token) (selected : List (Token × π)) (policy : σ), ((size + selected.length : Nat) : Int) ≤
      nodeLimit + 1 →
      ∃ new, (selectLoop D nodeLimit size depth attn recr state choices selected policy).1 = selected ++ new ∧
        (new.map Prod.fst).Sublist choices ∧ ((size + (selected ++ new).length : Nat) : Int) ≤ nodeLimit + 1
  | [], selected, _, h => ⟨[], (List.append_nil _).symm, List.Sublist.refl _, by rw [List.append_nil]; exact h⟩
  | token :: choices, selected, policy, h => by
    rw [selectLoop]
    split
    · exact ⟨[], (List.append_nil _).symm, List.nil_sublist _, by rw [List.append_nil]; exact h⟩
    · rename_i hroom
      split
      · rename_i branch policy' _
        obtain ⟨new, hnew, hsub, hle⟩ := selectLoop_sublist nodeLimit D size depth attn recr state choices
          (selected ++ [(token, branch)])
          policy' (by rw [List.length_append, List.length_singleton]; push_cast at hroom ⊢; omega)
        refine ⟨(token, branch) :: new, ?_, ?_, ?_⟩
        · rw [hnew, List.append_assoc]
          rfl
        · exact hsub.cons_cons token
        · rwa [List.append_assoc] at hle
      · obtain ⟨new, hnew, hsub, hle⟩ := selectLoop_sublist nodeLimit D size depth attn recr state choices selected _ h
        exact ⟨new, hnew, hsub.cons token, hle⟩

variable [LinearOrder L]

theorem nodup_topChoices (logits : Token → L) (nVocab width : Nat) : (topChoices logits nVocab width).Nodup := by
  rw [topChoices]
  exact ((List.mergeSort_perm _ _).nodup_iff.mpr List.nodup_range).sublist (List.take_sublist _ _)

theorem length_topChoices_le (logits : Token → L) (nVocab width : Nat) : (topChoices logits nVocab width).length ≤ width :=
  List.length_take_le _ _

/-- A node to descend into, below the level limit. -/
structure Leaf (t : HybridTree) (dep : Nat → Nat) (level c : Nat) : Prop where
  lt : c < t.size
  leaf : t.children c = []
  dep_eq : dep c = level

theorem Leaf.grown {W : Nat → Prop} {t t' : HybridTree} {dep dep' : Nat → Nat} {level c : Nat} (hc : Leaf t dep level c)
    (h : Grown limit width nodeLimit W t t' dep dep') (hW : ¬W c) : Leaf t' dep' level c where
  lt := lt_of_lt_of_le hc.lt h.size_le
  leaf := (h.frame c hc.lt hW).trans hc.leaf
  dep_eq := (h.dep_eq c hc.lt).trans hc.dep_eq

theorem visit_formed {parent : Option Memory.Snapshot} {descend : Nat → π → BuildState σ → Except String (BuildState σ)}
    (level : Nat) (hdescend : ∀ c state st st' dep, Formed limit width nodeLimit st.tree dep → Leaf st.tree dep level c →
      descend c state st = .ok st' → ∃ dep', Grown limit width nodeLimit (· = c) st.tree st'.tree dep dep') :
    ∀ (cs : List (Nat × π)) (again : Bool) (st st' : BuildState σ) (dep : Nat → Nat),
      Formed limit width nodeLimit st.tree dep → (cs.map Prod.fst).Nodup → (∀ c ∈ cs.map Prod.fst, Leaf st.tree dep level c) →
      visit nodeLimit parent descend again cs st = .ok st' →
      ∃ dep', Grown limit width nodeLimit (· ∈ cs.map Prod.fst) st.tree st'.tree dep dep'
  | [], _, st, st', dep, hf, _, _, h => by
    cases h
    exact ⟨dep, hf.refl⟩
  | (c, state) :: rest, again, st, st', dep, hf, hnodup, hleaf, h => by
    rw [List.map_cons, List.nodup_cons] at hnodup
    rw [visit] at h
    split at h
    · cases h
      exact ⟨dep, hf.refl⟩
    · obtain ⟨mem, _, h⟩ := bind_eq_ok h
      obtain ⟨st₁, hst₁, h⟩ := bind_eq_ok h
      obtain ⟨dep₁, h₁⟩ := hdescend c state { st with mem := mem } st₁ dep hf (hleaf c (by simp)) hst₁
      obtain ⟨dep₂, h₂⟩ := visit_formed level hdescend rest true st₁ st' dep₁ h₁.formed hnodup.2
        (fun c' hc' => (hleaf c' (List.mem_cons_of_mem _ hc')).grown h₁ fun he => hnodup.1 (he ▸ hc')) h
      refine ⟨dep₂, (h₁.mono fun v _ hv => ?_).trans h₂ fun v _ hv => ?_⟩
      · exact hv ▸ List.mem_cons_self
      · exact List.mem_cons_of_mem _ hv

theorem expand_formed (D : Draft L σ π) {branches pos : Int} (hwidth : (min branches D.nVocab).toNat ≤ width) :
    ∀ (rem index depth : Nat) (state : π) (st st' : BuildState σ) (dep : Nat → Nat), depth + rem = limit →
      Formed limit width nodeLimit st.tree dep → Leaf st.tree dep depth index →
      expand D branches nodeLimit pos rem index depth state st = .ok st' →
      ∃ dep', Grown limit width nodeLimit (· = index) st.tree st'.tree dep dep'
  | 0, index, depth, state, st, st', dep, _, hf, _, h => by
    cases h
    exact ⟨dep, hf.refl⟩
  | rem + 1, index, depth, state, st, st', dep, hlim, hf, hi, h => by
    rw [expand] at h
    split at h
    · cases h
      exact ⟨dep, hf.refl⟩
    rename_i hroom
    obtain ⟨mem, _, h⟩ := bind_eq_ok h
    obtain ⟨new, hnew, hsub, hle⟩ := selectLoop_sublist nodeLimit D st.tree.size depth (mem.visible (pos + depth)) mem.recr
      state (topChoices (D.logits (mem.visible (pos + depth)) mem.recr) D.nVocab (min branches D.nVocab).toNat) [] st.policy
      (by simp only [List.length_nil]; omega)
    dsimp only at h
    generalize selectLoop D nodeLimit st.tree.size depth _ _ state _ [] st.policy = chosen at h hnew
    rw [List.nil_append] at hnew hle
    rw [← hnew] at hsub hle
    have hlen : chosen.1.length = (chosen.1.map Prod.fst).length := by rw [List.length_map]
    rw [hlen] at h hle
    have hgrow := hf.grow hi.lt hi.leaf (by rw [hi.dep_eq]; omega) ((nodup_topChoices _ _ _).sublist hsub)
      ((hsub.length_le.trans (length_topChoices_le _ _ _)).trans hwidth) hle
    split at h
    · cases h
      exact ⟨_, hgrow⟩
    have hfst : (((List.range (chosen.1.map Prod.fst).length).map (st.tree.size + ·)).zip
        (chosen.1.map Prod.snd)).map Prod.fst = (List.range (chosen.1.map Prod.fst).length).map (st.tree.size + ·) := by
      rw [List.map_fst_zip]
      simp
    obtain ⟨dep', hdep'⟩ := visit_formed (depth + 1)
      (fun c state s s' d hs hc hok => expand_formed D hwidth rem c (depth + 1) state s s' d (by omega) hs hc hok)
      _ false _ st' _ hgrow.formed (by rw [hfst]; exact List.nodup_range.map (add_right_injective _)) (by
        rw [hfst]
        intro c hc
        have hrange := mem_grow_children hc
        refine ⟨?_, ?_, ?_⟩
        · rw [size_setChildren, size_pushAll]
          omega
        · rw [children_grow hi.lt, if_neg (by have := hi.lt; omega), children_of_le hrange.1]
        · rw [growLabels, if_neg (by omega), hi.dep_eq]) h
    rw [hfst] at hdep'
    refine ⟨dep', hgrow.trans hdep' fun v hv hc => ?_⟩
    have := (mem_grow_children hc).1
    omega

end Recursion

/-- What is said of a tree. A way down starts at the root, each node being a child of the one before. -/
structure HybridTree.WellShaped (t : HybridTree) (depthLimit branches maxNodes : Int) : Prop where
  size : 0 < t.size ∧ (t.size : Int) - 1 ≤ maxNodes
  ways : ∀ p : List Nat, p.head? = some 0 → p.IsChain (fun v c => c ∈ t.children v) → (p.length : Int) ≤ depthLimit + 1
  parent : ∀ c, 0 < c → c < t.size → ∃! v, c ∈ t.children v
  order : ∀ v, ∀ c ∈ t.children v, v < c ∧ c < t.size
  tokens : ∀ v, ((t.children v).map t.token).Nodup
  number : ∀ v, ((t.children v).length : Int) ≤ branches
  path : ∀ v < t.size, ∃ p, t.path v = some (v :: p)
  child : ∀ v, ∀ c ∈ t.children v, t.child v (t.token c) = some c

section Finished

variable {limit width : Nat} {nodeLimit : Int} {t : HybridTree} {dep : Nat → Nat}

theorem HybridTree.lt_of_mem_children {v c : Nat} (h : c ∈ t.children v) : v < t.size := by
  by_contra hge
  rw [children_of_le (by omega)] at h
  cases h

/-- A way down cannot be longer than there are levels left. -/
theorem HybridTree.Formed.length_le (h : Formed limit width nodeLimit t dep) : ∀ (p : List Nat) (v : Nat), v < t.size →
    (v :: p).IsChain (fun v c => c ∈ t.children v) → dep v + p.length ≤ limit
  | [], v, hv, _ => h.dep_le v hv
  | c :: p, v, hv, hp => by
    rw [List.isChain_cons_cons] at hp
    obtain ⟨_, hc, hdep, _⟩ := h.shape v hv c hp.1
    have := h.length_le p c hc hp.2
    rw [List.length_cons]
    omega

/-- With different tokens the lookup finds the child itself. -/
theorem HybridTree.Formed.child_eq (h : Formed limit width nodeLimit t dep) {v c : Nat} (hc : c ∈ t.children v) :
    t.child v (t.token c) = some c := by
  cases hfind : t.child v (t.token c) with
  | none =>
    have := List.find?_eq_none.mp hfind c hc
    simp at this
  | some d =>
    obtain ⟨hd, htoken⟩ := child_some hfind
    rw [List.inj_on_of_nodup_map (h.tokens v) hd hc htoken]

theorem HybridTree.Formed.wellShaped {depthLimit branches : Int} (h : Formed depthLimit.toNat branches.toNat nodeLimit t dep)
    (hpos : 0 < t.size) (hzero : dep 0 = 0) (hdepth : 0 ≤ depthLimit) (hbranches : 0 ≤ branches) :
    t.WellShaped depthLimit branches nodeLimit where
  size := ⟨hpos, by have := h.size_le; omega⟩
  ways p hhead hchain := by
    cases p with
    | nil => cases hhead
    | cons v p =>
      cases hhead
      have := h.length_le p 0 hpos hchain
      rw [List.length_cons]
      push_cast
      omega
  parent := h.parent
  order v c hc := ⟨(h.shape v (lt_of_mem_children hc) c hc).1, (h.shape v (lt_of_mem_children hc) c hc).2.1⟩
  tokens := h.tokens
  number v := by
    have := h.number v
    omega
  path v hv := by
    obtain ⟨p, hp, _⟩ := h.shape.path hv (h.dep_le v hv)
    exact ⟨p, hp⟩
  child v c hc := h.child_eq hc

end Finished

section Main
variable {L σ π : Type} [LinearOrder L]

theorem buildTree_formed (D : Draft L σ π) {branches nodeLimit depthLimit pos : Int} {m : Memory} {root : Token}
    {st : BuildState σ} (hnodes : 0 ≤ nodeLimit) (h : buildTree D branches nodeLimit m root pos depthLimit = .ok st) :
    ∃ dep, Formed depthLimit.toNat branches.toNat nodeLimit st.tree dep ∧ dep 0 = 0 ∧ 0 < st.tree.size := by
  have hleaf : ∀ v, (⟨[⟨root, []⟩]⟩ : HybridTree).children v = []
    | 0 => rfl
    | _ + 1 => rfl
  have hformed : Formed depthLimit.toNat branches.toNat nodeLimit ⟨[⟨root, []⟩]⟩ (fun _ => 0) := by
    refine ⟨?_, fun v _ c hc => ?_, fun _ _ => Nat.zero_le _, fun c hc0 hc => ?_, fun v => ?_, fun v => ?_⟩
    · show ((1 : Nat) : Int) ≤ _
      omega
    · rw [hleaf v] at hc
      cases hc
    · have hc1 : c < 1 := hc
      omega
    · rw [hleaf v]
      exact List.nodup_nil
    · rw [hleaf v]
      exact Nat.zero_le _
  let st₀ : BuildState σ := { tree := ⟨[⟨root, []⟩]⟩, mem := m, policy := D.reset }
  obtain ⟨dep, hdep⟩ := expand_formed D (by omega) depthLimit.toNat 0 0 D.path st₀ st (fun _ => 0) (Nat.zero_add _) hformed
    ⟨Nat.one_pos, hleaf 0, rfl⟩ h
  exact ⟨dep, hdep.formed, hdep.dep_eq 0 Nat.one_pos, lt_of_lt_of_le Nat.one_pos hdep.size_le⟩

theorem Options.validate_tree {o : Options} (h : o.validate = .ok ()) :
    0 < o.branches ∧ 0 ≤ o.prune.maxDepth ∧ 0 ≤ o.prune.maxNodes := by
  unfold Options.validate at h
  obtain ⟨-, h⟩ := require_bind h
  obtain ⟨-, h⟩ := require_bind h
  obtain ⟨-, h⟩ := require_bind h
  obtain ⟨-, h⟩ := require_bind h
  obtain ⟨-, h⟩ := require_bind h
  obtain ⟨-, h⟩ := require_bind h
  obtain ⟨hbranches, h⟩ := require_bind h
  obtain ⟨hprune, -⟩ := require_bind h
  rw [decide_eq_true_eq] at hbranches hprune
  exact ⟨hbranches.1, hprune.1, hprune.2.2.1⟩

/-- The draft depth of a round is within what the history was reserved for. -/
theorem Options.limit_range {o : Options} (h : o.validate = .ok ()) {emitted : Nat} (hemitted : (emitted : Int) ≤ o.predict) :
    0 ≤ o.limit emitted ∧ o.limit emitted ≤ o.draft ∧ o.limit emitted ≤ o.predict - emitted := by
  have hv := Options.validate_ok h
  obtain ⟨_, hdepth, hnodes⟩ := Options.validate_tree h
  have hdraft := hv.draft
  rw [Options.limit]
  split_ifs <;> omega

/-- **The draft tree**, whatever the logits and the pruning: it has no more nodes, levels and siblings than allowed, it is
a tree, and siblings have different tokens. So both lookups are well defined, and no path exceeds the history. -/
theorem buildTree_wellShaped (D : Draft L σ π) (o : Options) (hvalid : o.validate = .ok ()) :
    (∀ (m : Memory) (root : Token) (pos depthLimit : Int) (st : BuildState σ), 0 ≤ depthLimit →
      buildTree D o.branches o.prune.maxNodes m root pos depthLimit = .ok st →
        st.tree.WellShaped depthLimit o.branches o.prune.maxNodes) ∧
      ∀ emitted : Nat, (emitted : Int) ≤ o.predict → 0 ≤ o.limit emitted ∧ o.limit emitted ≤ o.draft := by
  obtain ⟨hbranches, _, hnodes⟩ := Options.validate_tree hvalid
  refine ⟨fun m root pos depthLimit st hdepth h => ?_, fun emitted hemitted => ?_⟩
  · obtain ⟨dep, hformed, hzero, hpos⟩ := buildTree_formed D hnodes h
    exact hformed.wellShaped hpos hzero hdepth hbranches.le
  · exact ⟨(Options.limit_range hvalid hemitted).1, (Options.limit_range hvalid hemitted).2.1⟩

/-- Two levels below the root, drafted by rank. -/
theorem buildTree_wellShaped_rankDraft :
    ∃ st, buildTree rankDraft 2 31 twoTokens 0 2 2 = .ok st ∧ st.tree.WellShaped 2 2 31 := by
  have hvalid : ({ model := "m", branches := 2 } : Options).validate = .ok () := by
    simp [Options.validate, require, bind, Except.bind]
  obtain ⟨st, _, hst, _⟩ := buildTree_spec 31 rankDraft 2 (NumberedFrom.entries .target 0 [1, 2]) ⟨rfl, rfl⟩ rfl 0 2
    (show _ ≤ twoTokens.nCtx by decide)
  exact ⟨st, hst, (buildTree_wellShaped rankDraft { model := "m", branches := 2 } hvalid).1 _ _ _ _ _ (by decide) hst⟩

end Main

end S2Moe.Next
