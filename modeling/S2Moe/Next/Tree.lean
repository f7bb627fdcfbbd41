import Mathlib.Data.List.GetD
import S2Moe.Next.Memory

/-!
# The draft tree

`hybrid_tree` keeps its nodes in one vector; a node names its children by index.

* `HybridTree.path`, `HybridTree.child` : the two lookups of staged verification; `path` is a `for (;;)` loop in the
  source, so it is given as many steps as there are nodes and fails when they do not suffice;
* `Extends t u` : `u` has the nodes of `t`, and only childless nodes of `t` got children;
* `Shape t dep limit` : every child comes after its parent, one level deeper, and no level exceeds `limit`;
* `RootPath t ts v` : the tokens `ts` stand on the path from the root to the parent of `v`.
-/

namespace S2Moe.Next

structure Node where
  token : Token
  children : List Nat
deriving DecidableEq, Repr

structure HybridTree where
  nodes : List Node
deriving DecidableEq, Repr

namespace HybridTree

def size (t : HybridTree) : Nat := t.nodes.length

def token (t : HybridTree) (i : Nat) : Token := (t.nodes.getD i ⟨0, []⟩).token

def children (t : HybridTree) (i : Nat) : List Nat := (t.nodes.getD i ⟨0, []⟩).children

def pathFrom (t : HybridTree) : Nat → Nat → Option (List Nat)
  | 0, _ => none
  | fuel + 1, i =>
    match t.children i with
    | [] => some [i]
    | c :: _ => (t.pathFrom fuel c).map (i :: ·)

/-- `hybrid_tree::path`: follow first children down to a leaf. -/
def path (t : HybridTree) (first : Nat) : Option (List Nat) := t.pathFrom t.size first

/-- `hybrid_tree::child`; the source's `-1` is `none`. -/
def child (t : HybridTree) (parent : Nat) (token : Token) : Option Nat :=
  (t.children parent).find? (fun i => t.token i == token)

/-- `tree.nodes.push_back({token, {}})`. -/
def push (t : HybridTree) (token : Token) : HybridTree := ⟨t.nodes ++ [⟨token, []⟩]⟩

/-- `tree.nodes[i].children = cs`. -/
def setChildren (t : HybridTree) (i : Nat) (cs : List Nat) : HybridTree :=
  ⟨t.nodes.modify i (fun n => { n with children := cs })⟩

/-- One node for each chosen token, in order. -/
def pushAll (t : HybridTree) (tokens : List Token) : HybridTree := tokens.foldl push t

section Update
variable {t : HybridTree} {i j : Nat}

@[simp] theorem size_push (t : HybridTree) (x : Token) : (t.push x).size = t.size + 1 := by
  simp [size, push]

@[simp] theorem size_setChildren (t : HybridTree) (i : Nat) (cs : List Nat) : (t.setChildren i cs).size = t.size := by
  simp [size, setChildren]

theorem token_push_lt (x : Token) (h : i < t.size) : (t.push x).token i = t.token i := by
  unfold token push
  rw [List.getD_append _ _ _ _ h]

theorem children_push_lt (x : Token) (h : i < t.size) : (t.push x).children i = t.children i := by
  unfold children push
  rw [List.getD_append _ _ _ _ h]

theorem token_push_self (t : HybridTree) (x : Token) : (t.push x).token t.size = x := by
  simp [token, push, size]

theorem children_of_le (h : t.size ≤ i) : t.children i = [] := by
  unfold children
  rw [List.getD_eq_default _ _ h]

theorem children_push (t : HybridTree) (x : Token) (i : Nat) : (t.push x).children i = t.children i := by
  rcases Nat.lt_trichotomy i t.size with h | rfl | h
  · exact children_push_lt x h
  · rw [children_of_le le_rfl]
    simp [children, push, size]
  · rw [children_of_le (t := t) (by omega), children_of_le (by rw [size_push]; omega)]

@[simp] theorem token_setChildren (t : HybridTree) (i j : Nat) (cs : List Nat) :
    (t.setChildren i cs).token j = t.token j := by
  unfold token setChildren
  simp only [List.getD_eq_getElem?_getD, List.getElem?_modify]
  split
  · cases t.nodes[j]? <;> rfl
  · simp

theorem children_setChildren_self (cs : List Nat) (h : i < t.size) : (t.setChildren i cs).children i = cs := by
  unfold children setChildren
  simp [List.getD_eq_getElem?_getD, List.getElem?_eq_getElem h]

theorem children_setChildren_ne (cs : List Nat) (h : j ≠ i) : (t.setChildren i cs).children j = t.children j := by
  unfold children setChildren
  simp [List.getD_eq_getElem?_getD, h.symm]

theorem size_pushAll : ∀ (xs : List Token) (t : HybridTree), (t.pushAll xs).size = t.size + xs.length
  | [], _ => rfl
  | x :: xs, t => by
    change (pushAll (t.push x) xs).size = _
    rw [size_pushAll xs, size_push, List.length_cons]
    omega

theorem children_pushAll : ∀ (xs : List Token) (t : HybridTree) (i : Nat), (t.pushAll xs).children i = t.children i
  | [], _, _ => rfl
  | x :: xs, t, i => by
    change (pushAll (t.push x) xs).children i = _
    rw [children_pushAll xs, children_push]

theorem token_pushAll_lt : ∀ (xs : List Token) {t : HybridTree} {i : Nat}, i < t.size →
    (t.pushAll xs).token i = t.token i
  | [], _, _, _ => rfl
  | x :: xs, t, i, h => by
    change (pushAll (t.push x) xs).token i = _
    rw [token_pushAll_lt xs (by rw [size_push]; omega), token_push_lt x h]

theorem token_pushAll_add : ∀ (xs : List Token) (t : HybridTree) {k : Nat} (h : k < xs.length),
    (t.pushAll xs).token (t.size + k) = xs[k]
  | x :: xs, t, 0, _ => by
    change (pushAll (t.push x) xs).token t.size = x
    rw [token_pushAll_lt xs (by simp), token_push_self]
  | x :: xs, t, k + 1, h => by
    have hk : k < xs.length := by simpa using h
    change (pushAll (t.push x) xs).token (t.size + (k + 1)) = xs[k]
    rw [show t.size + (k + 1) = (t.push x).size + k by simp; omega]
    exact token_pushAll_add xs (t.push x) hk

end Update

/-! ## Growth -/

/-- `u` comes from `t` by appending nodes and giving children to childless nodes. -/
structure Extends (t u : HybridTree) : Prop where
  size_le : t.size ≤ u.size
  token_eq : ∀ i < t.size, u.token i = t.token i
  children_eq : ∀ i < t.size, t.children i ≠ [] → u.children i = t.children i

theorem Extends.refl (t : HybridTree) : Extends t t := ⟨le_rfl, fun _ _ => rfl, fun _ _ _ => rfl⟩

theorem Extends.trans {t u v : HybridTree} (h : Extends t u) (k : Extends u v) : Extends t v where
  size_le := h.size_le.trans k.size_le
  token_eq i hi := (k.token_eq i (lt_of_lt_of_le hi h.size_le)).trans (h.token_eq i hi)
  children_eq i hi hc := by
    have hu := h.children_eq i hi hc
    rw [k.children_eq i (lt_of_lt_of_le hi h.size_le) (by rw [hu]; exact hc), hu]

theorem Extends.pushAll (t : HybridTree) (xs : List Token) : Extends t (t.pushAll xs) where
  size_le := by rw [size_pushAll]; omega
  token_eq _ hi := token_pushAll_lt xs hi
  children_eq _ _ _ := children_pushAll xs t _

theorem Extends.setChildren {t : HybridTree} {i : Nat} (hc : t.children i = []) (cs : List Nat) :
    Extends t (t.setChildren i cs) where
  size_le := by rw [size_setChildren]
  token_eq _ _ := token_setChildren _ _ _ _
  children_eq j _ hj := children_setChildren_ne cs (by rintro rfl; exact hj hc)

/-! ## Levels -/

/-- `dep` labels every node with its level: children come later in the vector, one level below, at most `limit`. -/
def Shape (t : HybridTree) (dep : Nat → Nat) (limit : Nat) : Prop :=
  ∀ v < t.size, ∀ c ∈ t.children v, v < c ∧ c < t.size ∧ dep c = dep v + 1 ∧ dep c ≤ limit

theorem Shape.pathFrom {t : HybridTree} {dep : Nat → Nat} {limit : Nat} (h : t.Shape dep limit) :
    ∀ (fuel v : Nat), v < t.size → t.size ≤ v + fuel → dep v ≤ limit →
      ∃ p, t.pathFrom fuel v = some (v :: p) ∧ dep v + p.length ≤ limit
  | 0, v, hv, hf, _ => by omega
  | fuel + 1, v, hv, hf, hd => by
    rw [HybridTree.pathFrom]
    cases hc : t.children v with
    | nil => exact ⟨[], rfl, by simpa using hd⟩
    | cons c cs =>
        obtain ⟨hlt, hsz, hdep, hle⟩ := h v hv c (by rw [hc]; exact List.mem_cons_self)
        obtain ⟨p, hp, hlen⟩ := h.pathFrom fuel c hsz (by omega) hle
        refine ⟨c :: p, ?_, ?_⟩
        · change (t.pathFrom fuel c).map (v :: ·) = _
          rw [hp]
          rfl
        · rw [List.length_cons]
          omega

/-- The labels after a node at level `d` got all the nodes from `n` on as children. -/
def growLabels (dep : Nat → Nat) (n d : Nat) : Nat → Nat := fun v => if v < n then dep v else d + 1

theorem Extends.grow {t : HybridTree} {i : Nat} (hc : t.children i = []) (xs : List Token) (cs : List Nat) :
    Extends t ((t.pushAll xs).setChildren i cs) :=
  (Extends.pushAll t xs).trans (.setChildren (by rw [children_pushAll]; exact hc) cs)

theorem mem_grow_children {n k c : Nat} (h : c ∈ (List.range k).map (n + ·)) : n ≤ c ∧ c < n + k := by
  obtain ⟨j, hj, rfl⟩ := List.mem_map.mp h
  have := List.mem_range.mp hj
  omega

theorem Shape.grow {t : HybridTree} {dep : Nat → Nat} {limit i : Nat} (h : t.Shape dep limit) (hi : i < t.size)
    (hd : dep i < limit) (xs : List Token) :
    ((t.pushAll xs).setChildren i ((List.range xs.length).map (t.size + ·))).Shape
      (growLabels dep t.size (dep i)) limit := by
  intro v hv c hc
  rw [size_setChildren, size_pushAll] at hv ⊢
  by_cases hvi : v = i
  · subst hvi
    rw [children_setChildren_self _ (by rw [size_pushAll]; omega)] at hc
    have := mem_grow_children hc
    simp only [growLabels]
    rw [if_neg (by omega), if_pos hi]
    omega
  · rw [children_setChildren_ne _ hvi, children_pushAll] at hc
    have hlt : v < t.size := by
      by_contra hge
      rw [children_of_le (by omega)] at hc
      cases hc
    obtain ⟨h1, h2, h3, h4⟩ := h v hlt c hc
    simp only [growLabels]
    rw [if_pos h2, if_pos hlt]
    omega

/-- **`path` terminates**, starts at its argument and stays within the level limit. -/
theorem Shape.path {t : HybridTree} {dep : Nat → Nat} {limit v : Nat} (h : t.Shape dep limit) (hv : v < t.size)
    (hd : dep v ≤ limit) : ∃ p, t.path v = some (v :: p) ∧ dep v + p.length ≤ limit :=
  h.pathFrom t.size v hv (by omega) hd

/-- Consecutive nodes of a path are parent and first child; its last node is a leaf. -/
inductive FirstChildPath (t : HybridTree) : List Nat → Prop
  | leaf (v : Nat) (hc : t.children v = []) : FirstChildPath t [v]
  | step (v c : Nat) (p : List Nat) (hc : ∃ cs, t.children v = c :: cs) (hp : FirstChildPath t (c :: p)) :
      FirstChildPath t (v :: c :: p)

theorem pathFrom_firstChild {t : HybridTree} : ∀ (fuel v : Nat) {p : List Nat}, t.pathFrom fuel v = some p →
    FirstChildPath t p ∧ p.head? = some v
  | 0, _, _, h => by cases h
  | fuel + 1, v, p, h => by
    rw [HybridTree.pathFrom] at h
    cases hc : t.children v with
    | nil =>
        rw [hc] at h
        cases h
        exact ⟨.leaf v hc, rfl⟩
    | cons c cs =>
        rw [hc] at h
        obtain ⟨q, hq, rfl⟩ := Option.map_eq_some_iff.mp h
        obtain ⟨hfq, hhead⟩ := pathFrom_firstChild fuel c hq
        cases q with
        | nil => cases hhead
        | cons x q =>
            cases hhead
            exact ⟨.step v c q ⟨cs, hc⟩ hfq, rfl⟩

theorem child_some {t : HybridTree} {v c : Nat} {x : Token} (h : t.child v x = some c) :
    c ∈ t.children v ∧ t.token c = x := by
  unfold child at h
  refine ⟨List.mem_of_find?_eq_some h, ?_⟩
  simpa using List.find?_some h

/-! ## Root paths -/

/-- `ts` are the tokens from the root down to the parent of `v`. -/
inductive RootPath (t : HybridTree) : List Token → Nat → Prop
  | root : RootPath t [] 0
  | child {ts : List Token} {p c : Nat} (hp : RootPath t ts p) (hlt : p < t.size) (hc : c ∈ t.children p) :
      RootPath t (ts ++ [t.token p]) c

theorem RootPath.mono {t u : HybridTree} (h : Extends t u) {ts : List Token} {v : Nat} (hp : RootPath t ts v) :
    RootPath u ts v := by
  induction hp with
  | root => exact .root
  | @child ts p c _ hlt hc ih =>
      rw [← h.token_eq p hlt]
      refine .child ih (lt_of_lt_of_le hlt h.size_le) ?_
      rw [h.children_eq p hlt (List.ne_nil_of_mem hc)]
      exact hc

end HybridTree

end S2Moe.Next
