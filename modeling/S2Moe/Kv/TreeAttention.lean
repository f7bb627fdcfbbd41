import S2Moe.Kv.Branches
import S2Moe.Kv.Mask

/-!
# Verifying a draft tree in one batch

* `DraftTree` : the tokens of `batch_tgt` as the nodes of a tree (or of several), in the order of the batch;
* `WellFormed` : a token has the sequences of the branches through it, and branches are at consecutive positions;
* `branch` : what the tokens of one sequence store, in the order of the batch;
* `treeRound` : in a round, a token sees the committed prefix, its ancestors and itself, and behind the round sequence 0
  has the prefix and the accepted tokens.
-/

namespace S2Moe.Kv
open S2Moe.Recurrent (posMax)

/-! ## Trees -/

/-- `leaf s` is the last node of branch `s`, if it is drafted. -/
structure DraftTree where
  parent : Nat → Option Nat
  parent_lt : ∀ i p, parent i = some p → p < i
  leaf : Nat → Option Nat

namespace DraftTree
variable {t : DraftTree} {a b i l : Nat}

/-- `a` is on the way from the root to `i`. -/
def Anc (t : DraftTree) (a i : Nat) : Prop := Relation.ReflTransGen (fun x p => t.parent x = some p) i a

theorem Anc.le (h : t.Anc a i) : a ≤ i := by
  induction h with
  | refl => exact le_rfl
  | tail _ hp ih => exact (t.parent_lt _ _ hp).le.trans ih

theorem Anc.total (ha : t.Anc a l) (hb : t.Anc b l) : t.Anc a b ∨ t.Anc b a := by
  have hunique : Relator.RightUnique (fun x p => t.parent x = some p) := by
    intro x p q hp hq
    rw [hp] at hq
    exact Option.some.inj hq
  exact (Relation.ReflTransGen.total_of_right_unique hunique ha hb).symm

theorem Anc.cases (h : t.Anc a i) : a = i ∨ ∃ p, t.parent i = some p ∧ t.Anc a p := by
  rcases Relation.ReflTransGen.cases_head h with heq | ⟨p, hp, hrest⟩
  · exact .inl heq.symm
  · exact .inr ⟨p, hp, hrest⟩

/-- Of the nodes of one branch, those before `i` are above `i`. -/
theorem Anc.of_lt (ha : t.Anc a l) (hi : t.Anc i l) (hlt : a < i) : ∃ p, t.parent i = some p ∧ t.Anc a p := by
  rcases ha.total hi with h | h
  · rcases h.cases with rfl | h
    · exact absurd hlt (lt_irrefl _)
    · exact h
  · have := h.le
    omega

end DraftTree

/-! ## Batches -/

section
variable {D : Type}

structure WellFormed (t : DraftTree) (nPast nSeq : Nat) (rows : List (Row D)) : Prop where
  nodup : ∀ r ∈ rows, r.ids ≠ [] ∧ r.ids.Nodup
  ids : ∀ (i : Nat) (r : Row D), rows[i]? = some r → ∀ s, s ∈ r.ids ↔ ∃ l, t.leaf s = some l ∧ t.Anc i l
  leaf_lt : ∀ s l, t.leaf s = some l → s < nSeq ∧ l < rows.length
  root : ∀ (i : Nat) (r : Row D), rows[i]? = some r → t.parent i = none → r.pos = nPast
  child : ∀ (i p : Nat) (r q : Row D), rows[i]? = some r → rows[p]? = some q → t.parent i = some p → r.pos = q.pos + 1

def branchRows (rows : List (Row D)) (s : Nat) : List (Row D) := rows.filter fun r => decide (s ∈ r.ids)

def branch (rows : List (Row D)) (s : Nat) : List D := (branchRows rows s).map Row.val

section Filter
variable {α : Type} {P : α → Bool}

theorem countP_take_eq {l : List α} {m i : Nat} (hmi : m ≤ i)
    (h : ∀ a x, m ≤ a → a < i → l[a]? = some x → P x = false) : (l.take i).countP P = (l.take m).countP P := by
  induction i, hmi using Nat.le_induction with
  | base => rfl
  | succ i hmi ih =>
      rw [List.take_add_one, List.countP_append, ih fun a x h1 h2 => h a x h1 (by omega)]
      cases hx : l[i]? with
      | none => rfl
      | some x => simp [h i x hmi (by omega) hx]

/-- An entry of a filtered list has as many entries before it as the list has in front of it. -/
theorem filter_getElem?_iff {l : List α} {x : α} : ∀ {d : Nat},
    (l.filter P)[d]? = some x ↔ ∃ i, l[i]? = some x ∧ P x = true ∧ (l.take i).countP P = d := by
  induction l with
  | nil => simp
  | cons y l ih =>
      intro d
      by_cases hy : P y = true
      · rw [List.filter_cons_of_pos hy]
        cases d with
        | zero =>
            constructor
            · intro h
              obtain rfl : y = x := by simpa using h
              exact ⟨0, rfl, hy, rfl⟩
            · rintro ⟨i, hi, -, hcount⟩
              cases i with
              | zero => simpa using hi
              | succ i => simp [hy] at hcount
        | succ d =>
            rw [List.getElem?_cons_succ, ih]
            constructor
            · rintro ⟨i, hi, hx, hcount⟩
              exact ⟨i + 1, hi, hx, by simp [hy, hcount]⟩
            · rintro ⟨i, hi, hx, hcount⟩
              cases i with
              | zero => simp at hcount
              | succ i => exact ⟨i, hi, hx, by simpa [hy] using hcount⟩
      · rw [List.filter_cons_of_neg hy, ih]
        constructor
        · rintro ⟨i, hi, hx, hcount⟩
          exact ⟨i + 1, hi, hx, by simp [hy, hcount]⟩
        · rintro ⟨i, hi, hx, hcount⟩
          cases i with
          | zero =>
              obtain rfl : y = x := by simpa using hi
              exact absurd hx hy
          | succ i => exact ⟨i, hi, hx, by simpa [hy] using hcount⟩

end Filter

variable {t : DraftTree} {nPast nSeq : Nat} {rows : List (Row D)}

theorem WellFormed.parent_row (h : WellFormed t nPast nSeq rows) {i p : Nat} {r : Row D} (hi : rows[i]? = some r)
    (hp : t.parent i = some p) : ∃ q, rows[p]? = some q ∧ r.pos = q.pos + 1 := by
  have hlt := t.parent_lt i p hp
  have hi' := (List.getElem?_eq_some_iff.mp hi).1
  have hq : rows[p]? = some rows[p] := List.getElem?_eq_getElem (by omega)
  exact ⟨_, hq, h.child i p r _ hi hq hp⟩

theorem WellFormed.pos_bounds (h : WellFormed t nPast nSeq rows) : ∀ (i : Nat) (r : Row D), rows[i]? = some r →
    nPast ≤ r.pos ∧ r.pos ≤ nPast + i := by
  intro i
  induction i using Nat.strongRecOn with
  | _ i ih =>
      intro r hi
      cases hp : t.parent i with
      | none =>
          rw [h.root i r hi hp]
          omega
      | some p =>
          obtain ⟨q, hq, hpos⟩ := h.parent_row hi hp
          have hlt := t.parent_lt i p hp
          have := ih p hlt q hq
          omega

/-- Positions grow along a branch. -/
theorem WellFormed.pos_anc (h : WellFormed t nPast nSeq rows) {a : Nat} {q : Row D} (ha : rows[a]? = some q) :
    ∀ (i : Nat) (r : Row D), rows[i]? = some r → t.Anc a i → q.pos ≤ r.pos ∧ (q.pos = r.pos → a = i) := by
  intro i
  induction i using Nat.strongRecOn with
  | _ i ih =>
      intro r hi hanc
      rcases hanc.cases with rfl | ⟨p, hp, hrest⟩
      · rw [ha] at hi
        cases hi
        exact ⟨le_rfl, fun _ => rfl⟩
      · obtain ⟨q', hq', hpos⟩ := h.parent_row hi hp
        obtain ⟨hle, -⟩ := ih p (t.parent_lt i p hp) q' hq' hrest
        constructor <;> omega

/-- The position of a token says how many tokens of its branch are in front of it. -/
theorem WellFormed.pos_eq_count (h : WellFormed t nPast nSeq rows) {s : Nat} : ∀ (i : Nat) (r : Row D),
    rows[i]? = some r → s ∈ r.ids → r.pos = nPast + ((rows.take i).countP fun q => decide (s ∈ q.ids) : Nat) := by
  intro i
  induction i using Nat.strongRecOn with
  | _ i ih =>
      intro r hi hs
      obtain ⟨l, hl, hanc⟩ := (h.ids i r hi s).mp hs
      -- a token of the branch in front of `i` is at or above the parent
      have habove : ∀ a x, a < i → rows[a]? = some x → s ∈ x.ids → ∃ p, t.parent i = some p ∧ t.Anc a p := by
        intro a x hlt ha hx
        obtain ⟨l', hl', hanc'⟩ := (h.ids a x ha s).mp hx
        rw [hl] at hl'
        cases hl'
        exact hanc'.of_lt hanc hlt
      cases hp : t.parent i with
      | none =>
          rw [h.root i r hi hp, countP_take_eq (m := 0) (Nat.zero_le i)]
          · simp
          · intro a x _ hlt ha
            rw [decide_eq_false_iff_not]
            intro hx
            obtain ⟨p, hp', -⟩ := habove a x hlt ha hx
            rw [hp] at hp'
            cases hp'
      | some p =>
          obtain ⟨q, hq, hpos⟩ := h.parent_row hi hp
          have hlt := t.parent_lt i p hp
          have hsq : s ∈ q.ids := (h.ids p q hq s).mpr ⟨l, hl, hanc.tail hp⟩
          have hcount : (rows.take i).countP (fun q => decide (s ∈ q.ids)) =
              (rows.take p).countP (fun q => decide (s ∈ q.ids)) + 1 := by
            rw [countP_take_eq (m := p + 1) hlt]
            · rw [List.take_add_one, List.countP_append, hq]
              simp [hsq]
            · intro a x hpa hai ha
              rw [decide_eq_false_iff_not]
              intro hx
              obtain ⟨p', hp', hanc'⟩ := habove a x hai ha hx
              rw [hp] at hp'
              cases hp'
              have := hanc'.le
              omega
          rw [hpos, ih p hlt q hq hsq, hcount]
          push_cast
          ring

theorem WellFormed.rows_ok (h : WellFormed t nPast nSeq rows) : ∀ r ∈ rows, r.Ok := by
  intro r hr
  obtain ⟨i, hi⟩ := List.mem_iff_getElem?.mp hr
  obtain ⟨hne, hnodup⟩ := h.nodup r hr
  have := h.pos_bounds i r hi
  exact ⟨by omega, hne, hnodup⟩

/-- A branch that was decoded continues what its sequence held. -/
theorem WellFormed.holds_branch {c c' : Cache D} {vals : List D} (h : WellFormed t vals.length nSeq rows) {idxs : List Nat}
    (hrep : Rep c.cells) (hp : Placed c rows idxs c') {s : Nat} (hs : Holds c s vals) :
    Holds c' s (vals ++ branch rows s) := by
  refine hs.placed _ hrep hp (fun k r hr hsr => ?_) (fun k k' r r' hr hr' hsr hsr' hpos => ?_) (fun d hd => ?_)
  · refine ⟨_, h.pos_eq_count k r hr hsr, ?_⟩
    unfold branch branchRows
    rw [List.getElem?_map, filter_getElem?_iff.mpr ⟨k, hr, decide_eq_true hsr, rfl⟩]
    rfl
  · obtain ⟨l, hl, hanc⟩ := (h.ids k r hr s).mp hsr
    obtain ⟨l', hl', hanc'⟩ := (h.ids k' r' hr' s).mp hsr'
    rw [hl] at hl'
    cases hl'
    rcases hanc.total hanc' with hab | hab
    · exact (h.pos_anc hr k' r' hr' hab).2 hpos
    · exact ((h.pos_anc hr' k r hr hab).2 hpos.symm).symm
  · unfold branch at hd
    rw [List.length_map] at hd
    obtain ⟨i, hi, hP, hcount⟩ := filter_getElem?_iff.mp (List.getElem?_eq_getElem hd)
    refine ⟨i, _, hi, of_decide_eq_true hP, ?_⟩
    rw [h.pos_eq_count i _ hi (of_decide_eq_true hP), hcount]

/-! ## A round -/

variable {c c' : Cache D} {pre : List D} {flashAttn : Bool}

/-- Behind the copies a cell of any branch is one of the prefix. -/
theorem mem_fork (h : c.Ok) (hb : Below c 0) {s j : Nat} (hj : j < c.cells.size) (hs : s < nSeq) :
    s ∈ ((c.fork nSeq).cells.cell j).seq ↔ 0 ∈ (c.cells.cell j).seq := by
  rw [(h.fork hb nSeq).cell_eq j hj]
  by_cases h0 : 0 ∈ (c.cells.cell j).seq
  · rw [if_pos h0]
    exact iff_of_true (Finset.mem_range.mpr (by omega)) h0
  · rw [if_neg h0]
    exact iff_of_false (Finset.notMem_empty s) h0

/-- What a token `i` of the last ubatch sees when `rows` are in the cells `idxs`. -/
theorem WellFormed.sees {rest : List (Row D)} {idxs : List Nat} (hwf : WellFormed t pre.length nSeq (rows ++ rest))
    (hok : c.Ok) (hsized : c.Sized flashAttn) (hpre : Holds c 0 pre) (hlen : (pre.length : Int) ≤ posMax)
    (hp : Placed (c.fork nSeq) rows idxs c') {u : List (Row D)} {r : Row D} {i k : Nat} (hk : u[k]? = some r)
    (hi : rows[i]? = some r) (alibi : Bool) (j : Nat) :
    (c'.setInputKqMask (nPad flashAttn) true alibi u k j).isSome ↔
      (j < c.cells.size ∧ 0 ∈ (c.cells.cell j).seq) ∨ ∃ a, t.Anc a i ∧ idxs[a]? = some j := by
  have hb := hpre.below hlen
  have hfork := hok.fork hb nSeq
  have hsize : c'.cells.size = c.cells.size := hp.size_eq.trans hfork.size_eq
  have hsized' : c'.Sized flashAttn := ⟨by rw [hsize]; exact hsized.dvd, by rw [hsize]; exact hsized.lt⟩
  have hrow : ∀ (a : Nat) (q : Row D), rows[a]? = some q → (rows ++ rest)[a]? = some q := by
    intro a q ha
    rw [List.getElem?_append_left (List.getElem?_eq_some_iff.mp ha).1]
    exact ha
  have hilt : i < rows.length := (List.getElem?_eq_some_iff.mp hi).1
  -- the first sequence of the token stands for all of them
  obtain ⟨s, hs⟩ : ∃ s, r.ids.head? = some s :=
    Option.ne_none_iff_exists'.mp (mt List.head?_eq_none_iff.mp (hwf.nodup r (List.mem_of_getElem? (hrow i r hi))).1)
  obtain ⟨l, hl, hil⟩ := (hwf.ids i r (hrow i r hi) s).mp (List.mem_of_head? hs)
  have hsn : s < nSeq := (hwf.leaf_lt s l hl).1
  have hposi := hwf.pos_bounds i r (hrow i r hi)
  rw [Cache.setInputKqMask_isSome hsized' hp.ok.rep hk hs, hsize, hp.mem_seq hfork.ok.rep]
  constructor
  · rintro ⟨hj, hold | ⟨a, q, ha, hq, hsq⟩, hle⟩
    · exact .inl ⟨hj, (mem_fork hok hb hj hsn).mp hold⟩
    · right
      refine ⟨a, ?_, ha⟩
      rw [(hp.cell_at a j q ha hq).1] at hle
      dsimp only at hle
      obtain ⟨l', hl', hal⟩ := (hwf.ids a q (hrow a q hq) s).mp hsq
      rw [hl] at hl'
      cases hl'
      rcases hal.total hil with h | h
      · exact h
      · -- a descendant is not at an earlier position
        obtain ⟨h1, h2⟩ := hwf.pos_anc (hrow i r hi) a q (hrow a q hq) h
        rw [h2 (by omega)]
        exact .refl
  · rintro (⟨hj, h0⟩ | ⟨a, hanc, ha⟩)
    · have hmem : s ∈ ((c.fork nSeq).cells.cell j).seq := (mem_fork hok hb hj hsn).mpr h0
      have hnot : j ∉ idxs := fun hc => hfork.ok.rep.pos_ne (by rw [hfork.size_eq]; exact hj) hmem (hp.fresh j hc).2
      refine ⟨hj, .inl hmem, ?_⟩
      rw [(hp.rest j hnot).1, hfork.cell_eq j hj, if_pos h0]
      have := hpre.pos_lt hj h0
      dsimp only
      omega
    · have halt : a < rows.length := lt_of_le_of_lt hanc.le hilt
      have hq : rows[a]? = some rows[a] := List.getElem?_eq_getElem halt
      have hfresh := hp.fresh j (List.mem_of_getElem? ha)
      rw [hfork.size_eq] at hfresh
      have hsq : s ∈ rows[a].ids := (hwf.ids a _ (hrow a _ hq) s).mpr ⟨l, hl, hil.trans hanc⟩
      refine ⟨hfresh.1, .inr ⟨a, _, ha, hq, hsq⟩, ?_⟩
      rw [(hp.cell_at a j _ ha hq).1]
      exact (hwf.pos_anc (hrow a _ hq) i r (hrow i r hi) hanc).1

/-- A decode stops behind every ubatch. -/
theorem Cache.decode_split : ∀ (us₁ : List (List (Row D))) {u : List (Row D)} {us₂ : List (List (Row D))} {c c' : Cache D}
    {idxs : List Nat}, c.decode (us₁ ++ u :: us₂) = some (idxs, c') → ∃ idxs₁ c₁ idxs₂ c₂ idxs₃,
      c.decode us₁ = some (idxs₁, c₁) ∧ c₁.emplace u = some (idxs₂, c₂) ∧ c₂.decode us₂ = some (idxs₃, c') ∧
        idxs = idxs₁ ++ idxs₂ ++ idxs₃
  | [], u, us₂, c, c', idxs, hrun => by
    rw [List.nil_append, Cache.decode] at hrun
    cases hu : c.emplace u with
    | none =>
        rw [hu] at hrun
        cases hrun
    | some r =>
        rw [hu] at hrun
        obtain ⟨⟨idxs₃, c₃⟩, hrest, heq⟩ := Option.map_eq_some_iff.mp hrun
        cases heq
        exact ⟨[], c, r.1, r.2, idxs₃, rfl, hu, hrest, rfl⟩
  | v :: us₁, u, us₂, c, c', idxs, hrun => by
    rw [List.cons_append, Cache.decode] at hrun
    cases hv : c.emplace v with
    | none =>
        rw [hv] at hrun
        cases hrun
    | some r =>
        rw [hv] at hrun
        obtain ⟨⟨idxs', c₃⟩, hrest, heq⟩ := Option.map_eq_some_iff.mp hrun
        cases heq
        obtain ⟨idxs₁, c₁, idxs₂, c₂, idxs₃, h1, h2, h3, h4⟩ := Cache.decode_split us₁ hrest
        refine ⟨r.1 ++ idxs₁, c₁, idxs₂, c₂, idxs₃, ?_, h2, h3, ?_⟩
        · rw [Cache.decode, hv]
          dsimp only
          rw [h1]
          rfl
        · dsimp only at h4 ⊢
          rw [h4]
          simp only [List.append_assoc]

/-- **A round of tree verification.** The mask behind each ubatch has, in the row of a token, the cells of the prefix and of
the nodes from the root to the token; behind the round, sequence 0 is the prefix and what was accepted of the branch. -/
theorem treeRound {us : List (List (Row D))} {idxs : List Nat} (hok : c.Ok) (hsized : c.Sized flashAttn)
    (hpre : Holds c 0 pre) (hwf : WellFormed t pre.length nSeq us.flatten)
    (hint : (pre.length + us.flatten.length : Int) ≤ posMax) (hne : ∀ u ∈ us, u ≠ [])
    (hrun : (c.fork nSeq).decode us = some (idxs, c')) :
    (∀ us₁ u us₂, us = us₁ ++ u :: us₂ → ∃ idxs₁ c₁ idxs₂ c₂,
      (c.fork nSeq).decode us₁ = some (idxs₁, c₁) ∧ c₁.emplace u = some (idxs₂, c₂) ∧
      ∀ (alibi : Bool) (k j : Nat), k < u.length →
        ((c₂.setInputKqMask (nPad flashAttn) true alibi u k j).isSome ↔
          (j < c.cells.size ∧ 0 ∈ (c.cells.cell j).seq) ∨ ∃ a, t.Anc a (us₁.flatten.length + k) ∧ idxs[a]? = some j)) ∧
    (idxs.Nodup ∧ ∀ j ∈ idxs, 0 ∉ (c.cells.cell j).seq) ∧
    ∀ sKeep n, sKeep < nSeq →
      Holds (c'.keepTgt sKeep (pre.length + n)) 0 (pre ++ (branch us.flatten sKeep).take n) ∧
      Holds (c'.keepDft sKeep (pre.length + n)) 0 (pre ++ (branch us.flatten sKeep).take n) := by
  have hlen : (pre.length : Int) ≤ posMax := by omega
  have hb := hpre.below hlen
  have hfork := hok.fork hb nSeq
  have hrows : ∀ u ∈ us, ∀ r ∈ u, r.Ok := fun u hu r hr => hwf.rows_ok r (List.mem_flatten.mpr ⟨u, hu, hr⟩)
  have hp := Placed.decode us _ _ idxs hfork.ok hne hrows hrun
  refine ⟨?_, ⟨hp.nodup, fun j hj h0 => ?_⟩, fun sKeep n hs => ?_⟩
  · rintro us₁ u us₂ rfl
    obtain ⟨idxs₁, c₁, idxs₂, c₂, idxs₃, h1, h2, -, rfl⟩ := Cache.decode_split us₁ hrun
    refine ⟨idxs₁, c₁, idxs₂, c₂, h1, h2, fun alibi k j hk => ?_⟩
    have hmem : ∀ v ∈ us₁, v ∈ us₁ ++ u :: us₂ := fun v hv => List.mem_append_left _ hv
    have hu : u ∈ us₁ ++ u :: us₂ := List.mem_append_right _ List.mem_cons_self
    have hp₁ := Placed.decode us₁ _ _ idxs₁ hfork.ok (fun v hv => hne v (hmem v hv)) (fun v hv => hrows v (hmem v hv)) h1
    have hp₂ := hp₁.trans (Placed.emplace hp₁.ok (hne u hu) (hrows u hu) h2)
      fun r hr => by
        obtain ⟨v, hv, hrv⟩ := List.mem_flatten.mp hr
        exact hrows v (hmem v hv) r hrv
    have hflat : (us₁ ++ u :: us₂).flatten = (us₁.flatten ++ u) ++ us₂.flatten := by simp
    rw [hflat] at hwf
    have hrow : (us₁.flatten ++ u)[us₁.flatten.length + k]? = some u[k] := by
      rw [List.getElem?_append_right (by omega), Nat.add_sub_cancel_left]
      exact List.getElem?_eq_getElem hk
    rw [hwf.sees hok hsized hpre hlen hp₂ (List.getElem?_eq_getElem hk) hrow]
    -- the cells of later ubatches are not those of ancestors
    refine or_congr_right (exists_congr fun a => and_congr_right fun hanc => ?_)
    have hle := hanc.le
    have hlt : a < (idxs₁ ++ idxs₂).length := by
      rw [hp₂.length, List.length_append]
      omega
    rw [List.getElem?_append_left hlt]
  · obtain ⟨hlt, hempty⟩ := hp.fresh j hj
    have hj' : j < c.cells.size := by rwa [hfork.size_eq] at hlt
    rw [hfork.cell_eq j hj', if_pos h0] at hempty
    exact hok.rep.pos_ne hj' h0 hempty
  · have hall := hwf.holds_branch hfork.ok.rep hp (hpre.fork hok hlen hs)
    have hbelow : Below c' sKeep := by
      refine hall.below ?_
      have hle : (branch us.flatten sKeep).length ≤ us.flatten.length := by
        unfold branch branchRows
        rw [List.length_map]
        exact List.length_filter_le _ _
      rw [List.length_append]
      push_cast
      omega
    have htake : (pre ++ branch us.flatten sKeep).take (pre.length + n) = pre ++ (branch us.flatten sKeep).take n :=
      List.take_length_add_append n
    rw [← htake]
    exact ⟨hall.renamed (hp.ok.keepTgt hbelow _), hall.renamed (hp.ok.keepDft hbelow _)⟩

end

/-- A root with two children, each the end of a branch. -/
def twoBranches : DraftTree where
  parent i := if i = 1 ∨ i = 2 then some 0 else none
  parent_lt i p h := by
    split at h
    · cases h
      omega
    · cases h
  leaf s := if s = 0 then some 1 else if s = 1 then some 2 else none

/-- One committed token, in a cache of 32 cells. -/
def oneCommitted : Cache Nat :=
  Cache.applyUbatch { cells := { size := 32 }, data := fun _ => 0 } [0] [⟨0, [0], 10⟩]

def branchUbatches : List (List (Row Nat)) := [[⟨1, [0, 1], 20⟩, ⟨2, [0], 21⟩], [⟨2, [1], 22⟩]]

theorem oneCommitted_placed : Placed { cells := { size := 32 }, data := fun _ => 0 } [⟨0, [0], 10⟩] [0] oneCommitted := by
  refine Placed.applyUbatch _ _ _ ⟨Rep.init 32, Nat.zero_le _⟩ rfl (List.nodup_singleton 0) (fun i hi => ?_) (fun r hr => ?_)
  · rw [List.mem_singleton.mp hi]
    exact ⟨by decide, rfl⟩
  · rw [List.mem_singleton.mp hr]
    exact ⟨by decide, by decide, by decide⟩

theorem oneCommitted_holds : Holds oneCommitted 0 [10] := by
  have hempty : Holds (D := Nat) { cells := { size := 32 }, data := fun _ => 0 } 0 [] :=
    ⟨fun j _ hs => absurd hs (Finset.notMem_empty 0), fun i _ j _ hs => absurd hs (Finset.notMem_empty 0),
      fun p hp => absurd hp (Nat.not_lt_zero p)⟩
  refine hempty.placed [10] (Rep.init 32) oneCommitted_placed (fun k r hr _ => ?_) (fun k k' r r' hr hr' _ _ _ => ?_)
    (fun d hd => ?_)
  · cases k with
    | zero =>
        cases hr
        exact ⟨0, rfl, rfl⟩
    | succ k => simp at hr
  · have h1 := (List.getElem?_eq_some_iff.mp hr).1
    have h2 := (List.getElem?_eq_some_iff.mp hr').1
    simp only [List.length_singleton] at h1 h2
    omega
  · obtain rfl : d = 0 := by simpa using hd
    exact ⟨0, _, rfl, List.mem_singleton_self 0, rfl⟩

theorem twoBranches_anc {a i : Nat} : twoBranches.Anc a i ↔ a = i ∨ (a = 0 ∧ (i = 1 ∨ i = 2)) := by
  constructor
  · intro h
    rcases h.cases with rfl | ⟨p, hp, hrest⟩
    · exact .inl rfl
    · change (if i = 1 ∨ i = 2 then some 0 else none) = some p at hp
      split at hp
      · cases hp
        have := hrest.le
        rename_i hi
        exact .inr ⟨by omega, hi⟩
      · cases hp
  · rintro (rfl | ⟨rfl, hi⟩)
    · exact .refl
    · exact .single (if_pos hi)

theorem branchUbatches_wellFormed : WellFormed twoBranches 1 2 branchUbatches.flatten where
  nodup := by decide
  ids i r hi s := by
    have hleaf : ∀ l, twoBranches.leaf s = some l ↔ (s = 0 ∧ l = 1) ∨ (s = 1 ∧ l = 2) := by
      intro l
      change (if s = 0 then some 1 else if s = 1 then some 2 else none) = some l ↔ _
      split
      · rw [Option.some.injEq]
        omega
      · split
        · rw [Option.some.injEq]
          omega
        · simp
          omega
    simp only [hleaf, twoBranches_anc]
    match i, hi with
    | 0, hi =>
        cases hi
        constructor
        · intro hs
          rcases List.mem_pair.mp hs with rfl | rfl
          · exact ⟨1, .inl ⟨rfl, rfl⟩, .inr ⟨rfl, .inl rfl⟩⟩
          · exact ⟨2, .inr ⟨rfl, rfl⟩, .inr ⟨rfl, .inr rfl⟩⟩
        · rintro ⟨l, hl | hl, -⟩
          · exact List.mem_pair.mpr (.inl hl.1)
          · exact List.mem_pair.mpr (.inr hl.1)
    | 1, hi =>
        cases hi
        simp
    | 2, hi =>
        cases hi
        simp
    | i + 3, hi => simp [branchUbatches] at hi
  leaf_lt s l hl := by
    change (if s = 0 then some 1 else if s = 1 then some 2 else none) = some l at hl
    change s < 2 ∧ l < 3
    split at hl
    · cases hl
      omega
    · split at hl
      · cases hl
        omega
      · cases hl
  root i r hi hp := by
    match i, hi, hp with
    | 0, hi, _ =>
        cases hi
        rfl
    | i + 3, hi, _ => simp [branchUbatches] at hi
  child i p r q hi hq hp := by
    match i, hi, hp with
    | 1, hi, hp =>
        cases hp
        cases hi
        cases hq
        rfl
    | 2, hi, hp =>
        cases hp
        cases hi
        cases hq
        rfl
    | i + 3, hi, _ => simp [branchUbatches] at hi

theorem treeRound_twoBranches : ∃ c' : Cache Nat, (oneCommitted.fork 2).decode branchUbatches = some ([1, 2, 3], c') ∧
    Holds (c'.keepTgt 1 3) 0 [10, 20, 22] := by
  have hfound : ((oneCommitted.fork 2).decode branchUbatches).map Prod.fst = some [1, 2, 3] := by decide +kernel
  obtain ⟨⟨idxs, c'⟩, hrun, rfl⟩ := Option.map_eq_some_iff.mp hfound
  have hsized : oneCommitted.Sized false := ⟨by decide, by decide⟩
  obtain ⟨-, -, hkeep⟩ := treeRound oneCommitted_placed.ok hsized oneCommitted_holds branchUbatches_wellFormed (by decide)
    (by decide) hrun
  exact ⟨c', hrun, (hkeep 1 2 (by decide)).1⟩

end S2Moe.Kv
