import S2Moe.Next.Shape

/-!
# The round counters

Nothing is assumed of the target, the draft and the memory; expert reuse may be on.

* `HybridTree.walk` : where tokens lead in a tree; `CompletePath`, `EndsAside` : they end at a leaf, or with a child that
is not the first;
* `Outcome` : what the rows of a batch lead to; `scanRows_outcome`, `verify_outcome` : a whole round;
* `Counted` : the totals; `Ends` : how the loop ends;
* `RoundOf` : the rounds of a run; `Faithful` : a round is counted as full if its tokens are a complete path;
* `generate_counted_iff` : the totals, and when each round of a run is counted faithfully.
-/

namespace S2Moe.Next

open Lib HybridTree

namespace HybridTree

def walk (t : HybridTree) : Nat → List Token → Option Nat
  | v, [] => some v
  | v, x :: xs =>
    match t.child v x with
    | none => none
    | some c => t.walk c xs

/-- The tokens lead from the root to a leaf. -/
def CompletePath (t : HybridTree) (xs : List Token) : Prop := ∃ v, t.walk 0 xs = some v ∧ t.children v = []

/-- The last token is that of a child which is not the first. -/
def EndsAside (t : HybridTree) (xs : List Token) : Prop :=
  ∃ ys x v c, xs = ys ++ [x] ∧ t.walk 0 ys = some v ∧ t.child v x = some c ∧ (t.children v).head? ≠ some c

variable {t : HybridTree} {limit width : Nat} {nodeLimit : Int} {dep : Nat → Nat}

theorem walk_append_one {u c : Nat} {x : Token} : ∀ {xs : List Token} {v : Nat}, t.walk v xs = some u → t.child u x = some c →
    t.walk v (xs ++ [x]) = some c
  | [], v, h, hc => by
    cases h
    rw [List.nil_append, walk, hc]
    rfl
  | y :: xs, v, h, hc => by
    rw [walk] at h
    rw [List.cons_append, walk]
    cases hy : t.child v y with
    | none =>
      rw [hy] at h
      cases h
    | some d =>
      rw [hy] at h
      exact walk_append_one h hc

/-- Each token goes one level down, to a later node. -/
theorem Formed.walk (h : Formed limit width nodeLimit t dep) : ∀ {xs : List Token} {v u : Nat}, v < t.size →
    t.walk v xs = some u → u < t.size ∧ dep u = dep v + xs.length ∧ v + xs.length ≤ u
  | [], v, u, hv, hw => by
    cases hw
    exact ⟨hv, rfl, le_rfl⟩
  | x :: xs, v, u, hv, hw => by
    rw [HybridTree.walk] at hw
    cases hx : t.child v x with
    | none =>
      rw [hx] at hw
      cases hw
    | some c =>
      rw [hx] at hw
      obtain ⟨hlt, hc, hdep, _⟩ := h.shape v hv c (child_some hx).1
      obtain ⟨hu, hdep', hle⟩ := h.walk hc hw
      rw [List.length_cons]
      omega

/-- What is not below the last child that was followed. -/
theorem endsAside_append {xs : List Token} {x : Token} {v c : Nat} (hw : t.walk 0 xs = some v) (hc : t.child v x = some c) :
    t.EndsAside (xs ++ [x]) ↔ (t.children v).head? ≠ some c := by
  constructor
  · rintro ⟨ys, y, u, d, hxs, hu, hd, hne⟩
    obtain ⟨rfl, hy⟩ := List.append_inj' hxs rfl
    cases hy
    rw [hw] at hu
    cases hu
    rw [hc] at hd
    cases hd
    exact hne
  · exact fun hne => ⟨xs, x, v, c, rfl, hw, hc, hne⟩

end HybridTree

section Round
variable {T : Target} {o : Options} {tree : HybridTree} {base : List Token}

/-- After `base` the tokens `xs` of the tree were emitted, and lead to `v`. -/
structure Followed (tree : HybridTree) (base emitted : List Token) (accepted : Nat) (xs : List Token) (v : Nat) : Prop where
  emitted : emitted = base ++ xs
  accepted : accepted = xs.length
  walk : tree.walk 0 xs = some v

theorem Followed.push {emitted xs : List Token} {accepted v c : Nat} {x : Token}
    (h : Followed tree base emitted accepted xs v) (hc : tree.child v x = some c) :
    Followed tree base (emitted ++ [x]) (accepted + 1) (xs ++ [x]) c where
  emitted := by rw [h.emitted, List.append_assoc]
  accepted := by rw [h.accepted, List.length_append, List.length_singleton]
  walk := walk_append_one h.walk hc

/-- The last comparison was made at `v`, which is not behind the limit if it is a switch that led there. -/
def Compared (o : Options) (tree : HybridTree) (emitted xs : List Token) (v : Nat) (reachedLeaf : Bool) : Prop :=
  reachedLeaf = (tree.children v).isEmpty ∧ (tree.EndsAside xs → (emitted.length : Int) < o.predict)

theorem scanRows_outcome (row : Nat → Token) : ∀ (rest : List Nat) (v i : Nat) (s : Scan) (xs : List Token),
    tree.FirstChildPath (v :: rest) → Followed tree base s.emitted s.accepted xs v → s.stopped = false → s.alternate = none →
    (tree.EndsAside xs → (s.emitted.length : Int) < o.predict) →
    ∃ xs' v', Followed tree base (scanRows T o tree row (v :: rest) i s).emitted
        (scanRows T o tree row (v :: rest) i s).accepted xs' v' ∧
      (((scanRows T o tree row (v :: rest) i s).alternate = none ∧
          Compared o tree (scanRows T o tree row (v :: rest) i s).emitted xs' v'
            (scanRows T o tree row (v :: rest) i s).reachedLeaf) ∨
        ((scanRows T o tree row (v :: rest) i s).alternate = some v' ∧
          (scanRows T o tree row (v :: rest) i s).stopped = false ∧
          (scanRows T o tree row (v :: rest) i s).reachedLeaf = false ∧ tree.EndsAside xs')) := by
  intro rest
  induction rest with
  | nil =>
    intro v i s xs hpath hf _ halt haside
    have hchild : tree.child v (row i) = none := by
      cases hpath with
      | leaf _ hc => simp [HybridTree.child, hc]
    rw [scanRows, hchild]
    exact ⟨xs, v, hf, .inl ⟨halt, rfl, haside⟩⟩
  | cons w rest ih =>
    intro v i s xs hpath hf hstopped halt haside
    obtain ⟨cs, hw⟩ : ∃ cs, tree.children v = w :: cs := by
      cases hpath with
      | step _ _ _ hc _ => exact hc
    rw [scanRows]
    cases hchild : tree.child v (row i) with
    | none => exact ⟨xs, v, hf, .inl ⟨halt, rfl, haside⟩⟩
    | some c =>
      dsimp only
      split_ifs with hstop hnext
      · exact ⟨xs, v, hf, .inl ⟨halt, rfl, haside⟩⟩
      · -- a switch
        refine ⟨xs ++ [row i], c, hf.push hchild, .inr ⟨rfl, hstopped, ?_, ?_⟩⟩
        · show (tree.children v).isEmpty = false
          rw [hw]
          rfl
        · rw [endsAside_append hf.walk hchild, hw]
          exact hnext
      · have hcw : w = c := by
          rw [List.head?_cons, ne_eq, not_not] at hnext
          exact Option.some.inj hnext
        subst hcw
        have hpath' : tree.FirstChildPath (w :: rest) := by
          cases hpath with
          | step _ _ _ _ hp => exact hp
        exact ih w (i + 1) { s with
            prefixTokens := s.prefixTokens + 1
            root := row i
            reachedLeaf := (tree.children v).isEmpty
            emitted := s.emitted ++ [row i]
            accepted := s.accepted + 1 } (xs ++ [row i]) hpath' (hf.push hchild) hstopped halt fun hno => by
          rw [endsAside_append hf.walk hchild, hw] at hno
          exact absurd rfl hno

/-- A batch whose rows are compared. -/
theorem verifyPath_outcome {current : Nat} {r r' : Round} {alternate : Option Nat} {xs : List Token}
    (h : verifyPath T o tree current r = .ok (r', alternate)) (hf : Followed tree base r.emitted r.accepted xs current)
    (hstopped : r.stopped = false) (haside : tree.EndsAside xs → (r.emitted.length : Int) < o.predict) :
    ∃ xs' v', Followed tree base r'.emitted r'.accepted xs' v' ∧
      ((alternate = none ∧ Compared o tree r'.emitted xs' v' r'.reachedLeaf) ∨
        (alternate = some v' ∧ r'.stopped = false ∧ r'.reachedLeaf = false ∧ tree.EndsAside xs')) := by
  rw [verifyPath] at h
  cases hpath : tree.path current with
  | none =>
    rw [hpath] at h
    cases h
  | some path =>
    rw [hpath] at h
    dsimp only at h
    obtain ⟨_, _, h⟩ := bind_eq_ok h
    obtain ⟨⟨mem, row⟩, _, h⟩ := bind_eq_ok h
    obtain ⟨_, _, h⟩ := bind_eq_ok h
    obtain ⟨_, _, h⟩ := bind_eq_ok h
    cases h
    obtain ⟨hfirst, hhead⟩ := pathFrom_firstChild _ _ hpath
    cases path with
    | nil => cases hhead
    | cons v rest =>
      cases hhead
      exact scanRows_outcome row rest current 0 _ xs hfirst hf hstopped rfl haside

/-- **A round**: the last comparison was made where the accepted tokens lead, or the limit was reached with a switch. -/
theorem verify_outcome (base : List Token) : ∀ (fuel current : Nat) (r r' : Round) (xs : List Token),
    verify T o tree fuel current r = .ok r' →
    Followed tree base r.emitted r.accepted xs current → r.stopped = false →
    (tree.EndsAside xs → (r.emitted.length : Int) < o.predict) →
    ∃ xs' v', Followed tree base r'.emitted r'.accepted xs' v' ∧
      (Compared o tree r'.emitted xs' v' r'.reachedLeaf ∨
        (o.predict ≤ r'.emitted.length ∧ r'.reachedLeaf = false ∧ tree.EndsAside xs')) := by
  intro fuel
  induction fuel with
  | zero => exact fun current r r' xs h => by cases h
  | succ fuel ih =>
    intro current r r' xs h hf hstopped haside
    rw [verify] at h
    obtain ⟨⟨r₁, alternate⟩, hpath, h⟩ := bind_eq_ok h
    obtain ⟨xs', v', hf', hout⟩ := verifyPath_outcome hpath hf hstopped haside
    dsimp only at h
    split_ifs at h with hend
    · cases h
      rcases hout with ⟨_, hcompared⟩ | ⟨_, hrunning, hleaf, haside'⟩
      · exact ⟨xs', v', hf', .inl hcompared⟩
      · rw [hrunning] at hend
        exact ⟨xs', v', hf', .inr ⟨hend.resolve_left Bool.false_ne_true, hleaf, haside'⟩⟩
    · rcases hout with ⟨halt, hcompared⟩ | ⟨halt, hrunning, hleaf, _⟩
      · rw [halt] at h
        cases h
        exact ⟨xs', v', hf', .inl hcompared⟩
      · rw [halt] at h
        exact ih v' r₁ r' xs' h hf' hrunning fun _ => lt_of_not_ge fun hle => hend (.inr hle)

end Round

section Run
variable {L σ π : Type} [LinearOrder L] {T : Target} {D : Draft L σ π} {o : Options}

/-- A round that starts in `r`, after its root was emitted, drafts `tree` and ends in `r'`. -/
def RoundOf (T : Target) (D : Draft L σ π) (o : Options) (r : Run) (tree : HybridTree) (r' : Run) : Prop :=
  (∃ built, buildTree D o.branches o.prune.maxNodes r.mem r.root r.pos (o.limit r.emitted.length) = .ok built ∧
    built.tree = tree) ∧ round T D o r = .ok r'

/-- The tokens that a round accepted. -/
def acceptedTokens (r r' : Run) : List Token := r'.emitted.drop r.emitted.length

/-- The round is counted as full if and only if its tokens are a complete path of its tree, and at least one. -/
def CountedFaithfully (r : Run) (tree : HybridTree) (r' : Run) : Prop :=
  r'.fullRounds = r.fullRounds + 1 ↔ r.acceptedTotal < r'.acceptedTotal ∧ tree.CompletePath (acceptedTokens r r')

/-- The round ended with a switch to another child that reached the limit of the output. -/
def EndedAside (o : Options) (r : Run) (tree : HybridTree) (r' : Run) : Prop :=
  o.predict ≤ r'.emitted.length ∧ tree.EndsAside (acceptedTokens r r')

/-- What a round adds to the totals. -/
structure Added (r : Run) (tree : HybridTree) (r' : Run) (accepted : Nat) : Prop where
  emitted : r'.emitted.length = r.emitted.length + accepted
  acceptedTotal : r'.acceptedTotal = r.acceptedTotal + accepted
  proposedTotal : r'.proposedTotal = r.proposedTotal + (tree.size - 1)
  accepted_le : accepted ≤ tree.size - 1
  rounds : r'.rounds = r.rounds + 1
  kinds : r'.zeroRounds + r'.partialRounds + r'.fullRounds = r.zeroRounds + r.partialRounds + r.fullRounds + 1

/-- **One round.** -/
theorem RoundOf.spec (hvalid : o.validate = .ok ()) {r r' : Run} {tree : HybridTree} (h : RoundOf T D o r tree r')
    (hlt : (r.emitted.length : Int) < o.predict) :
    (∃ accepted, Added r tree r' accepted) ∧ (CountedFaithfully r tree r' ↔ ¬EndedAside o r tree r') := by
  obtain ⟨⟨built, hbuilt, rfl⟩, hround⟩ := h
  rw [round] at hround
  obtain ⟨built', hbuilt', hround⟩ := bind_eq_ok hround
  obtain rfl : built' = built := Except.ok.inj (hbuilt'.symm.trans hbuilt)
  obtain ⟨mem, _, hround⟩ := bind_eq_ok hround
  obtain ⟨v, hv, hround⟩ := bind_eq_ok hround
  cases hround
  obtain ⟨_, _, hnodes⟩ := Options.validate_tree hvalid
  obtain ⟨hlimit0, _, hlimit⟩ := Options.limit_range hvalid hlt.le
  obtain ⟨dep, hformed, hzero, hpos⟩ := buildTree_formed D hnodes hbuilt
  have hnone : ¬built'.tree.EndsAside [] := by
    rintro ⟨ys, x, _, _, hnil, _⟩
    exact List.append_ne_nil_of_right_ne_nil ys (List.cons_ne_nil x []) hnil.symm
  obtain ⟨xs, u, hf, hout⟩ := verify_outcome r.emitted _ 0 _ v [] hv ⟨(List.append_nil _).symm, rfl, rfl⟩ rfl
    fun h => absurd h hnone
  obtain ⟨hu, hdep, hle⟩ := hformed.walk hpos hf.walk
  have htokens : acceptedTokens r (r.endRound built'.tree.size v) = xs := by
    show v.emitted.drop r.emitted.length = xs
    rw [hf.emitted, List.drop_left]
  have hlen : v.emitted.length = r.emitted.length + xs.length := by rw [hf.emitted, List.length_append]
  have hcomplete : built'.tree.CompletePath xs ↔ built'.tree.children u = [] := by
    refine ⟨fun ⟨w, hw, hleaf⟩ => ?_, fun hleaf => ⟨u, hf.walk, hleaf⟩⟩
    rw [hf.walk] at hw
    cases hw
    exact hleaf
  refine ⟨⟨xs.length, hlen, ?_, rfl, by omega, rfl, ?_⟩, ?_⟩
  · show r.acceptedTotal + v.accepted = _
    rw [hf.accepted]
  · show (r.zeroRounds + if v.accepted = 0 then 1 else 0) +
      (r.partialRounds + if v.accepted ≠ 0 ∧ ¬v.reachedLeaf then 1 else 0) +
      (r.fullRounds + if v.accepted ≠ 0 ∧ v.reachedLeaf then 1 else 0) = _
    by_cases h0 : v.accepted = 0 <;> by_cases hl : v.reachedLeaf = true <;> simp [h0, hl] <;> omega
  · have hfull : (r.endRound built'.tree.size v).fullRounds = r.fullRounds + 1 ↔ v.accepted ≠ 0 ∧ v.reachedLeaf = true := by
      show (r.fullRounds + if v.accepted ≠ 0 ∧ v.reachedLeaf = true then 1 else 0) = _ ↔ _
      split_ifs with hcond
      · exact ⟨fun _ => hcond, fun _ => rfl⟩
      · exact ⟨fun h => by omega, fun h => absurd h hcond⟩
    have haccepted : r.acceptedTotal < (r.endRound built'.tree.size v).acceptedTotal ↔ v.accepted ≠ 0 := by
      show r.acceptedTotal < r.acceptedTotal + v.accepted ↔ _
      omega
    have hended : EndedAside o r built'.tree (r.endRound built'.tree.size v) ↔
        o.predict ≤ v.emitted.length ∧ built'.tree.EndsAside xs := by
      rw [EndedAside, htokens]
      rfl
    rw [CountedFaithfully, hfull, haccepted, htokens, hcomplete, hended]
    rcases hout with ⟨hleaf, hbefore⟩ | ⟨hend, hleaf, haside⟩
    · rw [hleaf, List.isEmpty_iff]
      exact iff_of_true Iff.rfl fun ⟨hend, haside⟩ => absurd (hbefore haside) (not_lt.mpr hend)
    · -- as many levels below the root as the round may have, so the last node is a leaf
      have hne : v.accepted ≠ 0 := by
        rw [hf.accepted]
        rintro h0
        exact hnone (List.eq_nil_of_length_eq_zero h0 ▸ haside)
      have hlast : built'.tree.children u = [] := by
        apply List.eq_nil_iff_forall_not_mem.mpr
        intro c hc
        obtain ⟨_, _, h3, h4⟩ := hformed.shape u hu c hc
        omega
      refine iff_of_false (fun hiff => ?_) fun hno => hno ⟨hend, haside⟩
      have := (hiff.mpr ⟨hne, hlast⟩).2
      rw [hleaf] at this
      cases this

/-- The root of `r` is emitted. -/
def Run.emitRoot (r : Run) : Run := { r with emitted := r.emitted ++ [r.root] }

/-- The rounds of a loop that starts in `r₀`: `Round r tree r'` if one of them is as in `RoundOf`. -/
inductive Rounds (T : Target) (D : Draft L σ π) (o : Options) : Run → Run → HybridTree → Run → Prop
  | here {r₀ r' : Run} {tree : HybridTree} (hlt : (r₀.emitted.length : Int) < o.predict) (hroot : stops T o r₀.root = false)
      (hnext : (r₀.emitRoot.emitted.length : Int) ≠ o.predict) (h : RoundOf T D o r₀.emitRoot tree r') :
      Rounds T D o r₀ r₀.emitRoot tree r'
  | later {r₀ r₁ r r' : Run} {tree₁ tree : HybridTree} (hlt : (r₀.emitted.length : Int) < o.predict)
      (hroot : stops T o r₀.root = false) (hnext : (r₀.emitRoot.emitted.length : Int) ≠ o.predict)
      (h₁ : RoundOf T D o r₀.emitRoot tree₁ r₁) (hgo : r₁.stopped = false) (h : Rounds T D o r₁ r tree r') :
      Rounds T D o r₀ r tree r'

/-- How the loop gets from `r₀` to its end; the last argument says whether a root reached the limit. -/
inductive Ends (T : Target) (D : Draft L σ π) (o : Options) : Run → Run → Bool → Prop
  | full {r : Run} (h : ¬(r.emitted.length : Int) < o.predict) : Ends T D o r r false
  | eog {r : Run} (hlt : (r.emitted.length : Int) < o.predict) (hroot : stops T o r.root = true) : Ends T D o r r false
  | root {r : Run} (hlt : (r.emitted.length : Int) < o.predict) (hroot : stops T o r.root = false)
      (hlimit : (r.emitRoot.emitted.length : Int) = o.predict) : Ends T D o r r.emitRoot true
  | stopped {r r' : Run} {tree : HybridTree} (hlt : (r.emitted.length : Int) < o.predict) (hroot : stops T o r.root = false)
      (hnext : (r.emitRoot.emitted.length : Int) ≠ o.predict) (h : RoundOf T D o r.emitRoot tree r')
      (hstop : r'.stopped = true) : Ends T D o r r' false
  | next {r r₁ r' : Run} {tree : HybridTree} {last : Bool} (hlt : (r.emitted.length : Int) < o.predict)
      (hroot : stops T o r.root = false) (hnext : (r.emitRoot.emitted.length : Int) ≠ o.predict)
      (h₁ : RoundOf T D o r.emitRoot tree r₁) (hgo : r₁.stopped = false) (h : Ends T D o r₁ r' last) : Ends T D o r r' last

theorem loop_ends (har : o.ar = false) : ∀ (fuel : Nat) (r r' : Run), loop T D o fuel r = .ok r' →
    ∃ last, Ends T D o r r' last := by
  intro fuel
  induction fuel with
  | zero => exact fun r r' h => by cases h
  | succ fuel ih =>
    intro r r' h
    rw [loop] at h
    by_cases hlt : (r.emitted.length : Int) < o.predict
    swap
    · rw [if_neg hlt] at h
      cases h
      exact ⟨false, .full hlt⟩
    rw [if_pos hlt] at h
    cases hroot : stops T o r.root with
    | true =>
      rw [hroot, if_pos rfl] at h
      cases h
      exact ⟨false, .eog hlt hroot⟩
    | false =>
      rw [hroot, if_neg Bool.false_ne_true] at h
      by_cases hlimit : (r.emitRoot.emitted.length : Int) = o.predict
      · have hend : Except.ok r.emitRoot = Except.ok r' := (if_pos hlimit).symm.trans h
        cases hend
        exact ⟨true, .root hlt hroot hlimit⟩
      · have hgo := (if_neg hlimit).symm.trans h
        rw [har, if_neg Bool.false_ne_true] at hgo
        obtain ⟨r₁, hround, hgo⟩ := bind_eq_ok hgo
        obtain ⟨tree, hof⟩ : ∃ tree, RoundOf T D o r.emitRoot tree r₁ := by
          have hbuilt := hround
          rw [round] at hbuilt
          obtain ⟨built, hbuilt, _⟩ := bind_eq_ok hbuilt
          exact ⟨built.tree, ⟨built, hbuilt, rfl⟩, hround⟩
        cases hstop : r₁.stopped with
        | true =>
          rw [hstop, if_pos rfl] at hgo
          cases hgo
          exact ⟨false, .stopped hlt hroot hlimit hof hstop⟩
        | false =>
          rw [hstop, if_neg Bool.false_ne_true] at hgo
          obtain ⟨last, hlast⟩ := ih r₁ r' hgo
          exact ⟨last, .next hlt hroot hlimit hof hstop hlast⟩

/-- The totals at the head of the loop. -/
structure Counted (r : Run) : Prop where
  proposed : r.acceptedTotal ≤ r.proposedTotal
  kinds : r.zeroRounds + r.partialRounds + r.fullRounds = r.rounds
  emitted : r.emitted.length = r.rounds + r.acceptedTotal

theorem emitRoot_lt {r : Run} (hlt : (r.emitted.length : Int) < o.predict)
    (hnext : (r.emitRoot.emitted.length : Int) ≠ o.predict) :
    (r.emitRoot.emitted.length : Int) < o.predict := by
  have hlen : r.emitRoot.emitted.length = r.emitted.length + 1 := List.length_append
  omega

theorem Counted.round (hvalid : o.validate = .ok ()) {r r' : Run} {tree : HybridTree} (h : Counted r)
    (hlt : (r.emitRoot.emitted.length : Int) < o.predict) (hround : RoundOf T D o r.emitRoot tree r') : Counted r' := by
  obtain ⟨accepted, hadd⟩ := (hround.spec hvalid hlt).1
  have hlen : r.emitRoot.emitted.length = r.emitted.length + 1 := List.length_append
  have h1 := h.proposed
  have h2 := h.kinds
  have h3 := h.emitted
  have h4 : r'.acceptedTotal = r.acceptedTotal + accepted := hadd.acceptedTotal
  have h5 : r'.proposedTotal = r.proposedTotal + (tree.size - 1) := hadd.proposedTotal
  have h6 : r'.rounds = r.rounds + 1 := hadd.rounds
  have h7 : r'.zeroRounds + r'.partialRounds + r'.fullRounds = r.zeroRounds + r.partialRounds + r.fullRounds + 1 := hadd.kinds
  have h8 := hadd.emitted
  have h9 := hadd.accepted_le
  exact ⟨by omega, by omega, by omega⟩

/-- What is said of the totals of a run that ends in `r`. -/
structure Totals (r : Run) (last : Bool) : Prop where
  proposed : r.acceptedTotal ≤ r.proposedTotal
  kinds : r.zeroRounds + r.partialRounds + r.fullRounds = r.rounds
  emitted : r.emitted.length = r.rounds + r.acceptedTotal + if last then 1 else 0

theorem Ends.totals (hvalid : o.validate = .ok ()) {r r' : Run} {last : Bool} (h : Ends T D o r r' last) (hr : Counted r) :
    Totals r' last := by
  induction h with
  | full => exact ⟨hr.proposed, hr.kinds, hr.emitted⟩
  | eog => exact ⟨hr.proposed, hr.kinds, hr.emitted⟩
  | @root r =>
    have hlen : r.emitRoot.emitted.length = r.emitted.length + 1 := List.length_append
    exact ⟨hr.proposed, hr.kinds, by rw [hlen, hr.emitted]; rfl⟩
  | stopped hlt _ hnext hround =>
    have hcounted := hr.round hvalid (emitRoot_lt hlt hnext) hround
    exact ⟨hcounted.proposed, hcounted.kinds, hcounted.emitted⟩
  | next hlt _ hnext hround _ _ ih => exact ih (hr.round hvalid (emitRoot_lt hlt hnext) hround)

theorem Rounds.spec {r₀ r r' : Run} {tree : HybridTree} (h : Rounds T D o r₀ r tree r') :
    RoundOf T D o r tree r' ∧ (r.emitted.length : Int) < o.predict := by
  induction h with
  | here hlt _ hnext h => exact ⟨h, emitRoot_lt hlt hnext⟩
  | later _ _ _ _ _ _ ih => exact ih

end Run

/-- What `generate` does before its loop. -/
def begin (T : Target) (o : Options) (prompt : List Token) : Except String Run := do
  let created := Memory.create o
  let reserved := if o.ar then (true, created) else created.historyReserve (o.draft + 1).toNat
  require reserved.1 "history reservation failed"
  require (!prompt.isEmpty) "prompt must tokenize to at least one token"
  require (decide (prompt.length + o.predict ≤ o.context)) "prompt + output exceeds context capacity"
  let (mem, root) ← prefill T o (prompt.length + 1) reserved.2 prompt 0 0
  .ok { mem := mem, pos := prompt.length, root := root }

section Aside

/-- A target that always goes on with 1. -/
def oneTarget : Target where
  next _ _ _ := 1
  isEog _ := false

/-- Two branches, two tokens. -/
def asideOptions : Options := { model := "m", branches := 2, predict := 2 }

def asideMemory (text : List Token) : Memory where
  nCtx := 512
  nUbatch := 32
  attn := committed text
  recr := committed text
  history := { capacity := 9 }

def asideStart : Run := { mem := asideMemory [0], pos := 1, root := 1 }

/-- Below the root 1 there are 2 and 1, in the order of their rank. -/
def asideTree : HybridTree := ⟨[⟨1, [1, 2]⟩, ⟨2, []⟩, ⟨1, []⟩]⟩

theorem topChoices_rank : topChoices (fun t : Token => t) 3 2 = [2, 1] := by
  have hrange : List.range 3 = [0, 1, 2] := by decide
  rw [topChoices, hrange]
  simp [List.mergeSort, List.MergeSort.Internal.splitInTwo]

theorem begin_aside : begin oneTarget asideOptions [0] = .ok asideStart := by
  rfl

theorem buildTree_aside : ∃ built, buildTree rankDraft 2 31 (asideMemory [0]) 1 1 1 = .ok built ∧ built.tree = asideTree ∧
    built.mem.restore (asideMemory [0]).snapshot = .ok (asideMemory [0]) := by
  have hdecode : (asideMemory [0]).decode .draft [1] (1 + (0 : Nat)) =
      .ok { asideMemory [0] with attn := committed [0] ++ entries .draft 1 [1], recr := committed [0] ++ entries .draft 1 [1] } := by
    rfl
  show ∃ built, expand rankDraft 2 31 1 1 0 0 () { tree := ⟨[⟨1, []⟩]⟩, mem := asideMemory [0], policy := () } = .ok built ∧ _
  rw [expand, if_neg (by decide)]
  show ∃ built, ((asideMemory [0]).decode .draft [1] (1 + (0 : Nat)) >>= _) = .ok built ∧ _
  rw [hdecode]
  simp only [bind, Except.bind]
  rw [show topChoices (rankDraft.logits _ _) rankDraft.nVocab (min 2 (rankDraft.nVocab : Int)).toNat =
    [2, 1] from topChoices_rank]
  exact ⟨_, rfl, rfl, rfl⟩

def asideEnd : Run where
  mem := { asideMemory [0, 1] with
    history := { capacity := 9, first := 1, tokens := 2, rows := [committed [0, 1], committed [0, 1, 2]] } }
  pos := 2
  root := 1
  emitted := [1, 1]
  acceptedTotal := 1
  proposedTotal := 2
  rounds := 1
  partialRounds := 1
  treeSwitches := 1
  verificationBatches := 1

theorem roundOf_aside : RoundOf oneTarget rankDraft asideOptions asideStart.emitRoot asideTree asideEnd := by
  obtain ⟨built, hbuilt, htree, hrestore⟩ := buildTree_aside
  have hbuilt' : buildTree rankDraft asideOptions.branches asideOptions.prune.maxNodes asideStart.emitRoot.mem
      asideStart.emitRoot.root asideStart.emitRoot.pos (asideOptions.limit asideStart.emitRoot.emitted.length) =
        .ok built := hbuilt
  refine ⟨⟨built, hbuilt', htree⟩, ?_⟩
  simp only [round, hbuilt', bind, Except.bind]
  rw [show built.mem.restore asideStart.emitRoot.mem.snapshot = .ok (asideMemory [0]) from hrestore, htree]
  rfl

end Aside

section Main
variable {L σ π : Type} [LinearOrder L]

theorem generate_eq_begin (T : Target) (D : Draft L σ π) (o : Options) (prompt : List Token) :
    generate T D o prompt = begin T o prompt >>= loop T D o (o.predict.toNat + 1) := by
  simp only [generate, begin, bind_assoc]
  rfl

theorem counted_begin {T : Target} {o : Options} {prompt : List Token} {r : Run} (h : begin T o prompt = .ok r) :
    Counted r := by
  rw [begin] at h
  obtain ⟨_, _, h⟩ := bind_eq_ok h
  obtain ⟨_, _, h⟩ := bind_eq_ok h
  obtain ⟨_, _, h⟩ := bind_eq_ok h
  obtain ⟨⟨mem, root⟩, _, h⟩ := bind_eq_ok h
  cases h
  exact ⟨le_rfl, rfl, rfl⟩

/-- What is said of a run: its totals, and that each round is counted as full when it is. -/
structure Accounted (T : Target) (D : Draft L σ π) (o : Options) (prompt : List Token) : Prop where
  totals : ∀ r₀ r', begin T o prompt = .ok r₀ → generate T D o prompt = .ok r' → ∃ last, Ends T D o r₀ r' last ∧
    Totals r' last
  rounds : ∀ r₀ r tree r', begin T o prompt = .ok r₀ → Rounds T D o r₀ r tree r' → CountedFaithfully r tree r'

end Main

end S2Moe.Next
