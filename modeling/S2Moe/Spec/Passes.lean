import S2Moe.Spec.Verify

/-!
# The passes at a position

`verifyPosition` is a loop over passes. A pass picks a sequence; it drops it if it is too short, and otherwise puts its token
to the ratio test.

* `Pass`, `passes` : what the loop does at a position, pass by pass; `verifyPosition_eq_passes`;
* `positions` : the states in which a round comes to its positions;
* `Synchronized` : no token is tested twice, a rejection takes all sequences with the token out of `active_seqs`, and what is
  in `active_seqs` is active;
* `DistinctTokens` : no two active sequences have the same token at the same index;
* `synchronized_iff` : only such drafts are always synchronized.
-/

namespace S2Moe.Spec

/-- `before` is the state in which the test is made, if there is one. -/
structure Pass where
  seq : Nat
  tested : Bool
  accepted : Bool
  before : Verification
  after : Verification

def Pass.rejected (p : Pass) : Bool := p.tested && !p.accepted

/-- The token that is put to the test. -/
def Pass.token (i : Nat) (p : Pass) : Token := (p.before.tokens p.seq).getD i 0

/-- The sequence that a pass picks. -/
def Verification.picked (v : Verification) (draw : Draw) : Nat :=
  v.activeSeqs.getD (draw.pick % v.activeSeqs.length) 0

/-- The state in which the token of `s` is tested. -/
def Verification.facing (v : Verification) (s i : Nat) : Verification := { v with drawn := v.drawn + 1 }.lookup s i

/-- The state behind a pass over a sequence that has no token at the position. -/
def Verification.dropped (v : Verification) (s : Nat) : Verification :=
  ({ v with drawn := v.drawn + 1 }.deactivate s).erase s

def passes (draws : Nat → Draw) (i : Nat) : Nat → Verification → List Pass
  | 0, _ => []
  | fuel + 1, v =>
    if v.activeSeqs = [] then []
    else
      let draw := draws v.drawn
      let s := v.picked draw
      if (v.tokens s).length ≤ i then ⟨s, false, false, v, v.dropped s⟩ :: passes draws i fuel (v.dropped s)
      else
        let w := v.facing s i
        if acceptTest draw.r w.pTgt w.pDft then [⟨s, true, true, w, w⟩]
        else ⟨s, true, false, w, w.reject s i⟩ :: passes draws i fuel (w.reject s i)

theorem verifyPosition_succ (draws : Nat → Draw) (i fuel : Nat) (v : Verification) :
    verifyPosition draws i (fuel + 1) v =
      if v.activeSeqs = [] then (none, v)
      else if (v.tokens (v.picked (draws v.drawn))).length ≤ i then
        verifyPosition draws i fuel (v.dropped (v.picked (draws v.drawn)))
      else if acceptTest (draws v.drawn).r (v.facing (v.picked (draws v.drawn)) i).pTgt
          (v.facing (v.picked (draws v.drawn)) i).pDft then
        (some (v.picked (draws v.drawn)), v.facing (v.picked (draws v.drawn)) i)
      else verifyPosition draws i fuel ((v.facing (v.picked (draws v.drawn)) i).reject (v.picked (draws v.drawn)) i) :=
  rfl

/-- The loop ends in the state behind its last pass, and has accepted what that pass accepted. -/
theorem verifyPosition_eq_passes (draws : Nat → Draw) (i : Nat) : ∀ (fuel : Nat) (v : Verification),
    verifyPosition draws i fuel v =
      (((passes draws i fuel v).getLast?.filter Pass.accepted).map Pass.seq,
        ((passes draws i fuel v).getLast?.map Pass.after).getD v)
  | 0, v => rfl
  | fuel + 1, v => by
    have hcons : ∀ (p : Pass) (w : Verification), p.accepted = false → p.after = w →
        verifyPosition draws i fuel w =
          (((p :: passes draws i fuel w).getLast?.filter Pass.accepted).map Pass.seq,
            ((p :: passes draws i fuel w).getLast?.map Pass.after).getD v) := by
      intro p w hp hw
      rw [verifyPosition_eq_passes draws i fuel w]
      cases hl : passes draws i fuel w with
      | nil => simp [hp, hw]
      | cons q qs => simp [List.getLast?_cons]
    rw [verifyPosition_succ, passes]
    dsimp only
    split
    · rfl
    · split
      · exact hcons _ _ rfl rfl
      · split
        · rfl
        · exact hcons _ _ rfl rfl

/-! ## Rules -/

/-- What a pass can be that starts in `u`. -/
inductive PassFrom (i : Nat) (u : Verification) : Pass → Prop
  | dropped (s : Nat) (hs : s ∈ u.activeSeqs) (hlen : (u.tokens s).length ≤ i) :
      PassFrom i u ⟨s, false, false, u, u.dropped s⟩
  | accepted (s : Nat) (draw : Draw) (hs : s ∈ u.activeSeqs) (hlen : i < (u.tokens s).length)
      (h : acceptTest draw.r (u.facing s i).pTgt (u.facing s i).pDft = true) :
      PassFrom i u ⟨s, true, true, u.facing s i, u.facing s i⟩
  | rejected (s : Nat) (draw : Draw) (hs : s ∈ u.activeSeqs) (hlen : i < (u.tokens s).length)
      (h : acceptTest draw.r (u.facing s i).pTgt (u.facing s i).pDft = false) :
      PassFrom i u ⟨s, true, false, u.facing s i, (u.facing s i).reject s i⟩

theorem Verification.picked_mem {v : Verification} (h : v.activeSeqs ≠ []) (draw : Draw) : v.picked draw ∈ v.activeSeqs := by
  have hlen : 0 < v.activeSeqs.length := List.length_pos_of_ne_nil h
  rw [Verification.picked, List.getD_eq_getElem _ _ (Nat.mod_lt _ hlen)]
  exact List.getElem_mem _

/-- The invariant rule of a position: what every pass preserves holds in front of every pass. -/
theorem passes_rule (draws : Nat → Draw) {i : Nat} {I : Verification → Prop}
    (hstep : ∀ u p, I u → PassFrom i u p → p.accepted = false → I p.after) :
    ∀ (fuel : Nat) (v : Verification), I v → ∀ p ∈ passes draws i fuel v, ∃ u, I u ∧ PassFrom i u p
  | 0, v, _, p, hp => absurd hp List.not_mem_nil
  | fuel + 1, v, hv, p, hp => by
    rw [passes] at hp
    split at hp
    · exact absurd hp List.not_mem_nil
    · rename_i hne
      have hmem := v.picked_mem hne (draws v.drawn)
      dsimp only at hp
      split at hp
      · rename_i hlen
        have hpass := PassFrom.dropped (i := i) _ hmem hlen
        rcases List.mem_cons.mp hp with rfl | hp
        · exact ⟨v, hv, hpass⟩
        · exact passes_rule draws hstep fuel _ (hstep v _ hv hpass rfl) p hp
      · rename_i hlen
        split at hp
        · rename_i hacc
          rw [List.mem_singleton] at hp
          subst hp
          exact ⟨v, hv, .accepted _ _ hmem (Nat.lt_of_not_le hlen) hacc⟩
        · rename_i hacc
          have hpass := PassFrom.rejected _ _ hmem (Nat.lt_of_not_le hlen) (Bool.not_eq_true _ ▸ hacc)
          rcases List.mem_cons.mp hp with rfl | hp
          · exact ⟨v, hv, hpass⟩
          · exact passes_rule draws hstep fuel _ (hstep v _ hv hpass rfl) p hp

theorem verifyPosition_rule (draws : Nat → Draw) {i : Nat} {I : Verification → Prop}
    (hstep : ∀ u p, I u → PassFrom i u p → I p.after) (fuel : Nat) (v : Verification) (hv : I v) :
    I (verifyPosition draws i fuel v).2 := by
  rw [verifyPosition_eq_passes]
  cases hl : (passes draws i fuel v).getLast? with
  | none => exact hv
  | some p =>
      obtain ⟨u, hu, hp⟩ := passes_rule draws (fun u p hu hp _ => hstep u p hu hp) fuel v hv p (List.mem_of_getLast? hl)
      exact hstep u p hu hp

theorem Narrowed.facing (v : Verification) (s i : Nat) : Narrowed v (v.facing s i) := ⟨rfl, fun _ h => h⟩

theorem Narrowed.dropped (v : Verification) (s : Nat) : Narrowed v (v.dropped s) :=
  (show Narrowed v { v with drawn := v.drawn + 1 } from ⟨rfl, fun _ h => h⟩).trans
    ((Narrowed.deactivate _ s).trans (.erase _ s))

theorem PassFrom.narrowed {i : Nat} {u : Verification} {p : Pass} (h : PassFrom i u p) : Narrowed u p.after := by
  cases h with
  | dropped s => exact .dropped u s
  | accepted s => exact .facing u s i
  | rejected s => exact (Narrowed.facing u s i).trans (.reject _ s i)

theorem PassFrom.seq_mem {i : Nat} {u : Verification} {p : Pass} (h : PassFrom i u p) : p.seq ∈ u.activeSeqs := by
  cases h <;> assumption

theorem Verification.activeSeqs_reject (v : Verification) (s i : Nat) :
    (v.reject s i).activeSeqs = v.activeSeqs.filter (· != s) := by
  rw [show (v.reject s i).activeSeqs = (v.activeSeqs.filter (· != s)).filter (· != s) from rfl, List.filter_filter]
  simp

theorem PassFrom.activeSeqs_eq {i : Nat} {u : Verification} {p : Pass} (h : PassFrom i u p) (ha : p.accepted = false) :
    p.after.activeSeqs = u.activeSeqs.filter (· != p.seq) := by
  cases h with
  | dropped s => rfl
  | accepted s => cases ha
  | rejected s => exact Verification.activeSeqs_reject _ s i

/-- A pass that does not end the loop takes its sequence out of play. -/
theorem PassFrom.seq_notMem {i : Nat} {u : Verification} {p : Pass} (h : PassFrom i u p) (ha : p.accepted = false) :
    p.seq ∉ p.after.activeSeqs := by
  rw [h.activeSeqs_eq ha]
  simp

theorem passes_seq_mem (draws : Nat → Draw) (i fuel : Nat) (v : Verification) :
    ∀ p ∈ passes draws i fuel v, p.seq ∈ v.activeSeqs := by
  intro p hp
  obtain ⟨u, hu, hfrom⟩ := passes_rule draws (I := fun u => u.activeSeqs ⊆ v.activeSeqs)
    (fun u p hu hp _ x hx => hu (hp.narrowed.active hx)) fuel v (fun _ h => h) p hp
  exact hu hfrom.seq_mem

/-- No sequence is picked twice. -/
theorem passes_seq_nodup (draws : Nat → Draw) (i : Nat) : ∀ (fuel : Nat) (v : Verification),
    ((passes draws i fuel v).map Pass.seq).Nodup
  | 0, v => List.nodup_nil
  | fuel + 1, v => by
    have hcons : ∀ p, PassFrom i v p → p.accepted = false →
        ((p :: passes draws i fuel p.after).map Pass.seq).Nodup := by
      intro p hp ha
      rw [List.map_cons, List.nodup_cons]
      refine ⟨fun hmem => ?_, passes_seq_nodup draws i fuel p.after⟩
      obtain ⟨q, hq, heq⟩ := List.mem_map.mp hmem
      exact hp.seq_notMem ha (heq ▸ passes_seq_mem draws i fuel p.after q hq)
    rw [passes]
    split
    · exact List.nodup_nil
    · rename_i hne
      have hmem := v.picked_mem hne (draws v.drawn)
      dsimp only
      split
      · rename_i hlen
        exact hcons _ (.dropped _ hmem hlen) rfl
      · rename_i hlen
        split
        · exact List.nodup_singleton _
        · rename_i hacc
          exact hcons _ (.rejected _ _ hmem (Nat.lt_of_not_le hlen) (Bool.not_eq_true _ ▸ hacc)) rfl

/-! ## A round -/

/-- The state at the start of a position: the target is sampled at the row of the sequence accepted last. -/
def Verification.enter (v : Verification) (target : List Token → Nat → List Candidate) (i sKeep : Nat)
    (acc : List Acceptance) : Verification :=
  { v with
    distTgt := target (acc.map Acceptance.token) ((((v.drafts[sKeep]?).map SeqDraft.iBatchTgt).getD []).getD i 0)
    pTgt := 0
    pDft := 0 }

/-- The positions of a round with the states it comes to them in; the recursion is that of `verifyRound`. -/
def positions (target : List Token → Nat → List Candidate) (draws : Nat → Draw) :
    Nat → Nat → Nat → List Acceptance → Verification → List (Nat × Verification)
  | 0, _, _, _, _ => []
  | fuel + 1, i, sKeep, acc, v =>
    let v := v.enter target i sKeep acc
    (i, v) :: match verifyPosition draws i v.activeSeqs.length v with
      | (some s, v) => positions target draws fuel (i + 1) s (acc ++ [⟨s, i, (v.tokens s).getD i 0⟩]) v
      | (none, _) => []

/-- The positions of one round of verification. -/
def roundPositions (target : List Token → Nat → List Candidate) (dists : Nat → Nat → List Candidate)
    (draws : Nat → Draw) (drafts : List SeqDraft) : List (Nat × Verification) :=
  positions target draws (roundFuel drafts) 0 0 []
    { drafts := drafts, dists := dists, activeSeqs := activeSeqs drafts }

theorem positions_rule {target : List Token → Nat → List Candidate} {draws : Nat → Draw} {I : Verification → Prop}
    (henter : ∀ u i sKeep acc, I u → I (u.enter target i sKeep acc)) (hstep : ∀ i u p, I u → PassFrom i u p → I p.after) :
    ∀ (fuel i sKeep : Nat) (acc : List Acceptance) (v : Verification), I v →
      ∀ q ∈ positions target draws fuel i sKeep acc v, I q.2
  | 0, _, _, _, _, _, q, hq => absurd hq List.not_mem_nil
  | fuel + 1, i, sKeep, acc, v, hv, q, hq => by
    rw [positions] at hq
    have hv' := henter v i sKeep acc hv
    rcases List.mem_cons.mp hq with rfl | hq
    · exact hv'
    · have hw := verifyPosition_rule draws (hstep i) (v.enter target i sKeep acc).activeSeqs.length _ hv'
      split at hq
      · rename_i s w heq
        rw [heq] at hw
        exact positions_rule henter hstep fuel _ _ _ w hw q hq
      · exact absurd hq List.not_mem_nil

/-! ## Sequences with the same token -/

/-- `drafts[s].active`. -/
def isActive (drafts : List SeqDraft) (s : Nat) : Bool := ((drafts[s]?).map SeqDraft.active).getD false

theorem mem_activeSeqs {drafts : List SeqDraft} {s : Nat} : s ∈ activeSeqs drafts ↔ isActive drafts s = true := by
  rw [activeSeqs, List.mem_filter, List.mem_range]
  refine ⟨fun h => h.2, fun h => ⟨?_, h⟩⟩
  by_contra hs
  rw [isActive, List.getElem?_eq_none (Nat.le_of_not_lt hs)] at h
  cases h

/-- The passes at a position treat every token once, and `active_seqs` keeps to the active sequences. -/
structure Synchronized (i : Nat) (ps : List Pass) : Prop where
  once : ((ps.filter Pass.tested).map (Pass.token i)).Nodup
  leave : ∀ p ∈ ps, p.rejected = true → ∀ t ∈ p.after.activeSeqs, (p.after.tokens t)[i]? ≠ some (p.token i)
  active : ∀ p ∈ ps, ∀ t ∈ p.after.activeSeqs, isActive p.after.drafts t = true

/-- No two active sequences have the same token at the same index. -/
def DistinctTokens (drafts : List SeqDraft) : Prop :=
  ∀ s ∈ activeSeqs drafts, ∀ t ∈ activeSeqs drafts, s ≠ t → ∀ (i : Nat) (x : Token), (tokensOf drafts s)[i]? = some x →
    (tokensOf drafts t)[i]? ≠ some x

/-- The invariant of a round over such drafts. -/
structure Tracking (drafts : List SeqDraft) (v : Verification) : Prop where
  tokens : v.drafts.map SeqDraft.tokens = drafts.map SeqDraft.tokens
  active : ∀ s ∈ v.activeSeqs, isActive v.drafts s = true
  was : ∀ s, isActive v.drafts s = true → s ∈ activeSeqs drafts

theorem isActive_modify (drafts : List SeqDraft) (s t : Nat) :
    isActive (drafts.modify s (fun d => { d with active := false })) t = (isActive drafts t && decide (t ≠ s)) := by
  unfold isActive
  rw [List.getElem?_modify]
  by_cases h : s = t
  · subst h
    cases drafts[s]? <;> simp
  · cases drafts[t]? <;> simp [h, Ne.symm h]

section Tracking
variable {drafts : List SeqDraft} {v : Verification} {i s : Nat}

theorem Tracking.tokens_eq (h : Tracking drafts v) (t : Nat) : v.tokens t = tokensOf drafts t := by
  unfold Verification.tokens tokensOf
  rw [h.tokens]

/-- A sequence is deactivated and erased at once. -/
theorem Tracking.remove (h : Tracking drafts v) (s : Nat) : Tracking drafts ((v.deactivate s).erase s) where
  tokens := (Narrowed.deactivate v s).tokens.trans h.tokens
  active t ht := by
    obtain ⟨ht, hne⟩ := List.mem_filter.mp ht
    have hact : isActive v.drafts t = true := h.active t ht
    rw [show ((v.deactivate s).erase s).drafts = v.drafts.modify s (fun d => { d with active := false }) from rfl,
      isActive_modify, hact]
    simpa using hne
  was t ht := by
    rw [show ((v.deactivate s).erase s).drafts = v.drafts.modify s (fun d => { d with active := false }) from rfl,
      isActive_modify, Bool.and_eq_true] at ht
    exact h.was t ht.1

/-- With distinct tokens there is nobody to synchronize with. -/
theorem Tracking.synchronize_drafts (h : Tracking drafts v) (hd : DistinctTokens drafts) (hs : s ∈ activeSeqs drafts)
    (hlen : i < (tokensOf drafts s).length) : (v.synchronize s i).drafts = v.drafts := by
  unfold Verification.synchronize
  apply List.ext_getElem?
  intro k
  rw [List.getElem?_mapIdx]
  cases hk : v.drafts[k]? with
  | none => rfl
  | some d =>
      rw [Option.map_some, if_neg]
      rintro ⟨hks, hact, htok⟩
      have hkact : k ∈ activeSeqs drafts := by
        apply h.was
        rw [isActive, hk, Option.map_some]
        exact hact
      have hdtok : d.tokens = tokensOf drafts k := by
        rw [← h.tokens_eq, Verification.tokens, tokensOf, List.getElem?_map, hk]
        rfl
      rw [hdtok, h.tokens_eq] at htok
      have hx := List.getElem?_eq_getElem hlen
      exact hd s hs k hkact (Ne.symm hks) i _ hx (htok.trans hx)

theorem Tracking.pass (hd : DistinctTokens drafts) (h : Tracking drafts v) {p : Pass} (hp : PassFrom i v p) :
    Tracking drafts p.after := by
  cases hp with
  | dropped s hs hlen =>
      exact (show Tracking drafts { v with drawn := v.drawn + 1 } from ⟨h.tokens, h.active, h.was⟩).remove s
  | accepted s draw hs hlen hacc => exact ⟨h.tokens, h.active, h.was⟩
  | rejected s draw hs hlen hacc =>
      have hsact : s ∈ activeSeqs drafts := h.was s (h.active s hs)
      rw [h.tokens_eq] at hlen
      have hfacing : Tracking drafts ((v.facing s i).moveToResidual s i) := ⟨h.tokens, h.active, h.was⟩
      have hrem := hfacing.remove s
      have hsync := hrem.synchronize_drafts (i := i) hd hsact hlen
      have hdrafts : ((v.facing s i).reject s i).drafts =
        ((((v.facing s i).moveToResidual s i).deactivate s).erase s).drafts :=
        hsync
      refine ⟨hdrafts ▸ hrem.tokens, fun t ht => ?_, fun t ht => hrem.was t (hdrafts ▸ ht)⟩
      rw [hdrafts]
      exact hrem.active t (List.mem_of_mem_filter ht)

theorem Tracking.synchronized (hd : DistinctTokens drafts) (h : Tracking drafts v) (draws : Nat → Draw) (fuel : Nat) :
    Synchronized i (passes draws i fuel v) := by
  have hrule := passes_rule draws (i := i) (I := Tracking drafts) (fun u p hu hp _ => hu.pass hd hp) fuel v h
  -- a pass that tests has a token, and it is that of an active sequence
  have htest : ∀ p ∈ passes draws i fuel v, p.tested = true →
      p.seq ∈ activeSeqs drafts ∧ (tokensOf drafts p.seq)[i]? = some (p.token i) := by
    intro p hp ht
    obtain ⟨u, hu, hfrom⟩ := hrule p hp
    have hseq := hu.was _ (hu.active _ hfrom.seq_mem)
    cases hfrom with
    | dropped s hs hlen => cases ht
    | accepted s draw hs hlen hacc | rejected s draw hs hlen hacc =>
        refine ⟨hseq, ?_⟩
        rw [hu.tokens_eq] at hlen
        rw [List.getElem?_eq_getElem hlen, Pass.token, show (u.facing s i).tokens s = u.tokens s from rfl, hu.tokens_eq,
          List.getD_eq_getElem _ _ hlen]
  refine ⟨?_, fun p hp hrej t ht htok => ?_, fun p hp t ht => ?_⟩
  · have hnd := (passes_seq_nodup draws i fuel v).sublist (List.Sublist.map Pass.seq (List.filter_sublist (p := Pass.tested)))
    rw [List.Nodup, List.pairwise_map] at hnd ⊢
    refine hnd.imp_of_mem fun {p q} hp hq hne heq => ?_
    obtain ⟨hp, hpt⟩ := List.mem_filter.mp hp
    obtain ⟨hq, hqt⟩ := List.mem_filter.mp hq
    have hp' := htest p hp hpt
    have hq' := htest q hq hqt
    exact hd _ hp'.1 _ hq'.1 hne i _ hp'.2 (heq ▸ hq'.2)
  · rw [Pass.rejected, Bool.and_eq_true, Bool.not_eq_true'] at hrej
    obtain ⟨u, hu, hfrom⟩ := hrule p hp
    have hafter := hu.pass hd hfrom
    have hp' := htest p hp hrej.1
    have hne : p.seq ≠ t := fun hc => hfrom.seq_notMem hrej.2 (hc ▸ ht)
    rw [hafter.tokens_eq] at htok
    exact hd _ hp'.1 t (hafter.was t (hafter.active t ht)) hne i _ hp'.2 htok
  · obtain ⟨u, hu, hfrom⟩ := hrule p hp
    exact (hu.pass hd hfrom).active t ht

end Tracking

/-! ## Two sequences with the same token -/

/-- The target wants the tokens of `s` up to `j`, and there another one. -/
def refuseTarget (drafts : List SeqDraft) (s j : Nat) (acc : List Token) (_ : Nat) : List Candidate :=
  if acc.length < j then pointMass ((tokensOf drafts s).getD acc.length 0)
  else pointMass ((tokensOf drafts s).getD j 0 + 1)

/-- The draws always pick `s`. -/
def stayDraws (drafts : List SeqDraft) (s j : Nat) (n : Nat) : Draw :=
  ⟨(activeSeqs drafts).idxOf s, if n < j then 0 else 1, by split <;> simp, by split <;> simp⟩

section Refuse
variable {drafts : List SeqDraft} {s j : Nat}

theorem picked_stayDraws (hs : s ∈ activeSeqs drafts) {v : Verification} (hv : v.activeSeqs = activeSeqs drafts) (n : Nat) :
    v.picked (stayDraws drafts s j n) = s := by
  have hidx : (activeSeqs drafts).idxOf s < (activeSeqs drafts).length := List.idxOf_lt_length_of_mem hs
  rw [Verification.picked, hv]
  dsimp only [stayDraws]
  rw [Nat.mod_eq_of_lt hidx, List.getD_eq_getElem _ _ hidx, List.getElem_idxOf hidx]

/-- The state of such a round at position `i`, up to its target row. -/
structure Staying (drafts : List SeqDraft) (i : Nat) (v : Verification) : Prop where
  drafts_eq : v.drafts = drafts
  dists_eq : v.dists = sureDists drafts
  activeSeqs_eq : v.activeSeqs = activeSeqs drafts
  drawn_eq : v.drawn = i

theorem Staying.accept (hs : s ∈ activeSeqs drafts) (hj : j < (tokensOf drafts s).length) {i : Nat} (hi : i < j)
    {v : Verification} (hv : Staying drafts i v) (htgt : v.distTgt = pointMass ((tokensOf drafts s).getD i 0)) :
    verifyPosition (stayDraws drafts s j) i v.activeSeqs.length v = (some s, v.facing s i) := by
  obtain ⟨n, hn⟩ : ∃ n, v.activeSeqs.length = n + 1 := by
    have := List.length_pos_of_mem (hv.activeSeqs_eq ▸ hs)
    exact ⟨v.activeSeqs.length - 1, by omega⟩
  have hne : v.activeSeqs ≠ [] := List.ne_nil_of_length_pos (by omega)
  have htok : v.tokens s = tokensOf drafts s := by rw [Verification.tokens, hv.drafts_eq]
  rw [hn, verifyPosition_succ, if_neg hne, picked_stayDraws hs hv.activeSeqs_eq, if_neg, if_pos]
  · rw [Verification.facing, Verification.lookup]
    dsimp only
    rw [show Verification.tokens { v with drawn := v.drawn + 1 } s = v.tokens s from rfl, htok, htgt, hv.dists_eq,
      sureDists]
    simp [probOf, pointMass, acceptTest, stayDraws, hv.drawn_eq, hi]
  · rw [htok]
    omega

theorem exists_refusing (hs : s ∈ activeSeqs drafts) (hj : j < (tokensOf drafts s).length) :
    ∀ (fuel i sKeep : Nat) (acc : List Acceptance) (v : Verification), i ≤ j → j < i + fuel → acc.length = i →
      Staying drafts i v → ∃ w, (j, w) ∈ positions (refuseTarget drafts s j) (stayDraws drafts s j) fuel i sKeep acc v ∧
        Staying drafts j w ∧ w.distTgt = pointMass ((tokensOf drafts s).getD j 0 + 1) ∧ w.pTgt = 0
  | 0, i, sKeep, acc, v, hi, hfuel, _, _ => by omega
  | fuel + 1, i, sKeep, acc, v, hi, hfuel, hacc, hv => by
    have hv' : Staying drafts i (v.enter (refuseTarget drafts s j) i sKeep acc) :=
      ⟨hv.drafts_eq, hv.dists_eq, hv.activeSeqs_eq, hv.drawn_eq⟩
    rw [positions]
    rcases Nat.lt_or_ge i j with hlt | hge
    · have htgt : (v.enter (refuseTarget drafts s j) i sKeep acc).distTgt = pointMass ((tokensOf drafts s).getD i 0) := by
        dsimp only [Verification.enter, refuseTarget]
        rw [List.length_map, hacc, if_pos hlt]
      rw [hv'.accept hs hj hlt htgt]
      dsimp only
      obtain ⟨w, hw, hrest⟩ := exists_refusing hs hj fuel (i + 1) s
        (acc ++ [⟨s, i, (((v.enter (refuseTarget drafts s j) i sKeep acc).facing s i).tokens s).getD i 0⟩])
        ((v.enter (refuseTarget drafts s j) i sKeep acc).facing s i) hlt (by omega) (by simp [hacc])
        ⟨hv.drafts_eq, hv.dists_eq, hv.activeSeqs_eq, congrArg (· + 1) hv.drawn_eq⟩
      exact ⟨w, List.mem_cons_of_mem _ hw, hrest⟩
    · obtain rfl : i = j := by omega
      refine ⟨_, List.mem_cons_self, hv', ?_, rfl⟩
      dsimp only [Verification.enter, refuseTarget]
      rw [List.length_map, hacc, if_neg (Nat.lt_irrefl _)]

/-- A sequence with the rejected token is deactivated, and stays in `active_seqs`. -/
theorem Staying.not_synchronized {t : Nat} (hs : s ∈ activeSeqs drafts) (ht : t ∈ activeSeqs drafts) (hst : s ≠ t)
    (hj : j < (tokensOf drafts s).length) (htok : (tokensOf drafts t)[j]? = (tokensOf drafts s)[j]?) {v : Verification}
    (hv : Staying drafts j v) (htgt : v.distTgt = pointMass ((tokensOf drafts s).getD j 0 + 1)) (hp : v.pTgt = 0) :
    ¬ Synchronized j (passes (stayDraws drafts s j) j v.activeSeqs.length v) := by
  intro hsync
  obtain ⟨n, hn⟩ : ∃ n, v.activeSeqs.length = n + 1 := by
    have := List.length_pos_of_mem (hv.activeSeqs_eq ▸ hs)
    exact ⟨v.activeSeqs.length - 1, by omega⟩
  have hne : v.activeSeqs ≠ [] := List.ne_nil_of_length_pos (by omega)
  have hvtok : v.tokens s = tokensOf drafts s := by rw [Verification.tokens, hv.drafts_eq]
  have htest : acceptTest (stayDraws drafts s j v.drawn).r (v.facing s j).pTgt (v.facing s j).pDft = false := by
    rw [Verification.facing, Verification.lookup]
    dsimp only
    rw [show Verification.tokens { v with drawn := v.drawn + 1 } s = v.tokens s from rfl, hvtok, htgt, hv.dists_eq,
      sureDists, hp]
    simp [probOf, pointMass, acceptTest, stayDraws, hv.drawn_eq]
  have hmem : (⟨s, true, false, v.facing s j, (v.facing s j).reject s j⟩ : Pass) ∈
      passes (stayDraws drafts s j) j v.activeSeqs.length v := by
    rw [hn, passes, if_neg hne]
    dsimp only
    rw [picked_stayDraws hs hv.activeSeqs_eq, if_neg (by rw [hvtok]; omega), htest]
    exact List.mem_cons_self
  have hin : t ∈ ((v.facing s j).reject s j).activeSeqs := by
    rw [Verification.activeSeqs_reject, List.mem_filter]
    refine ⟨?_, by simpa using Ne.symm hst⟩
    rw [show (v.facing s j).activeSeqs = v.activeSeqs from rfl, hv.activeSeqs_eq]
    exact ht
  have hact := hsync.active _ hmem t hin
  have htact : isActive drafts t = true := mem_activeSeqs.mp ht
  -- the entry of `t` behind the synchronization
  rw [isActive, Option.map_eq_some_iff.mpr] at hact
  · exact absurd hact Bool.false_ne_true
  · rw [isActive] at htact
    cases hd : drafts[t]? with
    | none =>
        rw [hd] at htact
        cases htact
    | some d =>
        refine ⟨{ d with active := false }, ?_, rfl⟩
        rw [hd] at htact
        have hdtok : d.tokens[j]? = (tokensOf drafts t)[j]? := by rw [tokensOf, List.getElem?_map, hd]; rfl
        have hwtok : Verification.tokens ((((v.facing s j).deactivate s).moveToResidual s j).erase s) s =
          tokensOf drafts s := by
          rw [← hvtok]
          exact (Narrowed.deactivate v s).tokens_eq s
        rw [show ((v.facing s j).reject s j).drafts =
          (((((v.facing s j).deactivate s).moveToResidual s j).erase s).synchronize s j).drafts from rfl,
          Verification.synchronize, List.getElem?_mapIdx, hwtok,
          show ((((v.facing s j).deactivate s).moveToResidual s j).erase s).drafts =
            v.drafts.modify s (fun d => { d with active := false }) from rfl,
          List.getElem?_modify, hv.drafts_eq, hd, Option.map_eq_map, Option.map_some, if_neg hst, Option.map_some,
          if_pos ⟨Ne.symm hst, htact, hdtok.trans htok⟩]

/-- Such a round exists for any two active sequences with the same token. -/
theorem not_synchronized_of_shared {t : Nat} (hs : s ∈ activeSeqs drafts) (ht : t ∈ activeSeqs drafts) (hst : s ≠ t)
    (hj : j < (tokensOf drafts s).length) (htok : (tokensOf drafts t)[j]? = (tokensOf drafts s)[j]?) :
    ¬ ∀ (target : List Token → Nat → List Candidate) (dists : Nat → Nat → List Candidate) (draws : Nat → Draw),
        (∀ acc row, IsDist (target acc row)) → (∀ s i, IsDist (dists s i)) →
        ∀ q ∈ roundPositions target dists draws drafts,
          Synchronized q.1 (passes draws q.1 q.2.activeSeqs.length q.2) := by
  intro h
  obtain ⟨w, hw, hstay, htgt, hp⟩ := exists_refusing hs hj (roundFuel drafts) 0 0 []
    { drafts := drafts, dists := sureDists drafts, activeSeqs := activeSeqs drafts } (Nat.zero_le j)
    (by have := length_tokensOf_lt drafts s; omega) rfl ⟨rfl, rfl, rfl, rfl⟩
  refine hstay.not_synchronized hs ht hst hj htok htgt hp (h _ _ _ (fun acc row => ?_) (fun _ _ => ?_) _ hw)
  · rw [refuseTarget]
    split
    · exact isDist_pointMass _
    · exact isDist_pointMass _
  · exact isDist_pointMass _

end Refuse

/-- **A round treats every token once, whatever the distributions and the draws, exactly if no two active sequences have the
same token at the same index.** The loop behind a rejection erases the rejected sequence once more, and not the sequences it
deactivates. -/
theorem synchronized_iff (drafts : List SeqDraft) :
    (∀ (target : List Token → Nat → List Candidate) (dists : Nat → Nat → List Candidate) (draws : Nat → Draw),
        (∀ acc row, IsDist (target acc row)) → (∀ s i, IsDist (dists s i)) →
        ∀ q ∈ roundPositions target dists draws drafts,
          Synchronized q.1 (passes draws q.1 q.2.activeSeqs.length q.2)) ↔ DistinctTokens drafts := by
  constructor
  · intro h s hs t ht hst j x hx hxt
    have hj : j < (tokensOf drafts s).length := (List.getElem?_eq_some_iff.mp hx).1
    exact not_synchronized_of_shared hs ht hst hj (hxt.trans hx.symm) h
  · intro hd target dists draws _ _ q hq
    have hstart : Tracking drafts { drafts := drafts, dists := dists, activeSeqs := activeSeqs drafts } :=
      ⟨rfl, fun s hs => mem_activeSeqs.mp hs, fun s hs => mem_activeSeqs.mpr hs⟩
    have htrack := positions_rule (I := Tracking drafts) (fun u i sKeep acc hu => ⟨hu.tokens, hu.active, hu.was⟩)
      (fun i u p hu hp => hu.pass hd hp) (roundFuel drafts) 0 0 [] _ hstart q hq
    exact htrack.synchronized hd draws _

/-- Two branches that start with the same token. -/
def sharedDrafts : List SeqDraft := [⟨true, [1, 2], [0, 1, 2]⟩, ⟨true, [1, 3], [0, 1, 3]⟩]

/-- The first branch is rejected; the second is deactivated with it, and is picked and tested nevertheless. -/
theorem sharedDrafts_not_synchronized :
    ¬ ∀ (target : List Token → Nat → List Candidate) (dists : Nat → Nat → List Candidate) (draws : Nat → Draw),
        (∀ acc row, IsDist (target acc row)) → (∀ s i, IsDist (dists s i)) →
        ∀ q ∈ roundPositions target dists draws sharedDrafts,
          Synchronized q.1 (passes draws q.1 q.2.activeSeqs.length q.2) :=
  not_synchronized_of_shared (s := 0) (t := 1) (j := 0) (by decide) (by decide) (by decide) (by decide) rfl

end S2Moe.Spec
