import S2Moe.Draft.TargetBatch

/-!
# The rows that the drafters leave are chains

* `Original`, `draftTreeOriginal_spec` : between two turns of `draft_tree_original` every sequence in use has one row for
each turn and one for the sampled token;
* `Proposing`, `Selecting`, `Turned`, `draftTreePrune_spec` : the same for `draft_tree_prune`, where a candidate first
waits for its selection;
* `WellFormed`, `wellFormed_draftTree` : behind either drafter the rows of each active sequence are its tokens, one after
the other.
-/

namespace S2Moe.Draft.Target
open S2Moe.Lib
open S2Moe.Spec (Candidate Token)

/-! ## `draft_tree_original` keeps the chains -/

/-- Every sequence in use has `i + 1` rows, and those of `done` have one more. -/
def statusOriginal (i n : Nat) (done : Nat → Bool) (s : Nat) : Status :=
  if s < n then .live true (if done s then i + 2 else i + 1) none else .fresh

/-- In turn `i`. -/
structure Original (cfg : Config) (i : Nat) (done : Nat → Bool) (t : Drafting) : Prop where
  inv : Inv cfg.nPastTgt t (statusOriginal i t.nSeqCur done)
  bound : t.nSeqCur ≤ cfg.nSeqDft
  active : ∀ s, (t.drafts s).active = true ↔ s < t.nSeqCur
  drafting : ∀ s, (t.drafts s).drafting = true ↔ s < t.nSeqCur
  done_lt : ∀ s, done s = true → s < t.nSeqCur

theorem splitsOriginal_spec (cfg : Config) (i : Nat) (c : Candidates) (s : Nat) (done : Nat → Bool)
    (hdone : done s = false) : ∀ (fs : List Nat) (t : Drafting) (sa : List Nat), Original cfg i done t → s < t.nSeqCur →
      ∃ m, (splitsOriginal cfg c s fs t sa).2 = sa ++ List.range' t.nSeqCur m ∧
        (splitsOriginal cfg c s fs t sa).1.nSeqCur = t.nSeqCur + m ∧
        Original cfg i done (splitsOriginal cfg c s fs t sa).1 ∧
        ∀ k, ((splitsOriginal cfg c s fs t sa).1.drafts k).skip = true ↔
          (t.nSeqCur ≤ k ∧ k < t.nSeqCur + m) ∨ (t.drafts k).skip = true
  | [], t, sa, h, hs => ⟨0, by simp [splitsOriginal], rfl, h, fun k => by simp only [splitsOriginal]; grind⟩
  | f :: fs, t, sa, h, hs => by
    rw [splitsOriginal]
    split
    case isFalse => exact ⟨0, by simp, rfl, h, fun k => by grind⟩
    case isTrue hlt =>
      have hst : statusOriginal i t.nSeqCur done s = .live true (i + 1) none := by simp [statusOriginal, hs, hdone]
      have hnew : statusOriginal i t.nSeqCur done t.nSeqCur = .fresh := by simp [statusOriginal]
      have hsplit : Original cfg i done (t.splitOriginal s) :=
        { inv := by
            convert h.inv.splitOriginal hst hnew using 1
            funext k
            have hnd : done t.nSeqCur = false := Bool.eq_false_iff.mpr fun hd => absurd (h.done_lt _ hd) (lt_irrefl _)
            by_cases hk : k = t.nSeqCur
            · subst hk
              simp [statusOriginal, Drafting.splitOriginal, Drafting.copyDraft, hnd]
            · rw [Function.update_of_ne hk]
              have : k < t.nSeqCur + 1 ↔ k < t.nSeqCur := by omega
              simp [statusOriginal, Drafting.splitOriginal, Drafting.copyDraft, this]
          bound := hlt.1
          active := fun k => by
            by_cases hk : k = t.nSeqCur
            · simp [Drafting.splitOriginal, Drafting.copyDraft, hk]
            · simp only [Drafting.splitOriginal, Drafting.copyDraft, Function.update_of_ne hk, h.active k]
              omega
          drafting := fun k => by
            by_cases hk : k = t.nSeqCur
            · simp [Drafting.splitOriginal, Drafting.copyDraft, hk]
            · simp only [Drafting.splitOriginal, Drafting.copyDraft, Function.update_of_ne hk, h.drafting k]
              omega
          done_lt := fun k hk => Nat.lt_succ_of_lt (h.done_lt k hk) }
      obtain ⟨m, hsa, hn, hor, hskip⟩ := splitsOriginal_spec cfg i c s done hdone fs (t.splitOriginal s)
        (sa ++ [t.nSeqCur]) hsplit (Nat.lt_succ_of_lt hs)
      have hcur : (t.splitOriginal s).nSeqCur = t.nSeqCur + 1 := rfl
      refine ⟨m + 1, ?_, ?_, hor, fun k => ?_⟩
      · rw [hsa, hcur, List.range'_succ, List.append_assoc]
        rfl
      · rw [hn, hcur]
        omega
      · rw [hskip k, hcur]
        by_cases hk : k = t.nSeqCur
        · subst hk
          simp [Drafting.splitOriginal, Drafting.copyDraft]
        · simp only [Drafting.splitOriginal, Drafting.copyDraft, Function.update_of_ne hk]
          grind

/-- The flags are those of `t`. -/
def SameFlags (t t' : Drafting) : Prop :=
  t'.nSeqCur = t.nSeqCur ∧ ∀ s, (t'.drafts s).active = (t.drafts s).active ∧ (t'.drafts s).drafting = (t.drafts s).drafting ∧
    (t'.drafts s).skip = (t.drafts s).skip

theorem SameFlags.trans {t t' t'' : Drafting} (h : SameFlags t t') (h' : SameFlags t' t'') : SameFlags t t'' :=
  ⟨h'.1.trans h.1, fun s => ⟨(h'.2 s).1.trans (h.2 s).1, (h'.2 s).2.1.trans (h.2 s).2.1, (h'.2 s).2.2.trans (h.2 s).2.2⟩⟩

theorem sameFlags_of_update {t t' : Drafting} {s : Nat} {d : SeqDraft} (hn : t'.nSeqCur = t.nSeqCur)
    (ht : t'.drafts = Function.update t.drafts s d) (hd : d.active = (t.drafts s).active)
    (hg : d.drafting = (t.drafts s).drafting) (hp : d.skip = (t.drafts s).skip) : SameFlags t t' := by
  refine ⟨hn, fun k => ?_⟩
  by_cases hk : k = s
  · subst hk
    simp [ht, hd, hg, hp]
  · simp [ht, hk]

theorem sameFlags_propose (t : Drafting) (c : Candidates) (s k : Nat) : SameFlags t (t.propose c s k) :=
  sameFlags_of_update rfl rfl rfl rfl rfl

theorem sameFlags_commit (t : Drafting) (s : Nat) (x : Token) (pos : Int) : SameFlags t (t.commit s x pos) :=
  sameFlags_of_update rfl rfl rfl rfl rfl

theorem addOriginal_spec (cfg : Config) (i : Nat) (c : Candidates) : ∀ (sa : List Nat) (k : Nat) (t : Drafting)
    (done : Nat → Bool), Original cfg i done t → sa.Nodup → (∀ s ∈ sa, s < t.nSeqCur ∧ done s = false) →
      Original cfg i (fun s => done s || decide (s ∈ sa)) (addOriginal cfg i c sa k t) ∧
        SameFlags t (addOriginal cfg i c sa k t)
  | [], k, t, done, h, _, _ => by
    refine ⟨?_, rfl, fun s => ⟨rfl, rfl, rfl⟩⟩
    simpa [addOriginal] using h
  | s :: sa, k, t, done, h, hnd, hsa => by
    rw [addOriginal]
    obtain ⟨hs, hds⟩ := hsa s List.mem_cons_self
    have hst : statusOriginal i t.nSeqCur done s = .live true (i + 1) none := by simp [statusOriginal, hs, hds]
    have hflags : SameFlags t ((t.propose c s k).commit s (c.data k).id (cfg.nPastTgt + i + 1)) :=
      (sameFlags_propose t c s k).trans (sameFlags_commit _ _ _ _)
    generalize ht' : (t.propose c s k).commit s (c.data k).id (cfg.nPastTgt + i + 1) = t' at hflags ⊢
    have hor : Original cfg i (fun m => done m || decide (m = s)) t' :=
      { inv := by
          have := (h.inv.propose c k hst).commit (Function.update_self _ _ _)
          rw [Function.update_idem, Nat.cast_add, Nat.cast_one, ← add_assoc, ht'] at this
          convert this using 1
          funext m
          by_cases hm : m = s
          · subst hm
            simp [statusOriginal, hflags.1, hs]
          · simp [statusOriginal, hflags.1, hm]
        bound := hflags.1.trans_le h.bound
        active := fun m => by rw [(hflags.2 m).1, h.active, hflags.1]
        drafting := fun m => by rw [(hflags.2 m).2.1, h.drafting, hflags.1]
        done_lt := fun m hm => by
          rw [hflags.1]
          rcases Bool.or_eq_true_iff.mp hm with hm | hm
          · exact h.done_lt m hm
          · exact of_decide_eq_true hm ▸ hs }
    rw [List.nodup_cons] at hnd
    obtain ⟨hor', hflags'⟩ := addOriginal_spec cfg i c sa (k + 1) t'
      (fun m => done m || decide (m = s)) hor hnd.2 fun m hm => by
      obtain ⟨hlt, hdm⟩ := hsa m (List.mem_cons_of_mem _ hm)
      have hne : m ≠ s := fun hms => hnd.1 (hms ▸ hm)
      exact ⟨hflags.1 ▸ hlt, by simp [hdm, hne]⟩
    refine ⟨?_, hflags.trans hflags'⟩
    simpa [Bool.or_assoc] using hor'

/-- The sequences before `k`, and those that were split off, have their token. -/
def doneBefore (t : Drafting) (k s : Nat) : Bool := decide (s < t.nSeqCur) && (decide (s < k) || (t.drafts s).skip)

/-- One turn of the loop over `s`. -/
theorem draftSeqOriginal_spec {cfg : Config} {i k : Nat} (cands : Nat → Candidates) {t : Drafting}
    (h : Original cfg i (doneBefore t k) t) :
    Original cfg i (doneBefore (draftSeqOriginal cfg i cands t k) (k + 1)) (draftSeqOriginal cfg i cands t k) := by
  rw [draftSeqOriginal]
  split
  case isFalse hno =>
    -- a sequence that is skipped has its token, and one that is not drafting is not in use
    have heq : doneBefore t (k + 1) = doneBefore t k := by
      funext s
      rw [h.drafting] at hno
      simp only [doneBefore]
      grind
    rw [heq]
    exact h
  case isTrue hyes =>
    have hk : k < t.nSeqCur := (h.drafting k).mp hyes.1
    have hdk : doneBefore t k k = false := by simpa [doneBefore] using fun _ => hyes.2
    obtain ⟨m, hsa, hn, hor, hskip⟩ := splitsOriginal_spec cfg i (cands k) k _ hdk [1, 2, 3, 4, 5, 6, 7] t [k] h hk
    generalize hr : splitsOriginal cfg (cands k) k [1, 2, 3, 4, 5, 6, 7] t [k] = r at hsa hn hor hskip
    have hnd : r.2.Nodup := by
      rw [hsa]
      refine List.nodup_append.mpr ⟨by simp, List.nodup_range', ?_⟩
      intro a ha b hb
      rw [List.mem_singleton] at ha
      rw [List.mem_range'_1] at hb
      omega
    have hmem : ∀ s, s ∈ r.2 ↔ s = k ∨ t.nSeqCur ≤ s ∧ s < t.nSeqCur + m := by
      intro s
      rw [hsa]
      simp [List.mem_range'_1]
    obtain ⟨hadd, hflags⟩ := addOriginal_spec cfg i (cands k) r.2 0 r.1 _ hor hnd fun s hs => by
      rcases (hmem s).mp hs with rfl | hs
      · exact ⟨by omega, hdk⟩
      · exact ⟨by omega, by simp only [doneBefore, Bool.and_eq_false_iff, decide_eq_false_iff_not]; omega⟩
    convert hadd using 1
    funext s
    simp only [doneBefore, hflags.1, (hflags.2 s).2.2, hn, hmem s]
    have hskip := hskip s
    rw [Bool.eq_iff_iff]
    simp only [Bool.and_eq_true, Bool.or_eq_true, decide_eq_true_eq, hskip]
    grind

theorem Original.startTurn {cfg : Config} {i : Nat} {t : Drafting} (h : Original cfg i (fun _ => false) t) :
    Original cfg i (doneBefore t.startTurn 0) t.startTurn where
  inv := by
    have heq : statusOriginal i t.nSeqCur (fun _ => false) = statusOriginal i t.startTurn.nSeqCur
      (doneBefore t.startTurn 0) := by
      funext s
      simp [statusOriginal, doneBefore, Drafting.startTurn]
    exact heq ▸ h.inv.congr rfl fun s => ⟨rfl, rfl, rfl⟩
  bound := h.bound
  active := h.active
  drafting := h.drafting
  done_lt s hs := of_decide_eq_true (Bool.and_eq_true_iff.mp hs).1

/-- **A turn gives every sequence in use one more row.** -/
theorem turnOriginal_spec {cfg : Config} {i : Nat} (cands : Nat → Candidates) {t : Drafting}
    (h : Original cfg i (fun _ => false) t) : Original cfg (i + 1) (fun _ => false) (turnOriginal cfg i cands t) := by
  have hturn := foldl_range_rule (P := fun k t => Original cfg i (doneBefore t k) t) h.startTurn cfg.nSeqDft
    fun k _ t ht => draftSeqOriginal_spec cands ht
  change Original cfg i (doneBefore (turnOriginal cfg i cands t) cfg.nSeqDft) (turnOriginal cfg i cands t) at hturn
  exact
    { inv := by
        convert hturn.inv using 1
        funext s
        by_cases hs : s < (turnOriginal cfg i cands t).nSeqCur
        · have := hturn.bound
          have hlt : s < cfg.nSeqDft := by omega
          simp [statusOriginal, doneBefore, hs, hlt]
        · simp [statusOriginal, hs]
      bound := hturn.bound
      active := hturn.active
      drafting := hturn.drafting
      done_lt := fun s hs => absurd hs (by simp) }

/-- **However many turns there are, every sequence in use keeps its chain.** -/
theorem draftTreeOriginal_spec {cfg : Config} (oracle : Nat → Nat → Candidates) : ∀ (n i : Nat) (t : Drafting),
    Original cfg i (fun _ => false) t → ∃ i', Original cfg i' (fun _ => false) (draftTreeOriginal cfg oracle n i t)
  | 0, i, t, h => ⟨i, h⟩
  | n + 1, i, t, h => by
    rw [draftTreeOriginal]
    have hturn := turnOriginal_spec (oracle i) h
    split
    · exact ⟨i + 1, hturn⟩
    · exact draftTreeOriginal_spec oracle n (i + 1) _ hturn

/-! ## `draft_tree_prune` keeps the chains -/

/-- The branches of a sequence get its chain, which the rows do not show yet. -/
theorem splitsPrune_spec (cfg : Config) {nPast : Int} (c : Candidates) {s l : Nat} : ∀ (fs : List Nat) (t : Drafting)
    (sa : List Nat) (st : Nat → Status), Inv nPast t st → st s = .live true l none → (∀ n, t.nSeqCur ≤ n → st n = .fresh) →
      ∃ m, (splitsPrune cfg c s fs t sa).2 = sa ++ List.range' t.nSeqCur m ∧
        (splitsPrune cfg c s fs t sa).1.nSeqCur = t.nSeqCur + m ∧
        (splitsPrune cfg c s fs t sa).1.nBatchDft = t.nBatchDft ∧
        Inv nPast (splitsPrune cfg c s fs t sa).1
          (fun k => if t.nSeqCur ≤ k ∧ k < t.nSeqCur + m then .live false l none else st k) ∧
        ∀ k, ((t.nSeqCur ≤ k ∧ k < t.nSeqCur + m) → ((splitsPrune cfg c s fs t sa).1.drafts k).skip = true) ∧
          (¬ (t.nSeqCur ≤ k ∧ k < t.nSeqCur + m) → (splitsPrune cfg c s fs t sa).1.drafts k = t.drafts k)
  | [], t, sa, st, h, hs, hn => by
    have hno : ∀ k, ¬ (t.nSeqCur ≤ k ∧ k < t.nSeqCur + 0) := fun k => by omega
    refine ⟨0, by simp [splitsPrune], rfl, rfl, ?_, fun k => ⟨fun hk => absurd hk (hno k), fun _ => rfl⟩⟩
    simpa only [hno, if_false, splitsPrune] using h
  | f :: fs, t, sa, st, h, hs, hn => by
    rw [splitsPrune]
    split
    case isFalse => exact splitsPrune_spec cfg c fs t sa st h hs hn
    case isTrue =>
      have hne : s ≠ t.nSeqCur := by
        rintro rfl
        rw [hn _ le_rfl] at hs
        cases hs
      obtain ⟨m, hsa, hcur, hdft, hinv, hk⟩ := splitsPrune_spec cfg c fs (t.copyDraft s) (sa ++ [t.nSeqCur])
        (Function.update st t.nSeqCur (.live false l none)) (h.copyDraft hs (hn _ le_rfl))
        (by rw [Function.update_of_ne hne]; exact hs) (fun n hle => by
          have hlt : t.nSeqCur < n := hle
          rw [Function.update_of_ne (Nat.ne_of_gt hlt)]
          exact hn n hlt.le)
      have hone : (t.copyDraft s).nSeqCur = t.nSeqCur + 1 := rfl
      rw [hone] at hsa hcur hinv hk
      refine ⟨m + 1, ?_, ?_, hdft, ?_, fun k => ?_⟩
      · rw [hsa, List.range'_succ, List.append_assoc]
        rfl
      · omega
      · convert hinv using 1
        funext k
        by_cases hk : k = t.nSeqCur
        · subst hk
          simp
        · rw [Function.update_of_ne hk]
          have : t.nSeqCur ≤ k ∧ k < t.nSeqCur + (m + 1) ↔ t.nSeqCur + 1 ≤ k ∧ k < t.nSeqCur + 1 + m := by omega
          simp only [this]
      · by_cases hkn : k = t.nSeqCur
        · subst hkn
          refine ⟨fun _ => ?_, fun hno => absurd (by omega) hno⟩
          rw [(hk _).2 (by omega)]
          simp [Drafting.copyDraft]
        · refine ⟨fun hin => (hk k).1 (by omega), fun hno => ?_⟩
          rw [(hk k).2 (by omega)]
          simp [Drafting.copyDraft, hkn]

/-- Each of the sequences gets a token, and becomes a candidate with it. -/
theorem addPrune_spec {nPast : Int} (step parent : Nat) (c : Candidates) {l : Nat} (own : Nat → Bool) : ∀ (sa : List Nat)
    (k : Nat) (t : Drafting) (cs : List Cand) (st : Nat → Status), Inv nPast t st → sa.Nodup →
      (∀ s ∈ sa, st s = .live (own s) l none) →
      ∃ st' new, (addPrune step parent c sa k (t, cs)).2 = cs ++ new ∧ new.map Cand.seq = sa ∧
        Inv nPast (addPrune step parent c sa k (t, cs)).1 st' ∧ (∀ s, s ∉ sa → st' s = st s) ∧
        (∀ q ∈ new, st' q.seq = .live (own q.seq) l (some q.id) ∧ q.newSeq = decide (q.seq ≠ parent)) ∧
        SameFlags t (addPrune step parent c sa k (t, cs)).1 ∧
        (addPrune step parent c sa k (t, cs)).1.nBatchDft = t.nBatchDft + sa.length
  | [], k, t, cs, st, h, _, _ =>
    ⟨st, [], by simp [addPrune], rfl, h, fun _ _ => rfl, by simp, ⟨rfl, fun _ => ⟨rfl, rfl, rfl⟩⟩, rfl⟩
  | s :: sa, k, t, cs, st, h, hnd, hsa => by
    rw [List.nodup_cons] at hnd
    have hs := hsa s List.mem_cons_self
    obtain ⟨st', new, hcs, hseq, hinv, hst, hnew, hflags, hdft⟩ := addPrune_spec step parent c own sa (k + 1)
      (t.propose c s k) (cs ++ [⟨s, decide (s ≠ parent), (c.data k).id, step + 1⟩]) _ (h.propose c k hs) hnd.2
      (fun m hm => by
        have hne : m ≠ s := fun hms => hnd.1 (hms ▸ hm)
        rw [Function.update_of_ne hne]
        exact hsa m (List.mem_cons_of_mem _ hm))
    refine ⟨st', ⟨s, decide (s ≠ parent), (c.data k).id, step + 1⟩ :: new, ?_, ?_, hinv, ?_, ?_, ?_, ?_⟩
    · rw [addPrune, hcs, List.append_assoc]
      rfl
    · rw [List.map_cons, hseq]
    · intro m hm
      rw [List.mem_cons, not_or] at hm
      rw [hst m hm.2, Function.update_of_ne hm.1]
    · intro q hq
      rcases List.mem_cons.mp hq with rfl | hq
      · refine ⟨?_, rfl⟩
        rw [hst s hnd.1, Function.update_self]
      · exact hnew q hq
    · exact (sameFlags_propose t c s k).trans hflags
    · rw [addPrune, hdft, List.length_cons]
      simp only [Drafting.propose]
      omega

/-- Turn `step` has come to sequence `k`. `act` has the sequences that were active before, `cs` the candidates. -/
structure Proposing (cfg : Config) (step : Nat) (act : Nat → Bool) (k : Nat) (t : Drafting) (cs : List Cand)
    (st : Nat → Status) : Prop where
  inv : Inv cfg.nPastTgt t st
  nodup : (cs.map Cand.seq).Nodup
  cand : ∀ c ∈ cs, st c.seq = .live (!c.newSeq) (step + 1) (some c.id) ∧ c.newSeq = !act c.seq
  before : ∀ c ∈ cs, c.seq < k ∨ (t.drafts c.seq).skip = true
  idle : ∀ s, s ∉ cs.map Cand.seq → act s = true →
    ∃ l, st s = .live true l none ∧ ((t.drafts s).drafting = true → l = step + 1)
  unused : ∀ s, s ∉ cs.map Cand.seq → act s = false → st s = .fresh ∧ (t.drafts s).drafting = false
  inUse : ∀ s, act s = true ∨ s ∈ cs.map Cand.seq → s < t.nSeqCur
  active : ∀ s, s ∉ cs.map Cand.seq → (t.drafts s).active = act s
  count : t.nBatchDft = cs.length

/-- One turn of the loop over `s`. -/
theorem draftSeqPrune_spec {cfg : Config} {step k : Nat} {act : Nat → Bool} (cands : Nat → Candidates) {t : Drafting}
    {cs : List Cand} {st : Nat → Status} (h : Proposing cfg step act k t cs st) :
    ∃ st', Proposing cfg step act (k + 1) (draftSeqPrune cfg step cands (t, cs) k).1
      (draftSeqPrune cfg step cands (t, cs) k).2 st' := by
  have hsame : Proposing cfg step act (k + 1) t cs st :=
    { h with before := fun c hc => (h.before c hc).imp_left Nat.lt_succ_of_lt }
  rw [draftSeqPrune]
  split
  case isFalse => exact ⟨st, hsame⟩
  case isTrue hyes =>
    simp only
    split
    case isTrue => exact ⟨st, hsame⟩
    case isFalse =>
      -- sequence `k` has no candidate yet, so it is one of the sequences of an earlier turn
      have hidle : k ∉ cs.map Cand.seq := by
        intro hk
        obtain ⟨c, hc, rfl⟩ := List.mem_map.mp hk
        rcases h.before c hc with hlt | hskip
        · exact absurd hlt (lt_irrefl _)
        · exact hyes.2 hskip
      have hact : act k = true := by
        by_contra hno
        have := (h.unused k hidle (Bool.eq_false_iff.mpr hno)).2
        exact absurd (hyes.1.symm.trans this) (by simp)
      obtain ⟨l, hst, hl⟩ := h.idle k hidle hact
      rw [hl hyes.1] at hst
      have hfresh : ∀ n, t.nSeqCur ≤ n → st n = .fresh := by
        intro n hn
        have hnot : n ∉ cs.map Cand.seq := fun hm => absurd (h.inUse n (Or.inr hm)) (by omega)
        have hoff : act n = false := Bool.eq_false_iff.mpr fun hm => absurd (h.inUse n (Or.inl hm)) (by omega)
        exact (h.unused n hnot hoff).1
      have hkn := h.inUse k (Or.inl hact)
      generalize List.range' 1 (nCandidates cfg step (cands k) t - 1) = fs
      obtain ⟨m, hsa, hcur, hdft, hinv, hdr⟩ := splitsPrune_spec cfg (cands k) fs t [k] st h.inv hst hfresh
      generalize splitsPrune cfg (cands k) k fs t [k] = r at hsa hcur hdft hinv hdr
      have hmem : ∀ s, s ∈ r.2 ↔ s = k ∨ t.nSeqCur ≤ s ∧ s < t.nSeqCur + m := by
        intro s
        rw [hsa]
        simp [List.mem_range'_1]
      have hnd : r.2.Nodup := by
        rw [hsa]
        refine List.nodup_append.mpr ⟨by simp, List.nodup_range', ?_⟩
        intro a ha b hb
        rw [List.mem_singleton] at ha
        rw [List.mem_range'_1] at hb
        omega
      obtain ⟨st', new, hcs, hseq, hinv', hst', hnew, hflags, hdft'⟩ := addPrune_spec step k (cands k)
        (fun s => decide (s = k)) r.2 0 r.1 cs _ hinv hnd (fun s hs => by
          rcases (hmem s).mp hs with rfl | hs
          · simp only [decide_true]
            rw [if_neg (by omega)]
            exact hst
          · rw [if_pos hs]
            simp only [decide_eq_false (show s ≠ k by omega)])
      generalize addPrune step k (cands k) r.2 0 (r.1, cs) = q at hcs hinv' hflags hdft'
      obtain ⟨t', cs'⟩ := q
      simp only at hcs hinv' hflags hdft' ⊢
      subst hcs
      have hold : ∀ s ∈ cs.map Cand.seq, s ∉ r.2 := by
        intro s hs hr
        rcases (hmem s).mp hr with rfl | hr
        · exact hidle hs
        · exact absurd (h.inUse s (Or.inr hs)) (by omega)
      have hkeep : ∀ s, s ∉ r.2 → st' s = st s ∧ r.1.drafts s = t.drafts s := by
        intro s hs
        have hno : ¬ (t.nSeqCur ≤ s ∧ s < t.nSeqCur + m) := fun hin => hs ((hmem s).mpr (Or.inr hin))
        exact ⟨(hst' s hs).trans (if_neg hno), (hdr s).2 hno⟩
      refine ⟨st', ?_⟩
      exact
        { inv := hinv'
          nodup := by
            rw [List.map_append, hseq]
            exact List.nodup_append.mpr ⟨h.nodup, hnd, fun a ha b hb hab => hold a ha (hab ▸ hb)⟩
          cand := by
            intro c hc
            rcases List.mem_append.mp hc with hc | hc
            · rw [(hkeep c.seq (hold _ (List.mem_map_of_mem hc))).1]
              exact h.cand c hc
            · obtain ⟨hs, hb⟩ := hnew c hc
              have hin : c.seq ∈ r.2 := hseq ▸ List.mem_map_of_mem hc
              refine ⟨by rw [hs, hb]; simp, ?_⟩
              rw [hb]
              rcases (hmem c.seq).mp hin with heq | hin
              · simp [heq, hact]
              · have hoff : act c.seq = false :=
                  Bool.eq_false_iff.mpr fun hm => absurd (h.inUse _ (Or.inl hm)) (by omega)
                simp [hoff, show c.seq ≠ k by omega]
          before := by
            intro c hc
            rcases List.mem_append.mp hc with hc | hc
            · rw [(hflags.2 c.seq).2.2, (hkeep c.seq (hold _ (List.mem_map_of_mem hc))).2]
              exact (h.before c hc).imp_left Nat.lt_succ_of_lt
            · rw [(hflags.2 c.seq).2.2]
              rcases (hmem c.seq).mp (hseq ▸ List.mem_map_of_mem hc) with heq | hin
              · exact Or.inl (by omega)
              · exact Or.inr ((hdr c.seq).1 hin)
          idle := by
            intro s hs ha
            rw [List.map_append, hseq, List.mem_append, not_or] at hs
            rw [(hflags.2 s).2.1, (hkeep s hs.2).1, (hkeep s hs.2).2]
            exact h.idle s hs.1 ha
          unused := by
            intro s hs ha
            rw [List.map_append, hseq, List.mem_append, not_or] at hs
            rw [(hflags.2 s).2.1, (hkeep s hs.2).1, (hkeep s hs.2).2]
            exact h.unused s hs.1 ha
          inUse := by
            intro s hs
            rw [hflags.1, hcur]
            rw [List.map_append, hseq, List.mem_append, ← or_assoc] at hs
            rcases hs with hs | hs
            · have := h.inUse s hs
              omega
            · rcases (hmem s).mp hs with rfl | hs
              · omega
              · exact hs.2
          active := by
            intro s hs
            rw [List.map_append, hseq, List.mem_append, not_or] at hs
            rw [(hflags.2 s).1, (hkeep s hs.2).2]
            exact h.active s hs.1
          count := by
            have hlen : new.length = r.2.length := by rw [← hseq, List.length_map]
            rw [hdft', hdft, h.count, List.length_append, hlen] }

/-- The candidates of `sel` are selected, the others still wait; `base` has the other sequences. -/
structure Selecting (cfg : Config) (step : Nat) (cs : List Cand) (base : Nat → Status) (t : Drafting) (sel : List Nat)
    (st : Nat → Status) : Prop where
  inv : Inv cfg.nPastTgt t st
  selected : ∀ s ∈ sel, st s = .live true (step + 2) none ∧ s ∈ cs.map Cand.seq
  waiting : ∀ c ∈ cs, c.seq ∉ sel → st c.seq = .live (!c.newSeq) (step + 1) (some c.id)
  other : ∀ s, s ∉ cs.map Cand.seq → st s = base s

/-- A candidate that waits is selected. -/
theorem Selecting.choose {cfg : Config} {step : Nat} {cs : List Cand} {base : Nat → Status} {t : Drafting} {sel : List Nat}
    {st : Nat → Status} (h : Selecting cfg step cs base t sel st) {c : Cand} (hc : c ∈ cs)
    (hsel : c.seq ∉ sel) : ∃ st', Selecting cfg step cs base (t.choose cfg step c) (c.seq :: sel) st' := by
  have hwait := h.waiting c hc hsel
  have hchosen : Inv cfg.nPastTgt (t.choose cfg step c) (Function.update st c.seq (.live true (step + 2) none)) := by
    rw [Drafting.choose]
    have hpos : cfg.nPastTgt + ↑step + 1 = cfg.nPastTgt + ((step + 1 : Nat) : Int) := by
      rw [Nat.cast_add, Nat.cast_one, add_assoc]
    rw [hpos]
    cases hb : c.newSeq with
    | false =>
        rw [hb] at hwait
        exact h.inv.commit hwait
    | true =>
        rw [hb] at hwait
        have := (h.inv.addSeq hwait).commit (Function.update_self _ _ _)
        rwa [Function.update_idem] at this
  refine ⟨_, hchosen, ?_, ?_, ?_⟩
  · intro s hs
    by_cases hsc : s = c.seq
    · subst hsc
      exact ⟨Function.update_self _ _ _, List.mem_map_of_mem hc⟩
    · rw [Function.update_of_ne hsc]
      exact h.selected s ((List.mem_cons.mp hs).resolve_left hsc)
  · intro q hq hqs
    rw [List.mem_cons, not_or] at hqs
    rw [Function.update_of_ne hqs.1]
    exact h.waiting q hq hqs.2
  · intro s hs
    have hne : s ≠ c.seq := fun hsc => hs (hsc ▸ List.mem_map_of_mem hc)
    rw [Function.update_of_ne hne]
    exact h.other s hs

theorem sameFlags_choose (t : Drafting) (cfg : Config) (step : Nat) (c : Cand) : SameFlags t (t.choose cfg step c) := by
  rw [Drafting.choose]
  split
  · exact sameFlags_of_update rfl rfl rfl rfl rfl
  · exact sameFlags_commit _ _ _ _

theorem selectLoop_spec {cfg : Config} {step : Nat} {all : List Cand} {base : Nat → Status} (pass : Nat → Bool) :
    ∀ (cs : List Cand) (t : Drafting) (nodes : Nat) (sel : List Nat) (st : Nat → Status),
      Selecting cfg step all base t sel st → (∀ c ∈ cs, c ∈ all ∧ c.seq ∉ sel) → (cs.map Cand.seq).Nodup →
      (∃ st', Selecting cfg step all base (selectLoop cfg step pass cs t nodes sel).1
        (selectLoop cfg step pass cs t nodes sel).2.2 st') ∧ SameFlags t (selectLoop cfg step pass cs t nodes sel).1
  | [], t, nodes, sel, st, h, _, _ => ⟨⟨st, h⟩, rfl, fun _ => ⟨rfl, rfl, rfl⟩⟩
  | c :: cs, t, nodes, sel, st, h, hcs, hd => by
    rw [List.map_cons, List.nodup_cons] at hd
    have htail : ∀ q ∈ cs, q ∈ all ∧ q.seq ∉ sel := fun q hq => hcs q (List.mem_cons_of_mem _ hq)
    have hstop : (∃ st', Selecting cfg step all base t sel st') ∧ SameFlags t t :=
      ⟨⟨st, h⟩, rfl, fun _ => ⟨rfl, rfl, rfl⟩⟩
    have hskip := selectLoop_spec pass cs t nodes sel st h htail hd.2
    rw [selectLoop]
    split
    · exact hstop
    · split
      · exact hskip
      · split
        · exact hskip
        · split
          · exact hstop
          · obtain ⟨hc, hsel⟩ := hcs c List.mem_cons_self
            obtain ⟨st', h'⟩ := h.choose hc hsel
            obtain ⟨hst, hflags⟩ := selectLoop_spec pass cs _ (nodes + 1) _ st' h' (fun q hq => by
              have hne : q.seq ≠ c.seq := fun heq => hd.1 (heq ▸ List.mem_map_of_mem hq)
              exact ⟨(htail q hq).1, by simp [hne, (htail q hq).2]⟩) hd.2
            exact ⟨hst, (sameFlags_choose t cfg step c).trans hflags⟩

/-- The sequences of `ss` lose the token that waits. -/
theorem takeBack_spec {nPast : Int} {l : Nat} : ∀ (ss : List Nat) (t : Drafting) (st : Nat → Status), Inv nPast t st →
    ss.Nodup → (∀ s ∈ ss, ∃ x, st s = .live true l (some x)) →
      Inv nPast (ss.foldl Drafting.takeBack t) (fun s => if s ∈ ss then .live true l none else st s) ∧
        SameFlags t (ss.foldl Drafting.takeBack t)
  | [], t, st, h, _, _ => ⟨by simpa using h, rfl, fun _ => ⟨rfl, rfl, rfl⟩⟩
  | s :: ss, t, st, h, hnd, hss => by
    rw [List.nodup_cons] at hnd
    obtain ⟨x, hx⟩ := hss s List.mem_cons_self
    obtain ⟨hinv, hflags⟩ := takeBack_spec ss (t.takeBack s) _ (h.takeBack hx) hnd.2 (fun m hm => by
      have hne : m ≠ s := fun hms => hnd.1 (hms ▸ hm)
      rw [Function.update_of_ne hne]
      exact hss m (List.mem_cons_of_mem _ hm))
    have hone : SameFlags t (t.takeBack s) := sameFlags_of_update rfl rfl rfl rfl rfl
    refine ⟨?_, hone.trans hflags⟩
    rw [List.foldl_cons]
    convert hinv using 1
    funext m
    by_cases hm : m = s
    · subst hm
      simp
    · simp [hm]

/-- Between two turns: the active sequences have their rows, and those still drafting have one for each turn. -/
structure Turned (cfg : Config) (step : Nat) (p : Pruning) (st : Nat → Status) : Prop where
  inv : Inv cfg.nPastTgt p.tree st
  idle : ∀ s, p.activeSeq s = true →
    ∃ l, st s = .live true l none ∧ ((p.tree.drafts s).drafting = true → l = step + 1)
  unused : ∀ s, p.activeSeq s = false → st s = .fresh ∧ (p.tree.drafts s).drafting = false
  inUse : ∀ s, p.activeSeq s = true → s < p.tree.nSeqCur
  active : ∀ s, (p.tree.drafts s).active = p.activeSeq s

/-- The candidates of a turn. -/
theorem Turned.propose {cfg : Config} {step : Nat} {p : Pruning} {st : Nat → Status} (h : Turned cfg step p st)
    (cands : Nat → Candidates) {q : Drafting × List Cand}
    (hq : (List.range cfg.nSeqDft).foldl (draftSeqPrune cfg step cands) (p.tree.startTurn, []) = q) :
    ∃ st', Proposing cfg step p.activeSeq cfg.nSeqDft q.1 q.2 st' := by
  have hstart : Proposing cfg step p.activeSeq 0 p.tree.startTurn [] st :=
    { inv := h.inv.congr rfl fun s => ⟨rfl, rfl, rfl⟩
      nodup := List.nodup_nil
      cand := by simp
      before := by simp
      idle := fun s _ ha => h.idle s ha
      unused := fun s _ ha => h.unused s ha
      inUse := by
        intro s hs
        exact h.inUse s (hs.resolve_right (by simp))
      active := fun s _ => h.active s
      count := rfl }
  have hfold := foldl_range_rule (f := draftSeqPrune cfg step cands) (s := (p.tree.startTurn, []))
    (P := fun k r => ∃ st', Proposing cfg step p.activeSeq k r.1 r.2 st') ⟨st, hstart⟩ cfg.nSeqDft
    fun k _ r ⟨st, hr⟩ => draftSeqPrune_spec cands hr
  rwa [hq] at hfold

/-- What the rest of a turn leaves: the selected sequences have one more row, the other active ones none. -/
theorem Proposing.select {cfg : Config} {step k : Nat} {act : Nat → Bool} {t : Drafting} {cs sorted : List Cand}
    {st : Nat → Status} (h : Proposing cfg step act k t cs st) (hsorted : sorted.Perm cs) (pass : Nat → Bool) (nodes : Nat)
    {r : Drafting × Nat × List Nat} (hr : selectLoop cfg step pass sorted t nodes [] = r) :
    ∃ st', Inv cfg.nPastTgt ((Pruning.dropped act r.2.2 sorted).foldl Drafting.takeBack r.1) st' ∧
      SameFlags t ((Pruning.dropped act r.2.2 sorted).foldl Drafting.takeBack r.1) ∧
      (∀ s ∈ r.2.2, st' s = .live true (step + 2) none ∧ s ∈ cs.map Cand.seq) ∧
      (∀ s, s ∉ r.2.2 → act s = true → ∃ l, st' s = .live true l none) ∧
      ∀ s, s ∉ r.2.2 → act s = false → st' s = .fresh := by
  have hseq : (sorted.map Cand.seq).Perm (cs.map Cand.seq) := hsorted.map _
  have hnd : (sorted.map Cand.seq).Nodup := hseq.nodup_iff.mpr h.nodup
  have hstart : Selecting cfg step sorted st t [] st :=
    ⟨h.inv, by simp, fun c hc _ => (h.cand c (hsorted.mem_iff.mp hc)).1, fun _ _ => rfl⟩
  obtain ⟨⟨st₁, hsel⟩, hflags⟩ := selectLoop_spec pass sorted t nodes [] st hstart (by simp) hnd
  rw [hr] at hsel hflags
  -- the token of every sequence that is taken back still waits
  have hdrop : ∀ s ∈ Pruning.dropped act r.2.2 sorted, s ∉ r.2.2 ∧ act s = true ∧ s ∈ sorted.map Cand.seq := by
    intro s hs
    obtain ⟨hm, hs⟩ := List.mem_filter.mp hs
    simp only [Bool.not_eq_true', Bool.or_eq_false_iff, decide_eq_false_iff_not, Bool.not_eq_false'] at hs
    exact ⟨hs.1, hs.2, hm⟩
  have hwait : ∀ s ∈ Pruning.dropped act r.2.2 sorted, ∃ x, st₁ s = .live true (step + 1) (some x) := by
    intro s hs
    obtain ⟨hns, ha, hm⟩ := hdrop s hs
    obtain ⟨c, hc, rfl⟩ := List.mem_map.mp hm
    have hold := (h.cand c (hsorted.mem_iff.mp hc)).2
    refine ⟨c.id, ?_⟩
    rw [hsel.waiting c hc hns, hold, ha]
    rfl
  obtain ⟨hinv, hback⟩ := takeBack_spec (Pruning.dropped act r.2.2 sorted) r.1 st₁ hsel.inv (hnd.filter _) hwait
  set st₂ : Nat → Status := fun s => if s ∈ Pruning.dropped act r.2.2 sorted then .live true (step + 1) none else st₁ s
    with hst₂
  -- and a branch that was not selected is given up
  refine ⟨fun s => if s ∉ r.2.2 ∧ act s = false then .fresh else st₂ s, ?_, hflags.trans hback, ?_, ?_, ?_⟩
  · apply hinv.forget
    intro s
    by_cases hs : s ∉ r.2.2 ∧ act s = false
    · rw [if_pos hs]
      have hnot : s ∉ Pruning.dropped act r.2.2 sorted := fun hd => by simp [(hdrop s hd).2.1] at hs
      simp only [hst₂, if_neg hnot]
      by_cases hm : s ∈ sorted.map Cand.seq
      · obtain ⟨c, hc, rfl⟩ := List.mem_map.mp hm
        refine Or.inr ⟨trivial, step + 1, some c.id, ?_⟩
        rw [hsel.waiting c hc hs.1, (h.cand c (hsorted.mem_iff.mp hc)).2, hs.2]
        rfl
      · rw [hsel.other s hm]
        exact Or.inl (h.unused s (fun hc => hm (hseq.mem_iff.mpr hc)) hs.2).1.symm
    · exact Or.inl (if_neg hs)
  · intro s hs
    have hnot : s ∉ Pruning.dropped act r.2.2 sorted := fun hd => (hdrop s hd).1 hs
    dsimp only
    rw [if_neg (by simp [hs])]
    simp only [hst₂, if_neg hnot]
    exact ⟨(hsel.selected s hs).1, hseq.mem_iff.mp (hsel.selected s hs).2⟩
  · intro s hs ha
    dsimp only
    rw [if_neg (by simp [ha])]
    by_cases hd : s ∈ Pruning.dropped act r.2.2 sorted
    · exact ⟨step + 1, by simp only [hst₂, if_pos hd]⟩
    · simp only [hst₂, if_neg hd]
      have hm : s ∉ sorted.map Cand.seq := by
        intro hm
        apply hd
        exact List.mem_filter.mpr ⟨hm, by simp [hs, ha]⟩
      obtain ⟨l, hl, -⟩ := h.idle s (fun hc => hm (hseq.mem_iff.mpr hc)) ha
      exact ⟨l, by rw [hsel.other s hm, hl]⟩
  · intro s hs ha
    exact if_pos ⟨hs, ha⟩

/-- **A turn keeps the chain of every active sequence.** -/
theorem turnPrune_spec {cfg : Config} {step : Nat} (cands : Nat → Candidates) (sc : Scoring) {p : Pruning}
    {st : Nat → Status} (h : Turned cfg step p st) :
    ∃ step' st', Turned cfg step' (turnPrune cfg step cands sc p).2 st' ∧
      ((turnPrune cfg step cands sc p).1 = true → step' = step + 1) := by
  rw [turnPrune]
  generalize hq : (List.range cfg.nSeqDft).foldl (draftSeqPrune cfg step cands) (p.tree.startTurn, []) = q
  obtain ⟨st₁, hprop⟩ := h.propose cands hq
  dsimp only
  split
  case isTrue hzero =>
    have hcs : q.2 = [] := List.length_eq_zero_iff.mp (hprop.count.symm.trans hzero)
    have hnot : ∀ s, s ∉ q.2.map Cand.seq := by simp [hcs]
    exact ⟨step, st₁, ⟨hprop.inv, fun s ha => hprop.idle s (hnot s) ha, fun s ha => hprop.unused s (hnot s) ha,
      fun s ha => hprop.inUse s (Or.inl ha), fun s => hprop.active s (hnot s)⟩, by simp⟩
  case isFalse =>
    generalize hsorted : (q.2.mergeSort fun a b => decide (sc.score b.seq ≤ sc.score a.seq)) = sorted
    have hperm : sorted.Perm q.2 := hsorted ▸ List.mergeSort_perm _ _
    generalize hr : selectLoop cfg step sc.pass sorted q.1 p.selectedNodes [] = r
    obtain ⟨st₂, hinv, hflags, hsel, hact, hoff⟩ := hprop.select hperm sc.pass p.selectedNodes hr
    refine ⟨step + 1, st₂, ?_, fun _ => rfl⟩
    exact
      { inv := hinv.congr rfl fun s => ⟨rfl, rfl, rfl⟩
        idle := by
          intro s ha
          by_cases hs : s ∈ r.2.2
          · exact ⟨step + 2, (hsel s hs).1, fun _ => rfl⟩
          · obtain ⟨l, hl⟩ := hact s hs (by simpa [hs] using ha)
            exact ⟨l, hl, by simp [hs]⟩
        unused := by
          intro s ha
          simp only [Bool.or_eq_false_iff, decide_eq_false_iff_not] at ha
          exact ⟨hoff s ha.2 ha.1, by simp [ha.2]⟩
        inUse := by
          intro s ha
          rw [hflags.1]
          rcases Bool.or_eq_true_iff.mp ha with ha | hs
          · exact hprop.inUse s (Or.inl ha)
          · exact hprop.inUse s (Or.inr (hsel s (of_decide_eq_true hs)).2)
        active := fun s => rfl }

/-- **However many turns there are, every active sequence keeps its chain.** -/
theorem draftTreePrune_spec {cfg : Config} (oracle : Nat → Nat → Candidates) (sc : Nat → Scoring) : ∀ (n step : Nat)
    (p : Pruning) (st : Nat → Status), Turned cfg step p st →
      ∃ step' st', Turned cfg step' (draftTreePrune cfg oracle sc n step p) st'
  | 0, step, p, st, h => ⟨step, st, h⟩
  | n + 1, step, p, st, h => by
    rw [draftTreePrune]
    split
    · obtain ⟨step', st', h', hgo⟩ := turnPrune_spec (oracle step) (sc step) h
      generalize turnPrune cfg step (oracle step) (sc step) p = r at h' hgo
      obtain ⟨go, p'⟩ := r
      cases go with
      | true =>
          have hone : step' = step + 1 := hgo rfl
          subst hone
          exact draftTreePrune_spec oracle sc n (step + 1) p' st' h'
      | false => exact ⟨step', st', h'⟩
    · exact ⟨step, st, h⟩

/-! ## From the start of a round -/

/-- The rows of sequence `s` are its tokens, one after the other. -/
structure WellFormed (nPast : Int) (rows : List Row) (d : SeqDraft) (s : Nat) : Prop where
  pos : 0 < d.tokens.length
  dists : d.dists.length = d.tokens.length
  iBatchTgt : d.iBatchTgt.length = d.tokens.length
  row : ∀ j < d.tokens.length, ∃ k r, d.iBatchTgt[j]? = some k ∧ rows[k]? = some r ∧ d.tokens[j]? = some r.token ∧
    r.pos = nPast + j ∧ s ∈ r.seqIds ∧ r.seqIds.Nodup
  unique : ∀ (k : Nat) (r : Row), rows[k]? = some r → s ∈ r.seqIds → ∃! j : Nat, d.iBatchTgt[j]? = some k

theorem Live.wellFormed {nPast : Int} {rows : List Row} {d : SeqDraft} {s l : Nat} (h : Live nPast rows d s true l none)
    (hn : ∀ r ∈ rows, r.seqIds.Nodup) : WellFormed nPast rows d s where
  pos := by
    rw [h.length_tokens]
    exact Nat.lt_of_lt_of_le h.pos (Nat.le_add_right _ _)
  dists := h.dists
  iBatchTgt := by
    rw [h.length_tokens, h.len]
    rfl
  row j hj := by
    have hjl : j < d.iBatchTgt.length := by
      rw [h.length_tokens] at hj
      rw [h.len]
      exact hj
    obtain ⟨x, hx, r, hr, rfl, hp⟩ := h.chain.label j _ (List.getElem?_eq_getElem hjl)
    obtain ⟨r', hr', hs⟩ := (h.marked _).mpr ⟨rfl, List.getElem_mem hjl⟩
    obtain rfl : r = r' := Option.some.inj (hr.symm.trans hr')
    exact ⟨_, r, List.getElem?_eq_getElem hjl, hr, hx, hp, hs, hn r (List.mem_of_getElem? hr)⟩
  unique k r hr hs := by
    obtain ⟨j, hj⟩ := List.mem_iff_getElem?.mp ((h.marked k).mp ⟨r, hr, hs⟩).2
    refine ⟨j, hj, fun i hi => ?_⟩
    have hnd : d.iBatchTgt.Nodup := h.chain.sorted.imp Nat.ne_of_lt
    exact (List.getElem?_inj (List.getElem?_eq_some_iff.mp hi).1 hnd).mp (hi.trans hj.symm)

/-- The tokens have rows of their own. -/
theorem WellFormed.length_le {nPast : Int} {rows : List Row} {d : SeqDraft} {s : Nat} (h : WellFormed nPast rows d s) :
    d.tokens.length ≤ rows.length := by
  have hrow : ∀ j < d.iBatchTgt.length, ∃ k r, d.iBatchTgt[j]? = some k ∧ rows[k]? = some r ∧ s ∈ r.seqIds := by
    intro j hj
    rw [h.iBatchTgt] at hj
    obtain ⟨k, r, hk, hr, -, -, hs, -⟩ := h.row j hj
    exact ⟨k, r, hk, hr, hs⟩
  have hnodup : d.iBatchTgt.Nodup := by
    refine List.nodup_iff_getElem?_ne_getElem?.mpr fun i j hij hj heq => ?_
    obtain ⟨k, r, hk, hr, hs⟩ := hrow j hj
    have := (h.unique k r hr hs).unique (heq.trans hk) hk
    omega
  have hsub : d.iBatchTgt ⊆ List.range rows.length := by
    intro k hk
    obtain ⟨j, hj⟩ := List.mem_iff_getElem?.mp hk
    obtain ⟨k', r, hk', hr, -⟩ := hrow j (List.getElem?_eq_some_iff.mp hj).1
    obtain rfl := Option.some.inj (hj.symm.trans hk')
    exact List.mem_range.mpr (List.getElem?_eq_some_iff.mp hr).1
  have hle := (List.subperm_of_subset hnodup hsub).length_le
  rwa [h.iBatchTgt, List.length_range] at hle

/-- At the start sequence 0 has the sampled token in row 0. -/
theorem startRound_inv (cfg : Config) (tok : Token) (drafts : Nat → SeqDraft) :
    Inv cfg.nPastTgt (startRound cfg tok drafts) (fun s => if s = 0 then .live true 1 none else .fresh) where
  nodup := by simp [startRound]
  seq s := by
    by_cases hs : s = 0
    · subst hs
      exact
        { chain :=
            { sorted := by simp [startRound, resetDrafts]
              label := by
                intro j i hi
                obtain ⟨rfl, rfl⟩ : j = 0 ∧ i = 0 := by
                  cases j with
                  | zero => exact ⟨rfl, by simpa [startRound, resetDrafts, eq_comm] using hi⟩
                  | succ j => simp [startRound, resetDrafts] at hi
                exact ⟨tok, rfl, _, rfl, rfl, by simp⟩ }
          len := rfl
          pos := Nat.one_pos
          rest := rfl
          dists := rfl
          marked := fun k => by
            cases k <;> simp [Marked, startRound, resetDrafts] }
    · rw [if_neg hs]
      rintro k ⟨r, hr, hm⟩
      cases k with
      | zero =>
          obtain rfl : Row.mk tok cfg.nPastTgt [0] = r := Option.some.inj hr
          exact hs (List.mem_singleton.mp hm)
      | succ k => simp [startRound] at hr

theorem startRound_original (cfg : Config) (tok : Token) (drafts : Nat → SeqDraft) :
    Original cfg 0 (fun _ => false) (startRound cfg tok drafts) where
  inv := by
    convert startRound_inv cfg tok drafts using 1
    funext s
    simp [statusOriginal, startRound]
  bound := cfg.pos
  active s := by by_cases hs : s = 0 <;> simp [startRound, resetDrafts, hs]
  drafting s := by by_cases hs : s = 0 <;> simp [startRound, resetDrafts, hs]
  done_lt s hs := absurd hs (by simp)

theorem startPruning_turned (cfg : Config) (tok : Token) (drafts : Nat → SeqDraft) :
    Turned cfg 0 (startPruning (startRound cfg tok drafts)) (fun s => if s = 0 then .live true 1 none else .fresh) where
  inv := startRound_inv cfg tok drafts
  idle s ha := ⟨1, if_pos (of_decide_eq_true ha), fun _ => rfl⟩
  unused s ha := by
    have hne : s ≠ 0 := of_decide_eq_false ha
    exact ⟨if_neg hne, by simp [startPruning, startRound, resetDrafts, hne]⟩
  inUse s ha := by
    obtain rfl : s = 0 := of_decide_eq_true ha
    exact Nat.one_pos
  active s := by by_cases hs : s = 0 <;> simp [startPruning, startRound, resetDrafts, hs]

/-- **Behind either drafter, for any candidates, scores and limits, the rows of every active sequence are its tokens.** -/
theorem wellFormed_draftTree (cfg : Config) (prune : Bool) (oracle : Nat → Nat → Candidates) (sc : Nat → Scoring)
    (tok : Token) (drafts : Nat → SeqDraft) (s : Nat)
    (hs : ((draftTree cfg prune oracle sc (startRound cfg tok drafts)).1.drafts s).active = true) :
    WellFormed cfg.nPastTgt (draftTree cfg prune oracle sc (startRound cfg tok drafts)).1.batchTgt
      ((draftTree cfg prune oracle sc (startRound cfg tok drafts)).1.drafts s) s := by
  cases prune
  case false =>
    change (((draftTreeOriginal cfg oracle cfg.nDraft 0 (startRound cfg tok drafts)).drafts s).active = true) at hs
    obtain ⟨i, h⟩ := draftTreeOriginal_spec oracle cfg.nDraft 0 _ (startRound_original cfg tok drafts)
    have hst : statusOriginal i (draftTreeOriginal cfg oracle cfg.nDraft 0 (startRound cfg tok drafts)).nSeqCur
        (fun _ => false) s = .live true (i + 1) none := by
      simp [statusOriginal, (h.active s).mp hs]
    exact (h.inv.live hst).wellFormed h.inv.nodup
  case true =>
    obtain ⟨step, st, h⟩ := draftTreePrune_spec oracle sc cfg.nDraft 0 _ _ (startPruning_turned cfg tok drafts)
    obtain ⟨l, hl, -⟩ := h.idle s ((h.active s).symm.trans hs)
    exact (h.inv.live hl).wellFormed h.inv.nodup

theorem wellFormed_draftTree_two : let cfg : Config := ⟨2, Nat.two_pos, 2, 10, 1 / 4, 1, 1⟩
    let t := (draftTree cfg false (fun _ _ => ⟨2, fun k => ⟨k + 5, 1 / 2⟩⟩) (fun _ => ⟨fun _ => 0, fun _ => true⟩)
      (startRound cfg 3 fun _ => {})).1
    WellFormed 10 t.batchTgt (t.drafts 1) 1 := by
  exact wellFormed_draftTree ⟨2, Nat.two_pos, 2, 10, 1 / 4, 1, 1⟩ false (fun _ _ => ⟨2, fun k => ⟨k + 5, 1 / 2⟩⟩)
    (fun _ => ⟨fun _ => 0, fun _ => true⟩) 3 (fun _ => {}) 1 (by decide +kernel)

end S2Moe.Draft.Target
