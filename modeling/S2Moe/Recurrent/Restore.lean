import S2Moe.Recurrent.History

/-!
# Restoring from the history

* `Tracked` : the memory is consistent, and the live row is the fold of what sequence 0 holds;
* `Captured` : the history rows are those of the latest decode, which is the end of what sequence 0 holds;
* `HistInv` : whenever a flag is set and the position fits, the history is `Captured`;
* `HistOp.safe` : a history that is in use is not pulled out from under: no removal of the sequence while the history is
  valid, and no `state_read` of the sequence while it is valid or being captured;
* `restoreHistory_live` : in every run of such steps, a restore that returns true restores the prefix it was asked for;
* `restoreHistory_stale` : a run where it restores a token that was removed.
-/

namespace S2Moe.Recurrent
open S2Moe.Lib

section Restore
variable {R T : Type} {r0 : R} {f : R → T → R} {h h' : Hist R T}

structure Tracked (r0 : R) (f : R → T → R) (h : Hist R T) : Prop where
  consistent : Consistent h.mem
  one : h.mem.size = 1
  source : SourceOk h.mem
  empty : h.mem.seqs 0 = ∅ → h.recorded = []
  ne : h.mem.seqs 0 ≠ ∅ → h.recorded ≠ []
  start_nonneg : h.mem.seqs 0 ≠ ∅ → 0 ≤ h.start
  pos : h.mem.seqs 0 ≠ ∅ → (h.mem.cells 0).pos = h.start + h.recorded.length - 1
  live : h.mem.seqs 0 ≠ ∅ → h.live = h.recorded.foldl f r0

theorem Tracked.congr (ht : Tracked r0 f h)
    (hsame : (h'.mem, h'.live, h'.recorded, h'.start) = (h.mem, h.live, h.recorded, h.start)) : Tracked r0 f h' := by
  obtain ⟨m, l⟩ := h
  obtain ⟨m', l'⟩ := h'
  simp only [Prod.mk.injEq] at hsame
  obtain ⟨rfl, rfl, rfl, rfl⟩ := hsame
  exact ⟨ht.consistent, ht.one, ht.source, ht.empty, ht.ne, ht.start_nonneg, ht.pos, ht.live⟩

theorem Tracked.seqPosMax (ht : Tracked r0 f h) :
    h.mem.seqPosMax 0 = if h.mem.seqs 0 = ∅ then -1 else h.start + h.recorded.length - 1 := by
  rw [Memory.seqPosMax_one ht.one]
  by_cases he : h.mem.seqs 0 = ∅
  · rw [if_pos he, he, if_neg (Finset.notMem_empty 0)]
  · have hmem : 0 ∈ h.mem.seqs 0 := by
      obtain ⟨_, hs⟩ | ⟨_, hs⟩ := ht.consistent.tail_zero ht.one
      · exact absurd hs he
      · rw [hs]
        exact Finset.mem_singleton_self 0
    have hlen := List.length_pos_iff.mpr (ht.ne he)
    have hstart := ht.start_nonneg he
    rw [if_neg he, if_pos hmem, ht.pos he]
    omega

/-- One ubatch that continues the sequence. -/
theorem Tracked.ubatch (ht : Tracked r0 f h) {first : Int} {toks : List T} (hne : toks ≠ []) (h0 : 0 ≤ first)
    (hfirst : h.mem.seqs 0 ≠ ∅ → first = h.mem.seqPosMax 0 + 1) :
    ∃ h', h.ubatch r0 f first toks = some h' ∧ Tracked r0 f h' ∧ h'.mem.seqs 0 ≠ ∅ ∧
      h'.recorded = h.recorded ++ toks ∧ h'.start + h.recorded.length = first ∧
      h'.rows = (if h.capturing ∧ 1 < h.tokens then
        fun j => if j < toks.length then (toks.take (j + 1)).foldl f (h.recorded.foldl f r0) else h.rows j
        else h.rows) ∧
      (h'.capturing, h'.valid, h'.seq, h'.firstPos, h'.tokens) = (h.capturing, h.valid, h.seq, h.firstPos, h.tokens) := by
  obtain ⟨mem, hfind, hsize, hseqs, hpos, hsource, hz⟩ := ht.consistent.findSlot_one ht.one ht.source first toks.length
  have hmemne : mem.seqs 0 ≠ ∅ := by
    rw [hseqs]
    exact Finset.singleton_ne_empty 0
  have hbase : (if mem.rsZ = some 0 then r0 else h.live) = h.recorded.foldl f r0 := by
    rw [hz]
    by_cases he : h.mem.seqs 0 = ∅
    · rw [if_pos he, if_pos rfl, ht.empty he]
      rfl
    · rw [if_neg he, if_neg (by simp), ht.live he]
  have hstart : (if h.recorded = [] then first else h.start) + h.recorded.length = first := by
    by_cases he : h.mem.seqs 0 = ∅
    · simp [ht.empty he]
    · rw [if_neg (ht.ne he)]
      have := hfirst he
      rw [ht.seqPosMax, if_neg he] at this
      omega
  have hstep : h.ubatch r0 f first toks = some { h with
      mem := mem
      live := toks.foldl f (h.recorded.foldl f r0)
      rows := if h.capturing ∧ 1 < h.tokens then
          fun j => if j < toks.length then (toks.take (j + 1)).foldl f (h.recorded.foldl f r0) else h.rows j
        else h.rows
      start := if h.recorded = [] then first else h.start
      recorded := h.recorded ++ toks } := by
    unfold Hist.ubatch
    rw [hfind]
    dsimp only
    rw [hbase]
  refine ⟨_, hstep, ?_, hmemne, rfl, hstart, rfl, rfl⟩
  refine ⟨?_, hsize, hsource, fun hc => absurd hc hmemne, fun _ => ?_, fun _ => ?_, fun _ => ?_, fun _ => ?_⟩
  · refine ht.consistent.findSlot ?_ hfind
    exact List.pairwise_singleton _ _
  · exact fun hc => hne (List.append_eq_nil_iff.mp hc).2
  · dsimp only
    split
    · exact h0
    · rename_i hr
      exact ht.start_nonneg fun hc => hr (ht.empty hc)
  · dsimp only
    rw [hpos, List.length_append]
    push_cast
    omega
  · dsimp only
    rw [List.foldl_append]

/-- All ubatches of a decode; a captured decode has only one. -/
theorem Tracked.ubatches : ∀ (us : List (List T)) (first : Int) (h : Hist R T), Tracked r0 f h →
    (∀ u ∈ us, u ≠ []) → us ≠ [] → 0 ≤ first → (h.mem.seqs 0 ≠ ∅ → first = h.mem.seqPosMax 0 + 1) →
    Hist.ubatches r0 f first us h = some h' →
    Tracked r0 f h' ∧ h'.mem.seqs 0 ≠ ∅ ∧ h'.recorded = h.recorded ++ us.flatten ∧
      h'.start + h.recorded.length = first ∧
      (h'.capturing, h'.valid, h'.seq, h'.firstPos, h'.tokens) = (h.capturing, h.valid, h.seq, h.firstPos, h.tokens)
  | [], _, _, _, _, hne, _, _, _ => absurd rfl hne
  | u :: us, first, h, ht, hall, _, h0, hfirst, hrun => by
    obtain ⟨h1, hstep, ht1, hne1, hrec1, hstart1, -, hsame1⟩ := ht.ubatch (hall u List.mem_cons_self) h0 hfirst
    rw [Hist.ubatches, hstep] at hrun
    dsimp only at hrun
    cases us with
    | nil =>
        cases hrun
        rw [List.flatten_cons, List.flatten_nil, List.append_nil]
        exact ⟨ht1, hne1, hrec1, hstart1, hsame1⟩
    | cons v us =>
        have hnext : h1.mem.seqs 0 ≠ ∅ → first + u.length = h1.mem.seqPosMax 0 + 1 := by
          intro _
          rw [ht1.seqPosMax, if_neg hne1, hrec1, List.length_append]
          push_cast
          omega
        obtain ⟨ht2, hne2, hrec2, hstart2, hsame2⟩ := Tracked.ubatches (v :: us) (first + u.length) h1 ht1
          (fun w hw => hall w (List.mem_cons_of_mem _ hw)) (List.cons_ne_nil _ _) (by omega) hnext hrun
        refine ⟨ht2, hne2, ?_, ?_, hsame2.trans hsame1⟩
        · rw [hrec2, hrec1, List.append_assoc]
          rfl
        · rw [hrec1, List.length_append] at hstart2
          push_cast at hstart2
          omega

/-! ## The invariant -/

/-- The latest decode is the end of what the sequence holds, and the rows are its prefixes. -/
structure Captured (r0 : R) (f : R → T → R) (h : Hist R T) (before : List T) : Prop where
  recorded : h.recorded = before ++ h.latest
  length : h.latest.length = h.tokens
  firstPos : h.firstPos = h.start + before.length
  rows : 1 < h.tokens → ∀ j < h.tokens, h.rows j = (h.latest.take (j + 1)).foldl f (before.foldl f r0)

theorem Captured.take {before : List T} (hcap : Captured r0 f h before) {k : Nat} :
    h.recorded.take (h.firstPos + k - h.start).toNat = before ++ h.latest.take k := by
  have hto : (h.firstPos + k - h.start).toNat = before.length + k := by
    have := hcap.firstPos
    omega
  rw [hto, hcap.recorded, List.take_length_add_append]

structure HistInv (r0 : R) (f : R → T → R) (h : Hist R T) : Prop where
  tracked : Tracked r0 f h
  window : h.valid ∨ h.capturing → h.seq = 0 ∧ 0 < h.tokens ∧ 0 ≤ h.firstPos
  captured : h.valid ∨ h.capturing → h.mem.seqPosMax 0 = h.firstPos + h.tokens - 1 → ∃ before, Captured r0 f h before
  behind : h.valid → h.firstPos + h.tokens - 1 ≤ h.mem.seqPosMax 0
  exclusive : h.valid → h.capturing = false

/-- Without a history in use there is nothing more to show. -/
theorem HistInv.of_tracked (ht : Tracked r0 f h) (hv : h.valid = false) (hc : h.capturing = false) :
    HistInv r0 f h := by
  have hnot : ¬ ((h.valid : Prop) ∨ (h.capturing : Prop)) := by simp [hv, hc]
  exact ⟨ht, fun h => absurd h hnot, fun h => absurd h hnot, fun h => absurd (.inl h) hnot, fun _ => hc⟩

theorem HistInv.create (supportsHistory : Bool) (rows : Nat → R) :
    HistInv r0 f (Hist.create r0 supportsHistory rows : Hist R T) := by
  have hempty : (Hist.create r0 supportsHistory rows : Hist R T).mem.seqs 0 = ∅ := rfl
  refine HistInv.of_tracked ⟨Consistent.create 1 _ _, rfl, rfl, fun _ => rfl, ?_, ?_, ?_, ?_⟩ rfl rfl
  · exact fun hne => absurd hempty hne
  · exact fun hne => absurd hempty hne
  · exact fun hne => absurd hempty hne
  · exact fun hne => absurd hempty hne

theorem HistInv.reserveHistory (hi : HistInv r0 f h) (capacity : Nat) :
    HistInv r0 f (h.reserveHistory capacity).2 := by
  unfold Hist.reserveHistory
  split
  · exact hi
  · split
    · exact hi
    · split
      · exact hi
      · obtain ⟨ht, hw, hc, hb, he⟩ := hi
        refine ⟨ht.congr rfl, hw, ?_, hb, he⟩
        intro hflag hpos
        obtain ⟨before, h1, h2, h3, h4⟩ := hc hflag hpos
        exact ⟨before, h1, h2, h3, h4⟩

theorem HistInv.beginHistory (hi : HistInv r0 f h) (seq firstPos : Int) (tokens : Nat) :
    HistInv r0 f (h.beginHistory seq firstPos tokens).2 := by
  have ht := hi.tracked
  unfold Hist.beginHistory
  dsimp only
  split
  · exact HistInv.of_tracked (ht.congr rfl) rfl rfl
  · rename_i hc
    simp only [not_or, not_lt, not_not] at hc
    obtain ⟨rfl, h0, hn, -, hfirst⟩ := hc
    refine ⟨ht.congr rfl,
      fun _ => ⟨rfl, Nat.pos_of_ne_zero hn, h0⟩, fun _ hpos => ?_, fun hv => absurd hv Bool.false_ne_true,
      fun hv => absurd hv Bool.false_ne_true⟩
    -- nothing has been decoded yet
    dsimp only at hpos
    omega

theorem HistInv.finishHistory (hi : HistInv r0 f h) : HistInv r0 f h.finishHistory.2 := by
  unfold Hist.finishHistory
  split
  · exact hi
  · rename_i hc
    simp only [not_or, not_not] at hc
    have ht := hi.tracked
    obtain ⟨hseq, hn, h0⟩ := hi.window (.inr hc.1)
    have hpos := hc.2
    rw [hseq] at hpos
    refine ⟨ht.congr rfl,
      fun _ => ⟨hseq, hn, h0⟩, fun _ _ => ?_, fun _ => hpos.ge, fun _ => rfl⟩
    obtain ⟨before, h1, h2, h3, h4⟩ := hi.captured (.inr hc.1) hpos
    exact ⟨before, h1, h2, h3, h4⟩

theorem HistInv.clear (hi : HistInv r0 f h) (data : Bool) : HistInv r0 f (h.clear r0 data) := by
  have hsize : 0 < h.mem.size := h.mem.size_pos
  have hempty : (h.clear r0 data).mem.seqs 0 = ∅ := Memory.seqs_clear hsize
  refine HistInv.of_tracked ⟨Consistent.clear h.mem, hi.tracked.one, ?_, fun _ => rfl, ?_, ?_, ?_, ?_⟩ rfl rfl
  · unfold SourceOk
    rw [if_pos hempty]
    simp [Hist.clear, Memory.clear, hsize]
  · exact fun hne => absurd hempty hne
  · exact fun hne => absurd hempty hne
  · exact fun hne => absurd hempty hne
  · exact fun hne => absurd hempty hne

/-! ## Decoding -/

theorem HistInv.decode (hi : HistInv r0 f h) {first : Nat} {us : List (List T)} {ok : Bool}
    (hdecode : h.decode r0 f first us = some (ok, h')) : HistInv r0 f h' := by
  have ht := hi.tracked
  unfold Hist.decode at hdecode
  split at hdecode
  · cases hdecode
  · rename_i hshape
    simp only [not_or, Bool.not_eq_true, List.any_eq_false, List.isEmpty_iff] at hshape
    split at hdecode
    · cases hdecode
      exact hi
    · rename_i hpos
      have hfirst : h.mem.seqs 0 ≠ ∅ → (first : Int) = h.mem.seqPosMax 0 + 1 := by
        intro hne
        have hlen := List.length_pos_iff.mpr (ht.ne hne)
        have hstart := ht.start_nonneg hne
        by_contra hc
        refine hpos ⟨?_, hc⟩
        rw [ht.seqPosMax, if_neg hne]
        omega
      cases hprep : h.prepare first us with
      | none => rw [hprep] at hdecode; cases hdecode
      | some b =>
          rw [hprep] at hdecode
          cases b with
          | false =>
              cases hdecode
              exact hi
          | true =>
              obtain ⟨h1, hrun, heq⟩ := Option.map_eq_some_iff.mp hdecode
              cases heq
              obtain ⟨ht1, hne1, hrec1, hstart1, hsame1⟩ := Tracked.ubatches us first h ht hshape.2 hshape.1
                (Int.natCast_nonneg first) hfirst hrun
              simp only [Prod.mk.injEq] at hsame1
              obtain ⟨hcap, hval, hseq, hfp, htok⟩ := hsame1
              have hmax : h1.mem.seqPosMax 0 = first + us.flatten.length - 1 := by
                rw [ht1.seqPosMax, if_neg hne1, hrec1, List.length_append]
                push_cast
                omega
              have hlen : 0 < us.flatten.length := by
                rw [List.length_pos_iff, ne_eq, List.flatten_eq_nil_iff]
                intro hall
                obtain ⟨u, hu⟩ := List.exists_mem_of_ne_nil us hshape.1
                exact hshape.2 u hu (hall u hu)
              by_cases hc : h.capturing = true
              · -- one ubatch with exactly the tokens that were announced
                unfold Hist.prepare at hprep
                split at hprep
                · cases hprep
                · rename_i hmatch
                  rw [not_and, not_not] at hmatch
                  obtain ⟨hone, hcount, hfp', hseq'⟩ := hmatch hc
                  obtain ⟨u, rfl⟩ := List.length_eq_one_iff.mp hone
                  rw [List.headD_cons] at hcount
                  rw [List.flatten_cons, List.flatten_nil, List.append_nil] at hmax hrec1 ⊢
                  obtain ⟨h2, hstep, -, -, -, -, hrows, -⟩ :=
                    ht.ubatch (hshape.2 u List.mem_cons_self) (Int.natCast_nonneg first) hfirst
                  have h21 : h2 = h1 := by
                    rw [Hist.ubatches, hstep] at hrun
                    exact Option.some.inj hrun
                  subst h21
                  refine ⟨ht1.congr rfl, fun _ => ?_, fun _ _ => ⟨h.recorded, hrec1, ?_, ?_, ?_⟩, fun _ => ?_,
                    fun hv => ?_⟩
                  · dsimp only
                    rw [hseq, htok, hfp]
                    exact hi.window (.inr hc)
                  · dsimp only
                    rw [htok, hcount]
                  · dsimp only
                    omega
                  · dsimp only
                    intro hlt j hj
                    rw [htok] at hlt hj
                    rw [hrows, if_pos ⟨hc, hlt⟩]
                    exact if_pos (by omega)
                  · dsimp only
                    omega
                  · dsimp only at hv
                    rw [hval] at hv
                    rw [hi.exclusive hv] at hc
                    cases hc
              · -- the sequence grows past a history that is still valid
                rw [Bool.not_eq_true] at hc
                have hpast : h.valid = true → h.firstPos + h.tokens - 1 < h1.mem.seqPosMax 0 := by
                  intro hv
                  obtain ⟨-, hn, h0⟩ := hi.window (.inl hv)
                  have hb := hi.behind hv
                  have hne : h.mem.seqs 0 ≠ ∅ := by
                    intro he
                    rw [ht.seqPosMax, if_pos he] at hb
                    omega
                  have := hfirst hne
                  omega
                refine ⟨ht1.congr rfl, fun hflag => ?_, fun hflag hat => ?_, fun hv => ?_, fun _ => ?_⟩
                · dsimp only at hflag ⊢
                  rw [hval, hcap] at hflag
                  rw [hseq, htok, hfp]
                  exact hi.window hflag
                · dsimp only at hflag hat
                  rw [hval, hcap, hc] at hflag
                  have := hpast (hflag.resolve_right Bool.false_ne_true)
                  omega
                · dsimp only at hv ⊢
                  rw [hval] at hv
                  have := hpast hv
                  omega
                · dsimp only
                  rw [hcap]
                  exact hc

/-! ## Removing and reading -/

theorem Memory.detach_one {m : Memory} (h : Consistent m) (h1 : m.size = 1) :
    (m.detach 0).seqs 0 = ∅ ∧ (m.tail 0 ≠ none → ((m.detach 0).cells 0).src = none) := by
  have hseqs : (m.detach 0).seqs 0 = (m.seqs 0).erase 0 := h.toLinked.seqs_detach (by omega) (by omega)
  obtain ⟨ht, hs⟩ | ⟨ht, hs⟩ := h.tail_zero h1
  · rw [hseqs, hs]
    exact ⟨rfl, fun hc => absurd ht hc⟩
  · rw [hseqs, hs]
    refine ⟨rfl, fun _ => ?_⟩
    unfold Memory.seqs at hs
    unfold Memory.detach
    rw [ht]
    simp [Memory.setTail, Memory.modify, MemCell.without, hs]

theorem Tracked.of_empty (hc : Consistent h.mem) (h1 : h.mem.size = 1) (hs : SourceOk h.mem)
    (he : h.mem.seqs 0 = ∅) (hr : h.recorded = []) : Tracked r0 f h :=
  ⟨hc, h1, hs, fun _ => hr, fun hne => absurd he hne, fun hne => absurd he hne, fun hne => absurd he hne,
    fun hne => absurd he hne⟩

theorem HistInv.seqRm (hi : HistInv r0 f h) {p0 p1 : Int} (hsafe : h.valid = true → ¬ h.mem.removesState 0 p0 p1) :
    HistInv r0 f (h.seqRm p0 p1) := by
  have ht := hi.tracked
  have h1 := ht.one
  obtain heq | ⟨hrem, k, hk, heq⟩ := ht.consistent.seqRm_one (x := 0) (by omega) p0 p1
  · have hid : h.seqRm p0 p1 = h := by
      unfold Hist.seqRm
      dsimp only
      rw [show ((0 : Nat) : Int) = 0 from rfl] at heq
      rw [heq]
      by_cases he : h.mem.seqs 0 = ∅
      · rw [if_pos he, ← ht.empty he]
      · rw [if_neg he]
    rw [hid]
    exact hi
  · have hval : h.valid = false := by
      by_contra hv
      rw [Bool.not_eq_false] at hv
      exact hsafe hv hrem
    obtain ⟨hempty, hsrc⟩ := Memory.detach_one ht.consistent h1
    have hmem : (h.seqRm p0 p1).mem = { h.mem.detach 0 with head := k } := heq
    have hseqs : (h.seqRm p0 p1).mem.seqs 0 = ∅ := by
      rw [hmem]
      exact hempty
    have hrec : (h.seqRm p0 p1).recorded = [] := if_pos hseqs
    have hcons : Consistent (h.seqRm p0 p1).mem := by
      rw [hmem]
      apply (ht.consistent.detach (by omega)).withHead
      rw [Memory.size_detach]
      exact lt_of_le_of_lt hk ht.consistent.head_lt
    have htracked : Tracked r0 f (h.seqRm p0 p1) := by
      refine Tracked.of_empty hcons ?_ ?_ hseqs hrec
      · rw [hmem]
        exact (Memory.size_detach _ _).trans h1
      · unfold SourceOk
        rw [if_pos hseqs, hmem]
        obtain ⟨t, htail, -⟩ := hrem
        exact hsrc (by rw [htail]; simp)
    refine ⟨htracked, fun hflag => ?_, fun hflag hat => ?_, fun hv => ?_, fun hv => ?_⟩
    · exact hi.window hflag
    · -- an empty sequence is not at the end of a history
      obtain ⟨-, hn, h0⟩ := hi.window hflag
      rw [htracked.seqPosMax, if_pos hseqs] at hat
      have hat' : (-1 : Int) = h.firstPos + h.tokens - 1 := hat
      omega
    · exact absurd (hval.symm.trans hv) Bool.false_ne_true
    · exact absurd (hval.symm.trans hv) Bool.false_ne_true

/-- The memory behind a `state_read` that brings sequence 0 to `pos`. -/
structure ReadOne (m : Memory) (pos : Int) : Prop where
  one : m.size = 1
  seqs : m.seqs 0 = {0}
  pos_eq : (m.cells 0).pos = pos
  src : (m.cells 0).src = some 0

theorem Tracked.of_readOne {s : Snapshot T} (hc : Consistent h.mem) (hr : ReadOne h.mem s.pos)
    (hl : h.live = s.tokens.foldl f r0) (hrec : h.recorded = s.tokens) (hstart : h.start = s.start) : Tracked r0 f h := by
  have hne : h.mem.seqs 0 ≠ ∅ := by
    rw [hr.seqs]
    exact Finset.singleton_ne_empty 0
  refine ⟨hc, hr.one, ?_, fun he => absurd he hne, fun _ => ?_, fun _ => ?_, fun _ => ?_, fun _ => ?_⟩
  · unfold SourceOk
    rw [if_neg hne]
    exact hr.src
  · rw [hrec]
    exact s.ne
  · rw [hstart]
    exact Int.natCast_nonneg s.start
  · rw [hr.pos_eq, hrec, hstart]
    rfl
  · rw [hl, hrec]

theorem HistInv.readSequence (hi : HistInv r0 f h) {s : Snapshot T} (hv : h.valid = false)
    (hc : h.capturing = false) (hread : h.readSequence r0 f s = some h') : HistInv r0 f h' := by
  have ht := hi.tracked
  obtain ⟨mem, hmem, rfl⟩ := Option.map_eq_some_iff.mp hread
  have hcons : Consistent mem := ht.consistent.stateRead (fun hd => by omega) hmem
  refine HistInv.of_tracked (Tracked.of_readOne hcons ?_ rfl rfl rfl) hv hc
  -- the sequence is removed, then placed like a ubatch
  have htrm : Tracked r0 f (h.seqRm (-1) (-1)) :=
    (hi.seqRm (fun hf => absurd (hv.symm.trans hf) Bool.false_ne_true)).tracked
  obtain ⟨m1, hfind, hsize, hseqs, hpos, hsrc, -⟩ :=
    htrm.consistent.findSlot_one htrm.one htrm.source s.start s.tokens.length
  unfold Memory.stateRead Memory.readSequence at hmem
  rw [if_pos (by decide)] at hmem
  dsimp only at hmem
  rw [if_neg (by simp)] at hmem
  have hslot : (h.mem.seqRm 0 (-1) (-1)).2.findSlot ⟨[⟨0, [], s.pos⟩], List.cons_ne_nil _ _⟩ = some (true, m1) := hfind
  simp only [List.getLast_singleton, hslot] at hmem
  obtain ⟨hfit, hkeep⟩ := Option.ite_none_right_eq_some.mp hmem
  cases hkeep
  have hhead : m1.head = 0 := by
    have hle := hfit.1
    rw [hsize, List.length_singleton] at hle
    omega
  refine ⟨hsize, ?_, ?_, ?_⟩
  · unfold Memory.keepSources Memory.seqs
    dsimp only
    split
    · exact hseqs
    · exact hseqs
  · unfold Memory.keepSources
    dsimp only
    split
    · exact hpos
    · exact hpos
  · simp [Memory.keepSources, hhead]

theorem HistInv.readWhole (hi : HistInv r0 f h) {s : Option (Snapshot T)} (hread : h.readWhole r0 f s = some h') :
    HistInv r0 f h' := by
  have hcl := (hi.clear true).tracked
  have h1 : h.mem.size = 1 := hi.tracked.one
  unfold Hist.readWhole at hread
  dsimp only at hread
  cases s with
  | none =>
      obtain ⟨mem, hmem, rfl⟩ := Option.map_eq_some_iff.mp hread
      have hcons : Consistent mem := hcl.consistent.stateRead (fun _ => by simp) hmem
      simp only [Memory.stateRead, Memory.readWhole, Memory.readCells, Hist.clear, ne_eq, not_true_eq_false, if_false,
        List.length_nil, Nat.not_lt_zero, Option.bind_eq_bind, Option.bind_some, Option.some.injEq] at hmem
      subst hmem
      refine HistInv.of_tracked (Tracked.of_empty hcons h1 ?_ ?_ rfl) rfl rfl
      · simp [SourceOk, Memory.keepSources, Memory.seqs, Memory.clear, h1]
      · simp [Memory.keepSources, Memory.seqs, Memory.clear, h1]
  | some s =>
      obtain ⟨mem, hmem, rfl⟩ := Option.map_eq_some_iff.mp hread
      have hcons : Consistent mem := hcl.consistent.stateRead (fun _ => by simp) hmem
      refine HistInv.of_tracked (Tracked.of_readOne hcons ?_ rfl rfl rfl) rfl rfl
      simp [Memory.stateRead, Memory.readWhole, Memory.readCells, Memory.readIds, Hist.clear, Memory.inRange, h1,
        Memory.clear, Memory.modify, Memory.tail] at hmem
      subst hmem
      refine ⟨rfl, ?_, ?_, ?_⟩
      · simp [Memory.keepSources, Memory.seqs, Memory.setTail, Memory.modify]
      · simp [Memory.keepSources, Memory.setTail, Memory.modify]
      · simp [Memory.keepSources, Memory.setTail, Memory.modify]

/-! ## Restoring -/

/-- A restore that returns true copies the row of the prefix, or keeps a state that is the prefix. -/
theorem HistInv.restore_spec (hi : HistInv r0 f h) {seq : Int} {k : Nat}
    (hk : (h.restoreHistory seq k).1 = true) :
    seq = 0 ∧ (0 < k ∧ k ≤ h.tokens) ∧ ∃ before, Captured r0 f h before ∧
      (h.restoreHistory seq k).2.live = (h.latest.take k).foldl f (before.foldl f r0) ∧
      (h.restoreHistory seq k).2.mem.tail 0 = some 0 ∧
      ((h.restoreHistory seq k).2.mem.cells 0).pos = h.firstPos + k - 1 ∧
      HistInv r0 f (h.restoreHistory seq k).2 := by
  have ht := hi.tracked
  unfold Hist.restoreHistory at hk ⊢
  split at hk
  · cases hk
  · rename_i hguard
    rw [if_neg hguard]
    simp only [not_or, not_not, not_lt] at hguard
    obtain ⟨hv, hseq, hk0, hkt, hpos⟩ := hguard
    obtain ⟨hzero, hn, h0⟩ := hi.window (.inl hv)
    rw [hzero] at hseq
    subst hseq
    obtain ⟨before, hcap⟩ := hi.captured (.inl hv) hpos
    have hcapturing := hi.exclusive hv
    have hne : h.mem.seqs 0 ≠ ∅ := by
      intro he
      rw [ht.seqPosMax, if_pos he] at hpos
      omega
    obtain ⟨-, he⟩ | ⟨htail, hseqs⟩ := ht.consistent.tail_zero ht.one
    · exact absurd he hne
    have hcell : ¬ ((h.mem.seqs 0).card ≠ 1 ∨ ¬ (h.mem.cells 0).hasSeqId 0) := by
      have hmem : 0 ∈ (h.mem.cells 0).seqId := by
        unfold Memory.seqs at hseqs
        rw [hseqs]
        exact Finset.mem_singleton_self 0
      rw [hseqs]
      simp [MemCell.hasSeqId, hmem]
    rw [Int.toNat_zero, htail]
    dsimp only
    rw [if_neg hcell]
    have hwhole := hcap.recorded
    refine ⟨rfl, ⟨Nat.pos_of_ne_zero hk0, hkt⟩, before, hcap, ?_⟩
    by_cases htok : h.tokens = 1
    · -- a single token wrote the live state directly
      rw [if_pos htok]
      have hkt1 : k = h.latest.length := by
        have := hcap.length
        omega
      have hlive : h.live = (h.latest.take k).foldl f (before.foldl f r0) := by
        rw [ht.live hne, hwhole, List.foldl_append, hkt1, List.take_length]
      refine ⟨hlive, htail, ?_, HistInv.of_tracked (ht.congr rfl) rfl hcapturing⟩
      dsimp only
      have hp := hcap.firstPos
      rw [ht.pos hne, hwhole, List.length_append]
      push_cast
      omega
    · rw [if_neg htok]
      have hlive : h.rows (k - 1) = (h.latest.take k).foldl f (before.foldl f r0) := by
        rw [hcap.rows (by omega) (k - 1) (by omega), Nat.sub_add_cancel (Nat.pos_of_ne_zero hk0)]
      have htake := hcap.take (k := k)
      have hclen : (h.latest.take k).length = k := by
        rw [List.length_take, hcap.length]
        omega
      refine ⟨hlive, ?_, ?_, HistInv.of_tracked ?_ rfl hcapturing⟩
      · rw [Memory.tail_modify]
        · exact htail
        · exact fun _ => rfl
      · simp [Memory.modify]
      · have hseqs' : ∀ i, (h.mem.modify 0 fun c =>
            { c with pos := h.firstPos + k - 1, src := some 0, src0 := some 0 }).seqs i = h.mem.seqs i := by
          intro i
          by_cases hi0 : i = 0
          · simp [Memory.seqs, Memory.modify, hi0]
          · simp [Memory.seqs, Memory.modify, hi0]
        refine ⟨?_, ht.one, ?_, fun he => ?_, fun _ => ?_, fun _ => ht.start_nonneg hne, fun _ => ?_, fun _ => ?_⟩
        · refine ht.consistent.congr rfl (fun y _ => ?_) (fun i _ => hseqs' i) (fun i hi he => ?_)
            ht.consistent.head_lt rfl
          · dsimp only
            rw [Memory.tail_modify]
            exact fun _ => rfl
          · obtain rfl : i = 0 := by
              have := ht.one
              omega
            exact absurd he hne
        · unfold SourceOk
          dsimp only
          rw [hseqs', if_neg hne]
          simp [Memory.modify]
        · dsimp only at he
          rw [hseqs'] at he
          exact absurd he hne
        · dsimp only
          rw [htake]
          intro hc
          have := congrArg List.length (List.append_eq_nil_iff.mp hc).2
          rw [hclen] at this
          exact hk0 this
        · dsimp only
          have := hcap.firstPos
          rw [htake, List.length_append, hclen]
          simp only [Memory.modify, Function.update_self]
          push_cast
          omega
        · dsimp only
          rw [htake, List.foldl_append, hlive]

theorem Hist.restoreHistory_false {seq : Int} {k : Nat} (hk : (h.restoreHistory seq k).1 = false) :
    (h.restoreHistory seq k).2 = h := by
  unfold Hist.restoreHistory at hk ⊢
  split at hk
  · rename_i hguard
    rw [if_pos hguard]
  · rename_i hguard
    rw [if_neg hguard]
    cases htail : h.mem.tail seq.toNat with
    | none => rfl
    | some tail =>
        rw [htail] at hk
        dsimp only at hk ⊢
        split at hk
        · rename_i hcell
          rw [if_pos hcell]
        · split at hk
          · cases hk
          · cases hk

theorem HistInv.restoreHistory (hi : HistInv r0 f h) (seq : Int) (k : Nat) :
    HistInv r0 f (h.restoreHistory seq k).2 := by
  cases hk : (h.restoreHistory seq k).1 with
  | false =>
      rw [Hist.restoreHistory_false hk]
      exact hi
  | true =>
      obtain ⟨-, -, before, -, -, -, -, hinv⟩ := hi.restore_spec hk
      exact hinv

/-! ## Runs -/

/-- Nothing is pulled out from under a history in use. -/
def HistOp.safe (h : Hist R T) : HistOp T → Prop
  | .seqRm p0 p1 => h.valid = true → ¬ h.mem.removesState 0 p0 p1
  | .readSequence _ => h.valid = false ∧ h.capturing = false
  | _ => True

theorem HistInv.step {op : HistOp T} (hi : HistInv r0 f h) (hsafe : op.safe h) (hstep : histStep r0 f op h = some h') :
    HistInv r0 f h' := by
  cases op with
  | reserveHistory capacity =>
      cases hstep
      exact hi.reserveHistory capacity
  | beginHistory seq firstPos tokens =>
      cases hstep
      exact hi.beginHistory seq firstPos tokens
  | decode first us =>
      obtain ⟨⟨ok, h1⟩, hdecode, rfl⟩ := Option.map_eq_some_iff.mp hstep
      exact hi.decode hdecode
  | finishHistory =>
      cases hstep
      exact hi.finishHistory
  | restoreHistory seq prefixTokens =>
      cases hstep
      exact hi.restoreHistory seq prefixTokens
  | readSequence s => exact hi.readSequence hsafe.1 hsafe.2 hstep
  | readWhole s => exact hi.readWhole hstep
  | seqRm p0 p1 =>
      cases hstep
      exact hi.seqRm hsafe
  | clear data =>
      cases hstep
      exact hi.clear data

/-- The live state behind `restore_history(0, k)` is that of the recorded tokens up to position `firstPos + k - 1`,
that is of the latest decode cut to its first `k` tokens, and the tail cell ends there. -/
structure RestoresPrefix (r0 : R) (f : R → T → R) (h : Hist R T) (k : Nat) : Prop where
  live : (h.restoreHistory 0 k).2.live = (h.recorded.take (h.firstPos + k - h.start).toNat).foldl f r0
  latest : ∃ before, h.recorded = before ++ h.latest ∧
    (h.restoreHistory 0 k).2.live = (h.latest.take k).foldl f (before.foldl f r0)
  pos : ∃ tail, (h.restoreHistory 0 k).2.mem.tail 0 = some tail ∧
    ((h.restoreHistory 0 k).2.mem.cells tail).pos = h.firstPos + k - 1

/-- **A restore that returns true restores the prefix it was asked for**, in every run of safe steps. -/
theorem restoreHistory_live (r0 : R) (f : R → T → R) (supportsHistory : Bool) (rows : Nat → R) (h : Hist R T)
    (hrun : Reaches (histStep r0 f) HistOp.safe (Hist.create r0 supportsHistory rows) h) (k : Nat)
    (hk : (h.restoreHistory 0 k).1 = true) : RestoresPrefix r0 f h k := by
  have hi : HistInv r0 f h := hrun.invariant (HistInv.create supportsHistory rows) fun _ _ _ hi hs hstep => hi.step hs hstep
  obtain ⟨-, ⟨hk0, hkt⟩, before, hcap, hlive, htail, hpos, -⟩ := hi.restore_spec hk
  refine ⟨?_, ⟨before, hcap.recorded, hlive⟩, ⟨0, htail, hpos⟩⟩
  rw [hlive, hcap.take, List.foldl_append]

end Restore

/-! ## Tokens as states -/

/-- The state that remembers every token. -/
def logState (r : List Nat) (t : Nat) : List Nat := r ++ [t]

/-- A memory with history support. -/
def freshHist : Hist (List Nat) Nat := Hist.create [] true fun _ => []

/-- Two tokens are verified. -/
def verifyTwo : List (HistOp Nat) :=
  [.reserveHistory 2, .beginHistory 0 0 2, .decode 0 [[1, 2]], .finishHistory]

def verifiedTwo : Hist (List Nat) Nat := (runList (histStep [] logState) verifyTwo freshHist).get (by decide)

theorem restoreHistory_live_verifiedTwo :
    (verifiedTwo.restoreHistory 0 1).1 = true ∧ RestoresPrefix [] logState verifiedTwo 1 := by
  have hrun : Reaches (histStep [] logState) HistOp.safe freshHist verifiedTwo := by
    refine Reaches.runList .start ?_ (Option.some_get (by decide : (runList _ verifyTwo _).isSome = true)).symm
    intro op hop v
    simp only [verifyTwo, List.mem_cons, List.not_mem_nil, or_false] at hop
    rcases hop with rfl | rfl | rfl | rfl <;> trivial
  exact ⟨by decide, restoreHistory_live [] logState true _ verifiedTwo hrun 1 (by decide)⟩

/-- The two tokens are removed and two others decoded, without a history. -/
def replaceTwo : List (HistOp Nat) := verifyTwo ++ [.seqRm (-1) (-1), .decode 0 [[3, 4]]]

def replacedTwo : Hist (List Nat) Nat := (runList (histStep [] logState) replaceTwo freshHist).get (by decide)

/-- The restore then returns true and brings back token 1 in the place of token 3. -/
theorem restoreHistory_stale :
    ¬ ∀ h : Hist (List Nat) Nat, Reaches (histStep [] logState) (fun _ _ => True) freshHist h → ∀ k,
      (h.restoreHistory 0 k).1 = true → RestoresPrefix [] logState h k := by
  intro hall
  have hrun : Reaches (histStep [] logState) (fun _ _ => True) freshHist replacedTwo :=
    Reaches.runList .start (fun _ _ _ => trivial) (Option.some_get _).symm
  have hlive := (hall replacedTwo hrun 1 (by decide)).live
  revert hlive
  decide

end S2Moe.Recurrent
