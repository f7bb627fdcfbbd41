import S2Moe.Draft.Counters
import S2Moe.Simple.Loop
import S2Moe.Spec.Cascade

/-!
# What a measurement is about

The cascade in the loops of the two programs. `llama-speculative` verifies a target batch in the iteration behind its decode,
`llama-speculative-simple` in the same iteration.

* `Clock` : the cascade with `n_predict_mark`, the samples that were consumed and the target batches that were decoded;
* `Speculative.iteration` : the outer loop of `llama-speculative` over the drafts of `Draft.Target`;
* `Generation.iteration` : the loop of `llama-speculative-simple` over `Simple.step`;
* `Attributed` : a sample has the candidate and the time of its batch, and the tokens that its verification emitted;
* `Clock.Timed` : the cascade between two iterations;
* `attributed_iff` : the second program keeps this, the first one while it accepts no draft token.
-/

namespace S2Moe.Spec.Cascade
open S2Moe.Lib
open S2Moe.Draft.Target (Settings Question Scoring Candidates Drafting draftTree startRound)

/-! ## The clock of both loops -/

/-- A decode of `batch_tgt`: the candidate it was drafted with, and its time. -/
structure Decoded where
  k : Int
  vUs : Int

/-- The candidate that `on_outer_iter_start` counts a sample for. -/
def State.credited (s : State) : Int := if s.testing then s.ks.getD s.testIdx 0 else s.bestK

/-- The cascade and the mark. Two fields are no part of the programs: `samples` has what was consumed, for whom it counts, and
`decoded` has the target batches. -/
structure Clock where
  cascade : State
  mark : Int := 0
  samples : List Measurement := []
  decoded : List Decoded := []

/-- The call of `on_outer_iter_start`. -/
def Clock.iterStart (c : Clock) (nPredict : Int) : Clock :=
  { c with
    cascade := c.cascade.onOuterIterStart nPredict c.mark
    mark := nPredict
    samples := c.samples ++
      if c.cascade.enabled && c.cascade.hasPending then [⟨c.cascade.credited, c.cascade.util nPredict c.mark⟩] else [] }

/-- The call of `on_verify_done`, behind the decode of a batch that was drafted with `k`. -/
def Clock.verifyDone (c : Clock) (k vUs : Int) : Clock :=
  { c with cascade := c.cascade.onVerifyDone vUs, decoded := c.decoded ++ [⟨k, vUs⟩] }

/-- The candidates of `llama-speculative-simple`: 0, 1, the middle and the cap, without repetitions. -/
def candidatesSimple (cap : Int) : List Int :=
  (([0] ++ (if 1 ≤ cap then [1] else []) ++ (if 2 ≤ cap then [max 2 (cap / 2)] else []) ++ [cap]).mergeSort
    fun a b => decide (a ≤ b)).dedup

/-- `init` there. -/
def State.initSimple (s : State) (sp : Params) : State :=
  if !sp.moeUtilitySpec then { s with enabled := false } else { s.init sp with ks := candidatesSimple (max 0 sp.nMax) }

/-! ## `llama-speculative` -/

/-- One question. `verified` is no part of the program: how many tokens the verification of each decoded batch emitted. -/
structure Speculative where
  clock : Clock
  question : Question
  verified : List Nat := []

/-- What an iteration finds: the verification, whether the loop ends behind it, the draft, and the time of the decode. -/
structure Iteration where
  verify : Question.Op
  stops : Bool
  oracle : Nat → Nat → Candidates
  sc : Nat → Scoring
  vUs : Int

namespace Speculative

def start (sp : Params) (nInput : Int) : Speculative where
  clock := { cascade := State.init {} sp }
  question := .start nInput

/-- The rows of `batch_tgt` that a draft needs. -/
def rows (p : Settings) (q : Question) (nDraft : Nat) (it : Iteration) : Nat :=
  match q.sampled with
  | none => 0
  | some tok =>
    let cfg := p.config nDraft q.nPastTgt
    (draftTree cfg p.prune it.oracle it.sc (startRound cfg tok q.drafts)).1.batchTgt.length

/-- One turn of the outer loop; it is missing behind the `break`, and where `common_batch_add` asserts. -/
def iteration (p : Settings) (nBatch : Nat) (it : Iteration) (s : Bool × Speculative) : Option (Bool × Speculative) :=
  if s.1 then none
  else
    let c := s.2.clock.iterStart s.2.question.nPredict
    let k := c.cascade.activeK
    match s.2.question.step p it.verify with
    | none => none
    | some q =>
      let verified := if c.decoded.isEmpty then s.2.verified else s.2.verified ++ [q.nPredict - s.2.question.nPredict]
      if it.stops then some (true, ⟨c, q, verified⟩)
      else if nBatch < rows p q k.toNat it then none
      else (q.step p (.draft k.toNat it.oracle it.sc)).map fun q => (false, ⟨c.verifyDone k it.vUs, q, verified⟩)

end Speculative

/-! ## `llama-speculative-simple` -/

section
variable {F : Type}

structure Generation (F : Type) where
  clock : Clock
  loop : Bool × Simple.Loop F
  verified : List Nat := []

/-- What a turn finds: the draft that each length leads to, and the time of the decode. -/
structure Turn where
  draft : Int → List Token
  vUs : Int

namespace Generation

def start (sp : Params) (l : Simple.Loop F) : Generation F where
  clock := { cascade := State.initSimple {} sp }
  loop := (false, l)

/-- One turn; it is missing behind the `break`, and where `common_batch_add` asserts. -/
def iteration (m : Simple.Model F) (prms : Simple.Params) (nBatch : Nat) (it : Turn) (s : Generation F) :
    Option (Generation F) :=
  let c := s.clock.iterStart s.loop.2.nPredict
  let k := c.cascade.activeK
  if nBatch < (Simple.usedDraft prms (it.draft k)).length + 1 then none
  else (Simple.step m prms (it.draft k) s.loop).map fun l =>
    ⟨c.verifyDone k it.vUs, l, s.verified ++ [l.2.nPredict - s.loop.2.nPredict]⟩

end Generation

end

/-! ## Attribution -/

/-- Sample `i` is about batch `i`, of which `toks` has the emitted tokens. -/
def Attributed (c : Clock) (toks : List Nat) : Prop :=
  ∀ (i : Nat) (x : Measurement), c.samples[i]? = some x → ∃ (b : Decoded) (n : Nat), c.decoded[i]? = some b ∧
    toks[i]? = some n ∧
    x.k = b.k ∧ x.util = (n : ℚ) / (max 1 b.vUs : Int)

/-! ## The cascade -/

/-- The cascade is on, and tests a candidate that there is. -/
structure State.Valid (s : State) : Prop where
  enabled : s.enabled = true
  ks : 0 < s.ks.length
  idx : s.testing = true → s.testIdx < s.ks.length

section States
variable {s : State}

theorem State.Valid.activeK (h : s.Valid) : s.activeK = s.credited := by
  rw [State.activeK, State.credited, h.enabled]
  by_cases ht : s.testing = true
  · have hidx := h.idx ht
    rw [if_neg (by decide), if_pos ht, if_pos ht, min_eq_left (by omega)]
  · rw [if_neg (by decide), if_neg ht, if_neg ht]

theorem keepBest_ks (s : State) : s.keepBest.ks = s.ks ∧ s.keepBest.testIdx = s.testIdx ∧ s.keepBest.testing = s.testing := by
  rw [State.keepBest]
  split_ifs <;> exact ⟨rfl, rfl, rfl⟩

theorem State.Valid.candidateDone (h : s.Valid) : s.candidateDone.Valid := by
  obtain ⟨hks, hidx, -⟩ := keepBest_ks s
  obtain ⟨henabled, -, -⟩ := candidateDone_waiting s
  refine ⟨henabled.trans h.enabled, ?_, ?_⟩
  · rw [State.candidateDone]
    dsimp only
    split_ifs <;> exact hks ▸ h.ks
  · rw [State.candidateDone]
    dsimp only
    split_ifs
    · exact fun ht => ht.elim
    · exact fun ht => ht.elim
    · rename_i hlast
      exact fun _ => not_le.mp hlast

theorem State.Valid.measure (h : s.Valid) (util : ℚ) : (s.measure util).Valid := by
  rw [State.measure]
  dsimp only
  split_ifs with ht
  · exact State.Valid.candidateDone ⟨h.enabled, h.ks, h.idx⟩
  · exact ⟨h.enabled, h.ks, h.idx⟩
  · exact ⟨h.enabled, h.ks, fun _ => h.ks⟩
  · exact ⟨h.enabled, h.ks, h.idx⟩

theorem State.Valid.onOuterIterStart (h : s.Valid) (nPredict mark : Int) : (s.onOuterIterStart nPredict mark).Valid := by
  rw [onOuterIterStart_of_enabled h.enabled]
  split_ifs
  · exact h.measure _
  · exact h

theorem State.Valid.onVerifyDone (h : s.Valid) (vUs : Int) : (s.onVerifyDone vUs).Valid := by
  rw [onVerifyDone_of_enabled h.enabled]
  exact ⟨h.enabled, h.ks, h.idx⟩

theorem State.Valid.credited_onVerifyDone (h : s.Valid) (vUs : Int) : (s.onVerifyDone vUs).credited = s.credited := by
  rw [onVerifyDone_of_enabled h.enabled]
  rfl

end States

theorem valid_init {sp : Params} (h : sp.moeUtilitySpec = true) : (State.init {} sp).Valid := by
  rw [State.init, h]
  exact ⟨rfl, ks_ne_nil sp, fun _ => ks_ne_nil sp⟩

theorem valid_initSimple {sp : Params} (h : sp.moeUtilitySpec = true) : (State.initSimple {} sp).Valid := by
  have hks : 0 < (candidatesSimple (max 0 sp.nMax)).length := by
    apply List.length_pos_of_mem (a := max 0 sp.nMax)
    rw [candidatesSimple, List.mem_dedup, List.mem_mergeSort]
    exact List.mem_append_right _ (List.mem_singleton.mpr rfl)
  rw [State.initSimple, State.init, h]
  exact ⟨rfl, hks, fun _ => hks⟩

/-! ## The clock -/

/-- The pending time is that of the last batch, and its candidate is the one in use. -/
structure Clock.Timed (c : Clock) : Prop where
  valid : c.cascade.Valid
  pending : c.cascade.hasPending = c.decoded.getLast?.isSome
  last : ∀ b, c.decoded.getLast? = some b → c.cascade.credited = b.k ∧ c.cascade.pendingVUs = max 1 b.vUs

section Clocks
variable {c c' : Clock} {toks toks' : List Nat}

theorem Clock.timed_start {s : State} (h : s.Valid) (hpending : s.hasPending = false) : Clock.Timed { cascade := s } where
  valid := h
  pending := hpending
  last b hb := by cases hb

/-- The first call consumes nothing. -/
theorem Clock.Timed.samples_none (h : c.Timed) (hnone : c.decoded.getLast? = none) (nPredict : Int) :
    (c.iterStart nPredict).samples = c.samples := by
  have hpending := h.pending
  rw [hnone] at hpending
  rw [Clock.iterStart, hpending]
  simp

/-- A later one consumes the last batch's time. -/
theorem Clock.Timed.samples_some (h : c.Timed) {b : Decoded} (hb : c.decoded.getLast? = some b) (nPredict : Int) :
    (c.iterStart nPredict).samples = c.samples ++ [⟨b.k, (wrap32 (nPredict - c.mark) : ℚ) / (max 1 b.vUs : Int)⟩] := by
  have hpending := h.pending
  rw [hb] at hpending
  obtain ⟨hk, hv⟩ := h.last b hb
  rw [Clock.iterStart, hpending, h.valid.enabled, ← hk, ← hv]
  rfl

/-- Behind the decode of the next batch. -/
theorem Clock.Timed.next (h : c.Timed) (nPredict vUs : Int) :
    ((c.iterStart nPredict).verifyDone (c.iterStart nPredict).cascade.activeK vUs).Timed := by
  have hvalid : (c.iterStart nPredict).cascade.Valid := h.valid.onOuterIterStart nPredict c.mark
  have hlast : ((c.iterStart nPredict).verifyDone (c.iterStart nPredict).cascade.activeK vUs).decoded.getLast? =
      some ⟨(c.iterStart nPredict).cascade.activeK, vUs⟩ := List.getLast?_concat
  refine ⟨hvalid.onVerifyDone vUs, ?_, fun b hb => ?_⟩
  · rw [hlast, Clock.verifyDone]
    dsimp only
    rw [onVerifyDone_of_enabled hvalid.enabled]
    rfl
  · rw [hlast] at hb
    obtain rfl := Option.some.inj hb
    refine ⟨(hvalid.credited_onVerifyDone vUs).trans hvalid.activeK.symm, ?_⟩
    rw [Clock.verifyDone]
    dsimp only
    rw [onVerifyDone_of_enabled hvalid.enabled]

theorem getElem?_of_prefix {α : Type} {xs ys : List α} (h : xs <+: ys) {i : Nat} {x : α} (hx : xs[i]? = some x) :
    ys[i]? = some x := by
  obtain ⟨hlt, rfl⟩ := List.getElem?_eq_some_iff.mp hx
  exact List.prefix_iff_getElem?.mp h i hlt

/-- Nothing is consumed. -/
theorem Attributed.mono (h : Attributed c toks) (hs : c'.samples = c.samples) (hd : c.decoded <+: c'.decoded)
    (ht : toks <+: toks') :
    Attributed c' toks' := by
  intro i x hx
  rw [hs] at hx
  obtain ⟨b, n, hb, hn, heq⟩ := h i x hx
  exact ⟨b, n, getElem?_of_prefix hd hb, getElem?_of_prefix ht hn, heq⟩

/-- The next batch is consumed. -/
theorem Attributed.push (h : Attributed c toks) {b : Decoded} {n : Nat} (hb : c.decoded[c.samples.length]? = some b)
    (hn : toks[c.samples.length]? = some n) (hs : c'.samples = c.samples ++ [⟨b.k, (n : ℚ) / (max 1 b.vUs : Int)⟩])
    (hd : c.decoded <+: c'.decoded) : Attributed c' toks := by
  intro i x hx
  rw [hs] at hx
  rcases Nat.lt_or_ge i c.samples.length with hlt | hge
  · rw [List.getElem?_append_left hlt] at hx
    obtain ⟨b', n', hb', hn', heq⟩ := h i x hx
    exact ⟨b', n', getElem?_of_prefix hd hb', hn', heq⟩
  · obtain rfl : i = c.samples.length := by
      have hlt := (List.getElem?_eq_some_iff.mp hx).1
      rw [List.length_append, List.length_singleton] at hlt
      omega
    rw [List.getElem?_concat_length] at hx
    obtain rfl := Option.some.inj hx
    exact ⟨b, n, getElem?_of_prefix hd hb, hn, rfl, rfl⟩

end Clocks

/-! ## `llama-speculative`: a verification behind the next call -/

namespace Speculative
variable {nBatch : Nat}

/-- The invariant of all states. The sample of a batch has the tokens of the verification in front of its decode, which at
first emits one token. -/
structure Delayed (s : Speculative) : Prop where
  attributed : Attributed s.clock (1 :: s.verified)
  length : s.clock.samples.length = s.verified.length
  accepted : s.question.nAccept = (s.verified.map (· - 1)).sum
  pos : ∀ n ∈ s.verified, 1 ≤ n

/-- Between two iterations: the last batch and the tokens in front of it are pending. -/
structure Running (nBatch : Nat) (s : Speculative) : Prop where
  timed : s.clock.Timed
  sampled : s.question.sampled = none
  fits : ∀ x, (s.question.drafts x).active = true → (s.question.drafts x).tokens.length < nBatch
  first : s.clock.decoded = [] → s.verified = [] ∧ ∀ x, (s.question.drafts x).active = false
  decoded : s.clock.decoded ≠ [] → s.clock.decoded.length = s.verified.length + 1
  emitted : s.clock.decoded ≠ [] → ∃ n : Nat, (1 :: s.verified)[s.verified.length]? = some n ∧ n ≤ 2147483647 ∧
    (s.question.nPredict : Int) - s.clock.mark = n

theorem start_delayed (sp : Params) (nInput : Int) : (start sp nInput).Delayed where
  attributed i x hx := by cases hx
  length := rfl
  accepted := rfl
  pos n hn := absurd hn List.not_mem_nil

theorem start_running {sp : Params} (h : sp.moeUtilitySpec = true) (nInput : Int) : (start sp nInput).Running nBatch where
  timed := Clock.timed_start (valid_init h) (by rw [State.init, h]; rfl)
  sampled := rfl
  fits x hx := by cases hx
  first _ := ⟨rfl, fun _ => rfl⟩
  decoded hne := absurd rfl hne
  emitted hne := absurd rfl hne

/-- A verification emits one token more than it accepts, and it accepts tokens of a draft only. -/
theorem Running.verify {s : Speculative} (h : s.Running nBatch) {p : Settings} {op : Question.Op} {q : Question}
    (hstep : s.question.step p op = some q) : ∃ (n : Nat) (tok : Token), q.nPredict = s.question.nPredict + (n + 1) ∧
      q.nAccept = s.question.nAccept + n ∧ q.sampled = some tok ∧ (n = 0 ∨ n < nBatch) ∧
      (s.clock.decoded = [] → n = 0) := by
  rcases Question.step_cases hstep with ⟨r, -, hr, rfl⟩ | ⟨tok, cfg, oracle, sc, htok, -⟩
  · have hle : r.1 = 0 ∨ ∃ x, (s.question.drafts x).active = true ∧ r.1 ≤ (s.question.drafts x).tokens.length := by
      cases op with
      | draft nDraft oracle sc => cases hr
      | greedy sample =>
        obtain ⟨r', hr', hle⟩ := Question.verification_spec p s.question (.greedy sample) fun _ _ _ h => by cases h
        exact Option.some.inj (hr.symm.trans hr') ▸ hle
      | stochastic target draws tok =>
        obtain ⟨r', hr', hle⟩ := Question.verification_spec p s.question
          (.stochastic target draws tok) fun _ _ _ h => by cases h
        exact Option.some.inj (hr.symm.trans hr') ▸ hle
    refine ⟨r.1, r.2, rfl, rfl, rfl, ?_, fun hnil => ?_⟩
    · exact hle.imp_right fun ⟨x, hx, hlen⟩ => hlen.trans_lt (h.fits x hx)
    · rcases hle with hzero | ⟨x, hx, -⟩
      · exact hzero
      · rw [(h.first hnil).2 x] at hx
        cases hx
  · rw [h.sampled] at htok
    cases htok

/-- The call in front of a verification consumes the last batch. -/
theorem Running.consume {s : Speculative} (h : s.Running nBatch) (hd : s.Delayed) :
    Attributed (s.clock.iterStart s.question.nPredict) (1 :: s.verified) ∧
      (s.clock.decoded = [] → (s.clock.iterStart s.question.nPredict).samples.length = s.verified.length) ∧
      (s.clock.decoded ≠ [] → (s.clock.iterStart s.question.nPredict).samples.length = s.verified.length + 1) := by
  cases hlast : s.clock.decoded.getLast? with
  | none =>
    have hs := h.timed.samples_none hlast s.question.nPredict
    refine ⟨hd.attributed.mono hs (List.prefix_refl _) (List.prefix_refl _), fun _ => ?_, fun hne => ?_⟩
    · rw [hs, hd.length]
    · exact absurd (List.getLast?_eq_none_iff.mp hlast) hne
  | some b =>
    have hne : s.clock.decoded ≠ [] := by
      rintro hnil
      rw [hnil] at hlast
      cases hlast
    have hs := h.timed.samples_some hlast s.question.nPredict
    obtain ⟨n, hn, hmax, heq⟩ := h.emitted hne
    have hwrap : wrap32 ((s.question.nPredict : Int) - s.clock.mark) = n := by
      rw [heq]
      exact wrap32_of_fits (by omega) (by omega)
    rw [hwrap] at hs
    have hb : s.clock.decoded[s.clock.samples.length]? = some b := by
      rw [hd.length, ← hlast, List.getLast?_eq_getElem?, h.decoded hne, Nat.add_sub_cancel]
    refine ⟨hd.attributed.push hb (by rw [hd.length]; exact hn) ?_ (List.prefix_refl _), fun hnil =>
      absurd hnil hne, fun _ => ?_⟩
    · rw [hs, Int.cast_natCast]
    · rw [hs, List.length_append, hd.length, List.length_singleton]

/-- A draft of the next batch. -/
theorem rows_spec {p : Settings} {q q' : Question} {nDraft : Nat} {it : Iteration} (hrows : rows p q nDraft it ≤ nBatch)
    (hstep : q.step p (.draft nDraft it.oracle it.sc) = some q') : q'.nPredict = q.nPredict ∧ q'.nAccept = q.nAccept ∧
      q'.sampled = none ∧ ∀ x, (q'.drafts x).active = true → (q'.drafts x).tokens.length < nBatch := by
  unfold Question.step at hstep
  cases hsampled : q.sampled with
  | none =>
    rw [hsampled] at hstep
    cases hstep
  | some tok =>
    rw [rows, hsampled] at hrows
    rw [hsampled] at hstep
    dsimp only at hrows hstep
    obtain rfl := Option.some.inj hstep
    refine ⟨rfl, rfl, rfl, fun x hx => ?_⟩
    generalize hcfg : p.config nDraft q.nPastTgt = cfg at hrows hx ⊢
    change (Draft.Target.eraseFront _ x).active = true at hx
    change (Draft.Target.eraseFront _ x).tokens.length < nBatch
    have hactive : ((draftTree cfg p.prune it.oracle it.sc (startRound cfg tok q.drafts)).1.drafts x).active = true := by
      rw [Draft.Target.eraseFront] at hx
      split_ifs at hx with hc
      · exact hc
      · exact hx
    have hwf := Draft.Target.wellFormed_draftTree cfg p.prune it.oracle it.sc tok q.drafts x hactive
    have hpos := hwf.pos
    have hle := hwf.length_le
    rw [Draft.Target.eraseFront, if_pos hactive, List.length_drop]
    omega

/-- What an iteration knows of its batch: nothing at first, and then the tokens of the verification. -/
def pushed (s : Speculative) (q : Question) : List Nat :=
  if (s.clock.iterStart s.question.nPredict).decoded.isEmpty then s.verified
  else s.verified ++ [q.nPredict - s.question.nPredict]

theorem Running.pushed {s : Speculative} (h : s.Running nBatch) (hd : s.Delayed) {q : Question} {n : Nat}
    (hpredict : q.nPredict = s.question.nPredict + (n + 1)) (haccept : q.nAccept = s.question.nAccept + n)
    (hfirst : s.clock.decoded = [] → n = 0) :
    (Speculative.mk (s.clock.iterStart s.question.nPredict) q (s.pushed q)).Delayed ∧
      (1 :: s.pushed q)[(s.pushed q).length]? = some (n + 1) ∧ (s.pushed q).length = s.clock.decoded.length := by
  obtain ⟨hattr, hnil, hcons⟩ := h.consume hd
  by_cases hd' : s.clock.decoded = []
  · obtain ⟨hempty, -⟩ := h.first hd'
    have hv : s.pushed q = [] := by
      rw [Speculative.pushed, show (s.clock.iterStart s.question.nPredict).decoded = [] from hd', hempty]
      rfl
    have hlen := hnil hd'
    have hsum := hd.accepted
    rw [hempty] at hattr hlen hsum
    have hzero := hfirst hd'
    rw [hv]
    refine ⟨⟨hattr, hlen, ?_, fun m hm => absurd hm List.not_mem_nil⟩, ?_, ?_⟩
    · show q.nAccept = _
      rw [haccept, hzero, hsum]
      rfl
    · rw [hzero]
      rfl
    · rw [hd']
      rfl
  · have hv : s.pushed q = s.verified ++ [n + 1] := by
      have hempty : (s.clock.iterStart s.question.nPredict).decoded.isEmpty = false := List.isEmpty_eq_false_iff.mpr hd'
      rw [Speculative.pushed, hempty, hpredict, Nat.add_sub_cancel_left]
      rfl
    have hlen : (s.pushed q).length = s.verified.length + 1 := by rw [hv, List.length_append, List.length_singleton]
    have hpre : 1 :: s.verified <+: 1 :: s.pushed q := by
      rw [hv]
      exact ⟨[n + 1], rfl⟩
    refine ⟨⟨hattr.mono rfl (List.prefix_refl _) hpre, ?_, ?_, ?_⟩, ?_, ?_⟩
    · rw [hlen]
      exact hcons hd'
    · show q.nAccept = ((s.pushed q).map (· - 1)).sum
      rw [haccept, hd.accepted, hv, List.map_append, List.sum_append, List.map_singleton, List.sum_singleton,
        Nat.add_sub_cancel]
    · show ∀ m ∈ s.pushed q, 1 ≤ m
      rw [hv]
      intro m hm
      rcases List.mem_append.mp hm with hm | hm
      · exact hd.pos m hm
      · rw [List.mem_singleton.mp hm]
        exact Nat.le_add_left 1 n
    · rw [hlen, List.getElem?_cons_succ, hv, List.getElem?_concat_length]
    · rw [hlen, h.decoded hd']

/-- One turn of the loop. -/
theorem Running.iteration {p : Settings} (hbatch : nBatch ≤ 2147483647) {it : Iteration} {s : Speculative}
    (h : s.Running nBatch)
    (hd : s.Delayed) {t : Bool × Speculative} (hstep : iteration p nBatch it (false, s) = some t) :
    t.2.Delayed ∧ (t.1 = false → t.2.Running nBatch) := by
  unfold Speculative.iteration at hstep
  rw [if_neg (show ¬ (false, s).1 = true from Bool.false_ne_true)] at hstep
  dsimp only at hstep
  split at hstep
  · cases hstep
  · rename_i q hverify
    obtain ⟨n, tok, hpredict, haccept, hsampled, hn, hfirst⟩ := h.verify hverify
    obtain ⟨hd', hlast, hsize⟩ := h.pushed hd hpredict haccept hfirst
    change (if it.stops = true then some (true, Speculative.mk _ q (s.pushed q)) else _) = some t at hstep
    split at hstep
    · obtain rfl := Option.some.inj hstep
      exact ⟨hd', fun hf => Bool.noConfusion hf⟩
    · split at hstep
      · cases hstep
      · rename_i hrows
        obtain ⟨q', hdraft, rfl⟩ := Option.map_eq_some_iff.mp hstep
        obtain ⟨hpredict', haccept', hsampled', hfits'⟩ := rows_spec (not_lt.mp hrows) hdraft
        have hne : ∀ k vUs, ((s.clock.iterStart s.question.nPredict).verifyDone k vUs).decoded ≠ [] :=
          fun _ _ => List.append_ne_nil_of_right_ne_nil _ (List.cons_ne_nil _ _)
        refine ⟨⟨hd'.attributed.mono rfl ⟨_, rfl⟩ (List.prefix_refl _), hd'.length, haccept'.trans hd'.accepted, hd'.pos⟩,
          fun _ => ?_⟩
        exact
          { timed := h.timed.next s.question.nPredict it.vUs
            sampled := hsampled'
            fits := hfits'
            first := fun hnil => absurd hnil (hne _ _)
            decoded := fun _ => by
              show (s.clock.decoded ++ [_]).length = (s.pushed q).length + 1
              rw [List.length_append, List.length_singleton, hsize]
            emitted := fun _ => by
              refine ⟨n + 1, hlast, by omega, ?_⟩
              show (q'.nPredict : Int) - (s.question.nPredict : Int) = ((n + 1 : Nat) : Int)
              rw [hpredict', hpredict]
              push_cast
              ring }

theorem reaches_delayed {sp : Params} (hon : sp.moeUtilitySpec = true) (hbatch : nBatch ≤ 2147483647) (p : Settings)
    (nInput : Int)
    {s : Bool × Speculative} (hs : Reaches (Speculative.iteration p nBatch) (fun _ _ => True) (false, start sp nInput) s) :
    s.2.Delayed ∧ (s.1 = false → s.2.Running nBatch) := by
  refine hs.invariant (I := fun s => s.2.Delayed ∧ (s.1 = false → s.2.Running nBatch))
    ⟨start_delayed sp nInput, fun _ => start_running hon nInput⟩ ?_
  rintro ⟨done, s⟩ t it ⟨hd, hrun⟩ - hstep
  cases done with
  | true => cases hstep
  | false => exact (hrun rfl).iteration hbatch hd hstep

/-- The tokens in front of a decode are those behind it exactly when every verification emits one. -/
theorem Delayed.accepts_iff {s : Speculative} (h : s.Delayed) : Attributed s.clock s.verified ↔ s.question.nAccept = 0 := by
  have hzero : s.question.nAccept = 0 ↔ ∀ n ∈ s.verified, n = 1 := by
    rw [h.accepted, List.sum_eq_zero_iff]
    constructor
    · intro hall n hn
      have := hall _ (List.mem_map_of_mem hn)
      have := h.pos n hn
      omega
    · intro hall x hx
      obtain ⟨n, hn, rfl⟩ := List.mem_map.mp hx
      rw [hall n hn]
      rfl
  rw [hzero]
  constructor
  · intro hattr
    have hsame : ∀ i n : Nat, s.verified[i]? = some n → (1 :: s.verified)[i]? = some n := by
      intro i n hn
      have hi : i < s.clock.samples.length := h.length ▸ (List.getElem?_eq_some_iff.mp hn).1
      have hx := List.getElem?_eq_getElem hi
      obtain ⟨b, n₁, hb, hn₁, -, hu₁⟩ := h.attributed i _ hx
      obtain ⟨b', n₂, hb', hn₂, -, hu₂⟩ := hattr i _ hx
      obtain rfl := Option.some.inj (hb.symm.trans hb')
      obtain rfl := Option.some.inj (hn.symm.trans hn₂)
      have hpos : ((max 1 b.vUs : Int) : ℚ) ≠ 0 := by
        have : (0 : Int) < max 1 b.vUs := lt_of_lt_of_le Int.one_pos (le_max_left _ _)
        exact_mod_cast this.ne'
      have heq : (n₁ : ℚ) = n := (div_left_inj' hpos).mp (hu₁.symm.trans hu₂)
      rw [hn₁, Nat.cast_inj.mp heq]
    have hone : ∀ i n : Nat, s.verified[i]? = some n → n = 1 := by
      intro i
      induction i with
      | zero =>
        intro n hn
        have := hsame 0 n hn
        exact (Option.some.inj this).symm
      | succ i ih =>
        intro n hn
        exact ih n (hsame (i + 1) n hn)
    intro n hn
    obtain ⟨i, hi⟩ := List.mem_iff_getElem?.mp hn
    exact hone i n hi
  · intro hall i x hx
    obtain ⟨b, n, hb, hn, hk, hu⟩ := h.attributed i x hx
    have hi : i < s.verified.length := h.length ▸ (List.getElem?_eq_some_iff.mp hx).1
    have hv := List.getElem?_eq_getElem hi
    have hn1 : n = 1 := by
      rcases List.mem_cons.mp (List.mem_of_getElem? hn) with h1 | h1
      · exact h1
      · exact hall n h1
    refine ⟨b, _, hb, hv, hk, ?_⟩
    rw [hu, hn1, hall _ (List.getElem_mem hi)]

end Speculative

/-! ## `llama-speculative-simple`: a verification in the same turn -/

namespace Generation
variable {F : Type} {nBatch : Nat}

theorem sampleAndAcceptN_length (m : Simple.Model F) (t : Simple.Target F) :
    ∀ (draft : List Token) (i : Nat) (result : List Token)
    {ids : List Token}, Simple.sampleAndAcceptN m t draft i result = some ids →
      ids.length ≤ result.length + draft.length + 1
  | [], i, result, ids, h => by
    obtain ⟨id, -, rfl⟩ := Option.map_eq_some_iff.mp h
    rw [List.length_append, List.length_singleton]
    exact Nat.le_refl _
  | d :: draft, i, result, ids, h => by
    rw [Simple.sampleAndAcceptN] at h
    split at h
    · cases h
    · rename_i id hid
      split at h
      · have hle := sampleAndAcceptN_length m t draft (i + 1) _ h
        rw [List.length_append, List.length_singleton] at hle
        rw [List.length_cons]
        omega
      · cases h
        rw [List.length_append, List.length_singleton, List.length_cons]
        omega

theorem acceptLoop_nPredict (m : Simple.Model F) : ∀ (ids : List Token) (l : Simple.Loop F),
    (Simple.acceptLoop m ids l).nPredict = l.nPredict
  | [], _ => rfl
  | id :: ids, l => by
    rw [Simple.acceptLoop]
    dsimp only
    split
    · rfl
    · rw [acceptLoop_nPredict m ids]

/-- A turn emits no more tokens than its batch has rows. -/
theorem step_nPredict {m : Simple.Model F} {prms : Simple.Params} {draft : List Token} {l l' : Bool × Simple.Loop F}
    (h : Simple.step m prms draft l = some l') : ∃ n : Nat, l'.2.nPredict = l.2.nPredict + n ∧
      n ≤ (Simple.usedDraft prms draft).length + 1 := by
  rw [Simple.step] at h
  split at h
  · cases h
  · obtain ⟨l₁, hround, rfl⟩ := Option.map_eq_some_iff.mp h
    rw [Simple.round] at hround
    split at hround
    · cases hround
    · rename_i ids hids
      obtain rfl := Option.some.inj hround
      have hle := sampleAndAcceptN_length m _ _ _ _ hids
      rw [List.length_nil, Nat.zero_add] at hle
      exact ⟨ids.length, acceptLoop_nPredict m ids _, hle⟩

/-- Between two turns: the last batch and its own tokens are pending. -/
structure Timely (s : Generation F) : Prop where
  timed : s.clock.Timed
  attributed : Attributed s.clock s.verified
  decoded : s.clock.decoded.length = s.verified.length
  samples : s.clock.samples.length = s.verified.length - 1
  emitted : ∀ n, s.verified.getLast? = some n → n ≤ 2147483647 ∧ (s.loop.2.nPredict : Int) - s.clock.mark = n

theorem start_timely {sp : Params} (h : sp.moeUtilitySpec = true) (l : Simple.Loop F) : (start sp l).Timely where
  timed := Clock.timed_start (valid_initSimple h) (by rw [State.initSimple, State.init, h]; rfl)
  attributed i x hx := by cases hx
  decoded := rfl
  samples := rfl
  emitted n hn := by cases hn

/-- The call in front of a draft consumes the last batch. -/
theorem Timely.consume {s : Generation F} (h : s.Timely) :
    Attributed (s.clock.iterStart s.loop.2.nPredict) s.verified ∧
      (s.clock.iterStart s.loop.2.nPredict).samples.length = s.verified.length := by
  cases hlast : s.clock.decoded.getLast? with
  | none =>
    have hs := h.timed.samples_none hlast s.loop.2.nPredict
    have hlen := h.decoded
    rw [List.getLast?_eq_none_iff.mp hlast, List.length_nil] at hlen
    refine ⟨h.attributed.mono hs (List.prefix_refl _) (List.prefix_refl _), ?_⟩
    rw [hs, h.samples]
    omega
  | some b =>
    have hs := h.timed.samples_some hlast s.loop.2.nPredict
    rw [List.getLast?_eq_getElem?, h.decoded] at hlast
    have hlt := (List.getElem?_eq_some_iff.mp hlast).1
    rw [h.decoded] at hlt
    have hn := List.getElem?_eq_getElem hlt
    obtain ⟨hmax, heq⟩ := h.emitted _ (List.getLast?_eq_getElem?.trans hn)
    rw [heq, wrap32_of_fits (by omega) (by omega)] at hs
    refine ⟨h.attributed.push (by rw [h.samples]; exact hlast) (by rw [h.samples]; exact hn) ?_ (List.prefix_refl _), ?_⟩
    · rw [hs, Int.cast_natCast]
    · rw [hs, List.length_append, h.samples, List.length_singleton]
      omega

theorem Timely.iteration {m : Simple.Model F} {prms : Simple.Params} (hbatch : nBatch ≤ 2147483647) {it : Turn}
    {s t : Generation F}
    (h : s.Timely) (hstep : iteration m prms nBatch it s = some t) : t.Timely := by
  obtain ⟨hattr, hlen⟩ := h.consume
  unfold Generation.iteration at hstep
  dsimp only at hstep
  split at hstep
  · cases hstep
  · rename_i hrows
    obtain ⟨l, hl, rfl⟩ := Option.map_eq_some_iff.mp hstep
    obtain ⟨n, hn, hle⟩ := step_nPredict hl
    rw [hn, Nat.add_sub_cancel_left]
    exact
      { timed := h.timed.next s.loop.2.nPredict it.vUs
        attributed := hattr.mono rfl ⟨_, rfl⟩ ⟨_, rfl⟩
        decoded := by
          show (s.clock.decoded ++ [_]).length = (s.verified ++ [n]).length
          rw [List.length_append, List.length_append, h.decoded]
          rfl
        samples := by
          show (s.clock.iterStart s.loop.2.nPredict).samples.length = (s.verified ++ [n]).length - 1
          rw [hlen, List.length_append, List.length_singleton, Nat.add_sub_cancel]
        emitted := by
          intro n' hn'
          rw [List.getLast?_concat] at hn'
          obtain rfl := Option.some.inj hn'
          refine ⟨by omega, ?_⟩
          show (l.2.nPredict : Int) - (s.loop.2.nPredict : Int) = n
          rw [hn]
          push_cast
          ring }

end Generation

/-! ## Both programs -/

/-- **Whose tokens and whose time.** In `llama-speculative-simple` every sample is about one batch. In `llama-speculative`
a sample has the time and the candidate of a batch, but the tokens that were emitted in front of its decode: a run is as
it should be if and only if it accepts no draft token. -/
theorem attributed_iff {sp : Params} (hon : sp.moeUtilitySpec = true) {nBatch : Nat} (hbatch : nBatch ≤ 2147483647) {F : Type}
    (m : Simple.Model F) (prms : Simple.Params) (l : Simple.Loop F) (p : Settings) (nInput : Int) :
    (∀ s, Reaches (Generation.iteration m prms nBatch) (fun _ _ => True) (Generation.start sp l) s →
      Attributed s.clock s.verified) ∧
    ∀ s, Reaches (Speculative.iteration p nBatch) (fun _ _ => True) (false, Speculative.start sp nInput) s →
      (Attributed s.2.clock s.2.verified ↔ s.2.question.nAccept = 0) := by
  constructor
  · intro s hs
    have htimely : s.Timely :=
      hs.invariant (Generation.start_timely hon l) fun _ _ _ h _ hstep => h.iteration hbatch hstep
    exact htimely.attributed
  · intro s hs
    exact (Speculative.reaches_delayed hon hbatch p nInput hs).1.accepts_iff

/-! ## The first measurement of the cap -/

/-- One test of each candidate, which are 0 and 1. -/
def capOne : Params where
  moeUtilitySpec := true
  nMax := 1
  utilityTestIters := 1

/-- The target says 3 everywhere; the draft says 7. -/
def plainTurn (stops : Bool) : Iteration where
  verify := .greedy fun _ _ => 3
  stops := stops
  oracle _ _ := ⟨1, fun _ => ⟨7, 1⟩⟩
  sc _ := ⟨fun _ => 0, fun _ => true⟩
  vUs := 1

/-- The target says 7 and then 3. -/
def acceptingTurn : Iteration := { plainTurn true with verify := .greedy fun acc _ => if acc = [] then 7 else 3 }

def runQuestion (its : List Iteration) : Option (Bool × Speculative) :=
  runList (Speculative.iteration (Draft.Target.oneSequence false) 32) its (false, Speculative.start capOne 10)

theorem runQuestion_reaches {its : List Iteration} {s : Bool × Speculative} (h : runQuestion its = some s) :
    Reaches (Speculative.iteration (Draft.Target.oneSequence false) 32) (fun _ _ => True)
      (false, Speculative.start capOne 10) s :=
  Reaches.start.runList (fun _ _ _ => trivial) h

theorem attributed_iff_plainTurns : ∃ s, runQuestion [plainTurn false, plainTurn false, plainTurn true] = some s ∧
    s.2.clock.samples.length = 2 ∧ (Attributed s.2.clock s.2.verified ↔ s.2.question.nAccept = 0) := by
  have hrun : (runQuestion [plainTurn false, plainTurn false, plainTurn true]).map (fun s => s.2.clock.samples.length) =
    some 2 := by
    decide +kernel
  obtain ⟨s, hs, hlen⟩ := Option.map_eq_some_iff.mp hrun
  exact ⟨s, hs, hlen, (attributed_iff rfl (by norm_num) ⟨fun _ => 0, fun _ => (), fun _ => false⟩ ⟨false, 0, 0⟩
    { target := {}, promptTgt := [], idLast := 0, nPast := 0 } (Draft.Target.oneSequence false) 10).2 s
      (runQuestion_reaches hs)⟩

/-- The draft of the cap is accepted, but what it emitted is not in the cap's sample. -/
theorem acceptingTurn_not_attributed : ¬ ∀ (sp : Params) (p : Settings) (nBatch : Nat) (nInput : Int)
    (s : Bool × Speculative),
    sp.moeUtilitySpec = true →
    Reaches (Speculative.iteration p nBatch) (fun _ _ => True) (false, Speculative.start sp nInput) s →
      Attributed s.2.clock s.2.verified := by
  intro hall
  have hrun : (runQuestion [plainTurn false, plainTurn false, acceptingTurn]).map (fun s =>
      (s.2.clock.samples.map fun x => (x.k, x.util), s.2.clock.decoded.map fun b => (b.k, b.vUs), s.2.verified)) =
      some ([(0, 1), (1, 1)], [(0, 1), (1, 1)], [1, 2]) := by decide +kernel
  obtain ⟨s, hs, heq⟩ := Option.map_eq_some_iff.mp hrun
  obtain ⟨hsamples, heq⟩ := Prod.mk.inj heq
  obtain ⟨hdecoded, hverified⟩ := Prod.mk.inj heq
  have hattr := hall capOne (Draft.Target.oneSequence false) 32 10 s rfl (runQuestion_reaches hs)
  have hsample : (s.2.clock.samples[1]?).map (fun x => (x.k, x.util)) = some (1, 1) := by
    rw [← List.getElem?_map, hsamples]
    rfl
  obtain ⟨x, hx, hxu⟩ := Option.map_eq_some_iff.mp hsample
  obtain ⟨b, n, hb, hn, -, hu⟩ := hattr 1 x hx
  have hbv : b.vUs = 1 := by
    have hget : (s.2.clock.decoded.map fun b => (b.k, b.vUs))[1]? = some (b.k, b.vUs) := by
      rw [List.getElem?_map, hb]
      rfl
    rw [hdecoded] at hget
    exact (Prod.mk.inj (Option.some.inj hget)).2.symm
  rw [hverified] at hn
  obtain rfl : 2 = n := Option.some.inj hn
  rw [(Prod.mk.inj hxu).2, hbv] at hu
  norm_num at hu

end S2Moe.Spec.Cascade
