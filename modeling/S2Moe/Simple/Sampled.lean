import Mathlib
import S2Moe.Sampling.Sampler
import S2Moe.Simple.Loop

/-!
# The generation loop with a sampler that has a state

The target gives a row of logits for the text that a row of the batch sees. The sampler keeps what it draws from, its grammar and
its last tokens from one token to the next.

* `Sampled`, `startSampled`, `Sampled.round`, `runSampled` : the loop of `llama-speculative-simple` with `common_sampler`;
* `plain` : tokens sampled one behind the other, without a draft;
* `sampleLoop_spec` : what is sampled along a draft is sampled without it;
* `run_lossless` : so is all that a run produces, and until an end of generation the sampler is where it would be.
-/

namespace S2Moe.Simple
open S2Moe.Lib
open S2Moe.Sampling (Sampler Setup Fault)

/-- The variables of one question, with its sampler. -/
structure Sampled (F C : Type) where
  loop : Loop F
  smpl : Sampler C

section Model
variable {L C F : Type} [DecidableEq L] (m : Model F) (row : List Token → List L) (σ : Setup L C) (fuel : Nat)

/-- Up to the loop, for a prompt that ends with `last`. The native drafters sample the first token at once. -/
def startSampled (prms : Params) (inp : List Token) (last : Token) (smpl : Sampler C) : Except Fault (Sampled F C) :=
  if prms.native then do
    let t := Target.decode m {} 0 (inp ++ [last]) false
    let r ← smpl.next σ fuel (row (t.outputs.getLastD [])) false
    .ok ⟨{ target := t, promptTgt := inp ++ [last], idLast := r.1, nPast := (inp ++ [last]).length, nPredict := 1,
           produced := [r.1] }, r.2⟩
  else
    .ok ⟨{ target := Target.decode m {} 0 inp false, promptTgt := inp, idLast := last, nPast := inp.length }, smpl⟩

/-- One turn, from the draft on. -/
def Sampled.round (prms : Params) (draft : List Token) (s : Sampled F C) : Except Fault (Sampled F C) := do
  let draft := usedDraft prms draft
  let t := s.loop.target.decode m s.loop.nPast (s.loop.idLast :: draft) true
  let r ← Sampling.sampleAndAcceptN σ fuel s.smpl (t.outputs.map row) draft false
  let loop := acceptLoop m r.1 { s.loop with
    target := t, nPast := s.loop.nPast + 1 + (r.1.length - 1), nPredict := s.loop.nPredict + r.1.length }
  .ok ⟨{ loop with target := loop.target.seqRm loop.nPast }, r.2⟩

/-- Turns with the given drafts, until the loop stops. -/
def runSampled (prms : Params) : List (List Token) → Sampled F C → Except Fault (Sampled F C)
  | [], s => .ok s
  | draft :: drafts, s => do
    let s ← s.round m row σ fuel prms draft
    if s.loop.stops prms then .ok s else runSampled prms drafts s

/-- The first `n` tokens behind a text, sampled one behind the other. -/
def plain : Nat → List Token → Sampler C → Except Fault (List Token × Sampler C)
  | 0, _, s => .ok ([], s)
  | n + 1, text, s => do
    let r ← s.next σ fuel (row text) false
    let r' ← plain n (text ++ [r.1]) r.2
    .ok (r.1 :: r'.1, r'.2)

end Model

section Plain
variable {L C : Type} [DecidableEq L] {row : List Token → List L} {σ : Setup L C} {fuel : Nat}

theorem plain_add (k : Nat) : ∀ (n : Nat) (text : List Token) (s : Sampler C),
    plain row σ fuel (n + k) text s = plain row σ fuel n text s >>= fun r =>
      (fun r' => (r.1 ++ r'.1, r'.2)) <$> plain row σ fuel k (text ++ r.1) r.2 := by
  intro n
  induction n with
  | zero =>
      intro text s
      rw [Nat.zero_add]
      show _ = (fun r' => ([] ++ r'.1, r'.2)) <$> plain row σ fuel k (text ++ []) s
      rw [List.append_nil]
      cases plain row σ fuel k text s <;> rfl
  | succ n ih =>
      intro text s
      rw [Nat.succ_add, plain, plain]
      cases s.next σ fuel (row text) false with
      | error e => rfl
      | ok r =>
          show (plain row σ fuel (n + k) (text ++ [r.1]) r.2 >>= _) = (plain row σ fuel n (text ++ [r.1]) r.2 >>= _) >>= _
          rw [ih]
          cases plain row σ fuel n (text ++ [r.1]) r.2 with
          | error e => rfl
          | ok r' =>
              show ((fun x => (r'.1 ++ x.1, x.2)) <$> plain row σ fuel k (text ++ [r.1] ++ r'.1) r'.2) >>= _ =
                (fun x => (r.1 :: r'.1 ++ x.1, x.2)) <$> plain row σ fuel k (text ++ (r.1 :: r'.1)) r'.2
              rw [List.append_assoc, List.singleton_append]
              cases plain row σ fuel k (text ++ (r.1 :: r'.1)) r'.2 <;> rfl

theorem plain_length : ∀ {n : Nat} {text : List Token} {s : Sampler C} {r : List Token × Sampler C},
    plain row σ fuel n text s = .ok r → r.1.length = n := by
  intro n
  induction n with
  | zero =>
      intro text s r h
      cases h
      rfl
  | succ n ih =>
      intro text s r h
      obtain ⟨first, -, h⟩ := bind_eq_ok h
      obtain ⟨rest, hrest, h⟩ := bind_eq_ok h
      cases h
      rw [List.length_cons, ih hrest]

/-- Fewer tokens are the first ones. -/
theorem plain_prefix {n : Nat} {text l : List Token} {s : Sampler C} {r : List Token × Sampler C}
    (h : plain row σ fuel n text s = .ok r) (hl : l <+: r.1) : ∃ s', plain row σ fuel l.length text s = .ok (l, s') := by
  obtain ⟨k, rfl⟩ := Nat.exists_eq_add_of_le (hl.length_le.trans_eq (plain_length h))
  rw [plain_add] at h
  obtain ⟨first, hfirst, h⟩ := bind_eq_ok h
  obtain ⟨rest, -, rfl⟩ := map_eq_ok h
  refine ⟨first.2, ?_⟩
  rw [hfirst, show l = first.1 from ?_]
  have hpre : first.1 <+: first.1 ++ rest.1 := List.prefix_append _ _
  exact (List.prefix_of_prefix_length_le hl hpre (plain_length hfirst).ge).eq_of_length (plain_length hfirst).symm

/-- The rows of a batch: what each of them sees behind `text`. -/
def rowsOf (row : List Token → List L) (text draft : List Token) : List (List L) :=
  (List.range (draft.length + 1)).map fun i => row (text ++ draft.take i)

omit [DecidableEq L] in
theorem rowsOf_cons (text : List Token) (d : Token) (draft : List Token) :
    rowsOf row text (d :: draft) = row text :: rowsOf row (text ++ [d]) draft := by
  rw [rowsOf, List.length_cons, List.range_succ_eq_map, List.map_cons, List.take_zero, List.append_nil, List.map_map, rowsOf]
  congr 1
  apply List.map_congr_left
  intro i _
  show row (text ++ (d :: draft).take (i + 1)) = row (text ++ [d] ++ draft.take i)
  rw [List.take_succ_cons, List.append_cons]

/-- What the loop over a draft samples. -/
structure Along (row : List Token → List L) (σ : Setup L C) (fuel : Nat) (text draft : List Token) (s : Sampler C)
    (new : List Token) (s' : Sampler C) : Prop where
  sampled : plain row σ fuel new.length text s = .ok (new, s')
  ne : new ≠ []
  taken : new.dropLast <+: draft

variable (row σ fuel) in
/-- **What is sampled along a draft is sampled without it**, and so is what fails. -/
theorem sampleLoop_spec : ∀ (draft text result : List Token) (s : Sampler C),
    (∀ ids s', Sampling.sampleLoop σ fuel false draft (rowsOf row text draft) s result = .ok (ids, s') →
      ∃ new, ids = result ++ new ∧ Along row σ fuel text draft s new s') ∧
    ∀ e, Sampling.sampleLoop σ fuel false draft (rowsOf row text draft) s result = .error e →
      ∃ n, plain row σ fuel n text s = .error e := by
  intro draft
  induction draft with
  | nil =>
      intro text result s
      have hrows : rowsOf row text [] = [row text] := by
        rw [rowsOf, List.length_nil, List.range_one, List.map_singleton, List.take_nil, List.append_nil]
      rw [hrows, Sampling.sampleLoop]
      refine ⟨fun ids s' h => ?_, fun e h => ⟨1, ?_⟩⟩
      · obtain ⟨r, hr, h⟩ := bind_eq_ok h
        cases h
        refine ⟨[r.1], rfl, ?_, List.cons_ne_nil _ _, List.prefix_rfl⟩
        show (s.next σ fuel (row text) false >>= _) = _
        rw [hr]
        rfl
      · show (s.next σ fuel (row text) false >>= _) = _
        cases hr : s.next σ fuel (row text) false with
        | error e' =>
            rw [hr] at h
            cases h
            rfl
        | ok r =>
            rw [hr] at h
            cases h
  | cons d draft ih =>
      intro text result s
      rw [rowsOf_cons, Sampling.sampleLoop]
      cases hr : s.next σ fuel (row text) false with
      | error e' =>
          refine ⟨fun ids s' h => (by cases h), fun e h => ⟨1, ?_⟩⟩
          cases h
          show (s.next σ fuel (row text) false >>= _) = _
          rw [hr]
          rfl
      | ok r =>
          show (∀ ids s', (if d ≠ r.1 then Except.ok (result ++ [r.1], r.2) else _) = _ → _) ∧
            ∀ e, (if d ≠ r.1 then Except.ok (result ++ [r.1], r.2) else _) = _ → _
          have hplain : ∀ n, plain row σ fuel (n + 1) text s =
              plain row σ fuel n (text ++ [r.1]) r.2 >>= fun r' => .ok (r.1 :: r'.1, r'.2) := fun n => by
            rw [plain, hr]
            rfl
          by_cases hd : d ≠ r.1
          · rw [if_pos hd]
            refine ⟨fun ids s' h => ?_, fun e h => (by cases h)⟩
            cases h
            exact ⟨[r.1], rfl, hplain 0, List.cons_ne_nil _ _, List.nil_prefix⟩
          · rw [if_neg hd]
            rw [not_not] at hd
            subst hd
            obtain ⟨hok, herror⟩ := ih (text ++ [r.1]) (result ++ [r.1]) r.2
            refine ⟨fun ids s' h => ?_, fun e h => ?_⟩
            · obtain ⟨new, hids, halong⟩ := hok ids s' h
              refine ⟨r.1 :: new, by rw [hids, List.append_assoc]; rfl, ?_, List.cons_ne_nil _ _, ?_⟩
              · rw [List.length_cons, hplain, halong.sampled]
                rfl
              · rw [List.dropLast_cons_of_ne_nil halong.ne]
                exact List.cons_prefix_cons.mpr ⟨rfl, halong.taken⟩
            · obtain ⟨n, hn⟩ := herror e h
              refine ⟨n + 1, ?_⟩
              rw [hplain, hn]
              rfl

end Plain

section Runs
variable {L C F : Type} [DecidableEq L] {m : Model F} {row : List Token → List L} {σ : Setup L C} {fuel : Nat} {prms : Params}
  {text : List Token} {smpl : Sampler C}

variable (m row σ fuel prms text smpl) in
/-- At the start of a turn. -/
structure SampledInv (s : Sampled F C) : Prop where
  whole : s.loop.promptTgt ++ [s.loop.idLast] = text ++ s.loop.produced
  size : s.loop.promptTgt.length = s.loop.nPast
  cache : Holds s.loop.target s.loop.promptTgt
  sampled : plain row σ fuel s.loop.produced.length text smpl = .ok (s.loop.produced, s.smpl)
  eog : ∀ i x, s.loop.produced[i]? = some x → m.eog x = true → prms.native = true ∧ i = 0
  hasEos : s.loop.hasEos = false

variable (m row σ fuel prms text smpl) in
/-- What was produced is what is sampled one behind the other. Only its last token may end the generation, or the first one of
a native drafter. -/
structure Lossless (s : Sampled F C) : Prop where
  sampled : ∃ smpl', plain row σ fuel s.loop.produced.length text smpl = .ok (s.loop.produced, smpl') ∧
    (s.loop.hasEos = false → smpl' = s.smpl)
  eog : ∀ i x, s.loop.produced[i]? = some x → m.eog x = true → i + 1 = s.loop.produced.length ∨ prms.native = true ∧ i = 0

/-- The rows of a turn's batch. -/
theorem SampledInv.rows {s : Sampled F C} (h : SampledInv m row σ fuel prms text smpl s) (used : List Token) :
    (s.loop.target.decode m s.loop.nPast (s.loop.idLast :: used) true).outputs.map row =
      rowsOf row (text ++ s.loop.produced) used := by
  obtain ⟨-, houtputs, -⟩ := h.cache.decode m (List.cons_ne_nil s.loop.idLast used) true
  rw [h.size] at houtputs
  rw [houtputs, rowsOf, List.map_map, List.length_cons]
  apply List.map_congr_left
  intro i _
  show row ((s.loop.promptTgt ++ s.loop.idLast :: used).take (s.loop.nPast + i + 1)) = _
  have hlen : (s.loop.promptTgt ++ [s.loop.idLast]).length = s.loop.nPast + 1 := by
    rw [List.length_append, h.size, List.length_singleton]
  rw [List.append_cons, ← h.whole, List.take_append, List.take_of_length_le (by omega), hlen]
  congr 3
  omega

/-- What a turn makes of the tokens that were sampled along its draft. -/
theorem SampledInv.accept {s : Sampled F C} (h : SampledInv m row σ fuel prms text smpl s) {used new : List Token}
    {smpl' : Sampler C} {loop : Loop F} (halong : Along row σ fuel (text ++ s.loop.produced) used s.smpl new smpl')
    (hloop : loop = acceptLoop m new { s.loop with
      target := s.loop.target.decode m s.loop.nPast (s.loop.idLast :: used) true
      nPast := s.loop.nPast + 1 + (new.length - 1), nPredict := s.loop.nPredict + new.length }) :
    Lossless m row σ fuel prms text smpl ⟨{ loop with target := loop.target.seqRm loop.nPast }, smpl'⟩ ∧
      (loop.hasEos = false →
        SampledInv m row σ fuel prms text smpl ⟨{ loop with target := loop.target.seqRm loop.nPast }, smpl'⟩) := by
  obtain ⟨htext, hprod, heos, htgt, hpast⟩ := acceptLoop_spec m new { s.loop with
    target := s.loop.target.decode m s.loop.nPast (s.loop.idLast :: used) true
    nPast := s.loop.nPast + 1 + (new.length - 1), nPredict := s.loop.nPredict + new.length }
  rw [← hloop] at htext hprod heos htgt hpast
  dsimp only at htext hprod heos htgt hpast
  rw [h.hasEos, Bool.false_or] at heos
  have hplain : ∀ {l smpl'}, plain row σ fuel l.length (text ++ s.loop.produced) s.smpl = .ok (l, smpl') →
      plain row σ fuel (s.loop.produced ++ l).length text smpl = .ok (s.loop.produced ++ l, smpl') := by
    intro l smpl' hl
    rw [List.length_append, plain_add, h.sampled]
    show (fun r' => (s.loop.produced ++ r'.1, r'.2)) <$> plain row σ fuel l.length (text ++ s.loop.produced) s.smpl = _
    rw [hl]
    rfl
  -- if the loop over the tokens gets to their end, the sampler is where they end, and the cache is cut there
  have hend : loop.hasEos = false → upToEog m new = new ∧ ∀ x ∈ new, m.eog x = false := by
    intro hno
    rw [heos, List.any_eq_false] at hno
    have hall : ∀ x ∈ new, m.eog x = false := fun x hx => Bool.eq_false_iff.mpr (hno x hx)
    refine ⟨?_, hall⟩
    have hfull := (upToEog_eq_iff m new.dropLast (new.getLast halong.ne)).mpr fun x hx => hall x (List.dropLast_subset _ hx)
    rwa [List.dropLast_append_getLast] at hfull
  have hposes : ∀ i x, loop.produced[i]? = some x → m.eog x = true →
      (prms.native = true ∧ i = 0) ∨ (x ∈ upToEog m new ∧ i + 1 = loop.produced.length) := by
    intro i x hx hxe
    rw [hprod] at hx ⊢
    rcases Nat.lt_or_ge i s.loop.produced.length with hi | hi
    · rw [List.getElem?_append_left hi] at hx
      exact Or.inl (h.eog i x hx hxe)
    · rw [List.getElem?_append_right hi] at hx
      have hlast := upToEog_last m _ _ x hx hxe
      refine Or.inr ⟨List.mem_of_getElem? hx, ?_⟩
      rw [List.length_append]
      omega
  refine ⟨⟨?_, fun i x hx hxe => ?_⟩, fun hno => ?_⟩
  · obtain ⟨smpl'', hup⟩ := plain_prefix halong.sampled (prefix_upToEog m new)
    refine ⟨smpl'', ?_, fun hno => ?_⟩
    · show plain row σ fuel loop.produced.length text smpl = .ok (loop.produced, smpl'')
      rw [hprod]
      exact hplain hup
    · rw [(hend hno).1, halong.sampled] at hup
      cases hup
      rfl
  · exact (hposes i x hx hxe).symm.imp_left And.right
  · obtain ⟨hfull, hall⟩ := hend hno
    rw [hfull] at htext hprod
    have hprompt : loop.promptTgt = s.loop.promptTgt ++ [s.loop.idLast] ++ new.dropLast := by
      rw [← List.dropLast_append_getLast halong.ne, ← List.append_assoc] at htext
      exact (List.append_inj' htext rfl).1
    have hpos := List.length_pos_of_ne_nil halong.ne
    have hsize : loop.promptTgt.length = loop.nPast := by
      rw [hprompt, hpast, List.length_append, List.length_append, h.size, List.length_singleton, List.length_dropLast]
    refine ⟨?_, hsize, ?_, ?_, fun i x hx hxe => ?_, hno⟩
    · show loop.promptTgt ++ [loop.idLast] = text ++ loop.produced
      rw [htext, hprod, h.whole, List.append_assoc]
    · obtain ⟨rest, hrest⟩ := halong.taken
      have hcut : (s.loop.promptTgt ++ s.loop.idLast :: used).take loop.nPast = loop.promptTgt := by
        rw [List.append_cons, ← hrest, ← List.append_assoc, ← hprompt, List.take_left' hsize]
      have hcache := (h.cache.decode m (List.cons_ne_nil s.loop.idLast used) true).1
      rw [h.size, ← htgt] at hcache
      rw [← hcut]
      exact hcache.seqRm loop.nPast
    · show plain row σ fuel loop.produced.length text smpl = .ok (loop.produced, smpl')
      rw [hprod]
      exact hplain halong.sampled
    · rcases hposes i x hx hxe with hfirst | ⟨hmem, -⟩
      · exact hfirst
      · rw [hfull] at hmem
        rw [hall x hmem] at hxe
        cases hxe

theorem error_of_bind {α β : Type} {x : Except Fault α} {f : α → Except Fault β} {e : Fault} (h : (x >>= f) = .error e) :
    x = .error e ∨ ∃ a, x = .ok a ∧ f a = .error e := by
  cases x with
  | error _ =>
      cases h
      exact Or.inl rfl
  | ok a => exact Or.inr ⟨a, rfl, h⟩

theorem acceptLoop_nPredict : ∀ (ids : List Token) (loop : Loop F), (acceptLoop m ids loop).nPredict = loop.nPredict := by
  intro ids
  induction ids with
  | nil => exact fun _ => rfl
  | cons id ids ih =>
      intro loop
      rw [acceptLoop]
      dsimp only
      split
      · rfl
      · rw [ih]

/-- **One turn**: with more tokens, or with the error of what is sampled without a draft. -/
theorem SampledInv.round {s : Sampled F C} (h : SampledInv m row σ fuel prms text smpl s) (draft : List Token) :
    (∀ s', s.round m row σ fuel prms draft = .ok s' → Lossless m row σ fuel prms text smpl s' ∧
      s.loop.nPredict < s'.loop.nPredict ∧ (s'.loop.hasEos = false → SampledInv m row σ fuel prms text smpl s')) ∧
    ∀ e, s.round m row σ fuel prms draft = .error e → ∃ n, plain row σ fuel n text smpl = .error e := by
  obtain ⟨hok, herror⟩ := sampleLoop_spec row σ fuel (usedDraft prms draft)
    (text ++ s.loop.produced) [] s.smpl
  have hall : Sampling.sampleAndAcceptN σ fuel s.smpl ((s.loop.target.decode m s.loop.nPast
      (s.loop.idLast :: usedDraft prms draft) true).outputs.map row) (usedDraft prms draft) false =
        Sampling.sampleLoop σ fuel false (usedDraft prms draft) (rowsOf row (text ++ s.loop.produced) (usedDraft prms draft))
          s.smpl [] := by
    rw [h.rows, Sampling.sampleAndAcceptN, if_neg]
    rw [rowsOf, List.length_map, List.length_range]
    exact fun hne => hne rfl
  refine ⟨fun s' hs' => ?_, fun e he => ?_⟩
  · obtain ⟨r, hr, hs'⟩ := bind_eq_ok hs'
    rw [hall] at hr
    obtain ⟨new, hids, halong⟩ := hok _ _ hr
    rw [List.nil_append] at hids
    cases hs'
    obtain ⟨hlossless, hinv⟩ := h.accept halong rfl
    rw [hids]
    refine ⟨hlossless, ?_, hinv⟩
    show s.loop.nPredict < (acceptLoop m new _).nPredict
    rw [acceptLoop_nPredict]
    exact Nat.lt_add_of_pos_right (List.length_pos_of_ne_nil halong.ne)
  · rcases error_of_bind he with hr | ⟨r, -, hr⟩
    · rw [hall] at hr
      obtain ⟨n, hn⟩ := herror e hr
      refine ⟨s.loop.produced.length + n, ?_⟩
      rw [plain_add, h.sampled]
      show (fun r' => (s.loop.produced ++ r'.1, r'.2)) <$> plain row σ fuel n (text ++ s.loop.produced) s.smpl = _
      rw [hn]
      rfl
    · cases hr

/-- Any turns. The loop ends with `n_predict` where it is not negative. -/
theorem SampledInv.run : ∀ (drafts : List (List Token)) {s : Sampled F C}, SampledInv m row σ fuel prms text smpl s →
    (∀ s', runSampled m row σ fuel prms drafts s = .ok s' → Lossless m row σ fuel prms text smpl s' ∧
      (s'.loop.stops prms ∨ s.loop.nPredict + drafts.length ≤ s'.loop.nPredict)) ∧
    ∀ e, runSampled m row σ fuel prms drafts s = .error e → ∃ n, plain row σ fuel n text smpl = .error e := by
  intro drafts
  induction drafts with
  | nil =>
      intro s h
      refine ⟨fun s' hs' => ?_, fun e he => (by cases he)⟩
      cases hs'
      exact ⟨⟨⟨s.smpl, h.sampled, fun _ => rfl⟩, fun i x hx hxe => Or.inr (h.eog i x hx hxe)⟩, Or.inr le_rfl⟩
  | cons draft drafts ih =>
      intro s h
      obtain ⟨hok, herror⟩ := h.round draft
      refine ⟨fun s' hs' => ?_, fun e he => ?_⟩
      · obtain ⟨s₁, hs₁, hs'⟩ := bind_eq_ok hs'
        obtain ⟨hlossless, hmore, hinv⟩ := hok s₁ hs₁
        by_cases hstop : s₁.loop.stops prms
        · rw [if_pos hstop] at hs'
          cases hs'
          exact ⟨hlossless, Or.inl hstop⟩
        · rw [if_neg hstop] at hs'
          obtain ⟨hrest, hcount⟩ := (ih (hinv (Bool.eq_false_iff.mpr fun he => hstop (Or.inr he)))).1 s' hs'
          refine ⟨hrest, hcount.imp_right fun hle => ?_⟩
          rw [List.length_cons]
          omega
      · rcases error_of_bind he with he | ⟨s₁, hs₁, he⟩
        · exact herror e he
        · by_cases hstop : s₁.loop.stops prms
          · rw [if_pos hstop] at he
            cases he
          · rw [if_neg hstop] at he
            exact (ih ((hok s₁ hs₁).2.2 (Bool.eq_false_iff.mpr fun he => hstop (Or.inr he)))).2 e he

/-- The last output row of the prompt sees all of it. -/
theorem outputs_getLastD (inp : List Token) (hne : inp ≠ []) :
    (Target.decode m ({} : Target F) 0 inp false).outputs.getLastD [] = inp := by
  have hempty : Holds ({} : Target F) [] := fun p => rfl
  obtain ⟨-, houtputs, -⟩ := hempty.decode m hne false
  have hrows : (Target.decode m ({} : Target F) 0 inp false).outputs =
      (Target.decode m ({} : Target F) 0 inp true).outputs.drop (inp.length - 1) := by
    simp [Target.decode, hne]
  have hall : (Target.decode m ({} : Target F) 0 inp true).outputs = (List.range inp.length).map fun i => inp.take (i + 1) := by
    simpa using houtputs
  obtain ⟨n, hn⟩ : ∃ n, inp.length = n + 1 := Nat.exists_eq_succ_of_ne_zero (List.length_pos_of_ne_nil hne).ne'
  rw [hrows, hall, hn, List.range_succ, List.map_append, Nat.add_sub_cancel, List.drop_left' (by simp), List.map_singleton,
    ← hn, List.take_length]
  rfl

variable (m row σ fuel prms smpl) in
/-- Up to the loop. -/
theorem startSampled_spec (inp : List Token) (last : Token) :
    (∀ s, startSampled m row σ fuel prms inp last smpl = .ok s →
      SampledInv m row σ fuel prms (inp ++ [last]) smpl s) ∧
    ∀ e, startSampled m row σ fuel prms inp last smpl = .error e → ∃ n, plain row σ fuel n (inp ++ [last]) smpl = .error e := by
  have hempty : Holds ({} : Target F) [] := fun p => rfl
  have hne : inp ++ [last] ≠ [] := List.append_ne_nil_of_right_ne_nil _ (List.cons_ne_nil _ _)
  rw [startSampled]
  by_cases hnat : prms.native = true
  · rw [if_pos hnat]
    dsimp only
    rw [outputs_getLastD _ hne]
    refine ⟨fun s hs => ?_, fun e he => ⟨1, ?_⟩⟩
    · obtain ⟨r, hr, hs⟩ := bind_eq_ok hs
      cases hs
      refine ⟨rfl, rfl, (hempty.decode m hne false).1, ?_, fun i x hx _ => ⟨hnat, ?_⟩, rfl⟩
      · show (smpl.next σ fuel (row (inp ++ [last])) false >>= _) = _
        rw [hr]
        rfl
      · obtain ⟨hi, -⟩ := List.getElem?_eq_some_iff.mp hx
        exact Nat.lt_one_iff.mp hi
    · show (smpl.next σ fuel (row (inp ++ [last])) false >>= _) = _
      rcases error_of_bind he with he | ⟨r, -, he⟩
      · rw [he]
        rfl
      · cases he
  · rw [if_neg hnat]
    refine ⟨fun s hs => ?_, fun e he => (by cases he)⟩
    cases hs
    refine ⟨(List.append_nil _).symm, rfl, ?_, rfl, fun i x hx => (by cases hx), rfl⟩
    by_cases hinp : inp = []
    · subst hinp
      exact hempty
    · exact (hempty.decode m hinp false).1

variable (m row σ fuel prms smpl) in
/-- **Whatever is drafted, a run produces the tokens that are sampled one behind the other**, it fails as they do, and where no
end of generation was sampled inside a draft the sampler is where they leave it. With a limit it stops. -/
theorem run_lossless (inp : List Token) (last : Token) (drafts : List (List Token)) :
    (∀ s, startSampled m row σ fuel prms inp last smpl >>= runSampled m row σ fuel prms drafts = .ok s →
      Lossless m row σ fuel prms (inp ++ [last]) smpl s ∧
        (0 ≤ prms.nPredict → prms.nPredict < drafts.length → s.loop.stops prms)) ∧
    ∀ e, startSampled m row σ fuel prms inp last smpl >>= runSampled m row σ fuel prms drafts = .error e →
      ∃ n, plain row σ fuel n (inp ++ [last]) smpl = .error e := by
  obtain ⟨hstart, hstartError⟩ := startSampled_spec m row σ fuel prms smpl inp last
  refine ⟨fun s hs => ?_, fun e he => ?_⟩
  · obtain ⟨s₀, hs₀, hs⟩ := bind_eq_ok hs
    obtain ⟨hlossless, hcount⟩ := (SampledInv.run drafts (hstart s₀ hs₀)).1 s hs
    refine ⟨hlossless, fun hpos hlt => ?_⟩
    rcases hcount with hstop | hle
    · exact hstop
    · refine Or.inl ⟨hpos, hlt.trans_le ?_⟩
      omega
  · rcases error_of_bind he with he | ⟨s₀, hs₀, he⟩
    · exact hstartError e he
    · exact (SampledInv.run drafts (hstart s₀ hs₀)).2 e he

end Runs

end S2Moe.Simple
