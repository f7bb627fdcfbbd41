import Mathlib
import S2Moe.Grammar.Constrain
import S2Moe.Sampling.Sampler

/-!
# Sampling under a grammar

* `sampled`, `sample_settles` : a token is sampled under the mask as it is meant;
* `sampled_spec` : it is one that the grammar leaves, whether the grammar comes first or last;
* `Phase` : a lazy grammar waits for its trigger, and then reads what follows; `Accepts` : what it accepts;
* `Inv` : the grammar and the ring buffer behind the tokens; `Inv.next`, `Inv.sampleLoop`, `generate_inv` : it is kept;
* `generate_spec` : what every run of calls leaves.
-/

namespace S2Moe.Sampling
open S2Moe.Grammar S2Moe.Lib

/-! ## The sampler settles -/

section Settling
variable {L C : Type} {σ : Setup L C} {s : Sampler C} {grmr : Option GrammarSampler}

variable (σ grmr) in
/-- The tokens that the grammar does not mask. -/
def Leaves (id : Token) : Prop :=
  ∀ g, grmr = some g → g.state.awaitingTrigger = false → Allowed σ.vocab g.state id

variable (grmr) in
/-- A grammar that masks can be read on with. -/
def ReadyWhenActive : Prop := ∀ g, grmr = some g → g.state.awaitingTrigger = false → Ready g.state.grammar

variable (σ grmr) in
open scoped Classical in
noncomputable def maskOf (data : TokenData L) : TokenData L :=
  if Leaves σ grmr data.id then data else { data with logit := σ.negInf }

theorem applyGrammar_settles (h : ReadyWhenActive grmr) (curP : List (TokenData L)) :
    Settles (fun fuel => applyGrammar σ fuel grmr curP) (.ok (curP.map (maskOf σ grmr))) := by
  have hsame : (∀ id, Leaves σ grmr id) → curP.map (maskOf σ grmr) = curP := fun hall => by
    rw [show maskOf σ grmr = id from funext fun data => if_pos (hall data.id), List.map_id]
  cases grmr with
  | none =>
      rw [hsame fun id g hg => absurd hg (Option.some_ne_none g).symm]
      exact .const _
  | some g =>
      cases hactive : g.state.awaitingTrigger with
      | true =>
          rw [hsame fun id g' hg hfalse => by
            cases hg
            rw [hactive] at hfalse
            cases hfalse]
          refine ⟨0, fun fuel _ => ?_⟩
          show (applyImpl σ.negInf σ.vocab fuel g.state curP).mapError Fault.grammar = _
          rw [applyImpl, if_pos hactive]
          rfl
      | false =>
          have hmask : maskOf σ (some g) = masked σ.negInf σ.vocab g.state := by
            funext data
            have hiff : Leaves σ (some g) data.id ↔ Allowed σ.vocab g.state data.id :=
              ⟨fun h => h g rfl hactive, fun h g' hg _ => Option.some.inj hg ▸ h⟩
            rw [maskOf, masked]
            by_cases hallowed : Allowed σ.vocab g.state data.id
            · rw [if_pos hallowed, if_pos (hiff.mpr hallowed)]
            · rw [if_neg hallowed, if_neg (fun hleaves => hallowed (hiff.mp hleaves))]
          rw [hmask]
          exact (applyImpl_settles σ.negInf σ.vocab curP (h g rfl hactive) hactive).mapError Fault.grammar

open scoped Classical in
theorem isValid_settles [DecidableEq L] (h : ReadyWhenActive grmr) (id : Token) :
    Settles (fun fuel => isValid σ fuel grmr id) (.ok (decide (Leaves σ grmr id))) := by
  have hmap := (applyGrammar_settles (σ := σ) h [⟨id, σ.one⟩]).map
    fun single => single.any fun data => decide (data.logit ≠ σ.negInf)
  have heq : ([(⟨id, σ.one⟩ : TokenData L)].map (maskOf σ grmr)).any (fun data => decide (data.logit ≠ σ.negInf)) =
      decide (Leaves σ grmr id) := by
    rw [List.map_cons, List.map_nil, List.any_cons, List.any_nil, Bool.or_false, maskOf]
    by_cases hleaves : Leaves σ grmr id
    · rw [if_pos hleaves, decide_eq_true hleaves]
      exact decide_eq_true σ.one_ne
    · rw [if_neg hleaves, decide_eq_false hleaves]
      exact decide_eq_false (not_not_intro rfl)
  rw [← heq]
  exact hmap

theorem select_eq {curP : List (TokenData L)} {r : Token × Sampler C} (h : s.select σ curP = .ok r) :
    r.2 = { s with chain := (σ.chain.apply s.chain curP).1 } := by
  rw [Sampler.select] at h
  split at h
  · cases h
    rfl
  · cases h

variable (σ s) in
open scoped Classical in
/-- `common_sampler_sample`, with the mask of the grammar as it is meant. -/
noncomputable def sampled (logits : List L) (grammarFirst : Bool) : Except Fault (Token × Sampler C) :=
  let curP := (setLogits logits).map (maskOf σ s.grmr)
  if grammarFirst then s.select σ curP
  else s.select σ (setLogits logits) >>= fun r => if Leaves σ s.grmr r.1 then .ok r else r.2.select σ curP

theorem sampleMasked_settles (h : ReadyWhenActive s.grmr) (logits : List L) :
    Settles (fun fuel => s.sampleMasked σ fuel logits) (s.select σ ((setLogits logits).map (maskOf σ s.grmr))) :=
  (applyGrammar_settles h (setLogits logits)).bind (g := fun _ => s.select σ) (k := s.select σ) fun _ _ => .const _

theorem sample_settles [DecidableEq L] (h : ReadyWhenActive s.grmr) (logits : List L) (grammarFirst : Bool) :
    Settles (fun fuel => s.sample σ fuel logits grammarFirst) (sampled σ s logits grammarFirst) := by
  classical
  cases grammarFirst with
  | true => exact sampleMasked_settles h logits
  | false =>
      refine (Settles.const _).bind fun r hr => ?_
      have hgrmr : r.2.grmr = s.grmr := by rw [select_eq hr]
      have hvalid := (isValid_settles (σ := σ) (hgrmr ▸ h : ReadyWhenActive r.2.grmr) r.1).bind
        (g := fun fuel valid => if valid then .ok r else r.2.sampleMasked σ fuel logits)
        (k := fun valid => if valid then .ok r else r.2.select σ ((setLogits logits).map (maskOf σ s.grmr)))
        fun valid _ => by
          cases valid with
          | true => exact .const _
          | false =>
              have hmasked := sampleMasked_settles (σ := σ) (hgrmr ▸ h : ReadyWhenActive r.2.grmr) logits
              rw [hgrmr] at hmasked
              exact hmasked
      have hdecide : decide (Leaves σ r.2.grmr r.1) = decide (Leaves σ s.grmr r.1) := by rw [hgrmr]
      rw [hdecide] at hvalid
      by_cases hleaves : Leaves σ s.grmr r.1
      · rw [if_pos hleaves]
        rw [decide_eq_true hleaves] at hvalid
        exact hvalid
      · rw [if_neg hleaves]
        rw [decide_eq_false hleaves] at hvalid
        exact hvalid

theorem Chain.Sound.select (h : σ.chain.Sound σ.negInf) {curP : List (TokenData L)}
    (hfinite : ∃ data ∈ curP, data.logit ≠ σ.negInf) : ∃ r, s.select σ curP = .ok r ∧
      ∃ data ∈ curP, data.id = r.1 ∧ data.logit ≠ σ.negInf := by
  obtain ⟨selected, data, hselected, hget, hfrom⟩ := h.selects s.chain curP hfinite
  refine ⟨(data.id, { s with chain := (σ.chain.apply s.chain curP).1 }), ?_, hfrom⟩
  rw [Sampler.select]
  simp only [hselected, Option.bind_some, hget]

variable (σ) in
/-- Some token has a finite logit and is left by the grammar. -/
def Offers (grmr : Option GrammarSampler) (logits : List L) : Prop :=
  ∃ id logit, logits[id]? = some logit ∧ logit ≠ σ.negInf ∧ Leaves σ grmr id

theorem mem_setLogits {logits : List L} {data : TokenData L} :
    data ∈ setLogits logits ↔ logits[data.id]? = some data.logit := by
  rw [setLogits, List.mem_mapIdx]
  constructor
  · rintro ⟨id, hid, rfl⟩
    exact List.getElem?_eq_getElem hid
  · intro h
    obtain ⟨hid, heq⟩ := List.getElem?_eq_some_iff.mp h
    exact ⟨data.id, hid, by rw [heq]⟩

theorem sampled_fields {logits : List L} {grammarFirst : Bool} {r : Token × Sampler C}
    (h : sampled σ s logits grammarFirst = .ok r) : r.2.grmr = s.grmr ∧ r.2.prev = s.prev := by
  classical
  cases grammarFirst with
  | true =>
      rw [select_eq (show s.select σ _ = .ok r from h)]
      exact ⟨rfl, rfl⟩
  | false =>
      obtain ⟨first, hfirst, hrest⟩ := bind_eq_ok h
      have heq := select_eq hfirst
      by_cases hl : Leaves σ s.grmr first.1
      · rw [if_pos hl] at hrest
        cases hrest
        rw [heq]
        exact ⟨rfl, rfl⟩
      · rw [if_neg hl] at hrest
        rw [select_eq hrest, heq]
        exact ⟨rfl, rfl⟩

/-- **What is sampled is left by the grammar**, whichever comes first. -/
theorem sampled_spec (hchain : σ.chain.Sound σ.negInf) {logits : List L} (hoffers : Offers σ s.grmr logits)
    (grammarFirst : Bool) : ∃ id s', sampled σ s logits grammarFirst = .ok (id, s') ∧
      s'.grmr = s.grmr ∧ s'.prev = s.prev ∧ Leaves σ s.grmr id := by
  classical
  obtain ⟨id, logit, hget, hlogit, hleaves⟩ := hoffers
  have hmasked : ∀ t : Sampler C, ∃ r, t.select σ ((setLogits logits).map (maskOf σ s.grmr)) = .ok r ∧
      Leaves σ s.grmr r.1 := by
    intro t
    have hself : (⟨id, logit⟩ : TokenData L) ∈ (setLogits logits).map (maskOf σ s.grmr) :=
      List.mem_map.mpr ⟨⟨id, logit⟩, mem_setLogits.mpr hget, if_pos hleaves⟩
    obtain ⟨r, hr, data, hdata, hid, hfinite⟩ := hchain.select (s := t) ⟨_, hself, hlogit⟩
    refine ⟨r, hr, ?_⟩
    obtain ⟨d, -, rfl⟩ := List.mem_map.mp hdata
    by_contra hnot
    have hd : ¬ Leaves σ s.grmr d.id := by
      intro hl
      rw [maskOf, if_pos hl] at hid
      exact hnot (hid ▸ hl)
    rw [maskOf, if_neg hd] at hfinite
    exact hfinite rfl
  suffices hsome : ∃ r, sampled σ s logits grammarFirst = .ok r ∧ Leaves σ s.grmr r.1 by
    obtain ⟨r, hr, hl⟩ := hsome
    exact ⟨r.1, r.2, hr, (sampled_fields hr).1, (sampled_fields hr).2, hl⟩
  cases grammarFirst with
  | true => exact hmasked s
  | false =>
      obtain ⟨r, hr, -⟩ := hchain.select (s := s) ⟨⟨id, logit⟩, mem_setLogits.mpr hget, hlogit⟩
      have hrun : sampled σ s logits false =
          if Leaves σ s.grmr r.1 then .ok r else r.2.select σ ((setLogits logits).map (maskOf σ s.grmr)) := by
        show (s.select σ (setLogits logits) >>= _) = _
        rw [hr]
        rfl
      rw [hrun]
      by_cases hl : Leaves σ s.grmr r.1
      · exact ⟨r, if_pos hl, hl⟩
      · rw [if_neg hl]
        exact hmasked r.2

end Settling

/-! ## Where a grammar stands -/

/-- A lazy grammar collects the text until something triggers it. -/
inductive Phase where
  | waiting (buffer : Text)
  | reading (texts : List Text)

section Phases
variable {L C : Type} {σ : Setup L C} {lang : Language UInt32} {start : LlamaGrammar} {phase : Phase} {g : GrammarSampler} {id : Token}

variable (σ) in
/-- What a token does. -/
def Phase.next (phase : Phase) (id : Token) : Phase :=
  let piece := σ.vocab.tokenToPiece id
  match phase with
  | .waiting buffer =>
    if id ∈ σ.triggers.tokens then .reading [piece]
    else
      match σ.triggers.start? (buffer ++ piece) with
      | some first => .reading [(buffer ++ piece).drop first]
      | none => .waiting (buffer ++ piece)
  | .reading texts => if σ.vocab.isEog id then .reading texts else .reading (texts ++ [piece])

variable (lang) in
/-- The texts are the beginning of a word. -/
def Readable (texts : List Text) : Prop := ∃ v, decoded texts ++ v ∈ lang

variable (σ lang phase) in
/-- Behind the token there is the beginning of a word, and an end of generation stands behind a word only. -/
structure Accepts (id : Token) : Prop where
  readable : ∀ texts, phase.next σ id = .reading texts → Readable lang texts
  complete : ∀ texts, phase = .reading texts → σ.vocab.isEog id = true → decoded texts ∈ lang

variable (start) in
/-- The words of the stacks at the start. -/
def startWords : Language UInt32 := words start.rules start.stackSet

variable (start g) in
def Holds : Phase → Prop
  | .waiting buffer => g = ⟨⟨start, {}, true⟩, buffer⟩
  | .reading texts => Reading start.rules start.stackSet texts g.state

theorem reading_start (h : Ready start) : Reading start.rules start.stackSet [] ⟨start, {}, false⟩ :=
  ⟨rfl, h, rfl, rfl, rfl⟩

theorem Holds.ready (h : Holds start g phase) (hactive : g.state.awaitingTrigger = false) : Ready g.state.grammar := by
  cases phase with
  | waiting buffer =>
      rw [show g = _ from h] at hactive
      cases hactive
  | reading texts => exact Reading.ready h

/-- Reading a piece, up to what it throws. -/
theorem acceptStr_spec {texts : List Text} (h : Reading start.rules start.stackSet texts g.state)
    (hprod : (cfg start.rules).Productive) (piece : Text) : ∃ r, Settles (fun fuel => g.acceptStr fuel piece) r ∧
      ((Readable (startWords start) (texts ++ [piece]) ∧ ∃ g', r = .ok g' ∧
        Reading start.rules start.stackSet (texts ++ [piece]) g'.state) ∨
      (¬ Readable (startWords start) (texts ++ [piece]) ∧ r = .error (.thrown piece))) := by
  rcases h.acceptStr hprod piece with ⟨hread, st', hst', bound, hrun⟩ | ⟨hnot, bound, hrun⟩
  · refine ⟨.ok { g with state := st' }, ⟨bound, fun fuel hfuel => ?_⟩, .inl ⟨hread, _, rfl, hst'⟩⟩
    have hacc : Grammar.acceptStr fuel g.state piece = .ok (some st') := hrun fuel hfuel
    show g.acceptStr fuel piece = _
    rw [GrammarSampler.acceptStr, hacc]
  · refine ⟨.error (.thrown piece), ⟨bound, fun fuel hfuel => ?_⟩, .inr ⟨hnot, rfl⟩⟩
    have hacc : Grammar.acceptStr fuel g.state piece = .ok none := hrun fuel hfuel
    show g.acceptStr fuel piece = _
    rw [GrammarSampler.acceptStr, hacc]

theorem accept_reading {texts : List Text} (h : Reading start.rules start.stackSet texts g.state)
    (hprod : (cfg start.rules).Productive) (id : Token) : ∃ r, Settles (fun fuel => g.accept σ fuel id) r ∧
      ((Accepts σ (startWords start) (.reading texts) id ∧ ∃ g', r = .ok g' ∧ Holds start g' (Phase.next σ (.reading texts) id)) ∨
      (¬ Accepts σ (startWords start) (.reading texts) id ∧ ∃ e, r = .error e)) := by
  have heq : ∀ fuel, g.accept σ fuel id =
      if σ.vocab.isEog id then if g.state.grammar.stackSet.any List.isEmpty then .ok g else .error .fatal
      else g.acceptStr fuel (σ.vocab.tokenToPiece id) := fun fuel => by
    rw [GrammarSampler.accept]
    exact if_neg (by rw [h.active]; exact Bool.false_ne_true)
  by_cases heog : σ.vocab.isEog id = true
  · have hnext : Phase.next σ (.reading texts) id = .reading texts := if_pos heog
    have hempty : g.state.grammar.stackSet.any List.isEmpty = true ↔ decoded texts ∈ startWords start := by
      rw [startWords, ← h.nil_mem]
      simp [List.isEmpty_iff]
    refine ⟨_, ⟨0, fun fuel _ => (heq fuel).trans (if_pos heog)⟩, ?_⟩
    by_cases hcomplete : decoded texts ∈ startWords start
    · refine .inl ⟨⟨fun texts' htexts => ?_, fun texts' htexts _ => ?_⟩, g, if_pos (hempty.mpr hcomplete), ?_⟩
      · cases hnext.symm.trans htexts
        exact h.readable hprod
      · cases htexts
        exact hcomplete
      · rw [hnext]
        exact h
    · exact .inr ⟨fun haccepts => hcomplete (haccepts.complete texts rfl heog), _,
        if_neg (fun hany => hcomplete (hempty.mp hany))⟩
  · have hnext : Phase.next σ (.reading texts) id = .reading (texts ++ [σ.vocab.tokenToPiece id]) := if_neg heog
    obtain ⟨r, ⟨bound, hrun⟩, hcases⟩ := acceptStr_spec h hprod (σ.vocab.tokenToPiece id)
    refine ⟨r, ⟨bound, fun fuel hfuel => ((heq fuel).trans (if_neg heog)).trans (hrun fuel hfuel)⟩, ?_⟩
    rcases hcases with ⟨hread, g', hg', hreading⟩ | ⟨hnot, herror⟩
    · refine .inl ⟨⟨fun texts' htexts => ?_, fun _ _ heog' => absurd heog' heog⟩, g', hg', ?_⟩
      · cases hnext.symm.trans htexts
        exact hread
      · rw [hnext]
        exact hreading
    · exact .inr ⟨fun haccepts => hnot (haccepts.readable _ hnext), _, herror⟩

/-- A trigger starts the grammar on what it captures. -/
theorem triggered_spec {buffer piece : Text} (hstart : Ready start) (hprod : (cfg start.rules).Productive)
    (h : Holds start g (.waiting buffer)) (hnext : (Phase.waiting buffer).next σ id = .reading [piece]) {run : Nat →
      Except Fault GrammarSampler} (hrun : ∀ fuel, run fuel = g.triggered.acceptStr fuel piece) : ∃ r, Settles run r ∧
      ((Accepts σ (startWords start) (.waiting buffer) id ∧ ∃ g', r = .ok g' ∧ Holds start g' ((Phase.waiting buffer).next σ id)) ∨
      (¬ Accepts σ (startWords start) (.waiting buffer) id ∧ ∃ e, r = .error e)) := by
  have hreading : Reading start.rules start.stackSet [] g.triggered.state := by
    rw [show g = _ from h]
    exact reading_start hstart
  obtain ⟨r, ⟨bound, hsettles⟩, hcases⟩ := acceptStr_spec hreading hprod piece
  refine ⟨r, ⟨bound, fun fuel hfuel => (hrun fuel).trans (hsettles fuel hfuel)⟩, ?_⟩
  rcases hcases with ⟨hread, g', hg', hafter⟩ | ⟨hnot, herror⟩
  · refine .inl ⟨⟨fun texts' htexts => ?_, fun texts' htexts _ => ?_⟩, g', hg', ?_⟩
    · cases hnext.symm.trans htexts
      exact hread
    · cases htexts
    · rw [hnext]
      exact hafter
  · exact .inr ⟨fun haccepts => hnot (haccepts.readable _ hnext), _, herror⟩

/-- **A token is accepted** just where the constrained text stays the beginning of a word. -/
theorem Holds.accept (hstart : Ready start) (hprod : (cfg start.rules).Productive) (h : Holds start g phase) (id : Token) :
    ∃ r, Settles (fun fuel => g.accept σ fuel id) r ∧
      ((Accepts σ (startWords start) phase id ∧ ∃ g', r = .ok g' ∧ Holds start g' (phase.next σ id)) ∨
      (¬ Accepts σ (startWords start) phase id ∧ ∃ e, r = .error e)) := by
  cases phase with
  | reading texts => exact accept_reading h hprod id
  | waiting buffer =>
      have hg : g = ⟨⟨start, {}, true⟩, buffer⟩ := h
      by_cases htoken : id ∈ σ.triggers.tokens
      · refine triggered_spec hstart hprod h (if_pos htoken) fun fuel => ?_
        rw [GrammarSampler.accept, hg]
        exact if_pos htoken
      · cases hfirst : σ.triggers.start? (buffer ++ σ.vocab.tokenToPiece id) with
        | some first =>
            have hnext : (Phase.waiting buffer).next σ id =
                .reading [(buffer ++ σ.vocab.tokenToPiece id).drop first] := by
              rw [Phase.next]
              simp only [if_neg htoken, hfirst]
            refine triggered_spec hstart hprod h hnext fun fuel => ?_
            rw [GrammarSampler.accept, hg]
            simp only [if_true, if_neg htoken, hfirst]
        | none =>
            have hnext : (Phase.waiting buffer).next σ id = .waiting (buffer ++ σ.vocab.tokenToPiece id) := by
              rw [Phase.next]
              simp only [if_neg htoken, hfirst]
            refine ⟨.ok ⟨⟨start, {}, true⟩, buffer ++ σ.vocab.tokenToPiece id⟩, ⟨0, fun fuel _ => ?_⟩,
              .inl ⟨⟨fun texts htexts => ?_, fun texts htexts _ => ?_⟩, _, rfl, ?_⟩⟩
            · show g.accept σ fuel id = _
              rw [GrammarSampler.accept, hg]
              simp only [if_true, if_neg htoken, hfirst]
            · rw [hnext] at htexts
              cases htexts
            · cases htexts
            · rw [hnext]
              exact rfl

end Phases

/-! ## Runs -/

/-- A call of `common_sampler_sample_and_accept_n`. -/
structure Round (L : Type) where
  rows : List (List L)
  draft : List Token
  grammarFirst : Bool

section Runs
variable {L C : Type} [DecidableEq L] {σ : Setup L C} {lang : Language UInt32} {start : LlamaGrammar} {phase : Phase} {toks : List Token} {cap : Nat}
  {s : Sampler C}

variable (σ) in
def Round.run (fuel : Nat) (x : List Token × Sampler C) (round : Round L) : Except Fault (List Token × Sampler C) :=
  (fun y => (x.1 ++ y.1, y.2)) <$> sampleAndAcceptN σ fuel x.2 round.rows round.draft round.grammarFirst

variable (σ) in
/-- One call behind the other, and all the tokens they return. -/
def generate (fuel : Nat) (rounds : List (Round L)) (s : Sampler C) : Except Fault (List Token × Sampler C) :=
  rounds.foldlM (Round.run σ fuel) ([], s)

variable (σ) in
/-- Where the tokens lead. -/
def phaseAfter (phase : Phase) (toks : List Token) : Phase := toks.foldl (Phase.next σ) phase

variable (σ lang) in
/-- Each token is accepted where it stands. -/
def AllAccepted (phase : Phase) (toks : List Token) : Prop :=
  ∀ k id, toks[k]? = some id → Accepts σ lang (phaseAfter σ phase (toks.take k)) id

variable (start phase toks cap s) in
/-- What holds of a sampler behind its tokens. -/
structure Inv : Prop where
  grmr : ∃ g, s.grmr = some g ∧ Holds start g phase
  capacity : s.prev.capacity = cap
  prev : Rep s.prev (toks.rtake cap)

omit [DecidableEq L] in
theorem phaseAfter_concat (phase : Phase) (toks : List Token) (id : Token) :
    phaseAfter σ phase (toks ++ [id]) = (phaseAfter σ phase toks).next σ id := List.foldl_concat _ _ _ _

omit [DecidableEq L] in
theorem AllAccepted.concat {id : Token} (h : AllAccepted σ lang phase toks)
    (hid : Accepts σ lang (phaseAfter σ phase toks) id) : AllAccepted σ lang phase (toks ++ [id]) := by
  intro k x hx
  by_cases hk : k < toks.length
  · rw [List.getElem?_append_left hk] at hx
    rw [List.take_append_of_le_length hk.le]
    exact h k x hx
  · rw [List.getElem?_append_right (not_lt.mp hk), List.getElem?_singleton] at hx
    obtain rfl : k = toks.length := by
      by_contra hne
      rw [if_neg (by omega)] at hx
      cases hx
    rw [Nat.sub_self, if_pos rfl] at hx
    cases hx
    rwa [List.take_left]

/-- The last tokens, with one more. -/
theorem rtake_concat {n : Nat} (hn : 0 < n) (toks : List Token) (id : Token) :
    (if (toks.rtake n).length = n then (toks.rtake n).tail else toks.rtake n) ++ [id] = (toks ++ [id]).rtake n := by
  rw [List.rtake, List.rtake, List.length_drop, List.length_append, List.length_singleton, List.tail_drop]
  by_cases h : n ≤ toks.length
  · rw [if_pos (by omega), List.drop_append_of_le_length (by omega)]
    congr 2
    omega
  · rw [if_neg (by omega), show toks.length - n = 0 by omega, show toks.length + 1 - n = 0 by omega]
    rfl

theorem Inv.readyWhenActive (h : Inv start phase toks cap s) : ReadyWhenActive s.grmr := by
  intro g hg hactive
  obtain ⟨g', hg', hholds⟩ := h.grmr
  cases hg.symm.trans hg'
  exact hholds.ready hactive

omit [DecidableEq L] in
/-- A token is accepted by the sampler as it is by its grammar. -/
theorem Inv.accept (hstart : Ready start) (hprod : (cfg start.rules).Productive) (h : Inv start phase toks cap s) (id : Token) :
    ∃ r, Settles (fun fuel => s.accept σ fuel id true) r ∧
      ((Accepts σ (startWords start) phase id ∧ ∃ s', r = .ok s' ∧ Inv start (phase.next σ id) (toks ++ [id]) cap s') ∨
      (¬ Accepts σ (startWords start) phase id ∧ ∃ e, r = .error e)) := by
  obtain ⟨⟨g, hg, hholds⟩, hcapacity, hprev⟩ := h
  obtain ⟨r, hsettles, hcases⟩ := hholds.accept (σ := σ) hstart hprod id
  obtain ⟨prev, hpush, hrep, hcap, -, -⟩ := hprev.pushBack id
  have hgrmr : Settles (fun fuel => acceptGrammar σ fuel s.grmr id) (some <$> r) := by
    rw [hg]
    exact hsettles.map some
  have hall := hgrmr.bind (g := fun _ grmr => (s.prev.pushBack id).mapError Fault.prev >>= fun prev =>
      .ok (⟨grmr, σ.chain.accept s.chain id, prev⟩ : Sampler C))
    (k := fun grmr => .ok ⟨grmr, σ.chain.accept s.chain id, prev⟩) fun grmr _ => by
      rw [hpush]
      exact .const _
  refine ⟨_, hall, ?_⟩
  rcases hcases with ⟨haccepts, g', rfl, hholds'⟩ | ⟨hnot, e, rfl⟩
  · refine .inl ⟨haccepts, _, rfl, ⟨g', rfl, hholds'⟩, hcap.trans hcapacity, ?_⟩
    rw [← rtake_concat (hcapacity ▸ hprev.capacity_pos)]
    rw [hcapacity] at hrep
    exact hrep
  · exact .inr ⟨hnot, e, rfl⟩

/-- **What is sampled and accepted** is accepted by the grammar. -/
theorem Inv.next (hstart : Ready start) (hprod : (cfg start.rules).Productive) (h : Inv start phase toks cap s)
    (logits : List L) (grammarFirst : Bool) : ∃ r, Settles (fun fuel => s.next σ fuel logits grammarFirst) r ∧
      ∀ id s', r = .ok (id, s') → Accepts σ (startWords start) phase id ∧ Inv start (phase.next σ id) (toks ++ [id]) cap s' := by
  have hsample := sample_settles (σ := σ) h.readyWhenActive logits grammarFirst
  cases hsampled : sampled σ s logits grammarFirst with
  | error e =>
      rw [hsampled] at hsample
      exact ⟨.error e, hsample.bind_error, fun id s' heq => by cases heq⟩
  | ok first =>
      rw [hsampled] at hsample
      obtain ⟨hgrmr, hprev⟩ := sampled_fields hsampled
      have hinv : Inv start phase toks cap first.2 := ⟨by rw [hgrmr]; exact h.grmr, by rw [hprev]; exact h.capacity,
        by rw [hprev]; exact h.prev⟩
      obtain ⟨r, hsettles, hcases⟩ := hinv.accept (σ := σ) hstart hprod first.1
      refine ⟨r >>= fun s' => .ok (first.1, s'), hsample.bind_ok ?_, fun id s' heq => ?_⟩
      · exact hsettles.bind (g := fun _ s' => .ok (first.1, s')) fun _ _ => .const _
      · obtain ⟨s'', rfl, hpair⟩ := bind_eq_ok heq
        cases hpair
        rcases hcases with ⟨haccepts, t, ht, hinv'⟩ | ⟨-, e, herror⟩
        · cases ht
          exact ⟨haccepts, hinv'⟩
        · cases herror

/-- The loop over a draft adds tokens that are accepted. -/
theorem Inv.sampleLoop (hstart : Ready start) (hprod : (cfg start.rules).Productive) {first : Phase} (grammarFirst : Bool) :
    ∀ (rows : List (List L)) (draft before result : List Token) {s : Sampler C},
      Inv start (phaseAfter σ first (before ++ result)) (before ++ result) cap s →
      AllAccepted σ (startWords start) first (before ++ result) →
      ∃ r, Settles (fun fuel => sampleLoop σ fuel grammarFirst draft rows s result) r ∧
        ∀ ids s', r = .ok (ids, s') → Inv start (phaseAfter σ first (before ++ ids)) (before ++ ids) cap s' ∧
          AllAccepted σ (startWords start) first (before ++ ids) := by
  intro rows
  induction rows with
  | nil =>
      intro draft before result s _ _
      refine ⟨.error .rows, ⟨0, fun fuel _ => ?_⟩, fun ids s' heq => ?_⟩
      · cases draft <;> rfl
      · cases heq
  | cons logits rows ih =>
      intro draft before result s hinv haccepted
      obtain ⟨r, hsettles, hr⟩ := hinv.next (σ := σ) hstart hprod logits grammarFirst
      have hnext : ∀ x, r = .ok x → Inv start (phaseAfter σ first (before ++ (result ++ [x.1]))) (before ++ (result ++ [x.1]))
          cap x.2 ∧ AllAccepted σ (startWords start) first (before ++ (result ++ [x.1])) := fun x hx => by
        obtain ⟨haccepts, hinv'⟩ := hr x.1 x.2 hx
        rw [← List.append_assoc, phaseAfter_concat]
        exact ⟨hinv', haccepted.concat haccepts⟩
      cases draft with
      | nil =>
          refine ⟨r >>= fun x => .ok (result ++ [x.1], x.2), ?_, fun ids s' heq => ?_⟩
          · exact hsettles.bind (g := fun _ x => .ok (result ++ [x.1], x.2)) fun _ _ => .const _
          · obtain ⟨x, hx, hpair⟩ := bind_eq_ok heq
            cases hpair
            exact hnext x hx
      | cons d draft =>
          cases r with
          | error e => exact ⟨.error e, hsettles.bind_error, fun ids s' heq => by cases heq⟩
          | ok x =>
              by_cases hd : d ≠ x.1
              · refine ⟨.ok (result ++ [x.1], x.2), hsettles.bind_ok ?_, fun ids s' heq => ?_⟩
                · simp only [if_pos hd]
                  exact .const _
                · cases heq
                  exact hnext x rfl
              · obtain ⟨hinv', haccepted'⟩ := hnext x rfl
                obtain ⟨r', hsettles', hr'⟩ := ih draft before (result ++ [x.1]) hinv' haccepted'
                refine ⟨r', hsettles.bind_ok ?_, hr'⟩
                simp only [if_neg hd]
                exact hsettles'

theorem Inv.round (hstart : Ready start) (hprod : (cfg start.rules).Productive) {first : Phase} {x : List Token × Sampler C}
    (hinv : Inv start (phaseAfter σ first x.1) x.1 cap x.2) (haccepted : AllAccepted σ (startWords start) first x.1) (round : Round L) :
    ∃ r, Settles (fun fuel => Round.run σ fuel x round) r ∧
      ∀ y, r = .ok y → Inv start (phaseAfter σ first y.1) y.1 cap y.2 ∧ AllAccepted σ (startWords start) first y.1 := by
  by_cases hrows : round.rows.length ≠ round.draft.length + 1
  · refine ⟨.error .rows, ⟨0, fun fuel _ => ?_⟩, fun y hy => by cases hy⟩
    show _ <$> sampleAndAcceptN σ fuel x.2 round.rows round.draft round.grammarFirst = _
    rw [sampleAndAcceptN, if_pos hrows]
    rfl
  · rw [← List.append_nil x.1] at hinv haccepted
    obtain ⟨r, hsettles, hr⟩ := Inv.sampleLoop hstart hprod round.grammarFirst round.rows round.draft x.1 [] hinv haccepted
    refine ⟨(fun y => (x.1 ++ y.1, y.2)) <$> r, ?_, fun y hy => ?_⟩
    · have hcall : ∀ fuel, sampleAndAcceptN σ fuel x.2 round.rows round.draft round.grammarFirst =
          Sampling.sampleLoop σ fuel round.grammarFirst round.draft round.rows x.2 [] := fun fuel => if_neg hrows
      simp only [Round.run, hcall]
      exact hsettles.map _
    · obtain ⟨z, hz, rfl⟩ := map_eq_ok hy
      exact hr z.1 z.2 hz

/-- **Every run** leaves tokens that are accepted each where it stands. -/
theorem generate_inv (hstart : Ready start) (hprod : (cfg start.rules).Productive) (hinv : Inv start phase [] cap s)
    (rounds : List (Round L)) {toks : List Token} {s' : Sampler C}
    (hrun : Settles (fun fuel => generate σ fuel rounds s) (.ok (toks, s'))) :
    Inv start (phaseAfter σ phase toks) toks cap s' ∧ AllAccepted σ (startWords start) phase toks := by
  have hfold : ∀ (rounds : List (Round L)) {x : List Token × Sampler C}, Inv start (phaseAfter σ phase x.1) x.1 cap x.2 →
      AllAccepted σ (startWords start) phase x.1 → ∃ r, Settles (fun fuel => rounds.foldlM (Round.run σ fuel) x) r ∧
        ∀ y, r = .ok y → Inv start (phaseAfter σ phase y.1) y.1 cap y.2 ∧ AllAccepted σ (startWords start) phase y.1 := by
    intro rounds
    induction rounds with
    | nil => exact fun {x} hx hacc => ⟨.ok x, .const _, fun y hy => Except.ok.inj hy ▸ ⟨hx, hacc⟩⟩
    | cons round rounds ih =>
        intro x hx hacc
        obtain ⟨r, hsettles, hr⟩ := Inv.round (σ := σ) hstart hprod hx hacc round
        simp only [List.foldlM_cons]
        cases r with
        | error e => exact ⟨.error e, hsettles.bind_error, fun y hy => by cases hy⟩
        | ok y =>
            obtain ⟨hinv', hacc'⟩ := hr y rfl
            obtain ⟨r', hsettles', hr'⟩ := ih hinv' hacc'
            exact ⟨r', hsettles.bind_ok hsettles', hr'⟩
  obtain ⟨r, hsettles, hr⟩ := hfold rounds (x := ([], s)) hinv fun k id hk => by
    rw [List.getElem?_nil] at hk
    cases hk
  exact hr (toks, s') (hsettles.unique hrun)

/-! ## Under a grammar that was read -/

variable (σ) in
/-- A lazy grammar waits at first. -/
def Sampler.init (start : LlamaGrammar) (isLazy : Bool) (chain : C) (nPrev : Nat) : Sampler C :=
  ⟨some ⟨⟨start, {}, isLazy⟩, []⟩, chain, .ofCapacity (max 32 nPrev) 0⟩

def Phase.initial (isLazy : Bool) : Phase := if isLazy then .waiting [] else .reading []

variable (σ lang) in
/-- A token with which the texts stay the beginning of a word: it ends with a character, or the generation where they are a
word. -/
structure Whole (texts : List Text) (id : Token) : Prop where
  complete : σ.vocab.isEog id = true → decoded texts ∈ lang
  head : σ.vocab.isEog id = false → (σ.vocab.tokenToPiece id).headD 0 ≠ 0
  whole : σ.vocab.isEog id = false → (feed {} (texts ++ [σ.vocab.tokenToPiece id])).partial_.nRemain = 0
  noZero : σ.vocab.isEog id = false → 0 ∉ newPoints texts (σ.vocab.tokenToPiece id)
  readable : σ.vocab.isEog id = false → Readable lang (texts ++ [σ.vocab.tokenToPiece id])

variable (σ lang phase) in
/-- Some token with a finite logit is possible. -/
def Possible (logits : List L) : Prop :=
  ∃ id logit, logits[id]? = some logit ∧ logit ≠ σ.negInf ∧ ∀ texts, phase = .reading texts → Whole σ lang texts id

omit [DecidableEq L] in
theorem Inv.initial (hstart : Ready start) (isLazy : Bool) (chain : C) (nPrev : Nat) :
    Inv start (Phase.initial isLazy) [] (max 32 nPrev) (Sampler.init start isLazy chain nPrev) := by
  have hpos : 0 < max 32 nPrev := lt_of_lt_of_le (by decide) (le_max_left 32 nPrev)
  have hnil : ([] : List Token).rtake (max 32 nPrev) = [] := List.drop_nil
  refine ⟨⟨_, rfl, ?_⟩, rfl, by rw [hnil]; exact rep_ofCapacity hpos 0⟩
  cases isLazy with
  | true => exact rfl
  | false => exact reading_start hstart

omit [DecidableEq L] in
theorem Inv.offers (hprod : (cfg start.rules).Productive) (h : Inv start phase toks cap s) {logits : List L}
    (hpossible : Possible σ (startWords start) phase logits) : Offers σ s.grmr logits := by
  obtain ⟨id, logit, hget, hlogit, hwhole⟩ := hpossible
  refine ⟨id, logit, hget, hlogit, fun g hg hactive => ?_⟩
  obtain ⟨g', hg', hholds⟩ := h.grmr
  cases hg.symm.trans hg'
  cases phase with
  | waiting buffer =>
      rw [show g = _ from hholds] at hactive
      cases hactive
  | reading texts =>
      have hreading : Reading start.rules start.stackSet texts g.state := hholds
      have hid := hwhole texts rfl
      cases heog : σ.vocab.isEog id with
      | true => exact (hreading.allowed_eog heog).mpr (hid.complete heog)
      | false =>
          exact hreading.allowed_of_readable hprod heog (hid.head heog) (hid.whole heog) (hid.noZero heog) (hid.readable heog)

omit [DecidableEq L] in
/-- A token that is left is accepted, unless a zero hides the rest of its piece. -/
theorem Inv.accepts (hprod : (cfg start.rules).Productive) (h : Inv start phase toks cap s) {id : Token}
    (hleaves : Leaves σ s.grmr id) {texts : List Text} (hphase : phase = .reading texts)
    (hzero : 0 ∉ newPoints texts (σ.vocab.tokenToPiece id)) : Accepts σ (startWords start) phase id := by
  subst hphase
  obtain ⟨g, hg, hholds⟩ := h.grmr
  have hreading : Reading start.rules start.stackSet texts g.state := hholds
  have hallowed := hleaves g hg hreading.active
  refine ⟨fun texts' htexts => ?_, fun texts' htexts heog => ?_⟩
  · cases heog : σ.vocab.isEog id with
    | true =>
        cases (show Phase.next σ (.reading texts) id = .reading texts from if_pos heog).symm.trans htexts
        exact hreading.readable hprod
    | false =>
        cases (show Phase.next σ (.reading texts) id = .reading (texts ++ [σ.vocab.tokenToPiece id]) from
          if_neg (by rw [heog]; exact Bool.false_ne_true)).symm.trans htexts
        exact hreading.readable_of_allowed hprod heog hzero hallowed
  · cases htexts
    exact (hreading.allowed_eog heog).mp hallowed

/-- **Sampling goes on** wherever some token is possible, and what it returns can be accepted. -/
theorem Inv.goesOn (hstart : Ready start) (hprod : (cfg start.rules).Productive) (hchain : σ.chain.Sound σ.negInf)
    (h : Inv start phase toks cap s) {logits : List L} (hpossible : Possible σ (startWords start) phase logits)
    (grammarFirst : Bool) :
    ∃ id s', Settles (fun fuel => s.sample σ fuel logits grammarFirst) (.ok (id, s')) ∧
      ((∃ s'', Settles (fun fuel => s'.accept σ fuel id true) (.ok s'')) ↔ Accepts σ (startWords start) phase id) ∧
      ∀ texts, phase = .reading texts → 0 ∉ newPoints texts (σ.vocab.tokenToPiece id) →
        Accepts σ (startWords start) phase id := by
  obtain ⟨id, s', hsampled, hgrmr, hprev, hleaves⟩ := sampled_spec hchain (h.offers hprod hpossible) grammarFirst
  have hsample := sample_settles (σ := σ) h.readyWhenActive logits grammarFirst
  rw [hsampled] at hsample
  have hinv : Inv start phase toks cap s' := ⟨by rw [hgrmr]; exact h.grmr, by rw [hprev]; exact h.capacity,
        by rw [hprev]; exact h.prev⟩
  obtain ⟨r, hsettles, hcases⟩ := hinv.accept (σ := σ) hstart hprod id
  refine ⟨id, s', hsample, ⟨?_, fun haccepts => ?_⟩, fun texts hphase hzero => h.accepts hprod hleaves hphase hzero⟩
  · rintro ⟨s'', hok⟩
    rcases hcases with ⟨haccepts, -⟩ | ⟨-, e, rfl⟩
    · exact haccepts
    · cases hsettles.unique hok
  · rcases hcases with ⟨-, s'', rfl, -⟩ | ⟨hnot, -⟩
    · exact ⟨s'', hsettles⟩
    · exact absurd haccepts hnot

end Runs

/-- What a grammar starts with. -/
theorem ready_of_init {grammarStr grammarRoot : Text} {parser : Parser} {root : UInt32} {start : LlamaGrammar}
    (hparse : parse grammarStr = .ok parser) (hname : (parser.symbolIds.lookup rootName).isSome)
    (hroot : parser.symbolIds.lookup grammarRoot = some root) (hdef : root.toNat < parser.rules.length)
    (hleft : (cfg parser.rules).NoLeftRecursion) (hprod : (cfg parser.rules).Productive)
    (hinit : Settles (fun fuel => initImpl fuel grammarStr grammarRoot) (.ok (some start))) :
    Ready start ∧ start.rules = parser.rules ∧ startWords start = (cfg parser.rules).ruleLang root.toNat := by
  obtain ⟨stackSet, hsettles, htop, hwords⟩ := initImpl_settles hparse hname hroot hdef hleft
  obtain ⟨w, hw⟩ := exists_mem_ruleLang hprod hdef
  cases hsettles.unique hinit
  have hne : stackSet ≠ [] := by
    rintro rfl
    rw [← hwords] at hw
    obtain ⟨stack, hstack, -⟩ := hw
    cases hstack
  exact ⟨⟨parse_wf hparse, wellFounded_leftRef hleft, htop, hne⟩, rfl, hwords⟩

/-- The pieces `a` and `b`, and an end of generation. -/
def listVocab : Vocab := ⟨fun id => [[97], [98]].getD id [], fun id => decide (2 ≤ id)⟩

def listSetup : Setup Nat Unit := ⟨0, 1, Nat.one_ne_zero, listVocab, {}, greedy Nat⟩

def listStart : LlamaGrammar := ⟨listRules, [[⟨0, 0⟩], [⟨0, 3⟩]]⟩

theorem listStart_init : Settles (fun fuel => initImpl fuel listText rootName) (.ok (some listStart)) := by
  refine ⟨2, fun fuel hfuel => ?_⟩
  obtain ⟨k, rfl⟩ := Nat.exists_eq_add_of_le' hfuel
  rfl

/-- The second row has its largest logit at the end of generation, which the grammar does not leave. -/
def listRounds : List (Round Nat) := [⟨[[3, 2, 3], [1, 2, 3], [2, 1, 3]], [0, 1], false⟩]

theorem generate_list : Settles (fun fuel => generate listSetup fuel listRounds (.init listStart false () 0))
    (.ok ([0, 1, 2], ⟨some ⟨⟨⟨listRules, [[]]⟩, ⟨98, 0⟩, false⟩, []⟩, (), ⟨32, 3, 0, 3, [0, 1, 2] ++ .replicate 29 0⟩⟩)) := by
  refine ⟨4, fun fuel hfuel => ?_⟩
  obtain ⟨k, rfl⟩ := Nat.exists_eq_add_of_le' hfuel
  rfl

end S2Moe.Sampling
