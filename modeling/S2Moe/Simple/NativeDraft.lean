import S2Moe.Kv.Mirror
import S2Moe.Simple.Loop

/-!
# The native drafters: EAGLE3 and DFlash

`gen_eagle3_draft` and `gen_dflash_draft` in the loop of `llama-speculative-simple`. A call commits a row of the target's
features for each position that was verified since the last call, and then drafts behind them.

* `Entry` : what a cell of the draft's cache was built from; `Speculative` : the cache and the verified positions;
* `genEagle3Draft`, `genDflashDraft`, `genDraft` : one call. The missing result is an assertion that fails, or a read
behind the end of the features;
* `verified` : the entries of the verified positions;
* `Aligned` : the features of the last decode start at the first position that is not committed yet;
* `reaches_aligned` : in every run, each call finds its rows, and leaves the verified positions with their entries.
-/

namespace S2Moe.Simple
open S2Moe.Kv S2Moe.Lib
open S2Moe.Recurrent (posMax)

/-- A committed position has the feature it was built from, and for EAGLE3 the token beside it. A drafted one has a token of
this call: a draft, `id_last`, or the mask. -/
inductive Entry (F : Type) where
  | committed (f : F) (tok : Option Token)
  | drafted (tok : Token)

/-- The draft context's parameters. -/
structure DraftCtx where
  nSeqMax : Nat
  nUbatch : Nat

/-- The drafter's part of `common_speculative`. -/
structure Speculative (F : Type) where
  cache : Cache (Entry F)
  nPast : Nat := 0

/-- `sample i` is what the draft model's sampler gives at index `i` of the draft, and whether its probability is high
enough to go on. -/
structure Call where
  nDraft : Int
  sample : Nat → Token × Bool

inductive Kind where
  | eagle3
  | dflash (blockSize : Nat) (mask : Token) (domino : Bool)

section
variable {F : Type}

namespace Speculative

def seqRm (spec : Speculative F) : Speculative F := { spec with cache := spec.cache.seqRm 0 spec.nPast (-1) }

def decode (ctx : DraftCtx) (spec : Speculative F) (pos : Nat) (entries : List (Entry F)) : Option (Speculative F) :=
  (spec.cache.llamaDecode ctx.nSeqMax ctx.nUbatch (rowsFrom pos entries)).map fun c => { spec with cache := c }

end Speculative

/-- `llama_get_eagle3_target_features`, and the rows of it that are read. -/
def featureRows (features : List F) (nNew : Nat) : Option (List F) :=
  if features = [] then none else if nNew ≤ features.length then some (features.take nNew) else none

/-! ## EAGLE3 -/

/-- The autoregressive turns; `last` is the back of `result`. -/
def eagle3Loop (ctx : DraftCtx) (call : Call) (n : Nat) : Nat → Nat → Token → Speculative F → List Token →
    Option (List Token × Speculative F)
  | 0, _, _, spec, result => some (result, spec)
  | turns + 1, i, last, spec, result =>
    match spec.decode ctx (n - 1 + i) [.drafted last] with
    | none => none
    | some spec =>
      let r := call.sample i
      let result := result ++ [r.1]
      if r.2 then eagle3Loop ctx call n turns (i + 1) r.1 spec result else some (result, spec)

/-- The entries of the decoder's batch. -/
def eagle3Entries (prompt : List Token) (idLast : Token) (nPast : Nat) (fs : List F) : List (Entry F) :=
  fs.mapIdx fun i f => .committed f (some (prompt.getD (nPast + i + 1) idLast))

def genEagle3Draft (ctx : DraftCtx) (call : Call) (features : List F) (prompt : List Token) (idLast : Token)
    (spec : Speculative F) : Option (List Token × Speculative F) :=
  let n := prompt.length
  if n < 1 ∨ n < spec.nPast + 1 then none
  else
    match featureRows features (n - spec.nPast) with
    | none => none
    | some fs =>
      match spec.seqRm.decode ctx spec.nPast (eagle3Entries prompt idLast spec.nPast fs) with
      | none => none
      | some spec =>
        let r := call.sample 0
        if r.2 then eagle3Loop ctx call n (call.nDraft.toNat - 1) 1 r.1 { spec with nPast := n } [r.1]
        else some ([r.1], { spec with nPast := n })

/-! ## DFlash -/

/-- The features are injected one by one. -/
def injectLoop (ctx : DraftCtx) : List F → Nat → Speculative F → Option (Speculative F)
  | [], _, spec => some spec
  | f :: fs, pos, spec =>
    match spec.decode ctx pos [.committed f none] with
    | none => none
    | some spec => injectLoop ctx fs (pos + 1) spec

/-- The draft is read off the block; with domino all of it is taken. -/
def blockSample (call : Call) (domino : Bool) : Nat → Nat → List Token
  | 0, _ => []
  | n + 1, i => if domino ∨ (call.sample i).2 then (call.sample i).1 :: blockSample call domino n (i + 1) else
      [(call.sample i).1]

def genDflashDraft (ctx : DraftCtx) (blockSize : Nat) (mask : Token) (domino : Bool) (call : Call) (features : List F)
    (prompt : List Token) (idLast : Token) (spec : Speculative F) : Option (List Token × Speculative F) :=
  let n := prompt.length
  if n < spec.nPast then none
  else
    match if n - spec.nPast = 0 then some [] else featureRows features (n - spec.nPast) with
    | none => none
    | some fs =>
      match injectLoop ctx fs spec.nPast spec.seqRm with
      | none => none
      | some spec =>
        let nDraft := (max 0 (min call.nDraft (blockSize - 1))).toNat
        let spec := { spec with nPast := n }
        if nDraft = 0 then some ([], spec)
        else
          (spec.decode ctx n (.drafted idLast :: List.replicate nDraft (.drafted mask))).map fun spec =>
            (blockSample call domino nDraft 0, spec)

/-- `common_speculative_gen_draft` for the native drafters. -/
def genDraft (ctx : DraftCtx) (kind : Kind) (call : Call) (features : List F) (prompt : List Token) (idLast : Token)
    (spec : Speculative F) : Option (List Token × Speculative F) :=
  match kind with
  | .eagle3 => genEagle3Draft ctx call features prompt idLast spec
  | .dflash blockSize mask domino => genDflashDraft ctx blockSize mask domino call features prompt idLast spec

/-- One turn of the loop with the draft. -/
def nativeStep (m : Model F) (prms : Params) (ctx : DraftCtx) (kind : Kind) (call : Call)
    (s : (Bool × Loop F) × Speculative F) : Option ((Bool × Loop F) × Speculative F) :=
  if s.1.1 then none
  else
    match genDraft ctx kind call s.1.2.target.features s.1.2.promptTgt s.1.2.idLast s.2 with
    | none => none
    | some (draft, spec) => (step m prms draft s.1).map fun t => (t, spec)

/-! ## What the cache is for -/

/-- The token beside the feature of position `p`. -/
def Kind.beside (kind : Kind) (text : List Token) (p : Nat) : Option Token :=
  match kind with
  | .eagle3 => text[p + 1]?
  | .dflash .. => none

/-- The entry of each of the first `n` positions of the text. -/
def verified (m : Model F) (kind : Kind) (text : List Token) (n : Nat) : List (Entry F) :=
  (List.range n).map fun p => .committed (m.feature (text.take (p + 1))) (kind.beside text p)

/-- The cache has these entries, and positions are ints. -/
structure Held (spec : Speculative F) (vals : List (Entry F)) : Prop where
  mirrors : Mirrors spec.cache vals
  small : (spec.cache.cells.size : Int) ≤ posMax

theorem Held.seqRm {spec : Speculative F} {vals : List (Entry F)} (h : Held spec vals) :
    Held spec.seqRm (vals.take spec.nPast) where
  mirrors := h.mirrors.take (by have := h.mirrors.holds.length_le; have := h.small; omega) spec.nPast
  small := by
    have hrm : Each spec.cache (spec.cache.seqRm 0 spec.nPast (-1)) (Cell.removed 0 spec.nPast (-1)) :=
      h.mirrors.ok.seqRm 0 spec.nPast (-1)
    rw [Speculative.seqRm, hrm.size_eq]
    exact h.small

theorem Held.decode {ctx : DraftCtx} {spec spec' : Speculative F} {vals entries : List (Entry F)} (h : Held spec vals)
    {pos : Nat} (hpos : pos = vals.length) (hrun : spec.decode ctx pos entries = some spec') :
    Held spec' (vals ++ entries) ∧ spec'.nPast = spec.nPast := by
  obtain ⟨c, hdec, rfl⟩ := Option.map_eq_some_iff.mp hrun
  subst hpos
  refine ⟨⟨h.mirrors.decode hdec, ?_⟩, rfl⟩
  rw [llamaDecode_size h.mirrors.ok (rowsFrom_ok _ _) hdec]
  exact h.small

theorem verified_length (m : Model F) (kind : Kind) (text : List Token) (n : Nat) : (verified m kind text n).length = n := by
  simp [verified]

/-- The text behind the verified positions does not matter. -/
theorem verified_congr (m : Model F) (kind : Kind) {text text' : List Token} {n : Nat} (hlt : n < text.length)
    (h : text <+: text') : verified m kind text' n = verified m kind text n := by
  obtain ⟨more, rfl⟩ := h
  apply List.map_congr_left
  intro p hp
  rw [List.mem_range] at hp
  have hbeside : kind.beside (text ++ more) p = kind.beside text p := by
    cases kind with
    | eagle3 => exact List.getElem?_append_left (by omega)
    | dflash => rfl
  rw [List.take_append_of_le_length (by omega), hbeside]

/-- New rows of features complete the entries. -/
theorem verified_add (m : Model F) (kind : Kind) (text : List Token) (nPast : Nat) (fs : List F)
    (h : ∀ i < fs.length, fs[i]? = some (m.feature (text.take (nPast + i + 1)))) :
    verified m kind text (nPast + fs.length) = verified m kind text nPast ++
      fs.mapIdx fun i f => .committed f (kind.beside text (nPast + i)) := by
  rw [verified, List.range_add, List.map_append, List.map_map]
  congr 1
  apply List.ext_getElem?
  intro i
  rw [List.getElem?_map, List.getElem?_mapIdx]
  rcases Nat.lt_or_ge i fs.length with hi | hi
  · rw [List.getElem?_range hi, h i hi]
    rfl
  · rw [List.getElem?_eq_none hi, List.getElem?_eq_none (by simpa using hi)]
    rfl

/-- Behind the verified positions there are only drafts. -/
def Drafts (rest : List (Entry F)) : Prop := ∀ e ∈ rest, ∃ tok, e = .drafted tok

theorem Drafts.append {a b : List (Entry F)} (ha : Drafts a) (hb : Drafts b) : Drafts (a ++ b) := by
  intro e he
  exact (List.mem_append.mp he).elim (ha e) (hb e)

theorem eagle3Loop_spec {ctx : DraftCtx} {call : Call} {n : Nat} {vals : List (Entry F)} (hn : vals.length = n)
    (hpos : 0 < n) :
    ∀ (turns i : Nat) (last : Token) (spec : Speculative F) (result : List Token) (rest : List (Entry F))
      (out : List Token × Speculative F), Held spec (vals ++ rest) → rest.length + 1 = i → Drafts rest →
      eagle3Loop ctx call n turns i last spec result = some out →
        out.2.nPast = spec.nPast ∧ ∃ rest', Held out.2 (vals ++ rest') ∧ Drafts rest'
  | 0, i, last, spec, result, rest, out, h, _, hrest, hrun => by
    cases hrun
    exact ⟨rfl, rest, h, hrest⟩
  | turns + 1, i, last, spec, result, rest, out, h, hi, hrest, hrun => by
    rw [eagle3Loop] at hrun
    cases hdec : spec.decode ctx (n - 1 + i) [.drafted last] with
    | none =>
        rw [hdec] at hrun
        cases hrun
    | some spec' =>
        rw [hdec] at hrun
        obtain ⟨hheld, hpast⟩ := h.decode (by rw [List.length_append]; omega) hdec
        rw [List.append_assoc] at hheld
        have hdrafts : Drafts (rest ++ [Entry.drafted last]) := hrest.append (by
          intro e he
          exact ⟨last, List.mem_singleton.mp he⟩)
        dsimp only at hrun
        split at hrun
        · obtain ⟨hp, hout⟩ := eagle3Loop_spec hn hpos turns (i + 1) _ spec' _ _ out hheld
            (by rw [List.length_append, List.length_singleton, hi]) hdrafts hrun
          exact ⟨hp.trans hpast, hout⟩
        · cases hrun
          exact ⟨hpast, _, hheld, hdrafts⟩

theorem injectLoop_spec {ctx : DraftCtx} : ∀ (fs : List F) (pos : Nat) (spec spec' : Speculative F) (vals : List (Entry F)),
    Held spec vals → pos = vals.length → injectLoop ctx fs pos spec = some spec' →
      Held spec' (vals ++ fs.map fun f => .committed f none) ∧ spec'.nPast = spec.nPast
  | [], pos, spec, spec', vals, h, _, hrun => by
    cases hrun
    exact ⟨by simpa using h, rfl⟩
  | f :: fs, pos, spec, spec', vals, h, hpos, hrun => by
    rw [injectLoop] at hrun
    cases hdec : spec.decode ctx pos [.committed f none] with
    | none =>
        rw [hdec] at hrun
        cases hrun
    | some spec₁ =>
        rw [hdec] at hrun
        obtain ⟨hheld, hpast⟩ := h.decode hpos hdec
        obtain ⟨hall, hp⟩ := injectLoop_spec fs (pos + 1) spec₁ spec' _ hheld (by simp [hpos]) hrun
        refine ⟨?_, hp.trans hpast⟩
        simpa using hall

/-- In front of a call: `text` is `prompt_tgt` and `id_last`, and the features start at the first position that is not
verified in the draft's cache. -/
structure Aligned (m : Model F) (kind : Kind) (features : List F) (prompt : List Token) (idLast : Token)
    (spec : Speculative F) : Prop where
  new : spec.nPast < prompt.length
  rows : prompt.length - spec.nPast ≤ features.length
  feature : ∀ i < prompt.length - spec.nPast, features[i]? = some (m.feature (prompt.take (spec.nPast + i + 1)))
  held : ∃ rest, Held spec (verified m kind (prompt ++ [idLast]) spec.nPast ++ rest)

/-- The cache of `spec` has the verified entries of the first `n` positions, and behind them only drafts of this call. -/
def Committed (m : Model F) (kind : Kind) (text : List Token) (n : Nat) (spec : Speculative F) : Prop :=
  spec.nPast = n ∧ ∃ rest, Held spec (verified m kind text n ++ rest) ∧ Drafts rest

section
variable {m : Model F} {kind : Kind} {features : List F} {prompt : List Token} {idLast : Token} {spec : Speculative F}

/-- What the removal leaves. -/
theorem Aligned.seqRm (h : Aligned m kind features prompt idLast spec) :
    Held spec.seqRm (verified m kind (prompt ++ [idLast]) spec.nPast) := by
  obtain ⟨rest, hheld⟩ := h.held
  have hcut := hheld.seqRm
  rwa [List.take_left' (verified_length m kind _ _)] at hcut

/-- The rows that are read. -/
theorem Aligned.featureRows (h : Aligned m kind features prompt idLast spec) :
    ∃ fs, Simple.featureRows features (prompt.length - spec.nPast) = some fs ∧ fs.length = prompt.length - spec.nPast ∧
      verified m kind (prompt ++ [idLast]) prompt.length = verified m kind (prompt ++ [idLast]) spec.nPast ++
        fs.mapIdx fun i f => .committed f (kind.beside (prompt ++ [idLast]) (spec.nPast + i)) := by
  have hnew := h.new
  have hrows := h.rows
  have hne : features ≠ [] := List.ne_nil_of_length_pos (by omega)
  have hlen : (features.take (prompt.length - spec.nPast)).length = prompt.length - spec.nPast := by
    rw [List.length_take]
    omega
  refine ⟨_, by rw [Simple.featureRows, if_neg hne, if_pos hrows], hlen, ?_⟩
  have hadd := verified_add m kind (prompt ++ [idLast]) spec.nPast (features.take (prompt.length - spec.nPast)) (by
    intro i hi
    rw [hlen] at hi
    rw [List.getElem?_take_of_lt hi, h.feature i hi, List.take_append_of_le_length (by omega)])
  rwa [hlen, Nat.add_sub_cancel' (by omega)] at hadd

end

theorem genEagle3Draft_spec {m : Model F} {ctx : DraftCtx} {call : Call} {features : List F} {prompt : List Token}
    {idLast : Token} {spec : Speculative F} (h : Aligned m .eagle3 features prompt idLast spec)
    {out : List Token × Speculative F} (hrun : genEagle3Draft ctx call features prompt idLast spec = some out) :
    Committed m .eagle3 (prompt ++ [idLast]) prompt.length out.2 := by
  have hnew := h.new
  obtain ⟨fs, hfs, hlen, hverified⟩ := h.featureRows
  rw [genEagle3Draft] at hrun
  dsimp only at hrun
  rw [if_neg (by omega), hfs] at hrun
  dsimp only at hrun
  cases hdec : spec.seqRm.decode ctx spec.nPast (eagle3Entries prompt idLast spec.nPast fs) with
  | none =>
      rw [hdec] at hrun
      cases hrun
  | some spec₁ =>
      rw [hdec] at hrun
      obtain ⟨hheld, -⟩ := h.seqRm.decode (verified_length m .eagle3 _ _).symm hdec
      have hentries : eagle3Entries prompt idLast spec.nPast fs = fs.mapIdx fun i f =>
          .committed f (Kind.eagle3.beside (prompt ++ [idLast]) (spec.nPast + i)) := by
        apply List.ext_getElem?
        intro i
        rw [eagle3Entries, List.getElem?_mapIdx, List.getElem?_mapIdx]
        rcases Nat.lt_or_ge i fs.length with hi | hi
        · have hpos : spec.nPast + i + 1 ≤ prompt.length := by omega
          rw [List.getElem?_eq_getElem hi, Option.map_some, Option.map_some, List.getD_eq_getElem?_getD, Kind.beside]
          rcases Nat.lt_or_ge (spec.nPast + i + 1) prompt.length with hlt | hge
          · rw [List.getElem?_append_left hlt, List.getElem?_eq_getElem hlt]
            rfl
          · have heq : spec.nPast + i + 1 = prompt.length := by omega
            rw [heq, List.getElem?_concat_length, List.getElem?_eq_none (Nat.le_refl _)]
            rfl
        · rw [List.getElem?_eq_none hi]
          rfl
      rw [hentries, ← hverified] at hheld
      have hheld' : Held { spec₁ with nPast := prompt.length }
        (verified m .eagle3 (prompt ++ [idLast]) prompt.length ++ []) := by
        rw [List.append_nil]
        exact ⟨hheld.mirrors, hheld.small⟩
      have hnone : Drafts ([] : List (Entry F)) := fun e he => absurd he List.not_mem_nil
      dsimp only at hrun
      split at hrun
      · obtain ⟨hp, rest, hrest⟩ := eagle3Loop_spec (verified_length m .eagle3 _ _) (by omega) _ 1 _ _ _ [] out hheld' rfl
          hnone hrun
        exact ⟨hp, rest, hrest⟩
      · cases hrun
        exact ⟨rfl, [], hheld', hnone⟩

theorem genDflashDraft_spec {m : Model F} {ctx : DraftCtx} {blockSize : Nat} {mask : Token} {domino : Bool} {call : Call}
    {features : List F} {prompt : List Token} {idLast : Token} {spec : Speculative F}
    (h : Aligned m (.dflash blockSize mask domino) features prompt idLast spec) {out : List Token × Speculative F}
    (hrun : genDflashDraft ctx blockSize mask domino call features prompt idLast spec = some out) :
    Committed m (.dflash blockSize mask domino) (prompt ++ [idLast]) prompt.length out.2 := by
  have hnew := h.new
  obtain ⟨fs, hfs, hlen, hverified⟩ := h.featureRows
  rw [genDflashDraft] at hrun
  dsimp only at hrun
  rw [if_neg (by omega), if_neg (by omega), hfs] at hrun
  dsimp only at hrun
  cases hinj : injectLoop ctx fs spec.nPast spec.seqRm with
  | none =>
      rw [hinj] at hrun
      cases hrun
  | some spec₁ =>
      rw [hinj] at hrun
      obtain ⟨hheld, -⟩ := injectLoop_spec fs spec.nPast _ _ _ h.seqRm (verified_length m _ _ _).symm hinj
      have hentries : fs.map (fun f => Entry.committed f none) = fs.mapIdx fun i f =>
          .committed f ((Kind.dflash blockSize mask domino).beside (prompt ++ [idLast]) (spec.nPast + i)) := by
        apply List.ext_getElem?
        intro i
        simp [Kind.beside]
      rw [hentries, ← hverified] at hheld
      have hnone : Drafts ([] : List (Entry F)) := fun e he => absurd he List.not_mem_nil
      dsimp only at hrun
      split at hrun
      · cases hrun
        refine ⟨rfl, [], ?_, hnone⟩
        rw [List.append_nil]
        exact ⟨hheld.mirrors, hheld.small⟩
      · obtain ⟨spec₂, hdec, rfl⟩ := Option.map_eq_some_iff.mp hrun
        have hheld' : Held { spec₁ with nPast := prompt.length } (verified m (.dflash blockSize mask domino)
            (prompt ++ [idLast]) prompt.length) := ⟨hheld.mirrors, hheld.small⟩
        obtain ⟨hblock, hp⟩ := hheld'.decode (verified_length m _ _ _).symm hdec
        refine ⟨hp, _, hblock, ?_⟩
        intro e he
        rcases List.mem_cons.mp he with rfl | he
        · exact ⟨idLast, rfl⟩
        · exact ⟨mask, List.eq_of_mem_replicate he⟩

/-- **A call that finds its features leaves the verified positions with their entries, and behind them only its drafts.** -/
theorem genDraft_spec {m : Model F} {ctx : DraftCtx} {kind : Kind} {call : Call} {features : List F} {prompt : List Token}
    {idLast : Token} {spec : Speculative F} (h : Aligned m kind features prompt idLast spec)
    {out : List Token × Speculative F} (hrun : genDraft ctx kind call features prompt idLast spec = some out) :
    Committed m kind (prompt ++ [idLast]) prompt.length out.2 := by
  cases kind with
  | eagle3 => exact genEagle3Draft_spec h hrun
  | dflash blockSize mask domino => exact genDflashDraft_spec h hrun

/-- A turn of the loop keeps the features in step with the draft's cache. -/
theorem Aligned.turn {m : Model F} {kind : Kind} {used ag : List Token} {nx : Token} {s s' : Loop F} {spec : Speculative F}
    (h : Turn m used (ag ++ [nx]) s s') (hno : s'.hasEos = false) (hsize : s.promptTgt.length = s.nPast)
    (hpre : ag <+: used) (hspec : Committed m kind (s.promptTgt ++ [s.idLast]) s.promptTgt.length spec) :
    Aligned m kind s'.target.features s'.promptTgt s'.idLast spec := by
  obtain ⟨hprompt, -⟩ := h.prompt hno
  obtain ⟨hpast, rest, hheld, -⟩ := hspec
  have hlen : s'.promptTgt.length = s.promptTgt.length + 1 + ag.length := by
    rw [hprompt, List.length_append, List.length_append, List.length_singleton]
  have hag := hpre.length_le
  -- the text the rows were computed on starts like the new prompt
  have htake : ∀ k ≤ s'.promptTgt.length, (s.promptTgt ++ s.idLast :: used).take k = s'.promptTgt.take k := by
    intro k hk
    obtain ⟨more, hmore⟩ := hpre
    have hsplit : s.promptTgt ++ s.idLast :: used = s'.promptTgt ++ more := by
      rw [hprompt, ← hmore]
      simp
    rw [hsplit, List.take_append_of_le_length hk]
  refine ⟨by omega, ?_, fun i hi => ?_, rest, ?_⟩
  · rw [h.features, List.length_map, List.length_range]
    omega
  · rw [h.features, List.getElem?_map, List.getElem?_range (by omega), Option.map_some, htake _ (by omega), hpast, hsize]
  · have htext : s.promptTgt ++ [s.idLast] <+: s'.promptTgt ++ [s'.idLast] := by
      rw [hprompt, List.append_assoc]
      exact List.prefix_append _ _
    rw [hpast, verified_congr m kind (by rw [List.length_append, List.length_singleton]; omega) htext]
    exact hheld

/-- In front of the first call. -/
theorem start_aligned {m : Model F} {prms : Params} (hnat : prms.native = true) (kind : Kind) {inp : List Token}
    (hne : inp ≠ []) {s : Loop F} (hs : start m prms inp = some s) {spec : Speculative F} (hheld : Held spec [])
    (hpast : spec.nPast = 0) : Aligned m kind s.target.features s.promptTgt s.idLast spec := by
  have hempty : Holds ({} : Target F) [] := fun p => rfl
  obtain ⟨-, -, hfeatures⟩ := hempty.decode m hne false
  rw [start, if_pos hnat] at hs
  dsimp only at hs
  split at hs
  · cases hs
  · cases hs
    have hfeat : (Target.decode m ({} : Target F) 0 inp false).features =
        (List.range inp.length).map fun i => m.feature (inp.take (i + 1)) := by
      simpa using hfeatures
    refine ⟨by rw [hpast]; exact List.length_pos_of_ne_nil hne, ?_, fun i hi => ?_, [], ?_⟩
    · rw [hfeat, List.length_map, List.length_range]
      exact Nat.sub_le _ _
    · rw [hpast] at hi ⊢
      rw [hfeat, List.getElem?_map, List.getElem?_range (by omega), Nat.zero_add]
      rfl
    · rw [hpast]
      exact hheld

/-- **Over any turns, each call finds the features of the positions it commits, and leaves every verified position with its
entry and nothing else but its own drafts.** -/
theorem reaches_aligned (m : Model F) (prms : Params) (hnat : prms.native = true) (ctx : DraftCtx) (kind : Kind)
    (inp : List Token) (hne : inp ≠ []) (cache : Cache (Entry F)) (vals : List (Entry F)) (hcache : Mirrors cache vals)
    (hsmall : (cache.cells.size : Int) ≤ posMax) (s₀ s : Loop F) (spec : Speculative F)
    (hstart : start m prms inp = some s₀)
    (hrun : Reaches (nativeStep m prms ctx kind) (fun _ _ => True)
      ((false, s₀), { cache := cache.seqRm 0 0 (-1) }) ((false, s), spec)) :
    Aligned m kind s.target.features s.promptTgt s.idLast spec ∧
      Mirrors spec.seqRm.cache (verified m kind (s.promptTgt ++ [s.idLast]) spec.nPast) ∧
      ∀ (call : Call) (out : List Token × Speculative F),
        genDraft ctx kind call s.target.features s.promptTgt s.idLast spec = some out →
          Committed m kind (s.promptTgt ++ [s.idLast]) s.promptTgt.length out.2 := by
  have hreach := hrun.invariant (I := fun t => t.1.1 = false → Inv m prms inp t.1.2 ∧
    Aligned m kind t.1.2.target.features t.1.2.promptTgt t.1.2.idLast t.2) ?_ ?_
  · obtain ⟨-, haligned⟩ := hreach rfl
    exact ⟨haligned, haligned.seqRm.mirrors, fun call out hout => genDraft_spec haligned hout⟩
  · intro _
    obtain ⟨s₁, hs₁, hinv⟩ := start_inv m prms hne
    obtain rfl : s₁ = s₀ := Option.some.inj (hs₁.symm.trans hstart)
    have hheld : Held { cache := cache } vals := ⟨hcache, hsmall⟩
    have hcut := hheld.seqRm
    rw [List.take_zero] at hcut
    exact ⟨hinv, start_aligned hnat kind hne hstart hcut rfl⟩
  · rintro ⟨⟨b, t⟩, sp⟩ ⟨⟨c, u⟩, sp'⟩ call ht - hstep hc
    rw [nativeStep] at hstep
    dsimp only at hstep ht hc
    split at hstep
    · cases hstep
    · rename_i hb
      obtain ⟨hinv, haligned⟩ := ht (by simpa using hb)
      split at hstep
      · cases hstep
      · rename_i draft spec' hdraft
        have hcommitted := genDraft_spec haligned hdraft
        obtain ⟨u', hu', hturn⟩ := hinv.turn draft
        obtain ⟨u'', hu'', -, hnext⟩ := hinv.round draft
        obtain rfl : u' = u'' := Option.some.inj (hu'.symm.trans hu'')
        rw [step] at hstep
        dsimp only at hstep
        rw [if_neg hb, hu', Option.map_some, Option.map_some, Option.some.injEq, Prod.mk.injEq, Prod.mk.injEq] at hstep
        obtain ⟨⟨hcu, rfl⟩, rfl⟩ := hstep
        have hstop : ¬ u'.stops prms := of_decide_eq_false (hcu.trans hc)
        have hno : u'.hasEos = false := Bool.eq_false_iff.mpr fun he => hstop (Or.inr he)
        exact ⟨hnext hno, Aligned.turn hturn hno hinv.size (prefix_agreed m _ _) hcommitted⟩

end

/-- A target that counts. -/
def counting : Model (List Token) := ⟨List.length, id, fun _ => false⟩

/-- Two tokens are drafted, and the target agrees with the first one. -/
def twoDrafts : Call := ⟨2, fun i => (2 + 7 * i, true)⟩

theorem reaches_aligned_twoDrafts : ∃ s₀ s spec, start counting ⟨true, 0, -1⟩ [5] = some s₀ ∧
    runList (nativeStep counting ⟨true, 0, -1⟩ ⟨1, 4⟩ .eagle3) [twoDrafts]
      ((false, s₀), { cache := ({ cells := { size := 8 }, data := fun _ => .drafted 0 } : Cache _).seqRm 0 0 (-1) }) =
        some ((false, s), spec) ∧
    Aligned counting .eagle3 s.target.features s.promptTgt s.idLast spec := by
  have hmirrors : Mirrors ({ cells := { size := 8 }, data := fun _ => .drafted 0 } : Cache (Entry (List Token))) [] :=
    Mirrors.init 8 _
  obtain ⟨s₀, hs₀⟩ : ∃ s₀, start counting ⟨true, 0, -1⟩ [5] = some s₀ := ⟨_, rfl⟩
  have hfound : ((start counting ⟨true, 0, -1⟩ [5]).bind fun s₀ =>
      (runList (nativeStep counting ⟨true, 0, -1⟩ ⟨1, 4⟩ .eagle3) [twoDrafts]
        ((false, s₀), { cache := ({ cells := { size := 8 }, data := fun _ => .drafted 0 } : Cache _).seqRm 0 0 (-1) })).map
          fun t => t.1.1) = some false := by decide +kernel
  rw [hs₀, Option.bind_some] at hfound
  obtain ⟨⟨⟨b, s⟩, spec⟩, hrun, hb⟩ := Option.map_eq_some_iff.mp hfound
  obtain rfl : b = false := hb
  exact ⟨s₀, s, spec, hs₀, hrun, (reaches_aligned counting ⟨true, 0, -1⟩ rfl ⟨1, 4⟩ .eagle3 [5] (by decide) _ [] hmirrors
    (by decide) s₀ s spec hs₀ (Reaches.runList .start (fun _ _ _ => trivial) hrun)).1⟩

end S2Moe.Simple
