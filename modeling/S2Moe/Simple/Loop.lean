import S2Moe.Lib.Run
import Mathlib.Data.List.Basic

/-!
# The generation loop of `llama-speculative-simple`

The target is a function from the text a row sees to the next token; its memory is attention only. The drafter of this file is
any list of tokens in each round.

* `Target`, `Target.decode` : the target's cache, and what its last decode computed;
* `sampleAndAcceptN` : `common_sampler_sample_and_accept_n`;
* `start`, `round`, `step` : both start-up conventions, and one turn of the loop;
* `continuation` : the target's autoregressive continuation;
* `Right` : what was produced is part of it and stops at its first end of generation, and the cache is `prompt_tgt`;
* `right_iff` : a round leaves the loop so unless an end of generation was sampled from the prompt, or is accepted inside a
  draft.
-/

namespace S2Moe.Simple
open S2Moe.Lib

abbrev Token := Nat

/-- `next` and `feature` are computed from the text up to a position. -/
structure Model (F : Type) where
  next : List Token → Token
  feature : List Token → F
  eog : Token → Bool

/-- `outputs` has what each output row of the last decode saw, `features` the features of all its rows. -/
structure Target (F : Type) where
  cache : Nat → Option Token := fun _ => none
  outputs : List (List Token) := []
  features : List F := []

structure Params where
  native : Bool
  nMin : Int
  nPredict : Int

section
variable {F : Type}

namespace Target

/-- What a row at position `p` attends to. -/
def seen (cache : Nat → Option Token) (p : Nat) : List Token := (List.range (p + 1)).filterMap cache

/-- `llama_decode` of `toks` from position `pos` on. All rows are outputs, or only the last one. An empty batch is
refused, but the features are cleared before. -/
def decode (m : Model F) (t : Target F) (pos : Nat) (toks : List Token) (all : Bool) : Target F :=
  if toks = [] then { t with features := [] }
  else
    let cache := fun p => if pos ≤ p ∧ p < pos + toks.length then toks[p - pos]? else t.cache p
    let rows := (List.range toks.length).map fun i => seen cache (pos + i)
    { cache := cache
      outputs := if all then rows else rows.drop (toks.length - 1)
      features := rows.map m.feature }

/-- `llama_memory_seq_rm (mem, 0, n, -1)`. -/
def seqRm (t : Target F) (n : Nat) : Target F := { t with cache := fun p => if n ≤ p then none else t.cache p }

/-- `common_sampler_sample` of an output row. -/
def sample (m : Model F) (t : Target F) (i : Nat) : Option Token := t.outputs[i]?.map m.next

end Target

/-- The loop over the draft, and the token behind it. -/
def sampleAndAcceptN (m : Model F) (t : Target F) : List Token → Nat → List Token → Option (List Token)
  | [], i, result => (t.sample m i).map fun id => result ++ [id]
  | d :: draft, i, result =>
    match t.sample m i with
    | none => none
    | some id => if d = id then sampleAndAcceptN m t draft (i + 1) (result ++ [id]) else some (result ++ [id])

/-- The variables of one question. `produced` has every token that `id_last` was sampled as. -/
structure Loop (F : Type) where
  target : Target F
  promptTgt : List Token
  idLast : Token
  nPast : Nat
  nPredict : Nat := 0
  hasEos : Bool := false
  produced : List Token := []

/-- Up to the loop. The native drafters need the features of the whole prompt, so the first token is sampled at once. -/
def start (m : Model F) (prms : Params) (inp : List Token) : Option (Loop F) :=
  if prms.native then
    let t := Target.decode m {} 0 inp false
    match t.sample m (t.outputs.length - 1) with
    | none => none
    | some id => some { target := t, promptTgt := inp, idLast := id, nPast := inp.length, nPredict := 1, produced := [id] }
  else
    match inp.getLast? with
    | none => none
    | some id =>
      some { target := Target.decode m {} 0 inp.dropLast false, promptTgt := inp.dropLast, idLast := id, nPast := inp.length - 1 }

/-- A small draft is not used. A negative `n_min` is converted to a size that no draft has. -/
def usedDraft (prms : Params) (draft : List Token) : List Token :=
  if prms.nMin < 0 ∨ (draft.length : Int) < prms.nMin then [] else draft

/-- The loop over the accepted tokens. -/
def acceptLoop (m : Model F) : List Token → Loop F → Loop F
  | [], s => s
  | id :: ids, s =>
    let s := { s with promptTgt := s.promptTgt ++ [s.idLast], idLast := id, produced := s.produced ++ [id] }
    if m.eog id then { s with hasEos := true } else acceptLoop m ids s

/-- One turn, from the draft on. -/
def round (m : Model F) (prms : Params) (draft : List Token) (s : Loop F) : Option (Loop F) :=
  let draft := usedDraft prms draft
  let t := s.target.decode m s.nPast (s.idLast :: draft) true
  match sampleAndAcceptN m t draft 0 [] with
  | none => none
  | some ids =>
    let s := acceptLoop m ids { s with
      target := t, nPast := s.nPast + 1 + (ids.length - 1), nPredict := s.nPredict + ids.length }
    some { s with target := s.target.seqRm s.nPast }

/-- The condition of the `break`. -/
def Loop.stops (prms : Params) (s : Loop F) : Prop := 0 ≤ prms.nPredict ∧ prms.nPredict < s.nPredict ∨ s.hasEos = true

instance (prms : Params) (s : Loop F) : Decidable (s.stops prms) := inferInstanceAs (Decidable (_ ∨ _))

/-- The first turn is taken in any case: the `break` is at the end of a turn. -/
def step (m : Model F) (prms : Params) (draft : List Token) (s : Bool × Loop F) : Option (Bool × Loop F) :=
  if s.1 then none
  else (round m prms draft s.2).map fun s => (decide (s.stops prms), s)

/-! ## What the program is for -/

/-- The target's autoregressive continuation of a prompt, the first `n` tokens. -/
def continuation (m : Model F) (inp : List Token) : Nat → List Token
  | 0 => []
  | n + 1 => continuation m inp n ++ [m.next (inp ++ continuation m inp n)]

/-- The part of a draft that the target would also produce behind `text`. -/
def agreed (m : Model F) (text : List Token) : List Token → List Token
  | [] => []
  | d :: draft => if d = m.next text then d :: agreed m (text ++ [d]) draft else []

structure Right (m : Model F) (inp : List Token) (s : Loop F) : Prop where
  produced : s.produced = continuation m inp s.produced.length
  lastEog : ∀ i x, s.produced[i]? = some x → m.eog x = true → i + 1 = s.produced.length
  size : s.promptTgt.length = s.nPast
  cache : ∀ p, s.target.cache p = s.promptTgt[p]?

/-! ## The target's decode -/

/-- The cache holds just `l`. -/
def Holds (t : Target F) (l : List Token) : Prop := ∀ p, t.cache p = l[p]?

theorem filterMap_range_getElem? (l : List Token) : ∀ n : Nat, (List.range n).filterMap (fun p => l[p]?) = l.take n
  | 0 => rfl
  | n + 1 => by
    rw [List.range_succ, List.filterMap_append, filterMap_range_getElem? l n]
    cases hn : l[n]? with
    | none =>
        have hle := List.getElem?_eq_none_iff.mp hn
        simp [hn, List.take_of_length_le hle, List.take_of_length_le (Nat.le_succ_of_le hle)]
    | some x =>
        simp [hn, List.take_add_one]

theorem Holds.seen {t : Target F} {l : List Token} (h : Holds t l) (p : Nat) : Target.seen t.cache p = l.take (p + 1) := by
  rw [Target.seen, ← filterMap_range_getElem?]
  congr 1
  funext q
  exact h q

theorem Holds.seqRm {t : Target F} {l : List Token} (h : Holds t l) (n : Nat) : Holds (t.seqRm n) (l.take n) := by
  intro p
  rw [Target.seqRm, List.getElem?_take]
  dsimp only
  by_cases hp : n ≤ p
  · rw [if_pos hp, if_neg (by omega)]
  · rw [if_neg hp, if_pos (by omega)]
    exact h p

/-- What a decode at the end of the cache leaves and computes. -/
theorem Holds.decode {t : Target F} {l toks : List Token} (m : Model F) (h : Holds t l) (hne : toks ≠ []) (all : Bool) :
    Holds (t.decode m l.length toks all) (l ++ toks) ∧
      (t.decode m l.length toks true).outputs =
        (List.range toks.length).map (fun i => (l ++ toks).take (l.length + i + 1)) ∧
      (t.decode m l.length toks all).features =
        (List.range toks.length).map (fun i => m.feature ((l ++ toks).take (l.length + i + 1))) := by
  have hcache : Holds (t.decode m l.length toks all) (l ++ toks) := by
    intro p
    rw [Target.decode, if_neg hne]
    dsimp only
    by_cases hp : l.length ≤ p
    · rw [List.getElem?_append_right hp]
      split
      · rfl
      · rw [h p, List.getElem?_eq_none hp, List.getElem?_eq_none (by omega)]
    · rw [if_neg (by omega), h p, List.getElem?_append_left (by omega)]
  have hseen := fun i => hcache.seen (l.length + i)
  refine ⟨hcache, ?_, ?_⟩
  · rw [Target.decode, if_neg hne] at hseen ⊢
    dsimp only at hseen ⊢
    rw [if_pos rfl]
    exact List.map_congr_left fun i _ => hseen i
  · rw [Target.decode, if_neg hne] at hseen ⊢
    dsimp only at hseen ⊢
    rw [List.map_map]
    exact List.map_congr_left fun i _ => congrArg m.feature (hseen i)

/-! ## Sampling and accepting -/

/-- The tokens are those of the draft that the target agrees with, and the target's own token behind them. -/
theorem sampleAndAcceptN_eq (m : Model F) (t : Target F) : ∀ (draft text result : List Token) (i : Nat),
    (∀ j ≤ draft.length, t.outputs[i + j]? = some (text ++ draft.take j)) →
      sampleAndAcceptN m t draft i result =
        some (result ++ agreed m text draft ++ [m.next (text ++ agreed m text draft)])
  | [], text, result, i, h => by
    have h0 := h 0 (Nat.le_refl 0)
    rw [Nat.add_zero, List.take_zero, List.append_nil] at h0
    simp [sampleAndAcceptN, Target.sample, h0, agreed]
  | d :: draft, text, result, i, h => by
    have h0 := h 0 (Nat.zero_le _)
    rw [Nat.add_zero, List.take_zero, List.append_nil] at h0
    rw [sampleAndAcceptN, agreed]
    simp only [Target.sample, h0, Option.map_some]
    by_cases hd : d = m.next text
    · rw [if_pos hd, if_pos hd, sampleAndAcceptN_eq m t draft (text ++ [d]) (result ++ [m.next text]) (i + 1) ?_]
      · rw [hd]
        simp
      · intro j hj
        have hj' := h (j + 1) (by rw [List.length_cons]; omega)
        rw [List.take_succ_cons] at hj'
        rw [Nat.add_right_comm, Nat.add_assoc, hj', List.append_assoc]
        rfl
    · rw [if_neg hd, if_neg hd]
      simp

theorem sampleAndAcceptN_ne_nil {m : Model F} {t : Target F} : ∀ {draft result ids : List Token} {i : Nat},
    sampleAndAcceptN m t draft i result = some ids → ids ≠ []
  | [], result, ids, i, h => by
    obtain ⟨x, -, rfl⟩ := Option.map_eq_some_iff.mp h
    simp
  | d :: draft, result, ids, i, h => by
    rw [sampleAndAcceptN] at h
    split at h
    · cases h
    · split at h
      · exact sampleAndAcceptN_ne_nil h
      · cases h
        simp

theorem prefix_agreed (m : Model F) : ∀ (text draft : List Token), agreed m text draft <+: draft
  | _, [] => List.prefix_rfl
  | text, d :: draft => by
    rw [agreed]
    split
    · exact List.cons_prefix_cons.mpr ⟨rfl, prefix_agreed m _ draft⟩
    · exact List.nil_prefix

/-- The ids up to the first end of generation. -/
def upToEog (m : Model F) : List Token → List Token
  | [] => []
  | id :: ids => if m.eog id then [id] else id :: upToEog m ids

theorem prefix_upToEog (m : Model F) : ∀ ids : List Token, upToEog m ids <+: ids
  | [] => List.prefix_rfl
  | id :: ids => by
    rw [upToEog]
    split
    · exact List.cons_prefix_cons.mpr ⟨rfl, List.nil_prefix⟩
    · exact List.cons_prefix_cons.mpr ⟨rfl, prefix_upToEog m ids⟩

theorem upToEog_ne_nil (m : Model F) {ids : List Token} (h : ids ≠ []) : upToEog m ids ≠ [] := by
  cases ids with
  | nil => exact absurd rfl h
  | cons id ids =>
    rw [upToEog]
    split <;> exact List.cons_ne_nil _ _

/-- Only the last of them may end the generation. -/
theorem upToEog_last (m : Model F) : ∀ (ids : List Token) (i : Nat) (x : Token), (upToEog m ids)[i]? = some x →
    m.eog x = true → i + 1 = (upToEog m ids).length
  | [], i, x, h, _ => by simp [upToEog] at h
  | id :: ids, i, x, h, hx => by
    rw [upToEog] at h ⊢
    split at h
    · rename_i hid
      rw [if_pos hid]
      cases i with
      | zero => rfl
      | succ i => simp at h
    · rename_i hid
      rw [if_neg hid]
      cases i with
      | zero =>
          rw [List.getElem?_cons_zero, Option.some.injEq] at h
          exact absurd (h ▸ hx) hid
      | succ i =>
          rw [List.length_cons, upToEog_last m ids i x h hx]

/-- All of the ids are gone through exactly when none but the last ends the generation. -/
theorem upToEog_eq_iff (m : Model F) : ∀ (ids : List Token) (last : Token),
    upToEog m (ids ++ [last]) = ids ++ [last] ↔ ∀ x ∈ ids, m.eog x = false
  | [], last => by simp [upToEog]
  | id :: ids, last => by
    rw [List.cons_append, upToEog]
    by_cases hid : m.eog id = true
    · simp [hid]
    · rw [if_neg hid, List.cons.injEq, upToEog_eq_iff m ids last]
      simp [hid]

/-- What the loop over the accepted tokens does. -/
theorem acceptLoop_spec (m : Model F) : ∀ (ids : List Token) (s : Loop F),
    (acceptLoop m ids s).promptTgt ++ [(acceptLoop m ids s).idLast] = s.promptTgt ++ [s.idLast] ++ upToEog m ids ∧
      (acceptLoop m ids s).produced = s.produced ++ upToEog m ids ∧
      (acceptLoop m ids s).hasEos = (s.hasEos || ids.any m.eog) ∧
      (acceptLoop m ids s).target = s.target ∧ (acceptLoop m ids s).nPast = s.nPast
  | [], s => by simp [acceptLoop, upToEog]
  | id :: ids, s => by
    rw [acceptLoop, upToEog, List.any_cons]
    by_cases hid : m.eog id = true
    · simp [hid]
    · obtain ⟨h1, h2, h3, h4, h5⟩ := acceptLoop_spec m ids
        { s with promptTgt := s.promptTgt ++ [s.idLast], idLast := id, produced := s.produced ++ [id] }
      rw [if_neg hid, if_neg hid, h1, h2, h3, h4, h5]
      simp [hid]

/-! ## Runs -/

theorem continuation_length (m : Model F) (inp : List Token) : ∀ n, (continuation m inp n).length = n
  | 0 => rfl
  | n + 1 => by rw [continuation, List.length_append, continuation_length m inp n, List.length_singleton]

/-- Tokens that the target agrees with, and its own token behind them, go on with its continuation. -/
theorem continuation_append (m : Model F) (inp : List Token) : ∀ (draft produced : List Token),
    produced = continuation m inp produced.length →
      produced ++ agreed m (inp ++ produced) draft ++ [m.next (inp ++ produced ++ agreed m (inp ++ produced) draft)] =
        continuation m inp (produced.length + (agreed m (inp ++ produced) draft).length + 1)
  | [], produced, h => by
    simp only [agreed, List.append_nil, List.length_nil, Nat.add_zero]
    rw [continuation, ← h]
  | d :: draft, produced, h => by
    rw [agreed]
    by_cases hd : d = m.next (inp ++ produced)
    · rw [if_pos hd]
      have hnext : produced ++ [d] = continuation m inp (produced ++ [d]).length := by
        rw [List.length_append, List.length_singleton, continuation, ← h, hd]
      have ih := continuation_append m inp draft (produced ++ [d]) hnext
      rw [List.length_append, List.length_singleton, ← List.append_assoc] at ih
      rw [List.length_cons, ← Nat.add_assoc, Nat.add_right_comm produced.length, ← ih]
      simp
    · rw [if_neg hd]
      simp only [List.append_nil, List.length_nil, Nat.add_zero]
      rw [continuation, ← h]

/-- At the start of a turn. -/
structure Inv (m : Model F) (prms : Params) (inp : List Token) (s : Loop F) : Prop where
  text : inp ++ s.produced = s.promptTgt ++ [s.idLast]
  produced : s.produced = continuation m inp s.produced.length
  size : s.promptTgt.length = s.nPast
  cache : Holds s.target s.promptTgt
  eog : ∀ i x, s.produced[i]? = some x → m.eog x = true → prms.native = true ∧ i = 0
  native : prms.native = true → s.produced.head? = some (m.next inp)

theorem start_inv (m : Model F) (prms : Params) {inp : List Token} (hne : inp ≠ []) :
    ∃ s, start m prms inp = some s ∧ Inv m prms inp s := by
  have hempty : Holds ({} : Target F) [] := fun p => rfl
  rw [start]
  split
  case isTrue hnat =>
    obtain ⟨hcache, houtputs, -⟩ := hempty.decode m hne false
    have hlen : inp.length - 1 + 1 = inp.length := Nat.sub_add_cancel (List.length_pos_of_ne_nil hne)
    have hsample : Target.sample m (Target.decode m {} 0 inp false)
        ((Target.decode m {} 0 inp false).outputs.length - 1) = some (m.next inp) := by
      have hrows : (Target.decode m ({} : Target F) 0 inp false).outputs =
          (Target.decode m ({} : Target F) 0 inp true).outputs.drop (inp.length - 1) := by
        simp [Target.decode, hne]
      have hall : (Target.decode m ({} : Target F) 0 inp true).outputs =
          (List.range inp.length).map fun i => inp.take (i + 1) := by
        simpa using houtputs
      rw [Target.sample, hrows, hall, List.length_drop, List.length_map, List.length_range, List.getElem?_drop]
      have hlast : inp.length - 1 + (inp.length - (inp.length - 1) - 1) = inp.length - 1 := by omega
      rw [hlast, List.getElem?_map, List.getElem?_range (by omega)]
      simp [hlen]
    refine ⟨_, by simp only [hsample]; rfl, ?_⟩
    exact
      { text := rfl
        produced := by simp [continuation]
        size := rfl
        cache := hcache
        eog := fun i x hx _ => by
          cases i with
          | zero => exact ⟨hnat, rfl⟩
          | succ i => simp at hx
        native := fun _ => rfl }
  case isFalse hnat =>
    obtain ⟨pre, last, rfl⟩ : ∃ pre last, inp = pre ++ [last] := ⟨_, _, (List.dropLast_append_getLast hne).symm⟩
    simp only [List.getLast?_append, List.getLast?_singleton, Option.some_or, List.dropLast_concat, List.length_append,
      List.length_singleton, Nat.add_sub_cancel]
    refine ⟨_, rfl, ?_⟩
    exact
      { text := by simp
        produced := rfl
        size := rfl
        cache := by
          by_cases hpre : pre = []
          · subst hpre
            exact hempty
          · exact (hempty.decode m hpre false).1
        eog := fun i x hx _ => by simp at hx
        native := fun hn => absurd hn hnat }

/-- No end of generation was sampled from the prompt, and none is accepted inside the draft. -/
structure Clear (m : Model F) (prms : Params) (inp draft : List Token) (s : Loop F) : Prop where
  first : prms.native = true → m.eog (m.next inp) = false
  inside : ∀ x ∈ agreed m (s.promptTgt ++ [s.idLast]) (usedDraft prms draft), m.eog x = false

/-- The ids of a turn, and what the cache holds when they are sampled. -/
theorem Inv.ids {m : Model F} {prms : Params} {inp : List Token} {s : Loop F} (h : Inv m prms inp s) (draft : List Token) :
    let t := s.target.decode m s.nPast (s.idLast :: draft) true
    Holds t (s.promptTgt ++ s.idLast :: draft) ∧
      t.features = (List.range (draft.length + 1)).map
        (fun i => m.feature ((s.promptTgt ++ s.idLast :: draft).take (s.nPast + i + 1))) ∧
      sampleAndAcceptN m t draft 0 [] = some (agreed m (inp ++ s.produced) draft ++
        [m.next (inp ++ s.produced ++ agreed m (inp ++ s.produced) draft)]) := by
  obtain ⟨hcache, houtputs, hfeatures⟩ := h.cache.decode m (List.cons_ne_nil s.idLast draft) true
  rw [h.size] at hcache houtputs hfeatures
  refine ⟨hcache, hfeatures, ?_⟩
  rw [sampleAndAcceptN_eq m _ draft (inp ++ s.produced) [] 0 ?_, List.nil_append]
  intro j hj
  rw [houtputs, Nat.zero_add, List.getElem?_map, List.getElem?_range (by rw [List.length_cons]; omega), Option.map_some,
    h.text, List.append_cons, List.take_append]
  have hlen : (s.promptTgt ++ [s.idLast]).length = s.nPast + 1 := by rw [List.length_append, h.size]; rfl
  rw [List.take_of_length_le (by omega), hlen]
  congr 3
  omega

/-- What a turn does, when the ids are `ids`. -/
structure Turn (m : Model F) (used ids : List Token) (s s' : Loop F) : Prop where
  text : s'.promptTgt ++ [s'.idLast] = s.promptTgt ++ [s.idLast] ++ upToEog m ids
  produced : s'.produced = s.produced ++ upToEog m ids
  hasEos : s'.hasEos = (s.hasEos || ids.any m.eog)
  nPast : s'.nPast = s.nPast + ids.length
  cache : Holds s'.target ((s.promptTgt ++ s.idLast :: used).take s'.nPast)
  features : s'.target.features =
    (List.range (used.length + 1)).map fun i => m.feature ((s.promptTgt ++ s.idLast :: used).take (s.nPast + i + 1))

theorem Inv.turn {m : Model F} {prms : Params} {inp : List Token} {s : Loop F} (h : Inv m prms inp s) (draft : List Token) :
    ∃ s', Simple.round m prms draft s = some s' ∧
      Turn m (usedDraft prms draft) (agreed m (inp ++ s.produced) (usedDraft prms draft) ++
        [m.next (inp ++ s.produced ++ agreed m (inp ++ s.produced) (usedDraft prms draft))]) s s' := by
  obtain ⟨hcache, hfeatures, hids⟩ := h.ids (usedDraft prms draft)
  rw [Simple.round]
  simp only [hids]
  generalize agreed m (inp ++ s.produced) (usedDraft prms draft) ++
    [m.next (inp ++ s.produced ++ agreed m (inp ++ s.produced) (usedDraft prms draft))] = ids at hids ⊢
  have hpos : 0 < ids.length := List.length_pos_of_ne_nil (sampleAndAcceptN_ne_nil hids)
  obtain ⟨htext, hprod, heos, htgt, hpast⟩ := acceptLoop_spec m ids { s with
    target := s.target.decode m s.nPast (s.idLast :: usedDraft prms draft) true
    nPast := s.nPast + 1 + (ids.length - 1), nPredict := s.nPredict + ids.length }
  generalize acceptLoop m ids _ = s' at htext hprod heos htgt hpast ⊢
  dsimp only at htext hprod heos htgt hpast
  exact ⟨_, rfl, htext, hprod, heos, hpast.trans (by omega), htgt ▸ hcache.seqRm s'.nPast, htgt ▸ hfeatures⟩

/-- A turn that goes on has gone through all of its ids. -/
theorem Turn.prompt {m : Model F} {used ag : List Token} {nx : Token} {s s' : Loop F} (h : Turn m used (ag ++ [nx]) s s')
    (hno : s'.hasEos = false) : s'.promptTgt = s.promptTgt ++ [s.idLast] ++ ag ∧ s'.idLast = nx := by
  have heos := h.hasEos
  rw [hno, eq_comm, Bool.or_eq_false_iff, List.any_eq_false] at heos
  have htext := h.text
  rw [(upToEog_eq_iff m ag nx).mpr fun x hx => Bool.eq_false_iff.mpr (heos.2 x (List.mem_append_left _ hx)),
    ← List.append_assoc] at htext
  obtain ⟨hprompt, hlast⟩ := List.append_inj' htext rfl
  exact ⟨hprompt, List.singleton_inj.mp hlast⟩

/-- **One turn.** -/
theorem Inv.round {m : Model F} {prms : Params} {inp : List Token} {s : Loop F} (h : Inv m prms inp s)
    (draft : List Token) : ∃ s', Simple.round m prms draft s = some s' ∧
      (Right m inp s' ↔ Clear m prms inp draft s) ∧ (s'.hasEos = false → Inv m prms inp s') := by
  obtain ⟨s', hs', hturn⟩ := h.turn draft
  have hagreed : agreed m (s.promptTgt ++ [s.idLast]) (usedDraft prms draft) =
      agreed m (inp ++ s.produced) (usedDraft prms draft) := by rw [h.text]
  have hpre := prefix_agreed m (inp ++ s.produced) (usedDraft prms draft)
  have hcont := continuation_append m inp (usedDraft prms draft) s.produced h.produced
  generalize hag : agreed m (inp ++ s.produced) (usedDraft prms draft) = ag at hpre hcont hagreed hturn
  generalize m.next (inp ++ s.produced ++ ag) = nx at hcont hturn
  obtain ⟨htext, hprod, heos, hpast, hcache, -⟩ := hturn
  rw [List.length_append, List.length_singleton] at hpast
  have hlen : s'.promptTgt.length = s.nPast + (upToEog m (ag ++ [nx])).length := by
    have := congrArg List.length htext
    simp only [List.length_append, List.length_singleton, h.size] at this
    omega
  -- if the loop over the ids gets to their end, the cache is cut where they end
  have hend : (∀ x ∈ ag, m.eog x = false) → s'.produced = s.produced ++ (ag ++ [nx]) ∧
      s'.promptTgt.length = s'.nPast ∧ Holds s'.target s'.promptTgt := by
    intro hinside
    rw [(upToEog_eq_iff m ag nx).mpr hinside] at htext hprod hlen
    have hprompt : s'.promptTgt = s.promptTgt ++ [s.idLast] ++ ag := by
      rw [← List.append_assoc] at htext
      exact (List.append_inj' htext rfl).1
    obtain ⟨rest, hrest⟩ := hpre
    have hsplit : s.promptTgt ++ s.idLast :: usedDraft prms draft = s.promptTgt ++ [s.idLast] ++ ag ++ rest := by
      rw [← hrest]
      simp
    refine ⟨hprod, ?_, ?_⟩
    · rw [hlen, hpast, List.length_append, List.length_singleton]
    · rw [hsplit, List.take_left' (by rw [List.length_append, List.length_append, h.size, List.length_singleton]; omega),
        ← hprompt] at hcache
      exact hcache
  refine ⟨s', hs', ⟨fun hr => ⟨fun hnat => ?_, ?_⟩, fun hc => ?_⟩, fun hno => ?_⟩
  · have hhead := h.native hnat
    by_contra hno
    have hfirst : s'.produced[0]? = some (m.next inp) := by
      rw [hprod, ← List.head?_eq_getElem?, List.head?_append, hhead]
      rfl
    have hone : 0 + 1 = s'.produced.length := hr.lastEog 0 _ hfirst (by simpa using hno)
    have hpos : s.produced ≠ [] := by
      intro hnil
      rw [hnil] at hhead
      cases hhead
    have hids : upToEog m (ag ++ [nx]) ≠ [] := upToEog_ne_nil m (by simp)
    have h1 := List.length_pos_of_ne_nil hids
    have h2 := List.length_pos_of_ne_nil hpos
    rw [hprod, List.length_append] at hone
    omega
  · rw [hagreed]
    have hsize := hr.size
    have hfull := (prefix_upToEog m (ag ++ [nx])).eq_of_length (by
      rw [List.length_append, List.length_singleton]
      omega)
    exact (upToEog_eq_iff m ag nx).mp hfull
  · obtain ⟨hprod', hsize, hcut⟩ := hend (by rw [← hagreed]; exact hc.inside)
    have hfull := (upToEog_eq_iff m ag nx).mpr (by rw [← hagreed]; exact hc.inside)
    exact
      { produced := by
          rw [hprod', ← List.append_assoc, hcont, continuation_length]
        lastEog := by
          intro i x hx hxe
          rw [hprod'] at hx ⊢
          rcases Nat.lt_or_ge i s.produced.length with hi | hi
          · rw [List.getElem?_append_left hi] at hx
            obtain ⟨hnat, rfl⟩ := h.eog i x hx hxe
            have hhead := h.native hnat
            rw [List.head?_eq_getElem?, hx, Option.some.injEq] at hhead
            rw [hhead, hc.first hnat] at hxe
            cases hxe
          · rw [List.getElem?_append_right hi, ← hfull] at hx
            have hlast := upToEog_last m _ _ x hx hxe
            rw [hfull] at hlast
            rw [List.length_append]
            omega
        size := hsize
        cache := hcut }
  · rw [heos, Bool.or_eq_false_iff, List.any_eq_false] at hno
    have hids : ∀ x ∈ ag ++ [nx], m.eog x = false := fun x hx => Bool.eq_false_iff.mpr (hno.2 x hx)
    obtain ⟨hprod', hsize, hcut⟩ := hend fun x hx => hids x (List.mem_append_left _ hx)
    have hfull := (upToEog_eq_iff m ag nx).mpr fun x hx => hids x (List.mem_append_left _ hx)
    exact
      { text := by
          rw [htext, hprod', hfull, ← List.append_assoc, h.text]
        produced := by
          rw [hprod', ← List.append_assoc, hcont, continuation_length]
        size := hsize
        cache := hcut
        eog := by
          intro i x hx hxe
          rw [hprod'] at hx
          rcases Nat.lt_or_ge i s.produced.length with hi | hi
          · rw [List.getElem?_append_left hi] at hx
            exact h.eog i x hx hxe
          · rw [List.getElem?_append_right hi] at hx
            rw [hids x (List.mem_of_getElem? hx)] at hxe
            cases hxe
        native := fun hnat => by
          rw [hprod', List.head?_append, h.native hnat]
          rfl }

/-- **Over any turns with any drafts, a turn goes right exactly when no end of generation was sampled from the prompt and none
is accepted inside the draft.** -/
theorem right_iff (m : Model F) (prms : Params) (inp : List Token) (hne : inp ≠ []) (s₀ s : Loop F)
    (hstart : start m prms inp = some s₀)
    (hrun : Reaches (step m prms) (fun _ _ => True) (false, s₀) (false, s)) (draft : List Token) :
    ∃ s', Simple.round m prms draft s = some s' ∧ (Right m inp s' ↔ Clear m prms inp draft s) := by
  obtain ⟨s₁, hs₁, hinv⟩ := start_inv m prms hne
  obtain rfl : s₁ = s₀ := Option.some.inj (hs₁.symm.trans hstart)
  have hreach := hrun.invariant (I := fun t => t.1 = false → Inv m prms inp t.2) (fun _ => hinv) ?_
  · obtain ⟨s', hs', hiff, -⟩ := (hreach rfl).round draft
    exact ⟨s', hs', hiff⟩
  · rintro ⟨b, t⟩ ⟨c, u⟩ d ht - hstep hc
    rw [step] at hstep
    split at hstep
    · cases hstep
    · rename_i hb
      obtain ⟨s', hs', -, hnext⟩ := (ht (by simpa using hb)).round d
      dsimp only at hstep
      rw [hs', Option.map_some, Option.some.injEq, Prod.mk.injEq] at hstep
      obtain ⟨hcu, rfl⟩ := hstep
      apply hnext
      have hstop : ¬ s'.stops prms := of_decide_eq_false (hcu.trans hc)
      exact Bool.eq_false_iff.mpr fun he => hstop (Or.inr he)

end

/-- The target that ends every text. -/
def ending : Model Unit := ⟨fun _ => 2, fun _ => (), fun x => decide (x = 2)⟩

theorem right_iff_ending : ∃ s₀ s', start ending ⟨false, 0, -1⟩ [7, 8] = some s₀ ∧
    Simple.round ending ⟨false, 0, -1⟩ [5] s₀ = some s' ∧
      (Right ending [7, 8] s' ↔ Clear ending ⟨false, 0, -1⟩ [7, 8] [5] s₀) := by
  obtain ⟨s', hs', hiff⟩ := right_iff ending ⟨false, 0, -1⟩ [7, 8] (by decide) _ _ rfl .start [5]
  exact ⟨_, s', rfl, hs', hiff⟩

/-- With a native drafter, a token follows the end of generation that was sampled from the prompt. -/
theorem produced_after_eog : ¬ ∀ (m : Model Unit) (prms : Params) (inp : List Token) (s₀ s : Loop Unit), inp ≠ [] →
    start m prms inp = some s₀ → Reaches (step m prms) (fun _ _ => True) (false, s₀) (false, s) →
      ∀ (draft : List Token) (s' : Loop Unit), Simple.round m prms draft s = some s' → Right m inp s' := by
  intro h
  have hright := h ending ⟨true, 0, -1⟩ [7] _ _ (by decide) rfl .start [] _ rfl
  exact absurd (hright.lastEog 0 2 rfl rfl) (by decide)

end S2Moe.Simple
