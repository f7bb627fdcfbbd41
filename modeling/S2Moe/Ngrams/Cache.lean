import S2Moe.Lib.Bytes
import S2Moe.Lib.Upsert

/-!
# The n-gram caches : how often a token follows

* `Ngram`, `NgramCache.update`, `build` : the keys, and `common_ngram_cache_update` behind each of the appended pieces;
* `events`, `update_adds` : what a call counts; `build_eq` : all that is counted, however the tokens were cut;
* `occurrences`, `count_events` : it is the number of positions at which the n-gram is followed by the token.
-/

namespace S2Moe.Ngrams
open S2Moe.Lib

abbrev Token := Int32

/-- `LLAMA_TOKEN_NULL` -/
def tokenNull : Token := -1

/-- `LLAMA_NGRAM_MAX` -/
abbrev ngramMost : Nat := 4

/-- `common_ngram` : the tokens of a shorter n-gram are followed by null tokens. -/
abbrev Ngram := Fin ngramMost → Token

/-- The tokens of a list as a key. -/
def pad (g : List Token) : Ngram := fun i => g.getD i tokenNull

/-- `common_ngram(input, ngram_size)`, `none` if it reads behind the tokens. -/
def Ngram.ofInput (input : List Token) (ngramSize : Nat) : Option Ngram :=
  if min ngramSize ngramMost ≤ input.length then some fun i => if i.val < ngramSize then input.getD i tokenNull else tokenNull
  else none

/-- `common_ngram_cache_part` : token → number of times token has been seen -/
abbrev Part := Counts Token

/-- `common_ngram_cache` : n-gram → empirical distribution of following tokens -/
abbrev NgramCache := Tally Ngram Token

/-- The numbers are of 32 bits. -/
def countLimit : Int := 2 ^ 31

/-- A number is put in, or is added to the one that is there; `none` if this overflows. -/
def raise (n : Int) : Option Int → Option Int
  | none => some n
  | some m => if m + n < countLimit then some (m + n) else none

/-- The body of the loops of `common_ngram_cache_update`. -/
def NgramCache.see (c : NgramCache) (ngram : Ngram) (token : Token) : Option NgramCache :=
  upsert c ngram fun
    | none => some (Finmap.insert token 1 ∅)
    | some part => upsert part token (raise 1)

/-- `common_ngram_cache_update` -/
def NgramCache.update (c : NgramCache) (ngramMin ngramMax : Nat) (inp : List Token) (nnew : Nat) : Option NgramCache :=
  (List.range' ngramMin (ngramMax + 1 - ngramMin)).foldlM (fun c ngramSize =>
    let iStart := max (inp.length - nnew) ngramSize
    (List.range' iStart (inp.length - iStart)).foldlM (fun c i => do
      let ngram ← Ngram.ofInput (inp.drop (i - ngramSize)) ngramSize
      let token ← inp[i]?
      NgramCache.see c ngram token) c) c

/-- The pieces are appended in turn, and the cache is updated behind each. -/
def buildFrom (ngramMin ngramMax : Nat) : NgramCache → List Token → List (List Token) → Option NgramCache
  | c, _, [] => some c
  | c, inp, new :: pieces => do
    let c ← c.update ngramMin ngramMax (inp ++ new) new.length
    buildFrom ngramMin ngramMax c (inp ++ new) pieces

def build (ngramMin ngramMax : Nat) (pieces : List (List Token)) : Option NgramCache :=
    buildFrom ngramMin ngramMax ∅ [] pieces

section Events
variable {inp : List Token} {size i lo : Nat} {ngramMin ngramMax : Nat}

/-- The n-gram in front of a position, and the token there. -/
def event (inp : List Token) (size i : Nat) : Ngram × Token := (pad ((inp.drop (i - size)).take size), inp.getD i tokenNull)

/-- What is counted of the positions from `lo` on. -/
def eventsFrom (inp : List Token) (sizes : List Nat) (lo : Nat) : List (Ngram × Token) :=
  sizes.flatMap fun size => (List.range' (max lo size) (inp.length - max lo size)).flatMap fun i => [event inp size i]

theorem ofInput_eq {input : List Token} (h : size ≤ input.length) :
    Ngram.ofInput input size = some (pad (input.take size)) := by
  rw [Ngram.ofInput, if_pos (by omega)]
  refine congrArg some (funext fun i => ?_)
  rw [pad, List.getD_eq_getElem?_getD, List.getD_eq_getElem?_getD, List.getElem?_take]
  by_cases hi : i.val < size
  · rw [if_pos hi, if_pos hi]
  · rw [if_neg hi, if_neg hi]
    rfl

/-- **One more of the pair.** -/
theorem see_adds (ngram : Ngram) (token : Token) :
    Adds countLimit (fun c => NgramCache.see c ngram token) [(ngram, token)] := by
  intro c hc hlt
  have hone : c.count ngram token + 1 < countLimit := by
    have hkt := hlt ngram token
    rwa [List.count_singleton_self] at hkt
  refine ⟨c.add ngram token 1, ?_, hc.add Int.one_pos hone, fun k t => ?_⟩
  · show upsert c ngram _ = _
    rw [upsert, Tally.add]
    rw [Tally.count, Tally.part] at hone ⊢
    cases hpart : c.lookup ngram with
    | none =>
        rw [Option.getD_none, count_empty]
        rfl
    | some part =>
        rw [hpart, Option.getD_some] at hone
        rw [Option.getD_some]
        show (upsert part token (raise 1)).map _ = _
        rw [upsert]
        rw [Counts.count] at hone ⊢
        cases hn : part.lookup token with
        | none => rfl
        | some n =>
            rw [hn, Option.getD_some] at hone
            rw [raise, if_pos hone]
            rfl
  · rw [Tally.count_add, List.count_singleton]
    by_cases h : k = ngram ∧ t = token
    · rw [if_pos h, h.1, h.2, if_pos (beq_self_eq_true _)]
      rfl
    · rw [if_neg h, if_neg]
      · rfl
      · intro heq
        obtain ⟨h₁, h₂⟩ := Prod.mk.inj (eq_of_beq heq)
        exact h ⟨h₁.symm, h₂.symm⟩

theorem update_adds (hnew : lo ≤ inp.length) : Adds countLimit
    (fun c => NgramCache.update c ngramMin ngramMax inp (inp.length - lo))
    (eventsFrom inp (List.range' ngramMin (ngramMax + 1 - ngramMin)) lo) := by
  refine Adds.foldlM fun size _ => ?_
  show Adds countLimit (fun c => (List.range' _ _).foldlM _ c) _
  rw [show inp.length - (inp.length - lo) = lo by omega]
  refine Adds.foldlM fun i hi => ?_
  obtain ⟨hstart, hend⟩ := List.mem_range'_1.mp hi
  have hsize : size ≤ i := le_trans (le_max_right _ _) hstart
  have hlen : i < inp.length := by omega
  have hngram : Ngram.ofInput (inp.drop (i - size)) size = some (pad ((inp.drop (i - size)).take size)) := by
    refine ofInput_eq ?_
    rw [List.length_drop]
    omega
  have htoken : inp[i]? = some (inp.getD i tokenNull) := by
    rw [List.getD_eq_getElem?_getD, List.getElem?_eq_getElem hlen, Option.getD_some]
  have hbody : (fun c : NgramCache => do
      let ngram ← Ngram.ofInput (inp.drop (i - size)) size
      let token ← inp[i]?
      NgramCache.see c ngram token) = fun c => NgramCache.see c (event inp size i).1 (event inp size i).2 := by
    funext c
    rw [hngram, htoken]
    rfl
  rw [hbody]
  exact see_adds _ _

/-- What is in front of the new tokens is counted as before. -/
theorem count_eventsFrom_append (new : List Token) {sizes : List Nat} (e : Ngram × Token) :
    (eventsFrom (inp ++ new) sizes 0).count e =
      (eventsFrom inp sizes 0).count e + (eventsFrom (inp ++ new) sizes inp.length).count e := by
  -- the windows of the positions in front are the same ones
  have hsame : ∀ size i, i ∈ List.range' size (inp.length - size) → event (inp ++ new) size i = event inp size i := by
    intro size i hi
    obtain ⟨hstart, hend⟩ := List.mem_range'_1.mp hi
    have hlen : i < inp.length := by omega
    rw [event, event, List.drop_append_of_le_length (by omega), List.take_append_of_le_length
      (by rw [List.length_drop]; omega),
      List.getD_eq_getElem?_getD, List.getD_eq_getElem?_getD, List.getElem?_append_left hlen]
  induction sizes with
  | nil => rfl
  | cons size sizes ih =>
      have hsplit : List.range' (max 0 size) ((inp ++ new).length - max 0 size) =
          List.range' (max 0 size) (inp.length - max 0 size) ++
            List.range' (max inp.length size) ((inp ++ new).length - max inp.length size) := by
        rw [Nat.zero_max, List.length_append]
        rcases Nat.le_total size inp.length with h | h
        · have happend : List.range' size (inp.length - size) ++ List.range' (size + (inp.length - size)) new.length =
              List.range' size (inp.length - size + new.length) := List.range'_append_1
          rw [Nat.add_sub_cancel' h] at happend
          rw [max_eq_left h, Nat.add_sub_cancel_left, happend]
          congr 1
          omega
        · rw [max_eq_right h, Nat.sub_eq_zero_of_le h, List.range'_zero, List.nil_append]
      have hhead : (List.range' (max 0 size) (inp.length - max 0 size)).flatMap (fun i => [event (inp ++ new) size i]) =
          (List.range' (max 0 size) (inp.length - max 0 size)).flatMap (fun i => [event inp size i]) := by
        refine List.flatMap_congr fun i hi => ?_
        rw [Nat.zero_max] at hi
        rw [hsame size i hi]
      unfold eventsFrom at ih ⊢
      rw [List.flatMap_cons, List.flatMap_cons, List.flatMap_cons, List.count_append, List.count_append, List.count_append,
        hsplit, List.flatMap_append, List.count_append, hhead, ih]
      omega

end Events

section Exact
variable {ngramMin ngramMax : Nat} {tokens : List Token}

/-- All that is to be counted. -/
def events (ngramMin ngramMax : Nat) (tokens : List Token) : List (Ngram × Token) :=
  eventsFrom tokens (List.range' ngramMin (ngramMax + 1 - ngramMin)) 0

theorem buildFrom_adds {pieces : List (List Token)} {c : NgramCache} {inp : List Token} (hc : c.Proper countLimit)
    (hcount : ∀ k t, c.count k t = (events ngramMin ngramMax inp).count (k, t))
    (hlt : ∀ k t, ((events ngramMin ngramMax (inp ++ pieces.flatten)).count (k, t) : Int) < countLimit) :
    ∃ c', buildFrom ngramMin ngramMax c inp pieces = some c' ∧ c'.Proper countLimit ∧
      ∀ k t, c'.count k t = (events ngramMin ngramMax (inp ++ pieces.flatten)).count (k, t) := by
  induction pieces generalizing c inp with
  | nil =>
      rw [List.flatten_nil, List.append_nil]
      exact ⟨c, rfl, hc, hcount⟩
  | cons new pieces ih =>
      rw [List.flatten_cons, ← List.append_assoc] at hlt ⊢
      have hstep : ∀ k t, (events ngramMin ngramMax (inp ++ new)).count (k, t) = (events ngramMin ngramMax inp).count (k, t) +
          (eventsFrom (inp ++ new) (List.range' ngramMin (ngramMax + 1 - ngramMin)) inp.length).count (k, t) :=
        fun k t => count_eventsFrom_append new (k, t)
      have hle : ∀ k t, (events ngramMin ngramMax (inp ++ new)).count (k, t) ≤
          (events ngramMin ngramMax (inp ++ new ++ pieces.flatten)).count (k, t) := by
        intro k t
        have hmore : (events ngramMin ngramMax (inp ++ new ++ pieces.flatten)).count (k, t) = _ :=
          count_eventsFrom_append pieces.flatten (k, t)
        rw [hmore]
        exact Nat.le_add_right _ _
      have hlo : inp.length ≤ (inp ++ new).length := by
        rw [List.length_append]
        omega
      obtain ⟨c₁, h₁, hc₁, hcount₁⟩ := update_adds hlo c hc fun k t => by
        rw [hcount, ← Int.natCast_add, ← hstep]
        exact lt_of_le_of_lt (Int.ofNat_le.mpr (hle k t)) (hlt k t)
      have hnew : (inp ++ new).length - inp.length = new.length := by
        rw [List.length_append, Nat.add_sub_cancel_left]
      rw [hnew] at h₁
      obtain ⟨c₂, h₂, hc₂, hcount₂⟩ := ih hc₁ (fun k t => by rw [hcount₁, hcount, hstep, Int.natCast_add]) hlt
      have h₁ : c.update ngramMin ngramMax (inp ++ new) new.length = some c₁ := h₁
      refine ⟨c₂, ?_, hc₂, hcount₂⟩
      rw [buildFrom, h₁]
      exact h₂

/-- The number of positions at which the n-gram is followed by the token. -/
def occurrences (tokens g : List Token) (t : Token) : Nat :=
  (List.range tokens.length).countP fun i => decide (g ++ [t] <+: tokens.drop i)

theorem getElem?_eq_of_pad {g : List Token} (hnull : tokenNull ∉ g) (i : Fin ngramMost) :
    g[i.val]? = if pad g i = tokenNull then none else some (pad g i) := by
  rw [pad, List.getD_eq_getElem?_getD]
  cases hi : g[i.val]? with
  | none => rfl
  | some t =>
      have hne : t ≠ tokenNull := fun h => hnull (h ▸ List.mem_of_getElem? hi)
      rw [Option.getD_some, if_neg hne]

/-- Null tokens apart, the keys of n-grams of different lengths are different. -/
theorem pad_inj {g g' : List Token} (hnull : tokenNull ∉ g) (hnull' : tokenNull ∉ g') (hlen : g.length ≤ ngramMost)
    (hlen' : g'.length ≤ ngramMost) (h : pad g = pad g') : g = g' := by
  apply List.ext_getElem?
  intro i
  by_cases hi : i < ngramMost
  · have hg := getElem?_eq_of_pad hnull ⟨i, hi⟩
    have hg' := getElem?_eq_of_pad hnull' ⟨i, hi⟩
    rw [h] at hg
    exact hg.trans hg'.symm
  · rw [List.getElem?_eq_none (by omega), List.getElem?_eq_none (by omega)]

/-- An n-gram and the token behind it. -/
theorem concat_prefix_iff {g l : List Token} {t : Token} (hlen : g.length < l.length) :
    g ++ [t] <+: l ↔ l.take g.length = g ∧ l.getD g.length tokenNull = t := by
  have htake : l.take (g.length + 1) = l.take g.length ++ [l.getD g.length tokenNull] := by
    rw [List.take_add_one, List.getElem?_eq_getElem hlen, Option.toList_some, List.getD_eq_getElem?_getD,
      List.getElem?_eq_getElem hlen, Option.getD_some]
  rw [List.prefix_iff_eq_take, List.length_append, List.length_singleton, htake]
  constructor
  · intro h
    obtain ⟨h₁, h₂⟩ := List.append_inj h (by rw [List.length_take]; omega)
    exact ⟨h₁.symm, (List.singleton_inj.mp h₂).symm⟩
  · rintro ⟨h₁, h₂⟩
    rw [h₁, h₂]

theorem occurrences_eq (tokens g : List Token) (t : Token) : occurrences tokens g t =
    (List.range (tokens.length - g.length)).countP fun i => decide (g ++ [t] <+: tokens.drop i) := by
  have hrange : List.range tokens.length = List.range (tokens.length - g.length) ++
      List.range' (tokens.length - g.length) (tokens.length - (tokens.length - g.length)) := by
    have happend : List.range' 0 (tokens.length - g.length) ++
        List.range' (0 + (tokens.length - g.length)) (tokens.length - (tokens.length - g.length)) = _ := List.range'_append_1
    rw [Nat.zero_add, Nat.add_sub_cancel' (Nat.sub_le _ _)] at happend
    rw [List.range_eq_range', List.range_eq_range', happend]
  rw [occurrences, hrange, List.countP_append]
  refine Nat.add_eq_left.mpr (List.countP_eq_zero.mpr fun i hi hp => ?_)
  obtain ⟨hstart, hend⟩ := List.mem_range'_1.mp hi
  have hlen := (of_decide_eq_true hp).length_le
  rw [List.length_append, List.length_singleton, List.length_drop] at hlen
  omega

section Windows
variable {size i : Nat}

/-- The tokens in front of a position. -/
theorem length_window (hi : size ≤ i) (hlen : i < tokens.length) : ((tokens.drop (i - size)).take size).length = size := by
  rw [List.length_take, List.length_drop]
  omega

theorem null_notMem_window (hnull : tokenNull ∉ tokens) : tokenNull ∉ (tokens.drop (i - size)).take size :=
  fun h => hnull (List.mem_of_mem_drop (List.mem_of_mem_take h))

theorem event_eq_iff (hnull : tokenNull ∉ tokens) (hmost : size ≤ ngramMost) (hi : size ≤ i) (hlen : i < tokens.length)
    {g : List Token} (hg : tokenNull ∉ g) (hglen : g.length ≤ ngramMost) {t : Token} :
    event tokens size i = (pad g, t) ↔ size = g.length ∧ g ++ [t] <+: tokens.drop (i - size) := by
  have hwindow := length_window hi hlen
  have hget : (tokens.drop (i - size)).getD size tokenNull = tokens.getD i tokenNull := by
    rw [List.getD_eq_getElem?_getD, List.getD_eq_getElem?_getD, List.getElem?_drop, Nat.sub_add_cancel hi]
  constructor
  · intro h
    obtain ⟨hpad, htoken⟩ := Prod.mk.inj h
    have heq := pad_inj (null_notMem_window hnull) hg (by omega) hglen hpad
    have hsize : size = g.length := by
      rw [← heq]
      exact hwindow.symm
    refine ⟨hsize, (concat_prefix_iff ?_).mpr ?_⟩
    · rw [List.length_drop]
      omega
    · rw [← hsize, hget]
      exact ⟨heq, htoken⟩
  · rintro ⟨hsize, hprefix⟩
    rw [concat_prefix_iff (by rw [List.length_drop]; omega), ← hsize, hget] at hprefix
    rw [event, hprefix.1, hprefix.2]

/-- What is counted for one size. -/
theorem count_size (hnull : tokenNull ∉ tokens) (hmost : size ≤ ngramMost) {g : List Token} (hg : tokenNull ∉ g)
    (hglen : g.length ≤ ngramMost) (t : Token) :
    ((List.range' size (tokens.length - size)).flatMap fun i => [event tokens size i]).count (pad g, t) =
      if size = g.length then occurrences tokens g t else 0 := by
  rw [← List.map_eq_flatMap, List.count, List.countP_map]
  have hmem : ∀ {i}, i ∈ List.range' size (tokens.length - size) → size ≤ i ∧ i < tokens.length := by
    intro i hi
    obtain ⟨hstart, hend⟩ := List.mem_range'_1.mp hi
    omega
  by_cases hsize : size = g.length
  · rw [if_pos hsize, occurrences_eq, ← hsize, List.range'_eq_map_range, List.countP_map]
    refine List.countP_congr fun i hi => ?_
    have hi := List.mem_range.mp hi
    have heq := @event_eq_iff tokens size (size + i) hnull hmost (Nat.le_add_right _ _) (by omega) g hg hglen t
    rw [Nat.add_sub_cancel_left] at heq
    simp only [Function.comp_apply, beq_iff_eq, heq, decide_eq_true_eq]
    exact and_iff_right hsize
  · rw [if_neg hsize, List.countP_eq_zero]
    intro i hi h
    rw [Function.comp_apply, beq_iff_eq, event_eq_iff hnull hmost (hmem hi).1 (hmem hi).2 hg hglen] at h
    exact hsize h.1

end Windows

/-- **What is counted is how often the token follows.** -/
theorem count_events (hmax : ngramMax ≤ ngramMost) (hnull : tokenNull ∉ tokens) {g : List Token} (hg : tokenNull ∉ g)
    (hmin : ngramMin ≤ g.length) (hle : g.length ≤ ngramMax) (t : Token) :
    (events ngramMin ngramMax tokens).count (pad g, t) = occurrences tokens g t := by
  have hmem : g.length ∈ List.range' ngramMin (ngramMax + 1 - ngramMin) := List.mem_range'_1.mpr (by omega)
  have hsum : ∀ size ∈ List.range' ngramMin (ngramMax + 1 - ngramMin),
      ((List.range' (max 0 size) (tokens.length - max 0 size)).flatMap fun i => [event tokens size i]).count (pad g, t) =
        if size = g.length then occurrences tokens g t else 0 := by
    intro size hsize
    have hsize := List.mem_range'_1.mp hsize
    rw [Nat.zero_max]
    exact count_size hnull (by omega) hg (by omega) t
  calc (events ngramMin ngramMax tokens).count (pad g, t)
      = ((List.range' ngramMin (ngramMax + 1 - ngramMin)).map fun size =>
          if size = g.length then occurrences tokens g t else 0).sum := by
        rw [events, eventsFrom, List.count_flatMap]
        exact congrArg List.sum (List.map_congr_left hsum)
    _ = occurrences tokens g t := by
        rw [List.sum_map_eq_nsmul_single g.length _ fun size hsize _ => if_neg hsize, if_pos rfl,
          List.count_eq_one_of_mem List.nodup_range' hmem, one_nsmul]

/-- Nothing else is counted. -/
theorem exists_of_mem_events (hnull : tokenNull ∉ tokens) {k : Ngram} {t : Token}
    (h : (k, t) ∈ events ngramMin ngramMax tokens) :
    ∃ g, tokenNull ∉ g ∧ ngramMin ≤ g.length ∧ g.length ≤ ngramMax ∧ k = pad g := by
  obtain ⟨size, hsize, h⟩ := List.mem_flatMap.mp h
  obtain ⟨i, hi, h⟩ := List.mem_flatMap.mp h
  have hsize := List.mem_range'_1.mp hsize
  have hi := List.mem_range'_1.mp hi
  have hlen := @length_window tokens size i (by omega) (by omega)
  exact ⟨_, null_notMem_window hnull, by omega, by omega, congrArg Prod.fst (List.mem_singleton.mp h)⟩

theorem events_below (hmax : ngramMax ≤ ngramMost) (hnull : tokenNull ∉ tokens)
    (hfew : ∀ g t, (occurrences tokens g t : Int) < countLimit) (k : Ngram) (t : Token) :
    ((events ngramMin ngramMax tokens).count (k, t) : Int) < countLimit := by
  by_cases hmem : (k, t) ∈ events ngramMin ngramMax tokens
  · obtain ⟨g, hg, hmin, hle, rfl⟩ := exists_of_mem_events hnull hmem
    rw [count_events hmax hnull hg hmin hle]
    exact hfew g t
  · rw [List.count_eq_zero_of_not_mem hmem]
    decide

/-- **The cache does not depend on how the tokens are cut, and its numbers are exact.** -/
theorem build_eq (hmax : ngramMax ≤ ngramMost) (hnull : tokenNull ∉ tokens)
    (hfew : ∀ g t, (occurrences tokens g t : Int) < countLimit) :
    ∃ c : NgramCache, c.Proper countLimit ∧ (∀ pieces, pieces.flatten = tokens → build ngramMin ngramMax pieces = some c) ∧
      ∀ g, tokenNull ∉ g → ngramMin ≤ g.length → g.length ≤ ngramMax → ∀ t, c.count (pad g) t = occurrences tokens g t := by
  have hrun : ∀ pieces, pieces.flatten = tokens → ∃ c, build ngramMin ngramMax pieces = some c ∧ c.Proper countLimit ∧
      ∀ k t, c.count k t = (events ngramMin ngramMax tokens).count (k, t) := by
    rintro pieces rfl
    have hstart : ∀ k t, Tally.count (∅ : NgramCache) k t = (events ngramMin ngramMax []).count (k, t) := by
      intro k t
      have hnil : events ngramMin ngramMax [] = [] := by
        refine List.flatMap_eq_nil_iff.mpr fun size _ => ?_
        rw [List.length_nil, Nat.zero_sub]
        rfl
      rw [hnil, tally_count_empty]
      rfl
    exact buildFrom_adds Tally.proper_empty hstart fun k t => events_below hmax hnull hfew k t
  obtain ⟨c, -, hc, hcount⟩ := hrun [tokens] (by simp)
  refine ⟨c, hc, fun pieces hpieces => ?_, fun g hg hmin hle t => ?_⟩
  · obtain ⟨c', hbuild, hc', hcount'⟩ := hrun pieces hpieces
    rw [hbuild, hc'.ext hc fun k t => (hcount' k t).trans (hcount k t).symm]
  · rw [hcount, count_events hmax hnull hg hmin hle]

end Exact

end S2Moe.Ngrams
