import S2Moe.Lib.Checked
import S2Moe.Lib.Run
import S2Moe.Ngrams.Storage

/-!
# Drafting from the n-gram caches

* `draft` : `common_ngram_cache_draft`, with the n-grams that it looks up;
* `pick`, `Rounds` : what is drafted from the n-grams at the end of the tokens, with counts that are not bounded;
* `tryDraft_computes`, `round_computes` : what a round requires so that it does this;
* `draft_exact_iff` : the n-grams are those at the end of the tokens and the counts do not overflow exactly when there is
no round, or the longest n-gram is no longer than the tokens and every number that is computed has 32 bits.
-/

namespace S2Moe.Ngrams
open S2Moe.Lib

inductive Fault where
  | outOfRange
  | overflow
  | outOfFuel
deriving DecidableEq

/-- An `int` that is computed. -/
def int32 (i : Int) : Except Fault Int := if -countLimit ≤ i ∧ i < countLimit then .ok i else .error .overflow

/-- The conversion to `int`. -/
def narrow (i : Int) : Int := i.bmod (2 ^ 32)

/-- `get_token` : a token of the combined sequence of `inp` and `draft`, whose first token is in `inp` already. -/
def getToken (inp draft : List Token) (i : Nat) : Except Fault Token :=
  match if i < inp.length then inp[i]? else draft[(1 + i - inp.length) % 2 ^ 64]? with
  | some t => .ok t
  | none => .error .outOfRange

/-- An n-gram that is looked up, and where it begins. -/
structure Window where
  size : Nat
  start : Int
  ngram : Ngram
deriving DecidableEq

/-- The n-gram that begins at `start`. An index is converted to `size_t`. -/
def ngramAt (inp draft : List Token) (start : Int) (size : Nat) : Except Fault Ngram := do
  let _ ← int32 (start + size)
  let tokens ← (List.range size).mapM fun k => getToken inp draft ((start + k) % 2 ^ 64).toNat
  .ok (pad tokens)

def window (inp draft : List Token) (inpSize : Int) (size : Nat) : Except Fault Window := do
  let start := narrow (inpSize - size + (draft.length - 1))
  let ngram ← ngramAt inp draft start size
  .ok ⟨size, start, ngram⟩

/-- `LLAMA_NGRAM_STATIC` -/
def ngramStatic : Nat := 2

def draftMinSampleSizeLax : List Int := [2, 2, 1, 1]
def draftMinPercentLax : List Int := [66, 50, 50, 50]
def draftMinSampleSizeStrict : List Int := [4, 3, 2, 2]
def draftMinPercentStrict : List Int := [75, 66, 66, 66]

def entry (table : List Int) (i : Nat) : Except Fault Int :=
  match table[i]? with
  | some n => .ok n
  | none => .error .outOfRange

/-- The two tests at the end of `try_draft`. -/
def judge (minSampleSize minPercent : List Int) (i : Nat) (maxToken : Token) (maxCount sumCount : Int) :
    Except Fault Token := do
  let sample ← entry minSampleSize i
  if sumCount < sample then .ok tokenNull
  else
    let most ← int32 (100 * maxCount)
    let percent ← entry minPercent i
    let least ← int32 (percent * sumCount)
    .ok (if most < least then tokenNull else maxToken)

/-- What is kept of the tokens of a part that have been gone through. -/
structure Best where
  maxToken : Token := tokenNull
  maxCountPrimary : Int := 0
  maxCountStatic : Int := 0
  sumCountPrimary : Int := 0

/-- How a token counts in the static cache. -/
def countStaticOf (partStatic : Part) (token : Token) : Except Fault Int :=
  match partStatic.lookup token with
  | some n => int32 (100 * n)
  | none => .ok 1

/-- What is tried next, as long as nothing is drafted. -/
def ifNull (token : Token) (next : Except Fault Token) : Except Fault Token := if token = tokenNull then next else .ok token

/-- The inner loop of `try_draft` from the primary cache. -/
def consider (partStatic : Part) (b : Best) (x : Σ _ : Token, Int) : Except Fault Best := do
  let countStatic ← countStaticOf partStatic x.1
  let product ← int32 (x.2 * countStatic)
  let most ← int32 (b.maxCountPrimary * b.maxCountStatic)
  let sum ← int32 (b.sumCountPrimary + x.2)
  .ok (if product > most then ⟨x.1, x.2, countStatic, sum⟩ else { b with sumCountPrimary := sum })

/-- `try_draft` from the primary cache : the longest n-gram first, as long as nothing is drafted. -/
def tryDraftFrom {primary : NgramCache} (order : Order primary) (partStatic : Part) (minSampleSize minPercent : List Int) :
    List (Ngram × Nat) → Except Fault Token
  | [] => .ok tokenNull
  | (ngram, i) :: ngrams =>
    match primary.lookup ngram with
    | none => tryDraftFrom order partStatic minSampleSize minPercent ngrams
    | some part => do
      let b ← (order.tokens ngram part).items.foldlM (consider partStatic) {}
      let token ← judge minSampleSize minPercent i b.maxToken b.maxCountPrimary b.sumCountPrimary
      ifNull token (tryDraftFrom order partStatic minSampleSize minPercent ngrams)

/-- The loop of `try_draft` from the static cache. -/
def considerStatic (b : Best) (x : Σ _ : Token, Int) : Except Fault Best := do
  let sum ← int32 (b.sumCountPrimary + x.2)
  .ok (if x.2 > b.maxCountStatic then ⟨x.1, b.maxCountPrimary, x.2, sum⟩ else { b with sumCountPrimary := sum })

/-- `try_draft` from only the static cache. -/
def tryDraftStatic {static : NgramCache} (order : Order static) (ngram : Ngram) : Except Fault Token :=
  match static.lookup ngram with
  | none => .ok tokenNull
  | some part => do
    let b ← (order.tokens ngram part).items.foldlM considerStatic {}
    judge draftMinSampleSizeLax draftMinPercentLax (ngramStatic - 1) b.maxToken b.maxCountStatic b.sumCountPrimary

/-- The caches, and the orders in which they are gone through. -/
structure Caches where
  context : NgramCache
  dynamic : NgramCache
  static : NgramCache
  contextOrder : Order context
  dynamicOrder : Order dynamic
  staticOrder : Order static

/-- A round of `common_ngram_cache_draft` : the n-grams that are looked up, and the token. -/
def draftRound (cs : Caches) (inp draft : List Token) (inpSize : Int) (ngramMin ngramMax : Nat) :
    Except Fault (List Window × Token) := do
  let static ← window inp draft inpSize ngramStatic
  let partStatic := cs.static.part static.ngram
  let cd ← (List.range' ngramMin (ngramMax + 1 - ngramMin)).mapM (window inp draft inpSize)
  let ngrams := (cd.map Window.ngram).zipIdx.reverse
  let token ← tryDraftFrom cs.contextOrder partStatic draftMinSampleSizeLax draftMinPercentLax ngrams
  let token ← ifNull token
    (tryDraftFrom cs.dynamicOrder partStatic draftMinSampleSizeStrict draftMinPercentStrict ngrams)
  let token ← ifNull token (tryDraftStatic cs.staticOrder static.ngram)
  .ok (static :: cd, token)

/-- The loop of `common_ngram_cache_draft`. Each round that goes on adds a token. -/
def draftLoop (cs : Caches) (inp : List Token) (inpSize nDraft : Int) (ngramMin ngramMax : Nat) :
    Nat → List Token → Except Fault (List Token × List Window)
  | 0, draft => do
    let added ← int32 (narrow draft.length - 1)
    if added < nDraft then .error .outOfFuel else .ok (draft, [])
  | fuel + 1, draft => do
    let added ← int32 (narrow draft.length - 1)
    if added < nDraft then
      let (windows, token) ← draftRound cs inp draft inpSize ngramMin ngramMax
      if token = tokenNull then .ok (draft, windows)
      else
        let (draft, more) ← draftLoop cs inp inpSize nDraft ngramMin ngramMax fuel (draft ++ [token])
        .ok (draft, windows ++ more)
    else .ok (draft, [])

/-- `common_ngram_cache_draft` behind the token `sampled`. -/
def draft (cs : Caches) (inp : List Token) (sampled : Token) (nDraft : Int32) (ngramMin ngramMax : Nat) :
    Except Fault (List Token × List Window) :=
  let inpSize := narrow inp.length
  if inpSize < ngramStatic then .ok ([sampled], [])
  else draftLoop cs inp inpSize nDraft.toInt ngramMin ngramMax nDraft.toInt.toNat [sampled]

section Unbounded

/-- The inner loop with counts that are not bounded. -/
def Best.consider (partStatic : Part) (b : Best) (x : Σ _ : Token, Int) : Best :=
  let countStatic := match partStatic.lookup x.1 with
    | some n => 100 * n
    | none => 1
  if x.2 * countStatic > b.maxCountPrimary * b.maxCountStatic then ⟨x.1, x.2, countStatic, b.sumCountPrimary + x.2⟩
  else { b with sumCountPrimary := b.sumCountPrimary + x.2 }

def Best.considerStatic (b : Best) (x : Σ _ : Token, Int) : Best :=
  if x.2 > b.maxCountStatic then ⟨x.1, b.maxCountPrimary, x.2, b.sumCountPrimary + x.2⟩
  else { b with sumCountPrimary := b.sumCountPrimary + x.2 }

def judged (minSampleSize minPercent : Int) (maxToken : Token) (maxCount sumCount : Int) : Token :=
  if sumCount < minSampleSize then tokenNull
  else if 100 * maxCount < minPercent * sumCount then tokenNull
  else maxToken

/-- The token that is drafted from the primary cache. -/
def pick {primary : NgramCache} (order : Order primary) (partStatic : Part) (minSampleSize minPercent : List Int) :
    List (Ngram × Nat) → Token
  | [] => tokenNull
  | (ngram, i) :: ngrams =>
    match primary.lookup ngram with
    | none => pick order partStatic minSampleSize minPercent ngrams
    | some part =>
      let b := (order.tokens ngram part).items.foldl (Best.consider partStatic) {}
      let token := judged (minSampleSize.getD i 0) (minPercent.getD i 0) b.maxToken b.maxCountPrimary b.sumCountPrimary
      if token = tokenNull then pick order partStatic minSampleSize minPercent ngrams else token

/-- The token that is drafted from the static cache. -/
def pickStatic {static : NgramCache} (order : Order static) (ngram : Ngram) : Token :=
  match static.lookup ngram with
  | none => tokenNull
  | some part =>
    let b := (order.tokens ngram part).items.foldl Best.considerStatic {}
    judged 2 50 b.maxToken b.maxCountStatic b.sumCountPrimary

/-- The n-gram at the end of the tokens. -/
def suffixWindow (s : List Token) (size : Nat) : Window := ⟨size, s.length - size, pad (s.drop (s.length - size))⟩

variable (cs : Caches) (ngramMin ngramMax : Nat) (s : List Token)

def suffixes : List (Ngram × Nat) :=
  (((List.range' ngramMin (ngramMax + 1 - ngramMin)).map (suffixWindow s)).map Window.ngram).zipIdx.reverse

/-- The n-grams of a round. -/
def roundWindows : List Window :=
  suffixWindow s ngramStatic :: (List.range' ngramMin (ngramMax + 1 - ngramMin)).map (suffixWindow s)

def partStatic : Part := cs.static.part (suffixWindow s ngramStatic).ngram

def pickContext : Token :=
  pick cs.contextOrder (partStatic cs s) draftMinSampleSizeLax draftMinPercentLax (suffixes ngramMin ngramMax s)

def pickDynamic : Token :=
  pick cs.dynamicOrder (partStatic cs s) draftMinSampleSizeStrict draftMinPercentStrict (suffixes ngramMin ngramMax s)

/-- The token of a round : from the context, or from the dynamic cache, or from the static one. -/
def pickCached : Token :=
  if pickContext cs ngramMin ngramMax s = tokenNull then pickDynamic cs ngramMin ngramMax s else pickContext cs ngramMin ngramMax s

def pickRound : Token :=
  if pickCached cs ngramMin ngramMax s = tokenNull then pickStatic cs.staticOrder (suffixWindow s ngramStatic).ngram
  else pickCached cs ngramMin ngramMax s

/-- What is drafted behind the tokens in so many rounds, and the n-grams that are looked up. -/
inductive Rounds : List Token → List Token → List Window → Prop
  | none (s : List Token) : Rounds s [] []
  | last {s : List Token} (h : pickRound cs ngramMin ngramMax s = tokenNull) : Rounds s [] (roundWindows ngramMin ngramMax s)
  | more {s drafted : List Token} {windows : List Window} (h : pickRound cs ngramMin ngramMax s ≠ tokenNull)
      (hmore : Rounds (s ++ [pickRound cs ngramMin ngramMax s]) drafted windows) :
      Rounds s (pickRound cs ngramMin ngramMax s :: drafted) (roundWindows ngramMin ngramMax s ++ windows)

end Unbounded

section Requires

/-- The numbers that are computed from the counts of a token. -/
def ProductFits (partStatic : Part) (x : Σ _ : Token, Int) : Prop := ∀ n, partStatic.lookup x.1 = some n →
    x.2 * (100 * n) < countLimit

/-- The numbers that are computed at the end. -/
def JudgeFits (minSampleSize minPercent maxCount sumCount : Int) : Prop :=
  minSampleSize ≤ sumCount → 100 * maxCount < countLimit ∧ minPercent * sumCount < countLimit

theorem computes_int32 {i : Int} (h : 0 ≤ i) : Computes (int32 i) (i < countLimit) i := by
  have hlow : -countLimit ≤ i := by
    rw [countLimit]
    omega
  refine ⟨fun hi => if_pos ⟨hlow, hi⟩, fun hi => ⟨.overflow, if_neg fun hand => hi hand.2⟩⟩

theorem computes_entry {table : List Int} {i : Nat} (h : i < table.length) :
    Computes (entry table i) True (table.getD i 0) := by
  refine ⟨fun _ => ?_, fun hn => absurd trivial hn⟩
  rw [entry, List.getElem?_eq_getElem h, List.getD_eq_getElem?_getD, List.getElem?_eq_getElem h, Option.getD_some]

theorem judge_computes {minSampleSize minPercent : List Int} {i : Nat} {maxToken : Token} {maxCount sumCount : Int}
    (hi : i < minSampleSize.length) (hi' : i < minPercent.length) (hpercent : 0 ≤ minPercent.getD i 0) (hmax : 0 ≤ maxCount)
    (hsum : 0 ≤ sumCount) :
    Computes (judge minSampleSize minPercent i maxToken maxCount sumCount)
      (JudgeFits (minSampleSize.getD i 0) (minPercent.getD i 0) maxCount sumCount)
      (judged (minSampleSize.getD i 0) (minPercent.getD i 0) maxToken maxCount sumCount) := by
  refine ((computes_entry hi).bind fun _ => ?_).congr (and_iff_right trivial)
  rw [judged]
  by_cases hless : sumCount < minSampleSize.getD i 0
  · rw [if_pos hless, if_pos hless]
    exact (Computes.pure _).congr (iff_of_true trivial fun hle => absurd hle (not_le.mpr hless))
  · rw [if_neg hless, if_neg hless]
    refine ((computes_int32 (by omega)).bind fun _ => (computes_entry hi').bind fun _ =>
      (computes_int32 (Int.mul_nonneg hpercent hsum)).map (f := fun least => _)).congr ?_
    rw [JudgeFits]
    simp only [not_lt.mp hless, true_implies, true_and]

/-- What the loop over a part keeps. -/
structure Best.Ok (b : Best) : Prop where
  sum : 0 ≤ b.sumCountPrimary
  sum_lt : b.sumCountPrimary < countLimit
  count : 0 ≤ b.maxCountPrimary
  static : 0 ≤ b.maxCountStatic
  product : b.maxCountPrimary * b.maxCountStatic < countLimit

variable {ps : Part} {b : Best} {x : Σ _ : Token, Int}

theorem consider_computes (hps : ps.Proper countLimit) (hb : b.Ok) (hpos : 0 < x.2) (hlt : x.2 < countLimit) :
    Computes (consider ps b x) (ProductFits ps x ∧ b.sumCountPrimary + x.2 < countLimit) (b.consider ps x) ∧
      (ProductFits ps x ∧ b.sumCountPrimary + x.2 < countLimit →
        (b.consider ps x).Ok ∧ (b.consider ps x).sumCountPrimary = b.sumCountPrimary + x.2) := by
  obtain ⟨hsum, -, hcount, hstatic, hproduct⟩ := hb
  have hmost := Int.mul_nonneg hcount hstatic
  -- the factor from the static cache, and what it requires
  obtain ⟨countStatic, hnonneg, hfactor, hvalue⟩ : ∃ countStatic : Int, 0 ≤ countStatic ∧
      (Computes (countStaticOf ps x.1) (countStatic < countLimit) countStatic ∧
      (ProductFits ps x ↔ x.2 * countStatic < countLimit)) ∧
      b.consider ps x = if x.2 * countStatic > b.maxCountPrimary * b.maxCountStatic
        then ⟨x.1, x.2, countStatic, b.sumCountPrimary + x.2⟩ else { b with sumCountPrimary := b.sumCountPrimary + x.2 } := by
    unfold ProductFits Best.consider countStaticOf
    cases hn : ps.lookup x.1 with
    | none =>
        have hone : (1 : Int) < countLimit := by decide
        refine ⟨1, by decide, ⟨(Computes.pure 1).congr (iff_of_true trivial hone), ?_⟩, rfl⟩
        refine iff_of_true (fun n h => (by cases h)) ?_
        rwa [Int.mul_one]
    | some n =>
        have hn := (hps x.1 n hn).1
        refine ⟨100 * n, by omega, ⟨computes_int32 (by omega), ?_⟩, rfl⟩
        exact ⟨fun h => h n rfl, fun h m hm => Option.some.inj hm ▸ h⟩
  have hstep : Computes (consider ps b x) (ProductFits ps x ∧ b.sumCountPrimary + x.2 < countLimit) (b.consider ps x) := by
    rw [hvalue, hfactor.2]
    refine (hfactor.1.bind fun _ => (computes_int32 (Int.mul_nonneg hpos.le hnonneg)).bind fun _ =>
      (computes_int32 hmost).bind fun _ => (computes_int32 (by omega)).map (f := fun sum => _)).congr ?_
    constructor
    · rintro ⟨-, hprod, -, hs⟩
      exact ⟨hprod, hs⟩
    · rintro ⟨hprod, hs⟩
      have hle : 1 * countStatic ≤ x.2 * countStatic := Int.mul_le_mul_of_nonneg_right hpos hnonneg
      exact ⟨by omega, hprod, hproduct, hs⟩
  refine ⟨hstep, fun ⟨hfits, hlimit⟩ => ?_⟩
  rw [hfactor.2] at hfits
  rw [hvalue]
  by_cases hgt : x.2 * countStatic > b.maxCountPrimary * b.maxCountStatic
  · rw [if_pos hgt]
    exact ⟨⟨by dsimp only; omega, hlimit, hpos.le, hnonneg, hfits⟩, rfl⟩
  · rw [if_neg hgt]
    exact ⟨⟨by dsimp only; omega, hlimit, hcount, hstatic, hproduct⟩, rfl⟩

/-- The counts of a part together. -/
def total (items : List (Σ _ : Token, Int)) : Int := (items.map fun x => x.2).sum

theorem total_nonneg {items : List (Σ _ : Token, Int)} (h : ∀ x ∈ items, 0 < x.2) : 0 ≤ total items := by
  refine List.sum_nonneg fun n hn => ?_
  obtain ⟨x, hx, rfl⟩ := List.mem_map.mp hn
  exact (h x hx).le

theorem foldlM_consider {items : List (Σ _ : Token, Int)} (hps : ps.Proper countLimit) (hb : b.Ok)
    (h : ∀ x ∈ items, 0 < x.2 ∧ x.2 < countLimit) :
    Computes (items.foldlM (consider ps) b) ((∀ x ∈ items, ProductFits ps x) ∧ b.sumCountPrimary + total items < countLimit)
        (items.foldl (Best.consider ps) b) ∧
      ((∀ x ∈ items, ProductFits ps x) ∧ b.sumCountPrimary + total items < countLimit →
        (items.foldl (Best.consider ps) b).Ok) := by
  induction items generalizing b with
  | nil =>
      refine ⟨(Computes.pure b).congr (iff_of_true trivial ⟨fun x hx => absurd hx List.not_mem_nil, ?_⟩), fun _ => hb⟩
      rw [total, List.map_nil, List.sum_nil, Int.add_zero]
      exact hb.sum_lt
  | cons x items ih =>
      obtain ⟨hpos, hlt⟩ := h x List.mem_cons_self
      obtain ⟨hstep, hok⟩ := consider_computes hps hb hpos hlt
      have hrest : 0 ≤ total items := total_nonneg fun y hy => (h y (List.mem_cons_of_mem _ hy)).1
      have htotal : total (x :: items) = x.2 + total items := by
        rw [total, List.map_cons, List.sum_cons, total]
      have hiff : (ProductFits ps x ∧ b.sumCountPrimary + x.2 < countLimit) ∧
          (∀ y ∈ items, ProductFits ps y) ∧ b.sumCountPrimary + x.2 + total items < countLimit ↔
          (∀ y ∈ x :: items, ProductFits ps y) ∧ b.sumCountPrimary + total (x :: items) < countLimit := by
        rw [List.forall_mem_cons, htotal, ← Int.add_assoc]
        constructor
        · rintro ⟨⟨hx, -⟩, hall, hsum⟩
          exact ⟨⟨hx, hall⟩, hsum⟩
        · rintro ⟨⟨hx, hall⟩, hsum⟩
          exact ⟨⟨hx, by omega⟩, hall, hsum⟩
      have hnext : ∀ hfits : ProductFits ps x ∧ b.sumCountPrimary + x.2 < countLimit, _ :=
        fun hfits => ih (hok hfits).1 fun y hy => h y (List.mem_cons_of_mem _ hy)
      rw [List.foldlM_cons, List.foldl_cons]
      refine ⟨(hstep.bind fun hfits => ?_).congr hiff, fun hall => ?_⟩
      · have hcomp := (hnext hfits).1
        rwa [(hok hfits).2] at hcomp
      · obtain ⟨hfits, hmore⟩ := hiff.mpr hall
        refine (hnext hfits).2 ?_
        rwa [(hok hfits).2]

theorem considerStatic_ok (hb : b.Ok) (hpos : 0 < x.2) (hlt : b.sumCountPrimary + x.2 < countLimit)
    (hzero : b.maxCountPrimary = 0) :
    (b.considerStatic x).Ok ∧ (b.considerStatic x).maxCountPrimary = 0 ∧
      (b.considerStatic x).sumCountPrimary = b.sumCountPrimary + x.2 := by
  obtain ⟨hsum, -, hcount, hstatic, hproduct⟩ := hb
  have hlimit : (0 : Int) < countLimit := by decide
  unfold Best.considerStatic
  by_cases hgt : x.2 > b.maxCountStatic
  · rw [if_pos hgt]
    exact ⟨⟨by dsimp only; omega, hlt, hcount, hpos.le, by dsimp only; rwa [hzero, Int.zero_mul]⟩, hzero, rfl⟩
  · rw [if_neg hgt]
    exact ⟨⟨by dsimp only; omega, hlt, hcount, hstatic, hproduct⟩, hzero, rfl⟩

theorem foldlM_considerStatic {items : List (Σ _ : Token, Int)} (hb : b.Ok) (hzero : b.maxCountPrimary = 0)
    (h : ∀ x ∈ items, 0 < x.2) :
    Computes (items.foldlM considerStatic b) (b.sumCountPrimary + total items < countLimit)
      (items.foldl Best.considerStatic b) ∧
      (b.sumCountPrimary + total items < countLimit → (items.foldl Best.considerStatic b).Ok) := by
  induction items generalizing b with
  | nil =>
      refine ⟨(Computes.pure b).congr (iff_of_true trivial ?_), fun _ => hb⟩
      rw [total, List.map_nil, List.sum_nil, Int.add_zero]
      exact hb.sum_lt
  | cons x items ih =>
      have hpos := h x List.mem_cons_self
      have hrest : 0 ≤ total items := total_nonneg fun y hy => h y (List.mem_cons_of_mem _ hy)
      have hsum := hb.sum
      have htotal : b.sumCountPrimary + total (x :: items) = b.sumCountPrimary + x.2 + total items := by
        rw [total, List.map_cons, List.sum_cons, total, Int.add_assoc]
      have hstep : Computes (considerStatic b x) (b.sumCountPrimary + x.2 < countLimit) (b.considerStatic x) :=
        (computes_int32 (by omega)).map
      rw [List.foldlM_cons, List.foldl_cons, htotal]
      refine ⟨(hstep.bind fun hlt => ?_).congr ⟨fun h => h.2, fun h => ⟨by omega, h⟩⟩, fun hall => ?_⟩
      · obtain ⟨hok, hzero', hsum'⟩ := considerStatic_ok hb hpos hlt hzero
        have hcomp := (ih hok hzero' fun y hy => h y (List.mem_cons_of_mem _ hy)).1
        rwa [hsum'] at hcomp
      · obtain ⟨hok, hzero', hsum'⟩ := considerStatic_ok hb hpos (by omega) hzero
        refine (ih hok hzero' fun y hy => h y (List.mem_cons_of_mem _ hy)).2 ?_
        rwa [hsum']

theorem Best.ok_start : Best.Ok {} := ⟨le_rfl, by decide, le_rfl, le_rfl, by decide⟩

/-- The numbers of a part that is gone through. -/
def PartFits (ps : Part) (items : List (Σ _ : Token, Int)) : Prop := (∀ x ∈ items, ProductFits ps x) ∧
    total items < countLimit

/-- What drafting from a primary cache requires : of each part that is gone through until a token is drafted. -/
def PickFits {primary : NgramCache} (order : Order primary) (ps : Part) (minSampleSize minPercent : List Int) :
    List (Ngram × Nat) → Prop
  | [] => True
  | (ngram, i) :: ngrams =>
    match primary.lookup ngram with
    | none => PickFits order ps minSampleSize minPercent ngrams
    | some part =>
      let b := (order.tokens ngram part).items.foldl (Best.consider ps) {}
      PartFits ps (order.tokens ngram part).items ∧
      JudgeFits (minSampleSize.getD i 0) (minPercent.getD i 0) b.maxCountPrimary b.sumCountPrimary ∧
      (judged (minSampleSize.getD i 0) (minPercent.getD i 0) b.maxToken b.maxCountPrimary b.sumCountPrimary = tokenNull →
        PickFits order ps minSampleSize minPercent ngrams)

/-- What drafting from the static cache requires. -/
def StaticFits {static : NgramCache} (order : Order static) (ngram : Ngram) : Prop :=
  match static.lookup ngram with
  | none => True
  | some part =>
    let b := (order.tokens ngram part).items.foldl Best.considerStatic {}
    total (order.tokens ngram part).items < countLimit ∧ JudgeFits 2 50 b.maxCountStatic b.sumCountPrimary

/-- The counts of a cache are positive numbers of 32 bits. -/
def Positive (c : NgramCache) : Prop := ∀ k p, c.lookup k = some p → p.Proper countLimit

theorem ifNull_computes {t t' : Token} {next : Except Fault Token} {Q : Prop} (h : t = tokenNull → Computes next Q t') :
    Computes (ifNull t next) (t = tokenNull → Q) (if t = tokenNull then t' else t) := by
  rw [ifNull]
  by_cases ht : t = tokenNull
  · rw [if_pos ht, if_pos ht]
    exact (h ht).congr (by simp only [ht, true_implies])
  · rw [if_neg ht, if_neg ht]
    exact (Computes.pure t).congr (iff_of_true trivial fun hn => absurd hn ht)

/-- **What drafting from a primary cache requires.** -/
theorem tryDraft_computes {primary : NgramCache} (hprimary : Positive primary) (order : Order primary)
    (hps : ps.Proper countLimit)
    {minSampleSize minPercent : List Int} (hpercent : ∀ i, 0 ≤ minPercent.getD i 0) {ngrams : List (Ngram × Nat)}
    (hindex : ∀ x ∈ ngrams, x.2 < minSampleSize.length ∧ x.2 < minPercent.length) :
    Computes (tryDraftFrom order ps minSampleSize minPercent ngrams) (PickFits order ps minSampleSize minPercent ngrams)
      (pick order ps minSampleSize minPercent ngrams) := by
  induction ngrams with
  | nil => exact Computes.pure tokenNull
  | cons x ngrams ih =>
      obtain ⟨ngram, i⟩ := x
      obtain ⟨hi, hi'⟩ := hindex _ List.mem_cons_self
      have hnext := ih fun y hy => hindex y (List.mem_cons_of_mem _ hy)
      unfold tryDraftFrom PickFits pick
      cases hpart : primary.lookup ngram with
      | none => exact hnext
      | some part =>
          have hproper := hprimary ngram part hpart
          obtain ⟨hfold, hok⟩ := @foldlM_consider ps {} (order.tokens ngram part).items hps Best.ok_start fun y hy =>
            hproper y.1 y.2 ((order.tokens ngram part).mem_items.mp hy)
          rw [Int.zero_add] at hfold hok
          refine (hfold.bind fun hfits => ?_)
          have hb := hok hfits
          exact (judge_computes hi hi' (hpercent i) hb.count hb.sum).bind fun _ => ifNull_computes fun _ => hnext

theorem tryDraftStatic_computes {static : NgramCache} (hstatic : Positive static) (order : Order static) (ngram : Ngram) :
    Computes (tryDraftStatic order ngram) (StaticFits order ngram) (pickStatic order ngram) := by
  unfold tryDraftStatic StaticFits pickStatic
  cases hpart : static.lookup ngram with
  | none => exact Computes.pure tokenNull
  | some part =>
      have hproper := hstatic ngram part hpart
      obtain ⟨hfold, hok⟩ := @foldlM_considerStatic {} (order.tokens ngram part).items Best.ok_start rfl fun y hy =>
        (hproper y.1 y.2 ((order.tokens ngram part).mem_items.mp hy)).1
      rw [Int.zero_add] at hfold hok
      refine hfold.bind fun hfits => ?_
      have hb := hok hfits
      exact judge_computes (by decide) (by decide) (by decide) hb.static hb.sum

end Requires

section Windows
variable {inp drafted : List Token} {sampled : Token} {size : Nat}

theorem narrow_eq {i : Int} (h : -countLimit ≤ i) (h' : i < countLimit) : narrow i = i := by
  rw [countLimit] at h h'
  exact Int.bmod_eq_of_le (by omega) (by omega)

/-- A token that is read is one of the combined sequence, or the index is out of range. -/
theorem getToken_computes {i : Int} (hinp : 2 ≤ inp.length) (hlimit : ((inp ++ drafted).length : Int) < countLimit)
    (hlow : -4 ≤ i) (hi : i < (inp ++ drafted).length) :
    Computes (getToken inp (sampled :: drafted) (i % 2 ^ 64).toNat) (0 ≤ i) ((inp ++ drafted).getD i.toNat tokenNull) := by
  rw [countLimit, List.length_append] at hlimit
  rw [List.length_append] at hi
  constructor
  · intro hpos
    have hmod : i % 2 ^ 64 = i := Int.emod_eq_of_lt hpos (by omega)
    rw [hmod, getToken]
    by_cases hlt : i.toNat < inp.length
    · rw [if_pos hlt, List.getD_eq_getElem?_getD, List.getElem?_append_left hlt, List.getElem?_eq_getElem hlt,
        Option.getD_some]
    · have hindex : (1 + i.toNat - inp.length) % 2 ^ 64 = i.toNat - inp.length + 1 := by
        rw [Nat.mod_eq_of_lt (by omega)]
        omega
      have hdrafted : i.toNat - inp.length < drafted.length := by omega
      rw [if_neg hlt, hindex, List.getElem?_cons_succ, List.getD_eq_getElem?_getD, List.getElem?_append_right (by omega),
        List.getElem?_eq_getElem hdrafted, Option.getD_some]
  · intro hneg
    have hmod : i % 2 ^ 64 = i + 2 ^ 64 := by
      rw [← Int.add_emod_right]
      exact Int.emod_eq_of_lt (by omega) (by omega)
    have hindex : (1 + (i + 2 ^ 64).toNat - inp.length) % 2 ^ 64 = 1 + (i + 2 ^ 64).toNat - inp.length :=
      Nat.mod_eq_of_lt (by omega)
    refine ⟨.outOfRange, ?_⟩
    rw [hmod, getToken, if_neg (by omega), hindex, List.getElem?_eq_none (by rw [List.length_cons]; omega)]

/-- **An n-gram that is looked up is the one at the end of the tokens, where these are enough.** -/
theorem window_computes (hinp : 2 ≤ inp.length) (hlimit : ((inp ++ drafted).length : Int) ≤ countLimit) (hsize : 1 ≤ size)
    (hmost : size ≤ 4) :
    Computes (window inp (sampled :: drafted) inp.length size)
      (((inp ++ drafted).length : Int) < countLimit ∧ size ≤ (inp ++ drafted).length)
        (suffixWindow (inp ++ drafted) size) := by
  have hstart : narrow ((inp.length : Int) - size + ((sampled :: drafted).length - 1)) =
    ((inp ++ drafted).length : Int) - size := by
    rw [narrow_eq]
    · rw [List.length_append, List.length_cons]
      omega
    · rw [countLimit, List.length_cons]
      omega
    · rw [List.length_append] at hlimit
      rw [List.length_cons]
      omega
  have hend : ((inp ++ drafted).length : Int) - size + size = (inp ++ drafted).length := Int.sub_add_cancel _ _
  rw [window, suffixWindow, hstart]
  refine Computes.map (f := fun ngram => (⟨size, _, ngram⟩ : Window)) ?_
  rw [ngramAt, hend]
  refine ((computes_int32 (Int.natCast_nonneg _)).bind fun hlt => Computes.map (f := pad) (a := (inp ++ drafted).drop
    ((inp ++ drafted).length - size)) (P := size ≤ (inp ++ drafted).length) ?_)
  have hreads : Computes ((List.range size).mapM fun k => getToken inp (sampled :: drafted)
      ((((inp ++ drafted).length : Int) - size + k) % 2 ^ 64).toNat)
      (∀ k ∈ List.range size, 0 ≤ ((inp ++ drafted).length : Int) - size + k)
      ((List.range size).map fun k : Nat => (inp ++ drafted).getD
        (((inp ++ drafted).length : Int) - size + k).toNat tokenNull) := by
    refine Computes.mapM fun k hk => ?_
    have hk := List.mem_range.mp hk
    exact getToken_computes hinp hlt (by omega) (by omega)
  have hiff : (∀ k ∈ List.range size, 0 ≤ ((inp ++ drafted).length : Int) - size + k) ↔ size ≤ (inp ++ drafted).length := by
    constructor
    · intro h
      have hzero := h 0 (List.mem_range.mpr hsize)
      omega
    · intro h k _
      omega
  refine ⟨fun hle => ?_, fun hle => hreads.fails fun h => hle (hiff.mp h)⟩
  rw [hreads.ok (hiff.mpr hle)]
  refine congrArg Except.ok (List.ext_getElem ?_ fun k hk hk' => ?_)
  · rw [List.length_map, List.length_range, List.length_drop]
    omega
  · rw [List.length_map, List.length_range] at hk
    have hindex : (((inp ++ drafted).length : Int) - size + k).toNat = (inp ++ drafted).length - size + k := by omega
    rw [List.getElem_map, List.getElem_range, hindex, List.getElem_drop, List.getD_eq_getElem?_getD, List.getElem?_eq_getElem,
      Option.getD_some]

end Windows

section Run
variable {cs : Caches} {inp drafted : List Token} {sampled : Token} {ngramMin ngramMax : Nat}

/-- The counts of the caches are positive numbers of 32 bits. -/
def Caches.Positive (cs : Caches) : Prop := Ngrams.Positive cs.context ∧ Ngrams.Positive cs.dynamic ∧
    Ngrams.Positive cs.static

/-- What a round requires of the counts. -/
def RoundFits (cs : Caches) (ngramMin ngramMax : Nat) (s : List Token) : Prop :=
  PickFits cs.contextOrder (partStatic cs s) draftMinSampleSizeLax draftMinPercentLax (suffixes ngramMin ngramMax s) ∧
  (pickContext cs ngramMin ngramMax s = tokenNull →
    PickFits cs.dynamicOrder (partStatic cs s) draftMinSampleSizeStrict draftMinPercentStrict
      (suffixes ngramMin ngramMax s)) ∧
  (pickCached cs ngramMin ngramMax s = tokenNull → StaticFits cs.staticOrder (suffixWindow s ngramStatic).ngram)

/-- What the rounds require : of the tokens so far, and of the counts. -/
def RunFits (cs : Caches) (ngramMin ngramMax : Nat) : Nat → List Token → Prop
  | 0, _ => True
  | n + 1, s => ((s.length : Int) < countLimit ∧ ngramMax ≤ s.length) ∧ RoundFits cs ngramMin ngramMax s ∧
    (pickRound cs ngramMin ngramMax s ≠ tokenNull → RunFits cs ngramMin ngramMax n (s ++ [pickRound cs ngramMin ngramMax s]))

/-- The tokens that are drafted in at most so many rounds, and the n-grams. -/
def idealRun (cs : Caches) (ngramMin ngramMax : Nat) : Nat → List Token → List Token × List Window
  | 0, _ => ([], [])
  | n + 1, s =>
    if pickRound cs ngramMin ngramMax s = tokenNull then ([], roundWindows ngramMin ngramMax s)
    else
      let more := idealRun cs ngramMin ngramMax n (s ++ [pickRound cs ngramMin ngramMax s])
      (pickRound cs ngramMin ngramMax s :: more.1, roundWindows ngramMin ngramMax s ++ more.2)

theorem idealRun_rounds : ∀ (n : Nat) (s : List Token), (idealRun cs ngramMin ngramMax n s).1.length ≤ n ∧
    Rounds cs ngramMin ngramMax s (idealRun cs ngramMin ngramMax n s).1 (idealRun cs ngramMin ngramMax n s).2
  | 0, s => ⟨le_rfl, .none s⟩
  | n + 1, s => by
    rw [idealRun]
    by_cases h : pickRound cs ngramMin ngramMax s = tokenNull
    · rw [if_pos h]
      exact ⟨Nat.zero_le _, .last h⟩
    · rw [if_neg h]
      obtain ⟨hlen, hrounds⟩ := idealRun_rounds n (s ++ [pickRound cs ngramMin ngramMax s])
      exact ⟨Nat.succ_le_succ hlen, .more h hrounds⟩

theorem percent_nonneg {table : List Int} (h : ∀ n ∈ table, 0 ≤ n) (i : Nat) : 0 ≤ table.getD i 0 := by
  rw [List.getD_eq_getElem?_getD]
  cases hi : table[i]? with
  | none => exact le_rfl
  | some n => exact h n (List.mem_of_getElem? hi)

/-- **What a round requires.** -/
theorem round_computes (hcs : cs.Positive) (hmin : 1 ≤ ngramMin) (hle : ngramMin ≤ ngramMax) (hmax : ngramMax ≤ 4)
    (hinp : 2 ≤ inp.length) (hlimit : ((inp ++ drafted).length : Int) ≤ countLimit) :
    Computes (draftRound cs inp (sampled :: drafted) inp.length ngramMin ngramMax)
      ((((inp ++ drafted).length : Int) < countLimit ∧ ngramMax ≤ (inp ++ drafted).length) ∧
        RoundFits cs ngramMin ngramMax (inp ++ drafted))
      (roundWindows ngramMin ngramMax (inp ++ drafted), pickRound cs ngramMin ngramMax (inp ++ drafted)) := by
  obtain ⟨hcontext, hdynamic, hstatic⟩ := hcs
  have hps : (partStatic cs (inp ++ drafted)).Proper countLimit := by
    rw [partStatic, Tally.part]
    cases hk : cs.static.lookup (suffixWindow (inp ++ drafted) ngramStatic).ngram with
    | none => exact Counts.proper_empty
    | some part => exact hstatic _ part hk
  have hindex : ∀ x ∈ suffixes ngramMin ngramMax (inp ++ drafted), x.2 < 4 := by
    intro x hx
    have hx := List.snd_lt_of_mem_zipIdx (List.mem_reverse.mp hx)
    rw [List.length_map, List.length_map, List.length_range'] at hx
    omega
  have hwindows : Computes ((List.range' ngramMin (ngramMax + 1 - ngramMin)).mapM
    (window inp (sampled :: drafted) inp.length))
      (∀ size ∈ List.range' ngramMin (ngramMax + 1 - ngramMin),
        ((inp ++ drafted).length : Int) < countLimit ∧ size ≤ (inp ++ drafted).length)
      ((List.range' ngramMin (ngramMax + 1 - ngramMin)).map (suffixWindow (inp ++ drafted))) := by
    refine Computes.mapM fun size hsize => ?_
    obtain ⟨hstart, hend⟩ := List.mem_range'_1.mp hsize
    exact window_computes hinp hlimit (by omega) (by omega)
  have hlax := @tryDraft_computes _ cs.context hcontext cs.contextOrder hps draftMinSampleSizeLax draftMinPercentLax
    (percent_nonneg (by decide)) (suffixes ngramMin ngramMax (inp ++ drafted)) fun x hx => ⟨hindex x hx, hindex x hx⟩
  have hstrict := @tryDraft_computes _ cs.dynamic hdynamic cs.dynamicOrder hps draftMinSampleSizeStrict draftMinPercentStrict
    (percent_nonneg (by decide)) (suffixes ngramMin ngramMax (inp ++ drafted)) fun x hx => ⟨hindex x hx, hindex x hx⟩
  have honly := tryDraftStatic_computes hstatic cs.staticOrder (suffixWindow (inp ++ drafted) ngramStatic).ngram
  refine ((window_computes hinp hlimit (by decide) (by decide)).bind fun _ => hwindows.bind fun _ => hlax.bind fun _ =>
    (@ifNull_computes (pickContext cs ngramMin ngramMax (inp ++ drafted)) _ _ _ fun _ => hstrict).bind fun _ =>
    (@ifNull_computes (pickCached cs ngramMin ngramMax (inp ++ drafted)) _ _ _ fun _ => honly).map
      (f := fun token => _)).congr ?_
  constructor
  · rintro ⟨⟨hlt, -⟩, hsizes, hfits⟩
    exact ⟨⟨hlt, (hsizes ngramMax (List.mem_range'_1.mpr (by omega))).2⟩, hfits⟩
  · rintro ⟨⟨hlt, hlong⟩, hfits⟩
    refine ⟨⟨hlt, ?_⟩, fun size hsize => ⟨hlt, ?_⟩, hfits⟩
    · rw [List.length_append]
      exact le_trans hinp (Nat.le_add_right _ _)
    · have hsize := List.mem_range'_1.mp hsize
      omega

/-- The number of tokens that have been added. -/
theorem added_eq (hinp : 2 ≤ inp.length) (h : ((inp ++ drafted).length : Int) ≤ countLimit) :
    int32 (narrow ((sampled :: drafted).length : Int) - 1) = .ok (drafted.length : Int) := by
  rw [List.length_append, countLimit] at h
  have hnarrow : narrow ((sampled :: drafted).length : Int) = drafted.length + 1 := by
    rw [narrow_eq]
    · rw [List.length_cons]
      rfl
    · rw [countLimit]
      omega
    · rw [countLimit, List.length_cons]
      omega
  rw [hnarrow, Int.add_sub_cancel]
  refine (computes_int32 (Int.natCast_nonneg _)).ok ?_
  rw [countLimit]
  omega

/-- **What the loop requires.** -/
theorem loop_computes (hcs : cs.Positive) (hmin : 1 ≤ ngramMin) (hle : ngramMin ≤ ngramMax) (hmax : ngramMax ≤ 4)
    (hinp : 2 ≤ inp.length) {nDraft : Int} {fuel : Nat} (hfuel : fuel + drafted.length = nDraft.toNat)
    (hlimit : ((inp ++ drafted).length : Int) ≤ countLimit) :
    Computes (draftLoop cs inp inp.length nDraft ngramMin ngramMax fuel (sampled :: drafted))
      (RunFits cs ngramMin ngramMax fuel (inp ++ drafted))
      (sampled :: drafted ++ (idealRun cs ngramMin ngramMax fuel (inp ++ drafted)).1,
        (idealRun cs ngramMin ngramMax fuel (inp ++ drafted)).2) := by
  induction fuel generalizing drafted with
  | zero =>
      rw [draftLoop, added_eq hinp hlimit]
      show Computes (if (drafted.length : Int) < nDraft then _ else _) _ _
      rw [if_neg (by omega)]
      show Computes _ True (sampled :: drafted ++ [], [])
      rw [List.append_nil]
      exact Computes.pure _
  | succ fuel ih =>
      rw [draftLoop, added_eq hinp hlimit]
      show Computes (if (drafted.length : Int) < nDraft then _ else _) _ _
      rw [if_pos (by omega)]
      have hround := @round_computes cs inp drafted sampled ngramMin ngramMax hcs hmin hle hmax hinp hlimit
      refine (hround.bind (f := fun x => if x.2 = tokenNull then .ok (sampled :: drafted, x.1)
        else draftLoop cs inp inp.length nDraft ngramMin ngramMax fuel (sampled :: drafted ++ [x.2]) >>= fun y =>
          .ok (y.1, x.1 ++ y.2)) (Q := pickRound cs ngramMin ngramMax (inp ++ drafted) ≠ tokenNull →
            RunFits cs ngramMin ngramMax fuel (inp ++ drafted ++ [pickRound cs ngramMin ngramMax (inp ++ drafted)]))
        fun hfits => ?_).congr ?_
      · rw [idealRun]
        by_cases hnull : pickRound cs ngramMin ngramMax (inp ++ drafted) = tokenNull
        · rw [if_pos hnull, if_pos hnull, List.append_nil]
          exact (Computes.pure _).congr (iff_of_true trivial fun h => absurd hnull h)
        · rw [if_neg hnull, if_neg hnull]
          have hmore : ((inp ++ (drafted ++ [pickRound cs ngramMin ngramMax (inp ++ drafted)])).length : Int) ≤
            countLimit := by
            have hlt := hfits.1.1
            rw [← List.append_assoc, List.length_append, List.length_singleton]
            omega
          have hnext := @ih (drafted ++ [pickRound cs ngramMin ngramMax (inp ++ drafted)])
            (by rw [List.length_append, List.length_singleton]; omega) hmore
          rw [← List.append_assoc] at hnext
          have hvalue : ∀ more : List Token, sampled :: drafted ++ (pickRound cs ngramMin ngramMax (inp ++ drafted) :: more) =
              sampled :: (drafted ++ [pickRound cs ngramMin ngramMax (inp ++ drafted)]) ++ more := by
            intro more
            rw [List.cons_append, List.cons_append, List.append_assoc, List.singleton_append]
          dsimp only
          rw [hvalue (idealRun cs ngramMin ngramMax fuel
            (inp ++ drafted ++ [pickRound cs ngramMin ngramMax (inp ++ drafted)])).1]
          exact (hnext.map (f := fun y => (y.1, roundWindows ngramMin ngramMax (inp ++ drafted) ++ y.2))).congr
            ⟨fun h _ => h, fun h => h hnull⟩
      · rw [RunFits, and_assoc]

/-- What is returned is drafted from the n-grams at the end of the tokens, with counts that are not bounded. -/
def DraftExact (cs : Caches) (inp : List Token) (sampled : Token) (nDraft : Int32) (ngramMin ngramMax : Nat) : Prop :=
  ∃ drafted windows, draft cs inp sampled nDraft ngramMin ngramMax = .ok (sampled :: drafted, windows) ∧
    drafted.length ≤ nDraft.toInt.toNat ∧ Rounds cs ngramMin ngramMax inp drafted windows

theorem Rounds.head {s drafted : List Token} {windows : List Window} {w : Window}
    (h : Rounds cs ngramMin ngramMax s drafted windows)
    (hw : windows.head? = some w) : w = suffixWindow s ngramStatic := by
  cases h with
  | none => cases hw
  | last _ => exact (Option.some.inj hw).symm
  | more _ _ => exact (Option.some.inj hw).symm

/-- A round looks up the n-gram at the place that was computed. -/
theorem head_of_draftRound {inpSize : Int} {draft : List Token} {windows : List Window} {token : Token}
    (h : draftRound cs inp draft inpSize ngramMin ngramMax = .ok (windows, token)) :
    ∃ w, windows.head? = some w ∧ w.start = narrow (inpSize - ngramStatic + (draft.length - 1)) := by
  obtain ⟨w, hw, h⟩ := bind_eq_ok h
  obtain ⟨cd, -, h⟩ := bind_eq_ok h
  obtain ⟨t, -, h⟩ := bind_eq_ok h
  obtain ⟨t', -, h⟩ := bind_eq_ok h
  obtain ⟨t'', -, h⟩ := bind_eq_ok h
  obtain ⟨ngram, -, hw⟩ := bind_eq_ok hw
  cases h
  cases hw
  exact ⟨_, rfl, rfl⟩

/-- **Drafting is in range and exact** when nothing is drafted, or the longest n-gram is no longer than the tokens, and
the numbers that the rounds compute have 32 bits. -/
theorem draft_exact_iff (hcs : cs.Positive) (hmin : 1 ≤ ngramMin) (hle : ngramMin ≤ ngramMax) (hmax : ngramMax ≤ ngramMost)
    (nDraft : Int32) : DraftExact cs inp sampled nDraft ngramMin ngramMax ↔
      nDraft.toInt ≤ 0 ∨ narrow inp.length < ngramStatic ∨
        (inp.length : Int) < countLimit ∧ RunFits cs ngramMin ngramMax nDraft.toInt.toNat inp := by
  by_cases hshort : narrow inp.length < ngramStatic
  · refine iff_of_true ⟨[], [], ?_, Nat.zero_le _, .none inp⟩ (.inr (.inl hshort))
    rw [draft]
    exact if_pos hshort
  have hdraft : draft cs inp sampled nDraft ngramMin ngramMax =
      draftLoop cs inp (narrow inp.length) nDraft.toInt ngramMin ngramMax nDraft.toInt.toNat [sampled] := by
    rw [draft]
    exact if_neg hshort
  have hadded : int32 (narrow (([sampled] : List Token).length : Int) - 1) = .ok 0 := by
    show int32 (narrow 1 - 1) = .ok 0
    decide +kernel
  by_cases hnone : nDraft.toInt ≤ 0
  · refine iff_of_true ⟨[], [], ?_, Nat.zero_le _, .none inp⟩ (.inl hnone)
    rw [hdraft, Int.toNat_of_nonpos hnone, draftLoop, hadded]
    exact if_neg (by omega)
  by_cases hlimit : (inp.length : Int) < countLimit
  · have hnarrow : narrow inp.length = inp.length := by
      refine narrow_eq ?_ hlimit
      rw [countLimit]
      omega
    rw [hnarrow] at hshort hdraft
    have hinp : 2 ≤ inp.length := by
      rw [ngramStatic] at hshort
      omega
    have hloop := @loop_computes cs inp [] sampled ngramMin ngramMax hcs hmin hle hmax hinp nDraft.toInt nDraft.toInt.toNat rfl
      (by rw [List.append_nil]; omega)
    rw [List.append_nil] at hloop
    constructor
    · rintro ⟨drafted, windows, hok, -⟩
      refine .inr (.inr ⟨hlimit, ?_⟩)
      by_contra hfits
      obtain ⟨e, he⟩ := hloop.fails hfits
      rw [hdraft, he] at hok
      cases hok
    · rintro (h | h | ⟨-, hfits⟩)
      · exact absurd h hnone
      · rw [hnarrow] at h
        exact absurd h hshort
      · obtain ⟨hlen, hrounds⟩ := @idealRun_rounds cs ngramMin ngramMax nDraft.toInt.toNat inp
        exact ⟨_, _, hdraft.trans (hloop.ok hfits), hlen, hrounds⟩
  · -- the length is not that of the tokens: the first n-gram is not at their end
    refine iff_of_false ?_ fun h => h.elim hnone fun h => h.elim hshort fun h => hlimit h.1
    rintro ⟨drafted, windows, hok, -, hrounds⟩
    obtain ⟨fuel, hfuel⟩ := Nat.exists_eq_add_one_of_ne_zero (show nDraft.toInt.toNat ≠ 0 by omega)
    rw [hdraft, hfuel, draftLoop, hadded] at hok
    replace hok : (if (0 : Int) < nDraft.toInt then
        draftRound cs inp [sampled] (narrow inp.length) ngramMin ngramMax >>= fun x =>
          if x.2 = tokenNull then .ok ([sampled], x.1)
          else draftLoop cs inp (narrow inp.length) nDraft.toInt ngramMin ngramMax fuel ([sampled] ++ [x.2]) >>= fun y =>
            .ok (y.1, x.1 ++ y.2)
      else .ok ([sampled], [])) = Except.ok (sampled :: drafted, windows) := hok
    rw [if_pos (by omega)] at hok
    obtain ⟨⟨ws, token⟩, hround, hok⟩ := bind_eq_ok hok
    obtain ⟨w, hw, hstart⟩ := head_of_draftRound hround
    have hhead : windows.head? = some w := by
      dsimp only at hok
      by_cases hnull : token = tokenNull
      · rw [if_pos hnull] at hok
        cases hok
        exact hw
      · rw [if_neg hnull] at hok
        obtain ⟨⟨_, more⟩, -, hok⟩ := bind_eq_ok hok
        cases hok
        rw [List.head?_append, hw]
        rfl
    rw [hrounds.head hhead] at hstart
    have hplace : (inp.length : Int) - ngramStatic =
        narrow (narrow inp.length - ngramStatic + ((([sampled] : List Token).length : Int) - 1)) := hstart
    rw [List.length_singleton, Nat.cast_one, Int.sub_self, Int.add_zero] at hplace
    have hlow : -countLimit ≤ narrow inp.length := Int.le_bmod (by decide)
    have hhigh : narrow inp.length < countLimit := Int.bmod_lt (by decide)
    rw [ngramStatic] at hshort hplace
    rw [narrow_eq (by rw [countLimit]; omega) (by omega)] at hplace
    omega

/-- Caches that nothing has been put into. -/
noncomputable def noCaches : Caches :=
  let order : Order ∅ := ⟨⟨[], rfl⟩, fun _ part => (Listing.nonempty part).some⟩
  ⟨∅, ∅, ∅, order, order, order⟩

theorem noCaches_positive : noCaches.Positive := by
  have hempty : Positive ∅ := fun k p h => by simp at h
  exact ⟨hempty, hempty, hempty⟩

/-- Tokens that the longest n-gram fits. -/
theorem draft_exact_iff_four : DraftExact noCaches [1, 2, 3, 4] 4 8 1 4 ↔
    (8 : Int32).toInt ≤ 0 ∨ narrow ([1, 2, 3, 4] : List Token).length < ngramStatic ∨
      (([1, 2, 3, 4] : List Token).length : Int) < countLimit ∧ RunFits noCaches 1 4 (8 : Int32).toInt.toNat [1, 2, 3, 4] :=
  draft_exact_iff noCaches_positive (by decide) (by decide) (by decide) 8

/-- Two tokens, which are enough for the n-gram of the static cache, and n-grams of up to four. -/
theorem short_not_exact : draft noCaches [1, 2] 2 8 1 4 = .error .outOfRange ∧ ¬ DraftExact noCaches [1, 2] 2 8 1 4 := by
  have herror : draft noCaches [1, 2] 2 8 1 4 = .error .outOfRange := by decide +kernel
  refine ⟨herror, ?_⟩
  rintro ⟨drafted, windows, hok, -⟩
  rw [herror] at hok
  cases hok

end Run

end S2Moe.Ngrams
