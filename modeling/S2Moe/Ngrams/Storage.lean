import S2Moe.Ngrams.Cache

/-!
# The n-gram caches : merging, saving and loading

The maps are gone through in an order of their own, which is a parameter here.

* `Order`, `merge`, `save`, `load` : `common_ngram_cache_merge`, `common_ngram_cache_save`, `common_ngram_cache_load`;
* `merge_eq` : merging adds the numbers, in whatever order;
* `load_save` : what is saved is loaded again, in whatever order it was saved;
* `caches_exact` : the caches are exact counts.
-/

namespace S2Moe.Ngrams
open S2Moe.Lib

/-- The order in which a cache and its parts are gone through. -/
structure Order (c : NgramCache) where
  items : Listing c
  tokens : ∀ (_ : Ngram) (part : Part), Listing part

section Merge

/-- The inner loop of `common_ngram_cache_merge`, with its assertion. -/
def mergePart (merged : Part) (tokens : List (Σ _ : Token, Int)) : Option Part :=
  tokens.foldlM (fun merged x => if 0 < x.2 then upsert merged x.1 (raise x.2) else none) merged

/-- `common_ngram_cache_merge` -/
def merge (target : NgramCache) {add : NgramCache} (order : Order add) : Option NgramCache :=
  order.items.items.foldlM (fun target x => upsert target x.1 fun
    | none => some x.2
    | some merged => mergePart merged (order.tokens x.1 x.2).items) target

variable {c d : NgramCache}

theorem raise_eq {n : Int} {o : Option Int} (h : o.getD 0 + n < countLimit) : raise n o = some (o.getD 0 + n) := by
  cases o with
  | none => exact congrArg some (Int.zero_add n).symm
  | some m => exact if_pos h

/-- The inner loop adds the numbers of the part. -/
theorem mergePart_eq {merged part : Part} (hm : merged.Proper countLimit) (hp : part.Proper countLimit) (o : Listing part)
    (hlt : ∀ t, merged.count t + part.count t < countLimit) :
    ∃ sum : Part, mergePart merged o.items = some sum ∧ sum.Proper countLimit ∧ (merged ≠ ∅ → sum ≠ ∅) ∧
      ∀ t, sum.count t = merged.count t + part.count t := by
  have hbody : (fun (merged : Part) (x : Σ _ : Token, Int) => if 0 < x.2 then upsert merged x.1 (raise x.2) else none) =
      fun merged x => upsert merged x.1 fun n => if 0 < x.2 then raise x.2 n else none := by
    funext merged x
    by_cases h : 0 < x.2
    · simp only [if_pos h]
    · simp only [if_neg h, upsert, Option.map_none]
  have hraise : ∀ {t n}, part.lookup t = some n →
      (if 0 < n then raise n (merged.lookup t) else none) = some (merged.count t + n) := by
    intro t n ht
    have hsum := hlt t
    rw [Counts.count, Counts.count, ht, Option.getD_some] at hsum
    rw [if_pos (hp t n ht).1, raise_eq hsum, Counts.count]
  obtain ⟨(sum : Part), hsum, hlookup⟩ := @foldlM_upsert Token Int Int _
    (fun x n => if 0 < x.2 then raise x.2 n else none) o.items merged
    o.nodupKeys fun x hx => by
      rw [hraise (o.mem_items.mp hx)]
      rfl
  have hcase : ∀ t, sum.lookup t = (part.lookup t).elim (merged.lookup t) fun n => some (merged.count t + n) := by
    intro t
    rw [hlookup t, o.dlookup]
    cases ht : part.lookup t with
    | none => rfl
    | some n => exact hraise ht
  have hcount : ∀ t, sum.count t = merged.count t + part.count t := by
    intro t
    rw [Counts.count, hcase t, Counts.count.eq_1 part]
    cases ht : part.lookup t with
    | none => exact (Int.add_zero _).symm
    | some n => rfl
  refine ⟨sum, ?_, ?_, ?_, hcount⟩
  · rw [mergePart, hbody]
    exact hsum
  · intro t n ht
    have hnonneg := hm.nonneg t
    rw [hcase t] at ht
    cases hpart : part.lookup t with
    | none =>
        rw [hpart] at ht
        exact hm t n ht
    | some k =>
        rw [hpart] at ht
        obtain rfl := Option.some.inj ht
        have hk := hp t k hpart
        have hsum := hlt t
        rw [Counts.count.eq_1 part, hpart, Option.getD_some] at hsum
        exact ⟨by omega, hsum⟩
  · intro hne hempty
    obtain ⟨t, ht⟩ := Counts.exists_mem hne
    obtain ⟨n, hn⟩ := Finmap.mem_iff.mp ht
    have hnone := hcase t
    rw [hempty, Finmap.lookup_empty, hn] at hnone
    cases hpart : part.lookup t with
    | none =>
        rw [hpart] at hnone
        cases hnone
    | some k =>
        rw [hpart] at hnone
        cases hnone

/-- **Merging adds the numbers, in whatever order the maps are gone through.** -/
theorem merge_eq (hc : c.Proper countLimit) (hd : d.Proper countLimit) (hlt : ∀ k t, c.count k t + d.count k t < countLimit) :
    ∃ sum : NgramCache, sum.Proper countLimit ∧ (∀ order : Order d, merge c order = some sum) ∧
      ∀ k t, sum.count k t = c.count k t + d.count k t := by
  have hrun : ∀ order : Order d, ∃ sum : NgramCache, merge c order = some sum ∧ sum.Proper countLimit ∧
      ∀ k t, sum.count k t = c.count k t + d.count k t := by
    intro order
    -- what becomes of the part of an n-gram
    have hpart : ∀ {k p}, d.lookup k = some p → ∃ q : Part,
        ((c.lookup k).elim (some p) fun merged => mergePart merged (order.tokens k p).items) = some q ∧
        q ≠ ∅ ∧ q.Proper countLimit ∧ ∀ t, q.count t = c.count k t + p.count t := by
      intro k p hk
      obtain ⟨hne, hp⟩ := hd k p hk
      cases hck : c.lookup k with
      | none =>
          refine ⟨p, rfl, hne, hp, fun t => ?_⟩
          rw [Tally.count, Tally.part, hck, Option.getD_none, count_empty, Int.zero_add]
      | some merged =>
          obtain ⟨hmne, hm⟩ := hc k merged hck
          have hcount : ∀ t, c.count k t = merged.count t := fun t => by rw [Tally.count, Tally.part, hck, Option.getD_some]
          obtain ⟨q, hq, hqp, hqne, hqcount⟩ := mergePart_eq hm hp (order.tokens k p) fun t => by
            have hkt := hlt k t
            rwa [Tally.count.eq_1 d, Tally.part, hk, Option.getD_some, hcount] at hkt
          exact ⟨q, hq, hqne hmne, hqp, fun t => by rw [hqcount, hcount]⟩
    have hbody : merge c order = order.items.items.foldlM (fun m x => upsert m x.1 fun o =>
        o.elim (some x.2) fun merged => mergePart merged (order.tokens x.1 x.2).items) c := by
      rw [merge]
      refine congrArg (fun f => List.foldlM f c order.items.items) (funext fun m => funext fun x => ?_)
      refine congrArg (upsert m x.1) (funext fun o => ?_)
      cases o with
      | none => rfl
      | some merged => rfl
    rw [hbody]
    obtain ⟨(sum : NgramCache), hsum, hlookup⟩ := @foldlM_upsert Ngram Part Part _
      (fun x o => o.elim (some x.2) fun merged => mergePart merged (order.tokens x.1 x.2).items) order.items.items c
        order.items.nodupKeys fun x hx => by
        obtain ⟨q, hq, -⟩ := hpart (order.items.mem_items.mp hx)
        show ((c.lookup x.1).elim (some x.2) fun merged => mergePart merged (order.tokens x.1 x.2).items).isSome
        rw [hq]
        rfl
    have hcase : ∀ k, (d.lookup k = none ∧ sum.lookup k = c.lookup k) ∨ ∃ p q : Part, d.lookup k = some p ∧
        sum.lookup k = some q ∧ q ≠ ∅ ∧ q.Proper countLimit ∧ ∀ t, q.count t = c.count k t + p.count t := by
      intro k
      have hk := hlookup k
      rw [order.items.dlookup] at hk
      cases hdk : d.lookup k with
      | none =>
          rw [hdk] at hk
          exact .inl ⟨rfl, hk⟩
      | some p =>
          rw [hdk] at hk
          obtain ⟨q, hq, hne, hqp, hcount⟩ := hpart hdk
          exact .inr ⟨p, q, rfl, hk.trans hq, hne, hqp, hcount⟩
    refine ⟨sum, hsum, fun k q hq => ?_, fun k t => ?_⟩
    · rcases hcase k with ⟨-, heq⟩ | ⟨p, q', -, heq, hne, hqp, -⟩
      · exact hc k q (heq ▸ hq)
      · rw [hq] at heq
        cases heq
        exact ⟨hne, hqp⟩
    · rcases hcase k with ⟨hnone, heq⟩ | ⟨p, q', hsome, heq, -, -, hcount⟩
      · rw [Tally.count, Tally.part, heq, Tally.count.eq_1 d, Tally.part.eq_1 d, hnone, Option.getD_none, count_empty,
          Int.add_zero]
        rfl
      · rw [Tally.count, Tally.part, heq, Option.getD_some, hcount, Tally.count.eq_1 d, Tally.part.eq_1 d, hsome,
          Option.getD_some]
  obtain ⟨items⟩ := Listing.nonempty d
  obtain ⟨sum, -, hproper, hcount⟩ := hrun ⟨items, fun _ part => (Listing.nonempty part).some⟩
  refine ⟨sum, hproper, fun order => ?_, hcount⟩
  obtain ⟨sum', hmerge, hproper', hcount'⟩ := hrun order
  rw [hmerge, hproper'.ext hproper fun k t => (hcount' k t).trans (hcount k t).symm]

end Merge

section Save

def tokenBytes (t : Token) : List UInt8 := intBytes 4 t.toInt

/-- The tokens of a `common_ngram` as they lie in memory. -/
def ngramBytes (ngram : Ngram) : List UInt8 :=
  tokenBytes (ngram 0) ++ (tokenBytes (ngram 1) ++ (tokenBytes (ngram 2) ++ tokenBytes (ngram 3)))

/-- The inner loop of `common_ngram_cache_save`, `none` where an assertion fails. -/
def saveTokens : List (Σ _ : Token, Int) → Option (List UInt8)
  | [] => some []
  | ⟨token, count⟩ :: tokens =>
    if 0 < count then (saveTokens tokens).map fun bytes => tokenBytes token ++ (intBytes 4 count ++ bytes) else none

/-- The number of tokens of a part is written as an `int32_t`. -/
def savePart (tokens : List (Σ _ : Token, Int)) : Option (List UInt8) :=
  if tokens = [] then none
  else
    let ntokens := (tokens.length : Int).bmod (2 ^ 32)
    if 0 < ntokens then (saveTokens tokens).map fun bytes => intBytes 4 ntokens ++ bytes else none

/-- The outer loop of `common_ngram_cache_save`. -/
def saveItems (tokens : Ngram → Part → List (Σ _ : Token, Int)) : List (Σ _ : Ngram, Part) → Option (List UInt8)
  | [] => some []
  | ⟨ngram, part⟩ :: items => do
    let bytes ← savePart (tokens ngram part)
    let rest ← saveItems tokens items
    return ngramBytes ngram ++ (bytes ++ rest)

/-- `common_ngram_cache_save` -/
def save {c : NgramCache} (order : Order c) : Option (List UInt8) :=
  saveItems (fun ngram part => (order.tokens ngram part).items) order.items.items

end Save

section Load

/-- What is left of the file. -/
def remaining : Read Unit Nat := fun s => .ok s.bytes.length s

def readToken : Read Unit Token := do return Int32.ofInt (← Read.int 4)

def readNgram : Read Unit Ngram := do
  let t₀ ← readToken
  let t₁ ← readToken
  let t₂ ← readToken
  let t₃ ← readToken
  return pad [t₀, t₁, t₂, t₃]

/-- The inner loop of `common_ngram_cache_load`. -/
def loadTokens : Nat → Part → Read Unit Part
  | 0, part => pure part
  | n + 1, part => do
    let token ← readToken
    let count ← Read.int 4
    if 0 < count then loadTokens n (emplace part token count) else Read.fail .aborted

/-- What a round of the outer loop reads. -/
def loadItem : Read Unit (Ngram × Part) := do
  let ngram ← readNgram
  let ntokens ← Read.int 4
  if 0 < ntokens then
    let part ← loadTokens ntokens.toNat ∅
    return (ngram, part)
  else Read.fail .aborted

/-- The outer loop of `common_ngram_cache_load` : it ends where less than an n-gram is left. -/
def loadItems : Nat → NgramCache → Read Unit NgramCache
  | 0, c => pure c
  | fuel + 1, c => do
    let left ← remaining
    if left < 16 then return c
    else
      let (ngram, part) ← loadItem
      loadItems fuel (emplace c ngram part)

/-- `common_ngram_cache_load`, `none` where an assertion fails. Each round takes bytes from the file. -/
def load (file : List UInt8) : Option NgramCache :=
  match loadItems (file.length + 1) ∅ ⟨file, ()⟩ with
  | .ok c _ => some c
  | .error _ _ => none

theorem reads_token (t : Token) : Reads readToken (tokenBytes t) () t () := by
  have hfits : FitsInt 4 t.toInt := by
    have hle := t.le_toInt
    have hlt := t.toInt_lt
    rw [FitsInt]
    omega
  refine (Reads.int hfits).bind_last ?_
  rw [Int32.ofInt_toInt]
  exact Reads.pure t

theorem pad_tokens (ngram : Ngram) : pad [ngram 0, ngram 1, ngram 2, ngram 3] = ngram := by
  funext i
  fin_cases i
  all_goals rfl

theorem reads_ngram (ngram : Ngram) : Reads readNgram (ngramBytes ngram) () ngram () := by
  refine (reads_token _).bind ((reads_token _).bind ((reads_token _).bind ((reads_token _).bind_last ?_)))
  rw [pad_tokens]
  exact Reads.pure ngram

theorem fitsInt_count {n : Int} (hpos : 0 < n) (hlt : n < countLimit) : FitsInt 4 n := by
  rw [countLimit] at hlt
  rw [FitsInt]
  omega

/-- The tokens that are read are put in. -/
theorem loadTokens_saveTokens {tokens : List (Σ _ : Token, Int)} (h : ∀ x ∈ tokens, 0 < x.2 ∧ x.2 < countLimit)
    (part : Part) :
    ∃ bytes, saveTokens tokens = some bytes ∧
      Reads (loadTokens tokens.length part) bytes () (tokens.foldl (fun m x => emplace m x.1 x.2) part) () := by
  induction tokens generalizing part with
  | nil => exact ⟨[], rfl, Reads.pure part⟩
  | cons x tokens ih =>
      obtain ⟨hpos, hlt⟩ := h x List.mem_cons_self
      obtain ⟨bytes, hsave, hreads⟩ := ih (fun y hy => h y (List.mem_cons_of_mem _ hy)) (emplace part x.1 x.2)
      refine ⟨tokenBytes x.1 ++ (intBytes 4 x.2 ++ bytes), ?_, ?_⟩
      · rw [saveTokens, if_pos hpos, hsave]
        rfl
      · rw [List.length_cons, loadTokens]
        refine (reads_token x.1).bind ((Reads.int (fitsInt_count hpos hlt)).bind ?_)
        rw [if_pos hpos]
        exact hreads

/-- The number of tokens of a part is one of 32 bits, too. -/
def Fits (c : NgramCache) : Prop := ∀ k p, c.lookup k = some p → (p.entries.card : Int) < countLimit

variable {c : NgramCache}

/-- What is written for an n-gram is read again. -/
theorem loadItem_savePart (ngram : Ngram) {part : Part} (hne : part ≠ ∅) (hp : part.Proper countLimit)
    (hcard : (part.entries.card : Int) < countLimit) (o : Listing part) : ∃ bytes, savePart o.items = some bytes ∧
      Reads loadItem (ngramBytes ngram ++ bytes) () (ngram, part) () := by
  have hitems : o.items ≠ [] := by
    intro hnil
    apply hne
    rw [← o.foldl_emplace, hnil]
    rfl
  have hpos : 0 < (o.items.length : Int) := Int.natCast_pos.mpr (List.length_pos_of_ne_nil hitems)
  have hlt : (o.items.length : Int) < countLimit := by
    rw [o.length_items]
    exact hcard
  obtain ⟨bytes, hsave, hreads⟩ := loadTokens_saveTokens (fun x hx => hp x.1 x.2 (o.mem_items.mp hx)) ∅
  rw [o.foldl_emplace] at hreads
  refine ⟨intBytes 4 o.items.length ++ bytes, ?_, (reads_ngram ngram).bind ((Reads.int (fitsInt_count hpos hlt)).bind ?_)⟩
  · have hbmod : (o.items.length : Int).bmod (2 ^ 32) = o.items.length := by
      rw [countLimit] at hlt
      exact Int.bmod_eq_of_le (by omega) (by omega)
    rw [savePart, if_neg hitems, hbmod]
    dsimp only
    rw [if_pos hpos, hsave]
    rfl
  · rw [if_pos hpos, Int.toNat_natCast]
    exact hreads.bind_last (Reads.pure _)

theorem length_ngramBytes (ngram : Ngram) : (ngramBytes ngram).length = 16 := by
  simp [ngramBytes, tokenBytes]

/-- Each round of loading takes what a round of saving wrote. -/
theorem loadItems_saveItems {tokens : Ngram → Part → List (Σ _ : Token, Int)} {items : List (Σ _ : Ngram, Part)}
    (h : ∀ x ∈ items, ∃ bytes, savePart (tokens x.1 x.2) = some bytes ∧
      Reads loadItem (ngramBytes x.1 ++ bytes) () (x.1, x.2) ()) (c : NgramCache) :
    ∃ bytes, saveItems tokens items = some bytes ∧ items.length ≤ bytes.length ∧ ∀ fuel > items.length,
      loadItems fuel c ⟨bytes, ()⟩ = .ok (items.foldl (fun m x => emplace m x.1 x.2) c) ⟨[], ()⟩ := by
  induction items generalizing c with
  | nil =>
      refine ⟨[], rfl, le_rfl, fun fuel hfuel => ?_⟩
      obtain ⟨fuel, rfl⟩ := Nat.exists_eq_add_one_of_ne_zero (Nat.ne_of_gt hfuel)
      rfl
  | cons x items ih =>
      obtain ⟨bytes, hsave, hreads⟩ := h x List.mem_cons_self
      obtain ⟨rest, hrest, hle, hload⟩ := ih (fun y hy => h y (List.mem_cons_of_mem _ hy)) (emplace c x.1 x.2)
      have hlen : (ngramBytes x.1 ++ bytes ++ rest).length = 16 + bytes.length + rest.length := by
        rw [List.length_append, List.length_append, length_ngramBytes]
      refine ⟨ngramBytes x.1 ++ bytes ++ rest, ?_, ?_, fun fuel hfuel => ?_⟩
      · rw [saveItems, hsave, hrest, List.append_assoc]
        rfl
      · rw [hlen, List.length_cons]
        omega
      · rw [List.length_cons] at hfuel
        obtain ⟨fuel, rfl⟩ := Nat.exists_eq_add_one_of_ne_zero (Nat.ne_of_gt (Nat.lt_of_le_of_lt (Nat.zero_le _) hfuel))
        have hround : loadItems (fuel + 1) c ⟨ngramBytes x.1 ++ bytes ++ rest, ()⟩ =
            (if (ngramBytes x.1 ++ bytes ++ rest).length < 16 then pure c
              else loadItem >>= fun y => loadItems fuel (emplace c y.1 y.2) : Read Unit NgramCache)
              ⟨ngramBytes x.1 ++ bytes ++ rest, ()⟩ := rfl
        rw [hround, if_neg (by omega), hreads.run_bind rest]
        exact hload fuel (by omega)

/-- **What is saved is loaded again, in whatever order it was saved.** -/
theorem load_save (hc : c.Proper countLimit) (hfits : Fits c) (order : Order c) :
    ∃ file, save order = some file ∧ load file = some c := by
  have hitem : ∀ x ∈ order.items.items, ∃ bytes, savePart (order.tokens x.1 x.2).items = some bytes ∧
      Reads loadItem (ngramBytes x.1 ++ bytes) () (x.1, x.2) () := by
    intro x hx
    have hx := order.items.mem_items.mp hx
    obtain ⟨hne, hp⟩ := hc x.1 x.2 hx
    exact loadItem_savePart x.1 hne hp (hfits x.1 x.2 hx) (order.tokens x.1 x.2)
  obtain ⟨file, hsave, hle, hload⟩ := @loadItems_saveItems (fun ngram part => (order.tokens ngram part).items) _ hitem ∅
  refine ⟨file, hsave, ?_⟩
  rw [load, hload (file.length + 1) (by omega), order.items.foldl_emplace]

end Load

/-- **The n-gram caches are exact counts** : they do not depend on how the tokens were cut, merging is the sum, whichever is
merged into the other, and what is saved is loaded again. -/
theorem caches_exact {ngramMin ngramMax : Nat} (hmax : ngramMax ≤ ngramMost) {tokens : List Token}
    (hnull : tokenNull ∉ tokens)
    (hfew : ∀ g t, (occurrences tokens g t : Int) < countLimit) :
    (∃ c : NgramCache, c.Proper countLimit ∧ (∀ pieces, pieces.flatten = tokens → build ngramMin ngramMax pieces = some c) ∧
      ∀ g, tokenNull ∉ g → ngramMin ≤ g.length → g.length ≤ ngramMax → ∀ t, (c.part (pad g)).lookup t =
        if occurrences tokens g t = 0 then none else some (occurrences tokens g t : Int)) ∧
    (∀ c d : NgramCache, c.Proper countLimit → d.Proper countLimit → (∀ k t, c.count k t + d.count k t < countLimit) →
      ∃ sum : NgramCache, sum.Proper countLimit ∧ (∀ order : Order d, merge c order = some sum) ∧
        (∀ order : Order c, merge d order = some sum) ∧ ∀ k t, sum.count k t = c.count k t + d.count k t) ∧
    (∀ c d e : NgramCache, c.Proper countLimit → d.Proper countLimit → e.Proper countLimit →
      (∀ k t, c.count k t + d.count k t + e.count k t < countLimit) →
      ∃ cd de sum : NgramCache, (∀ order : Order d, merge c order = some cd) ∧
        (∀ order : Order e, merge cd order = some sum) ∧
        (∀ order : Order e, merge d order = some de) ∧ ∀ order : Order de, merge c order = some sum) ∧
    ∀ c : NgramCache, c.Proper countLimit → Fits c → ∀ order : Order c, ∃ file, save order = some file ∧
      load file = some c := by
  refine ⟨?_, ?_, ?_, fun c hc hfits order => load_save hc hfits order⟩
  · obtain ⟨c, hc, hbuild, hcount⟩ := @build_eq ngramMin ngramMax tokens hmax hnull hfew
    refine ⟨c, hc, hbuild, fun g hg hmin hle t => ?_⟩
    have hnumber : (c.part (pad g)).count t = occurrences tokens g t := hcount g hg hmin hle t
    rw [(hc.part (pad g)).lookup_eq t, hnumber]
    simp only [Int.natCast_eq_zero]
  · intro c d hc hd hlt
    obtain ⟨sum, hsum, hmerge, hcount⟩ := merge_eq hc hd hlt
    obtain ⟨sum', hsum', hmerge', hcount'⟩ := merge_eq hd hc fun k t => by
      rw [Int.add_comm]
      exact hlt k t
    have heq : sum' = sum := hsum'.ext hsum fun k t => by rw [hcount', hcount, Int.add_comm]
    rw [heq] at hmerge'
    exact ⟨sum, hsum, hmerge, hmerge', hcount⟩
  · intro c d e hc hd he hlt
    obtain ⟨cd, hcd, hmerge, hcount⟩ := merge_eq hc hd fun k t => by
      have hkt := hlt k t
      have hnonneg := (he.part k).nonneg t
      rw [Tally.count.eq_1 e] at hkt
      omega
    obtain ⟨de, hde, hmerge', hcount'⟩ := merge_eq hd he fun k t => by
      have hkt := hlt k t
      have hnonneg := (hc.part k).nonneg t
      rw [Tally.count.eq_1 c] at hkt
      omega
    obtain ⟨sum, hsum, hmerge₁, hcount₁⟩ := merge_eq hcd he fun k t => by
      rw [hcount]
      exact hlt k t
    obtain ⟨sum', hsum', hmerge₂, hcount₂⟩ := merge_eq hc hde fun k t => by
      rw [hcount', ← Int.add_assoc]
      exact hlt k t
    have heq : sum' = sum := hsum'.ext hsum fun k t => by rw [hcount₂, hcount₁, hcount, hcount', Int.add_assoc]
    rw [heq] at hmerge₂
    exact ⟨cd, de, sum, hmerge, hmerge₁, hmerge', hmerge₂⟩

/-- A few tokens, with n-grams of two sizes. -/
theorem caches_exact_few : ∃ c : NgramCache, build 1 2 [[5], [6, 5], [6, 7]] = some c ∧ build 1 2 [[5, 6, 5, 6, 7]] = some c ∧
    (c.part (pad [5, 6])).lookup 7 = some 1 ∧ (c.part (pad [5])).lookup 6 = some 2 := by
  have hfew : ∀ g t, (occurrences [5, 6, 5, 6, 7] g t : Int) < countLimit := by
    intro g t
    have hle : occurrences [5, 6, 5, 6, 7] g t ≤ 5 := List.countP_le_length
    rw [countLimit]
    omega
  obtain ⟨⟨c, -, hbuild, hcount⟩, -⟩ := @caches_exact 1 2 (by decide) [5, 6, 5, 6, 7] (by decide) hfew
  refine ⟨c, hbuild _ (by decide), hbuild _ (by decide), ?_, ?_⟩
  · rw [hcount [5, 6] (by decide) (by decide) (by decide)]
    decide
  · rw [hcount [5] (by decide) (by decide) (by decide)]
    decide

end S2Moe.Ngrams
