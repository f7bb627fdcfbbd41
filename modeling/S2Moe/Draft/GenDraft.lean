import S2Moe.Kv.Mirror
import S2Moe.Lib.Loop
import S2Moe.Lib.Run

/-!
# `common_speculative_gen_draft`

The standard path, with one vocabulary for both models. The draft context is its KV cache, whose cells store tokens.

* `findReuse` : the part of the old draft context that starts like the prompt;
* `Speculative.reuseShift`, `Speculative.reuseCut` : all but that part is taken out;
* `sampleLoop` : at most `n_draft` tokens are drafted, and all but the last are decoded;
* `genDraft` : one call;
* `reaches_mirror` : over any calls, `prompt_dft` is what the cache holds.

Sizes are ints that do not overflow.
-/

namespace S2Moe.Draft
open S2Moe.Kv S2Moe.Lib
open S2Moe.Recurrent (posMax)

/-- The draft context's parameters. -/
structure Ctx where
  nCtx : Nat
  nSeqMax : Nat
  nUbatch : Nat

/-- `common_speculative`. `seen` is no part of it: every cache there was, the last one first. -/
structure Speculative where
  cache : Cache Nat
  promptDft : List Nat := []
  seen : List (Cache Nat) := []

/-- The arguments of a call. `sample i c` is the best candidate of the draft model with the cache `c` in iteration `i`, and
whether its probability is below `p_min`. -/
structure Call where
  prompt : List Nat
  idLast : Nat
  nDraft : Nat
  nReuse : Int
  sample : Nat → Cache Nat → Nat × Bool

/-- What a call returns and leaves; `first` is the cache when it samples the first token. -/
structure Drafted where
  result : List Nat
  spec : Speculative
  first : Option (Cache Nat)

/-! ## The part to reuse -/

/-- The inner loop. -/
def matchLen : List Nat → List Nat → Nat
  | x :: xs, y :: ys => if x = y then matchLen xs ys + 1 else 0
  | _, _ => 0

/-- One turn of the search: from `i` on, the old context starts like `rest`. -/
def reuseStep (nReuse : Int) (whole : Bool) (rest old : List Nat) (best : Nat × Nat) (i : Nat) : Nat × Nat :=
  let cur := matchLen rest (old.drop i)
  if (nReuse ≤ cur ∨ whole) ∧ best.2 < cur then (i, cur) else best

/-- `(reuse_i, reuse_n)`; `n_ctx` is what the draft leaves of the context. -/
def findReuse (nReuse : Int) (nCtx : Nat) (prompt : List Nat) (iStart : Nat) (old : List Nat) : Nat × Nat :=
  (List.range old.length).foldl (reuseStep nReuse (decide (prompt.length ≤ nCtx)) (prompt.drop iStart) old) (0, 0)

/-! ## The call -/

namespace Speculative

def put (spec : Speculative) (cache : Cache Nat) (prompt : List Nat) : Speculative :=
  { cache := cache, promptDft := prompt, seen := cache :: spec.seen }

def reuseShift (spec : Speculative) (reuseI : Nat) : Speculative :=
  if 0 < reuseI then
    let rm := spec.put (spec.cache.seqRm 0 0 reuseI) spec.promptDft
    rm.put (rm.cache.seqAdd 0 reuseI (-1) (-reuseI)) (spec.promptDft.drop reuseI)
  else spec

def reuseCut (spec : Speculative) (reuseN : Nat) : Speculative :=
  if reuseN < spec.promptDft.length then spec.put (spec.cache.seqRm 0 reuseN (-1)) (spec.promptDft.take reuseN) else spec

/-- A decode of `toks` for sequence 0 from position `pos` on, which are pushed to `prompt_dft`. -/
def decode (ctx : Ctx) (spec : Speculative) (pos : Nat) (toks : List Nat) : Option Speculative :=
  (spec.cache.llamaDecode ctx.nSeqMax ctx.nUbatch (rowsFrom pos toks)).map fun c => spec.put c (spec.promptDft ++ toks)

end Speculative

def sampleLoop (ctx : Ctx) (call : Call) (nPast : Nat) : Nat → Nat → Speculative → List Nat → Option (List Nat × Speculative)
  | 0, _, spec, result => some (result, spec)
  | turns + 1, i, spec, result =>
    let r := call.sample i spec.cache
    let result := result ++ [r.1]
    if call.nDraft ≤ result.length then some (result, spec)
    else if r.2 then some (result, spec)
    else
      match spec.decode ctx (nPast + i + 1) [r.1] with
      | none => none
      | some spec => sampleLoop ctx call nPast turns (i + 1) spec result

/-- `i_start`. -/
def iStart (ctx : Ctx) (call : Call) : Nat := call.prompt.length - (ctx.nCtx - call.nDraft)

/-- From the prompt's batch on. -/
def draftFrom (ctx : Ctx) (call : Call) (reuseN : Nat) (spec : Speculative) : Option Drafted :=
  let new := call.prompt.drop (iStart ctx call + reuseN)
  match if new = [] then some spec else spec.decode ctx reuseN new with
  | none => none
  | some spec =>
    match spec.decode ctx spec.promptDft.length [call.idLast] with
    | none => none
    | some spec' =>
      (sampleLoop ctx call spec.promptDft.length call.nDraft 0 spec' []).map fun r => ⟨r.1, r.2, some spec'.cache⟩

def genDraft (ctx : Ctx) (call : Call) (spec : Speculative) : Option Drafted :=
  let r := findReuse call.nReuse (ctx.nCtx - call.nDraft) call.prompt (iStart ctx call) spec.promptDft
  if r.2 = 0 then draftFrom ctx call r.2 (spec.put spec.cache.clear [])
  else if spec.promptDft[r.1 + r.2]? = some call.idLast then
    -- an old draft that was not used is handed back
    some ⟨(spec.promptDft.drop (r.1 + r.2 + 1)).take (max call.nDraft 1), spec, none⟩
  else draftFrom ctx call r.2 ((spec.reuseShift r.1).reuseCut r.2)

def step (ctx : Ctx) (call : Call) (spec : Speculative) : Option Speculative := (genDraft ctx call spec).map Drafted.spec

/-! ## What the search finds -/

theorem matchLen_spec : ∀ xs ys : List Nat, xs.take (matchLen xs ys) = ys.take (matchLen xs ys) ∧
    matchLen xs ys ≤ xs.length ∧ matchLen xs ys ≤ ys.length
  | [], ys => ⟨rfl, Nat.zero_le _, Nat.zero_le _⟩
  | x :: xs, [] => ⟨rfl, Nat.zero_le _, Nat.zero_le _⟩
  | x :: xs, y :: ys => by
    rw [matchLen]
    split
    · rename_i heq
      obtain ⟨h1, h2, h3⟩ := matchLen_spec xs ys
      refine ⟨?_, by rw [List.length_cons]; omega, by rw [List.length_cons]; omega⟩
      rw [List.take_succ_cons, List.take_succ_cons, heq, h1]
    · exact ⟨rfl, Nat.zero_le _, Nat.zero_le _⟩

theorem findReuse_spec (nReuse : Int) (nCtx : Nat) (prompt : List Nat) (iStart : Nat) (old : List Nat) :
    let r := findReuse nReuse nCtx prompt iStart old
    r.2 ≠ 0 → r.1 < old.length ∧ r.2 = matchLen (prompt.drop iStart) (old.drop r.1) := by
  refine foldl_range_rule
    (P := fun _ (r : Nat × Nat) => r.2 ≠ 0 → r.1 < old.length ∧ r.2 = matchLen (prompt.drop iStart) (old.drop r.1))
    (fun h => absurd rfl h) old.length ?_
  intro i hi r hr
  unfold reuseStep
  dsimp only
  split
  · exact fun _ => ⟨hi, rfl⟩
  · exact hr

/-! ## One call -/

/-- The list is what the cache holds, and the context was never too small. -/
structure Speculative.Ok (ctx : Ctx) (spec : Speculative) : Prop where
  mirrors : Mirrors spec.cache spec.promptDft
  length_le : spec.promptDft.length ≤ ctx.nCtx
  seen_le : ∀ c ∈ spec.seen, c.cells.getUsed ≤ ctx.nCtx

section Steps
variable {ctx : Ctx} {call : Call} {spec spec' : Speculative}

theorem Speculative.Ok.put (h : spec.Ok ctx) {c : Cache Nat} {prompt : List Nat} (hm : Mirrors c prompt)
    (hlen : prompt.length ≤ ctx.nCtx) : (spec.put c prompt).Ok ctx := by
  refine ⟨hm, hlen, fun d hd => ?_⟩
  rcases List.mem_cons.mp hd with rfl | hd
  · rw [hm.getUsed]
    exact hlen
  · exact h.seen_le d hd

theorem Speculative.Ok.reuseShift (h : spec.Ok ctx) (hctx : (ctx.nCtx : Int) ≤ posMax) {i : Nat}
    (hi : i < spec.promptDft.length) :
    (spec.reuseShift i).Ok ctx ∧ (spec.reuseShift i).promptDft = spec.promptDft.drop i := by
  have hlen := h.length_le
  unfold Speculative.reuseShift
  split
  · rename_i hpos
    have hdrop := h.mirrors.drop (by omega) hpos hi
    refine ⟨⟨hdrop, by dsimp only [Speculative.put]; rw [List.length_drop]; omega, fun d hd => ?_⟩, rfl⟩
    rcases List.mem_cons.mp hd with rfl | hd
    · refine hdrop.getUsed.le.trans ?_
      rw [List.length_drop]
      omega
    · -- in between, nothing was added
      rcases List.mem_cons.mp hd with rfl | hd
      · have hrm : Each spec.cache (spec.cache.seqRm 0 0 i) (Cell.removed 0 0 i) := h.mirrors.ok.seqRm 0 0 i
        refine (hrm.getUsed_le h.mirrors.ok fun x hx => ?_).trans (by rw [h.mirrors.getUsed]; exact hlen)
        unfold Cell.removed
        split
        · split
          · rfl
          · exact hx
        · exact hx
      · exact h.seen_le d hd
  · rename_i hpos
    obtain rfl : i = 0 := by omega
    exact ⟨h, rfl⟩

theorem Speculative.Ok.reuseCut (h : spec.Ok ctx) (hctx : (ctx.nCtx : Int) ≤ posMax) (n : Nat) :
    (spec.reuseCut n).Ok ctx ∧ (spec.reuseCut n).promptDft = spec.promptDft.take n := by
  have hlen := h.length_le
  unfold Speculative.reuseCut
  split
  · exact ⟨h.put (h.mirrors.take (by omega) n) (by rw [List.length_take]; omega), rfl⟩
  · rename_i hn
    exact ⟨h, (List.take_of_length_le (by omega)).symm⟩

theorem Speculative.Ok.decode (h : spec.Ok ctx) {pos : Nat} {toks : List Nat} (hpos : pos = spec.promptDft.length)
    (hlen : spec.promptDft.length + toks.length ≤ ctx.nCtx) (hrun : spec.decode ctx pos toks = some spec') :
    spec'.Ok ctx ∧ spec'.promptDft = spec.promptDft ++ toks := by
  obtain ⟨c, hdec, rfl⟩ := Option.map_eq_some_iff.mp hrun
  rw [hpos] at hdec
  exact ⟨h.put (h.mirrors.decode hdec) (by rw [List.length_append]; exact hlen), rfl⟩

/-- Before iteration `i`, `i` tokens are drafted, and all of them are decoded. -/
theorem sampleLoop_spec {nPast : Nat} (hroom : nPast + call.nDraft ≤ ctx.nCtx) :
    ∀ (turns i : Nat) (spec : Speculative) (result : List Nat) {r : List Nat × Speculative}, spec.Ok ctx →
      spec.promptDft.length = nPast + i + 1 → result.length = i → i + turns = call.nDraft →
      sampleLoop ctx call nPast turns i spec result = some r → r.1.length ≤ call.nDraft ∧ r.2.Ok ctx
  | 0, i, spec, result, r, h, _, hres, hturns, hrun => by
    cases hrun
    exact ⟨by dsimp only; omega, h⟩
  | turns + 1, i, spec, result, r, h, hlen, hres, hturns, hrun => by
    have hpush : (result ++ [(call.sample i spec.cache).1]).length = i + 1 := by
      rw [List.length_append, hres, List.length_singleton]
    rw [sampleLoop, hpush] at hrun
    split at hrun
    · cases hrun
      exact ⟨by dsimp only; omega, h⟩
    · split at hrun
      · cases hrun
        exact ⟨by dsimp only; omega, h⟩
      · cases hdec : spec.decode ctx (nPast + i + 1) [(call.sample i spec.cache).1] with
        | none =>
            rw [hdec] at hrun
            cases hrun
        | some spec' =>
            rw [hdec] at hrun
            obtain ⟨hok, hprompt⟩ := h.decode hlen.symm (by rw [List.length_singleton]; omega) hdec
            refine sampleLoop_spec hroom turns (i + 1) spec' _ hok ?_ hpush (by omega) hrun
            rw [hprompt, List.length_append, List.length_singleton]
            omega

theorem draftFrom_spec {reuseN : Nat} {out : Drafted} (hone : 1 ≤ call.nDraft) (hdraft : call.nDraft < ctx.nCtx)
    (h : spec.Ok ctx) (hprompt : spec.promptDft = (call.prompt.drop (iStart ctx call)).take reuseN)
    (hle : reuseN ≤ (call.prompt.drop (iStart ctx call)).length) (hrun : draftFrom ctx call reuseN spec = some out) :
    out.spec.Ok ctx ∧ out.result.length ≤ call.nDraft ∧
      ∃ c, out.first = some c ∧ Mirrors c (call.prompt.drop (iStart ctx call) ++ [call.idLast]) := by
  have hrest : (call.prompt.drop (iStart ctx call)).length ≤ ctx.nCtx - call.nDraft := by
    unfold iStart
    rw [List.length_drop]
    omega
  have hlen : spec.promptDft.length = reuseN := by
    rw [hprompt, List.length_take]
    omega
  have hnew : spec.promptDft ++ call.prompt.drop (iStart ctx call + reuseN) = call.prompt.drop (iStart ctx call) := by
    rw [hprompt, ← List.drop_drop, List.take_append_drop]
  unfold draftFrom at hrun
  dsimp only at hrun
  cases hev : if call.prompt.drop (iStart ctx call + reuseN) = [] then some spec
      else spec.decode ctx reuseN (call.prompt.drop (iStart ctx call + reuseN)) with
  | none =>
      rw [hev] at hrun
      cases hrun
  | some spec₁ =>
      rw [hev] at hrun
      -- behind the prompt's batch, the cache holds the end of the prompt
      obtain ⟨hok₁, hprompt₁⟩ : spec₁.Ok ctx ∧ spec₁.promptDft = call.prompt.drop (iStart ctx call) := by
        split at hev
        · rename_i hnil
          cases hev
          rw [hnil, List.append_nil] at hnew
          exact ⟨h, hnew⟩
        · have hfit : spec.promptDft.length + (call.prompt.drop (iStart ctx call + reuseN)).length ≤ ctx.nCtx := by
            rw [← List.length_append, hnew]
            omega
          obtain ⟨hok, hp⟩ := h.decode hlen.symm hfit hev
          exact ⟨hok, hp.trans hnew⟩
      dsimp only at hrun
      cases hlast : spec₁.decode ctx spec₁.promptDft.length [call.idLast] with
      | none =>
          rw [hlast] at hrun
          cases hrun
      | some spec₂ =>
          rw [hlast] at hrun
          obtain ⟨r, hloop, rfl⟩ := Option.map_eq_some_iff.mp hrun
          obtain ⟨hok₂, hprompt₂⟩ := hok₁.decode rfl (by rw [hprompt₁, List.length_singleton]; omega) hlast
          have hlen₂ : spec₂.promptDft.length = spec₁.promptDft.length + 0 + 1 := by
            rw [hprompt₂, List.length_append, List.length_singleton]
          obtain ⟨hres, hok⟩ := sampleLoop_spec (by rw [hprompt₁]; omega) call.nDraft 0 spec₂ [] hok₂ hlen₂ rfl
            (Nat.zero_add _) hloop
          refine ⟨hok, hres, spec₂.cache, rfl, ?_⟩
          have hmirrors := hok₂.mirrors
          rw [hprompt₂, hprompt₁] at hmirrors
          exact hmirrors

theorem genDraft_spec {out : Drafted} (hctx : (ctx.nCtx : Int) ≤ posMax) (hone : 1 ≤ call.nDraft)
    (hdraft : call.nDraft < ctx.nCtx) (h : spec.Ok ctx) (hrun : genDraft ctx call spec = some out) :
    out.spec.Ok ctx ∧ out.result.length ≤ call.nDraft ∧
      match out.first with
      | some c => Mirrors c (call.prompt.drop (iStart ctx call) ++ [call.idLast])
      | none => out.spec = spec := by
  have hreuse := findReuse_spec call.nReuse (ctx.nCtx - call.nDraft) call.prompt (iStart ctx call) spec.promptDft
  unfold genDraft at hrun
  dsimp only at hrun hreuse
  split at hrun
  · rename_i hzero
    rw [hzero] at hrun
    obtain ⟨h1, h2, c, hc, h3⟩ := draftFrom_spec hone hdraft (h.put (.clear h.mirrors.ok) (Nat.zero_le _)) List.take_zero.symm
      (Nat.zero_le _) hrun
    rw [hc]
    exact ⟨h1, h2, h3⟩
  · rename_i hne
    obtain ⟨hlt, hmatch⟩ := hreuse hne
    split at hrun
    · cases hrun
      refine ⟨h, ?_, rfl⟩
      rw [List.length_take]
      omega
    · obtain ⟨hok₁, hp₁⟩ := h.reuseShift hctx hlt
      obtain ⟨hok₂, hp₂⟩ := hok₁.reuseCut hctx
        (findReuse call.nReuse (ctx.nCtx - call.nDraft) call.prompt (iStart ctx call) spec.promptDft).2
      obtain ⟨hsame, hle, -⟩ := matchLen_spec (call.prompt.drop (iStart ctx call)) (spec.promptDft.drop
        (findReuse call.nReuse (ctx.nCtx - call.nDraft) call.prompt (iStart ctx call) spec.promptDft).1)
      rw [← hmatch] at hsame hle
      obtain ⟨h1, h2, c, hc, h3⟩ := draftFrom_spec hone hdraft hok₂ (by rw [hp₂, hp₁, hsame]) hle hrun
      rw [hc]
      exact ⟨h1, h2, h3⟩

end Steps

/-- **The draft cache and `prompt_dft` stay in step**, over any sequence of calls and in every cache on the way; a call that
decodes samples its first token behind the end of the prompt and the last token. -/
theorem reaches_mirror {ctx : Ctx} (hctx : (ctx.nCtx : Int) ≤ posMax) {size : Nat} {data : Nat → Nat} {spec : Speculative}
    (hrun : Reaches (step ctx) (fun _ call => 1 ≤ call.nDraft ∧ call.nDraft < ctx.nCtx)
      { cache := { cells := { size := size }, data := data } } spec) :
    Mirrors spec.cache spec.promptDft ∧ (∀ c ∈ spec.seen, c.cells.getUsed ≤ ctx.nCtx) ∧
    ∀ (call : Call) (out : Drafted), 1 ≤ call.nDraft → call.nDraft < ctx.nCtx → genDraft ctx call spec = some out →
      Mirrors out.spec.cache out.spec.promptDft ∧ (∀ c ∈ out.spec.seen, c.cells.getUsed ≤ ctx.nCtx) ∧
      out.result.length ≤ call.nDraft ∧
      match out.first with
      | some c => Mirrors c (call.prompt.drop (call.prompt.length - (ctx.nCtx - call.nDraft)) ++ [call.idLast])
      | none => out.spec = spec := by
  have hok : spec.Ok ctx := by
    refine hrun.invariant ⟨Mirrors.init size data, Nat.zero_le _, fun c hc => absurd hc List.not_mem_nil⟩ ?_
    rintro t u call ht ⟨hone, hdraft⟩ hstep
    obtain ⟨out, hout, rfl⟩ := Option.map_eq_some_iff.mp hstep
    exact (genDraft_spec hctx hone hdraft ht hout).1
  refine ⟨hok.mirrors, hok.seen_le, fun call out hone hdraft hout => ?_⟩
  obtain ⟨hnext, hres, hfirst⟩ := genDraft_spec hctx hone hdraft hok hout
  exact ⟨hnext.mirrors, hnext.seen_le, hres, hfirst⟩

def smallCtx : Ctx := ⟨4, 1, 2⟩

/-- The second prompt starts where the end of the first draft was. -/
def twoCalls : List Call :=
  [⟨[7, 8], 9, 2, 0, fun _ _ => (5, false)⟩, ⟨[8, 9, 5, 6], 3, 2, 0, fun _ _ => (5, false)⟩]

theorem reaches_mirror_twoCalls : ∃ spec, runList
    (step smallCtx) twoCalls { cache := { cells := { size := 4 }, data := id } } =
    some spec ∧ spec.promptDft = [5, 6, 3, 5] ∧ Mirrors spec.cache [5, 6, 3, 5] := by
  have hfound : (runList (step smallCtx) twoCalls { cache := { cells := { size := 4 }, data := id } }).map
      Speculative.promptDft = some [5, 6, 3, 5] := by decide +kernel
  obtain ⟨spec, hrun, hprompt⟩ := Option.map_eq_some_iff.mp hfound
  have hreach : Reaches (step smallCtx) (fun _ call => 1 ≤ call.nDraft ∧ call.nDraft < smallCtx.nCtx) _ spec :=
    Reaches.runList .start (fun call hcall _ => by
      rcases List.mem_pair.mp hcall with rfl | rfl
      · exact ⟨by decide, by decide⟩
      · exact ⟨by decide, by decide⟩) hrun
  refine ⟨spec, hrun, hprompt, ?_⟩
  rw [← hprompt]
  exact (reaches_mirror (by decide) hreach).1

end S2Moe.Draft
