import Mathlib.Data.List.TakeWhile
import S2Moe.Context.Outputs

/-!
# The outputs in the saved state of a context

`state_write_data` saves the token of each row and the buffers as they lie; the pending swaps are neither carried out nor
saved. `state_read_data` fills the buffers of a context that may have pending swaps of its own.

* `stateWrite`, `stateRead` : the two, as far as outputs go;
* `Reachable` : what calls leave, also those whose graph fails, and what is read back;
* `moved` : the place from which the swaps bring a row;
* `Mapped` : what `output_ids` can be;
* `Keeps` : when a state survives; `stateRead_iff`.
-/

namespace S2Moe.Context
open S2Moe.Lib S2Moe.Batch

/-- The part of a saved state that is about outputs: the token of each row, and the rows. -/
structure Saved (R E : Type) where
  pos : List Nat
  logits : List R
  embd : List E

namespace Outputs
variable {R E : Type}

/-- `w_output_pos`, which starts as zeros. -/
def outputPos (cfg : Config) (o : Outputs R E) : Nat → Nat :=
  (List.range cfg.nBatch).foldl (fun pos i => if 0 ≤ o.ids i then Function.update pos (o.ids i).toNat i else pos) fun _ => 0

/-- `state_write_data`; nothing when the assertion fails. The buffers have room for `n` rows, so that many are written. -/
def stateWrite (cfg : Config) (o : Outputs R E) : Option (Saved R E) :=
  if ∀ i < cfg.nBatch, 0 ≤ o.ids i → o.ids i < o.n then
    some {
      pos := (List.range o.n).map (o.outputPos cfg)
      logits := slice o.logits 0 o.n
      embd := if o.hasEmbd then slice o.embd 0 o.n else [] }
  else none

/-- `state_read_data`, and whether it returns. `embeddings` is the setting of the context, and `stale` what is in its
buffers once there is room for the rows. -/
def stateRead (cfg : Config) (embeddings : Bool) (stale : (Nat → R) × (Nat → E)) (s : Saved R E) (o : Outputs R E) :
    Bool × Outputs R E :=
  let o := { o.reserve embeddings with logits := stale.1, embd := stale.2 }
  let fits := s.pos.takeWhile fun p => decide (p < cfg.nBatch)
  let o := { o with ids := mapIds fits.length (fun k => fits.getD k 0) o.ids }
  if fits.length < s.pos.length then (false, o)
  else
    let o := { o with n := s.pos.length, logits := putRows o.logits 0 s.logits }
    -- without embeddings there is no buffer for them
    if embeddings = false ∧ s.embd ≠ [] then (false, o) else (true, { o with embd := putRows o.embd 0 s.embd })

/-- A call whose graph fails: the output mappings are set already. -/
def encodeFails (cfg : Config) (o : Outputs R E) (c : Call R E) : Option (Outputs R E) :=
  if c.tokens.isEmpty ∨ cfg.nUbatch < c.tokens.length then none
  else some { o.reserve c.embeddings with ids := fun i => if i < c.tokens.length then i else -1, n := c.tokens.length }

/-- A call whose graph fails at the ubatch behind the first `k`: the output mappings are not set, and `n` counts for one
ubatch. -/
def decodeFails (cfg : Config) (o : Outputs R E) (sp : Splitter) (c : Call R E) (k : Nat) : Option (Outputs R E) :=
  if cfg.hasMemory = false ∨ c.tokens.isEmpty ∨ cfg.nBatch < c.tokens.length then none
  else
    (initBatch sp cfg.nUbatch c.tokens).bind fun r =>
      (r.1[k]?).map fun u =>
        let acc := (r.1.take k).foldl (extract cfg c) (0, { o with swaps := [] }.reserve c.embeddings)
        { acc.2 with n := (extract cfg c acc u).1 - acc.1 }

/-- What a context can be. -/
inductive Reachable (cfg : Config) : Outputs R E → Prop
  | start (logits : Nat → R) (embd : Nat → E) (hasEmbd : Bool) :
    Reachable cfg { logits := logits, embd := embd, hasEmbd := hasEmbd }
  | encode {o o' : Outputs R E} {accepted ok : Bool} {c : Call R E} (h : Reachable cfg o)
      (hcall : o.encode cfg accepted c = some (ok, o')) : Reachable cfg o'
  | encodeFails {o o' : Outputs R E} {c : Call R E} (h : Reachable cfg o) (hcall : o.encodeFails cfg c = some o') :
      Reachable cfg o'
  | decode {o o' : Outputs R E} {accepted slots ok : Bool} {sp : Splitter} {c : Call R E} (h : Reachable cfg o)
      (hcall : o.decode cfg accepted slots sp c = some (ok, o')) : Reachable cfg o'
  | decodeFails {o o' : Outputs R E} {sp : Splitter} {c : Call R E} {k : Nat} (h : Reachable cfg o)
      (hcall : o.decodeFails cfg sp c k = some o') : Reachable cfg o'
  | get {o : Outputs R E} (h : Reachable cfg o) : Reachable cfg o.outputReorder
  | read {a o : Outputs R E} {s : Saved R E} {embeddings : Bool} {stale : (Nat → R) × (Nat → E)} (ha : Reachable cfg a)
      (h : Reachable cfg o) (hs : a.stateWrite cfg = some s) : Reachable cfg (o.stateRead cfg embeddings stale s).2

end Outputs

/-- The place from which the swaps bring the row to place `k`. -/
def moved (swaps : List (Nat × Nat)) : Nat → Nat := reorder swaps fun k => k

/-- What the restored context `b` shows is what `a` would have shown. -/
def SameOutputs {R E : Type} (cfg : Config) (a b : Outputs R E) : Prop :=
  ∀ i, (b.getLogitsIth cfg i).1 = (a.getLogitsIth cfg i).1 ∧ (b.getEmbeddingsIth cfg i).1 = (a.getEmbeddingsIth cfg i).1

/-- The saved state of `a` survives in `b`: the rows of `a` have tokens, the setting is that of its last call, and the
swaps pending in `b` bring to each place the row that those pending in `a` bring there. -/
structure Keeps {R E : Type} (a b : Outputs R E) (embeddings : Bool) (stale : (Nat → R) × (Nat → E)) : Prop where
  token : a.n = 0 ∨ ∃ i, a.ids i ≠ -1
  setting : a.n = 0 ∨ embeddings = a.hasEmbd
  logits : ∀ k < a.n, putRows stale.1 0 (slice a.logits 0 a.n) (moved b.swaps k) = a.logits (moved a.swaps k)
  embd : a.hasEmbd = true → ∀ k < a.n, putRows stale.2 0 (slice a.embd 0 a.n) (moved b.swaps k) = a.embd (moved a.swaps k)

section Moved
variable {α : Type}

theorem reorder_eq_moved (f : Nat → α) : ∀ swaps : List (Nat × Nat), reorder swaps f = fun k => f (moved swaps k) := by
  have hcomp : ∀ (swaps : List (Nat × Nat)) (ids : Nat → Nat),
      reorder swaps (fun k => f (ids k)) = fun k => f (reorder swaps ids k) := by
    intro swaps
    induction swaps with
    | nil => exact fun _ => rfl
    | cons s swaps ih =>
      intro ids
      show reorder swaps (swapAt (fun k => f (ids k)) s.1 s.2) = fun k => f (reorder swaps (swapAt ids s.1 s.2) k)
      rw [swapAt_comp, ih]
  intro swaps
  exact hcomp swaps fun k => k

end Moved

/-! ## The mappings -/

section Mapped
variable {R E : Type}

/-- `output_ids`: tokens have rows of their own, and either all rows have tokens or none has, which is what a failed graph
leaves; read back, such a state has its last row at token 0. -/
structure Mapped (cfg : Config) (o : Outputs R E) : Prop where
  range : ∀ i, o.ids i = -1 ∨ i < cfg.nBatch ∧ ∃ k < o.n, o.ids i = (k : Nat)
  inj : ∀ i j, o.ids i ≠ -1 → o.ids i = o.ids j → i = j
  rows : (∀ k < o.n, ∃ i, o.ids i = (k : Nat)) ∨ (∀ i, o.ids i = -1) ∨ (o.ids 0 = (o.n - 1 : Nat) ∧ ∀ i ≠ 0, o.ids i = -1)
  room : 0 < o.n → 0 < cfg.nBatch

variable {cfg : Config} {o : Outputs R E}

/-- Only the ids and their number matter. -/
theorem Mapped.congr {o' : Outputs R E} (h : Mapped cfg o) (hids : o'.ids = o.ids) (hn : o'.n = o.n) : Mapped cfg o' := by
  obtain ⟨hrange, hinj, hrows, hroom⟩ := h
  rw [← hids, ← hn] at hrange hrows
  rw [← hids] at hinj
  rw [← hn] at hroom
  exact ⟨hrange, hinj, hrows, hroom⟩

theorem mapped_none {o : Outputs R E} (h : ∀ i, o.ids i = -1) (hroom : 0 < o.n → 0 < cfg.nBatch) : Mapped cfg o :=
  ⟨fun i => .inl (h i), fun i _ hi => absurd (h i) hi, .inr (.inl h), hroom⟩

/-- Each row has a token of its own. -/
theorem mapped_mapIds {g : Nat → Nat} (hids : o.ids = Outputs.mapIds o.n g fun _ => -1)
    (hinj : ∀ a < o.n, ∀ b < o.n, g a = g b → a = b) (hlt : ∀ k < o.n, g k < cfg.nBatch) : Mapped cfg o := by
  obtain ⟨hhit, hmiss⟩ := mapIds_spec (fun _ => -1) hinj
  rw [← hids] at hhit hmiss
  have hcases : ∀ i, o.ids i = -1 ∨ ∃ k < o.n, g k = i ∧ o.ids i = (k : Nat) := by
    intro i
    by_cases h : ∃ k < o.n, g k = i
    · obtain ⟨k, hk, rfl⟩ := h
      exact .inr ⟨k, hk, rfl, hhit k hk⟩
    · exact .inl (hmiss i fun k hk he => h ⟨k, hk, he⟩)
  refine ⟨fun i => ?_, fun i j hi hij => ?_, .inl fun k hk => ⟨g k, hhit k hk⟩, fun hpos => ?_⟩
  · refine (hcases i).imp_right fun ⟨k, hk, he, hid⟩ => ⟨?_, k, hk, hid⟩
    rw [← he]
    exact hlt k hk
  · obtain ⟨k, hk, hg, hid⟩ := (hcases i).resolve_left hi
    rw [hij] at hi
    obtain ⟨m, hm, hg', hid'⟩ := (hcases j).resolve_left hi
    rw [← hg, ← hg', show k = m by omega]
  · exact (Nat.zero_le _).trans_lt (hlt 0 hpos)

theorem extract_foldl (cfg : Config) (c : Call R E) : ∀ (us : List (List Nat)) (acc : Nat × Outputs R E),
    (us.foldl (Outputs.extract cfg c) acc).2.ids = acc.2.ids
  | [], _ => rfl
  | u :: us, acc => by
    rw [List.foldl_cons, extract_foldl cfg c us]
    rfl

theorem mapped_setMappings {outIds : List Nat} (hids : ∀ i, o.ids i = -1) (hnodup : outIds.Nodup)
    (hlt : ∀ i ∈ outIds, i < cfg.nBatch) : Mapped cfg (o.setMappings outIds.length fun k => outIds.getD k 0) := by
  have hgetD : ∀ (k : Nat) (hk : k < outIds.length), outIds.getD k 0 = outIds[k] := by
    intro k hk
    rw [List.getD_eq_getElem?_getD, List.getElem?_eq_getElem hk]
    rfl
  have hinj : ∀ a < outIds.length, ∀ b < outIds.length, outIds.getD a 0 = outIds.getD b 0 → a = b := by
    intro a ha b hb hab
    rw [hgetD a ha, hgetD b hb] at hab
    exact (hnodup.getElem_inj_iff).mp hab
  have hmem : ∀ k < outIds.length, outIds.getD k 0 < cfg.nBatch := by
    intro k hk
    rw [hgetD k hk]
    exact hlt _ (List.getElem_mem hk)
  have hnone : o.ids = fun _ => -1 := funext hids
  unfold Outputs.setMappings
  split
  · exact mapped_mapIds (by rw [hnone]) hinj hmem
  · have hsort := selectionSort_sorted _ _ hinj
    refine mapped_mapIds rfl hsort.inj fun k hk => ?_
    have hk' : (selectionSort outIds.length fun k => outIds.getD k 0).1 k ∈
        (List.range outIds.length).map fun k => outIds.getD k 0 :=
      hsort.perm.subset (List.mem_map_of_mem (List.mem_range.mpr hk))
    obtain ⟨j, hj, he⟩ := List.mem_map.mp hk'
    rw [← he]
    exact hmem j (List.mem_range.mp hj)

theorem Mapped.encode {o' : Outputs R E} {accepted ok : Bool} {c : Call R E} (h : Mapped cfg o)
    (hcall : o.encode cfg accepted c = some (ok, o')) : Mapped cfg o' := by
  unfold Outputs.encode at hcall
  split_ifs at hcall with hskip hfit
  · cases hcall
    exact h
  · cases hcall
    have hle := cfg.le
    refine mapped_mapIds (g := fun k => k) ?_ (fun a _ b _ hab => hab) fun k hk => ?_
    · funext i
      obtain ⟨hhit, hmiss⟩ := mapIds_spec (n := c.tokens.length) (g := fun k => k) (fun _ => -1) fun a _ b _ hab => hab
      by_cases hi : i < c.tokens.length
      · exact (if_pos hi).trans (hhit i hi).symm
      · exact (if_neg hi).trans (hmiss i fun k hk he => hi (he ▸ hk)).symm
    · have hk' : k < c.tokens.length := hk
      omega

theorem Mapped.encodeFails {o' : Outputs R E} {c : Call R E} (hcall : o.encodeFails cfg c = some o') : Mapped cfg o' := by
  unfold Outputs.encodeFails at hcall
  split_ifs at hcall with hfit
  cases hcall
  rw [not_or] at hfit
  have hle := cfg.le
  refine mapped_mapIds (g := fun k => k) ?_ (fun a _ b _ hab => hab) fun k hk => ?_
  · funext i
    obtain ⟨hhit, hmiss⟩ := mapIds_spec (n := c.tokens.length) (g := fun k => k) (fun _ => -1) fun a _ b _ hab => hab
    by_cases hi : i < c.tokens.length
    · exact (if_pos hi).trans (hhit i hi).symm
    · exact (if_neg hi).trans (hmiss i fun k hk he => hi (he ▸ hk)).symm
  · have hk' : k < c.tokens.length := hk
    omega

theorem Mapped.decode {o' : Outputs R E} {accepted slots ok : Bool} {sp : Splitter} {c : Call R E} (h : Mapped cfg o)
    (hcall : o.decode cfg accepted slots sp c = some (ok, o')) : Mapped cfg o' := by
  unfold Outputs.decode at hcall
  split_ifs at hcall with hmem hskip hfit hslots
  · cases hcall
    exact h
  · cases hinit : initBatch sp cfg.nUbatch c.tokens with
    | none =>
      rw [hinit] at hcall
      cases hcall
      exact h.congr rfl rfl
    | some r =>
      rw [hinit] at hcall
      cases hcall
      exact h.congr rfl rfl
  · cases hinit : initBatch sp cfg.nUbatch c.tokens with
    | none =>
      rw [hinit] at hcall
      cases hcall
      exact h.congr rfl rfl
    | some r =>
      obtain ⟨us, outIds⟩ := r
      rw [hinit] at hcall
      cases hcall
      obtain ⟨hperm, hout, -⟩ := initBatch_perm hinit
      have hfilter : outIds.Perm c.outputs := by
        rw [hout]
        exact hperm.filter _
      rw [← hfilter.length_eq]
      refine mapped_setMappings (fun i => ?_) ?_ fun i hi => ?_
      · rw [extract_foldl]
        rfl
      · exact hfilter.nodup_iff.mpr (c.outputs_pairwise.imp fun hlt => hlt.ne)
      · have := Call.lt_of_mem_outputs (hfilter.subset hi)
        omega
  · exact h.encode hcall

theorem Mapped.decodeFails {o' : Outputs R E} {sp : Splitter} {c : Call R E} {k : Nat}
    (hcall : o.decodeFails cfg sp c k = some o') : Mapped cfg o' := by
  unfold Outputs.decodeFails at hcall
  split_ifs at hcall with hfit
  obtain ⟨r, _, hcall⟩ := Option.bind_eq_some_iff.mp hcall
  obtain ⟨u, _, rfl⟩ := Option.map_eq_some_iff.mp hcall
  refine mapped_none (fun i => ?_) fun _ => ?_
  · dsimp only
    rw [extract_foldl]
    rfl
  · simp only [not_or, List.isEmpty_iff] at hfit
    have := List.length_pos_of_ne_nil hfit.2.1
    omega

/-! ## Written and read back -/

theorem outputPos_spec (cfg : Config) (o : Outputs R E) (hinj : ∀ i j, o.ids i ≠ -1 → o.ids i = o.ids j → i = j) :
    (∀ i < cfg.nBatch, ∀ k : Nat, o.ids i = k → o.outputPos cfg k = i) ∧
      ∀ k : Nat, (∀ i < cfg.nBatch, o.ids i ≠ k) → o.outputPos cfg k = 0 := by
  have hfold := foldl_range_rule
    (f := fun pos i => if 0 ≤ o.ids i then Function.update pos (o.ids i).toNat i else pos) (s := fun _ => 0)
    (P := fun m pos => (∀ i < m, ∀ k : Nat, o.ids i = k → pos k = i) ∧ ∀ k : Nat, (∀ i < m, o.ids i ≠ k) → pos k = 0)
    ⟨fun i hi => absurd hi (Nat.not_lt_zero i), fun _ _ => rfl⟩ cfg.nBatch ?_
  · exact hfold
  · rintro m - pos ⟨hhit, hmiss⟩
    by_cases hm : 0 ≤ o.ids m
    · rw [if_pos hm]
      refine ⟨fun i hi k hk => ?_, fun k hk => ?_⟩
      · by_cases him : i = m
        · rw [him] at hk ⊢
          rw [hk, Int.toNat_natCast, Function.update_self]
        · rw [Function.update_of_ne]
          · exact hhit i (by omega) k hk
          · intro he
            exact him (hinj i m (by omega) (by omega))
      · have := hk m (Nat.lt_succ_self m)
        rw [Function.update_of_ne (by omega)]
        exact hmiss k fun i hi => hk i (by omega)
    · rw [if_neg hm]
      refine ⟨fun i hi k hk => ?_, fun k hk => hmiss k fun i hi => hk i (by omega)⟩
      by_cases him : i = m
      · rw [him] at hk
        omega
      · exact hhit i (by omega) k hk

theorem mapIds_succ (n : Nat) (g : Nat → Nat) (ids : Nat → Int) :
    Outputs.mapIds (n + 1) g ids = Function.update (Outputs.mapIds n g ids) (g n) n := by
  rw [Outputs.mapIds, List.range_succ, List.foldl_append]
  rfl

theorem mapIds_congr {g g' : Nat → Nat} (ids : Nat → Int) : ∀ {n : Nat}, (∀ k < n, g k = g' k) →
    Outputs.mapIds n g ids = Outputs.mapIds n g' ids
  | 0, _ => rfl
  | n + 1, h => by
    rw [mapIds_succ, mapIds_succ, h n (Nat.lt_succ_self n), mapIds_congr ids fun k hk => h k (Nat.lt_succ_of_lt hk)]

theorem mapIds_zero (ids : Nat → Int) (n : Nat) : Outputs.mapIds (n + 1) (fun _ => 0) ids = Function.update ids 0 n := by
  induction n with
  | zero => rfl
  | succ n ih =>
    rw [mapIds_succ, ih, Function.update_idem]

/-- The mappings that are read back. -/
def restoredIds (cfg : Config) (o : Outputs R E) : Nat → Int := Outputs.mapIds o.n (o.outputPos cfg) fun _ => -1

theorem Mapped.outputPos_lt (h : Mapped cfg o) {k : Nat} (hk : k < o.n) : o.outputPos cfg k < cfg.nBatch := by
  obtain ⟨hhit, hmiss⟩ := outputPos_spec cfg o h.inj
  by_cases hex : ∃ i < cfg.nBatch, o.ids i = k
  · obtain ⟨i, hi, hid⟩ := hex
    rw [hhit i hi k hid]
    exact hi
  · rw [hmiss k fun i hi hid => hex ⟨i, hi, hid⟩]
    exact h.room ((Nat.zero_le k).trans_lt hk)

/-- If no token has a row, the last row becomes that of token 0. -/
theorem restoredIds_none (h : ∀ i, o.ids i = -1) {n : Nat} (hn : o.n = n + 1) :
    restoredIds cfg o = Function.update (fun _ => -1) 0 (n : Int) := by
  obtain ⟨_, hmiss⟩ := outputPos_spec cfg o fun i j hi => absurd (h i) hi
  have hzero : ∀ k < o.n, o.outputPos cfg k = (fun _ => 0) k := fun k _ => hmiss k fun i _ => by
    rw [h i]
    omega
  rw [restoredIds, mapIds_congr _ hzero, hn, mapIds_zero]

theorem Mapped.restoredIds_eq (h : Mapped cfg o) (htoken : o.n = 0 ∨ ∃ i, o.ids i ≠ -1) : restoredIds cfg o = o.ids := by
  obtain ⟨hhit, hmiss⟩ := outputPos_spec cfg o h.inj
  have hbatch : ∀ i, o.ids i ≠ -1 → i < cfg.nBatch := fun i hi => ((h.range i).resolve_left hi).1
  rcases h.rows with hfull | hnone | ⟨hlast, hother⟩
  · have hpos : ∀ k < o.n, o.ids (o.outputPos cfg k) = k := by
      intro k hk
      obtain ⟨i, hi⟩ := hfull k hk
      rw [hhit i (hbatch i (by omega)) k hi, hi]
    obtain ⟨hset, hunset⟩ := mapIds_spec (n := o.n) (g := o.outputPos cfg) (fun _ => -1) fun a ha b hb hab => by
      have hb' := hpos b hb
      rw [← hab, hpos a ha] at hb'
      omega
    funext i
    rcases h.range i with hi | ⟨hi, k, hk, hid⟩
    · rw [hi]
      apply hunset i
      intro k hk he
      have := hpos k hk
      rw [he, hi] at this
      omega
    · have := hset k hk
      rwa [hhit i hi k hid, ← hid] at this
  · rcases htoken with hn | ⟨i, hi⟩
    · rw [restoredIds, hn]
      exact (funext hnone).symm
    · exact absurd (hnone i) hi
  · -- the last row is that of token 0
    obtain ⟨hzero, n, hn, hid⟩ := (h.range 0).resolve_left (by omega)
    have hall : ∀ k < o.n, o.outputPos cfg k = (fun _ => 0) k := by
      intro k _
      by_cases hk : o.ids 0 = k
      · exact hhit 0 hzero k hk
      · refine hmiss k fun i _ hi => ?_
        by_cases hi0 : i = 0
        · exact hk (hi0 ▸ hi)
        · rw [hother i hi0] at hi
          omega
    rw [restoredIds, mapIds_congr _ hall, show o.n = (o.n - 1) + 1 by omega, mapIds_zero]
    funext i
    by_cases hi : i = 0
    · rw [hi, Function.update_self, hlast]
    · rw [Function.update_of_ne hi, hother i hi]

/-- What is written. -/
def saved (cfg : Config) (o : Outputs R E) : Saved R E where
  pos := (List.range o.n).map (o.outputPos cfg)
  logits := slice o.logits 0 o.n
  embd := if o.hasEmbd then slice o.embd 0 o.n else []

theorem Mapped.stateWrite (h : Mapped cfg o) : o.stateWrite cfg = some (saved cfg o) := by
  rw [Outputs.stateWrite, if_pos]
  · rfl
  · intro i _ hi
    obtain ⟨_, k, hk, hid⟩ := (h.range i).resolve_left (by omega)
    omega

/-- What is read back. -/
def restored (cfg : Config) (o b : Outputs R E) (embeddings : Bool) (stale : (Nat → R) × (Nat → E)) : Outputs R E where
  ids := restoredIds cfg o
  n := o.n
  logits := putRows stale.1 0 (slice o.logits 0 o.n)
  embd := putRows stale.2 0 (if o.hasEmbd then slice o.embd 0 o.n else [])
  hasEmbd := embeddings
  swaps := b.swaps

theorem Mapped.stateRead (h : Mapped cfg o) (b : Outputs R E) (embeddings : Bool) (stale : (Nat → R) × (Nat → E)) :
    b.stateRead cfg embeddings stale (saved cfg o) =
      if embeddings = false ∧ o.hasEmbd = true ∧ o.n ≠ 0 then
        (false, { restored cfg o b embeddings stale with embd := stale.2 })
      else (true, restored cfg o b embeddings stale) := by
  have hfits : (saved cfg o).pos.takeWhile (fun p => decide (p < cfg.nBatch)) = (saved cfg o).pos := by
    rw [List.takeWhile_eq_self_iff]
    intro p hp
    obtain ⟨k, hk, rfl⟩ := List.mem_map.mp hp
    exact decide_eq_true (h.outputPos_lt (List.mem_range.mp hk))
  have hlen : (saved cfg o).pos.length = o.n := by
    rw [saved, List.length_map, List.length_range]
  have hids : Outputs.mapIds o.n (fun k => (saved cfg o).pos.getD k 0) (fun _ => -1) = restoredIds cfg o := by
    apply mapIds_congr
    intro k hk
    rw [saved, List.getD_eq_getElem?_getD, List.getElem?_map, List.getElem?_range hk]
    rfl
  have hembd : (saved cfg o).embd ≠ [] ↔ o.hasEmbd = true ∧ o.n ≠ 0 := by
    show (if o.hasEmbd then slice o.embd 0 o.n else []) ≠ [] ↔ _
    by_cases he : o.hasEmbd = true
    · rw [if_pos he, ← List.length_pos_iff, length_slice, Nat.pos_iff_ne_zero]
      exact ⟨fun hn => ⟨he, hn⟩, fun hn => hn.2⟩
    · rw [if_neg he]
      exact ⟨fun hn => absurd rfl hn, fun hn => absurd hn.1 he⟩
  rw [Outputs.stateRead]
  dsimp only
  rw [hfits, if_neg (lt_irrefl _), hlen]
  dsimp only [Outputs.reserve]
  rw [hids]
  by_cases hfull : embeddings = false ∧ o.hasEmbd = true ∧ o.n ≠ 0
  · rw [if_pos hfull, if_pos ⟨hfull.1, hembd.mpr hfull.2⟩]
    rfl
  · rw [if_neg hfull, if_neg fun hc => hfull ⟨hc.1, hembd.mp hc.2⟩]
    rfl

theorem Mapped.read (h : Mapped cfg o) (b : Outputs R E) (embeddings : Bool) (stale : (Nat → R) × (Nat → E)) :
    Mapped cfg (b.stateRead cfg embeddings stale (saved cfg o)).2 := by
  have hread : (b.stateRead cfg embeddings stale (saved cfg o)).2.ids = restoredIds cfg o ∧
      (b.stateRead cfg embeddings stale (saved cfg o)).2.n = o.n := by
    rw [h.stateRead]
    split_ifs <;> exact ⟨rfl, rfl⟩
  by_cases htoken : o.n = 0 ∨ ∃ i, o.ids i ≠ -1
  · exact h.congr (hread.1.trans (h.restoredIds_eq htoken)) hread.2
  · rw [not_or, not_exists] at htoken
    obtain ⟨n, hn⟩ := Nat.exists_eq_succ_of_ne_zero htoken.1
    have hnone : ∀ i, o.ids i = -1 := fun i => not_not.mp (htoken.2 i)
    have hids := hread.1.trans (restoredIds_none hnone hn)
    have hzero : (b.stateRead cfg embeddings stale (saved cfg o)).2.ids 0 = n := by
      rw [hids, Function.update_self]
    have hother : ∀ i ≠ 0, (b.stateRead cfg embeddings stale (saved cfg o)).2.ids i = -1 := by
      intro i hi
      rw [hids, Function.update_of_ne hi]
    have hroom := h.room (by omega)
    refine ⟨fun i => ?_, fun i j hi hij => ?_, .inr (.inr ⟨?_, hother⟩), fun _ => hroom⟩
    · by_cases hi : i = 0
      · rw [hi]
        exact .inr ⟨hroom, n, by rw [hread.2]; omega, hzero⟩
      · exact .inl (hother i hi)
    · by_cases hi0 : i = 0
      · by_contra hne
        rw [hi0, hother j fun hj => hne (hi0.trans hj.symm), hzero] at hij
        omega
      · exact absurd (hother i hi0) hi
    · rw [hzero, hread.2, hn]
      rfl

theorem mapped_of_reachable (h : Outputs.Reachable cfg o) : Mapped cfg o := by
  induction h with
  | start => exact mapped_none (fun _ => rfl) fun hpos => absurd hpos (lt_irrefl 0)
  | encode _ hcall ih => exact ih.encode hcall
  | encodeFails _ hcall _ => exact Mapped.encodeFails hcall
  | decode _ hcall ih => exact ih.decode hcall
  | decodeFails _ hcall _ => exact Mapped.decodeFails hcall
  | get _ ih => exact ih.congr rfl rfl
  | read _ _ hs iha _ =>
    rw [iha.stateWrite] at hs
    cases hs
    exact iha.read _ _ _

/-! ## The round trip -/

theorem getLogitsIth_eq (cfg : Config) (o : Outputs R E) (i : Int) :
    (o.getLogitsIth cfg i).1 = (o.index cfg i).map fun k => o.logits (moved o.swaps k) := by
  show (o.index cfg i).map (reorder o.swaps o.logits) = _
  rw [reorder_eq_moved]

theorem getEmbeddingsIth_eq (cfg : Config) (o : Outputs R E) (i : Int) :
    (o.getEmbeddingsIth cfg i).1 = if o.hasEmbd then (o.index cfg i).map fun k => o.embd (moved o.swaps k) else none := by
  show (if o.hasEmbd then (o.index cfg i).map (if o.hasEmbd then reorder o.swaps o.embd else o.embd) else none) = _
  split_ifs
  · rw [reorder_eq_moved]
  · rfl

theorem index_lt {i : Int} {k : Nat} (h : o.index cfg i = some k) : k < o.n := by
  unfold Outputs.index at h
  dsimp only at h
  split_ifs at h with _ hlt
  all_goals
    cases h
    omega

/-- Counted from the end, every row can be asked for. -/
theorem index_neg (cfg : Config) (o : Outputs R E) {k : Nat} (hk : k < o.n) : o.index cfg ((k : Int) - o.n) = some k := by
  have hneg : (k : Int) - o.n < 0 := by omega
  have hrow : (o.n : Int) + (k - o.n) = k := by omega
  have hnot : ¬(k : Int) < 0 := by omega
  unfold Outputs.index
  dsimp only
  rw [if_pos hneg, hrow, if_neg hnot, Int.toNat_natCast, if_neg (not_le.mpr hk)]

theorem index_zero (o : Outputs R E) (hroom : 0 < cfg.nBatch) :
    o.index cfg 0 = if o.ids 0 < 0 then none else if o.n ≤ (o.ids 0).toNat then none else some (o.ids 0).toNat := by
  unfold Outputs.index
  dsimp only
  rw [if_neg (lt_irrefl (0 : Int)), Int.toNat_zero, if_neg (not_le.mpr hroom)]

theorem index_congr {o' : Outputs R E} (hids : o'.ids = o.ids) (hn : o'.n = o.n) (i : Int) :
    o'.index cfg i = o.index cfg i := by
  unfold Outputs.index
  rw [hids, hn]

theorem index_none (h : o.n = 0) (i : Int) : o.index cfg i = none := by
  cases hi : o.index cfg i with
  | none => rfl
  | some k =>
    have := index_lt hi
    omega

theorem Keeps.sameOutputs {b : Outputs R E} {embeddings : Bool} {stale : (Nat → R) × (Nat → E)} (h : Mapped cfg o)
    (hkeeps : Keeps o b embeddings stale) : SameOutputs cfg o (restored cfg o b embeddings stale) := by
  intro i
  rw [getLogitsIth_eq, getLogitsIth_eq, getEmbeddingsIth_eq, getEmbeddingsIth_eq]
  by_cases hn : o.n = 0
  · rw [index_none hn, index_none (o := restored cfg o b embeddings stale) hn]
    refine ⟨rfl, ?_⟩
    split_ifs <;> rfl
  have hset := hkeeps.setting.resolve_left hn
  have hids : (restored cfg o b embeddings stale).ids = o.ids := h.restoredIds_eq hkeeps.token
  rw [index_congr hids rfl]
  cases hi : o.index cfg i with
  | none =>
    refine ⟨rfl, ?_⟩
    split_ifs <;> rfl
  | some k =>
    have hk := index_lt hi
    refine ⟨congrArg some (hkeeps.logits k hk), ?_⟩
    show (if embeddings then _ else none) = _
    rw [hset]
    by_cases hembd : o.hasEmbd = true
    · rw [if_pos hembd, if_pos hembd]
      have hrow := hkeeps.embd hembd k hk
      show some (putRows stale.2 0 (if o.hasEmbd then slice o.embd 0 o.n else []) (moved b.swaps k)) = _
      rw [if_pos hembd, hrow]
      rfl
    · rw [if_neg hembd, if_neg hembd]

theorem keeps_of_sameOutputs {b : Outputs R E} {embeddings : Bool} {stale : (Nat → R) × (Nat → E)} (h : Mapped cfg o)
    (hok : ¬(embeddings = false ∧ o.hasEmbd = true ∧ o.n ≠ 0))
    (hsame : SameOutputs cfg o (restored cfg o b embeddings stale)) : Keeps o b embeddings stale := by
  have hlogits := fun i => (hsame i).1
  have hembd := fun i => (hsame i).2
  simp only [getLogitsIth_eq] at hlogits
  simp only [getEmbeddingsIth_eq] at hembd
  have hfromEnd : ∀ k < o.n, (restored cfg o b embeddings stale).index cfg ((k : Int) - o.n) = some k := fun _ hk =>
    index_neg cfg (restored cfg o b embeddings stale) hk
  have hsetting : o.n = 0 ∨ embeddings = o.hasEmbd := by
    by_contra hno
    rw [not_or] at hno
    have hyes : embeddings = true ∧ o.hasEmbd = false := by
      cases embeddings <;> cases hhas : o.hasEmbd
      · exact absurd hhas.symm hno.2
      · exact absurd ⟨rfl, hhas, hno.1⟩ hok
      · exact ⟨rfl, rfl⟩
      · exact absurd hhas.symm hno.2
    have hlast := hembd (((0 : Nat) : Int) - o.n)
    rw [hfromEnd 0 (Nat.pos_of_ne_zero hno.1), hyes.2,
      if_pos (show (restored cfg o b embeddings stale).hasEmbd = true from hyes.1)]
      at hlast
    cases hlast
  refine ⟨?_, hsetting, fun k hk => ?_, fun hhas k hk => ?_⟩
  · -- a row without a token is read back as the row of token 0, which has none
    by_contra hno
    rw [not_or, not_exists] at hno
    have hnone : ∀ i, o.ids i = -1 := fun i => not_not.mp (hno.2 i)
    obtain ⟨n, hn⟩ := Nat.exists_eq_succ_of_ne_zero hno.1
    have hroom := h.room (by omega)
    have hbefore : o.index cfg 0 = none := by
      rw [index_zero o hroom, hnone, if_pos (by omega)]
    have hafter : (restored cfg o b embeddings stale).index cfg 0 = some n := by
      have hid : (restored cfg o b embeddings stale).ids 0 = n := by
        show restoredIds cfg o 0 = n
        rw [restoredIds_none hnone hn, Function.update_self]
      have hlt : n < (restored cfg o b embeddings stale).n := by
        show n < o.n
        omega
      rw [index_zero _ hroom, hid, if_neg (by omega), Int.toNat_natCast, if_neg (not_le.mpr hlt)]
    have hrow := hlogits 0
    rw [hbefore, hafter] at hrow
    cases hrow
  · have hrow := hlogits ((k : Int) - o.n)
    rw [index_neg cfg o hk, hfromEnd k hk] at hrow
    exact Option.some.inj hrow
  · have hset : embeddings = true := (hsetting.resolve_left (by omega)).trans hhas
    have hrow := hembd ((k : Int) - o.n)
    rw [index_neg cfg o hk, hfromEnd k hk, if_pos hhas,
      if_pos (show (restored cfg o b embeddings stale).hasEmbd = true from hset)]
      at hrow
    have hread := Option.some.inj hrow
    dsimp only [restored] at hread
    rwa [if_pos hhas] at hread

/-- **When a state survives**: exactly when `Keeps` says so, whatever has happened to the two contexts. -/
theorem stateRead_iff {a : Outputs R E} (ha : Outputs.Reachable cfg a) (b : Outputs R E) (embeddings : Bool)
    (stale : (Nat → R) × (Nat → E)) :
    ∃ s, a.stateWrite cfg = some s ∧
      ((b.stateRead cfg embeddings stale s).1 = true ∧ SameOutputs cfg a (b.stateRead cfg embeddings stale s).2 ↔
        Keeps a b embeddings stale) := by
  have hmapped := mapped_of_reachable ha
  refine ⟨_, hmapped.stateWrite, ?_⟩
  rw [hmapped.stateRead]
  split_ifs with hfull
  · refine ⟨fun h => h.1.elim, fun hkeeps => ?_⟩
    have hset := hkeeps.setting.resolve_left hfull.2.2
    rw [hfull.1, hfull.2.1] at hset
    cases hset
  · exact ⟨fun h => keeps_of_sameOutputs hmapped hfull h.2, fun hkeeps => ⟨rfl, hkeeps.sameOutputs hmapped⟩⟩

/-- Rows need not be looked at: it is enough that the pending swaps of the two agree, within the rows. -/
theorem Keeps.of_moved {a b : Outputs R E} (stale : (Nat → R) × (Nat → E)) (htoken : a.n = 0 ∨ ∃ i, a.ids i ≠ -1)
    (hmoved : ∀ k < a.n, moved b.swaps k = moved a.swaps k ∧ moved a.swaps k < a.n) : Keeps a b a.hasEmbd stale := by
  refine ⟨htoken, .inr rfl, fun k hk => ?_, fun _ k hk => ?_⟩
  · obtain ⟨heq, hlt⟩ := hmoved k hk
    rw [heq, putRows_slice hlt]
  · obtain ⟨heq, hlt⟩ := hmoved k hk
    rw [heq, putRows_slice hlt]

end Mapped

/-! ## Two sequences whose rows have changed places -/

/-- The context behind the decode of the two sequences: its second and third row still have to be swapped. -/
theorem decodeAlternating_spec : ∃ o, (emptyRun.out.decode streamsCfg true true (.equal true) alternating) = some (true, o) ∧
    o.n = 4 ∧ o.hasEmbd = false ∧ o.swaps = [(1, 2)] ∧ o.ids 0 = 0 ∧ o.ids 1 = 1 ∧ o.logits 1 = 12 ∧ o.logits 2 = 11 := by
  have hrun : (emptyRun.out.decode streamsCfg true true (.equal true) alternating).map (fun r => (r.1, r.2.hasEmbd)) =
      some (true, false) := by decide
  have hids : (emptyRun.out.decode streamsCfg true true (.equal true) alternating).map
    (fun r => (r.2.swaps, r.2.ids 0, r.2.ids 1)) =
      some ([(1, 2)], 0, 1) := by decide
  have hrows : (emptyRun.out.decode streamsCfg true true (.equal true) alternating).map
      (fun r => (r.2.n, r.2.logits 1, r.2.logits 2)) = some (4, 12, 11) := by decide
  obtain ⟨⟨ok, o⟩, hcall, hval⟩ := Option.map_eq_some_iff.mp hrun
  rw [hcall] at hids hrows
  obtain ⟨rfl, hembd⟩ := Prod.mk.inj hval
  obtain ⟨hswaps, hid⟩ := Prod.mk.inj (Option.some.inj hids)
  obtain ⟨hid, hid'⟩ := Prod.mk.inj hid
  obtain ⟨hn, hrow⟩ := Prod.mk.inj (Option.some.inj hrows)
  obtain ⟨h1, h2⟩ := Prod.mk.inj hrow
  exact ⟨o, hcall, hn, hembd, hswaps, hid, hid', h1, h2⟩

/-- Saved behind the first row that is asked for, the state survives. -/
theorem stateRead_iff_alternating : ∃ a s, Outputs.Reachable streamsCfg a ∧ a.n = 4 ∧ a.stateWrite streamsCfg = some s ∧
    SameOutputs streamsCfg a (emptyRun.out.stateRead streamsCfg a.hasEmbd (emptyRun.out.logits, emptyRun.out.embd) s).2 := by
  obtain ⟨o, hcall, hn, -, -, hid, -⟩ := decodeAlternating_spec
  have hreach : Outputs.Reachable streamsCfg o.outputReorder := .get (.decode (.start _ _ _) hcall)
  obtain ⟨s, hs, hiff⟩ := stateRead_iff hreach emptyRun.out o.hasEmbd (emptyRun.out.logits, emptyRun.out.embd)
  have htoken : ∃ i, o.ids i ≠ -1 := ⟨0, by omega⟩
  have hkeeps := Keeps.of_moved (b := emptyRun.out) (a := o.outputReorder) (emptyRun.out.logits, emptyRun.out.embd)
    (.inr htoken)
    fun k hk => ⟨rfl, hk⟩
  exact ⟨_, s, hreach, hn, hs, (hiff.mpr hkeeps).2⟩

/-- Saved before that, token 1 has the row of token 2. -/
theorem stateRead_pending_swaps :
    ¬ ∀ a b : Outputs Nat Unit, Outputs.Reachable streamsCfg a → Outputs.Reachable streamsCfg b → b.hasEmbd = a.hasEmbd →
      ∃ s, a.stateWrite streamsCfg = some s ∧ SameOutputs streamsCfg a
        (b.stateRead streamsCfg b.hasEmbd (b.logits, b.embd) s).2 := by
  intro h
  obtain ⟨o, hcall, hn, hembd, hswaps, -, hid, h1, h2⟩ := decodeAlternating_spec
  have hreach : Outputs.Reachable streamsCfg o := .decode (.start _ _ _) hcall
  obtain ⟨s, hs, hsame⟩ := h o emptyRun.out hreach (.start _ _ _) hembd.symm
  have hmapped := mapped_of_reachable hreach
  obtain rfl : saved streamsCfg o = s := Option.some.inj (hmapped.stateWrite.symm.trans hs)
  have hrow := (hsame 1).1
  have hids : (restored streamsCfg o emptyRun.out emptyRun.out.hasEmbd (emptyRun.out.logits, emptyRun.out.embd)).ids =
    o.ids :=
    hmapped.restoredIds_eq (.inr ⟨1, by omega⟩)
  rw [hmapped.stateRead, if_neg (by rw [hembd]; simp), getLogitsIth_eq, getLogitsIth_eq, index_congr hids rfl] at hrow
  have hindex : o.index streamsCfg 1 = some 1 := by
    unfold Outputs.index
    rw [show (1 : Int).toNat = 1 from rfl, hid, hn]
    rfl
  have hwas : o.logits (moved o.swaps 1) = 11 := by
    rw [hswaps]
    exact h2
  have his : (restored streamsCfg o emptyRun.out emptyRun.out.hasEmbd (emptyRun.out.logits, emptyRun.out.embd)).logits
      (moved emptyRun.out.swaps 1) = 12 := by
    show putRows emptyRun.out.logits 0 (slice o.logits 0 o.n) 1 = 12
    rw [putRows_slice (by omega), h1]
  rw [hindex, Option.map_some, Option.map_some, hwas] at hrow
  rw [show (restored streamsCfg o emptyRun.out emptyRun.out.hasEmbd (emptyRun.out.logits, emptyRun.out.embd)).swaps =
    emptyRun.out.swaps from rfl, his] at hrow
  cases hrow

end S2Moe.Context
