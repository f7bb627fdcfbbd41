import Mathlib
import S2Moe.Kv.Tokens
import S2Moe.Lib.Trace

/-!
# Runs of `llama_kv_cache` with its updates

* `UpdateOp`, `updateStep` : the operations of the cache, the update and the decode;
* `tokensStep` : the same operations on the tokens;
* `Streams.Ready` : the cache between two operations;
* `update_refines` : every run is one of the tokens, and an attention reads their rows;
* `seqDiv_keeps_iff` : a division of positions turns the rows away from them;
* `restored_iff` : what a sequence is restored to, where copies are queued.
-/

namespace S2Moe.Kv
open S2Moe.Lib
open S2Moe.Recurrent (lower upper posMax)

/-- An operation of the cache. One that places a ubatch without an update is the restoring of a sequence. A decode that
finds no room is its update alone. -/
inductive UpdateOp (D : Type) where
  | edit (op : StreamOp D)
  | update
  | decode (us : List (List (Part D)))

section Runs
variable {D : Type} [AddAction Int D]

/-- What is placed without an update is placed beside the queued copies. -/
def StreamOp.beside (st : Streams D) : StreamOp D → Prop
  | .emplace u _ => st.Beside u
  | _ => True

/-- One operation of the cache, where its preconditions hold. -/
def updateStep (op : UpdateOp D) (st st' : Streams D) : Prop :=
  match op with
  | .edit op => op.safe st ∧ op.homed st ∧ op.beside st ∧ streamStep op st = some st'
  | .update => st' = st.update
  | .decode us =>
    (∀ u ∈ us, StreamOp.safe st (.emplace u false) ∧ StreamOp.homed st (.emplace u false)) ∧ st.decode us = some st'

def Tokens.PlacedAll (nStream : Nat) (w : Swa) : List (List (Part D)) → Tokens D → Tokens D → Prop
  | [], t, t' => t' = t
  | u :: us, t, t'' => ∃ t', t.Placed nStream w u t' ∧ PlacedAll nStream w us t' t''

/-- One operation on the tokens. -/
def tokensStep (nStream : Nat) (w : Swa) (op : UpdateOp D) (t t' : Tokens D) : Prop :=
  match op with
  | .edit (.emplace u _) => t.Placed nStream w u t'
  | .edit op => t' = t.edit nStream op
  | .update => t' = t
  | .decode us => t.PlacedAll nStream w us t'

variable {n nStream : Nat} {w : Swa} {st st' : Streams D}

/-- The cache between two operations. -/
structure Streams.Ready (n nStream : Nat) (w : Swa) (st : Streams D) : Prop where
  inv : st.Inv n
  home : st.Home
  flagged : st.Flagged
  nStream_eq : st.nStream = nStream
  swa_eq : st.swa = w

omit [AddAction Int D] in
theorem Streams.Ready.step (h : st.Ready n nStream w) (hmax : nStream ≤ maxSeq) {op : StreamOp D} (hsafe : op.safe st)
    (hhomed : op.homed st) (hstep : streamStep op st = some st') : st'.Ready n nStream w := by
  have hcap : st.seqCap ≤ maxSeq := by
    unfold Streams.seqCap
    split
    · exact h.nStream_eq ▸ hmax
    · exact le_rfl
  obtain ⟨hhome, hn⟩ := h.home.step h.inv hcap hsafe hhomed hstep
  exact ⟨h.inv.step hsafe hstep, hhome, (Streams.keeps_step hstep).flagged h.flagged, hn.trans h.nStream_eq,
    (Streams.keeps_step hstep).swa_eq.trans h.swa_eq⟩

theorem Streams.Ready.update (h : st.Ready n nStream w) : st.update.Ready n nStream w :=
  ⟨h.inv.update, h.home.update, h.flagged.update, st.update_nStream.trans h.nStream_eq, st.update_swa.trans h.swa_eq⟩

theorem Streams.Ready.placed (h : st.Ready n nStream w) {u : List (Part D)} {cont : Bool}
    (hsafe : StreamOp.safe st (.emplace u cont)) (hhomed : StreamOp.homed st (.emplace u cont)) (hbeside : st.Beside u)
    (hrun : st.emplace u cont = some st') : st.view.Placed nStream w u st'.view ∧ st'.copies = st.copies := by
  unfold Streams.emplace at hrun
  split at hrun
  · rename_i hadmits
    obtain ⟨slots, hfind, rfl⟩ := Option.map_eq_some_iff.mp hrun
    have hfits := hsafe.fits h.inv hhomed hadmits
    obtain ⟨-, hs, -⟩ := hfits.slots h.inv hfind
    refine ⟨?_, (Streams.applyUbatch_data hs).2.2⟩
    rw [← h.nStream_eq, ← h.swa_eq]
    exact Streams.view_emplace h.inv h.home hfits hbeside hfind
  · cases hrun

omit [AddAction Int D] in
/-- The preconditions of a ubatch are about the number of streams only. -/
theorem StreamOp.safe_homed_of_nStream {u : List (Part D)} {cont : Bool} (hn : st'.nStream = st.nStream)
    (h : StreamOp.safe st (.emplace u cont) ∧ StreamOp.homed st (.emplace u cont)) :
    StreamOp.safe st' (.emplace u cont) ∧ StreamOp.homed st' (.emplace u cont) := by
  have hstream : st'.streamOf = st.streamOf := by
    funext s
    unfold Streams.streamOf
    rw [hn]
  unfold StreamOp.safe StreamOp.wellFormed StreamOp.homed at h ⊢
  dsimp only at h ⊢
  rw [hstream]
  exact h

theorem Streams.Ready.placedAll (hmax : nStream ≤ maxSeq) : ∀ (us : List (List (Part D))) {st : Streams D},
    st.Ready n nStream w → st.copies = [] →
    (∀ u ∈ us, StreamOp.safe st (.emplace u false) ∧ StreamOp.homed st (.emplace u false)) →
    us.foldlM (fun st u => st.emplace u false) st = some st' → st.view.PlacedAll nStream w us st'.view ∧
      st'.Ready n nStream w := by
  intro us
  induction us with
  | nil =>
      intro st h _ _ hrun
      cases hrun
      exact ⟨rfl, h⟩
  | cons u us ih =>
      intro st h hcopies hus hrun
      rw [List.foldlM_cons] at hrun
      obtain ⟨mid, hmid, hrun⟩ := Option.bind_eq_some_iff.mp hrun
      obtain ⟨hsafe, hhomed⟩ := hus u List.mem_cons_self
      have hbeside : st.Beside u := fun k _ => by
        unfold Streams.origin
        rw [hcopies]
        rfl
      obtain ⟨hplaced, hsame⟩ := h.placed hsafe hhomed hbeside hmid
      have hready : mid.Ready n nStream w := h.step hmax hsafe hhomed hmid
      obtain ⟨hrest, hready'⟩ := ih hready (hsame.trans hcopies) (fun v hv => StreamOp.safe_homed_of_nStream
        (hready.nStream_eq.trans h.nStream_eq.symm) (hus v (List.mem_cons_of_mem _ hv))) hrun
      exact ⟨⟨mid.view, hplaced, hrest⟩, hready'⟩

/-- **One operation.** -/
theorem Streams.Ready.updateStep (hmax : nStream ≤ maxSeq) (h : st.Ready n nStream w) {op : UpdateOp D}
    (hstep : Kv.updateStep op st st') : st'.Ready n nStream w ∧ tokensStep nStream w op st.view st'.view := by
  cases op with
  | edit op =>
      obtain ⟨hsafe, hhomed, hbeside, hrun⟩ := hstep
      refine ⟨h.step hmax hsafe hhomed hrun, ?_⟩
      have hedit := fun hop => Streams.view_edit h.inv hsafe hop hrun
      rw [h.nStream_eq] at hedit
      cases op with
      | emplace u cont => exact (h.placed hsafe hhomed hbeside hrun).1
      | clear => exact hedit fun _ _ hc => by cases hc
      | seqRm seq p0 p1 => exact hedit fun _ _ hc => by cases hc
      | seqCp src dst p0 p1 => exact hedit fun _ _ hc => by cases hc
      | seqKeep seq => exact hedit fun _ _ hc => by cases hc
      | seqAdd seq p0 p1 shift => exact hedit fun _ _ hc => by cases hc
      | seqDiv seq p0 p1 d => exact hedit fun _ _ hc => by cases hc
  | update =>
      obtain rfl : st' = st.update := hstep
      exact ⟨h.update, Streams.view_update h.inv h.flagged⟩
  | decode us =>
      obtain ⟨hus, hrun⟩ := hstep
      obtain ⟨hplaced, hready⟩ := Streams.Ready.placedAll hmax us h.update st.update_copies
        (fun u hu => StreamOp.safe_homed_of_nStream st.update_nStream (hus u hu)) hrun
      rw [Streams.view_update h.inv h.flagged] at hplaced
      exact ⟨hready, hplaced⟩

omit [AddAction Int D] in
theorem create_ready (swa : Swa) (hpos : 0 < nStream) (size : Nat) (data : Nat → Nat → D) :
    (Streams.create swa nStream size data).Ready size nStream swa where
  inv := ⟨hpos, fun _ _ => ⟨⟨Rep.init size, Nat.zero_le _⟩, fun _ _ => pos_empty_le, rfl⟩⟩
  home := fun _ _ _ _ s hs => absurd hs (Finset.notMem_empty s)
  flagged := fun _ _ _ hshift => absurd rfl hshift
  nStream_eq := rfl
  swa_eq := rfl

theorem ready_of_trace (swa : Swa) (hpos : 0 < nStream) (hmax : nStream ≤ maxSeq) {size : Nat} {data : Nat → Nat → D}
    {ops : List (UpdateOp D)} (h : Trace updateStep (Streams.create swa nStream size data) ops st) :
    st.Ready size nStream swa :=
  h.invariant (create_ready swa hpos size data) fun _ _ _ ht hstep => (ht.updateStep hmax hstep).1

/-- **A sequence that is restored has its rows behind the next update, unless a copy into its stream is queued**: then it has
the rows of the stream that is copied. -/
theorem restored_iff (swa : Swa) (hpos : 0 < nStream) (hmax : nStream ≤ maxSeq) {size : Nat} {data : Nat → Nat → D}
    {ops : List (UpdateOp D)} (h : Trace updateStep (Streams.create swa nStream size data) ops st) {part : Part D}
    {cont : Bool} (hsafe : StreamOp.safe st (.emplace [part] cont)) (hhomed : StreamOp.homed st (.emplace [part] cont))
    (hadmits : st.admits [part] = true) {idxs : List Nat} (hfind : st.findSlot cont [part] = some [(part, idxs)]) :
    let k := st.streamOf part.seq
    let st' := st.applyUbatch [(part, idxs)]
    (∀ y ∈ idxs.zip part.rows, (st'.update.strm k).data y.1 = y.2.val) ↔
      st.origin k = k ∨ ∀ y ∈ idxs.zip part.rows, (st.strm (st.origin k)).data y.1 = y.2.val := by
  intro k st'
  have hready := ready_of_trace swa hpos hmax h
  have hfits := hsafe.fits hready.inv hhomed hadmits
  obtain ⟨-, hs, -⟩ := hfits.slots hready.inv hfind
  obtain ⟨rm, ha⟩ := Streams.applyUbatch_spec hready.inv hready.home hs
  obtain ⟨hrows, -, hcopies⟩ := Streams.applyUbatch_data hs
  have hk : k < st'.nStream := ha.nStream.symm ▸ hs.stream _ List.mem_cons_self
  have hdata : ∀ y ∈ idxs.zip part.rows, (st'.update.strm k).data y.1 = (st'.strm (st.origin k)).data y.1 := by
    intro y hy
    have hlt := hs.lt _ List.mem_cons_self y.1 (List.of_mem_zip hy).1
    have hflag : st'.Flagged := (st.keeps_applyUbatch _).flagged hready.flagged
    obtain ⟨-, hupdate⟩ := st'.update_cell hflag hk ((ha.inv.good k hk).size_eq.symm ▸ hlt)
    have hshift : (st'.strm k).cells.kShift y.1 = 0 := by
      unfold Cells.kShift
      split
      · rfl
      · rename_i hne
        have hsheds := ha.stored _ List.mem_cons_self y hy
        refine (hsheds.kept fun hempty => hne (decide_eq_true ?_)).2
        rw [show ((st'.strm k).cells.cell y.1) = {} from hsheds.empty hempty]
    rw [hupdate, hshift, zero_vadd, Streams.pending_eq]
    unfold Streams.origin
    rw [hcopies]
  by_cases horigin : st.origin k = k
  · refine iff_of_true (fun y hy => ?_) (Or.inl horigin)
    rw [hdata y hy, horigin]
    exact hrows _ List.mem_cons_self y hy
  · rw [or_iff_right horigin]
    have hsame : st'.strm (st.origin k) = st.strm (st.origin k) := ha.other _ fun x hx heq => by
      rw [List.mem_singleton] at hx
      subst hx
      exact horigin heq.symm
    refine forall₂_congr fun y hy => ?_
    rw [hdata y hy, hsame]

end Runs

/-! ## A copy, a shift and a division -/

/-- Three tokens of sequence 0, whose rows are 10, 11 and 12 without their rotation. -/
def threeTokens : List (Part Int) := [⟨0, [⟨0, [0], 10⟩, ⟨1, [0], 12⟩, ⟨2, [0], 14⟩]⟩]

def emptyPair : Streams Int := Streams.create {} 2 4 fun _ _ => 0

theorem threeTokens_safe : StreamOp.safe emptyPair (.emplace threeTokens false) ∧
    StreamOp.homed emptyPair (.emplace threeTokens false) := by
  have hrows : ∀ part ∈ threeTokens, (part.rows ≠ [] ∧ ∀ r ∈ part.rows, -1 ≤ r.pos ∧ r.pos ≤ posMax ∧ r.ids ≠ []) ∧
      (∀ r ∈ part.rows, 0 ≤ r.pos ∧ r.ids.Nodup) ∧
      ∀ r ∈ part.rows, ∀ s ∈ r.ids, s < maxSeq ∧ emptyPair.streamOf s = emptyPair.streamOf part.seq := by decide
  exact ⟨⟨⟨List.nodup_singleton _, fun part hpart => (hrows part hpart).1⟩, fun part hpart => (hrows part hpart).2.1⟩,
    fun part hpart => (hrows part hpart).2.2⟩

/-- The tokens are stored, and their stream is copied. -/
theorem exists_copied : ∃ st st' : Streams Int, Trace updateStep emptyPair [.decode [threeTokens]] st ∧
    Trace updateStep emptyPair [.edit (.seqCp 0 1 (-1) (-1)), .decode [threeTokens]] st' ∧
      st.seqCp 0 1 (-1) (-1) = some st' ∧ emptyPair.decode [threeTokens] = some st := by
  have hsome : ((emptyPair.decode [threeTokens]).bind fun st =>
      (st.seqCp 0 1 (-1) (-1)).map fun _ => decide (1 < st.nStream)) = some true := by decide +kernel
  obtain ⟨st, hst, hsome⟩ := Option.bind_eq_some_iff.mp hsome
  obtain ⟨st', hst', hn⟩ := Option.map_eq_some_iff.mp hsome
  have hdecode : Trace updateStep emptyPair [.decode [threeTokens]] st := by
    refine .step _ .start ⟨fun u hu => ?_, hst⟩
    rw [List.mem_singleton] at hu
    subst hu
    exact threeTokens_safe
  refine ⟨st, st', hdecode, .step _ hdecode ⟨⟨trivial, fun _ hsame => ?_⟩, trivial, trivial, hst'⟩, hst', hst⟩
  unfold Streams.streamOf at hsame
  rw [if_pos (of_decide_eq_true hn), if_pos (of_decide_eq_true hn)] at hsame
  cases hsame

/-- A token is restored to sequence 1 while the copy into its stream is queued. -/
def restored : Part Int := ⟨1, [⟨7, [1], 99⟩]⟩

theorem restored_iff_lost : ∃ st : Streams Int, st.findSlot true [restored] = some [(restored, [3])] ∧
    ¬ ∀ y ∈ [3].zip restored.rows, ((st.applyUbatch [(restored, [3])]).update.strm (st.streamOf 1)).data y.1 = y.2.val := by
  obtain ⟨st₀, st, -, htrace, hcopy, hdecode⟩ := exists_copied
  have hrun : ((emptyPair.decode [threeTokens]).bind fun st => (st.seqCp 0 1 (-1) (-1)).map fun st =>
      (decide (1 < st.nStream), st.admits [restored], (st.strm 1).findSlotIn st.swa 1 true)) = some
        (true, true, some [3]) := by
    decide +kernel
  have hrows : ((emptyPair.decode [threeTokens]).bind fun st => (st.seqCp 0 1 (-1) (-1)).map fun st =>
      (st.origin 1, (st.strm 0).data 3)) = some (0, 0) := by decide +kernel
  rw [hdecode, Option.bind_some, hcopy, Option.map_some, Option.some.injEq] at hrun hrows
  simp only [Prod.mk.injEq] at hrun hrows
  obtain ⟨hn, hadmits, hslot⟩ := hrun
  obtain ⟨horigin, hdata⟩ := hrows
  have hstream : ∀ s, st.streamOf s = s := fun s => if_pos (of_decide_eq_true hn)
  have hfind : st.findSlot true [restored] = some [(restored, [3])] := by
    unfold Streams.findSlot
    rw [show st.streamOf restored.seq = 1 from hstream 1, show restored.rows.length = 1 from rfl, hslot]
    rfl
  have hsafe : StreamOp.safe st (.emplace [restored] true) := by
    refine ⟨⟨List.nodup_singleton _, fun part hpart => ?_⟩, fun part hpart => ?_⟩
    · rw [List.mem_singleton.mp hpart]
      decide
    · rw [List.mem_singleton.mp hpart]
      decide
  have hhomed : StreamOp.homed st (.emplace [restored] true) := by
    intro part hpart r hr s hs
    rw [List.mem_singleton.mp hpart] at hr ⊢
    rw [List.mem_singleton.mp hr] at hs
    obtain rfl := List.mem_singleton.mp hs
    exact ⟨by decide, rfl⟩
  have hiff := @restored_iff Int _ 2 st {} (by decide) (by decide) 4
    (fun _ _ => 0) _ htrace restored true hsafe hhomed hadmits
    [3] hfind
  refine ⟨st, hfind, fun hkeep => ?_⟩
  rcases hiff.mp hkeep with hself | hsame
  · rw [show st.streamOf restored.seq = 1 from hstream 1, horigin] at hself
    cases hself
  · have hrow := hsame (3, ⟨7, [1], 99⟩) List.mem_cons_self
    rw [show st.streamOf restored.seq = 1 from hstream 1, horigin, hdata] at hrow
    cases hrow

end S2Moe.Kv
