import S2Moe.Alloc.Blocks

/-!
# The chunks of the allocator

* `ChunkInv`, `Inv` : live and free blocks tile each chunk, with room between the free ones;
* `Tiled` : what the allocator promises;
* `Op.safe` : an empty allocation is not freed inside a block, and no block is removed from a full list;
* `reaches_tiled` : in every run of such calls the chunks are `Tiled`, and the next call goes well; `empty_not_tiled` : a run
with an empty tensor.
-/

namespace S2Moe.Alloc
open S2Moe.Lib

/-! ## The invariant of a chunk -/

/-- The place lies inside the span, not at one of its ends. -/
def Around (b : Span) (x : Nat) : Prop := b.offset < x ∧ x < b.stop

def maxStop (bs : List Span) : Nat := (bs.map Span.stop).foldr max 0

structure ChunkInv (alignment : Nat) (chunk : Chunk) (live made : List Span) : Prop where
  tiled : ∀ x, hits live x + hits chunk.freeBlocks x = if x < chunk.capacity then 1 else 0
  apart : Apart chunk.freeBlocks
  inside : ∀ b, b ∈ live ∨ b ∈ chunk.freeBlocks → b.stop ≤ chunk.capacity ∧ alignment ∣ b.offset
  empty : ∀ b ∈ chunk.freeBlocks, b.size = 0 → ∀ l ∈ live, ¬ Around l b.offset
  length_le : chunk.freeBlocks.length ≤ maxFreeBlocks
  capacity_le : chunk.capacity ≤ sizeMax / 2
  maxSize_eq : chunk.maxSize = maxStop made

section ChunkInv
variable {alignment o s : Nat} {chunk : Chunk} {live live' made bs' : List Span} {l : Span}

/-- A new chunk is one free block. -/
theorem ChunkInv.new {n : Nat} (h : n ≤ sizeMax / 2) : ChunkInv alignment { freeBlocks := [⟨0, n⟩], capacity := n } []
    [] where
  tiled x := by
    rw [hits_nil, Nat.zero_add, hits_cons, hits_nil, Nat.add_zero]
    by_cases hx : x < n
    · rw [if_pos hx, Span.one_of_has ⟨Nat.zero_le _, by dsimp only; omega⟩]
    · rw [if_neg hx, Span.one_of_not_has fun hc => hx (by have := hc.2; dsimp only at this; omega)]
  apart := List.pairwise_singleton _ _
  inside b hb := by
    obtain rfl := List.mem_singleton.mp (hb.resolve_left List.not_mem_nil)
    exact ⟨by unfold Span.stop; dsimp only; omega, dvd_zero _⟩
  empty _ _ _ _ hl := absurd hl List.not_mem_nil
  length_le := show 1 ≤ maxFreeBlocks by decide
  capacity_le := h
  maxSize_eq := rfl

theorem ChunkInv.take (h : ChunkInv alignment chunk live made) (ht : TakenFrom o s chunk.freeBlocks bs')
    (hs : alignment ∣ s) :
    ChunkInv alignment { chunk with freeBlocks := bs', maxSize := max chunk.maxSize (o + s) } (⟨o, s⟩ :: live)
      (⟨o, s⟩ :: made) := by
  obtain ⟨b, hb, rfl, hstop⟩ := ht.exists_mem
  obtain ⟨hin, hal⟩ := h.inside b (.inr hb)
  refine ⟨fun x => ?_, ht.apart h.apart, fun c hc => ?_, fun c hc hzero d hd => ?_, ht.length_le.trans h.length_le,
    h.capacity_le, ?_⟩
  · have h1 := ht.hits_eq x
    have h2 := h.tiled x
    dsimp only
    rw [hits_cons, ← h2, ← h1]
    omega
  · rcases hc with hc | hc
    · rcases List.mem_cons.mp hc with rfl | hc
      · exact ⟨hstop.trans hin, hal⟩
      · exact h.inside c (.inl hc)
    · rcases ht.of_mem c hc with hc | ⟨-, hoff, d, hd, hdc⟩
      · exact h.inside c (.inr hc)
      · exact ⟨hdc ▸ (h.inside d (.inr hd)).1, hoff ▸ dvd_add hal hs⟩
  · rcases List.mem_cons.mp hd with rfl | hd
    · rintro ⟨h1, h2⟩
      unfold Span.stop at h2
      dsimp only at h1 h2
      rcases ht.clear h.apart c hc with hcl | hcl
      · unfold Span.stop at hcl
        dsimp only at hcl
        omega
      · unfold Span.stop at hcl
        dsimp only at hcl
        omega
    · rcases ht.of_mem c hc with hc | ⟨hpos, -⟩
      · exact h.empty c hc hzero d hd
      · omega
  · dsimp only [maxStop]
    rw [h.maxSize_eq, List.map_cons, List.foldr_cons, Nat.max_comm]
    rfl

/-- What is live is clear of the free blocks. -/
theorem ChunkInv.clear (h : ChunkInv alignment chunk live made) (hl : l ∈ live) {b : Span} (hb : b ∈ chunk.freeBlocks)
    (hempty : l.size = 0 → ¬ Around b l.offset) : Clear b l := by
  have hdisj : ∀ x, ¬ (b.Has x ∧ l.Has x) := by
    rintro x ⟨hx, hlx⟩
    have h1 : 0 < hits live x := hits_pos_iff.mpr ⟨l, hl, hlx⟩
    have h2 : 0 < hits chunk.freeBlocks x := hits_pos_iff.mpr ⟨b, hb, hx⟩
    have h3 := h.tiled x
    split_ifs at h3 <;> omega
  unfold Clear
  by_cases hl0 : l.size = 0
  · have := hempty hl0
    unfold Around at this
    unfold Span.stop at this ⊢
    omega
  · by_cases hb0 : b.size = 0
    · have := h.empty b hb hb0 l hl
      unfold Around at this
      unfold Span.stop at this ⊢
      omega
    · exact stop_le_or hdisj (Nat.pos_of_ne_zero hb0) (Nat.pos_of_ne_zero hl0)

theorem ChunkInv.free (h : ChunkInv alignment chunk live made) (hl : l ∈ live)
    (hlive : ∀ x, hits live x = l.one x + hits live' x) (hsub : ∀ d ∈ live', d ∈ live)
    (hempty : l.size = 0 → ∀ b, b ∈ live' ∨ b ∈ chunk.freeBlocks → ¬ Around b l.offset)
    (hf : Freed l.offset l.size chunk.freeBlocks bs') :
    ChunkInv alignment { chunk with freeBlocks := bs' } live' made := by
  obtain ⟨hin, hal⟩ := h.inside l (.inl hl)
  refine ⟨fun x => ?_, hf.apart h.apart fun b hb => h.clear hl hb fun h0 => hempty h0 b (.inr hb), fun c hc => ?_,
    fun c hc hzero d hd => ?_, hf.length_le h.length_le, h.capacity_le, h.maxSize_eq⟩
  · have h1 := hf.hits_eq x
    have h2 := h.tiled x
    have h3 := hlive x
    dsimp only
    rw [← h2, h1, h3]
    show _ + (_ + l.one x) = _
    omega
  · rcases hc with hc | hc
    · exact h.inside c (.inl (hsub c hc))
    · rcases hf.of_mem c hc with hc | ⟨-, hoff, hstop⟩
      · exact h.inside c (.inr hc)
      · refine ⟨?_, ?_⟩
        · rcases hstop with hstop | ⟨b, hb, hstop⟩
          · exact hstop ▸ hin
          · exact hstop ▸ (h.inside b (.inr hb)).1
        · rcases hoff with hoff | ⟨b, hb, hoff⟩
          · exact hoff ▸ hal
          · exact hoff ▸ (h.inside b (.inr hb)).2
  · rcases hf.of_mem c hc with hc | ⟨hend, -⟩
    · exact h.empty c hc hzero d (hsub d hd)
    · obtain ⟨h0, hoff⟩ := hend hzero
      rw [hoff]
      exact hempty h0 d (.inl hd)

end ChunkInv

/-! ## The invariant of the heap -/

structure Inv (h : Heap) : Prop where
  alignment_pos : 0 < h.tallocr.alignment
  maxChunkSize_le : h.tallocr.maxChunkSize ≤ sizeMax / 2
  length_le : h.tallocr.chunks.length ≤ maxChunks
  chunk : ∀ c chunk, h.tallocr.chunks[c]? = some chunk →
    ChunkInv h.tallocr.alignment chunk (h.spansIn h.live c) (h.spansIn h.made c)
  known : ∀ l, l ∈ h.live ∨ l ∈ h.made → l.addr.chunk < h.tallocr.chunks.length
  aligned : ∀ l ∈ h.made, h.tallocr.alignment ∣ l.addr.offset
  /-- The last chunk ends with a free block that nothing was taken from but what was allocated. -/
  endless : ∀ chunk, h.tallocr.chunks[maxChunks - 1]? = some chunk →
    chunk.capacity = sizeMax / 2 ∧ ∃ b ∈ chunk.freeBlocks, b.stop = chunk.capacity ∧ b.offset ≤ h.total

/-- What the allocator promises. -/
structure Tiled (h : Heap) : Prop where
  /-- Live allocations and free blocks of a chunk have no byte in common, and together they are the chunk. -/
  disjoint : ∀ c chunk, h.tallocr.chunks[c]? = some chunk →
    (h.spansIn h.live c ++ chunk.freeBlocks).Pairwise fun a b => ∀ x, ¬ (a.Has x ∧ b.Has x)
  covers : ∀ c chunk, h.tallocr.chunks[c]? = some chunk → ∀ x,
    x < chunk.capacity ↔ ∃ b ∈ h.spansIn h.live c ++ chunk.freeBlocks, b.Has x
  sorted : ∀ chunk ∈ h.tallocr.chunks, chunk.freeBlocks.Pairwise fun a b => a.offset < b.offset
  apart : ∀ chunk ∈ h.tallocr.chunks, chunk.freeBlocks.Pairwise fun a b => 0 < a.size → 0 < b.size →
    a.stop ≠ b.offset ∧ b.stop ≠ a.offset
  aligned : ∀ l ∈ h.made, h.tallocr.alignment ∣ l.addr.offset
  maxSize : ∀ c chunk, h.tallocr.chunks[c]? = some chunk → chunk.maxSize = maxStop (h.spansIn h.made c)

/-- All sizes that were allocated, rounded to the alignment, are less than the last chunk together; a live allocation is
freed. -/
def Op.legal (h : Heap) : Op → Prop
  | .alloc size => h.total + h.rounded size < sizeMax / 2
  | .free k => k < h.live.length

instance (h : Heap) : ∀ op, Decidable (Op.legal h op)
  | .alloc _ => inferInstanceAs (Decidable (_ < _))
  | .free _ => inferInstanceAs (Decidable (_ < _))

/-- No block is removed from a full list, and nothing empty is freed inside a block. -/
def Op.safe (h : Heap) (op : Op) : Prop :=
  op.legal h ∧
    match op with
    | .alloc size => ∀ c i chunk b, h.tallocr.find (h.rounded size) = some (c, i) → h.tallocr.chunks[c]? = some chunk →
        chunk.freeBlocks[i]? = some b → b.size = h.rounded size → chunk.freeBlocks.length < maxFreeBlocks
    | .free k => ∀ l chunk, h.live[k]? = some l → h.tallocr.chunks[l.addr.chunk]? = some chunk →
        (h.rounded l.size = 0 → ∀ b, b ∈ h.spansIn h.live l.addr.chunk ∨ b ∈ chunk.freeBlocks → ¬ Around b l.addr.offset) ∧
        ((∃ b ∈ chunk.freeBlocks, b.stop = l.addr.offset) →
          (∃ b ∈ chunk.freeBlocks, l.addr.offset + h.rounded l.size = b.offset) → chunk.freeBlocks.length < maxFreeBlocks)

section Inv
variable {h h' : Heap}

theorem dvd_alignedOffset {alignment : Nat} (hpos : 0 < alignment) (size : Nat) :
    alignment ∣ alignedOffset size alignment := by
  rw [Nat.dvd_iff_mod_eq_zero, alignedOffset]
  have hlt := Nat.mod_lt size hpos
  rcases Nat.eq_zero_or_pos (size % alignment) with h0 | h0
  · rw [h0, Nat.sub_zero, Nat.mod_self, Nat.add_zero, h0]
  · rw [Nat.mod_eq_of_lt (a := alignment - size % alignment) (by omega), Nat.add_mod,
      Nat.mod_eq_of_lt (a := alignment - size % alignment) (by omega), Nat.add_sub_cancel' hlt.le, Nat.mod_self]

theorem Inv.tiled (hinv : Inv h) : Tiled h where
  disjoint c chunk hc := pairwise_of_hits fun x => by
    have := (hinv.chunk c chunk hc).tiled x
    rw [hits_append]
    split_ifs at this <;> omega
  covers c chunk hc x := by
    have htiled := (hinv.chunk c chunk hc).tiled x
    rw [← hits_pos_iff, hits_append, htiled]
    split_ifs with hx
    · exact iff_of_true hx Nat.one_pos
    · exact iff_of_false hx (lt_irrefl 0)
  sorted chunk hchunk := by
    obtain ⟨c, hc⟩ := List.mem_iff_getElem?.mp hchunk
    exact (hinv.chunk c chunk hc).apart.imp fun hab => lt_of_le_of_lt (Nat.le_add_right _ _) hab
  apart chunk hchunk := by
    obtain ⟨c, hc⟩ := List.mem_iff_getElem?.mp hchunk
    refine (hinv.chunk c chunk hc).apart.imp fun hab _ _ => ?_
    unfold Span.stop at *
    omega
  aligned := hinv.aligned
  maxSize c chunk hc := (hinv.chunk c chunk hc).maxSize_eq

/-- There is an empty chunk more. -/
theorem Inv.newChunk (hinv : Inv h) (hlen : h.tallocr.chunks.length < maxChunks) {size : Nat} (hsize : size ≤ sizeMax / 2) :
    Inv { h with tallocr := h.tallocr.newChunk size } ∧
      Fitting (h.tallocr.newChunk size).chunks size h.tallocr.chunks.length 0 ∧
      ∀ chunk, (h.tallocr.newChunk size).chunks[h.tallocr.chunks.length]? = some chunk → chunk.freeBlocks.length = 1 := by
  obtain ⟨n, hn, hle, hlast, hnew⟩ : ∃ n, size ≤ n ∧ n ≤ sizeMax / 2 ∧
      (h.tallocr.chunks.length = maxChunks - 1 → n = sizeMax / 2) ∧
      h.tallocr.newChunk size = { h.tallocr with
        chunks := h.tallocr.chunks ++ [{ freeBlocks := [⟨0, n⟩], capacity := n }] } := by
    unfold DynTallocr.newChunk
    dsimp only
    split_ifs with hfull
    · exact ⟨_, hsize, le_rfl, fun _ => rfl, rfl⟩
    · exact ⟨_, le_max_left _ _, max_le hsize hinv.maxChunkSize_le, fun hc => absurd hc hfull, rfl⟩
  have hempty : ∀ ls : List Allocation, (∀ l ∈ ls, l.addr.chunk < h.tallocr.chunks.length) →
      h.spansIn ls h.tallocr.chunks.length = [] := by
    intro ls hls
    rw [Heap.spansIn, List.filter_eq_nil_iff.mpr, List.map_nil]
    intro l hl
    simpa using (hls l hl).ne
  have hcases : ∀ c chunk, (h.tallocr.chunks ++ [{ freeBlocks := [⟨0, n⟩], capacity := n }])[c]? = some chunk →
      h.tallocr.chunks[c]? = some chunk ∨ c = h.tallocr.chunks.length ∧
        chunk = { freeBlocks := [⟨0, n⟩], capacity := n } := by
    intro c chunk hc
    rcases Nat.lt_or_ge c h.tallocr.chunks.length with hlt | hge
    · rw [List.getElem?_append_left hlt] at hc
      exact .inl hc
    · rw [List.getElem?_append_right hge] at hc
      obtain ⟨hlt, hc⟩ := List.getElem?_eq_some_iff.mp hc
      rw [List.length_singleton] at hlt
      rw [List.getElem_singleton] at hc
      exact .inr ⟨by omega, hc.symm⟩
  have hlength : (h.tallocr.chunks ++ [({ freeBlocks := [⟨0, n⟩], capacity := n } : Chunk)]).length =
      h.tallocr.chunks.length + 1 := List.length_append
  rw [hnew]
  refine ⟨⟨hinv.alignment_pos, hinv.maxChunkSize_le, ?_, fun c chunk hc => ?_, fun l hl => ?_, hinv.aligned,
    fun chunk hc => ?_⟩, ?_, fun chunk hc => ?_⟩
  · dsimp only
    rw [hlength]
    exact hlen
  · rcases hcases c chunk hc with hc | ⟨rfl, rfl⟩
    · exact hinv.chunk c chunk hc
    · have hlive := hempty h.live fun l hl => hinv.known l (.inl hl)
      have hmade := hempty h.made fun l hl => hinv.known l (.inr hl)
      change ChunkInv _ _ (h.spansIn h.live _) (h.spansIn h.made _)
      rw [hlive, hmade]
      exact .new hle
  · dsimp only
    rw [hlength]
    exact (hinv.known l hl).trans (Nat.lt_succ_self _)
  · rcases hcases _ chunk hc with hc | ⟨heq, rfl⟩
    · exact hinv.endless chunk hc
    · exact ⟨hlast heq.symm, _, List.mem_singleton_self _, Nat.zero_add _, Nat.zero_le _⟩
  · exact ⟨_, _, by dsimp only; rw [List.getElem?_append_right le_rfl, Nat.sub_self]; rfl, rfl, hn⟩
  · rcases hcases _ chunk hc with hc | ⟨-, rfl⟩
    · rw [List.getElem?_eq_none le_rfl] at hc
      cases hc
    · rfl

theorem spansIn_cons (l : Allocation) (ls : List Allocation) (c : Nat) :
    h.spansIn (l :: ls) c = if l.addr.chunk = c then h.span l :: h.spansIn ls c else h.spansIn ls c := by
  unfold Heap.spansIn
  rw [List.filter_cons]
  simp only [decide_eq_true_eq]
  split_ifs <;> rfl

/-- A block is allocated. -/
theorem Inv.take (hinv : Inv h) {size c o : Nat} {chunk : Chunk} {bs' : List Span} (hc : h.tallocr.chunks[c]? = some chunk)
    (ht : TakenFrom o (h.rounded size) chunk.freeBlocks bs') (htotal : h.total + h.rounded size < sizeMax / 2) :
    Inv ⟨{ h.tallocr with
        chunks := h.tallocr.chunks.set c { chunk with freeBlocks := bs', maxSize := max chunk.maxSize (o + h.rounded size) } },
      ⟨⟨c, o⟩, size⟩ :: h.live, ⟨⟨c, o⟩, size⟩ :: h.made⟩ := by
  have hlt : c < h.tallocr.chunks.length := (List.getElem?_eq_some_iff.mp hc).1
  have hold := hinv.chunk c chunk hc
  obtain ⟨b, hb, rfl, -⟩ := ht.exists_mem
  refine ⟨hinv.alignment_pos, hinv.maxChunkSize_le, by simpa using hinv.length_le, fun d chunk' hd => ?_, fun l hl => ?_,
    fun l hl => ?_, fun chunk' hlast => ?_⟩
  · change ChunkInv h.tallocr.alignment chunk' (h.spansIn _ d) (h.spansIn _ d)
    dsimp only at hd ⊢
    rw [spansIn_cons, spansIn_cons]
    by_cases hdc : c = d
    · subst hdc
      rw [List.getElem?_set_self hlt] at hd
      obtain rfl := Option.some.inj hd
      rw [if_pos rfl, if_pos rfl]
      exact hold.take ht (dvd_alignedOffset hinv.alignment_pos size)
    · rw [List.getElem?_set_ne hdc] at hd
      rw [if_neg hdc, if_neg hdc]
      exact hinv.chunk d chunk' hd
  · dsimp only at hl ⊢
    rw [List.length_set]
    rcases hl with hl | hl
    · rcases List.mem_cons.mp hl with rfl | hl
      · exact hlt
      · exact hinv.known l (.inl hl)
    · rcases List.mem_cons.mp hl with rfl | hl
      · exact hlt
      · exact hinv.known l (.inr hl)
  · rcases List.mem_cons.mp hl with rfl | hl
    · exact (hold.inside b (.inr hb)).2
    · exact hinv.aligned l hl
  · change chunk'.capacity = _ ∧ ∃ b ∈ chunk'.freeBlocks, b.stop = chunk'.capacity ∧
      b.offset ≤ ((h.rounded size) :: h.made.map fun l => h.rounded l.size).sum
    rw [List.sum_cons]
    change chunk'.capacity = _ ∧ ∃ b ∈ chunk'.freeBlocks, b.stop = chunk'.capacity ∧ b.offset ≤ h.rounded size + h.total
    dsimp only at hlast
    by_cases hcl : c = maxChunks - 1
    · subst hcl
      obtain ⟨hcap, e, he, hstop, hoff⟩ := hinv.endless chunk hc
      rw [List.getElem?_set_self hlt] at hlast
      obtain rfl := Option.some.inj hlast
      obtain ⟨e', he', hstop', hoff'⟩ := ht.last he fun heo => by omega
      exact ⟨hcap, e', he', hstop'.trans hstop, by omega⟩
    · rw [List.getElem?_set_ne hcl] at hlast
      obtain ⟨hcap, e, he, hstop, hoff⟩ := hinv.endless chunk' hlast
      exact ⟨hcap, e, he, hstop, by omega⟩

/-- **A tensor is allocated.** -/
theorem Inv.step_alloc (hinv : Inv h) {size : Nat} (hsafe : (Op.alloc size).safe h) :
    ∃ h', step (.alloc size) h = .ok h' ∧ Inv h' := by
  obtain ⟨hlegal, hfull⟩ := hsafe
  have hleg : h.total + h.rounded size < sizeMax / 2 := hlegal
  suffices halloc : ∃ addr t, h.tallocr.alloc size = .ok (addr, t) ∧
    Inv ⟨t, ⟨addr, size⟩ :: h.live, ⟨addr, size⟩ :: h.made⟩ by
    obtain ⟨addr, t, hrun, hinv'⟩ := halloc
    refine ⟨_, ?_, hinv'⟩
    dsimp only [step]
    rw [hrun]
    rfl
  cases hfind : h.tallocr.find (h.rounded size) with
  | some r =>
      obtain ⟨c, i⟩ := r
      have hunfold : h.tallocr.alloc size = h.tallocr.take (h.rounded size) c i := by
        rw [DynTallocr.alloc, show h.tallocr.find (alignedOffset size h.tallocr.alignment) = some (c, i) from hfind]
        rfl
      rw [hunfold]
      rcases take_spec (find_eq_some hfind) with ⟨chunk, o, bs', hc, ht, hrun⟩ | ⟨chunk, b, hc, hb, hbs, hlen⟩
      · exact ⟨_, _, hrun, hinv.take hc ht hleg⟩
      · exact absurd (hfull c i chunk b hfind hc hb hbs) (not_lt.mpr hlen)
  | none =>
      have hsmall := find_eq_none (fun chunk hchunk b hb => by
        obtain ⟨c, hc⟩ := List.mem_iff_getElem?.mp hchunk
        have h1 := ((hinv.chunk c chunk hc).inside b (.inr hb)).1
        have h2 := (hinv.chunk c chunk hc).capacity_le
        unfold Span.stop at h1
        have h3 : sizeMax / 2 ≤ sizeMax := Nat.div_le_self _ _
        omega) hfind
      -- the last chunk would have room
      have hlen : h.tallocr.chunks.length < maxChunks := by
        by_contra hge
        have hidx : maxChunks - 1 < h.tallocr.chunks.length := lt_of_lt_of_le (by decide) (not_lt.mp hge)
        obtain ⟨hcap, b, hb, hstop, hoff⟩ := hinv.endless _ (List.getElem?_eq_getElem hidx)
        have hlt := hsmall _ (List.getElem_mem hidx) b hb
        unfold Span.stop at hstop
        omega
      have hhalf : h.rounded size ≤ sizeMax / 2 := by omega
      obtain ⟨hinv', hfit, hone⟩ := hinv.newChunk hlen hhalf
      have hunfold : h.tallocr.alloc size =
          (h.tallocr.newChunk (h.rounded size)).take (h.rounded size) h.tallocr.chunks.length 0 := by
        rw [DynTallocr.alloc, show h.tallocr.find (alignedOffset size h.tallocr.alignment) = none from hfind]
        exact if_neg (not_le.mpr hlen)
      rw [hunfold]
      rcases take_spec hfit with ⟨chunk, o, bs', hc, ht, hrun⟩ | ⟨chunk, b, hc, -, -, hlen'⟩
      · exact ⟨_, _, hrun, hinv'.take hc ht hleg⟩
      · rw [hone chunk hc] at hlen'
        exact absurd hlen' (by decide)

theorem hits_spansIn_eraseIdx : ∀ {ls : List Allocation} {k : Nat} {l : Allocation}, ls[k]? = some l → ∀ c x,
    hits (h.spansIn ls c) x = (if l.addr.chunk = c then (h.span l).one x else 0) + hits (h.spansIn (ls.eraseIdx k) c) x
  | [], _, _, hk, _, _ => by simp at hk
  | m :: ls, 0, l, hk, c, x => by
    obtain rfl : m = l := by simpa using hk
    rw [spansIn_cons, List.eraseIdx_cons_zero]
    split_ifs
    · rw [hits_cons]
    · rw [Nat.zero_add]
  | m :: ls, k + 1, l, hk, c, x => by
    have hk' : ls[k]? = some l := by simpa using hk
    have ih := hits_spansIn_eraseIdx hk' c x
    rw [List.eraseIdx_cons_succ, spansIn_cons, spansIn_cons]
    by_cases hm : m.addr.chunk = c
    · rw [if_pos hm, if_pos hm, hits_cons, hits_cons, ih]
      omega
    · rw [if_neg hm, if_neg hm, ih]

theorem mem_spansIn {ls : List Allocation} {c : Nat} {b : Span} :
    b ∈ h.spansIn ls c ↔ ∃ l ∈ ls, l.addr.chunk = c ∧ h.span l = b := by
  unfold Heap.spansIn
  simp [and_assoc]

/-- **A live allocation is freed**, if the list takes another block. -/
theorem Inv.step_free (hinv : Inv h) {k : Nat} (hsafe : (Op.free k).safe h) :
    (∃ h', step (.free k) h = .ok h' ∧ Inv h') ∨ step (.free k) h = .error .outOfFreeBlocks := by
  obtain ⟨hlegal, hrest⟩ := hsafe
  have hk := List.getElem?_eq_getElem hlegal
  generalize h.live[k] = l at hk
  have hlmem : l ∈ h.live := List.mem_of_getElem? hk
  have hlt := hinv.known l (.inl hlmem)
  have hc := List.getElem?_eq_getElem hlt
  generalize h.tallocr.chunks[l.addr.chunk] = chunk at hc
  obtain ⟨hempty, hfull⟩ := hrest l chunk hk hc
  have hold := hinv.chunk _ chunk hc
  have hspan : h.span l ∈ h.spansIn h.live l.addr.chunk := mem_spansIn.mpr ⟨l, hlmem, rfl, rfl⟩
  have hsub : ∀ c, ∀ d ∈ h.spansIn (h.live.eraseIdx k) c, d ∈ h.spansIn h.live c := by
    intro c d hd
    obtain ⟨m, hm, hmc, rfl⟩ := mem_spansIn.mp hd
    exact mem_spansIn.mpr ⟨m, List.mem_of_mem_eraseIdx hm, hmc, rfl⟩
  have hunfold : step (.free k) h = (freeBlock chunk.freeBlocks l.addr.offset (h.rounded l.size)).bind fun blocks =>
      .ok { h with
        tallocr := { h.tallocr with chunks := h.tallocr.chunks.set l.addr.chunk { chunk with freeBlocks := blocks } }
        live := h.live.eraseIdx k } := by
    unfold step DynTallocr.freeTensor
    dsimp only
    rw [hk]
    dsimp only
    rw [hc]
    dsimp only [Heap.rounded]
    cases freeBlock chunk.freeBlocks l.addr.offset (alignedOffset l.size h.tallocr.alignment) <;> rfl
  rw [hunfold]
  rcases freeBlock_spec chunk.freeBlocks l.addr.offset (h.rounded l.size) with ⟨bs', hrun, hf⟩ | hrun | ⟨hlen, hb, hd⟩
  · left
    rw [hrun]
    have hnew : ChunkInv h.tallocr.alignment { chunk with freeBlocks := bs' }
        (h.spansIn (h.live.eraseIdx k) l.addr.chunk) (h.spansIn h.made l.addr.chunk) := by
      have hhits := hits_spansIn_eraseIdx (h := h) hk l.addr.chunk
      simp only [if_true] at hhits
      exact hold.free hspan hhits (hsub _) (fun h0 b hb => hempty h0 b (hb.imp_left (hsub _ b))) hf
    refine ⟨_, rfl, hinv.alignment_pos, hinv.maxChunkSize_le, by simpa using hinv.length_le, fun c chunk' hc' => ?_,
      fun m hm => ?_, hinv.aligned, fun chunk' hlast => ?_⟩
    · change ChunkInv h.tallocr.alignment chunk' (h.spansIn _ c) (h.spansIn _ c)
      dsimp only at hc' ⊢
      by_cases hcl : l.addr.chunk = c
      · subst hcl
        rw [List.getElem?_set_self hlt] at hc'
        obtain rfl := Option.some.inj hc'
        exact hnew
      · have hhits := hits_spansIn_eraseIdx (h := h) hk c
        rw [List.getElem?_set_ne hcl] at hc'
        simp only [if_neg hcl, Nat.zero_add] at hhits
        have hother := hinv.chunk c chunk' hc'
        exact ⟨fun x => by rw [← hhits x]; exact hother.tiled x, hother.apart,
          fun b hb => hother.inside b (hb.imp_left (hsub c b)),
          fun b hb h0 d hd => hother.empty b hb h0 d (hsub c d hd), hother.length_le, hother.capacity_le, hother.maxSize_eq⟩
    · dsimp only at hm ⊢
      rw [List.length_set]
      exact hinv.known m (hm.imp_left List.mem_of_mem_eraseIdx)
    · dsimp only at hlast
      change chunk'.capacity = _ ∧ ∃ b ∈ chunk'.freeBlocks, b.stop = chunk'.capacity ∧ b.offset ≤ h.total
      by_cases hcl : l.addr.chunk = maxChunks - 1
      · obtain ⟨hcap, e, he, hstop, hoff⟩ := hinv.endless chunk (hcl ▸ hc)
        rw [← hcl, List.getElem?_set_self hlt] at hlast
        obtain rfl := Option.some.inj hlast
        obtain ⟨e', he', hoff', hstop'⟩ := hf.exists_mem e he
        have hin := (hnew.inside e' (.inr he')).1
        exact ⟨hcap, e', he', le_antisymm hin (hstop.symm.le.trans hstop'), hoff'.trans hoff⟩
      · rw [List.getElem?_set_ne hcl] at hlast
        exact hinv.endless chunk' hlast
  · right
    rw [hrun]
    rfl
  · exact absurd (hfull hb hd) (not_lt.mpr hlen)

end Inv

/-! ## Runs -/

theorem inv_new {alignment : Nat} (hpos : 0 < alignment) (maxBufferSize : Nat) : Inv (Heap.new alignment maxBufferSize) where
  alignment_pos := hpos
  maxChunkSize_le := min_le_right _ _
  length_le := Nat.zero_le _
  chunk c chunk hc := by simp [Heap.new, DynTallocr.new] at hc
  known l hl := by simp [Heap.new] at hl
  aligned l hl := by simp [Heap.new] at hl
  endless chunk hc := by simp [Heap.new, DynTallocr.new] at hc

theorem Inv.step {h : Heap} (hinv : Inv h) {op : Op} (hsafe : op.safe h) :
    (∃ h', step op h = .ok h' ∧ Inv h') ∨ Alloc.step op h = .error .outOfFreeBlocks := by
  cases op with
  | alloc size => exact .inl (hinv.step_alloc hsafe)
  | free k => exact hinv.step_free hsafe

/-- A tensor of 100 bytes in a chunk of 1024. -/
def oneTensor : Heap where
  tallocr := ⟨32, 1024, [⟨[⟨128, 896⟩], 128, 1024⟩]⟩
  live := [⟨⟨0, 0⟩, 100⟩]
  made := [⟨⟨0, 0⟩, 100⟩]

/-- A chunk of 1024 bytes with 64 of them allocated, behind an allocation of nothing at 32 that was freed while the bytes
around it were free. -/
def unsorted : Heap where
  tallocr := ⟨32, 1024, [⟨[⟨64, 960⟩, ⟨32, 0⟩], 64, 1024⟩]⟩
  live := [⟨⟨0, 0⟩, 64⟩]
  made := [⟨⟨0, 0⟩, 64⟩, ⟨⟨0, 32⟩, 0⟩, ⟨⟨0, 0⟩, 32⟩]

end S2Moe.Alloc
