import S2Moe.Draft.Batches

/-!
# The draft cache over the rounds

* `Drafting`, `Sampling`, `Verifying` : what holds at the start of a turn, while it samples, and in front of a verification;
* `Fine` : when an operation does not leave the draft cache behind the text. A round of `draft_tree_prune` may have selected
  tokens that it did not decode; they must not be accepted;
* `reaches_continuous` : in a run of such operations no decode is refused, and each of them continues the committed text.
-/

namespace S2Moe.Draft.Tree
open S2Moe.Kv S2Moe.Lib
open S2Moe.Recurrent (posMax)
open S2Moe.Spec (Candidate Token)

/-! ## The condition -/

/-- There are cells for the batch. -/
def State.fits (cfg : Config) (p : State) : Prop :=
  (p.cache.memoryUpdate.decode (splitSimple cfg.nUbatch p.rows.length p.rows)).isSome = true

/-- What is accepted is on the branch that is kept. -/
def State.oneBranch (st : State) (acc : List Nat) : Prop :=
  ∀ (i s : Nat), acc[i]? = some s → (st.drafts s).tokens[i]? = (st.drafts (State.sKeep acc)).tokens[i]?

/-- The batch finds cells; what is accepted is on one branch; `draft_tree_prune` has decoded as many levels as are
accepted. -/
def Fine (cfg : Config) (st : State) (op : Op) : Prop :=
  (∀ p, prepared cfg op st = some p → p.fits cfg) ∧
    match op with
    | .verify acc _ _ => (cfg.prune = true → acc.length ≤ st.nPastCur - st.nPastDft) ∧ st.oneBranch acc
    | .turn _ => True

/-! ## Invariants -/

/-- In every phase. -/
structure Base (cfg : Config) (size : Nat) (st : State) : Prop where
  ok : st.cache.Ok
  small : st.cache.Small
  size_eq : st.cache.cells.size = size
  text_length : st.text.length = st.nPastDft
  lt : ∀ x, (st.drafts x).active = true → x < st.nSeqCur
  cap : st.nSeqCur ≤ cfg.nSeqDft
  holds : ∀ x, x = 0 ∨ (st.drafts x).active = true → Holds st.cache x (st.text ++ st.held x)

/-- At the start of turn `i`. A sequence that was given up may have one token in the cache that it does not have itself. -/
structure Drafting (cfg : Config) (size i : Nat) (st : State) : Prop extends Base cfg size st where
  cur : st.nPastCur = st.nPastDft + i
  drafting : ∀ x, (st.drafts x).drafting = true → (st.drafts x).active = true ∧ (st.drafts x).tokens ≠ [] ∧
    (st.drafts x).tokens.tail = st.held x ∧ (st.held x).length = i
  active : ∀ x, (st.drafts x).active = true → (st.drafts x).tokens.tail <+: st.held x ∧ (st.held x).length ≤ i

/-- When the sequences before `s` have been sampled; `start` is the state at the start of the turn. -/
structure Sampling (cfg : Config) (size i : Nat) (start : State) (s : Nat) (st : State) : Prop extends Base cfg size st where
  cur : st.nPastCur = st.nPastDft + i
  keeps : ∀ x, (start.drafts x).active = true → (st.drafts x).active = true
  nodup : (st.batch.map Prod.fst).Nodup
  batched : ∀ b ∈ st.batch, (st.drafts b.1).drafting = true ∧ (b.1 < s ∨ (st.drafts b.1).skip = true) ∧
    (st.drafts b.1).tokens ≠ [] ∧ (st.drafts b.1).tokens.tail = st.held b.1 ++ [b.2]
  pending : ∀ x, (st.drafts x).drafting = true → x ∉ st.batch.map Prod.fst →
    s ≤ x ∧ (st.drafts x).skip = false ∧ (st.drafts x).tokens ≠ [] ∧ (st.drafts x).tokens.tail = st.held x
  drafting : ∀ x, (st.drafts x).drafting = true → (st.drafts x).active = true ∧ (st.held x).length = i
  active : ∀ x, (st.drafts x).active = true → (st.held x).length ≤ i
  idle : ∀ x, (st.drafts x).active = true → (st.drafts x).drafting = false → (st.drafts x).tokens.tail <+: st.held x

/-- In front of a verification. -/
structure Verifying (cfg : Config) (size : Nat) (st : State) : Prop extends Base cfg size st where
  cur : st.nPastDft ≤ st.nPastCur
  tokens : ∀ x, (st.drafts x).active = true → (st.drafts x).tokens.take (st.nPastCur - st.nPastDft) <+: st.held x
  length : cfg.prune = false → ∀ x, (st.drafts x).active = true →
    (st.drafts x).tokens.length ≤ st.nPastCur - st.nPastDft

section
variable {cfg : Config} {size i s : Nat} {start st : State}

/-! ## Decodes -/

theorem State.decode_spec (hok : st.cache.Ok) (hsize : (st.cache.cells.size : Int) ≤ posMax) (hsmall : st.cache.Small)
    (hnodup : (st.batch.map Prod.fst).Nodup) (hne : st.batch ≠ [])
    (hlt : ∀ x ∈ st.batch.map Prod.fst, x < cfg.nSeqMax)
    (hholds : ∀ x ∈ st.batch.map Prod.fst, Holds st.cache x (st.text ++ st.held x) ∧
      (st.text ++ st.held x).length = st.nPastCur) :
    batchInit st.cache.cells cfg.nSeqMax st.rows = true ∧ (st.fits cfg →
      ∃ c, st.decode cfg = { st with cache := c, held := fun x => st.held x ++ tokensFor st.batch x } ∧
        c.Ok ∧ c.Small ∧ c.cells.size = st.cache.cells.size ∧
        ∀ x, Holds st.cache x (st.text ++ st.held x) →
          (x ∈ st.batch.map Prod.fst → (st.text ++ st.held x).length = st.nPastCur) →
          Holds c x (st.text ++ (st.held x ++ tokensFor st.batch x))) := by
  have hinit : batchInit st.cache.cells cfg.nSeqMax st.rows = true := by
    refine batchInit_rowsAt hnodup hlt fun x hx => ?_
    obtain ⟨hx, hlen⟩ := hholds x hx
    rw [hx.seqPosMax hok.rep, hlen]
  refine ⟨hinit, fun hfits => ?_⟩
  have hrows : st.rows ≠ [] := fun h => hne (List.map_eq_nil_iff.mp h)
  obtain ⟨r, hr⟩ := Option.isSome_iff_exists.mp hfits
  have hrun : st.cache.llamaDecode cfg.nSeqMax cfg.nUbatch st.rows = some r.2 := by
    unfold Cache.llamaDecode
    rw [if_neg hrows, if_pos hinit, hr]
    rfl
  obtain ⟨idxs, hp⟩ := llamaDecode_placed hok rowsAt_ok hrun
  have hupdate := hok.memoryUpdate
  have hnext : ∀ x, Holds st.cache x (st.text ++ st.held x) →
      (x ∈ st.batch.map Prod.fst → (st.text ++ st.held x).length = st.nPastCur) →
      Holds r.2 x (st.text ++ (st.held x ++ tokensFor st.batch x)) := by
    intro x hx hlen
    rw [← List.append_assoc]
    exact holds_rowsAt (hx.memoryUpdate hok) hupdate.ok.rep hp hnodup hlen
  refine ⟨r.2, ?_, hp.ok, fun j hj => ?_, hp.size_eq.trans hupdate.size_eq, hnext⟩
  · unfold State.decode
    rw [hrun]
  · rw [hp.size_eq, hupdate.size_eq] at hj
    by_cases hmem : j ∈ idxs
    · -- the new position is one of a sequence that fits the cache
      obtain ⟨k, hk⟩ := List.mem_iff_getElem?.mp hmem
      have hklt : k < (rowsAt st.nPastCur st.batch).length := by
        rw [← hp.length]
        exact (List.getElem?_eq_some_iff.mp hk).1
      have hrow := List.getElem?_eq_getElem hklt
      obtain ⟨b, hb, heq⟩ := rowsAt_getElem?.mp hrow
      have hbmem := List.mem_of_getElem? hb
      have hbx : b.1 ∈ st.batch.map Prod.fst := List.mem_map.mpr ⟨b, hbmem, rfl⟩
      obtain ⟨hx, hlen⟩ := hholds b.1 hbx
      have hle := (hnext b.1 hx fun _ => hlen).length_le
      rw [tokensFor_eq hnodup hbmem, ← List.append_assoc, List.length_append, hlen, List.length_singleton, hp.size_eq,
        hupdate.size_eq] at hle
      rw [(hp.cell_at k j _ hk hrow).1, heq]
      dsimp only
      omega
    · rw [(hp.rest j hmem).1, hupdate.cell_eq j hj]
      have := hsmall j hj
      split
      · exact this
      · exact this

/-! ## A turn -/

theorem copySeqs_copies {c : Cache Token} (hok : c.Ok) (hsmall : c.Small) {n : Nat} (hs : s < n) : ∀ m,
    Copies c (State.copySeqs c s n m) s (fun x => n ≤ x ∧ x < n + m)
  | 0 => ⟨hok, rfl, hsmall, fun _ _ _ h => h, fun x _ hx _ => by omega⟩
  | m + 1 => by
    have ih := copySeqs_copies hok hsmall hs m
    have hone := ih.ok.copySeq ih.small (s := s) (n := n + m) (by omega)
    refine ⟨hone.ok, hone.size_eq.trans ih.size_eq, hone.small, fun x vals hx hv => ?_, fun x vals hx hv => ?_⟩
    · exact hone.other x vals (by omega) (ih.other x vals (by omega) hv)
    · by_cases hxm : x = n + m
      · exact hone.copy x vals hxm (ih.other s vals (by omega) hv)
      · exact hone.other x vals hxm (ih.copy x vals (by omega) hv)

theorem newSeqs_le (st : State) (turn : Nat) (c : Candidates) : st.newSeqs cfg turn c ≤ cfg.nSeqDft - st.nSeqCur := by
  unfold State.newSeqs
  split
  · split
    · exact Nat.zero_le _
    · exact (List.countP_le_length).trans (List.length_take_le _ _)
  · exact min_le_left _ _

/-! ### A split -/

section Split
variable {m x : Nat} {c : Candidates}

theorem split_drafts_self : (st.split s m c).drafts s =
    { st.drafts s with tokens := (st.drafts s).tokens ++ [c.first.id] } := if_pos rfl

theorem split_drafts_new (hs : s < st.nSeqCur) {k : Nat} (hk : k < m) : (st.split s m c).drafts (st.nSeqCur + k) =
    SeqDraft.mk true true true ((st.drafts s).tokens ++ [((c.rest[k]?).map Candidate.id).getD 0]) := by
  have hin : st.nSeqCur ≤ st.nSeqCur + k ∧ st.nSeqCur + k < st.nSeqCur + m := by omega
  refine (if_neg (by omega)).trans ((if_pos hin).trans ?_)
  rw [Nat.add_sub_cancel_left]

theorem split_drafts_old (hx : x ≠ s) (hold : ¬ (st.nSeqCur ≤ x ∧ x < st.nSeqCur + m)) :
    (st.split s m c).drafts x = st.drafts x := (if_neg hx).trans (if_neg hold)

theorem split_held_new (hnew : st.nSeqCur ≤ x ∧ x < st.nSeqCur + m) : (st.split s m c).held x = st.held s := if_pos hnew

theorem split_held_old (hold : ¬ (st.nSeqCur ≤ x ∧ x < st.nSeqCur + m)) : (st.split s m c).held x = st.held x := if_neg hold

theorem split_batch : (st.split s m c).batch =
    st.batch ++ (s, c.first.id) :: (List.range m).map fun k => (st.nSeqCur + k, ((c.rest[k]?).map Candidate.id).getD 0) := rfl

theorem split_seqs : (st.split s m c).batch.map Prod.fst =
    st.batch.map Prod.fst ++ s :: (List.range m).map (st.nSeqCur + ·) := by
  rw [split_batch, List.map_append, List.map_cons, List.map_map]
  rfl

/-- A sequence behind a split is the one that is split, one of the new ones, or as before. -/
theorem split_cases (st : State) (s m x : Nat) : x = s ∨ (∃ k < m, x = st.nSeqCur + k) ∨
    (x ≠ s ∧ ¬ (st.nSeqCur ≤ x ∧ x < st.nSeqCur + m)) := by
  by_cases h1 : x = s
  · exact .inl h1
  · by_cases h2 : st.nSeqCur ≤ x ∧ x < st.nSeqCur + m
    · exact .inr (.inl ⟨x - st.nSeqCur, by omega, by omega⟩)
    · exact .inr (.inr ⟨h1, h2⟩)

/-- `s` is drafting, and not in the batch yet. -/
structure Splits (cfg : Config) (i s m : Nat) (st : State) : Prop where
  drafting : (st.drafts s).drafting = true
  active : (st.drafts s).active = true
  lt : s < st.nSeqCur
  out : s ∉ st.batch.map Prod.fst
  room : st.nSeqCur + m ≤ cfg.nSeqDft
  push : ∀ v, (st.drafts s).tokens ++ [v] ≠ [] ∧ ((st.drafts s).tokens ++ [v]).tail = st.held s ++ [v]
  held : (st.held s).length = i

theorem Sampling.splits (h : Sampling cfg size i start s st) (hdraft : (st.drafts s).drafting = true)
    (hskip : (st.drafts s).skip = false) (hm : m ≤ cfg.nSeqDft - st.nSeqCur) : Splits cfg i s m st := by
  obtain ⟨hact, hheld⟩ := h.drafting s hdraft
  have hout : s ∉ st.batch.map Prod.fst := by
    intro hmem
    obtain ⟨b, hb, rfl⟩ := List.mem_map.mp hmem
    obtain ⟨-, hor, -, -⟩ := h.batched b hb
    rcases hor with hlt | htrue
    · exact lt_irrefl _ hlt
    · rw [hskip] at htrue
      cases htrue
  obtain ⟨-, -, hne, htail⟩ := h.pending s hdraft hout
  have hcap := h.cap
  refine ⟨hdraft, hact, h.lt s hact, hout, by omega, fun v => ⟨?_, ?_⟩, hheld⟩
  · exact List.append_ne_nil_of_right_ne_nil _ (List.cons_ne_nil v [])
  · rw [List.tail_append_of_ne_nil hne, htail]

theorem Sampling.split_base (h : Sampling cfg size i start s st) (hs : Splits cfg i s m st) :
    Base cfg size (st.split s m c) := by
  have hcopies := copySeqs_copies h.ok h.small hs.lt m
  have hlt := hs.lt
  refine ⟨hcopies.ok, hcopies.small, hcopies.size_eq.trans h.size_eq, h.text_length, fun x hx => ?_, hs.room, fun x hx => ?_⟩
  · change x < st.nSeqCur + m
    rcases split_cases st s m x with rfl | ⟨k, hk, rfl⟩ | ⟨h1, h2⟩
    · omega
    · omega
    · rw [split_drafts_old h1 h2] at hx
      have := h.lt x hx
      omega
  · change Holds (State.copySeqs st.cache s st.nSeqCur m) x (st.text ++ (st.split s m c).held x)
    rcases split_cases st s m x with rfl | ⟨k, hk, rfl⟩ | ⟨h1, h2⟩
    · rw [split_held_old (by omega)]
      exact hcopies.other x _ (by omega) (h.holds x (.inr hs.active))
    · rw [split_held_new (by omega)]
      exact hcopies.copy _ _ (by omega) (h.holds s (.inr hs.active))
    · rw [split_held_old h2]
      rw [split_drafts_old h1 h2] at hx
      exact hcopies.other x _ h2 (h.holds x hx)

theorem Sampling.split_nodup (h : Sampling cfg size i start s st) (hs : Splits cfg i s m st) :
    ((st.split s m c).batch.map Prod.fst).Nodup := by
  have hlt := hs.lt
  have hrange : ∀ x, x ∈ (List.range m).map (st.nSeqCur + ·) → st.nSeqCur ≤ x := by
    intro x hx
    obtain ⟨k, -, rfl⟩ := List.mem_map.mp hx
    exact Nat.le_add_right _ _
  rw [split_seqs, List.nodup_append, List.nodup_cons]
  refine ⟨h.nodup, ⟨fun hmem => ?_, ?_⟩, fun a ha b hb hab => ?_⟩
  · have := hrange s hmem
    omega
  · exact List.nodup_range.map fun a b hab => Nat.add_left_cancel hab
  · subst hab
    obtain ⟨q, hq, rfl⟩ := List.mem_map.mp ha
    rcases List.mem_cons.mp hb with hb | hb
    · exact hs.out (hb ▸ ha)
    · have h1 := hrange q.1 hb
      have h2 := h.lt q.1 (h.drafting q.1 (h.batched q hq).1).1
      omega

theorem Sampling.split_batched (h : Sampling cfg size i start s st) (hs : Splits cfg i s m st) :
    ∀ b ∈ (st.split s m c).batch, ((st.split s m c).drafts b.1).drafting = true ∧
      (b.1 < s + 1 ∨ ((st.split s m c).drafts b.1).skip = true) ∧ ((st.split s m c).drafts b.1).tokens ≠ [] ∧
      ((st.split s m c).drafts b.1).tokens.tail = (st.split s m c).held b.1 ++ [b.2] := by
  intro b hb
  have hlt := hs.lt
  rw [split_batch, List.mem_append, List.mem_cons, List.mem_map] at hb
  rcases hb with hb | rfl | ⟨k, hk, rfl⟩
  · have hne : b.1 ≠ s := fun heq => hs.out (List.mem_map.mpr ⟨b, hb, heq⟩)
    have hblt := h.lt b.1 (h.drafting b.1 (h.batched b hb).1).1
    rw [split_drafts_old hne (by omega), split_held_old (by omega)]
    obtain ⟨h3, h4, h5⟩ := h.batched b hb
    exact ⟨h3, h4.imp_left fun h => by omega, h5⟩
  · dsimp only
    rw [split_drafts_self, split_held_old (by omega)]
    exact ⟨hs.drafting, .inl (Nat.lt_succ_self s), (hs.push _).1, (hs.push _).2⟩
  · have hkm := List.mem_range.mp hk
    dsimp only
    rw [split_drafts_new hs.lt hkm, split_held_new (by omega)]
    exact ⟨rfl, .inr rfl, (hs.push _).1, (hs.push _).2⟩

theorem Sampling.split (h : Sampling cfg size i start s st) (hs : Splits cfg i s m st) :
    Sampling cfg size i start (s + 1) (st.split s m c) := by
  have hlt := hs.lt
  refine { toBase := h.split_base hs, cur := h.cur, keeps := fun x hx => ?_, nodup := h.split_nodup hs,
           batched := h.split_batched hs, pending := fun x hx hout => ?_, drafting := fun x hx => ?_,
           active := fun x hx => ?_, idle := fun x hx hidle => ?_ }
  · have hx' := h.keeps x hx
    have hxlt := h.lt x hx'
    by_cases h1 : x = s
    · rw [h1, split_drafts_self]
      exact hs.active
    · rw [split_drafts_old h1 (by omega)]
      exact hx'
  · rw [split_seqs, List.mem_append, List.mem_cons, not_or, not_or] at hout
    obtain ⟨hbatch, h1, hnew⟩ := hout
    have h2 : ¬ (st.nSeqCur ≤ x ∧ x < st.nSeqCur + m) := fun hr =>
      hnew (List.mem_map.mpr ⟨x - st.nSeqCur, List.mem_range.mpr (by omega), by omega⟩)
    rw [split_drafts_old h1 h2] at hx ⊢
    rw [split_held_old h2]
    obtain ⟨h3, h4⟩ := h.pending x hx hbatch
    exact ⟨by omega, h4⟩
  · rcases split_cases st s m x with rfl | ⟨k, hk, rfl⟩ | ⟨h1, h2⟩
    · rw [split_drafts_self, split_held_old (by omega)]
      exact ⟨hs.active, hs.held⟩
    · rw [split_drafts_new hs.lt hk, split_held_new (by omega)]
      exact ⟨rfl, hs.held⟩
    · rw [split_drafts_old h1 h2] at hx ⊢
      rw [split_held_old h2]
      exact h.drafting x hx
  · rcases split_cases st s m x with rfl | ⟨k, hk, rfl⟩ | ⟨h1, h2⟩
    · rw [split_held_old (by omega)]
      exact hs.held.le
    · rw [split_held_new (by omega)]
      exact hs.held.le
    · rw [split_drafts_old h1 h2] at hx
      rw [split_held_old h2]
      exact h.active x hx
  · rcases split_cases st s m x with rfl | ⟨k, hk, rfl⟩ | ⟨h1, h2⟩
    · rw [split_drafts_self] at hidle
      exact absurd (hidle.symm.trans hs.drafting) Bool.false_ne_true
    · rw [split_drafts_new hs.lt hk] at hidle
      cases hidle
    · rw [split_drafts_old h1 h2] at hx hidle ⊢
      rw [split_held_old h2]
      exact h.idle x hx hidle

end Split

theorem Sampling.sampleSeq (h : Sampling cfg size i start s st) (cands : Nat → Candidates) :
    Sampling cfg size i start (s + 1) (st.sampleSeq cfg i cands s) := by
  unfold State.sampleSeq
  split
  · rename_i hc
    exact h.split (h.splits hc.1 (Bool.eq_false_iff.mpr hc.2) (newSeqs_le st i (cands s)))
  · rename_i hc
    refine { h with batched := fun b hb => ?_, pending := fun x hx hout => ?_ }
    · obtain ⟨h1, h2, h3⟩ := h.batched b hb
      exact ⟨h1, h2.imp_left fun h => by omega, h3⟩
    · obtain ⟨h1, h2, h3⟩ := h.pending x hx hout
      refine ⟨Nat.lt_of_le_of_ne h1 fun heq => hc ?_, h2, h3⟩
      rw [heq, h2]
      exact ⟨hx, Bool.false_ne_true⟩

/-- Behind the loop, every sequence that is drafting is in the batch. -/
theorem Drafting.sampled (h : Drafting cfg size i start) (cands : Nat → Candidates) :
    Sampling cfg size i start cfg.nSeqDft (start.sampled cfg i cands) := by
  refine foldl_range_rule (f := State.sampleSeq cfg i cands) (P := fun s st => Sampling cfg size i start s st) ?_ cfg.nSeqDft
    fun s _ st hst => hst.sampleSeq cands
  refine { toBase := ⟨h.ok, h.small, h.size_eq, h.text_length, h.lt, h.cap, h.holds⟩, cur := h.cur, keeps := fun x hx => hx,
           nodup := List.nodup_nil, batched := fun b hb => absurd hb List.not_mem_nil, pending := fun x hx _ => ?_,
           drafting := fun x hx => ?_, active := fun x hx => (h.active x hx).2, idle := fun x hx _ => (h.active x hx).1 }
  · obtain ⟨-, h2, h3, -⟩ := h.drafting x hx
    exact ⟨Nat.zero_le x, rfl, h2, h3⟩
  · obtain ⟨h1, -, -, h4⟩ := h.drafting x hx
    exact ⟨h1, h4⟩

theorem Sampling.mem_batch (h : Sampling cfg size i start cfg.nSeqDft st) {x : Nat} (hx : (st.drafts x).drafting = true) :
    x ∈ st.batch.map Prod.fst := by
  by_contra hout
  have h1 := (h.pending x hx hout).1
  have h2 := h.lt x (h.drafting x hx).1
  have h3 := h.cap
  omega

/-- The batch of a turn can be decoded. -/
theorem Sampling.next (h : Sampling cfg size i start cfg.nSeqDft st) {x : Nat} (hx : x ∈ st.batch.map Prod.fst) :
    x < cfg.nSeqDft ∧ Holds st.cache x (st.text ++ st.held x) ∧ (st.text ++ st.held x).length = st.nPastCur := by
  obtain ⟨b, hb, rfl⟩ := List.mem_map.mp hx
  obtain ⟨hact, hlen⟩ := h.drafting b.1 (h.batched b hb).1
  have hlt := h.lt b.1 hact
  have hcap := h.cap
  refine ⟨by omega, h.holds b.1 (.inr hact), ?_⟩
  rw [List.length_append, h.text_length, hlen, h.cur]

/-! ### The selection -/

theorem select_subset (limit nDraft : Nat) (pass : Nat → Bool) : ∀ (rank : List Nat) (nodes nTgt : Nat),
    ∀ x ∈ State.select limit nDraft pass rank nodes nTgt, x ∈ rank
  | [], _, _, x, hx => by cases hx
  | y :: rank, nodes, nTgt, x, hx => by
    rw [State.select] at hx
    split at hx
    · cases hx
    · split at hx
      · exact List.mem_cons_of_mem _ (select_subset limit nDraft pass rank nodes nTgt x hx)
      · split at hx
        · cases hx
        · rcases List.mem_cons.mp hx with rfl | hx
          · exact List.mem_cons_self
          · exact List.mem_cons_of_mem _ (select_subset limit nDraft pass rank _ _ x hx)

/-- Removing what is not there. -/
theorem seqRm_nothing {c : Cache Token} (hok : c.Ok) {x n : Nat} {vals : List Token} (hx : Holds c x vals)
    (hlen : vals.length ≤ n) : Each c (c.seqRm x n (-1)) id := by
  refine (hok.seqRm x n (-1)).congr fun j hj => Cell.removed_of_not ?_
  rintro ⟨hin, hmem⟩
  have hlow := ((within_from n).mp hin).1
  have hbound := hx.pos_lt hj hmem
  omega

theorem holds_of_same {c c' : Cache Token} (h : Each c c' id) {x : Nat} {vals : List Token} (hx : Holds c x vals) :
    Holds c' x vals := by
  have hsame : Holds c' x (vals.take vals.length) := hx.each h vals.length
    (fun j hj => ⟨fun hm => ⟨hm, (hx.pos_lt hj hm).2⟩, And.left⟩) (fun _ _ _ _ => rfl)
  rwa [List.take_length] at hsame

theorem seqRm_fold {n : Nat} : ∀ (dropped : List Nat) (c : Cache Token), c.Ok →
    (∀ x ∈ dropped, ∃ vals, Holds c x vals ∧ vals.length ≤ n) →
    Each c (dropped.foldl (fun d (x : Nat) => d.seqRm x n (-1)) c) id
  | [], c, hok, _ => ⟨hok, rfl, fun _ _ => rfl, rfl⟩
  | x :: dropped, c, hok, hdrop => by
    obtain ⟨vals, hx, hlen⟩ := hdrop x List.mem_cons_self
    have hone := seqRm_nothing hok hx hlen
    refine hone.trans (seqRm_fold dropped _ hone.ok fun y hy => ?_)
    obtain ⟨vals', hy', hlen'⟩ := hdrop y (List.mem_cons_of_mem _ hy)
    exact ⟨vals', holds_of_same hone hy', hlen'⟩

/-- Behind the selection: a selected sequence has one token more than the cache, the other active ones have none. -/
structure Selected (cfg : Config) (size i : Nat) (st : State) : Prop extends Base cfg size st where
  cur : st.nPastCur = st.nPastDft + i
  nodup : (st.batch.map Prod.fst).Nodup
  next : ∀ x ∈ st.batch.map Prod.fst,
    x < cfg.nSeqDft ∧ Holds st.cache x (st.text ++ st.held x) ∧ (st.text ++ st.held x).length = st.nPastCur
  chosen : ∀ x, (st.drafts x).drafting = true → (st.drafts x).active = true ∧ (st.drafts x).tokens ≠ [] ∧
    (st.held x).length = i ∧ ∃ v, (x, v) ∈ st.batch ∧ (st.drafts x).tokens.tail = st.held x ++ [v]
  other : ∀ x, (st.drafts x).active = true → (st.drafts x).drafting = false →
    (st.drafts x).tokens.tail <+: st.held x ∧ (st.held x).length ≤ i

/-- Without a selection, everything sampled is selected. -/
theorem Sampling.selected (h : Sampling cfg size i start cfg.nSeqDft st) : Selected cfg size i st := by
  refine { toBase := h.toBase, cur := h.cur, nodup := h.nodup, next := fun x hx => h.next hx, chosen := fun x hx => ?_,
           other := fun x hx hidle => ⟨h.idle x hx hidle, h.active x hx⟩ }
  obtain ⟨b, hb, rfl⟩ := List.mem_map.mp (h.mem_batch hx)
  obtain ⟨-, -, hne, htail⟩ := h.batched b hb
  obtain ⟨h1, h2⟩ := h.drafting b.1 hx
  exact ⟨h1, hne, h2, b.2, hb, htail⟩

theorem Sampling.pruned (h : Sampling cfg size i start cfg.nSeqDft st) {t : Turn}
    (hrank : t.rank.Perm (st.batch.map Prod.fst)) : Selected cfg size i (st.pruned cfg t i start) := by
  let chosen := State.select (State.nodeLimit cfg st) st.nDraft t.pass t.rank st.selectedNodes st.nTgt
  let dropped := t.rank.filter fun x => !decide (x ∈ chosen) && (start.drafts x).active
  have hchosen : ∀ x ∈ chosen, x ∈ st.batch.map Prod.fst := fun x hx =>
    hrank.subset (select_subset _ _ _ _ _ _ x hx)
  have hdropped : ∀ x, x ∈ dropped ↔ x ∈ st.batch.map Prod.fst ∧ x ∉ chosen ∧ (start.drafts x).active = true := by
    intro x
    rw [List.mem_filter, hrank.mem_iff, Bool.and_eq_true, Bool.not_eq_true', decide_eq_false_iff_not]
  have hsame : Each st.cache (st.pruned cfg t i start).cache id := by
    refine seqRm_fold dropped st.cache h.ok fun x hx => ?_
    obtain ⟨-, hx, hlen⟩ := h.next ((hdropped x).mp hx).1
    exact ⟨_, hx, by rw [hlen, h.cur]⟩
  -- what is active now was so before, or is in the batch
  have hactive : ∀ x, ((st.pruned cfg t i start).drafts x).active = true → (st.drafts x).active = true := by
    intro x hx
    have hor : (start.drafts x).active = true ∨ x ∈ chosen := by
      have hx' : ((start.drafts x).active || decide (x ∈ chosen)) = true := hx
      rwa [Bool.or_eq_true, decide_eq_true_eq] at hx'
    rcases hor with hx | hx
    · exact h.keeps x hx
    · obtain ⟨b, hb, rfl⟩ := List.mem_map.mp (hchosen x hx)
      exact (h.drafting b.1 (h.batched b hb).1).1
  refine { ok := hsame.ok, small := fun j hj => ?_, size_eq := hsame.size_eq.trans h.size_eq, text_length := h.text_length,
           lt := fun x hx => h.lt x (hactive x hx), cap := h.cap,
           holds := fun x hx => holds_of_same hsame (h.holds x (hx.imp_right (hactive x))), cur := h.cur, nodup := h.nodup,
           next := fun x hx => ?_, chosen := fun x hx => ?_, other := fun x hx hidle => ?_ }
  · rw [hsame.size_eq] at hj
    rw [hsame.cell_eq j hj]
    exact h.small j hj
  · obtain ⟨h1, h2, h3⟩ := h.next hx
    exact ⟨h1, holds_of_same hsame h2, h3⟩
  · have hin : x ∈ chosen := of_decide_eq_true hx
    obtain ⟨b, hb, rfl⟩ := List.mem_map.mp (hchosen x hin)
    obtain ⟨hdr, -, hne, htail⟩ := h.batched b hb
    have htok : ((st.pruned cfg t i start).drafts b.1).tokens = (st.drafts b.1).tokens :=
      if_neg fun hd => ((hdropped b.1).mp hd).2.1 hin
    rw [htok]
    refine ⟨?_, hne, (h.drafting b.1 hdr).2, b.2, hb, htail⟩
    change ((start.drafts b.1).active || decide (b.1 ∈ chosen)) = true
    rw [decide_eq_true hin, Bool.or_true]
  · have hout : x ∉ chosen := of_decide_eq_false hidle
    have hwas : (start.drafts x).active = true := by
      have hx' : ((start.drafts x).active || decide (x ∈ chosen)) = true := hx
      rwa [decide_eq_false hout, Bool.or_false] at hx'
    refine ⟨?_, h.active x (hactive x hx)⟩
    change (if x ∈ dropped then (st.drafts x).tokens.dropLast else (st.drafts x).tokens).tail <+: st.held x
    by_cases hd : x ∈ dropped
    · -- the token that was not selected is taken back
      obtain ⟨b, hb, rfl⟩ := List.mem_map.mp ((hdropped x).mp hd).1
      obtain ⟨-, -, hne, htail⟩ := h.batched b hb
      rw [if_pos hd, List.tail_dropLast, htail, List.dropLast_concat]
    · rw [if_neg hd]
      refine h.idle x (hactive x hx) ?_
      rw [Bool.eq_false_iff]
      exact fun hdr => hd ((hdropped x).mpr ⟨h.mem_batch hdr, hout, hwas⟩)

/-! ### The end of a turn -/

theorem Selected.decode (h : Selected cfg size i st) (hsize : (size : Int) ≤ posMax) (hmax : cfg.nSeqDft ≤ cfg.nSeqMax)
    (hne : st.batch ≠ []) : batchInit st.cache.cells cfg.nSeqMax st.rows = true ∧ (st.fits cfg →
      Drafting cfg size (i + 1) { st.decode cfg with nPastCur := st.nPastCur + 1, phase := .draft (i + 1) }) := by
  have hsize' : (st.cache.cells.size : Int) ≤ posMax := by
    rw [h.size_eq]
    exact hsize
  obtain ⟨hinit, hdec⟩ := State.decode_spec h.ok hsize' h.small h.nodup hne (fun x hx => (h.next x hx).1.trans_le hmax)
    (fun x hx => (h.next x hx).2)
  refine ⟨hinit, fun hfits => ?_⟩
  obtain ⟨c, heq, hok, hsmall, hcsize, hholds⟩ := hdec hfits
  rw [heq]
  refine { ok := hok, small := hsmall, size_eq := hcsize.trans h.size_eq, text_length := h.text_length, lt := h.lt, cap := h.cap,
           holds := fun x hx => hholds x (h.holds x hx) fun hmem => (h.next x hmem).2.2, cur := ?_,
           drafting := fun x hx => ?_, active := fun x hx => ?_ }
  · change st.nPastCur + 1 = st.nPastDft + (i + 1)
    rw [h.cur]
    omega
  · obtain ⟨h1, h2, h3, v, hv, h4⟩ := h.chosen x hx
    have htok : tokensFor st.batch x = [v] := tokensFor_eq h.nodup hv
    refine ⟨h1, h2, ?_, ?_⟩
    · change (st.drafts x).tokens.tail = st.held x ++ tokensFor st.batch x
      rw [h4, htok]
    · change (st.held x ++ tokensFor st.batch x).length = i + 1
      rw [htok, List.length_append, h3, List.length_singleton]
  · change (st.drafts x).tokens.tail <+: st.held x ++ tokensFor st.batch x ∧
      (st.held x ++ tokensFor st.batch x).length ≤ i + 1
    cases hdr : (st.drafts x).drafting with
    | true =>
        obtain ⟨-, -, h3, v, hv, h4⟩ := h.chosen x hdr
        have htok : tokensFor st.batch x = [v] := tokensFor_eq h.nodup hv
        rw [h4, htok]
        exact ⟨List.prefix_rfl, by rw [List.length_append, h3, List.length_singleton]⟩
    | false =>
        obtain ⟨h1, h2⟩ := h.other x hx hdr
        refine ⟨h1.trans (List.prefix_append _ _), ?_⟩
        rw [List.length_append]
        by_cases hmem : x ∈ st.batch.map Prod.fst
        · obtain ⟨b, hb, rfl⟩ := List.mem_map.mp hmem
          rw [tokensFor_eq h.nodup hb, List.length_singleton]
          omega
        · rw [tokensFor_of_notMem hmem, List.length_nil]
          omega

theorem Base.finish (h : Base cfg size st) (hcur : st.nPastDft ≤ st.nPastCur)
    (htok : ∀ x, (st.drafts x).active = true → (st.drafts x).tokens.tail.take (st.nPastCur - st.nPastDft) <+: st.held x)
    (hlen : cfg.prune = false → ∀ x, (st.drafts x).active = true →
      (st.drafts x).tokens.tail.length ≤ st.nPastCur - st.nPastDft) : Verifying cfg size st.finish := by
  have hact : ∀ x, (st.finish.drafts x).active = (st.drafts x).active := by
    intro x
    unfold State.finish
    dsimp only
    split
    · rfl
    · rfl
  have htail : ∀ x, (st.drafts x).active = true → (st.finish.drafts x).tokens = (st.drafts x).tokens.tail := by
    intro x hx
    unfold State.finish
    dsimp only
    rw [if_pos hx]
  refine { ok := h.ok, small := h.small, size_eq := h.size_eq, text_length := h.text_length, lt := fun x hx => ?_, cap := h.cap,
           holds := fun x hx => h.holds x ?_, cur := hcur, tokens := fun x hx => ?_, length := fun hp x hx => ?_ }
  · rw [hact] at hx
    exact h.lt x hx
  · rwa [hact] at hx
  · rw [hact] at hx
    rw [htail x hx]
    exact htok x hx
  · rw [hact] at hx
    rw [htail x hx]
    exact hlen hp x hx

/-- The loop ended in front of a turn. -/
theorem Drafting.finish (h : Drafting cfg size i st) : Verifying cfg size st.finish := by
  have hcur := h.cur
  refine h.toBase.finish (by omega) (fun x hx => ?_) (fun _ x hx => ?_)
  · exact (List.take_prefix _ _).trans (h.active x hx).1
  · obtain ⟨h1, h2⟩ := h.active x hx
    have := h1.length_le
    omega

/-- The loop ended in a turn that sampled nothing. -/
theorem Sampling.finish (h : Sampling cfg size i start cfg.nSeqDft st) (hnil : st.batch = []) :
    Verifying cfg size st.finish := by
  have hcur := h.cur
  have hidle : ∀ x, (st.drafts x).drafting = false := by
    intro x
    rw [Bool.eq_false_iff]
    intro hx
    have hmem := h.mem_batch hx
    rw [hnil] at hmem
    cases hmem
  refine h.toBase.finish (by omega) (fun x hx => ?_) (fun _ x hx => ?_)
  · exact (List.take_prefix _ _).trans (h.idle x hx (hidle x))
  · have h1 := (h.idle x hx (hidle x)).length_le
    have h2 := h.active x hx
    omega

/-- `draft_tree_prune` left its loop behind a selection: the last token of the selected sequences is not decoded. -/
theorem Selected.finish (h : Selected cfg size i st) (hprune : cfg.prune = true) : Verifying cfg size st.finish := by
  have hcur := h.cur
  refine h.toBase.finish (by omega) (fun x hx => ?_) (fun hp => ?_)
  · cases hdr : (st.drafts x).drafting with
    | true =>
        obtain ⟨-, -, h3, v, -, h4⟩ := h.chosen x hdr
        have hlevels : st.nPastCur - st.nPastDft = (st.held x).length := by omega
        rw [h4, hlevels, List.take_left]
    | false => exact (List.take_prefix _ _).trans (h.other x hx hdr).1
  · rw [hprune] at hp
    cases hp

/-! ## A verification -/

theorem getElem?_of_possible {acc : List Nat} (h : st.possible cfg acc = true) {k x : Nat} (hk : acc[k]? = some x) :
    x < cfg.nSeqDft ∧ (st.drafts x).active = true ∧ k < (st.drafts x).tokens.length := by
  unfold State.possible at h
  rw [List.all_eq_true] at h
  have hmem : (x, k) ∈ acc.zipIdx := List.mem_zipIdx_iff_getElem?.mpr hk
  have := h (x, k) hmem
  rw [Bool.and_eq_true, Bool.and_eq_true, decide_eq_true_eq, decide_eq_true_eq] at this
  exact ⟨this.1.1, this.1.2, this.2⟩

/-- What is accepted is the start of the branch that is kept. -/
theorem accepted_eq {acc : List Nat} (h : st.possible cfg acc = true) (hone : st.oneBranch acc) :
    st.accepted acc = (st.drafts (State.sKeep acc)).tokens.take acc.length := by
  apply List.ext_getElem?
  intro k
  unfold State.accepted
  rw [List.getElem?_mapIdx]
  by_cases hk : k < acc.length
  · have hacc := List.getElem?_eq_getElem hk
    obtain ⟨-, -, hlen⟩ := getElem?_of_possible h hacc
    rw [hacc, List.getElem?_take_of_lt hk, ← hone k _ hacc, List.getElem?_eq_getElem hlen, Option.map_some,
      List.getD_eq_getElem _ _ hlen]
  · rw [List.getElem?_eq_none (by omega), List.getElem?_take_eq_none (by omega)]
    rfl

theorem sKeep_cases (acc : List Nat) : (acc = [] ∧ State.sKeep acc = 0) ∨
    ∃ k, k + 1 = acc.length ∧ acc[k]? = some (State.sKeep acc) := by
  cases hacc : acc.getLast? with
  | none =>
      have hnil := List.getLast?_eq_none_iff.mp hacc
      subst hnil
      exact .inl ⟨rfl, rfl⟩
  | some x =>
      have hne : acc ≠ [] := by
        rintro rfl
        cases hacc
      have hlen := List.length_pos_iff.mpr hne
      refine .inr ⟨acc.length - 1, by omega, ?_⟩
      unfold State.sKeep
      rw [← List.getLast?_eq_getElem?, hacc, List.getLastD_eq_getLast?, hacc]
      rfl

/-- Behind the bookkeeping, sequence 0 is the committed text. -/
theorem Verifying.keep (h : Verifying cfg size st) {acc : List Nat} (hposs : st.possible cfg acc = true)
    (hone : st.oneBranch acc)
    (hdec : cfg.prune = true → acc.length ≤ st.nPastCur - st.nPastDft) (tok : Token) :
    (st.keep acc tok).cache.Ok ∧ (st.keep acc tok).cache.Small ∧ (st.keep acc tok).cache.cells.size = size ∧
      Holds (st.keep acc tok).cache 0 (st.text ++ st.accepted acc) ∧
      (st.text ++ st.accepted acc).length = st.nPastDft + acc.length := by
  have haccepted := accepted_eq hposs hone
  obtain ⟨hholds, htake, hlength⟩ : Holds st.cache (State.sKeep acc) (st.text ++ st.held (State.sKeep acc)) ∧
      (st.held (State.sKeep acc)).take acc.length = st.accepted acc ∧ (st.accepted acc).length = acc.length := by
    rcases sKeep_cases acc with ⟨rfl, hzero⟩ | ⟨k, hk, hlast⟩
    · exact ⟨h.holds _ (.inl hzero), rfl, rfl⟩
    · obtain ⟨-, hact, hlen⟩ := getElem?_of_possible hposs hlast
      -- as many tokens of the branch are decoded as are accepted
      have hlevels : acc.length ≤ st.nPastCur - st.nPastDft := by
        cases hp : cfg.prune with
        | true => exact hdec hp
        | false =>
            have := h.length hp _ hact
            omega
      have hpre : (st.drafts (State.sKeep acc)).tokens.take acc.length <+: st.held (State.sKeep acc) :=
        (List.take_prefix_take_left hlevels).trans (h.tokens _ hact)
      have hl : ((st.drafts (State.sKeep acc)).tokens.take acc.length).length = acc.length := by
        rw [List.length_take]
        omega
      refine ⟨h.holds _ (.inr hact), ?_, by rw [haccepted]; exact hl⟩
      have heq := List.prefix_iff_eq_take.mp hpre
      rw [hl] at heq
      rw [haccepted]
      exact heq.symm
  have hbelow : Below st.cache (State.sKeep acc) := fun j hj _ => h.small j hj
  have heach := h.ok.keepDft hbelow (st.nPastDft + acc.length)
  refine ⟨heach.ok, fun j hj => ?_, heach.size_eq.trans h.size_eq, ?_, ?_⟩
  · change j < (st.cache.keepDft (State.sKeep acc) (st.nPastDft + acc.length)).cells.size at hj
    rw [heach.size_eq] at hj
    change ((st.cache.keepDft (State.sKeep acc) (st.nPastDft + acc.length)).cells.cell j).pos < posMax
    rw [heach.cell_eq j hj]
    unfold Cell.renamed
    split
    · exact h.small j hj
    · exact (by decide : (-1 : Int) < posMax)
  · have hcut : (st.text ++ st.held (State.sKeep acc)).take (st.nPastDft + acc.length) = st.text ++ st.accepted acc := by
      rw [← h.text_length, List.take_length_add_append, htake]
    rw [← hcut]
    exact hholds.renamed heach
  · rw [List.length_append, h.text_length, hlength]

theorem Verifying.begin (h : Verifying cfg size st) (hsize : (size : Int) ≤ posMax) (hseq : 1 ≤ cfg.nSeqDft)
    (hmax : cfg.nSeqDft ≤ cfg.nSeqMax) {acc : List Nat} (hposs : st.possible cfg acc = true) (hone : st.oneBranch acc)
    (hdec : cfg.prune = true → acc.length ≤ st.nPastCur - st.nPastDft) (tok : Token) (nDraft : Nat) :
    batchInit (st.keep acc tok).cache.cells cfg.nSeqMax (st.keep acc tok).rows = true ∧ ((st.keep acc tok).fits cfg →
      Drafting cfg size 0 (((st.keep acc tok).decode cfg).begin tok nDraft)) := by
  obtain ⟨hok, hsmall, hcsize, hholds, hlen⟩ := h.keep hposs hone hdec tok
  have hsize' : ((st.keep acc tok).cache.cells.size : Int) ≤ posMax := by
    rw [hcsize]
    exact hsize
  have hzero : ∀ x ∈ (st.keep acc tok).batch.map Prod.fst, x = 0 := fun x hx => List.mem_singleton.mp hx
  have hnext : ∀ x ∈ (st.keep acc tok).batch.map Prod.fst,
      Holds (st.keep acc tok).cache x ((st.keep acc tok).text ++ (st.keep acc tok).held x) ∧
        ((st.keep acc tok).text ++ (st.keep acc tok).held x).length = (st.keep acc tok).nPastCur := by
    intro x hx
    rw [hzero x hx]
    change Holds (st.keep acc tok).cache 0 (st.text ++ st.accepted acc ++ []) ∧
      (st.text ++ st.accepted acc ++ []).length = st.nPastDft + acc.length
    rw [List.append_nil]
    exact ⟨hholds, hlen⟩
  have hlt : ∀ x ∈ (st.keep acc tok).batch.map Prod.fst, x < cfg.nSeqMax := by
    intro x hx
    rw [hzero x hx]
    omega
  obtain ⟨hinit, hfit⟩ := State.decode_spec hok hsize' hsmall (List.nodup_singleton 0) (List.cons_ne_nil _ _) hlt hnext
  refine ⟨hinit, fun hfits => ?_⟩
  obtain ⟨c, heq, hok', hsmall', hcsize', hholds'⟩ := hfit hfits
  rw [heq]
  have hboth := hholds' 0 (hnext 0 (List.mem_singleton_self 0)).1 fun hmem => (hnext 0 hmem).2
  have honly : ∀ x, ((State.begin { st.keep acc tok with
      cache := c, held := fun x => (st.keep acc tok).held x ++ tokensFor
        (st.keep acc tok).batch x } tok nDraft).drafts x).active =
        true → x = 0 := by
    intro x hx
    by_contra hne
    change ((if x = 0 then ({ active := true, drafting := true, tokens := [tok] } : SeqDraft) else {}).active) = true at hx
    rw [if_neg hne] at hx
    cases hx
  refine { ok := hok', small := hsmall', size_eq := hcsize'.trans hcsize, text_length := ?_, lt := fun x hx => ?_, cap := hseq,
           holds := fun x hx => ?_, cur := rfl, drafting := fun x hx => ?_, active := fun x hx => ?_ }
  · change (st.text ++ st.accepted acc ++ [tok]).length = st.nPastDft + acc.length + 1
    rw [List.length_append, hlen, List.length_singleton]
  · rw [honly x hx]
    exact Nat.one_pos
  · have hx0 : x = 0 := hx.elim id (honly x)
    rw [hx0]
    change Holds c 0 (st.text ++ st.accepted acc ++ [tok] ++ [])
    rw [List.append_nil]
    exact hboth
  · have hx0 : x = 0 := by
      by_contra hne
      change ((if x = 0 then ({ active := true, drafting := true, tokens := [tok] } : SeqDraft) else {}).drafting) =
        true at hx
      rw [if_neg hne] at hx
      cases hx
    subst hx0
    exact ⟨rfl, List.cons_ne_nil _ _, rfl, rfl⟩
  · rw [honly x hx]
    exact ⟨List.prefix_rfl, le_rfl⟩

/-! ## Runs -/

def Inv (cfg : Config) (size : Nat) (st : State) : Prop :=
  match st.phase with
  | .verify => Verifying cfg size st
  | .draft i => Drafting cfg size i st

/-- The decode in front of which `p` is continues the committed text: its batch is accepted, sequence 0 has the text and what
is drafted on it, and each token is behind the last one of its sequence. -/
structure Continues (cfg : Config) (p : State) : Prop where
  accepted : batchInit p.cache.cells cfg.nSeqMax p.rows = true
  text_length : p.text.length = p.nPastDft
  zero : Holds p.cache 0 (p.text ++ p.held 0)
  next : ∀ r ∈ p.rows, ∀ x ∈ r.ids, Holds p.cache x (p.text ++ p.held x) ∧ r.pos = (p.text ++ p.held x).length

theorem Selected.continues (h : Selected cfg size i st) (hsize : (size : Int) ≤ posMax) (hmax : cfg.nSeqDft ≤ cfg.nSeqMax)
    (hne : st.batch ≠ []) : Continues cfg st := by
  refine ⟨(h.decode hsize hmax hne).1, h.text_length, h.holds 0 (.inl rfl), fun r hr x hx => ?_⟩
  obtain ⟨b, hb, rfl⟩ := List.mem_map.mp hr
  obtain rfl := List.mem_singleton.mp hx
  obtain ⟨-, h1, h2⟩ := h.next b.1 (List.mem_map.mpr ⟨b, hb, rfl⟩)
  exact ⟨h1, by rw [h2]⟩

theorem Verifying.continues (h : Verifying cfg size st) (hsize : (size : Int) ≤ posMax) (hseq : 1 ≤ cfg.nSeqDft)
    (hmax : cfg.nSeqDft ≤ cfg.nSeqMax) {acc : List Nat} (hposs : st.possible cfg acc = true) (hone : st.oneBranch acc)
    (hdec : cfg.prune = true → acc.length ≤ st.nPastCur - st.nPastDft) (tok : Token) : Continues cfg (st.keep acc tok) := by
  obtain ⟨-, -, -, hholds, hlen⟩ := h.keep hposs hone hdec tok
  have hzero : Holds (st.keep acc tok).cache 0 ((st.keep acc tok).text ++ (st.keep acc tok).held 0) := by
    change Holds (st.keep acc tok).cache 0 (st.text ++ st.accepted acc ++ [])
    rw [List.append_nil]
    exact hholds
  refine ⟨(h.begin hsize hseq hmax hposs hone hdec tok 0).1, hlen, hzero, fun r hr x hx => ?_⟩
  obtain rfl := List.mem_singleton.mp hr
  obtain rfl := List.mem_singleton.mp hx
  refine ⟨hzero, ?_⟩
  change ((st.nPastDft + acc.length : Nat) : Int) = ((st.text ++ st.accepted acc ++ []).length : Nat)
  rw [List.append_nil, hlen]

/-- What a turn leads to. -/
theorem Drafting.takeTurn (h : Drafting cfg size i st) {t : Turn} {goes : Bool} {p : State}
    (hturn : st.takeTurn cfg t i = some (goes, p)) :
    (goes = true → p.batch ≠ [] ∧ Selected cfg size i p) ∧ (goes = false → Verifying cfg size p.finish) := by
  have hsampled := h.sampled t.cands
  unfold State.takeTurn at hturn
  dsimp only at hturn
  split at hturn
  · rename_i hnil
    cases hturn
    exact ⟨fun hc => (by cases hc), fun _ => hsampled.finish hnil⟩
  · rename_i hne
    split at hturn
    · rename_i hprune
      split at hturn
      · rename_i hrank
        obtain ⟨rfl, rfl⟩ := Prod.mk.inj (Option.some.inj hturn)
        have hselected := hsampled.pruned (List.isPerm_iff.mp hrank)
        exact ⟨fun _ => ⟨hne, hselected⟩, fun _ => hselected.finish hprune⟩
      · cases hturn
    · cases hturn
      exact ⟨fun _ => ⟨hne, hsampled.selected⟩, fun hc => (by cases hc)⟩

theorem Inv.step (hsize : (size : Int) ≤ posMax) (hseq : 1 ≤ cfg.nSeqDft) (hmax : cfg.nSeqDft ≤ cfg.nSeqMax)
    (h : Inv cfg size st) {op : Op} (hfine : Fine cfg st op) :
    (∀ p, prepared cfg op st = some p → Continues cfg p ∧ (st.phase = .verify → ∀ x, p.held x = [])) ∧
      ∀ st', step cfg op st = some st' → Inv cfg size st' := by
  obtain ⟨hfits, hcond⟩ := hfine
  unfold Inv at h
  cases hphase : st.phase with
  | verify =>
      rw [hphase] at h
      cases op with
      | turn t =>
          unfold prepared Tree.step
          rw [hphase]
          exact ⟨fun p hp => (by cases hp), fun st' hst => (by cases hst)⟩
      | verify acc tok nDraft =>
          obtain ⟨hdec, hone⟩ := hcond
          unfold prepared at hfits ⊢
          unfold Tree.step
          rw [hphase] at hfits ⊢
          dsimp only at hfits ⊢
          cases hposs : st.possible cfg acc with
          | false => exact ⟨fun p hp => (by cases hp), fun st' hst => (by cases hst)⟩
          | true =>
              refine ⟨fun p hp => ?_, fun st' hst => ?_⟩
              · cases hp
                exact ⟨h.continues hsize hseq hmax hposs hone hdec tok, fun _ x => rfl⟩
              · cases hst
                refine (h.begin hsize hseq hmax hposs hone hdec tok nDraft).2 (hfits _ ?_)
                rw [hposs]
                rfl
  | draft i =>
      rw [hphase] at h
      cases op with
      | verify acc tok nDraft =>
          unfold prepared Tree.step
          rw [hphase]
          exact ⟨fun p hp => (by cases hp), fun st' hst => (by cases hst)⟩
      | turn t =>
          unfold prepared at hfits ⊢
          unfold Tree.step
          rw [hphase] at hfits ⊢
          dsimp only at hfits ⊢
          cases hmore : st.more cfg i with
          | false =>
              refine ⟨fun p hp => (by cases hp), fun st' hst => ?_⟩
              cases hst
              exact h.finish
          | true =>
              rw [hmore, if_pos rfl] at hfits
              rw [if_pos rfl, if_pos rfl]
              cases hturn : st.takeTurn cfg t i with
              | none => exact ⟨fun p hp => (by cases hp), fun st' hst => (by cases hst)⟩
              | some r =>
                  obtain ⟨goes, p⟩ := r
                  rw [hturn] at hfits
                  obtain ⟨hgo, hend⟩ := h.takeTurn hturn
                  cases goes with
                  | true =>
                      obtain ⟨hne, hselected⟩ := hgo rfl
                      refine ⟨fun q hq => ?_, fun st' hst => ?_⟩
                      · cases hq
                        exact ⟨hselected.continues hsize hmax hne, fun hc => (by cases hc)⟩
                      · cases hst
                        exact (hselected.decode hsize hmax hne).2 (hfits p rfl)
                  | false =>
                      refine ⟨fun q hq => (by cases hq), fun st' hst => ?_⟩
                      cases hst
                      exact hend rfl

end

def pruneOne : Config := ⟨1, 4, 8, true, 0, 5, 1⟩

def emptyCache : Cache Token := { cells := { size := 8 }, data := id }

def promptCache : Cache Token := (emptyCache.clear.llamaDecode 4 8 (rowsFrom 0 [1])).getD emptyCache

theorem promptCache_eq : emptyCache.clear.llamaDecode 4 8 (rowsFrom 0 [1]) = some promptCache := by
  have hsome : (emptyCache.clear.llamaDecode 4 8 (rowsFrom 0 [1])).isSome = true := by decide +kernel
  obtain ⟨c, hc⟩ := Option.isSome_iff_exists.mp hsome
  unfold promptCache
  rw [hc]
  rfl

def onlyCandidate : Turn := { cands := fun _ => ⟨⟨7, 1⟩, []⟩, rank := [0] }

theorem fine_first : Fine pruneOne (State.start promptCache [1]) (.verify [] 5 3) := by
  refine ⟨fun p hp => ?_, fun _ => Nat.zero_le _, fun i s h => by simp at h⟩
  obtain rfl : (State.start promptCache [1]).keep [] 5 = p := Option.some.inj hp
  unfold State.fits
  decide +kernel

end S2Moe.Draft.Tree
