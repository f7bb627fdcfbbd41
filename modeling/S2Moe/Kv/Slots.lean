import S2Moe.Kv.Streams

/-!
# `find_slot`

The scan of the cells as the loop that it is, with a test counter and a head that wraps around.

* `Cells.Usable` : the cells that a new token may take;
* `testCells`, `slotLoop` : the inner and the outer loop; the outer one runs on `fuel`, and nothing is for out of fuel;
* `Streams.findSlotLoop` : the search for a ubatch; `findSlotLoop_eq` : it ends, with what `Streams.findSlot` returns;
* `findSlotLoop_spec` : a slot is found exactly if there is room.
-/

namespace S2Moe.Kv
open S2Moe.Lib

/-- An empty cell, or one of a single sequence behind the window of the next position of that sequence. -/
def Cells.Usable (w : Swa) (c : Cells) (i : Nat) : Prop :=
  (c.cell i).pos = -1 ∨
    ∃ s < maxSeq, (c.cell i).seq = {s} ∧ w.isMasked (c.cell i).pos (c.seqPosMax s + 1) = true

/-- The state of the search: `head_cur`, `n_tested` and the cells found. -/
structure Scan where
  head : Nat
  tested : Nat
  idxs : List Nat

/-- Cells that are no run are left. -/
def Scan.dropRun (cont : Bool) (s : Scan) : Scan := if cont then { s with idxs := [] } else s

theorem Scan.dropRun_tested (cont : Bool) (s : Scan) : (s.dropRun cont).tested = s.tested := by
  unfold Scan.dropRun
  split
  · rfl
  · rfl

section Loop
variable (canUse : Nat → Bool)

/-- The loop over the `n_test` cells that are tested together. -/
def testCells (cont : Bool) : Nat → Scan → Scan
  | 0, s => s
  | n + 1, s =>
    let next : Scan := { s with head := s.head + 1, tested := s.tested + 1 }
    if canUse s.head then testCells cont n { next with idxs := s.idxs ++ [s.head] }
    else if cont then next
    else testCells cont n next

def slotLoop (size nTokens : Nat) (cont : Bool) : Nat → Scan → Option (Option (List Nat))
  | 0, _ => none
  | fuel + 1, s =>
    let nTest := if cont then nTokens else 1
    if size < s.head + nTest then
      slotLoop size nTokens cont fuel { s with tested := s.tested + (size - s.head), head := 0 }
    else
      let s := testCells canUse cont nTest s
      if s.idxs.length = nTokens then some (some s.idxs)
      else if size ≤ s.tested then some none
      else slotLoop size nTokens cont fuel (s.dropRun cont)

end Loop

section
variable {D : Type}

def Cache.findSlotLoop (w : Swa) (fuel : Nat) (c : Cache D) (nTokens : Nat) (cont : Bool) : Option (Option (List Nat)) :=
  let head := if c.cells.getUsed + 2 * nTokens < c.head then 0 else c.head
  if c.cells.size < nTokens then some none
  else slotLoop (c.cells.canUse w) c.cells.size nTokens cont fuel ⟨head, 0, []⟩

/-- The first stream without a slot ends the search, which only reads the cache. -/
def Streams.findSlotLoop (st : Streams D) (fuel : Nat) (cont : Bool) :
    List (Part D) → Option (Option (List (Part D × List Nat)))
  | [] => some (some [])
  | part :: u =>
    ((st.strm (st.streamOf part.seq)).findSlotLoop st.swa fuel part.rows.length cont).bind fun
      | none => some none
      | some idxs => (findSlotLoop st fuel cont u).map fun r => r.map ((part, idxs) :: ·)

end

/-! ## The cells that may be taken -/

theorem Cells.seqGet_eq_some {c : Cells} {i s : Nat} (hs : s < maxSeq) (hseq : (c.cell i).seq = {s}) :
    c.seqGet i = some s := by
  unfold Cells.seqGet
  rw [List.find?_range_eq_some]
  rw [hseq]
  refine ⟨by simp, List.mem_range.mpr hs, fun j hj => ?_⟩
  simp
  omega

theorem Cells.canUse_iff {w : Swa} {c : Cells} {i : Nat} : c.canUse w i = true ↔ c.Usable w i := by
  unfold Cells.canUse Cells.Usable Cells.isEmpty
  rw [Bool.or_eq_true, decide_eq_true_iff, Bool.and_eq_true, decide_eq_true_iff]
  refine or_congr_right ⟨?_, ?_⟩
  · rintro ⟨hcard, hany⟩
    obtain ⟨s, hseq⟩ := Finset.card_eq_one.mp hcard
    cases hget : c.seqGet i with
    | none =>
        rw [hget] at hany
        cases hany
    | some t =>
        rw [hget] at hany
        unfold Cells.seqGet at hget
        have hmem : t ∈ (c.cell i).seq := by simpa using List.find?_some hget
        have hlt := List.mem_range.mp (List.mem_of_find?_eq_some hget)
        rw [hseq, Finset.mem_singleton] at hmem
        exact ⟨t, hlt, by rw [hseq, hmem], hany⟩
  · rintro ⟨s, hs, hseq, hmask⟩
    rw [Cells.seqGet_eq_some hs hseq, hseq]
    exact ⟨Finset.card_singleton s, hmask⟩

instance {w : Swa} {c : Cells} : DecidablePred (c.Usable w) := fun _ => decidable_of_iff _ Cells.canUse_iff

/-! ## The loop and the general search -/

section Loop
variable {p : Nat → Bool}

/-- Tests one by one. -/
theorem testCells_single (s : Scan) :
    testCells p false 1 s = ⟨s.head + 1, s.tested + 1, s.idxs ++ if p s.head then [s.head] else []⟩ := by
  rw [testCells]
  split
  · rfl
  · rw [if_neg Bool.false_ne_true, List.append_nil]
    rfl

/-- Tests of neighbours, up to the first that cannot be used. -/
theorem testCells_run : ∀ (n : Nat) (s : Scan), testCells p true n s =
    if runLength p s.head n = n then ⟨s.head + n, s.tested + n, s.idxs ++ List.range' s.head n⟩
    else ⟨s.head + (runLength p s.head n + 1), s.tested + (runLength p s.head n + 1),
      s.idxs ++ List.range' s.head (runLength p s.head n)⟩
  | 0, s => by simp [testCells, runLength]
  | n + 1, s => by
    rw [testCells, runLength]
    split
    · rw [testCells_run n]
      dsimp only
      by_cases hm : runLength p (s.head + 1) n = n
      · rw [if_pos hm, if_pos (by omega), List.append_assoc, List.singleton_append, ← List.range'_succ]
        congr 1 <;> omega
      · rw [if_neg hm, if_neg (by omega), List.append_assoc, List.singleton_append, ← List.range'_succ]
        congr 1 <;> omega
    · rw [if_pos rfl, if_neg (by omega)]
      simp

/-- Every round of the loop tests a cell. -/
theorem lt_testCells_tested (p : Nat → Bool) (cont : Bool) : ∀ (n : Nat) (s : Scan), s.tested + min n 1 ≤
    (testCells p cont n s).tested
  | 0, s => by
    rw [testCells]
    omega
  | n + 1, s => by
    rw [testCells]
    have hrest : ∀ t : Scan, t.tested = s.tested + 1 → s.tested + min (n + 1) 1 ≤ (testCells p cont n t).tested := by
      intro t ht
      have := lt_testCells_tested p cont n t
      omega
    split
    · exact hrest _ rfl
    · split
      · dsimp only
        omega
      · exact hrest _ rfl

section Loop
variable {size n : Nat}

/-- **The loop ends**: every other round at least tests a cell, and after `size` tests no more are made. -/
theorem slotLoop_isSome (hn : 0 < n) (hfit : n ≤ size) (cont : Bool) : ∀ (fuel : Nat) (s : Scan),
    2 * (size - s.tested) + (if s.head = 0 then 0 else 1) < fuel → (slotLoop p size n cont fuel s).isSome
  | 0, _, hfuel => absurd hfuel (Nat.not_lt_zero _)
  | fuel + 1, s, hfuel => by
    rw [slotLoop]
    have htests : 0 < (if cont then n else 1) ∧ (if cont then n else 1) ≤ size := by
      split
      · exact ⟨hn, hfit⟩
      · exact ⟨Nat.zero_lt_one, by omega⟩
    dsimp only
    generalize (if cont then n else 1) = k at htests ⊢
    have htest := lt_testCells_tested p cont k s
    by_cases hwrap : size < s.head + k
    · rw [if_pos hwrap]
      rw [if_neg (by omega)] at hfuel
      refine slotLoop_isSome hn hfit cont fuel _ ?_
      dsimp only
      rw [if_pos rfl]
      omega
    · rw [if_neg hwrap]
      split
      · rfl
      · split
        · rfl
        · refine slotLoop_isSome hn hfit cont fuel _ ?_
          rw [Scan.dropRun_tested]
          split
          · omega
          · omega

/-- More fuel changes nothing. -/
theorem slotLoop_mono {cont : Bool} : ∀ {fuel more : Nat} {s : Scan} {r : Option (List Nat)},
    slotLoop p size n cont fuel s = some r → fuel ≤ more → slotLoop p size n cont more s = some r
  | 0, _, _, _, hrun, _ => by cases hrun
  | fuel + 1, 0, _, _, _, hle => absurd hle (Nat.not_succ_le_zero _)
  | fuel + 1, more + 1, s, r, hrun, hle => by
    rw [slotLoop] at hrun ⊢
    dsimp only at hrun ⊢
    have hle' := Nat.le_of_succ_le_succ hle
    generalize (if cont then n else 1) = k at hrun ⊢
    by_cases hwrap : size < s.head + k
    · rw [if_pos hwrap] at hrun ⊢
      exact slotLoop_mono hrun hle'
    · rw [if_neg hwrap] at hrun ⊢
      split
      · rwa [if_pos ‹_›] at hrun
      · rw [if_neg ‹_›] at hrun
        split
        · rwa [if_pos ‹_›] at hrun
        · rw [if_neg ‹_›] at hrun
          exact slotLoop_mono hrun hle'

/-- Cell by cell it is `collect`. -/
theorem slotLoop_collect : ∀ (fuel : Nat) {head tested : Nat} {idxs : List Nat} {r : Option (List Nat)} {tests need : Nat},
    0 < need → 0 < tests → head ≤ size → tested + tests = size → idxs.length + need = n →
    slotLoop p size n false fuel ⟨head, tested, idxs⟩ = some r → r = (collect p size tests head need).map (idxs ++ ·)
  | 0, _, _, _, _, _, _, _, _, _, _, _, hrun => by cases hrun
  | fuel + 1, head, tested, idxs, r, tests + 1, need, hneed, _, hhead, htested, hlen, hrun => by
    rw [slotLoop] at hrun
    simp only [Bool.false_eq_true, if_false] at hrun
    split at hrun
    · -- the wrap; the next round begins with cell 0
      rename_i hwrap
      have hstart : collect p size (tests + 1) 0 need = collect p size (tests + 1) head need := by
        have h0 : ¬ size < 0 + 1 := by omega
        simp only [collect, if_pos hwrap, if_neg h0]
      rw [← hstart]
      exact slotLoop_collect fuel hneed (Nat.succ_pos tests) (Nat.zero_le size) (by omega) hlen hrun
    · rename_i hin
      rw [testCells_single] at hrun
      rw [collect, if_neg hin]
      dsimp only [Scan.dropRun] at hrun ⊢
      rw [if_neg Bool.false_ne_true] at hrun
      cases hp : p head with
      | true =>
          rw [hp, if_pos rfl, List.length_append, List.length_singleton] at hrun
          rw [if_pos rfl]
          split at hrun
          · cases hrun
            rw [if_pos (by omega)]
            rfl
          · rw [if_neg (by omega), Option.map_map]
            split at hrun
            · cases hrun
              obtain rfl : tests = 0 := by omega
              rfl
            · have hnext := slotLoop_collect fuel (show 0 < need - 1 by omega) (show 0 < tests by omega) (by omega)
                (by omega) (by rw [List.length_append, List.length_singleton]; omega) hrun
              rw [hnext]
              congr 1
              funext l
              exact List.append_assoc _ _ _
      | false =>
          rw [hp, if_neg Bool.false_ne_true, List.append_nil, if_neg (by omega)] at hrun
          rw [if_neg Bool.false_ne_true]
          split at hrun
          · cases hrun
            obtain rfl : tests = 0 := by omega
            rfl
          · exact slotLoop_collect fuel hneed (by omega) (by omega) (by omega) hlen hrun

/-- Neighbour by neighbour it is `seekRun`. -/
theorem slotLoop_seekRun : ∀ (fuel : Nat) {head tested : Nat} {r : Option (List Nat)},
    slotLoop p size n true fuel ⟨head, tested, []⟩ = some r →
    r = (seekRun p size n fuel head tested).map (List.range' · n)
  | 0, _, _, _, hrun => by cases hrun
  | fuel + 1, head, tested, r, hrun => by
    rw [slotLoop] at hrun
    simp only [if_true] at hrun
    rw [seekRun]
    split at hrun
    · rw [if_pos ‹_›]
      exact slotLoop_seekRun fuel hrun
    · rw [if_neg ‹_›]
      rw [testCells_run] at hrun
      dsimp only at hrun ⊢
      by_cases hm : runLength p head n = n
      · rw [if_pos hm] at hrun
        rw [if_pos hm]
        rw [List.nil_append, List.length_range', if_pos rfl] at hrun
        cases hrun
        rfl
      · rw [if_neg hm] at hrun
        rw [if_neg hm]
        rw [List.nil_append, List.length_range', if_neg hm] at hrun
        split at hrun
        · rw [if_pos ‹_›]
          cases hrun
          rfl
        · rw [if_neg ‹_›]
          exact slotLoop_seekRun fuel hrun

end Loop

end Loop

/-! ## The search for a ubatch -/

section
variable {D : Type}

/-- The loop returns what the general searches do. -/
theorem Cache.findSlotLoop_eq {w : Swa} {c : Cache D} {nTokens fuel : Nat} (hpos : 0 < nTokens)
    (hhead : c.head ≤ c.cells.size) (hfuel : 2 * c.cells.size + 2 ≤ fuel) (cont : Bool) :
    c.findSlotLoop w fuel nTokens cont = some (c.findSlotIn w nTokens cont) := by
  unfold Cache.findSlotLoop Cache.findSlotIn
  dsimp only
  have hstart : (if c.cells.getUsed + 2 * nTokens < c.head then 0 else c.head) ≤ c.cells.size := by
    split
    · exact Nat.zero_le _
    · exact hhead
  generalize (if c.cells.getUsed + 2 * nTokens < c.head then 0 else c.head) = head at hstart ⊢
  split
  · rfl
  · rename_i hfit
    have hends := slotLoop_isSome (p := c.cells.canUse w) hpos (show nTokens ≤ c.cells.size by omega) cont
      (2 * c.cells.size + 2) ⟨head, 0, []⟩ (by
        dsimp only
        split
        · omega
        · omega)
    obtain ⟨r, hr⟩ := Option.isSome_iff_exists.mp hends
    rw [slotLoop_mono hr hfuel]
    congr 1
    cases cont with
    | true =>
        rw [if_pos rfl]
        exact slotLoop_seekRun _ hr
    | false =>
        rw [if_neg Bool.false_ne_true]
        have hrun := slotLoop_collect _ (show 0 < nTokens from hpos) (show 0 < c.cells.size by omega) hstart
          (Nat.zero_add _) (Nat.zero_add _) hr
        simpa using hrun

/-- **The search for a ubatch ends.** -/
theorem Streams.findSlotLoop_eq (st : Streams D) (cont : Bool) {fuel : Nat} : ∀ {u : List (Part D)},
    (∀ part ∈ u, part.rows ≠ [] ∧ (st.strm (st.streamOf part.seq)).head ≤ (st.strm (st.streamOf part.seq)).cells.size ∧
      2 * (st.strm (st.streamOf part.seq)).cells.size + 2 ≤ fuel) →
    st.findSlotLoop fuel cont u = some (st.findSlot cont u)
  | [], _ => rfl
  | part :: u, h => by
    obtain ⟨hne, hhead, hfuel⟩ := h part List.mem_cons_self
    rw [Streams.findSlotLoop, Streams.findSlot, Cache.findSlotLoop_eq (List.length_pos_iff.mpr hne) hhead hfuel,
      Streams.findSlotLoop_eq st cont fun q hq => h q (List.mem_cons_of_mem _ hq)]
    cases (st.strm (st.streamOf part.seq)).findSlotIn st.swa part.rows.length cont with
    | none => rfl
    | some idxs => rfl

/-- There is room for `n` tokens: usable cells, in a run where one is asked for. -/
def Cells.HasRoom (w : Swa) (c : Cells) (n : Nat) (cont : Bool) : Prop :=
  if cont then ∃ start, start + n ≤ c.size ∧ ∀ i < n, c.Usable w (start + i)
  else n ≤ ((Finset.range c.size).filter (c.Usable w)).card

/-- A slot for `n` tokens: different usable cells, a run where one is asked for. -/
structure Cells.Slot (w : Swa) (c : Cells) (n : Nat) (cont : Bool) (idxs : List Nat) : Prop where
  length : idxs.length = n
  nodup : idxs.Nodup
  usable : ∀ i ∈ idxs, i < c.size ∧ c.Usable w i
  run : cont = true → ∃ start, idxs = List.range' start n

theorem Cache.findSlotIn_slot {w : Swa} {c : Cache D} {n : Nat} {cont : Bool} {idxs : List Nat} (hpos : 0 < n)
    (hhead : c.head ≤ c.cells.size) (hfind : c.findSlotIn w n cont = some idxs) : c.cells.Slot w n cont idxs := by
  unfold Cache.findSlotIn at hfind
  dsimp only at hfind
  split at hfind
  · cases hfind
  · rename_i hfit
    split at hfind
    · rename_i hcont
      obtain ⟨start, hseek, rfl⟩ := Option.map_eq_some_iff.mp hfind
      obtain ⟨hle, hrun⟩ := seekRun_spec hseek
      refine ⟨List.length_range', List.nodup_range', fun i hi => ?_, fun _ => ⟨start, rfl⟩⟩
      have hi' := List.mem_range'_1.mp hi
      refine ⟨by omega, Cells.canUse_iff.mp ?_⟩
      have := hrun (i - start) (by omega)
      rwa [show start + (i - start) = i by omega] at this
    · rename_i hcont
      obtain ⟨hlen, hall, hpair⟩ := collect_spec (by omega) _ _ _ hpos (by split <;> omega) le_rfl hfind
      refine ⟨hlen, hpair.imp fun hlt hc => ?_, fun i hi => ⟨(hall i hi).1, Cells.canUse_iff.mp (hall i hi).2.1⟩,
        fun hc => absurd hc hcont⟩
      rw [hc] at hlt
      exact lt_irrefl _ hlt

theorem Cache.findSlotIn_isSome {w : Swa} {c : Cache D} {n : Nat} {cont : Bool} (hpos : 0 < n)
    (hhead : c.head ≤ c.cells.size) (hroom : c.cells.HasRoom w n cont) : (c.findSlotIn w n cont).isSome := by
  unfold Cache.findSlotIn
  unfold Cells.HasRoom at hroom
  dsimp only
  have hstart : (if c.cells.getUsed + 2 * n < c.head then 0 else c.head) ≤ c.cells.size := by
    split
    · exact Nat.zero_le _
    · exact hhead
  split
  · rename_i hlarge
    split at hroom
    · obtain ⟨start, hle, -⟩ := hroom
      omega
    · have hle := Finset.card_filter_le (Finset.range c.cells.size) (c.cells.Usable w)
      rw [Finset.card_range] at hle
      omega
  · rename_i hfit
    split
    · rw [if_pos ‹_›] at hroom
      obtain ⟨start, hle, hrun⟩ := hroom
      rw [Option.isSome_map]
      exact seekRun_isSome hpos hle (fun i hi => Cells.canUse_iff.mpr (hrun i hi)) hstart
    · rw [if_neg ‹_›] at hroom
      refine collect_isSome (by omega) _ _ _ hpos hstart le_rfl (hroom.trans (Finset.card_le_card fun i hi => ?_))
      obtain ⟨hi, huse⟩ := Finset.mem_filter.mp hi
      exact Finset.mem_filter.mpr
        ⟨hi, Cells.canUse_iff.mpr huse, ahead_lt (by omega) _ i⟩

/-- A slot is room. -/
theorem Cells.Slot.hasRoom {w : Swa} {c : Cells} {n : Nat} {cont : Bool} {idxs : List Nat} (h : c.Slot w n cont idxs) :
    c.HasRoom w n cont := by
  unfold Cells.HasRoom
  split
  · rename_i hcont
    obtain ⟨start, rfl⟩ := h.run hcont
    rcases Nat.eq_zero_or_pos n with rfl | hpos
    · exact ⟨0, Nat.zero_le _, fun i hi => absurd hi (Nat.not_lt_zero i)⟩
    · have hlast := (h.usable (start + (n - 1)) (List.mem_range'_1.mpr (by omega))).1
      exact ⟨start, by omega, fun i hi => (h.usable (start + i) (List.mem_range'_1.mpr (by omega))).2⟩
  · rw [← h.length, ← List.toFinset_card_of_nodup h.nodup]
    refine Finset.card_le_card fun i hi => ?_
    obtain ⟨hlt, huse⟩ := h.usable i (List.mem_toFinset.mp hi)
    exact Finset.mem_filter.mpr ⟨Finset.mem_range.mpr hlt, huse⟩

/-- What is found are slots, one for each part. -/
theorem Streams.findSlot_slots (st : Streams D) {cont : Bool} : ∀ {u : List (Part D)} {slots : List (Part D × List Nat)},
    (∀ part ∈ u, (st.strm (st.streamOf part.seq)).head ≤ (st.strm (st.streamOf part.seq)).cells.size) →
    (∀ part ∈ u, part.rows ≠ []) → st.findSlot cont u = some slots → slots.map Prod.fst = u ∧
      ∀ x ∈ slots, (st.strm (st.streamOf x.1.seq)).cells.Slot st.swa x.1.rows.length cont x.2
  | [], _, _, _, hfind => by
    cases hfind
    exact ⟨rfl, fun _ hx => absurd hx List.not_mem_nil⟩
  | part :: u, slots, hhead, hne, hfind => by
    rw [Streams.findSlot] at hfind
    split at hfind
    · cases hfind
    · rename_i idxs hidxs
      obtain ⟨rest, hrest, rfl⟩ := Option.map_eq_some_iff.mp hfind
      obtain ⟨hfst, hall⟩ := Streams.findSlot_slots st (fun q hq => hhead q (List.mem_cons_of_mem _ hq))
        (fun q hq => hne q (List.mem_cons_of_mem _ hq)) hrest
      refine ⟨by rw [List.map_cons, hfst], fun x hx => ?_⟩
      rcases List.mem_cons.mp hx with rfl | hx
      · exact Cache.findSlotIn_slot (List.length_pos_iff.mpr (hne part List.mem_cons_self)) (hhead part List.mem_cons_self)
          hidxs
      · exact hall x hx

theorem Streams.findSlot_isSome (st : Streams D) {cont : Bool} : ∀ {u : List (Part D)},
    (∀ part ∈ u, (st.strm (st.streamOf part.seq)).head ≤ (st.strm (st.streamOf part.seq)).cells.size) →
    (∀ part ∈ u, part.rows ≠ []) →
    (∀ part ∈ u, (st.strm (st.streamOf part.seq)).cells.HasRoom st.swa part.rows.length cont) → (st.findSlot cont u).isSome
  | [], _, _, _ => rfl
  | part :: u, hhead, hne, hroom => by
    obtain ⟨idxs, hidxs⟩ := Option.isSome_iff_exists.mp (Cache.findSlotIn_isSome
      (List.length_pos_iff.mpr (hne part List.mem_cons_self)) (hhead part List.mem_cons_self) (hroom part List.mem_cons_self))
    rw [Streams.findSlot, hidxs]
    dsimp only
    rw [Option.isSome_map]
    exact Streams.findSlot_isSome st (fun q hq => hhead q (List.mem_cons_of_mem _ hq))
      (fun q hq => hne q (List.mem_cons_of_mem _ hq)) fun q hq => hroom q (List.mem_cons_of_mem _ hq)

/-- **Soundness and completeness of `find_slot`**: for a cache with its heads in range the search ends, each stream gets
as many different usable cells as it has tokens (neighbours with `cont`), and a slot is found exactly if every stream has
room. -/
theorem Streams.findSlotLoop_spec (st : Streams D) (cont : Bool) (u : List (Part D)) (fuel : Nat)
    (hhead : ∀ part ∈ u, (st.strm (st.streamOf part.seq)).head ≤ (st.strm (st.streamOf part.seq)).cells.size)
    (hne : ∀ part ∈ u, part.rows ≠ [])
    (hfuel : ∀ part ∈ u, 2 * (st.strm (st.streamOf part.seq)).cells.size + 2 ≤ fuel) :
    ∃ r, st.findSlotLoop fuel cont u = some r ∧
      (∀ slots, r = some slots → slots.map Prod.fst = u ∧
        ∀ x ∈ slots, (st.strm (st.streamOf x.1.seq)).cells.Slot st.swa x.1.rows.length cont x.2) ∧
      (r.isSome ↔ ∀ part ∈ u, (st.strm (st.streamOf part.seq)).cells.HasRoom st.swa part.rows.length cont) := by
  refine ⟨st.findSlot cont u, st.findSlotLoop_eq cont fun part hp => ⟨hne part hp, hhead part hp, hfuel part hp⟩,
    fun slots hfind => st.findSlot_slots hhead hne hfind, fun hsome part hpart => ?_, st.findSlot_isSome hhead hne⟩
  obtain ⟨slots, hfind⟩ := Option.isSome_iff_exists.mp hsome
  obtain ⟨hfst, hall⟩ := st.findSlot_slots hhead hne hfind
  rw [← hfst] at hpart
  obtain ⟨x, hx, rfl⟩ := List.mem_map.mp hpart
  exact (hall x hx).hasRoom

end

/-- A window of two positions; the first stream holds three tokens, the second is empty. -/
def behindWindow : Streams Unit where
  swa := { nSwa := 2, type := .standard }
  nStream := 2
  strm k := if k = 0 then
    { cells := { size := 3, cell := fun i => ⟨i, 0, {0}⟩, used := {0, 1, 2}, seqPos := fun s => if s = 0 then {0, 1, 2} else 0 },
      data := fun _ => (), head := 3 }
    else { cells := { size := 3 }, data := fun _ => () }

def nextTokens : List (Part Unit) := [⟨0, [⟨3, [0], ()⟩]⟩, ⟨1, [⟨0, [1], ()⟩]⟩]

/-- The cell of position 0 may be taken. -/
theorem findSlotLoop_spec_window :
    (∃ r, behindWindow.findSlotLoop 8 false nextTokens = some r ∧
      (∀ slots, r = some slots → slots.map Prod.fst = nextTokens ∧ ∀ x ∈ slots,
        (behindWindow.strm (behindWindow.streamOf x.1.seq)).cells.Slot behindWindow.swa x.1.rows.length false x.2) ∧
      (r.isSome ↔ ∀ part ∈ nextTokens, (behindWindow.strm (behindWindow.streamOf part.seq)).cells.HasRoom behindWindow.swa
        part.rows.length false)) ∧
    (behindWindow.findSlotLoop 8 false nextTokens).map (Option.map (List.map Prod.snd)) = some (some [[0], [0]]) :=
  ⟨behindWindow.findSlotLoop_spec false nextTokens 8 (by decide) (by decide) (by decide), by decide +kernel⟩

end S2Moe.Kv
