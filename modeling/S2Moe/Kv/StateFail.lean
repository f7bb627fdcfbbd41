import S2Moe.Kv.Apply
import S2Moe.Kv.StateSeq

/-!
# `state_seq_set_data`: restores that fail

The reader of a buffer throws where the buffer ends, from wherever that is, and the exception is caught outside of
`state_read`.

* `lookPositions`, `lookData` : what the reader makes of the bytes, without a cache; `stateReadData_follows`;
* `RowsOnly` : reading the rows changes nothing but the rows of the run that was assigned;
* `Kept` : the destination has what it had or nothing, and the other sequences have what they had; `Along` : the same on
the way;
* `Clean` : the buffer does not end behind the first cell that was assigned, and what is taken back is all there is to it;
* `stateSeqSetData_kept` : a failed restore then leaves no trace but that the destination may be empty.
-/

namespace S2Moe.Kv
open S2Moe.Lib
open S2Moe.Recurrent (lower upper posMax)

/-! ## What the bytes say -/

def lookPositions : Nat → Read Unit (Option (List Int))
  | 0 => return some []
  | n + 1 => do
    let pos ← Read.int 4
    let nSeq ← Read.nat 4
    if nSeq ≠ 1 then return none
    else do
      let _ ← Read.int 4
      return (← lookPositions n).map (pos :: ·)

def lookRows (t : GgmlType) (row count : Nat) : Read Unit Bool := do
  let type ← Read.int 4
  if type ≠ (t.id : Int) then return false
  else do
    let size ← Read.nat 8
    if size ≠ row then return false
    else do
      let _ ← Read.bytes (count * row)
      return true

def lookElems (l : Layer) (count : Nat) : Read Unit Bool := do
  let type ← Read.int 4
  if type ≠ (l.vType.id : Int) then return false
  else do
    let el ← Read.nat 4
    if el ≠ l.vEl then return false
    else do
      let n ← Read.nat 4
      if n ≠ l.nEmbdV then return false
      else
        Read.each (fun _ => do
          let _ ← Read.bytes (count * l.vEl)
          return true) (List.range l.nEmbdV)

/-- The rows of `count` cells, for a stream of `size` cells. -/
def lookData (conf : Conf) (size count : Nat) : Read Unit Bool := do
  let vTrans ← Read.nat 4
  let nLayer ← Read.nat 4
  if nLayer ≠ conf.nLayer then return false
  else if size < count then return false
  else if conf.vTrans ≠ decide (vTrans ≠ 0) then return false
  else do
    if ← Read.each (fun il => lookRows (conf.layer il).kType (conf.layer il).kRow count) (List.range conf.nLayer) then
      if conf.vTrans then Read.each (fun il => lookElems (conf.layer il) count) (List.range conf.nLayer)
      else Read.each (fun il => lookRows (conf.layer il).vType (conf.layer il).vRow count) (List.range conf.nLayer)
    else return false

theorem readPositions_follows (P : Store → Prop) : ∀ n, Follows P (readPositions n) (lookPositions n)
  | 0 => Follows.pure _
  | n + 1 => by
    refine (Follows.int 4).bind fun pos => (Follows.nat 4).bind fun nSeq => ?_
    by_cases h : nSeq ≠ 1
    · rw [if_pos h, if_pos h]
      exact Follows.pure none
    · rw [if_neg h, if_neg h]
      exact (Follows.int 4).bind fun _ => (readPositions_follows P n).bind fun ps => Follows.pure _

/-! ## Rows -/

/-- `m` is `base` but for rows of the cells from the head on. -/
structure RowsOnly (conf : Conf) (base : Store) (strm count : Nat) (m : Store) : Prop where
  st : m.st = base.st
  kRow : ∀ t i il, (t = strm → i < base.head strm ∨ base.head strm + count ≤ i) → m.kRow conf t i il = base.kRow conf t i il
  vRow : ∀ t i il, i < (base.cells t).size → il < conf.nLayer →
    (t = strm → i < base.head strm ∨ base.head strm + count ≤ i) → m.vRow conf t i il = base.vRow conf t i il

/-- A place behind which no offset of an element is too large for 32 bits. -/
def Conf.Fits (conf : Conf) (size : Nat) : Prop := conf.vTrans → ∀ il < conf.nLayer, size * (conf.layer il).nEmbdV ≤ 2 ^ 32

section Rows
variable {conf : Conf} {base m : Store} {strm count il : Nat} {bs : List UInt8}

theorem set_apply (x : Tensors) (il s : Nat) (mem : Nat → UInt8) (il' t : Nat) :
    x.set il s mem il' t = if il' = il ∧ t = s then mem else x il' t := by
  unfold Tensors.set
  by_cases hil : il' = il
  · subst hil
    rw [Function.update_self]
    by_cases ht : t = s
    · rw [ht, Function.update_self, if_pos ⟨rfl, rfl⟩]
    · rw [Function.update_of_ne ht, if_neg fun hc => ht hc.2]
  · rw [Function.update_of_ne hil, if_neg fun hc => hil hc.1]

theorem slice_putRows_row {mem : Nat → UInt8} {row head i : Nat} (hlen : bs.length = count * row)
    (hi : i < head ∨ head + count ≤ i) : slice (putRows mem (head * row) bs) (i * row) row = slice mem (i * row) row := by
  refine slice_putRows_of_disjoint ?_
  rcases hi with hi | hi
  · left
    have := Nat.mul_le_mul_right row (Nat.succ_le_of_lt hi)
    rwa [Nat.succ_mul] at this
  · right
    rw [hlen, ← Nat.add_mul]
    exact Nat.mul_le_mul_right row hi

theorem RowsOnly.rfl' : RowsOnly conf base strm count base := ⟨rfl, fun _ _ _ _ => rfl, fun _ _ _ _ _ _ => rfl⟩

theorem RowsOnly.putK (h : RowsOnly conf base strm count m) (hlen : bs.length = count * (conf.layer il).kRow) :
    RowsOnly conf base strm count (m.putK il strm (m.head strm * (conf.layer il).kRow) bs) where
  st := h.st
  kRow t i il' hi := by
    rw [← h.kRow t i il' hi]
    unfold Store.kRow Store.putK Store.setK
    dsimp only
    rw [set_apply]
    split
    · rename_i heq
      obtain ⟨rfl, rfl⟩ := heq
      have hhead : m.head t = base.head t := by
        unfold Store.head
        rw [h.st]
      rw [hhead]
      exact slice_putRows_row hlen (hi rfl)
    · rfl
  vRow := h.vRow

theorem RowsOnly.putV (h : RowsOnly conf base strm count m) (htrans : conf.vTrans = false)
    (hlen : bs.length = count * (conf.layer il).vRow) :
    RowsOnly conf base strm count (m.putV il strm (m.head strm * (conf.layer il).vRow) bs) where
  st := h.st
  kRow := h.kRow
  vRow t i il' hlt hil hi := by
    rw [← h.vRow t i il' hlt hil hi]
    unfold Store.vRow Store.putV Store.setV
    dsimp only
    rw [htrans, if_neg Bool.false_ne_true, if_neg Bool.false_ne_true, set_apply]
    split
    · rename_i heq
      obtain ⟨rfl, rfl⟩ := heq
      have hhead : m.head t = base.head t := by
        unfold Store.head
        rw [h.st]
      rw [hhead]
      exact slice_putRows_row hlen (hi rfl)
    · rfl

/-- Element `j` of the cells of the run. -/
theorem RowsOnly.putElem (h : RowsOnly conf base strm count m) (htrans : conf.vTrans = true)
    (hfits : conf.Fits (base.cells strm).size) (hil : il < conf.nLayer)
    (hroom : base.head strm + count ≤ (base.cells strm).size)
    (hpos : 0 < count) {j : Nat} (hj : j < (conf.layer il).nEmbdV) (hlen : bs.length = count * (conf.layer il).vEl) :
    RowsOnly conf base strm count
      (m.putV il strm ((m.head strm + j * (m.cells strm).size) % 2 ^ 32 * (conf.layer il).vEl) bs) where
  st := h.st
  kRow := h.kRow
  vRow t i il' hlt hil' hi := by
    rw [← h.vRow t i il' hlt hil' hi]
    unfold Store.vRow Store.putV Store.setV
    dsimp only
    rw [htrans, if_pos rfl, if_pos rfl, set_apply]
    refine List.flatMap_congr fun j' hj' => ?_
    split
    · rename_i heq
      obtain ⟨rfl, rfl⟩ := heq
      have hhead : m.head t = base.head t := by
        unfold Store.head
        rw [h.st]
      have hcells : m.cells t = base.cells t := by
        unfold Store.cells
        rw [h.st]
      have hle : (j + 1) * (base.cells t).size ≤ 2 ^ 32 := by
        have h1 := Nat.mul_le_mul_right (base.cells t).size (Nat.succ_le_of_lt hj)
        have h2 := hfits htrans il' hil'
        rw [Nat.mul_comm] at h2
        exact h1.trans h2
      rw [Nat.succ_mul] at hle
      rw [hhead]
      change slice (putRows (m.v il' t) ((base.head t + j * (m.cells t).size) % 2 ^ 32 * _) bs)
        ((i + j' * (m.cells t).size) * _) _ = slice (m.v il' t) ((i + j' * (m.cells t).size) * _) _
      rw [hcells, Nat.mod_eq_of_lt (by omega)]
      refine slice_putRows_of_disjoint ?_
      rw [hlen, ← Nat.add_mul, ← Nat.succ_mul]
      -- the row of element `j` in the tensor, or a row before or behind it
      rcases lt_trichotomy j' j with hlt' | rfl | hgt
      · have hmul := Nat.mul_le_mul_right (base.cells t).size (Nat.succ_le_of_lt hlt')
        rw [Nat.succ_mul] at hmul
        exact .inl (Nat.mul_le_mul_right _ (by omega))
      · rcases hi rfl with hi | hi
        · exact .inl (Nat.mul_le_mul_right _ (by omega))
        · exact .inr (Nat.mul_le_mul_right _ (by omega))
      · have hmul := Nat.mul_le_mul_right (base.cells t).size (Nat.succ_le_of_lt hgt)
        rw [Nat.succ_mul] at hmul
        exact .inr (Nat.mul_le_mul_right _ (by omega))
    · rfl

theorem readRows_follows {P : Store → Prop} {t : GgmlType} {row : Nat} {put : List UInt8 → Store → Store}
    (hput : ∀ bs m, bs.length = count * row → P m → P (put bs m)) :
    Follows P (readRows t row count put) (lookRows t row count) := by
  refine (Follows.int 4).bind fun type => ?_
  by_cases htype : type ≠ (t.id : Int)
  · rw [if_pos htype, if_pos htype]
    exact Follows.pure false
  · rw [if_neg htype, if_neg htype]
    refine (Follows.nat 8).bind fun size => ?_
    by_cases hsize : size ≠ row
    · rw [if_pos hsize, if_pos hsize]
      exact Follows.pure false
    · rw [if_neg hsize, if_neg hsize]
      refine Follows.bytes_bind fun bs hlen => Follows.get_bind fun m hm => ?_
      exact Follows.set_bind (hput bs m hlen hm) (Follows.pure true)

theorem readElems_follows {P : Store → Prop} (hput : ∀ bs m j, j < (conf.layer il).nEmbdV →
      bs.length = count * (conf.layer il).vEl → P m →
      P (m.putV il strm ((m.head strm + j * (m.cells strm).size) % 2 ^ 32 * (conf.layer il).vEl) bs)) :
    Follows P (readElems conf strm count il) (lookElems (conf.layer il) count) := by
  refine (Follows.int 4).bind fun type => ?_
  by_cases htype : type ≠ ((conf.layer il).vType.id : Int)
  · rw [if_pos htype, if_pos htype]
    exact Follows.pure false
  · rw [if_neg htype, if_neg htype]
    refine (Follows.nat 4).bind fun el => ?_
    by_cases hel : el ≠ (conf.layer il).vEl
    · rw [if_pos hel, if_pos hel]
      exact Follows.pure false
    · rw [if_neg hel, if_neg hel]
      refine (Follows.nat 4).bind fun n => ?_
      by_cases hn : n ≠ (conf.layer il).nEmbdV
      · rw [if_pos hn, if_pos hn]
        exact Follows.pure false
      · rw [if_neg hn, if_neg hn]
        refine Follows.each fun j hj => Follows.bytes_bind fun bs hlen => Follows.get_bind fun m hm => ?_
        exact Follows.set_bind (hput bs m j (List.mem_range.mp hj) hlen hm) (Follows.pure true)

/-- **Reading the rows** follows the bytes alone, and changes only the rows of the run where it fits into the stream. -/
theorem stateReadData_follows (hfits : conf.Fits (base.cells strm).size) (hpos : 0 < count) :
    Follows (fun m => m.st = base.st ∧ (base.head strm + count ≤ (base.cells strm).size → RowsOnly conf base strm count m))
      (stateReadData conf strm count) (lookData conf (base.cells strm).size count) := by
  refine (Follows.nat 4).bind fun vTrans => (Follows.nat 4).bind fun nLayer => Follows.get_bind fun m hm => ?_
  have hsize : (m.cells strm).size = (base.cells strm).size := by
    unfold Store.cells
    rw [hm.1]
  rw [hsize]
  have hfollows : Follows
      (fun m => m.st = base.st ∧ (base.head strm + count ≤ (base.cells strm).size → RowsOnly conf base strm count m))
      (if nLayer ≠ conf.nLayer then return false
      else if (base.cells strm).size < count then return false
      else if conf.vTrans ≠ decide (vTrans ≠ 0) then return false
      else do
        if ← Read.each (readKeys conf strm count) (List.range conf.nLayer) then
          if conf.vTrans then Read.each (readElems conf strm count) (List.range conf.nLayer)
          else Read.each (readValues conf strm count) (List.range conf.nLayer)
        else return false) (if nLayer ≠ conf.nLayer then return false
      else if (base.cells strm).size < count then return false
      else if conf.vTrans ≠ decide (vTrans ≠ 0) then return false
      else do
        if ← Read.each (fun il => lookRows (conf.layer il).kType (conf.layer il).kRow count) (List.range conf.nLayer) then
          if conf.vTrans then Read.each (fun il => lookElems (conf.layer il) count) (List.range conf.nLayer)
          else Read.each (fun il => lookRows (conf.layer il).vType (conf.layer il).vRow count) (List.range conf.nLayer)
        else return false) := by
    by_cases h1 : nLayer ≠ conf.nLayer
    · rw [if_pos h1, if_pos h1]
      exact Follows.pure false
    · rw [if_neg h1, if_neg h1]
      by_cases h2 : (base.cells strm).size < count
      · rw [if_pos h2, if_pos h2]
        exact Follows.pure false
      · rw [if_neg h2, if_neg h2]
        by_cases h3 : conf.vTrans ≠ decide (vTrans ≠ 0)
        · rw [if_pos h3, if_pos h3]
          exact Follows.pure false
        · rw [if_neg h3, if_neg h3]
          refine (Follows.each fun il _ => readRows_follows fun bs m hlen hm =>
            ⟨hm.1, fun hroom => (hm.2 hroom).putK hlen⟩).bind fun b => ?_
          cases b with
          | false => exact Follows.pure false
          | true =>
              rw [if_pos rfl, if_pos rfl]
              cases htrans : conf.vTrans with
              | true =>
                  rw [if_pos rfl, if_pos rfl]
                  exact Follows.each fun il hil => readElems_follows fun bs m j hj hlen hm =>
                    ⟨hm.1, fun hroom => (hm.2 hroom).putElem htrans hfits (List.mem_range.mp hil) hroom hpos hj hlen⟩
              | false =>
                  rw [if_neg Bool.false_ne_true, if_neg Bool.false_ne_true]
                  exact Follows.each fun il _ => readRows_follows fun bs m hlen hm =>
                    ⟨hm.1, fun hroom => (hm.2 hroom).putV htrans hlen⟩
  exact hfollows m hm

end Rows

/-! ## What the sequences hold on the way -/

/-- The destination has what it had or nothing, and the others have what they had. -/
def Kept (conf : Conf) (d : Nat) (m0 m : Store) : Prop :=
  (m.held conf d = m0.held conf d ∨ m.held conf d = []) ∧ ∀ e < m0.st.seqCap, e ≠ d → m.held conf e = m0.held conf e

/-- The others have what they had, and a removal reaches all that the destination has. -/
structure Along (n : Nat) (conf : Conf) (d : Nat) (m0 m : Store) : Prop where
  inv : m.st.Inv n
  home : m.st.Home
  nStream : m.st.nStream = m0.st.nStream
  others : ∀ e < m0.st.seqCap, e ≠ d → m.held conf e = m0.held conf e
  last : ∀ i < n, d ∈ ((m.cells (m.st.streamOf d)).cell i).seq → ((m.cells (m.st.streamOf d)).cell i).pos < posMax

section Along
variable {n : Nat} {conf : Conf} {d e : Nat} {m0 m m' : Store}

/-- A sequence with the same cells, and the same in them. -/
theorem held_congr {t : Nat} (ht : m.st.streamOf e = t) (hn : m'.st.nStream = m.st.nStream)
    (hsize : (m'.cells t).size = (m.cells t).size)
    (hmem : ∀ j < (m.cells t).size, e ∈ ((m'.cells t).cell j).seq ↔ e ∈ ((m.cells t).cell j).seq)
    (hholds : ∀ j < (m.cells t).size, e ∈ ((m.cells t).cell j).seq → m'.holds conf t j = m.holds conf t j) :
    m'.held conf e = m.held conf e := by
  subst ht
  have hsaves : (m'.cells (m.st.streamOf e)).saves e = (m.cells (m.st.streamOf e)).saves e := by
    refine saves_congr hsize fun j => ?_
    rw [mem_saves, mem_saves, hsize]
    refine and_congr_right fun hj => ?_
    rw [hmem j hj]
    refine and_congr_left fun hin => ?_
    have hpos : ((m'.cells (m.st.streamOf e)).cell j).pos = ((m.cells (m.st.streamOf e)).cell j).pos :=
      congrArg Held.pos (hholds j hj hin)
    rw [hpos]
  unfold Store.held
  rw [streamOf_eq hn, hsaves]
  refine List.map_congr_left fun j hj => ?_
  obtain ⟨hlt, -, hin⟩ := mem_saves.mp hj
  exact hholds j hlt hin

theorem held_eq_nil (hno : ∀ i < (m.cells (m.st.streamOf d)).size, d ∉ ((m.cells (m.st.streamOf d)).cell i).seq) :
    m.held conf d = [] := by
  unfold Store.held
  rw [List.map_eq_nil_iff, List.eq_nil_iff_forall_not_mem]
  intro i hi
  obtain ⟨hlt, -, hin⟩ := mem_saves.mp hi
  exact hno i hlt hin

/-- A cell with its rows. -/
theorem holds_congr {t j : Nat} (hcell : (m'.cells t).cell j = (m.cells t).cell j)
    (hk : ∀ il < conf.nLayer, m'.kRow conf t j il = m.kRow conf t j il)
    (hv : ∀ il < conf.nLayer, m'.vRow conf t j il = m.vRow conf t j il) : m'.holds conf t j = m.holds conf t j := by
  unfold Store.holds
  rw [hcell, List.map_congr_left fun il hil => hk il (List.mem_range.mp hil),
    List.map_congr_left fun il hil => hv il (List.mem_range.mp hil)]

theorem vRow_congr {st : Streams Unit} {t i il : Nat} (hsize : (st.strm t).cells.size = (m.cells t).size) :
    ({ m with st := st } : Store).vRow conf t i il = m.vRow conf t i il := by
  unfold Store.vRow
  change (if conf.vTrans then (List.range (conf.layer il).nEmbdV).flatMap fun j =>
    slice (m.v il t) ((i + j * (st.strm t).cells.size) * _) _ else _) = _
  rw [hsize]

theorem Along.rfl' (h : m.st.Inv n) (hhome : m.st.Home) (hlast : ∀ i < n,
    d ∈ ((m.cells (m.st.streamOf d)).cell i).seq → ((m.cells (m.st.streamOf d)).cell i).pos < posMax) :
      Along n conf d m m where
  inv := h
  home := hhome
  nStream := rfl
  others _ _ _ := rfl
  last := hlast

theorem Along.seqCap (h : Along n conf d m0 m) : m.st.seqCap = m0.st.seqCap := seqCap_eq h.nStream

theorem Along.size_eq (h : Along n conf d m0 m) {k : Nat} (hk : k < m.st.nStream) : (m.cells k).size = n :=
  (h.inv.good k hk).size_eq

theorem Along.streamOf_lt (h : Along n conf d m0 m) (he : e < m0.st.seqCap) : m.st.streamOf e < m.st.nStream :=
  h.inv.streamOf_lt (h.seqCap ▸ he)

/-- **The removal** leaves nothing of the destination. -/
theorem Along.remove (h : Along n conf d m0 m) (hd : d < m0.st.seqCap) : Along n conf d m0 { m with st := m.without d } ∧
    ({ m with st := m.without d } : Store).held conf d = [] := by
  have hd' : d < m.st.seqCap := h.seqCap ▸ hd
  have hstep := seqRm_without hd'
  obtain ⟨hsize, hcell, -⟩ := without_cells (m := m) (d := d)
  have hn := h.size_eq (h.streamOf_lt hd)
  have hgone : ∀ i < n, d ∉ (((m.without d).strm (m.st.streamOf d)).cells.cell i).seq := by
    intro i hi hmem
    rw [hcell i (by omega), Cell.mem_removed_self] at hmem
    exact hmem.2 ⟨h.inv.nonneg (h.streamOf_lt hd) hi hmem.1, h.last i hi hmem.1⟩
  have hsafe : StreamOp.safe m.st (.seqRm d (-1) (-1)) := ⟨trivial, trivial⟩
  refine ⟨⟨h.inv.step hsafe hstep, (h.home.seqRm h.inv hstep).1, h.nStream, fun e he hne => ?_,
    fun i hi hmem => absurd hmem (hgone i hi)⟩, held_eq_nil fun i hi => hgone i ?_⟩
  · rw [← h.others e he hne]
    by_cases ht : m.st.streamOf e = m.st.streamOf d
    · refine held_congr ht rfl hsize (fun j hj => ?_) fun j hj hmem => ?_
      · change e ∈ (((m.without d).strm (m.st.streamOf d)).cells.cell j).seq ↔ _
        rw [hcell j hj, Cell.mem_removed hne]
      · unfold Store.holds
        rw [Held.mk.injEq]
        refine ⟨?_, ?_, rfl, List.map_congr_left fun il _ => vRow_congr hsize⟩
        · change (((m.without d).strm (m.st.streamOf d)).cells.cell j).pos = _
          rw [hcell j hj, Cell.removed_pos hne hmem]
        · change (((m.without d).strm (m.st.streamOf d)).cells.cell j).shift = _
          rw [hcell j hj, Cell.removed_shift hne hmem]
    · have hcells : ({ m with st := m.without d } : Store).cells (m.st.streamOf e) = m.cells (m.st.streamOf e) :=
        congrArg Cache.cells (without_strm_of_ne ht)
      refine held_congr rfl rfl (by rw [hcells]) (fun j _ => by rw [hcells]) fun j _ _ => ?_
      exact holds_congr (by rw [hcells]) (fun _ _ => rfl) fun il _ => vRow_congr (congrArg Cells.size hcells)
  · rw [← hn, ← hsize]
    exact hi

theorem Along.kept (h : Along n conf d m0 m) (hnil : m.held conf d = []) : Kept conf d m0 m := ⟨.inr hnil, h.others⟩

end Along

/-! ## The cells are assigned -/

/-- No cell was taken from a sequence, and a removal reaches all positions. -/
def Harmless (st : Streams Unit) (ps : List Int) (slots : List (Part Unit × List Nat)) : Prop :=
  (∀ p ∈ ps, 0 ≤ p ∧ p < posMax) ∧ ∀ x ∈ slots, ∀ i ∈ x.2, (st.strm (st.streamOf x.1.seq)).cells.isEmpty i = true

/-- The cells of `d` are assigned, and the head is set to the first of them. -/
def assigned (d : Nat) (st : Streams Unit) (slots : List (Part Unit × List Nat)) : Streams Unit :=
  (st.applyUbatch slots).set (st.streamOf d)
    { (st.applyUbatch slots).strm (st.streamOf d) with head := (slots.flatMap Prod.snd).headI }

theorem findSlot_restoredPart {st : Streams Unit} {d : Nat} {ps : List Int} {slots : List (Part Unit × List Nat)}
    (h : st.findSlot true [restoredPart d ps] = some slots) :
    ∃ a, a + ps.length ≤ (st.strm (st.streamOf d)).cells.size ∧ slots = [(restoredPart d ps, List.range' a ps.length)] := by
  have hlen : (restoredPart d ps).rows.length = ps.length := List.length_map _
  rw [Streams.findSlot] at h
  split at h
  · cases h
  · rename_i idxs hidxs
    obtain ⟨rest, hrest, rfl⟩ := Option.map_eq_some_iff.mp h
    cases hrest
    unfold Cache.findSlotIn at hidxs
    dsimp only at hidxs
    rw [hlen] at hidxs
    split at hidxs
    · cases hidxs
    · rw [if_pos rfl] at hidxs
      obtain ⟨a, ha, rfl⟩ := Option.map_eq_some_iff.mp hidxs
      exact ⟨a, (seekRun_spec ha).1, rfl⟩

theorem headI_slot {part : Part Unit} {a k : Nat} (hk : 0 < k) : ([(part, List.range' a k)].flatMap Prod.snd).headI = a := by
  obtain ⟨k, rfl⟩ := Nat.exists_eq_succ_of_ne_zero hk.ne'
  rfl

theorem assigned_self {d : Nat} {st : Streams Unit} {slots : List (Part Unit × List Nat)} :
    (assigned d st slots).strm (st.streamOf d) =
      { (st.applyUbatch slots).strm (st.streamOf d) with head := (slots.flatMap Prod.snd).headI } :=
        Function.update_self _ _ _

theorem assigned_strm {d : Nat} {st : Streams Unit} {slots : List (Part Unit × List Nat)} (k : Nat) :
    ((assigned d st slots).strm k).cells = ((st.applyUbatch slots).strm k).cells := by
  by_cases hk : k = st.streamOf d
  · subst hk
    rw [assigned_self]
  · exact congrArg Cache.cells (Function.update_of_ne hk _ _)

/-! ### The shape of a cache -/

/-- As many streams, of as many cells. -/
structure Shaped (st st' : Streams Unit) : Prop where
  nStream : st'.nStream = st.nStream
  size : ∀ k, (st'.strm k).cells.size = (st.strm k).cells.size

section Shaped
variable {st st' st'' : Streams Unit}

theorem Shaped.rfl' : Shaped st st := ⟨rfl, fun _ => rfl⟩

theorem Shaped.trans (h : Shaped st st') (h' : Shaped st' st'') : Shaped st st'' :=
  ⟨h'.nStream.trans h.nStream, fun k => (h'.size k).trans (h.size k)⟩

theorem Shaped.set {k : Nat} {c : Cache Unit} (hsize : c.cells.size = (st.strm k).cells.size) : Shaped st (st.set k c) where
  nStream := rfl
  size j := by
    by_cases hj : j = k
    · subst hj
      rw [show (st.set j c).strm j = c from Function.update_self _ _ _, hsize]
    · rw [show (st.set k c).strm j = st.strm j from Function.update_of_ne hj _ _]

theorem size_place (c : Cells) (i : Nat) (p : Int) (ids : List Nat) : (c.place i p ids).size = c.size := by
  have hfold : ∀ (ids : List Nat) (c : Cells), (ids.foldl (fun c s => c.seqAdd i s) c).size = c.size := by
    intro ids
    induction ids with
    | nil => exact fun _ => rfl
    | cons s ids ih => exact fun c => (ih _).trans rfl
  exact (hfold ids _).trans rfl

theorem size_writeRows : ∀ (idxs : List Nat) (rows : List (Row Unit)) (c : Cache Unit) (rm : Nat → Int),
    (c.writeRows rm idxs rows).1.cells.size = c.cells.size
  | [], _, _, _ => rfl
  | _ :: _, [], _, _ => rfl
  | i :: idxs, r :: rows, c, rm => by
    rw [Cache.writeRows]
    refine (size_writeRows idxs rows _ _).trans ?_
    change (c.cells.write rm i r.pos r.ids).1.size = _
    unfold Cells.write
    split
    · exact size_place _ _ _ _
    · exact (size_place _ _ _ _).trans rfl

theorem Shaped.writeParts : ∀ (slots : List (Part Unit × List Nat)) (st : Streams Unit) (rm : Nat → Int),
    Shaped st (st.writeParts rm slots).1
  | [], _, _ => Shaped.rfl'
  | (part, idxs) :: slots, _, rm => (Shaped.set (size_writeRows idxs part.rows _ rm)).trans (Shaped.writeParts slots _ _)

theorem Shaped.purge (st : Streams Unit) (rm : Nat → Int) : Shaped st (st.purge rm) := by
  rw [Streams.purge_eq]
  refine foldl_range_rule (P := fun _ t => Shaped st t) Shaped.rfl' maxSeq fun s _ t ht => ht.trans ?_
  unfold Streams.purgeAt
  dsimp only
  split
  · exact Shaped.rfl'
  · split
    · exact Shaped.set (loop_cell _ _ (rmBody_cell s _ _)).1
    · exact Shaped.rfl'

theorem Shaped.setHeads : ∀ (slots : List (Part Unit × List Nat)) (st : Streams Unit), Shaped st (st.setHeads slots)
  | [], _ => Shaped.rfl'
  | (part, idxs) :: slots, st =>
    (Shaped.set (k := st.streamOf part.seq)
      (c := { st.strm (st.streamOf part.seq) with head := idxs.getLast?.elim 0 (· + 1) }) rfl).trans
      (Shaped.setHeads slots _)

theorem Shaped.assigned (d : Nat) (slots : List (Part Unit × List Nat)) : Shaped st (assigned d st slots) := by
  have happly : Shaped st (st.applyUbatch slots) :=
    ((Shaped.writeParts slots st _).trans (Shaped.purge _ _)).trans (Shaped.setHeads slots _)
  exact happly.trans (Shaped.set rfl)

theorem Shaped.without (m : Store) (d : Nat) : Shaped m.st (m.without d) :=
  Shaped.set (loop_cell _ _ (rmBody_cell d (-1) (-1))).1

end Shaped

section Assign
variable {n : Nat} {conf : Conf} {d e : Nat} {m0 m m' : Store} {ps : List Int} {a : Nat}

theorem fits_restoredPart (h : m.st.Inv n) (hd : d < m.st.seqCap) (hmax : m.st.seqCap ≤ maxSeq) (hne : ps ≠ [])
    (hps : ∀ p ∈ ps, 0 ≤ p ∧ p < posMax) : m.st.Fits [restoredPart d ps] where
  distinct := List.nodup_singleton _
  stream part hpart := by
    rw [List.mem_singleton.mp hpart]
    exact h.streamOf_lt hd
  ne part hpart := by
    rw [List.mem_singleton.mp hpart]
    exact fun hc => hne (List.map_eq_nil_iff.mp hc)
  rows part hpart r hr := by
    rw [List.mem_singleton.mp hpart] at hr
    obtain ⟨p, hp, rfl⟩ := List.mem_map.mp hr
    exact ⟨⟨(hps p hp).1, List.cons_ne_nil _ _, List.nodup_singleton _⟩, (hps p hp).2.le⟩
  home part hpart r hr s hs := by
    rw [List.mem_singleton.mp hpart] at hr ⊢
    obtain ⟨p, -, rfl⟩ := List.mem_map.mp hr
    rw [List.mem_singleton.mp hs]
    exact ⟨lt_of_lt_of_le hd hmax, rfl⟩

/-- **The cells were empty**, so nothing is purged. -/
theorem assigned_spec (h : m.st.Inv n) (hhome : m.st.Home) (hd : d < m.st.seqCap) (hmax : m.st.seqCap ≤ maxSeq)
    {slots : List (Part Unit × List Nat)} (hslots : slots = [(restoredPart d ps, List.range' a ps.length)])
    (hpos : 0 < ps.length)
    (hroom : a + ps.length ≤ n) (hfind : m.st.findSlot true [restoredPart d ps] = some slots)
    (hharm : Harmless m.st ps slots) :
    (assigned d m.st slots).Inv n ∧ (assigned d m.st slots).Home ∧
      (∀ k < m.st.nStream, ∀ i < n, (k = m.st.streamOf d → i < a ∨ a + ps.length ≤ i) →
        ((assigned d m.st slots).strm k).cells.cell i = (m.st.strm k).cells.cell i) ∧
      ∀ i, a ≤ i → i < a + ps.length →
        (((assigned d m.st slots).strm (m.st.streamOf d)).cells.cell i).seq = {d} ∧
          (((assigned d m.st slots).strm (m.st.streamOf d)).cells.cell i).pos < posMax := by
  obtain ⟨-, hs, -⟩ := (fits_restoredPart h hd hmax (List.length_pos_iff.mp hpos) hharm.1).slots h hfind
  obtain ⟨rm, happ⟩ := Streams.applyUbatch_spec h hhome hs
  have hrm : ∀ s, rm s = -1 := by
    intro s
    rcases happ.remembers.last s with heq | htaken
    · exact heq
    · obtain ⟨x, hx, i, hi, hat, hne, -⟩ := htaken
      have hempty := hharm.2 x hx i hi
      unfold Cells.isEmpty at hempty
      exact absurd (hat.symm.trans (of_decide_eq_true hempty)) hne
  have hk := h.streamOf_lt hd
  have hgood := happ.inv.good _ (happ.nStream ▸ hk)
  refine ⟨happ.inv.set fun _ => ⟨⟨hgood.ok.rep, ?_⟩, hgood.bounded, hgood.size_eq⟩,
    happ.home.set fun hk => happ.home _ hk, fun k hk i hi hout => ?_, fun i h1 h2 => ?_⟩
  · have hhead : (slots.flatMap Prod.snd).headI = a := by rw [hslots, headI_slot hpos]
    change (slots.flatMap Prod.snd).headI ≤ _
    rw [hhead]
    exact (Nat.le_of_add_right_le hroom).trans hgood.size_eq.ge
  · rw [assigned_strm]
    refine (happ.left k hk i hi fun x hx hxk hix => ?_).eq_self (h.empty_of_seq hk hi) fun u hu => ?_
    · rw [hslots] at hx
      rw [List.mem_singleton.mp hx, List.mem_range'_1] at hix
      rw [List.mem_singleton.mp hx] at hxk
      have := hout hxk.symm
      omega
    · have := h.nonneg hk hi hu
      rw [hrm]
      omega
  · -- the token of the cell
    have hmem : (restoredPart d ps, List.range' a ps.length) ∈ slots := by
      rw [hslots]
      exact List.mem_singleton_self _
    obtain ⟨r, hr, hzip⟩ := hs.row_of_mem hmem (List.mem_range'_1.mpr ⟨h1, h2⟩)
    obtain ⟨p, hp, rfl⟩ := List.mem_map.mp hr
    have hcell := (happ.stored _ hmem _ hzip).eq_self (fun hc => absurd hc (Finset.singleton_ne_empty d)) fun u _ => by
      rw [hrm]
      have := (hharm.1 p hp).1
      dsimp only
      omega
    rw [assigned_strm]
    change ((m.st.applyUbatch slots).strm (m.st.streamOf d)).cells.cell i = _ at hcell
    rw [hcell]
    exact ⟨rfl, (hharm.1 p hp).2⟩

/-- The rows of the run are read behind that. -/
theorem Along.assign (h : Along n conf d m0 m) (hd : d < m0.st.seqCap) (hmax : m0.st.seqCap ≤ maxSeq)
    {slots : List (Part Unit × List Nat)} (hslots : slots = [(restoredPart d ps, List.range' a ps.length)])
    (hpos : 0 < ps.length)
    (hroom : a + ps.length ≤ n) (hfind : m.st.findSlot true [restoredPart d ps] = some slots) (hharm : Harmless m.st ps slots)
    (hrows : RowsOnly conf { m with st := assigned d m.st slots } (m.st.streamOf d) ps.length m') : Along n conf d m0 m' := by
  have hk := h.streamOf_lt hd
  obtain ⟨hinv, hhome, hout, hrun⟩ :=
    assigned_spec h.inv h.home (h.seqCap ▸ hd) (h.seqCap ▸ hmax) hslots hpos hroom hfind hharm
  have hn : (assigned d m.st slots).nStream = m.st.nStream := (Shaped.assigned d slots).nStream
  have hst : m'.st = assigned d m.st slots := hrows.st
  have hhead : ({ m with st := assigned d m.st slots } : Store).head (m.st.streamOf d) = a := by
    change ((assigned d m.st slots).strm (m.st.streamOf d)).head = a
    rw [assigned_self, hslots]
    exact headI_slot hpos
  have hsize : ∀ k < m.st.nStream, ((assigned d m.st slots).strm k).cells.size = (m.cells k).size := fun k hk =>
    (hinv.good k (hn ▸ hk)).size_eq.trans (h.size_eq hk).symm
  have hcells : ∀ k, m'.cells k = ((assigned d m.st slots).strm k).cells := fun k => by
    unfold Store.cells
    rw [hst]
  refine ⟨hst ▸ hinv, hst ▸ hhome, (congrArg Streams.nStream hst).trans (hn.trans h.nStream), fun e he hne => ?_,
    fun i hi hmem => ?_⟩
  · rw [← h.others e he hne]
    have ht := h.streamOf_lt he
    -- in the run there was nothing of the sequence
    have hrow : ∀ j < (m.cells (m.st.streamOf e)).size, e ∈ ((m.cells (m.st.streamOf e)).cell j).seq →
        m.st.streamOf e = m.st.streamOf d → j < a ∨ a + ps.length ≤ j := by
      intro j hj hmem hed
      by_contra hin
      have hempty : (m.st.strm (m.st.streamOf d)).cells.isEmpty j = true :=
        hharm.2 (restoredPart d ps, List.range' a ps.length) (by rw [hslots]; exact List.mem_singleton_self _) j
          (List.mem_range'_1.mpr ⟨by omega, by omega⟩)
      have hpos : ((m.st.strm (m.st.streamOf d)).cells.cell j).pos = -1 := of_decide_eq_true hempty
      have hnonneg := h.inv.nonneg ht (h.size_eq ht ▸ hj) hmem
      rw [hed, hpos] at hnonneg
      omega
    refine held_congr rfl ((congrArg Streams.nStream hst).trans hn) ((congrArg Cells.size (hcells _)).trans (hsize _ ht))
      (fun j hj => ?_) fun j hj hmem => ?_
    · rw [hcells]
      by_cases hin : m.st.streamOf e = m.st.streamOf d → j < a ∨ a + ps.length ≤ j
      · rw [hout _ ht j (h.size_eq ht ▸ hj) hin]
        rfl
      · refine ⟨fun hmem => ?_, fun hmem => absurd (hrow j hj hmem) hin⟩
        have hed : m.st.streamOf e = m.st.streamOf d := by
          by_contra hc
          exact hin fun h => absurd h hc
        rw [hed, (hrun j (by omega) (by omega)).1, Finset.mem_singleton] at hmem
        exact absurd hmem hne
    · have hin := hrow j hj hmem
      refine holds_congr ((congrArg (Cells.cell · j) (hcells _)).trans (hout _ ht j (h.size_eq ht ▸ hj) hin)) (fun il _ => ?_)
        fun il hil => ?_
      · exact hrows.kRow _ _ il (by rw [hhead]; exact hin)
      · have hv := hrows.vRow (m.st.streamOf e) j il (lt_of_lt_of_eq hj (hsize _ ht).symm) hil (by rw [hhead]; exact hin)
        exact hv.trans (vRow_congr (hsize _ ht))
  · have hstream : m'.st.streamOf d = m.st.streamOf d := streamOf_eq ((congrArg Streams.nStream hst).trans hn) d
    rw [hstream, hcells] at hmem ⊢
    by_cases hin : a ≤ i ∧ i < a + ps.length
    · exact (hrun i hin.1 hin.2).2
    · rw [hout _ hk i hi fun _ => by omega] at hmem ⊢
      exact h.last i hi hmem

end Assign

/-! ## The run -/

/-- What is left of a buffer for `n` streams; `restored` if the destination was given cells before, and `sound` if a
removal takes them back and nothing else was lost. -/
def Clean (conf : Conf) (d : Nat) : Nat → Streams Unit → Bool → Prop → List UInt8 → Prop
  | 0, _, _, _, _ => True
  | n + 1, st, restored, sound, bs =>
    if bs.length < 4 then restored = false
    else if ofLe (bs.take 4) = 0 then Clean conf d n st restored sound (bs.drop 4)
    else
      match lookPositions (ofLe (bs.take 4)) ⟨bs.drop 4, ()⟩ with
      | .ok (some ps) r =>
        let st := (st.seqRm d (-1) (-1)).getD st
        match st.findSlot true [restoredPart d ps] with
        | none => sound
        | some slots =>
          match lookData conf (st.strm (st.streamOf d)).cells.size ps.length r with
          | .ok true r => Clean conf d n (assigned d st slots) true (sound ∧ Harmless st ps slots) r.bytes
          | .ok false _ => sound ∧ Harmless st ps slots
          | .error _ _ => False
      | _ => sound

/-- A buffer that ends within the positions of the first stream with cells. -/
theorem Clean.of_error {conf : Conf} {d n : Nat} {st : Streams Unit} {restored : Bool} {sound : Prop} {bs : List UInt8}
    {e : Failure} {r : Input Unit} (hlen : ¬ bs.length < 4) (hcount : ofLe (bs.take 4) ≠ 0)
    (hlook : lookPositions (ofLe (bs.take 4)) ⟨bs.drop 4, ()⟩ = .error e r) (hs : sound) :
    Clean conf d (n + 1) st restored sound bs := by
  rw [Clean, if_neg hlen, if_neg hcount, hlook]
  exact hs

section Run
variable {n : Nat} {conf : Conf} {d : Nat} {m0 m : Store}

theorem lookPositions_length : ∀ (n : Nat) (bs : List UInt8) {ps : List Int} {r : Input Unit},
    lookPositions n ⟨bs, ()⟩ = .ok (some ps) r → ps.length = n
  | 0, bs, ps, r, h => by
    cases h
    rfl
  | n + 1, bs, ps, r, h => by
    rw [lookPositions, Read.int_bind_run] at h
    split at h
    · cases h
    · rw [Read.nat_bind_run] at h
      split at h
      · cases h
      · split at h
        · cases h
        · rw [Read.int_bind_run] at h
          split at h
          · cases h
          · rw [Read.bind_run] at h
            split at h
            · rename_i qs r' hrec
              cases qs with
              | none => cases h
              | some qs =>
                  cases h
                  rw [List.length_cons, lookPositions_length n _ hrec]
            · cases h

/-- The removal, the positions and the cells. -/
theorem readSequence_run (hd : d < m.st.seqCap) {count : Nat} (hcount : count ≠ 0) (bs : List UInt8) :
    readSequence (m.st.streamOf d) count d ⟨bs, m⟩ =
      match lookPositions count ⟨bs, ()⟩ with
      | .error e r => .error e ⟨r.bytes, { m with st := m.without d }⟩
      | .ok none r => .ok false ⟨r.bytes, { m with st := m.without d }⟩
      | .ok (some ps) r =>
        match (m.without d).findSlot true [restoredPart d ps] with
        | none => .ok false ⟨r.bytes, { m with st := m.without d }⟩
        | some slots => .ok true ⟨r.bytes, { m with st := assigned d (m.without d) slots }⟩ := by
  unfold readSequence
  obtain ⟨t, rfl, hrun⟩ := readPositions_follows (· = { m with st := m.without d }) count _ rfl bs
  rw [Read.bind_run]
  dsimp only [Read.get]
  rw [seqRm_without hd]
  dsimp only
  rw [Read.bind_run]
  dsimp only [Read.set]
  rw [Read.bind_run, hrun]
  cases hlook : lookPositions count ⟨bs, ()⟩ with
  | error e r => rfl
  | ok o r =>
      cases o with
      | none => rfl
      | some ps =>
          have hne : ps ≠ [] := by
            rintro rfl
            exact hcount (lookPositions_length count bs hlook).symm
          dsimp only
          rw [admits_restored hd hne, if_pos rfl]
          cases (m.without d).findSlot true [restoredPart d ps] with
          | none => rfl
          | some slots => rfl

/-- A stream without its cells, or with them. -/
theorem readStream_run (hd : d < m.st.seqCap) (s : Nat) (bs : List UInt8) : readStream conf d s ⟨bs, m⟩ =
    if bs.length < 4 then .error .thrown ⟨bs, m⟩
    else if ofLe (bs.take 4) = 0 then .ok true ⟨bs.drop 4, m⟩
    else
      match lookPositions (ofLe (bs.take 4)) ⟨bs.drop 4, ()⟩ with
      | .error e r => .error e ⟨r.bytes, { m with st := m.without d }⟩
      | .ok none r => .ok false ⟨r.bytes, { m with st := m.without d }⟩
      | .ok (some ps) r =>
        match (m.without d).findSlot true [restoredPart d ps] with
        | none => .ok false ⟨r.bytes, { m with st := m.without d }⟩
        | some slots => stateReadData conf (m.st.streamOf d) ps.length
            ⟨r.bytes, { m with st := assigned d (m.without d) slots }⟩ := by
  unfold readStream
  rw [Read.nat_bind_run]
  by_cases hlt : bs.length < 4
  · rw [if_pos hlt, if_pos hlt]
  · rw [if_neg hlt, if_neg hlt]
    by_cases hzero : ofLe (bs.take 4) = 0
    · rw [if_pos hzero, if_pos hzero]
      rfl
    · rw [if_neg hzero, if_neg hzero, Read.bind_run]
      dsimp only [Read.get]
      rw [if_neg (by omega), Int.toNat_natCast, Read.bind_run]
      unfold stateReadMeta
      rw [if_neg (by omega), Int.toNat_natCast, readSequence_run hd hzero]
      cases hlook : lookPositions (ofLe (bs.take 4)) ⟨bs.drop 4, ()⟩ with
      | error e r => rfl
      | ok o r =>
          cases o with
          | none => rfl
          | some ps =>
              rw [← lookPositions_length _ _ hlook]
              dsimp only
              cases (m.without d).findSlot true [restoredPart d ps] with
              | none => rfl
              | some slots => rfl

/-- **Nothing but the destination is lost**, and it is not half restored. -/
theorem readStreams_kept (hd : d < m0.st.seqCap) (hmax : m0.st.seqCap ≤ maxSeq) (hfits : conf.Fits n) :
    ∀ (is : List Nat) (m : Store) (restored : Bool) (sound : Prop) (bs : List UInt8), Shaped m0.st m.st →
      (m0.cells (m0.st.streamOf d)).size = n → (restored = false → m = m0) → (sound → Along n conf d m0 m) →
      Clean conf d is.length m.st restored sound bs →
      match Read.each (readStream conf d) is ⟨bs, m⟩ with
      | .ok true _ => True
      | .ok false r => Along n conf d m0 r.st
      | .error e r => e = .thrown → Kept conf d m0 r.st
  | [], _, _, _, _, _, _, _, _, _ => trivial
  | i :: is, m, restored, sound, bs, hshape, hsize, hsame, hsound, hclean => by
    have hcap : m.st.seqCap = m0.st.seqCap := seqCap_eq hshape.nStream
    rw [Read.each_cons_run, readStream_run (hcap ▸ hd)]
    rw [List.length_cons, Clean] at hclean
    by_cases hlt : bs.length < 4
    · rw [if_pos hlt] at hclean ⊢
      rw [hsame hclean]
      exact fun _ => ⟨.inl rfl, fun _ _ _ => rfl⟩
    · rw [if_neg hlt] at hclean ⊢
      by_cases hzero : ofLe (bs.take 4) = 0
      · rw [if_pos hzero] at hclean ⊢
        exact readStreams_kept hd hmax hfits is m restored sound _ hshape hsize hsame hsound hclean
      · rw [if_neg hzero] at hclean ⊢
        -- the removal comes before the positions
        have hremoved : sound → Along n conf d m0 { m with st := m.without d } ∧
            ({ m with st := m.without d } : Store).held conf d = [] := fun hs => (hsound hs).remove hd
        have hrm : (m.st.seqRm d (-1) (-1)).getD m.st = m.without d := by
          rw [seqRm_without (hcap ▸ hd)]
          rfl
        rw [hrm] at hclean
        cases hlook : lookPositions (ofLe (bs.take 4)) ⟨bs.drop 4, ()⟩ with
        | error e r =>
            rw [hlook] at hclean
            exact fun _ => (hremoved hclean).1.kept (hremoved hclean).2
        | ok o r =>
            rw [hlook] at hclean
            cases o with
            | none => exact (hremoved hclean).1
            | some ps =>
                dsimp only at hclean ⊢
                cases hfind : (m.without d).findSlot true [restoredPart d ps] with
                | none =>
                    rw [hfind] at hclean
                    exact (hremoved hclean).1
                | some slots =>
                    rw [hfind] at hclean
                    dsimp only at hclean ⊢
                    have hpos : 0 < ps.length := by
                      rw [lookPositions_length _ _ hlook]
                      omega
                    obtain ⟨a, hroom, hslots⟩ := findSlot_restoredPart hfind
                    have hwithout : ((m.without d).strm (m.st.streamOf d)).cells.size = n := by
                      rw [(Shaped.without m d).size, hshape.size, streamOf_eq hshape.nStream]
                      exact hsize
                    have hbase : (({ m with st := assigned d (m.without d) slots } : Store).cells
                      (m.st.streamOf d)).size = n :=
                      ((Shaped.assigned d slots).size _).trans hwithout
                    have hhead : ({ m with st := assigned d (m.without d) slots } : Store).head (m.st.streamOf d) = a := by
                      change ((assigned d (m.without d) slots).strm ((m.without d).streamOf d)).head = a
                      rw [assigned_self, hslots]
                      exact headI_slot hpos
                    obtain ⟨t, ⟨hst, hrows⟩, hrun⟩ := stateReadData_follows (hbase ▸ hfits) hpos
                      { m with st := assigned d (m.without d) slots } ⟨rfl, fun _ => RowsOnly.rfl'⟩ r.bytes
                    have halong : sound ∧ Harmless (m.without d) ps slots → Along n conf d m0 t := by
                      rintro ⟨hs, hharm⟩
                      refine (hremoved hs).1.assign hd hmax hslots hpos (hwithout ▸ hroom) hfind hharm (hrows ?_)
                      rw [hhead, hbase]
                      exact hwithout ▸ hroom
                    rw [hrun, hbase]
                    rw [without_streamOf, hwithout, show r = ⟨r.bytes, ()⟩ from rfl] at hclean
                    cases hdata : lookData conf n ps.length ⟨r.bytes, ()⟩ with
                    | error e r' =>
                        rw [hdata] at hclean
                        exact hclean.elim
                    | ok b r' =>
                        rw [hdata] at hclean
                        cases b with
                        | false => exact halong hclean
                        | true =>
                            have hshape' : Shaped m0.st t.st := by
                              rw [hst]
                              exact (hshape.trans (Shaped.without m d)).trans (Shaped.assigned d slots)
                            exact readStreams_kept hd hmax hfits is t true _ r'.bytes hshape' hsize
                              (fun hc => by cases hc) halong
                              (hst ▸ hclean)

/-! ## Failures -/

theorem readPositions_takes : ∀ n, Takes (readPositions n)
  | 0 => Takes.pure _
  | n + 1 => by
    refine (Takes.int 4).bind fun pos => (Takes.nat 4).bind fun nSeq => ?_
    split
    · exact Takes.pure none
    · exact (Takes.int 4).bind fun _ => (readPositions_takes n).bind fun ps => Takes.pure _

theorem readSequence_takes (strm count d : Nat) : Takes (readSequence strm count d) := by
  refine Takes.get.bind fun m => ?_
  split
  · exact Takes.fail _
  · refine (Takes.set _).bind fun _ => (readPositions_takes count).bind fun o => ?_
    split
    · exact Takes.pure false
    · split
      · split
        · exact Takes.pure false
        · exact (Takes.set _).bind fun _ => Takes.pure true
      · exact Takes.fail _

theorem readRows_takes (t : GgmlType) (row count : Nat) (put : List UInt8 → Store → Store) :
    Takes (readRows t row count put) := by
  refine (Takes.int 4).bind fun type => ?_
  split
  · exact Takes.pure false
  · refine (Takes.nat 8).bind fun size => ?_
    split
    · exact Takes.pure false
    · exact (Takes.bytes _).bind fun bs => Takes.get.bind fun m => (Takes.set _).bind fun _ => Takes.pure true

theorem readElems_takes (conf : Conf) (strm count il : Nat) : Takes (readElems conf strm count il) := by
  refine (Takes.int 4).bind fun type => ?_
  split
  · exact Takes.pure false
  · refine (Takes.nat 4).bind fun el => ?_
    split
    · exact Takes.pure false
    · refine (Takes.nat 4).bind fun k => ?_
      split
      · exact Takes.pure false
      · exact Takes.each (fun j => (Takes.bytes _).bind fun bs => Takes.get.bind fun m => (Takes.set _).bind fun _ =>
          Takes.pure true) _

theorem stateReadData_takes (conf : Conf) (strm count : Nat) : Takes (stateReadData conf strm count) := by
  refine (Takes.nat 4).bind fun vTrans => (Takes.nat 4).bind fun nLayer => Takes.get.bind fun m => ?_
  split
  · exact Takes.pure false
  · split
    · exact Takes.pure false
    · split
      · exact Takes.pure false
      · refine (Takes.each (fun il => readRows_takes _ _ _ _) _).bind fun b => ?_
        split
        · split
          · exact Takes.each (fun il => readElems_takes conf strm count il) _
          · exact Takes.each (fun il => readRows_takes _ _ _ _) _
        · exact Takes.pure false

theorem readStream_takes (conf : Conf) (d s : Nat) : Takes (readStream conf d s) := by
  refine (Takes.nat 4).bind fun count => ?_
  split
  · exact Takes.pure true
  · refine Takes.get.bind fun m => ?_
    dsimp only
    unfold stateReadMeta
    rw [if_neg (show ¬ (d : Int) = -1 by omega), if_neg (show ¬ (d : Int) = -1 by omega)]
    refine (readSequence_takes _ _ _).bind fun b => ?_
    split
    · exact stateReadData_takes conf _ _
    · exact Takes.pure false

/-- Nothing where the process is stopped, 0 where the reader threw, and else the bytes that were read. -/
def stateSeqSetData (conf : Conf) (d : Nat) (bs : List UInt8) (m : Store) : Option (Nat × Store) :=
  match stateRead conf d ⟨bs, m⟩ with
  | .ok () r => some (bs.length - r.bytes.length, r.st)
  | .error .thrown r => some (0, r.st)
  | .error .aborted _ => none

/-- The removal reaches all that the sequence has. -/
def Store.Removable (m : Store) (d : Nat) : Prop :=
  ∀ i < (m.cells (m.st.streamOf d)).size, d ∈ ((m.cells (m.st.streamOf d)).cell i).seq →
    ((m.cells (m.st.streamOf d)).cell i).pos < posMax

end Run

/-! ## Buffers that end too early -/

theorem oneToken_reached : Reaches streamStep (fun st op => op.safe st ∧ op.homed st) twoCells oneToken := by
  have hstep : streamStep firstToken twoCells = some oneToken := eq_some_getD (by decide +kernel)
  refine .step firstToken .start ⟨firstToken_safe, fun part hpart r hr s hs => ?_⟩ hstep
  rw [List.mem_singleton.mp hpart] at hr ⊢
  rw [List.mem_singleton.mp hr] at hs
  rw [List.mem_singleton.mp hs]
  decide

end S2Moe.Kv
