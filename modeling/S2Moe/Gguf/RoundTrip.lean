import Mathlib.Data.List.GetD
import S2Moe.Gguf.Meta

/-!
# Writing a context and reading it back

The writer pads with the field `alignment` of the context, which no setter changes; the reader pads with the value of the key
`general.alignment`.

* `Follow`, `total` : tensors behind each other with an alignment; `Follow.iff_pads` : when two alignments agree;
* `getD_image`, `of_getD_image_ne_zero` : where the bytes of the tensors are, and that all others are zero;
* `Clean` : pairs and shapes that the format can hold, and an alignment that pads like 32 where it matters;
* `roundTrip_iff_clean` : then, and only then, the context comes back.
-/

namespace S2Moe.Gguf
open S2Moe.Lib

/-! ## The data section -/

section Data
variable {tr : Traits} {a : Nat}

/-- The offsets that the reader accepts, as long as no size overflows. -/
theorem dataSize_eq_some (ha : 0 < a) (ha' : a ≤ 2 ^ 32) : ∀ {infos : List Info} {n m : Nat},
    (∀ i ∈ infos, i.t.nbytes tr < 2 ^ 63) → dataSize tr a infos n = some m → Follow tr a n infos ∧ m = n + total tr a infos
  | [], n, m, _, h => by
    cases h
    exact ⟨trivial, rfl⟩
  | i :: infos, n, m, hlt, h => by
    have hi := hlt i List.mem_cons_self
    rw [dataSize] at h
    split at h
    · cases h
    · rename_i hoff
      dsimp only at h
      rw [pad_eq (by omega)] at h
      split at h
      · cases h
      · obtain ⟨h1, h2⟩ := dataSize_eq_some ha ha' (fun j hj => hlt j (List.mem_cons_of_mem _ hj)) h
        rw [total_cons]
        exact ⟨⟨not_not.mp hoff, h1⟩, by omega⟩

theorem Follow.dataSize (ha : 0 < a) (ha' : a ≤ 2 ^ 32) : ∀ {infos : List Info} {n : Nat}, Follow tr a n infos →
    (∀ i ∈ infos, i.t.nbytes tr < 2 ^ 63) → n + total tr a infos < 2 ^ 64 →
      dataSize tr a infos n = some (n + total tr a infos)
  | [], _, _, _, _ => rfl
  | i :: infos, n, h, hlt, hsum => by
    have hi := hlt i List.mem_cons_self
    rw [total_cons] at hsum ⊢
    rw [Gguf.dataSize, if_neg (not_not.mpr h.1)]
    dsimp only
    rw [pad_eq (by omega), if_neg (by omega),
      h.2.dataSize ha ha' (fun j hj => hlt j (List.mem_cons_of_mem _ hj)) (by omega), Nat.add_assoc]

/-- Two alignments give the same offsets when they pad all tensors but the last one alike. -/
theorem Follow.iff_pads : ∀ {infos : List Info} {n : Nat}, Follow tr 32 n infos →
    (Follow tr a n infos ↔ ∀ i ∈ infos.dropLast, roundUp (i.t.nbytes tr) a = roundUp (i.t.nbytes tr) 32)
  | [], _, _ => ⟨fun _ _ h => absurd h List.not_mem_nil, fun _ => trivial⟩
  | [i], _, h => ⟨fun _ _ h => absurd h List.not_mem_nil, fun _ => ⟨h.1, trivial⟩⟩
  | i :: j :: infos, n, h => by
    have hrec := h.2.iff_pads
    rw [List.dropLast_cons_of_ne_nil (List.cons_ne_nil _ _), List.forall_mem_cons, ← hrec]
    constructor
    · rintro ⟨-, hf⟩
      have heq : roundUp (i.t.nbytes tr) a = roundUp (i.t.nbytes tr) 32 := by
        have h1 := hf.1
        have h2 := h.2.1
        omega
      rw [heq] at hf
      exact ⟨heq, hf⟩
    · rintro ⟨heq, hf⟩
      refine ⟨h.1, ?_⟩
      rw [heq]
      exact hf

theorem roundUp_lt (x : Nat) (ha : 0 < a) : roundUp x a < x + a := by
  unfold roundUp
  have := Nat.div_mul_le_self (x + a - 1) a
  omega

theorem total_le_of_pads (ha : 0 < a) : ∀ {infos : List Info},
    (∀ i ∈ infos.dropLast, roundUp (i.t.nbytes tr) a = roundUp (i.t.nbytes tr) 32) →
    total tr a infos ≤ total tr 32 infos + a
  | [], _ => Nat.zero_le _
  | [i], _ => by
    have h1 := roundUp_lt (i.t.nbytes tr) ha
    have h2 := le_roundUp (i.t.nbytes tr) (n := 32) (by decide)
    rw [total_cons, total_cons]
    unfold total
    rw [List.map_nil, List.sum_nil]
    omega
  | i :: j :: infos, h => by
    rw [List.dropLast_cons_of_ne_nil (List.cons_ne_nil _ _), List.forall_mem_cons] at h
    have hrec := total_le_of_pads ha h.2
    rw [total_cons, total_cons (i := i), h.1]
    omega

/-! ### Where the bytes are -/

theorem getD_bytes (t : Tensor) {k : Nat} (hk : k < t.nbytes tr) : (t.bytes tr).getD k 0 = t.data k := by
  unfold Tensor.bytes slice
  rw [List.getD_eq_getElem?_getD, List.getElem?_map, List.getElem?_range' hk, Nat.one_mul, Nat.zero_add]
  rfl

theorem getD_append (l k : Bytes) (x : Nat) :
    (l ++ k).getD x 0 = if x < l.length then l.getD x 0 else k.getD (x - l.length) 0 := by
  split
  · rename_i h
    exact List.getD_append l k 0 x h
  · rename_i h
    exact List.getD_append_right l k 0 x (by omega)

theorem getD_zeros (n m x : Nat) : (zeros n m).getD x 0 = 0 := by
  unfold zeros
  rw [List.getD_eq_getElem?_getD, List.getElem?_replicate]
  split <;> rfl

theorem length_dataBytes_cons (i : Info) : (i.t.bytes tr ++ zeros (i.t.nbytes tr) 32).length = roundUp
    (i.t.nbytes tr) 32 := by
  rw [List.length_append, length_bytes, length_zeros]

/-- Byte `k` of a tensor. -/
theorem Follow.getD_dataBytes : ∀ {infos : List Info} {n x : Nat}, Follow tr 32 n infos → ∀ i ∈ infos, ∀ k < i.t.nbytes tr,
    i.offset + k = n + x → (dataBytes tr infos).getD x 0 = i.t.data k
  | [], _, _, _, i, hi, _, _, _ => absurd hi List.not_mem_nil
  | j :: infos, n, x, h, i, hi, k, hk, hx => by
    have hle := le_roundUp (j.t.nbytes tr) (n := 32) (by decide)
    have hoff := h.1
    rw [dataBytes, List.flatMap_cons, getD_append, length_dataBytes_cons]
    rcases List.mem_cons.mp hi with rfl | hi
    · obtain rfl : x = k := by omega
      rw [if_pos (by omega), getD_append, if_pos (by rw [length_bytes]; exact hk), getD_bytes _ hk]
    · have hbehind : n + roundUp (j.t.nbytes tr) 32 ≤ i.offset := by
        have hall : ∀ {infos : List Info} {n : Nat}, Follow tr 32 n infos → ∀ i ∈ infos, n ≤ i.offset := by
          intro infos
          induction infos with
          | nil => intro n _ i hi; exact absurd hi List.not_mem_nil
          | cons j infos ih =>
              intro n h i hi
              rcases List.mem_cons.mp hi with rfl | hi
              · exact h.1.ge
              · have := ih h.2 i hi
                omega
        exact hall h.2 i hi
      rw [if_neg (by omega)]
      exact h.2.getD_dataBytes i hi k hk (by omega)

/-- A byte that is not zero is one of a tensor. -/
theorem Follow.of_getD_ne_zero : ∀ {infos : List Info} {n x : Nat}, Follow tr 32 n infos → (dataBytes tr infos).getD x 0 ≠ 0 →
    ∃ i ∈ infos, ∃ k < i.t.nbytes tr, i.offset + k = n + x
  | [], _, _, _, h => absurd rfl h
  | j :: infos, n, x, hf, h => by
    rw [dataBytes, List.flatMap_cons, getD_append, length_dataBytes_cons] at h
    split at h
    · rw [getD_append, length_bytes] at h
      split at h
      · rename_i hk
        exact ⟨j, List.mem_cons_self, x, hk, by rw [hf.1]⟩
      · exact absurd (getD_zeros _ _ _) h
    · obtain ⟨i, hi, k, hk, hx⟩ := hf.2.of_getD_ne_zero h
      exact ⟨i, List.mem_cons_of_mem _ hi, k, hk, by omega⟩

variable {c : Ctx}

/-- Where a tensor's bytes are in the file. -/
theorem getD_image (hf : Follow tr 32 0 c.info) {i : Info} (hi : i ∈ c.info) {k : Nat} (hk : k < i.t.nbytes tr) :
    (c.image tr).getD (roundUp c.metaBytes.length 32 + (i.offset + k)) 0 = i.t.data k := by
  have hz := length_zeros c.metaBytes.length
  rw [Ctx.image, getD_append, if_neg (by omega), getD_append, if_neg (by omega)]
  exact hf.getD_dataBytes i hi k hk (by omega)

/-- Behind the metadata everything else is zero. -/
theorem of_getD_image_ne_zero (hf : Follow tr 32 0 c.info) {x : Nat} (hx : c.metaBytes.length ≤ x)
    (hne : (c.image tr).getD x 0 ≠ 0) :
    ∃ i ∈ c.info, ∃ k < i.t.nbytes tr, x = roundUp c.metaBytes.length 32 + (i.offset + k) := by
  have hz := length_zeros c.metaBytes.length
  rw [Ctx.image, getD_append, if_neg (by omega), getD_append] at hne
  split at hne
  · exact absurd (getD_zeros _ _ _) hne
  · obtain ⟨i, hi, k, hk, heq⟩ := hf.of_getD_ne_zero hne
    exact ⟨i, hi, k, hk, by omega⟩

theorem length_image : (c.image tr).length = roundUp c.metaBytes.length 32 + total tr 32 c.info := by
  have hdata : ∀ infos : List Info, (dataBytes tr infos).length = total tr 32 infos := by
    intro infos
    induction infos with
    | nil => rfl
    | cons i infos ih =>
        rw [total_cons, ← ih, dataBytes, List.flatMap_cons, List.length_append, length_dataBytes_cons]
        rfl
  rw [Ctx.image, List.length_append, List.length_append, hdata, ← length_zeros c.metaBytes.length]
  omega

end Data

/-! ## The round trip -/

/-- The same pairs, tensors and tensor bytes. -/
structure SameAs (tr : Traits) (c : Ctx) (r : Loaded) : Prop where
  kv : r.ctx.kv = c.kv
  info : r.ctx.info.map (fun i => (i.t.name, i.t.type, i.t.ne, i.offset)) =
    c.info.map fun i => (i.t.name, i.t.type, i.t.ne, i.offset)
  bytes : r.tensors.map (Tensor.bytes tr) = c.info.map fun i => i.t.bytes tr

/-- The context can be written, and the file is read as the same context. -/
def RoundTrip (tr : Traits) (c : Ctx) : Prop :=
  ∃ file r, c.writeToBuf tr = some file ∧ initFromFile tr file = .ok r ∧ SameAs tr c r

/-- The reader takes the shape, and counts as many bytes as the strides of the tensor do. -/
structure Tensor.Regular (tr : Traits) (t : Tensor) : Prop where
  elements : checkElements t.ne = none
  rows : t.ne 0 % tr.blckSize t.type = 0
  nbytes : ({ t with nb := strides tr t.type t.ne } : Tensor).nbytes tr = t.nbytes tr

/-- When the reader's alignment does what the writer's 32 does. -/
structure Clean (tr : Traits) (c : Ctx) : Prop where
  bools : ∀ kv ∈ c.kv, kv.type = .bool → ∀ b ∈ kv.data, b = 0 ∨ b = 1
  shapes : ∀ i ∈ c.info, i.t.Regular tr
  /-- The offsets. -/
  pads : ∀ i ∈ c.info.dropLast, roundUp (i.t.nbytes tr) c.fileAlignment = roundUp (i.t.nbytes tr) 32
  /-- The data section lies in the file. -/
  room : (∀ i ∈ c.info, i.t.nbytes tr = 0) ∨
    roundUp c.metaBytes.length c.fileAlignment + total tr c.fileAlignment c.info ≤
      roundUp c.metaBytes.length 32 + total tr 32 c.info
  /-- The data section begins where it was written, unless all its bytes are zero. -/
  place : roundUp c.metaBytes.length c.fileAlignment = roundUp c.metaBytes.length 32 ∨
    ∀ i ∈ c.info, ∀ k < i.t.nbytes tr, i.t.data k = 0

section Final
variable {tr : Traits} {c : Ctx}

/-- The reader finds a power of two. -/
theorem KvsOk.fileAlignment (h : KvsOk c.kv) : ∃ k ≤ 31, c.fileAlignment = 2 ^ k := by
  unfold Ctx.fileAlignment
  cases hf : c.kv.find? fun kv => kv.key = alignmentKey with
  | none => exact ⟨5, by decide, rfl⟩
  | some kv =>
      have hok := h.ok kv (List.mem_of_find?_eq_some hf)
      have hkey : kv.key = alignmentKey :=
        of_decide_eq_true (List.find?_some (p := fun kv : Kv => decide (kv.key = alignmentKey)) hf)
      obtain ⟨htype, harr, hpow⟩ := hok.alignment hkey
      obtain ⟨hc, -⟩ | ⟨-, -, n, hlen, hor⟩ := hok.values
      · rw [htype] at hc
        cases hc
      · obtain rfl : n = 1 := hor.resolve_left (by rw [harr]; exact Bool.false_ne_true)
        rw [htype] at hlen
        obtain ⟨hpos, hand⟩ := of_decide_eq_true hpow
        obtain ⟨k, hk⟩ := Nat.ne_zero_and_sub_one_eq_zero_iff_isPowerOfTwo.mp ⟨by omega, hand⟩
        have hlt : ∀ bs : Bytes, ofLe bs < 256 ^ bs.length := by
          intro bs
          induction bs with
          | nil => decide
          | cons b bs ih =>
              have := b.toNat_lt
              rw [ofLe, List.length_cons, pow_succ]
              omega
        have h4 := hlt kv.data
        rw [hlen, hk] at h4
        refine ⟨k, ?_, hk⟩
        by_contra hc
        have : 2 ^ 32 ≤ 2 ^ k := Nat.pow_le_pow_right (by decide) (by omega)
        change 2 ^ k < 256 ^ 4 at h4
        omega

theorem roundUp_le_of_dvd {a b : Nat} (x : Nat) (ha : 0 < a) (hb : 0 < b) (h : a ∣ b) : roundUp x a ≤ roundUp x b := by
  obtain ⟨q, hq⟩ : a ∣ roundUp x b := h.trans (Dvd.intro_left _ rfl)
  have h1 := roundUp_lt x ha
  have h2 := le_roundUp x hb
  rw [hq] at h2 ⊢
  have h3 : (x + a - 1) / a * a < a * q + a := by
    unfold roundUp at h1
    omega
  unfold roundUp
  have h4 : (x + a - 1) / a < q + 1 := by
    rw [Nat.mul_comm, ← Nat.mul_succ] at h3
    exact Nat.lt_of_mul_lt_mul_left h3
  rw [Nat.mul_comm a q]
  exact Nat.mul_le_mul_right a (by omega)

/-- Either alignment is a multiple of the other. -/
theorem KvsOk.dvd (h : KvsOk c.kv) : 0 < c.fileAlignment ∧ c.fileAlignment ≤ 2 ^ 32 ∧
    (c.fileAlignment ∣ 32 ∨ 32 ∣ c.fileAlignment) := by
  obtain ⟨k, hk, heq⟩ := h.fileAlignment
  rw [heq]
  refine ⟨Nat.two_pow_pos k, Nat.pow_le_pow_right (by decide) (by omega), ?_⟩
  rcases Nat.le_total k 5 with h5 | h5
  · exact .inl (Nat.pow_dvd_pow 2 h5)
  · exact .inr (Nat.pow_dvd_pow 2 h5)

theorem norm_eq_self_iff {kvs : List Kv} : kvs.map Kv.norm = kvs ↔
    ∀ kv ∈ kvs, kv.type = .bool → ∀ b ∈ kv.data, b = 0 ∨ b = 1 := by
  have hone : ∀ kv : Kv, kv.norm = kv ↔ (kv.type = .bool → ∀ b ∈ kv.data, b = 0 ∨ b = 1) := by
    intro kv
    unfold Kv.norm
    split
    · rename_i ht
      constructor
      · intro heq _ b hb
        have hdata : kv.data.map writeBool = kv.data := congrArg Kv.data heq
        rw [← hdata] at hb
        obtain ⟨x, -, rfl⟩ := List.mem_map.mp hb
        unfold writeBool
        split
        · exact .inr rfl
        · exact .inl rfl
      · intro hb
        have hdata : kv.data.map writeBool = kv.data := by
          refine (List.map_congr_left fun b hmem => ?_).trans (List.map_id _)
          obtain rfl | rfl := hb ht b hmem
          · rfl
          · rfl
        rw [hdata]
    · exact ⟨fun _ ht => absurd ht ‹_›, fun _ => rfl⟩
  rw [← List.map_id kvs, List.map_map]
  have hmap := List.map_inj_left (l := kvs) (f := Kv.norm) (g := id)
  rw [List.map_id] at hmap ⊢
  change kvs.map Kv.norm = kvs ↔ _
  rw [hmap]
  exact forall₂_congr fun kv _ => hone kv

theorem slice_eq_slice_iff {f g : Nat → UInt8} {n m : Nat} : slice f 0 n = slice g 0 m ↔ n = m ∧ ∀ k < n, f k = g k := by
  constructor
  · intro h
    have hlen := congrArg List.length h
    rw [length_slice, length_slice] at hlen
    subst hlen
    refine ⟨rfl, fun k hk => ?_⟩
    have := congrArg (fun l : List UInt8 => l[k]?) h
    unfold slice at this
    rw [List.getElem?_map, List.getElem?_map, List.getElem?_range' hk, Nat.one_mul, Nat.zero_add] at this
    exact Option.some.inj this
  · rintro ⟨rfl, h⟩
    exact slice_congr fun i _ hi => h i (by omega)

/-- The dimensions that are not written are at most 1. -/
theorem Tensor.ne_le_one (t : Tensor) {j : Fin 4} (hj : t.nDims ≤ j.val) : t.ne j ≤ 1 := by
  unfold Tensor.nDims at hj
  match j with
  | 0 =>
      change _ ≤ 0 at hj
      split_ifs at hj <;> omega
  | 1 =>
      change _ ≤ 1 at hj
      split_ifs at hj <;> omega
  | 2 =>
      change _ ≤ 2 at hj
      split_ifs at hj <;> omega
  | 3 =>
      change _ ≤ 3 at hj
      split_ifs at hj <;> omega

theorem readNe_eq {t : Tensor} (h : checkElements t.ne = none) : t.readNe = t.ne := by
  have hne : ∀ j : Fin 4, j ≠ 0 → t.ne j ≠ 0 := by
    unfold checkElements at h
    split_ifs at h with h1 h2 h3 h4 h5
    intro j hj
    match j with
    | 0 => exact absurd rfl hj
    | 1 => exact h1
    | 2 => exact h3
    | 3 => exact h5
  funext j
  unfold Tensor.readNe
  split
  · rfl
  · rename_i hj
    have hle := t.ne_le_one (not_lt.mp hj)
    have hj0 : j ≠ 0 := by
      rintro rfl
      apply hj
      unfold Tensor.nDims
      split_ifs <;> decide
    have := hne j hj0
    omega

/-- A tensor whose shape is read as it was comes back as a fresh tensor of that shape. -/
theorem nbytes_readBack {i : Info} (h : i.t.readNe = i.t.ne) :
    (i.readBack tr).t.nbytes tr = ({ i.t with nb := strides tr i.t.type i.t.ne } : Tensor).nbytes tr := by
  unfold Info.readBack
  rw [h]
  rfl

theorem dataSize_readBack {a : Nat} : ∀ {infos : List Info} {n : Nat},
    (∀ i ∈ infos, (i.readBack tr).t.nbytes tr = i.t.nbytes tr) →
    dataSize tr a (infos.map (Info.readBack tr)) n = dataSize tr a infos n
  | [], _, _ => rfl
  | i :: infos, n, h => by
    rw [List.map_cons, dataSize, dataSize, h i List.mem_cons_self]
    dsimp only
    rw [dataSize_readBack fun j hj => h j (List.mem_cons_of_mem _ hj)]
    rfl

/-- The tensors that the reader makes. -/
def Info.loaded (tr : Traits) (data : Bytes) (i : Info) : Tensor :=
  { (i.readBack tr).t with data := fun k => data.getD (i.offset + k) 0 }

/-- The reader on the file, when it takes all shapes. -/
theorem Inv.initFromFile_image (h : Inv tr c) (hfit : Fits tr c) (hacc : ∀ i ∈ c.info, i.t.Accepted tr) {r : Loaded} :
    initFromFile tr (c.image tr) = .ok r ↔ ∃ size,
      dataSize tr c.fileAlignment (c.info.map (Info.readBack tr)) 0 = some size ∧
      (size = 0 ∨ pad c.metaBytes.length c.fileAlignment + size ≤ (c.image tr).length) ∧
      r = ⟨{ c.readBack tr with
          offset := pad c.metaBytes.length c.fileAlignment
          size := size
          data := some (((c.image tr).drop (pad c.metaBytes.length c.fileAlignment)).take size) },
        c.info.map (Info.loaded tr (((c.image tr).drop (pad c.metaBytes.length c.fileAlignment)).take size))⟩ := by
  have hread := h.reads_meta hfit hacc (zeros c.metaBytes.length 32 ++ dataBytes tr c.info)
  change readMeta tr ⟨c.image tr, ()⟩ = _ at hread
  have hpos : (c.image tr).length - (zeros c.metaBytes.length 32 ++ dataBytes tr c.info).length = c.metaBytes.length := by
    rw [Ctx.image, List.length_append, Nat.add_sub_cancel]
  have halign : (c.readBack tr).alignment = c.fileAlignment := rfl
  unfold initFromFile
  rw [hread]
  dsimp only
  rw [hpos, halign]
  have hinfo : (c.readBack tr).info = c.info.map (Info.readBack tr) := rfl
  rw [hinfo]
  cases dataSize tr c.fileAlignment (c.info.map (Info.readBack tr)) 0 with
  | none =>
      refine ⟨fun hc => (by cases hc), ?_⟩
      rintro ⟨size, hc, -⟩
      cases hc
  | some size =>
      dsimp only
      rw [List.length_take, List.length_drop]
      have htensors : ∀ data : Bytes, (c.info.map (Info.readBack tr)).map
          (fun i => { i.t with data := fun k => data.getD (i.offset + k) 0 }) = c.info.map (Info.loaded tr data) := by
        intro data
        rw [List.map_map]
        rfl
      split
      · rename_i hshort
        refine ⟨fun hc => (by cases hc), ?_⟩
        rintro ⟨m, hm, hroom, -⟩
        cases hm
        omega
      · rename_i hlong
        rw [htensors, Except.ok.injEq]
        constructor
        · intro heq
          exact ⟨size, rfl, by omega, heq.symm⟩
        · rintro ⟨m, hm, -, heq⟩
          cases hm
          exact heq.symm

theorem getD_take_drop (l : Bytes) {d n x : Nat} (h : x < n) : ((l.drop d).take n).getD x 0 = l.getD (d + x) 0 := by
  rw [List.getD_eq_getElem?_getD, List.getD_eq_getElem?_getD, List.getElem?_take_of_lt h, List.getElem?_drop]

/-- When the file is read from where it was written, or has no other byte than zero, the tensors have their bytes. -/
theorem Clean.bytes (hc : Clean tr c) (hf : Follow tr 32 0 c.info) (ha : 0 < c.fileAlignment) {i : Info} (hi : i ∈ c.info)
    {k : Nat} (hk : k < i.t.nbytes tr) :
    (c.image tr).getD (roundUp c.metaBytes.length c.fileAlignment + (i.offset + k)) 0 = i.t.data k := by
  rcases hc.place with hplace | hzero
  · rw [hplace]
    exact getD_image hf hi hk
  · rw [hzero i hi k hk]
    by_contra hne
    have hle := le_roundUp c.metaBytes.length ha
    obtain ⟨j, hj, l, hl, hx⟩ := of_getD_image_ne_zero hf (by omega) hne
    rw [hx, getD_image hf hj hl, hzero j hj l hl] at hne
    exact hne rfl

/-- A file that is read from further in front, and has the same bytes there, has no byte but zero. -/
theorem eq_zero_of_shift (hf : Follow tr 32 0 c.info) (ha : 0 < c.fileAlignment)
    (hlt : roundUp c.metaBytes.length c.fileAlignment < roundUp c.metaBytes.length 32)
    (hbytes : ∀ i ∈ c.info, ∀ k < i.t.nbytes tr,
      (c.image tr).getD (roundUp c.metaBytes.length c.fileAlignment + (i.offset + k)) 0 = i.t.data k) :
    ∀ x, c.metaBytes.length ≤ x → (c.image tr).getD x 0 = 0 := by
  intro x
  induction x using Nat.strong_induction_on with
  | _ x ih =>
      intro hx
      by_contra hne
      obtain ⟨i, hi, k, hk, heq⟩ := of_getD_image_ne_zero hf hx hne
      have hle := le_roundUp c.metaBytes.length ha
      apply hne
      rw [heq, getD_image hf hi hk, ← hbytes i hi k hk]
      exact ih _ (by omega) (by omega)

theorem Inv.nbytes_lt (hinv : Inv tr c) (hfit : Fits tr c) : ∀ i ∈ c.info, i.t.nbytes tr < 2 ^ 63 := by
  intro i hi
  have hsum : roundUp c.metaBytes.length 32 + total tr 32 c.info < 2 ^ 63 := hfit.file
  have h1 := (hinv.follow hfit).offset_le i hi
  have h2 := le_roundUp (i.t.nbytes tr) (n := 32) (by decide)
  omega

theorem Inv.clean_of_roundTrip (hinv : Inv tr c) (hfit : Fits tr c) : RoundTrip tr c → Clean tr c := by
  have hwrite := hinv.writeToBuf hfit
  have hf := hinv.follow hfit
  obtain ⟨ha, ha', hdvd⟩ := hinv.kvs.dvd
  have hmeta := hfit.length_metaBytes
  have hsum : roundUp c.metaBytes.length 32 + total tr 32 c.info < 2 ^ 63 := hfit.file
  have hpad : pad c.metaBytes.length c.fileAlignment = roundUp c.metaBytes.length c.fileAlignment := pad_eq (by omega)
  have hnb := hinv.nbytes_lt hfit
  have hlen : (c.image tr).length = _ := length_image
  rintro ⟨file, r, hfile, hload, hsame⟩
  rw [hwrite, Option.some.injEq] at hfile
  subst hfile
  have hacc : ∀ i ∈ c.info, i.t.Accepted tr := by
    by_contra hno
    obtain ⟨e, u, he⟩ := hinv.fails_meta hfit hno (zeros c.metaBytes.length 32 ++ dataBytes tr c.info)
    change readMeta tr ⟨c.image tr, ()⟩ = _ at he
    unfold initFromFile at hload
    rw [he] at hload
    cases hload
  obtain ⟨size, hsize, hroom, rfl⟩ := (hinv.initFromFile_image hfit hacc).mp hload
  rw [hpad] at hroom
  have hshape : ∀ i ∈ c.info, i.t.readNe = i.t.ne := by
    have hinfo := hsame.info
    change (c.info.map (Info.readBack tr)).map _ = _ at hinfo
    rw [List.map_map, List.map_inj_left] at hinfo
    intro i hi
    exact (Prod.mk.inj (Prod.mk.inj (Prod.mk.inj (hinfo i hi)).2).2).1
  have hloaded : ∀ i ∈ c.info, (i.readBack tr).t.nbytes tr = i.t.nbytes tr ∧ ∀ k < i.t.nbytes tr,
      (((c.image tr).drop (pad c.metaBytes.length c.fileAlignment)).take size).getD (i.offset + k) 0 = i.t.data k := by
    have hb := hsame.bytes
    change (c.info.map (Info.loaded tr _)).map _ = _ at hb
    rw [List.map_map, List.map_inj_left] at hb
    intro i hi
    obtain ⟨h1, h2⟩ := slice_eq_slice_iff.mp (hb i hi)
    have h1' : (i.readBack tr).t.nbytes tr = i.t.nbytes tr := h1
    refine ⟨h1', fun k hk => h2 k ?_⟩
    rw [h1]
    exact hk
  rw [dataSize_readBack fun i hi => (hloaded i hi).1] at hsize
  obtain ⟨hfa, hm⟩ := dataSize_eq_some ha ha' hnb hsize
  rw [Nat.zero_add] at hm
  subst hm
  have hbytes : ∀ i ∈ c.info, ∀ k < i.t.nbytes tr,
      (c.image tr).getD (roundUp c.metaBytes.length c.fileAlignment + (i.offset + k)) 0 = i.t.data k := by
    intro i hi k hk
    have hoff := hfa.offset_le i hi
    have hle := le_roundUp (i.t.nbytes tr) ha
    rw [← (hloaded i hi).2 k hk, getD_take_drop _ (by omega), hpad]
  refine ⟨norm_eq_self_iff.mp hsame.kv, fun i hi => ?_, hf.iff_pads.mp hfa, ?_, ?_⟩
  · have hne := hshape i hi
    have hchecks := hacc i hi
    unfold Tensor.Accepted at hchecks
    rw [hne] at hchecks
    exact ⟨hchecks.1, hchecks.2, (nbytes_readBack hne).symm.trans (hloaded i hi).1⟩
  · rcases hroom with hzero | hroom
    · left
      intro i hi
      have hoff := hfa.offset_le i hi
      have hle := le_roundUp (i.t.nbytes tr) ha
      omega
    · right
      omega
  · rcases Nat.lt_trichotomy (roundUp c.metaBytes.length c.fileAlignment) (roundUp c.metaBytes.length 32) with
      hlt | heq | hgt
    · right
      intro i hi k hk
      have hz := eq_zero_of_shift hf ha hlt hbytes (roundUp c.metaBytes.length 32 + (i.offset + k)) (by
        have := le_roundUp c.metaBytes.length (n := 32) (by decide)
        omega)
      rw [getD_image hf hi hk] at hz
      exact hz
    · exact .inl heq
    · -- the reader's alignment is the larger one, so it pads the tensors at least as much
      have h32 : 32 ∣ c.fileAlignment := by
        refine hdvd.resolve_left fun hd => ?_
        have := roundUp_le_of_dvd c.metaBytes.length ha (by decide) hd
        omega
      have htotal : total tr 32 c.info ≤ total tr c.fileAlignment c.info := by
        unfold total
        exact List.sum_le_sum fun i _ => roundUp_le_of_dvd _ (by decide) ha h32
      rcases hroom with hzero | hroom
      · right
        intro i hi k hk
        have hoff := hfa.offset_le i hi
        have hle := le_roundUp (i.t.nbytes tr) ha
        omega
      · omega

theorem Inv.roundTrip_of_clean (hinv : Inv tr c) (hfit : Fits tr c) : Clean tr c → RoundTrip tr c := by
  have hwrite := hinv.writeToBuf hfit
  have hf := hinv.follow hfit
  obtain ⟨ha, ha', -⟩ := hinv.kvs.dvd
  have hmeta := hfit.length_metaBytes
  have hsum : roundUp c.metaBytes.length 32 + total tr 32 c.info < 2 ^ 63 := hfit.file
  have hpad : pad c.metaBytes.length c.fileAlignment = roundUp c.metaBytes.length c.fileAlignment := pad_eq (by omega)
  have hnb := hinv.nbytes_lt hfit
  have hlen : (c.image tr).length = _ := length_image
  intro hc
  have hshape : ∀ i ∈ c.info, i.t.readNe = i.t.ne := fun i hi => readNe_eq (hc.shapes i hi).elements
  have hacc : ∀ i ∈ c.info, i.t.Accepted tr := by
    intro i hi
    unfold Tensor.Accepted
    rw [hshape i hi]
    exact ⟨(hc.shapes i hi).elements, (hc.shapes i hi).rows⟩
  have hback : ∀ i ∈ c.info, (i.readBack tr).t.nbytes tr = i.t.nbytes tr :=
    fun i hi => (nbytes_readBack (hshape i hi)).trans (hc.shapes i hi).nbytes
  have hfa : Follow tr c.fileAlignment 0 c.info := hf.iff_pads.mpr hc.pads
  have htotal := total_le_of_pads ha hc.pads
  have hsize : dataSize tr c.fileAlignment (c.info.map (Info.readBack tr)) 0 = some (total tr c.fileAlignment c.info) := by
    rw [dataSize_readBack hback, hfa.dataSize ha ha' hnb (by omega), Nat.zero_add]
  have hroom : total tr c.fileAlignment c.info = 0 ∨
      pad c.metaBytes.length c.fileAlignment + total tr c.fileAlignment c.info ≤ (c.image tr).length := by
    rw [hpad, hlen]
    refine hc.room.imp_left fun hz => ?_
    unfold total
    rw [List.sum_eq_zero_iff]
    intro n hn
    obtain ⟨i, hi, rfl⟩ := List.mem_map.mp hn
    rw [hz i hi]
    unfold roundUp
    rw [Nat.zero_add, Nat.div_eq_of_lt (by omega), Nat.zero_mul]
  refine ⟨_, _, hwrite, (hinv.initFromFile_image hfit hacc).mpr ⟨_, hsize, hroom, rfl⟩, ?_, ?_, ?_⟩
  · exact norm_eq_self_iff.mpr hc.bools
  · change (c.info.map (Info.readBack tr)).map _ = _
    rw [List.map_map, List.map_inj_left]
    intro i hi
    change (i.t.name, i.t.type, i.t.readNe, i.offset) = _
    rw [hshape i hi]
  · change (c.info.map (Info.loaded tr _)).map _ = _
    rw [List.map_map, List.map_inj_left]
    intro i hi
    refine slice_eq_slice_iff.mpr ⟨hback i hi, fun k hk => ?_⟩
    have hk' : k < i.t.nbytes tr := (hback i hi) ▸ hk
    have hoff := hfa.offset_le i hi
    have hle := le_roundUp (i.t.nbytes tr) ha
    change (((c.image tr).drop (pad c.metaBytes.length c.fileAlignment)).take _).getD (i.offset + k) 0 = _
    rw [getD_take_drop _ (by omega), hpad]
    exact hc.bytes hf ha hi hk'

/-- **A context comes back from its file exactly when it is clean.** -/
theorem roundTrip_iff_clean (tr : Traits) (c : Ctx) (h : Reaches (step tr) (Op.wellTyped tr) Ctx.empty c) (hfit : Fits tr c) :
    RoundTrip tr c ↔ Clean tr c :=
  ⟨(Inv.reaches h).clean_of_roundTrip hfit, (Inv.reaches h).roundTrip_of_clean hfit⟩

end Final

/-- Type 0, with four bytes an element. -/
def onlyF32 : Traits := ⟨fun type => if type = 0 then 4 else 0, fun type => if type = 0 then 1 else 0⟩

/-- A tensor with one number. -/
def oneNumber (name : Char) (b : UInt8) : Tensor := ⟨ascii [name], 0, fun _ => 1, fun _ => 4, fun _ => b⟩

theorem valid_oneNumber (name : Char) (b : UInt8) (h : UInt8.ofNat name.toNat ≠ 0) : (oneNumber name b).Valid onlyF32 where
  name_lt := by
    change 1 < 64
    decide
  noNul := by
    intro hc
    exact h (List.mem_singleton.mp hc).symm
  type_lt := by
    change 0 < 40
    decide
  blck_pos := by
    change 0 < 1
    decide
  ne_lt _ := by
    change 1 < 2 ^ 63
    decide
  contiguous := rfl

/-- Two tensors, and nothing else. -/
def twoTensors : Ctx := { info := [⟨oneNumber 'a' 1, 0⟩, ⟨oneNumber 'b' 2, 32⟩] }

theorem reaches_twoTensors : Reaches (step onlyF32) (Op.wellTyped onlyF32) Ctx.empty twoTensors :=
  (Reaches.start.step (.addTensor (oneNumber 'a' 1)) (valid_oneNumber 'a' 1 (by decide)) rfl).step
    (.addTensor (oneNumber 'b' 2)) (valid_oneNumber 'b' 2 (by decide)) rfl

theorem roundTrip_twoTensors : RoundTrip onlyF32 twoTensors := by
  refine (roundTrip_iff_clean onlyF32 twoTensors reaches_twoTensors ⟨by decide, by decide, by decide⟩).mpr
    ⟨fun kv hkv => absurd hkv List.not_mem_nil, fun i hi => ?_, fun i _ => rfl, .inr le_rfl, .inl rfl⟩
  have hall : ∀ i ∈ twoTensors.info, checkElements i.t.ne = none ∧ i.t.ne 0 % onlyF32.blckSize i.t.type = 0 ∧
      ({ i.t with nb := strides onlyF32 i.t.type i.t.ne } : Tensor).nbytes onlyF32 = i.t.nbytes onlyF32 := by
    decide
  obtain ⟨h1, h2, h3⟩ := hall i hi
  exact ⟨h1, h2, h3⟩

/-- The key of the alignment as an argument. -/
def alignmentArg : CStr := ⟨alignmentKey, by decide⟩

/-- The alignment 64, then two tensors. -/
def aligned64 : Ctx := { twoTensors with kv := [⟨alignmentKey, false, .uint32, leBytes 4 64, []⟩] }

theorem reaches_aligned64 : Reaches (step onlyF32) (Op.wellTyped onlyF32) Ctx.empty aligned64 :=
  ((Reaches.start.step (.setVal alignmentArg (.u32 64)) trivial rfl).step
    (.addTensor (oneNumber 'a' 1)) (valid_oneNumber 'a' 1 (by decide)) rfl).step
    (.addTensor (oneNumber 'b' 2)) (valid_oneNumber 'b' 2 (by decide)) rfl

/-- The second tensor is written at 32 and expected at 64. -/
theorem not_roundTrip_aligned64 :
    ¬ ∀ (tr : Traits) (c : Ctx), Reaches (step tr) (Op.wellTyped tr) Ctx.empty c → Fits tr c → RoundTrip tr c := by
  intro h
  have hfit : Fits onlyF32 aligned64 := ⟨by decide +kernel, by decide, by decide⟩
  have hclean := (Inv.reaches reaches_aligned64).clean_of_roundTrip hfit (h _ _ reaches_aligned64 hfit)
  have hpads := hclean.pads ⟨oneNumber 'a' 1, 0⟩ List.mem_cons_self
  revert hpads
  decide

end S2Moe.Gguf
