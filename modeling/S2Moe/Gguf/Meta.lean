import S2Moe.Gguf.Reachable

/-!
# The metadata of a file

* `Kv.encode`, `Ctx.metaBytes`, `dataBytes`, `Ctx.image` : what the writer writes; `Inv.writeToBuf` : it does not fail;
* `Kv.Ok.reads`, `reads_info`, `fails_info` : how the reader takes a pair and a tensor;
* `Ctx.fileAlignment` : the alignment that the reader finds;
* `Inv.reads_meta`, `Inv.fails_meta` : how it takes the file in front of the data section.
-/

namespace S2Moe.Gguf
open S2Moe.Lib

/-! ## Key-value pairs -/

/-- The number of elements. -/
def Kv.count (kv : Kv) : Nat := if kv.type = .string then kv.dataString.length else kv.data.length / kv.type.size

def Kv.head (kv : Kv) : Bytes :=
  if kv.isArray then writeType .array ++ writeType kv.type ++ leBytes 8 kv.count else writeType kv.type

def Kv.values (kv : Kv) : Bytes :=
  match kv.type with
  | .string => kv.dataString.flatMap writeString
  | .bool => kv.data.map writeBool
  | _ => kv.data

/-- The bytes of a pair. -/
def Kv.encode (kv : Kv) : Bytes := writeString kv.key ++ kv.head ++ kv.values

/-- A bool comes back as 0 or 1. -/
def Kv.norm (kv : Kv) : Kv := if kv.type = .bool then { kv with data := kv.data.map writeBool } else kv

section Pairs
variable {kv : Kv}

/-- The assertions on the number of elements hold. -/
theorem Kv.getNe_eq (h : (kv.type = .string ∧ kv.data = [] ∧ (kv.isArray = true ∨ kv.dataString.length = 1)) ∨
    (kv.type.size ≠ 0 ∧ kv.dataString = [] ∧ ∃ n, kv.data.length = n * kv.type.size ∧ (kv.isArray = true ∨ n = 1))) :
    kv.getNe = some kv.count := by
  unfold Kv.getNe Kv.count
  obtain ⟨ht, -, hor⟩ | ⟨hsize, -, n, hlen, hor⟩ := h
  · rw [if_pos ht, if_pos ht, if_pos hor]
  · have ht : kv.type ≠ .string := by
      intro hc
      rw [hc] at hsize
      exact hsize rfl
    have hpos := Nat.pos_of_ne_zero hsize
    rw [if_neg ht, if_neg ht, hlen, Nat.mul_mod_left, Nat.mul_div_cancel n hpos, if_neg (by omega)]
    dsimp only
    rw [if_pos hor]

theorem Kv.Ok.getNe (h : kv.Ok) : kv.getNe = some kv.count := Kv.getNe_eq h.values

theorem Kv.Ok.type_ne (h : kv.Ok) : kv.type ≠ .array := by
  intro hc
  obtain ⟨ht, -⟩ | ⟨hsize, -⟩ := h.values
  · rw [hc] at ht
    cases ht
  · rw [hc] at hsize
    exact hsize rfl

@[simp] theorem length_writeString (s : Bytes) : (writeString s).length = 8 + s.length := by
  rw [writeString, List.length_append, length_leBytes]

theorem Kv.Ok.write (h : kv.Ok) : kv.write = some kv.encode := by
  unfold Kv.write Kv.encode Kv.values Kv.head
  simp only [h.getNe, Option.bind_eq_bind, Option.bind_some]
  cases ht : kv.type with
  | array => exact absurd ht h.type_ne
  | uint8 | int8 | uint16 | int16 | uint32 | int32 | float32 | bool | string | uint64 | int64 | float64 => rfl

theorem writeKvs_eq : ∀ (kvs : List Kv), (∀ kv ∈ kvs, kv.Ok) → writeKvs kvs = some (kvs.flatMap Kv.encode)
  | [], _ => rfl
  | kv :: kvs, h => by
    rw [writeKvs, (h kv List.mem_cons_self).write, writeKvs_eq kvs fun k hk => h k (List.mem_cons_of_mem _ hk)]
    rfl

theorem Kv.key_norm (kv : Kv) : kv.norm.key = kv.key := by
  unfold Kv.norm
  split <;> rfl

theorem intBytes_natCast {w n : Nat} (h : n < 256 ^ w) : intBytes w n = leBytes w n := by
  unfold intBytes
  rw [← Int.natCast_mod, Int.toNat_natCast, Nat.mod_eq_of_lt h]

/-- A small number is read as an integer. -/
theorem reads_int {w n : Nat} (h : 2 * n < 256 ^ w) : Reads (Read.int w : Read Unit Int) (leBytes w n) () (n : Int) () := by
  have hn : n < 256 ^ w := by omega
  rw [← intBytes_natCast hn]
  refine Reads.int ⟨?_, ?_⟩
  · omega
  · exact_mod_cast h

theorem GgufType.code_lt (t : GgufType) : t.code < 13 := by
  cases t <;> decide

theorem GgufType.ofCode_code (t : GgufType) : GgufType.ofCode t.code = some t := by
  cases t <;> rfl

theorem reads_type (t : GgufType) : Reads (Read.int 4 : Read Unit Int) (writeType t) () (t.code : Int) () :=
  reads_int (by have := t.code_lt; norm_num; omega)

theorem reads_string {s : Bytes} (h : s.length < 2 ^ 64) : Reads readString (writeString s) () s () :=
  (Reads.nat (by norm_num; omega)).bind (Reads.bytes rfl)

theorem reads_strings : ∀ {l : List Bytes}, (∀ s ∈ l, s.length < 2 ^ 64) →
    Reads (readStrings l.length) (l.flatMap writeString) () l ()
  | [], _ => Reads.pure []
  | s :: l, h => by
    rw [List.flatMap_cons]
    refine (reads_string (h s List.mem_cons_self)).bind ?_
    exact (reads_strings fun s hs => h s (List.mem_cons_of_mem _ hs)).bind_last (Reads.pure _)

/-- The lengths of a pair fit their fields. -/
structure Kv.Short (kv : Kv) : Prop where
  key : kv.key.length < 2 ^ 64
  count : kv.count < 2 ^ 64
  strings : ∀ s ∈ kv.dataString, s.length < 2 ^ 64

theorem Kv.Ok.reads_head (h : kv.Ok) (hs : kv.Short) :
    Reads readHead kv.head () ((kv.type.code : Int), kv.isArray, if kv.isArray then kv.count else 1) () := by
  unfold readHead Kv.head
  cases harr : kv.isArray with
  | true =>
      rw [if_pos rfl, List.append_assoc]
      refine (reads_type .array).bind ?_
      rw [if_pos rfl]
      exact (reads_type kv.type).bind ((Reads.nat (by have := hs.count; norm_num; omega)).bind_last (Reads.pure _))
  | false =>
      rw [if_neg Bool.false_ne_true]
      refine (reads_type kv.type).bind_last ?_
      rw [if_neg]
      · exact Reads.pure _
      · intro hc
        have hcode : kv.type.code = GgufType.array.code := by exact_mod_cast hc
        have : GgufType.ofCode kv.type.code = GgufType.ofCode GgufType.array.code := by rw [hcode]
        rw [GgufType.ofCode_code, GgufType.ofCode_code] at this
        exact h.type_ne (Option.some.inj this)

theorem writeBool_writeBool (b : UInt8) : writeBool (writeBool b) = writeBool b := by
  unfold writeBool
  split
  · rfl
  · rfl

theorem Kv.Ok.reads_values (h : kv.Ok) (hs : kv.Short) :
    Reads (readValues kv.type (if kv.isArray then kv.count else 1)) kv.values () (kv.norm.data, kv.norm.dataString) () := by
  have hn : (if kv.isArray = true then kv.count else 1) = kv.count := by
    split
    · rfl
    · rename_i harr
      unfold Kv.count
      obtain ⟨ht, -, hor⟩ | ⟨hsize, -, n, hlen, hor⟩ := h.values
      · rw [if_pos ht, hor.resolve_left harr]
      · have ht : kv.type ≠ .string := by
          intro hc
          rw [hc] at hsize
          exact hsize rfl
        rw [if_neg ht, hlen, Nat.mul_div_cancel n (Nat.pos_of_ne_zero hsize), hor.resolve_left harr]
  rw [hn]
  have hdata : kv.type ≠ .string → kv.dataString = [] ∧ kv.count * kv.type.size = kv.data.length := by
    intro ht
    obtain ⟨hc, -⟩ | ⟨hsize, hnil, n, hlen, -⟩ := h.values
    · exact absurd hc ht
    · unfold Kv.count
      rw [if_neg ht, hlen, Nat.mul_div_cancel n (Nat.pos_of_ne_zero hsize)]
      exact ⟨hnil, rfl⟩
  have hplain : kv.type ≠ .string → kv.type ≠ .bool →
      Reads (do return (← Read.bytes (kv.count * kv.type.size), []) : Read Unit _) kv.data ()
        (kv.norm.data, kv.norm.dataString) () := by
    intro ht hb
    obtain ⟨hnil, hlen⟩ := hdata ht
    unfold Kv.norm
    rw [if_neg hb, hnil]
    exact (Reads.bytes hlen.symm).bind_last (Reads.pure _)
  unfold readValues Kv.values
  cases ht : kv.type with
  | string =>
      have hcount : kv.count = kv.dataString.length := if_pos ht
      have hnorm : kv.norm = kv := if_neg (by rw [ht]; decide)
      obtain ⟨-, hnil, -⟩ | ⟨hsize, -⟩ := h.values
      · rw [hcount, hnorm, hnil]
        exact (reads_strings hs.strings).bind_last (Reads.pure _)
      · rw [ht] at hsize
        exact absurd rfl hsize
  | bool =>
      obtain ⟨hnil, hlen⟩ := hdata (by rw [ht]; decide)
      rw [ht, show GgufType.bool.size = 1 from rfl, Nat.mul_one] at hlen
      unfold Kv.norm
      rw [if_pos ht, hnil]
      have hmap : (kv.data.map writeBool).map writeBool = kv.data.map writeBool := by
        rw [List.map_map]
        exact List.map_congr_left fun b _ => writeBool_writeBool b
      refine (Reads.bytes (by rw [List.length_map, hlen])).bind_last ?_
      rw [hmap]
      exact Reads.pure _
  | array => exact absurd ht h.type_ne
  | uint8 | int8 | uint16 | int16 | uint32 | int32 | float32 | uint64 | int64 | float64 =>
      rw [ht] at hplain
      exact hplain (by decide) (by decide)

/-- `readKv` behind the type. -/
def readData (key : Bytes) (arr : Bool) (t : GgufType) (n : Nat) : Read Unit Kv := do
  let (data, dataString) ← readValues t n
  if key = [] then Read.fail .aborted else return ⟨key, arr, t, data, dataString⟩

/-- A pair comes back, its bools as 0 and 1. -/
theorem Kv.Ok.reads (h : kv.Ok) (hs : kv.Short) {kvs : List Kv} (hnew : kv.key ∉ kvs.map Kv.key) :
    Reads (readKv kvs) kv.encode () kv.norm () := by
  unfold readKv Kv.encode
  rw [List.append_assoc]
  refine (reads_string hs.key).bind ?_
  have hany : ¬ (kvs.any (·.key = kv.key)) = true := by
    intro hc
    obtain ⟨x, hx, hxk⟩ := List.any_eq_true.mp hc
    exact hnew (of_decide_eq_true hxk ▸ List.mem_map_of_mem hx)
  rw [if_neg hany]
  refine (h.reads_head hs).bind ?_
  dsimp only
  rw [GgufType.ofCode_code]
  have hlast : Reads (readData kv.key kv.isArray kv.type (if kv.isArray then kv.count else 1)) kv.values () kv.norm () := by
    unfold readData
    refine (h.reads_values hs).bind_last ?_
    dsimp only
    rw [if_neg h.key_ne]
    have hnorm : (⟨kv.key, kv.isArray, kv.type, kv.norm.data, kv.norm.dataString⟩ : Kv) = kv.norm := by
      unfold Kv.norm
      split <;> rfl
    rw [hnorm]
    exact Reads.pure _
  cases ht : kv.type with
  | array => exact absurd ht h.type_ne
  | uint8 | int8 | uint16 | int16 | uint32 | int32 | float32 | bool | string | uint64 | int64 | float64 =>
      rw [ht] at hlast
      exact hlast

theorem reads_kvs : ∀ (kvs acc : List Kv), (∀ kv ∈ kvs, kv.Ok ∧ kv.Short) → ((acc ++ kvs).map Kv.key).Nodup →
    Reads (readKvs kvs.length acc) (kvs.flatMap Kv.encode) () (acc ++ kvs.map Kv.norm) ()
  | [], acc, _, _ => by
    rw [List.map_nil, List.append_nil]
    exact Reads.pure acc
  | kv :: kvs, acc, h, hnodup => by
    obtain ⟨hok, hshort⟩ := h kv List.mem_cons_self
    rw [List.map_append, List.map_cons] at hnodup
    have hnew : kv.key ∉ acc.map Kv.key := by
      intro hc
      exact (List.nodup_append.mp hnodup).2.2 _ hc _ List.mem_cons_self rfl
    rw [List.flatMap_cons, List.length_cons, readKvs]
    refine (hok.reads hshort hnew).bind ?_
    have hrest := reads_kvs kvs (acc ++ [kv.norm]) (fun k hk => h k (List.mem_cons_of_mem _ hk)) (by
      rw [List.map_append, List.map_append, List.map_singleton, Kv.key_norm, List.append_assoc]
      exact hnodup)
    rw [List.append_assoc] at hrest
    exact hrest

/-- The alignment that the reader finds. -/
def Ctx.fileAlignment (c : Ctx) : Nat :=
  match c.kv.find? fun kv => kv.key = alignmentKey with
  | none => 32
  | some kv => ofLe kv.data

theorem reads_alignment {c : Ctx} (h : KvsOk c.kv) :
    Reads (readAlignment (c.kv.map Kv.norm)) [] () c.fileAlignment () := by
  have hfind : ∀ kvs : List Kv, (∀ kv ∈ kvs, kv.Ok) →
      (kvs.map Kv.norm).find? (fun kv => (CStr.of kv.key).bytes = alignmentKey) =
        kvs.find? (fun kv => kv.key = alignmentKey) := by
    intro kvs hok
    induction kvs with
    | nil => rfl
    | cons kv kvs ih =>
        have hkv := hok kv List.mem_cons_self
        have hkey : (CStr.of kv.norm.key).bytes = kv.key := by
          rw [Kv.key_norm]
          exact CStr.of_bytes hkv.noNul
        rw [List.map_cons, List.find?_cons, List.find?_cons, hkey, ih fun k hk => hok k (List.mem_cons_of_mem _ hk)]
        by_cases hal : kv.key = alignmentKey
        · -- the alignment is no bool
          have hnorm : kv.norm = kv := if_neg (by rw [(hkv.alignment hal).1]; decide)
          rw [hnorm]
        · rw [decide_eq_false hal]
  unfold readAlignment Ctx.fileAlignment
  rw [hfind c.kv h.ok]
  cases hf : c.kv.find? fun kv => kv.key = alignmentKey with
  | none => exact Reads.pure 32
  | some kv =>
      have hok := h.ok kv (List.mem_of_find?_eq_some hf)
      have hkey : kv.key = alignmentKey :=
        of_decide_eq_true (List.find?_some (p := fun kv : Kv => decide (kv.key = alignmentKey)) hf)
      obtain ⟨htype, harr, hpow⟩ := hok.alignment hkey
      have hlen : kv.data.length = 4 ∧ kv.count = 1 := by
        obtain ⟨hc, -⟩ | ⟨-, -, n, hlen, hor⟩ := hok.values
        · rw [htype] at hc
          cases hc
        · obtain rfl : n = 1 := hor.resolve_left (by rw [harr]; exact Bool.false_ne_true)
          rw [htype] at hlen
          refine ⟨hlen, ?_⟩
          unfold Kv.count
          rw [htype, hlen]
          rfl
      have hval : kv.valU32 = some (ofLe kv.data) := by
        unfold Kv.valU32
        rw [if_pos ⟨hok.getNe.trans (congrArg some hlen.2), htype⟩, List.take_of_length_le (by omega)]
      dsimp only
      rw [hval]
      dsimp only
      rw [if_pos hpow]
      exact Reads.pure _

end Pairs

/-! ## Tensors -/

section Infos
variable (tr : Traits)

/-- The shape as it is read: what is behind the dimensions that were written is 1. -/
def Tensor.readNe (t : Tensor) (j : Fin 4) : Nat := if j.val < t.nDims then t.ne j else 1

/-- The tensor as it is read. -/
def Info.readBack (i : Info) : Info :=
  ⟨⟨i.t.name, i.t.type, i.t.readNe, strides tr i.t.type i.t.readNe, fun _ => 0⟩, i.offset⟩

/-- The shape passes the checks of the reader. -/
def Tensor.Accepted (t : Tensor) : Prop := checkElements t.readNe = none ∧ t.readNe 0 % tr.blckSize t.type = 0

variable {tr} {i : Info}

theorem Tensor.nDims_le (t : Tensor) : t.nDims ≤ 4 := by
  unfold Tensor.nDims
  split_ifs <;> decide

theorem reads_dim (t : Tensor) (j : Fin 4) (h : t.ne j < 2 ^ 63) :
    Reads (readDim t.nDims j.val) (if j.val < t.nDims then leBytes 8 (t.ne j) else []) () (t.readNe j) () := by
  unfold readDim Tensor.readNe
  by_cases hj : j.val < t.nDims
  · rw [if_pos hj, if_pos hj, if_pos hj]
    refine (reads_int (by norm_num; omega)).bind_last ?_
    rw [if_neg (by omega)]
    exact Reads.pure _
  · rw [if_neg hj, if_neg hj, if_neg hj]
    exact Reads.pure 1

theorem readNe_vec (t : Tensor) : (![t.readNe 0, t.readNe 1, t.readNe 2, t.readNe 3] : Fin 4 → Nat) = t.readNe := by
  funext j
  match j with
  | 0 => rfl
  | 1 => rfl
  | 2 => rfl
  | 3 => rfl

/-- The bytes of the dimensions. -/
def Tensor.dimBytes (t : Tensor) (j : Fin 4) : Bytes := if j.val < t.nDims then leBytes 8 (t.ne j) else []

theorem writeMeta_eq (i : Info) : i.writeMeta = writeString i.t.name ++ (leBytes 4 i.t.nDims ++ (i.t.dimBytes 0 ++
    (i.t.dimBytes 1 ++ (i.t.dimBytes 2 ++ (i.t.dimBytes 3 ++ (leBytes 4 i.t.type ++ leBytes 8 i.offset)))))) := by
  have hdims : (List.finRange 4).flatMap (fun j => if j.val < i.t.nDims then leBytes 8 (i.t.ne j) else []) =
      i.t.dimBytes 0 ++ (i.t.dimBytes 1 ++ (i.t.dimBytes 2 ++ i.t.dimBytes 3)) := by
    change i.t.dimBytes 0 ++ (i.t.dimBytes 1 ++ (i.t.dimBytes 2 ++ (i.t.dimBytes 3 ++ []))) = _
    rw [List.append_nil]
  unfold Info.writeMeta
  rw [hdims]
  simp only [List.append_assoc]

section ReadInfo
variable {acc : List Info} (hv : i.t.Valid tr) (hnew : i.t.name ∉ acc.map (·.t.name))
include hv hnew

/-- What the reader does with a tensor: it stops at a shape that it does not accept. -/
theorem readInfo_step {P : Read Unit Info → Bytes → Prop}
    (hbind : ∀ {α : Type} (m : Read Unit α) (f : α → Read Unit Info) (a : α) (bs cs : Bytes), Reads m bs () a () →
      P (f a) cs →
      P (m >>= f) (bs ++ cs))
    (hrest : P (match checkElements i.t.readNe with
      | some e => Read.fail e
      | none => do
        let type ← Read.int 4
        if type < 0 ∨ 40 ≤ type then Read.fail .thrown
        else
          let type := type.toNat
          if tr.blckSize type = 0 ∨ i.t.readNe 0 % tr.blckSize type ≠ 0 then Read.fail .thrown
          else
            let offset ← Read.nat 8
            return ⟨⟨i.t.name, type, i.t.readNe, strides tr type i.t.readNe, fun _ => 0⟩, offset⟩)
      (leBytes 4 i.t.type ++ leBytes 8 i.offset)) : P (readInfo tr acc) i.writeMeta := by
  have hname := CStr.of_bytes hv.noNul
  rw [writeMeta_eq]
  unfold readInfo
  refine hbind _ _ _ _ _ (reads_string (by have := hv.name_lt; omega)) ?_
  have hany : ¬ (64 ≤ i.t.name.length ∨ acc.any (·.t.name = (CStr.of i.t.name).bytes) = true) := by
    rw [hname, not_or]
    refine ⟨by have := hv.name_lt; omega, fun hc => ?_⟩
    obtain ⟨x, hx, hxn⟩ := List.any_eq_true.mp hc
    exact hnew (of_decide_eq_true hxn ▸ List.mem_map_of_mem (f := fun i : Info => i.t.name) hx)
  rw [if_neg hany]
  have hdims := i.t.nDims_le
  refine hbind _ _ _ _ _ (Reads.nat (by norm_num; omega)) ?_
  rw [if_neg (by omega)]
  refine hbind _ _ _ _ _ (reads_dim i.t 0 (hv.ne_lt 0)) ?_
  refine hbind _ _ _ _ _ (reads_dim i.t 1 (hv.ne_lt 1)) ?_
  refine hbind _ _ _ _ _ (reads_dim i.t 2 (hv.ne_lt 2)) ?_
  refine hbind _ _ _ _ _ (reads_dim i.t 3 (hv.ne_lt 3)) ?_
  dsimp only
  rw [readNe_vec, hname]
  exact hrest

theorem reads_info (hoff : i.offset < 2 ^ 64) (hacc : i.t.Accepted tr) :
    Reads (readInfo tr acc) i.writeMeta () (i.readBack tr) () := by
  refine readInfo_step (P := fun m bs => Reads m bs () (i.readBack tr) ()) hv hnew (fun m f a bs cs => Reads.bind) ?_
  rw [hacc.1]
  have htype := hv.type_lt
  refine (reads_int (by norm_num; omega)).bind ?_
  rw [if_neg (by omega), Int.toNat_natCast]
  dsimp only
  have hblck := hv.blck_pos
  rw [if_neg (by have := hacc.2; omega)]
  exact (Reads.nat (by norm_num; omega)).bind_last (Reads.pure _)

theorem fails_info (hacc : ¬ i.t.Accepted tr) : Fails (readInfo tr acc) i.writeMeta () := by
  refine readInfo_step (P := fun m bs => Fails m bs ()) hv hnew (fun m f a bs cs => Reads.bind_fails) ?_
  cases hc : checkElements i.t.readNe with
  | some e => exact Fails.fail
  | none =>
      have htype := hv.type_lt
      refine (reads_int (by norm_num; omega)).bind_fails ?_
      rw [if_neg (by omega), Int.toNat_natCast]
      dsimp only
      rw [if_pos (.inr fun hd => hacc ⟨hc, hd⟩)]
      exact Fails.fail

end ReadInfo

theorem reads_infos : ∀ (infos acc : List Info), (∀ i ∈ infos, i.t.Valid tr ∧ i.offset < 2 ^ 64 ∧ i.t.Accepted tr) →
    ((acc ++ infos).map (·.t.name)).Nodup →
    Reads (readInfos tr infos.length acc) (infos.flatMap Info.writeMeta) () (acc ++ infos.map (Info.readBack tr)) ()
  | [], acc, _, _ => by
    rw [List.map_nil, List.append_nil]
    exact Reads.pure acc
  | i :: infos, acc, h, hnodup => by
    obtain ⟨hv, hoff, hacc⟩ := h i List.mem_cons_self
    rw [List.map_append, List.map_cons] at hnodup
    have hnew : i.t.name ∉ acc.map (·.t.name) := by
      intro hc
      exact (List.nodup_append.mp hnodup).2.2 _ hc _ List.mem_cons_self rfl
    rw [List.flatMap_cons, List.length_cons, readInfos]
    refine (reads_info hv hnew hoff hacc).bind ?_
    have hrest := reads_infos infos (acc ++ [i.readBack tr]) (fun k hk => h k (List.mem_cons_of_mem _ hk)) (by
      rw [List.map_append, List.map_append, List.append_assoc]
      exact hnodup)
    rw [List.append_assoc] at hrest
    exact hrest

theorem fails_infos : ∀ (infos acc : List Info), (∀ i ∈ infos, i.t.Valid tr ∧ i.offset < 2 ^ 64) →
    ((acc ++ infos).map (·.t.name)).Nodup → (¬ ∀ i ∈ infos, i.t.Accepted tr) →
    Fails (readInfos tr infos.length acc) (infos.flatMap Info.writeMeta) ()
  | [], _, _, _, hno => absurd (fun _ h => absurd h List.not_mem_nil) hno
  | i :: infos, acc, h, hnodup, hno => by
    obtain ⟨hv, hoff⟩ := h i List.mem_cons_self
    rw [List.map_append, List.map_cons] at hnodup
    have hnew : i.t.name ∉ acc.map (·.t.name) := by
      intro hc
      exact (List.nodup_append.mp hnodup).2.2 _ hc _ List.mem_cons_self rfl
    rw [List.flatMap_cons, List.length_cons, readInfos]
    by_cases hacc : i.t.Accepted tr
    · refine (reads_info hv hnew hoff hacc).bind_fails ?_
      refine fails_infos infos (acc ++ [i.readBack tr]) (fun k hk => h k (List.mem_cons_of_mem _ hk)) (by
        rw [List.map_append, List.map_append, List.append_assoc]
        exact hnodup) fun hc => hno fun k hk => ?_
      rcases List.mem_cons.mp hk with rfl | hk
      · exact hacc
      · exact hc k hk
    · exact (fails_info hv hnew hacc).bind.append

end Infos

/-! ## The file -/

/-- `x` rounded up to a multiple of `n`. -/
def roundUp (x n : Nat) : Nat := (x + n - 1) / n * n

theorem pad_eq {x n : Nat} (h : x + n ≤ 2 ^ 64) : pad x n = roundUp x n := by
  unfold pad roundUp
  rw [Nat.mod_eq_of_lt (by omega)]

/-- The bytes in front of the data section, before the padding. -/
def Ctx.metaBytes (c : Ctx) : Bytes :=
  magic ++ leBytes 4 c.version ++ leBytes 8 c.info.length ++ leBytes 8 c.kv.length ++ c.kv.flatMap Kv.encode ++
    c.info.flatMap Info.writeMeta

/-- The data section. -/
def dataBytes (tr : Traits) (infos : List Info) : Bytes :=
  infos.flatMap fun i => i.t.bytes tr ++ zeros (i.t.nbytes tr) 32

/-- The file. -/
def Ctx.image (tr : Traits) (c : Ctx) : Bytes := c.metaBytes ++ (zeros c.metaBytes.length 32 ++ dataBytes tr c.info)

/-- The file and the vectors of the context can be held in memory. -/
structure Fits (tr : Traits) (c : Ctx) : Prop where
  file : roundUp c.metaBytes.length 32 + (c.info.map fun i => roundUp (i.t.nbytes tr) 32).sum < 2 ^ 63
  info : c.info.length * sizeofInfo < 2 ^ 63
  kv : c.kv.length * sizeofKv < 2 ^ 63

section Write
variable {tr : Traits}

theorem le_roundUp (x : Nat) {n : Nat} (hn : 0 < n) : x ≤ roundUp x n := by
  unfold roundUp
  have := Nat.div_add_mod (x + n - 1) n
  have := Nat.mod_lt (x + n - 1) hn
  rw [Nat.mul_comm]
  omega

theorem roundUp_mod (x n : Nat) : roundUp x n % n = 0 := by
  unfold roundUp
  exact Nat.mul_mod_left _ _

theorem length_zeros (x : Nat) : x + (zeros x 32).length = roundUp x 32 := by
  unfold zeros roundUp
  rw [List.length_replicate]
  omega

theorem zeros_add {a x : Nat} (h : a % 32 = 0) : zeros (a + x) 32 = zeros x 32 := by
  unfold zeros
  rw [Nat.add_mod, h, Nat.zero_add, Nat.mod_mod]

theorem length_bytes (t : Tensor) : (t.bytes tr).length = t.nbytes tr := length_slice

/-- The loop over the tensors, with the offsets that the setters compute. -/
theorem writeData_eq {d : Nat} (hd : d % 32 = 0) : ∀ (infos : List Info) (buf : Bytes) (n : Nat), Offsets tr n infos →
    n % 32 = 0 → buf.length = d + n → n + (infos.map fun i => roundUp (i.t.nbytes tr) 32).sum < 2 ^ 63 →
    (∀ i ∈ infos, i.t.Valid tr) → writeData tr 32 d infos buf = some (buf ++ dataBytes tr infos)
  | [], buf, _, _, _, _, _, _ => by
    rw [writeData, dataBytes, List.flatMap_nil, List.append_nil]
  | i :: infos, buf, n, ho, hn, hbuf, hsum, hv => by
    rw [List.map_cons, List.sum_cons] at hsum
    have hle := le_roundUp (i.t.nbytes tr) (n := 32) (by decide)
    have hlen : (buf ++ i.t.bytes tr).length = d + n + i.t.nbytes tr := by
      rw [List.length_append, length_bytes, hbuf]
    have hz : zeros (buf ++ i.t.bytes tr).length 32 = zeros (i.t.nbytes tr) 32 := by
      rw [hlen]
      exact zeros_add (by omega)
    rw [writeData, if_neg]
    · dsimp only
      rw [hz]
      have hpad : pad (i.t.nbytes tr) 32 = roundUp (i.t.nbytes tr) 32 := pad_eq (by omega)
      have hnext : behind tr n i = n + roundUp (i.t.nbytes tr) 32 := by
        unfold behind
        rw [hpad]
        exact Nat.mod_eq_of_lt (by omega)
      have hrest := ho.2
      rw [hnext] at hrest
      have hmod := roundUp_mod (i.t.nbytes tr) 32
      rw [writeData_eq hd infos _ _ hrest (by omega) ?_ (by omega) fun j hj => hv j (List.mem_cons_of_mem _ hj)]
      · rw [dataBytes, dataBytes, List.flatMap_cons, List.append_assoc, List.append_assoc, List.append_assoc]
      · rw [List.length_append, hlen, ← length_zeros]
        omega
    · rw [not_or, not_not, hbuf, ho.1, (hv i List.mem_cons_self).contiguous]
      exact ⟨by omega, Bool.noConfusion⟩

/-- **No assertion of the writer fails.** -/
theorem Inv.writeToBuf {c : Ctx} (h : Inv tr c) (hfit : Fits tr c) : c.writeToBuf tr = some (c.image tr) := by
  unfold Ctx.writeToBuf
  simp only [writeKvs_eq c.kv h.kvs.ok, Option.bind_eq_bind, Option.bind_some, h.alignment]
  change writeData tr 32 (c.metaBytes ++ zeros c.metaBytes.length 32).length c.info
    (c.metaBytes ++ zeros c.metaBytes.length 32) = _
  have hlen : (c.metaBytes ++ zeros c.metaBytes.length 32).length = roundUp c.metaBytes.length 32 := by
    rw [List.length_append, length_zeros]
  have hfile := hfit.file
  rw [writeData_eq (by rw [hlen]; exact roundUp_mod _ _) c.info _ 0 h.offsets rfl rfl (by omega) h.valid, Ctx.image,
    List.append_assoc]

theorem length_le_flatMap {α β : Type} {l : List α} {x : α} (f : α → List β) (hx : x ∈ l) :
    (f x).length ≤ (l.flatMap f).length := by
  obtain ⟨s, t, rfl⟩ := List.append_of_mem hx
  rw [List.flatMap_append, List.flatMap_cons, List.length_append, List.length_append]
  omega

theorem length_le_values {kv : Kv} (h : kv.Ok) : kv.count ≤ kv.values.length := by
  have hdata : kv.type ≠ .string → kv.count ≤ kv.data.length := by
    intro ht
    unfold Kv.count
    rw [if_neg ht]
    exact Nat.div_le_self _ _
  unfold Kv.values
  cases ht : kv.type with
  | string =>
      unfold Kv.count
      rw [if_pos ht]
      have hlen : ∀ l : List Bytes, l.length ≤ (l.flatMap writeString).length := by
        intro l
        induction l with
        | nil => exact le_rfl
        | cons s l ih =>
            rw [List.flatMap_cons, List.length_append, List.length_cons, length_writeString]
            omega
      exact hlen _
  | array => exact absurd ht h.type_ne
  | bool =>
      rw [List.length_map]
      exact hdata (by rw [ht]; decide)
  | uint8 | int8 | uint16 | int16 | uint32 | int32 | float32 | uint64 | int64 | float64 => exact hdata (by rw [ht]; decide)

variable {c : Ctx}

theorem Fits.length_metaBytes (h : Fits tr c) : c.metaBytes.length < 2 ^ 63 := by
  have := h.file
  have := le_roundUp c.metaBytes.length (n := 32) (by decide)
  omega

/-- Everything in the file is short enough for its length field. -/
theorem Fits.short (h : Fits tr c) {kv : Kv} (hok : kv.Ok) (hkv : kv ∈ c.kv) : kv.Short := by
  have hmeta := h.length_metaBytes
  have hle := length_le_flatMap Kv.encode hkv
  have hcount := length_le_values hok
  have hencode : kv.encode.length = 8 + kv.key.length + kv.head.length + kv.values.length := by
    rw [Kv.encode, List.length_append, List.length_append, length_writeString]
  have hkvs : (c.kv.flatMap Kv.encode).length ≤ c.metaBytes.length := by
    unfold Ctx.metaBytes
    simp only [List.length_append]
    omega
  refine ⟨by omega, by omega, fun s hs => ?_⟩
  obtain ⟨ht, -⟩ | ⟨-, hnil, -⟩ := hok.values
  · have hstr := length_le_flatMap writeString hs
    have hval : kv.values = kv.dataString.flatMap writeString := by
      unfold Kv.values
      rw [ht]
    rw [length_writeString, ← hval] at hstr
    omega
  · rw [hnil] at hs
    cases hs

/-- The tensors follow each other when they are padded to `a`. -/
def Follow (tr : Traits) (a : Nat) : Nat → List Info → Prop
  | _, [] => True
  | n, i :: infos => i.offset = n ∧ Follow tr a (n + roundUp (i.t.nbytes tr) a) infos

/-- The bytes of the tensors with their padding. -/
def total (tr : Traits) (a : Nat) (infos : List Info) : Nat := (infos.map fun i => roundUp (i.t.nbytes tr) a).sum

theorem total_cons (a : Nat) (i : Info) (infos : List Info) :
    total tr a (i :: infos) = roundUp (i.t.nbytes tr) a + total tr a infos := by
  unfold total
  rw [List.map_cons, List.sum_cons]

/-- Within 64 bits the offsets of the setters are plain sums. -/
theorem Offsets.follow : ∀ {infos : List Info} {n : Nat}, Offsets tr n infos → n + total tr 32 infos < 2 ^ 63 →
    Follow tr 32 n infos
  | [], _, _, _ => trivial
  | i :: infos, n, h, hlt => by
    rw [total_cons] at hlt
    have hle := le_roundUp (i.t.nbytes tr) (n := 32) (by decide)
    have hnext : behind tr n i = n + roundUp (i.t.nbytes tr) 32 := by
      unfold behind
      rw [pad_eq (by omega)]
      exact Nat.mod_eq_of_lt (by omega)
    have hrest := h.2
    rw [hnext] at hrest
    exact ⟨h.1, hrest.follow (by omega)⟩

theorem Follow.offset_le {a : Nat} : ∀ {infos : List Info} {n : Nat}, Follow tr a n infos → ∀ i ∈ infos,
    i.offset + roundUp (i.t.nbytes tr) a ≤ n + total tr a infos
  | [], _, _, i, hi => absurd hi List.not_mem_nil
  | j :: infos, n, h, i, hi => by
    rw [total_cons]
    rcases List.mem_cons.mp hi with rfl | hi
    · rw [h.1]
      omega
    · have := h.2.offset_le i hi
      omega

theorem Inv.follow (h : Inv tr c) (hfit : Fits tr c) : Follow tr 32 0 c.info := by
  have hfile := hfit.file
  exact h.offsets.follow (by unfold total; omega)

/-- What the reader makes of the file in front of the data section. -/
def Ctx.readBack (tr : Traits) (c : Ctx) : Ctx where
  version := 3
  kv := c.kv.map Kv.norm
  info := c.info.map (Info.readBack tr)
  alignment := c.fileAlignment

theorem Inv.readMeta_step (h : Inv tr c) (hfit : Fits tr c) {P : Read Unit Ctx → Bytes → Prop}
    (hbind : ∀ {α : Type} (m : Read Unit α) (f : α → Read Unit Ctx) (a : α) (bs cs : Bytes), Reads m bs () a () → P (f a) cs →
      P (m >>= f) (bs ++ cs))
    (hrest : P (do
      let info ← readInfos tr c.info.length []
      return { version := 3, kv := c.kv.map Kv.norm, info := info, alignment := c.fileAlignment })
      (c.info.flatMap Info.writeMeta)) : P (readMeta tr) c.metaBytes := by
  have hinfo := hfit.info
  have hkv := hfit.kv
  unfold sizeofInfo at hinfo
  unfold sizeofKv at hkv
  unfold Ctx.metaBytes readMeta
  simp only [List.append_assoc]
  refine hbind _ _ _ _ _ (Reads.bytes (by decide)) ?_
  rw [if_neg (not_not.mpr rfl), h.version]
  refine hbind _ _ _ _ _ (Reads.nat (by norm_num)) ?_
  rw [if_neg (by decide)]
  refine hbind _ _ _ _ _ (reads_int (by norm_num; omega)) ?_
  rw [if_neg (by unfold sizeofInfo; omega)]
  refine hbind _ _ _ _ _ (reads_int (by norm_num; omega)) ?_
  rw [if_neg (by unfold sizeofKv; omega), Int.toNat_natCast, Int.toNat_natCast]
  refine hbind _ _ _ _ _ (reads_kvs c.kv [] (fun kv hk => ⟨h.kvs.ok kv hk, hfit.short (h.kvs.ok kv hk) hk⟩) h.kvs.nodup) ?_
  rw [List.nil_append]
  refine hbind _ _ _ [] _ (reads_alignment h.kvs) ?_
  exact hrest

theorem Inv.infos (h : Inv tr c) (hfit : Fits tr c) : ∀ i ∈ c.info, i.t.Valid tr ∧ i.offset < 2 ^ 64 := by
  intro i hi
  have hle := (h.follow hfit).offset_le i hi
  have hfile := hfit.file
  unfold total at hle
  exact ⟨h.valid i hi, by omega⟩

theorem Inv.reads_meta (h : Inv tr c) (hfit : Fits tr c) (hacc : ∀ i ∈ c.info, i.t.Accepted tr) :
    Reads (readMeta tr) c.metaBytes () (c.readBack tr) () := by
  refine h.readMeta_step hfit (P := fun m bs => Reads m bs () (c.readBack tr) ()) (fun m f a bs cs => Reads.bind) ?_
  refine (reads_infos c.info [] (fun i hi => ?_) h.names).bind_last (Reads.pure _)
  exact ⟨(h.infos hfit i hi).1, (h.infos hfit i hi).2, hacc i hi⟩

theorem Inv.fails_meta (h : Inv tr c) (hfit : Fits tr c) (hacc : ¬ ∀ i ∈ c.info, i.t.Accepted tr) :
    Fails (readMeta tr) c.metaBytes () := by
  refine h.readMeta_step hfit (P := fun m bs => Fails m bs ()) (fun m f a bs cs => Reads.bind_fails) ?_
  exact (fails_infos c.info [] (h.infos hfit) h.names hacc).bind

end Write

end S2Moe.Gguf
