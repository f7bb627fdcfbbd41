import S2Moe.Gguf.Format
import S2Moe.Lib.Run

/-!
# What the setters build

* `Op`, `step` : the public setters;
* `Kv.Ok`, `Tensor.Valid` : a pair that a setter makes, and a contiguous tensor;
* `Offsets` : the tensors follow each other with an alignment of 32, the one that a context is made with;
* `Inv` : what every sequence of setters keeps.
-/

namespace S2Moe.Gguf
open S2Moe.Lib

/-- A contiguous tensor. -/
structure Tensor.Valid (tr : Traits) (t : Tensor) : Prop where
  name_lt : t.name.length < 64
  noNul : 0 ∉ t.name
  type_lt : t.type < 40
  blck_pos : 0 < tr.blckSize t.type
  ne_lt : ∀ i, t.ne i < 2 ^ 63
  contiguous : t.isContiguous tr = true

inductive Op where
  | setVal (key : CStr) (val : Scalar)
  | setArrData (key : CStr) (type : GgufType) (data : Nat → UInt8) (n : Nat)
  | setArrStr (key : CStr) (data : List CStr)
  | setKv (src : List Kv)
  | removeKey (key : CStr)
  | addTensor (t : Tensor)
  | setTensorType (name : Bytes) (type : Nat)

def step (tr : Traits) : Op → Ctx → Option Ctx
  | .setVal key val, c => c.setVal key val
  | .setArrData key type data n, c => c.setArrData key type data n
  | .setArrStr key data, c => c.setArrStr key data
  | .setKv src, c => c.setKv src
  | .removeKey key, c => some (c.removeKey key)
  | .addTensor t, c => c.addTensor tr t
  | .setTensorType name type, c => c.setTensorType tr name type

/-- The tensors that are added are contiguous, and a type is one of the enumeration. -/
def Op.wellTyped (tr : Traits) (_ : Ctx) : Op → Prop
  | .addTensor t => t.Valid tr
  | .setTensorType _ type => type < 40
  | _ => True

/-! ## Key-value pairs -/

structure Kv.Ok (kv : Kv) : Prop where
  key_ne : kv.key ≠ []
  noNul : 0 ∉ kv.key
  values : (kv.type = .string ∧ kv.data = [] ∧ (kv.isArray = true ∨ kv.dataString.length = 1)) ∨
    (kv.type.size ≠ 0 ∧ kv.dataString = [] ∧ ∃ n, kv.data.length = n * kv.type.size ∧ (kv.isArray = true ∨ n = 1))
  alignment : kv.key = alignmentKey → kv.type = .uint32 ∧ kv.isArray = false ∧ Ctx.isPow2 (ofLe kv.data) = true

theorem takeWhile_eq_self {s : Bytes} (h : 0 ∉ s) : s.takeWhile (· ≠ 0) = s := by
  rw [List.takeWhile_eq_self_iff]
  intro b hb
  refine decide_eq_true fun hc => h ?_
  rwa [← hc]

theorem CStr.of_bytes {s : Bytes} (h : 0 ∉ s) : (CStr.of s).bytes = s := takeWhile_eq_self h

/-- The pairs of a context, each key once. -/
structure KvsOk (kvs : List Kv) : Prop where
  nodup : (kvs.map Kv.key).Nodup
  ok : ∀ kv ∈ kvs, kv.Ok

/-- The key that is removed does not occur again. -/
theorem eraseP_key (key : CStr) : ∀ {kvs : List Kv}, KvsOk kvs →
    ∀ kv ∈ kvs.eraseP (fun kv => (CStr.of kv.key).bytes = key.bytes), kv.key ≠ key.bytes
  | [], _, kv, hkv => absurd hkv List.not_mem_nil
  | k :: kvs, h, kv, hkv => by
    have hnodup := h.nodup
    rw [List.map_cons, List.nodup_cons] at hnodup
    have hk := CStr.of_bytes (h.ok k List.mem_cons_self).noNul
    by_cases heq : k.key = key.bytes
    · rw [List.eraseP_cons_of_pos (p := fun kv : Kv => decide ((CStr.of kv.key).bytes = key.bytes))
        (decide_eq_true (hk.trans heq))] at hkv
      intro hc
      exact hnodup.1 (heq.trans hc.symm ▸ List.mem_map_of_mem hkv)
    · rw [List.eraseP_cons_of_neg (by simpa [hk] using heq)] at hkv
      obtain rfl | hkv := List.mem_cons.mp hkv
      · exact heq
      · exact eraseP_key key ⟨hnodup.2, fun kv hkv => h.ok kv (List.mem_cons_of_mem _ hkv)⟩ kv hkv

theorem KvsOk.eraseP {kvs : List Kv} (h : KvsOk kvs) (p : Kv → Bool) : KvsOk (kvs.eraseP p) where
  nodup := h.nodup.sublist ((List.eraseP_sublist (p := p)).map Kv.key)
  ok kv hkv := h.ok kv (List.eraseP_sublist.subset hkv)

/-- A pair replaces the one with its key. -/
theorem KvsOk.replace {c c' : Ctx} (h : KvsOk c.kv) {key : CStr} {kv : Kv} (hkey : kv.key = key.bytes)
    (hok : kv.key ≠ [] → kv.Ok) (hset : (c.removeKey key).emplace kv = some c') :
    KvsOk c'.kv ∧ c'.info = c.info ∧ c'.version = c.version ∧ c'.alignment = c.alignment := by
  unfold Ctx.emplace at hset
  split at hset
  · cases hset
  · rename_i hne
    cases hset
    refine ⟨⟨?_, fun x hx => ?_⟩, rfl, rfl, rfl⟩
    · change ((c.kv.eraseP _ ++ [kv]).map Kv.key).Nodup
      rw [List.map_append, List.map_singleton]
      refine List.Nodup.append (h.eraseP _).nodup (List.nodup_singleton _) ?_
      intro k hk hk'
      obtain ⟨x, hx, rfl⟩ := List.mem_map.mp hk
      exact eraseP_key key h x hx ((List.mem_singleton.mp hk').trans hkey)
    · rcases List.mem_append.mp hx with hx | hx
      · exact (h.eraseP _).ok x hx
      · rw [List.mem_singleton.mp hx]
        exact hok hne

theorem Scalar.key_kv (key : Bytes) (v : Scalar) : (v.kv key).key = key := by
  cases v <;> rfl

/-- The constructors make pairs that fit their types. -/
theorem Scalar.ok_kv {key : CStr} {v : Scalar} (hcheck : Ctx.checkReserved key v = true) (hne : (v.kv key.bytes).key ≠ []) :
    (v.kv key.bytes).Ok where
  key_ne := hne
  noNul := by
    rw [Scalar.key_kv]
    exact key.noNul
  values := by
    have hlen : ∀ (kv : Kv), kv.type.size ≠ 0 → kv.dataString = [] → kv.data.length = kv.type.size → kv.isArray = false →
        (kv.type.size ≠ 0 ∧ kv.dataString = [] ∧ ∃ n, kv.data.length = n * kv.type.size ∧ (kv.isArray = true ∨ n = 1)) :=
      fun kv h1 h2 h3 _ => ⟨h1, h2, 1, h3.trans (Nat.one_mul _).symm, .inr rfl⟩
    cases v with
    | str v => exact .inl ⟨rfl, rfl, .inr rfl⟩
    | u8 | i8 | u16 | i16 | u32 | i32 | f32 | u64 | i64 | f64 | bool =>
        exact .inr (hlen _ (Nat.succ_ne_zero _) rfl (length_leBytes _ _) rfl)
  alignment hkey := by
    rw [Scalar.key_kv] at hkey
    cases v with
    | u32 v =>
        refine ⟨rfl, rfl, ?_⟩
        have hpow := of_decide_eq_true hcheck hkey
        change Ctx.isPow2 (ofLe (leBytes 4 v.toNat)) = true
        rw [ofLe_leBytes (by have := v.toNat_lt; omega)]
        exact hpow
    | u8 | i8 | u16 | i16 | i32 | f32 | u64 | i64 | f64 | bool | str =>
        exact absurd hkey (of_decide_eq_true hcheck)

/-- What the setters for key-value pairs keep. -/
structure Kept (c c' : Ctx) : Prop where
  kvs : KvsOk c'.kv
  info : c'.info = c.info
  version : c'.version = c.version
  alignment : c'.alignment = c.alignment

section Setters
variable {c c' : Ctx}

theorem KvsOk.setVal (h : KvsOk c.kv) {key : CStr} {val : Scalar} (hset : c.setVal key val = some c') : Kept c c' := by
  unfold Ctx.setVal at hset
  split at hset
  · rename_i hcheck
    obtain ⟨h1, h2, h3, h4⟩ := h.replace (Scalar.key_kv _ _) (fun hne => Scalar.ok_kv hcheck hne) hset
    exact ⟨h1, h2, h3, h4⟩
  · cases hset

theorem KvsOk.setArrData (h : KvsOk c.kv) {key : CStr} {type : GgufType} {data : Nat → UInt8} {n : Nat}
    (hset : c.setArrData key type data n = some c') : Kept c c' := by
  unfold Ctx.setArrData at hset
  split at hset
  · cases hset
  · rename_i hno
    rw [not_or] at hno
    obtain ⟨h1, h2, h3, h4⟩ := h.replace rfl (fun hne => ⟨hne, key.noNul, .inr ⟨hno.2, rfl, n, length_slice, .inl rfl⟩,
      fun hkey => absurd hkey hno.1⟩) hset
    exact ⟨h1, h2, h3, h4⟩

theorem KvsOk.setArrStr (h : KvsOk c.kv) {key : CStr} {data : List CStr} (hset : c.setArrStr key data = some c') :
    Kept c c' := by
  unfold Ctx.setArrStr at hset
  split at hset
  · cases hset
  · rename_i hno
    obtain ⟨h1, h2, h3, h4⟩ := h.replace rfl (fun hne => ⟨hne, key.noNul, .inl ⟨rfl, rfl, .inl rfl⟩,
      fun hkey => absurd hkey hno⟩) hset
    exact ⟨h1, h2, h3, h4⟩

theorem KvsOk.setOne (h : KvsOk c.kv) {kv : Kv} (hset : c.setOne kv = some c') : Kept c c' := by
  unfold Ctx.setOne at hset
  split at hset
  · obtain ⟨v, -, hset⟩ := Option.bind_eq_some_iff.mp hset
    exact h.setVal hset
  · obtain ⟨ne, -, hset⟩ := Option.bind_eq_some_iff.mp hset
    split at hset
    · exact h.setArrStr hset
    · exact h.setArrData hset

theorem KvsOk.setKv : ∀ (src : List Kv) {c : Ctx}, KvsOk c.kv → c.setKv src = some c' → Kept c c'
  | [], c, h, hset => by
    cases hset
    exact ⟨h, rfl, rfl, rfl⟩
  | kv :: src, c, h, hset => by
    obtain ⟨c1, hone, hset⟩ := Option.bind_eq_some_iff.mp hset
    have h1 := h.setOne hone
    have h2 := KvsOk.setKv src h1.kvs hset
    exact ⟨h2.kvs, h2.info.trans h1.info, h2.version.trans h1.version, h2.alignment.trans h1.alignment⟩

end Setters

/-! ## Tensors -/

section Tensors
variable (tr : Traits)

/-- The offset behind a tensor. -/
def behind (n : Nat) (i : Info) : Nat := (n + pad (i.t.nbytes tr) 32) % 2 ^ 64

/-- The tensors follow each other from `n` on. -/
def Offsets : Nat → List Info → Prop
  | _, [] => True
  | n, i :: infos => i.offset = n ∧ Offsets (behind tr n i) infos

variable {tr}

theorem Offsets.append : ∀ {l k : List Info} {n : Nat},
    Offsets tr n (l ++ k) ↔ Offsets tr n l ∧ Offsets tr (l.foldl (behind tr) n) k
  | [], _, _ => ⟨fun h => ⟨trivial, h⟩, And.right⟩
  | i :: l, k, n => by
    rw [List.cons_append, Offsets, Offsets, Offsets.append (l := l), and_assoc]
    rfl

/-- The next offset is computed from the last tensor alone. -/
theorem Offsets.nextOffset {c : Ctx} (h : Offsets tr 0 c.info) (ha : c.alignment = 32) :
    c.nextOffset tr = c.info.foldl (behind tr) 0 := by
  unfold Ctx.nextOffset
  rw [ha]
  rcases List.eq_nil_or_concat c.info with hnil | ⟨l, i, hl⟩
  · rw [hnil]
    rfl
  · rw [List.concat_eq_append] at hl
    rw [hl, List.getLast?_concat, List.foldl_append]
    rw [hl, Offsets.append] at h
    dsimp only
    rw [h.2.1]
    rfl

/-- The offsets that `gguf_set_tensor_type` computes anew. -/
theorem offsets_updateOffsets : ∀ (infos : List Info) (prev : Info),
    Offsets tr (behind tr prev.offset prev) (Ctx.updateOffsets tr 32 prev infos) ∧
      (Ctx.updateOffsets tr 32 prev infos).map Info.t = infos.map Info.t
  | [], _ => ⟨trivial, rfl⟩
  | i :: infos, prev => by
    obtain ⟨h1, h2⟩ := offsets_updateOffsets infos ({ i with offset := behind tr prev.offset prev })
    refine ⟨⟨rfl, h1⟩, ?_⟩
    rw [Ctx.updateOffsets, List.map_cons, List.map_cons]
    exact congrArg _ h2

/-- A tensor with fresh strides is contiguous. -/
theorem isContiguous_strides (t : Tensor) (type : Nat) :
    ({ t with type := type, nb := strides tr type t.ne } : Tensor).isContiguous tr = true := by
  unfold Tensor.isContiguous
  dsimp only
  have h0 : strides tr type t.ne 0 = tr.typeSize type := rfl
  have h1 : strides tr type t.ne 1 = tr.typeSize type * (t.ne 0 / tr.blckSize type) % 2 ^ 64 := rfl
  have h2 : strides tr type t.ne 2 = strides tr type t.ne 1 * t.ne 1 % 2 ^ 64 := rfl
  have h3 : strides tr type t.ne 3 = strides tr type t.ne 2 * t.ne 2 % 2 ^ 64 := rfl
  rw [if_neg fun hc => hc.2 h0, ← h1]
  generalize strides tr type t.ne = nb at h1 h2 h3
  have hlt1 : nb 1 < 2 ^ 64 := h1 ▸ Nat.mod_lt _ (by decide)
  have hlt2 : nb 2 < 2 ^ 64 := h2 ▸ Nat.mod_lt _ (by decide)
  -- a dimension of size 1 leaves the stride as it is
  have hsame1 : t.ne 1 = 1 → nb 1 = nb 2 := fun he => by rw [h2, he, Nat.mul_one, Nat.mod_eq_of_lt hlt1]
  have hsame2 : t.ne 2 = 1 → nb 2 = nb 3 := fun he => by rw [h3, he, Nat.mul_one, Nat.mod_eq_of_lt hlt2]
  have hstep1 : (if t.ne 1 ≠ 1 then (true && decide (nb 1 = nb 1), nb 1 * t.ne 1 % 2 ^ 64) else (true, nb 1)) =
      (true, nb 2) := by
    split
    · rw [← h2]
      simp
    · rename_i he
      rw [hsame1 (not_not.mp he)]
  have hstep2 : (if t.ne 2 ≠ 1 then (true && decide (nb 2 = nb 2), nb 2 * t.ne 2 % 2 ^ 64) else (true, nb 2)) =
      (true, nb 3) := by
    split
    · rw [← h3]
      simp
    · rename_i he
      rw [hsame2 (not_not.mp he)]
  rw [List.foldl_cons, hstep1, List.foldl_cons, hstep2, List.foldl_cons, List.foldl_nil]
  split
  · simp
  · rfl

/-- What every sequence of setters keeps. -/
structure Inv (tr : Traits) (c : Ctx) : Prop where
  version : c.version = 3
  alignment : c.alignment = 32
  kvs : KvsOk c.kv
  names : (c.info.map (·.t.name)).Nodup
  valid : ∀ i ∈ c.info, i.t.Valid tr
  offsets : Offsets tr 0 c.info

theorem Inv.empty : Inv tr Ctx.empty :=
  ⟨rfl, rfl, ⟨List.nodup_nil, fun _ h => absurd h List.not_mem_nil⟩, List.nodup_nil, fun _ h => absurd h List.not_mem_nil,
    trivial⟩

variable {c c' : Ctx}

theorem Inv.kept (h : Inv tr c) (hk : Kept c c') : Inv tr c' where
  version := hk.version.trans h.version
  alignment := hk.alignment.trans h.alignment
  kvs := hk.kvs
  names := hk.info ▸ h.names
  valid := hk.info ▸ h.valid
  offsets := hk.info ▸ h.offsets

theorem Inv.addTensor (h : Inv tr c) {t : Tensor} (ht : t.Valid tr) (hadd : c.addTensor tr t = some c') : Inv tr c' := by
  unfold Ctx.addTensor at hadd
  split at hadd
  · cases hadd
  · rename_i hnew
    cases hadd
    refine ⟨h.version, h.alignment, h.kvs, ?_, fun i hi => ?_, ?_⟩
    · rw [List.map_append, List.map_singleton]
      refine List.Nodup.append h.names (List.nodup_singleton _) fun k hk hk' => hnew ?_
      obtain ⟨i, hi, rfl⟩ := List.mem_map.mp hk
      unfold Ctx.findTensor
      rw [List.findIdx?_isSome, List.any_eq_true]
      exact ⟨i, hi, decide_eq_true (List.mem_singleton.mp hk')⟩
    · rcases List.mem_append.mp hi with hi | hi
      · exact h.valid i hi
      · rw [List.mem_singleton.mp hi]
        exact ht
    · rw [Offsets.append]
      exact ⟨h.offsets, h.offsets.nextOffset h.alignment, trivial⟩

theorem Inv.setTensorType (h : Inv tr c) {name : Bytes} {type : Nat} (htype : type < 40)
    (hset : c.setTensorType tr name type = some c') : Inv tr c' := by
  unfold Ctx.setTensorType at hset
  simp only [Option.bind_eq_bind, Option.bind_eq_some_iff] at hset
  obtain ⟨id, -, i, hi, hset⟩ := hset
  split at hset
  · cases hset
  · rename_i hblck
    rw [not_or] at hblck
    cases hset
    obtain ⟨hid, rfl⟩ := List.getElem?_eq_some_iff.mp hi
    have hsplit : c.info = c.info.take id ++ c.info[id] :: c.info.drop (id + 1) := by
      rw [← List.drop_eq_getElem_cons hid, List.take_append_drop]
    obtain ⟨hoff, hts⟩ : Offsets tr _ _ ∧ _ := offsets_updateOffsets (c.info.drop (id + 1))
      { c.info[id] with t := { c.info[id].t with type := type, nb := strides tr type c.info[id].t.ne } }
    have holdoff := h.offsets
    have hnames := h.names
    rw [hsplit, Offsets.append] at holdoff
    rw [hsplit, List.map_append, List.map_cons] at hnames
    have hmem : c.info[id] ∈ c.info := List.getElem_mem hid
    refine ⟨h.version, h.alignment, h.kvs, ?_, fun j hj => ?_, ?_⟩
    · have hrest : (Ctx.updateOffsets tr 32 { c.info[id] with t :=
          { c.info[id].t with type := type, nb := strides tr type c.info[id].t.ne } } (c.info.drop (id + 1))).map (·.t.name) =
          (c.info.drop (id + 1)).map (·.t.name) := by
        have := congrArg (List.map Tensor.name) hts
        rwa [List.map_map, List.map_map] at this
      dsimp only
      rw [h.alignment, List.map_append, List.map_cons, hrest]
      exact hnames
    · dsimp only at hj
      rw [h.alignment] at hj
      rcases List.mem_append.mp hj with hj | hj
      · exact h.valid j (List.mem_of_mem_take hj)
      · rcases List.mem_cons.mp hj with rfl | hj
        · have hv := h.valid _ hmem
          exact ⟨hv.name_lt, hv.noNul, htype, Nat.pos_of_ne_zero hblck.1, hv.ne_lt, isContiguous_strides _ type⟩
        · have hjt := List.mem_map_of_mem (f := Info.t) hj
          rw [hts] at hjt
          obtain ⟨k, hk, hkj⟩ := List.mem_map.mp hjt
          rw [← hkj]
          exact h.valid k (List.mem_of_mem_drop hk)
    · dsimp only
      rw [h.alignment, Offsets.append]
      refine ⟨holdoff.1, holdoff.2.1, ?_⟩
      rw [← holdoff.2.1]
      exact hoff

theorem Inv.step {op : Op} (h : Inv tr c) (hop : op.wellTyped tr c) (hstep : Gguf.step tr op c = some c') : Inv tr c' := by
  cases op with
  | setVal key val => exact h.kept (h.kvs.setVal hstep)
  | setArrData key type data n => exact h.kept (h.kvs.setArrData hstep)
  | setArrStr key data => exact h.kept (h.kvs.setArrStr hstep)
  | setKv src => exact h.kept (KvsOk.setKv src h.kvs hstep)
  | removeKey key =>
      cases hstep
      exact ⟨h.version, h.alignment, h.kvs.eraseP _, h.names, h.valid, h.offsets⟩
  | addTensor t => exact h.addTensor hop hstep
  | setTensorType name type => exact h.setTensorType hop hstep

/-- Every context that the setters build. -/
theorem Inv.reaches (h : Reaches (Gguf.step tr) (Op.wellTyped tr) Ctx.empty c) : Inv tr c :=
  h.invariant Inv.empty fun _ _ _ hi hop hstep => hi.step hop hstep

end Tensors

end S2Moe.Gguf
