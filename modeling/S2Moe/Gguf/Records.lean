import S2Moe.Gguf.Layout

/-!
# The tensors of a file

* `Record` : the bytes of a tensor, as they may stand in a file;
* `readDims`, `readTensor`, `readPairs`, `readFront` : the stages of the reader; `readInfo_eq`, `readMeta_eq_front`;
* `forms_dims`, `forms_tensor`, `forms_infos` : which bytes each stage takes, and where it divides by zero;
* `readFront_iff`, `readMeta_iff`, `readMeta_aborts_iff` : the reader in front of the data section.
-/

namespace S2Moe.Gguf
open S2Moe.Lib

/-! ## Tensors -/

/-- A tensor in a file. -/
structure Record where
  name : Bytes
  dims : List Nat
  type : Nat
  offset : Nat

namespace Record

/-- The name as a C string. -/
def cname (r : Record) : Bytes := (CStr.of r.name).bytes

/-- The dimensions behind those in the file are 1. -/
def ne (r : Record) : Fin 4 → Nat := fun j => r.dims.getD j.val 1

/-- The name and the shape. -/
def shapeBytes (r : Record) : Bytes := writeString r.name ++ (leBytes 4 r.dims.length ++ r.dims.flatMap (leBytes 8))

/-- The bytes of a tensor in a file. -/
def bytes (r : Record) : Bytes := r.shapeBytes ++ leBytes 4 r.type ++ leBytes 8 r.offset

/-- The reader gets as far as the number of elements. -/
structure Shaped (r : Record) : Prop where
  name_lt : r.name.length < 64
  dims_le : r.dims.length ≤ 4
  dims_lt : ∀ d ∈ r.dims, d < 2 ^ 63

variable (tr : Traits)

/-- The reader computes the strides. -/
structure Typed (r : Record) : Prop where
  shaped : r.Shaped
  elements : checkElements r.ne = none
  type_lt : r.type < 40
  blck : tr.blckSize r.type ≠ 0
  rows : r.ne 0 % tr.blckSize r.type = 0

def tensor (r : Record) : Tensor := ⟨r.cname, r.type, r.ne, strides tr r.type r.ne, fun _ => 0⟩

def info (r : Record) : Info := ⟨r.tensor tr, r.offset⟩

end Record

theorem forms_dim (nDims j : Nat) : Forms (readDim nDims j)
    (fun ne w => (j < nDims ∧ ne < 2 ^ 63 ∧ w = leBytes 8 ne) ∨ (nDims ≤ j ∧ ne = 1 ∧ w = [])) fun _ => False := by
  unfold readDim
  by_cases hj : j < nDims
  · rw [if_pos hj]
    refine (forms_signed 8 (p := fun i => i < 0) (fun i hi => hi) fun n => Forms.pure n).congr (fun ne w => ?_)
      fun w => by simp
    constructor
    · rintro ⟨n, v, hn, -, ⟨rfl, rfl⟩, rfl⟩
      norm_num at hn
      exact .inl ⟨hj, by omega, List.append_nil _⟩
    · rintro (⟨-, hn, rfl⟩ | ⟨hle, -⟩)
      · exact ⟨ne, [], by norm_num; omega, by omega, ⟨rfl, rfl⟩, (List.append_nil _).symm⟩
      · omega
  · rw [if_neg hj]
    refine (Forms.pure 1).congr (fun ne w => ?_) fun _ => Iff.rfl
    constructor
    · rintro ⟨rfl, rfl⟩
      exact .inr ⟨by omega, rfl, rfl⟩
    · rintro (⟨hlt, -⟩ | ⟨-, rfl, rfl⟩)
      · omega
      · exact ⟨rfl, rfl⟩

/-- The four dimensions. -/
theorem forms_ne {nDims : Nat} (hn : nDims ≤ 4) : Forms (do
      let ne0 ← readDim nDims 0
      let ne1 ← readDim nDims 1
      let ne2 ← readDim nDims 2
      let ne3 ← readDim nDims 3
      return ![ne0, ne1, ne2, ne3] : Read Unit (Fin 4 → Nat))
    (fun ne w => ∃ dims : List Nat, dims.length = nDims ∧ (∀ d ∈ dims, d < 2 ^ 63) ∧
      ne = (fun j : Fin 4 => dims.getD j.val 1) ∧
      w = dims.flatMap (leBytes 8)) fun _ => False := by
  have hvec : ∀ {dims : List Nat} {a b c d : Nat}, dims.getD 0 1 = a → dims.getD 1 1 = b → dims.getD 2 1 = c →
      dims.getD 3 1 = d → (![a, b, c, d] : Fin 4 → Nat) = fun j : Fin 4 => dims.getD j.val 1 := by
    rintro dims a b c d rfl rfl rfl rfl
    funext j
    match j with
    | 0 => rfl
    | 1 => rfl
    | 2 => rfl
    | 3 => rfl
  refine ((forms_dim nDims 0).bind fun ne0 => (forms_dim nDims 1).bind fun ne1 => (forms_dim nDims 2).bind fun ne2 =>
    (forms_dim nDims 3).map (f := fun ne3 => (![ne0, ne1, ne2, ne3] : Fin 4 → Nat))).congr (fun ne w => ?_) fun w => by simp
  constructor
  · rintro ⟨ne0, w0, _, h0, ⟨ne1, w1, _, h1, ⟨ne2, w2, w3, h2, ⟨ne3, h3, rfl⟩, rfl⟩, rfl⟩, rfl⟩
    rcases h0 with ⟨hlt0, h0, rfl⟩ | ⟨hle0, rfl, rfl⟩
    · rcases h1 with ⟨hlt1, h1, rfl⟩ | ⟨hle1, rfl, rfl⟩
      · rcases h2 with ⟨hlt2, h2, rfl⟩ | ⟨hle2, rfl, rfl⟩
        · rcases h3 with ⟨hlt3, h3, rfl⟩ | ⟨hle3, rfl, rfl⟩
          · exact ⟨[ne0, ne1, ne2, ne3], by simp; omega, by simp; omega, hvec rfl rfl rfl rfl, by simp⟩
          · exact ⟨[ne0, ne1, ne2], by simp; omega, by simp; omega, hvec rfl rfl rfl rfl, by simp⟩
        · obtain ⟨hlt3, -⟩ | ⟨-, rfl, rfl⟩ := h3
          · omega
          · exact ⟨[ne0, ne1], by simp; omega, by simp; omega, hvec rfl rfl rfl rfl, by simp⟩
      · obtain ⟨hlt2, -⟩ | ⟨-, rfl, rfl⟩ := h2
        · omega
        · obtain ⟨hlt3, -⟩ | ⟨-, rfl, rfl⟩ := h3
          · omega
          · exact ⟨[ne0], by simp; omega, by simp; omega, hvec rfl rfl rfl rfl, by simp⟩
    · obtain ⟨hlt1, -⟩ | ⟨-, rfl, rfl⟩ := h1
      · omega
      · obtain ⟨hlt2, -⟩ | ⟨-, rfl, rfl⟩ := h2
        · omega
        · obtain ⟨hlt3, -⟩ | ⟨-, rfl, rfl⟩ := h3
          · omega
          · exact ⟨[], by simp; omega, by simp, hvec rfl rfl rfl rfl, by simp⟩
  · rintro ⟨dims, hlen, hlt, rfl, rfl⟩
    -- where dimension `j` stands in the file, if it does
    have hdim : ∀ j, (j < nDims ∧ dims.getD j 1 < 2 ^ 63 ∧ (dims[j]?.elim [] (leBytes 8)) = leBytes 8 (dims.getD j 1)) ∨
        (nDims ≤ j ∧ dims.getD j 1 = 1 ∧ (dims[j]?.elim [] (leBytes 8)) = []) := by
      intro j
      rcases Nat.lt_or_ge j nDims with hj | hj
      · have hget := List.getElem?_eq_getElem (l := dims) (i := j) (by omega)
        rw [List.getD_eq_getElem?_getD, hget]
        exact .inl ⟨hj, hlt _ (List.getElem_mem _), rfl⟩
      · have hget := List.getElem?_eq_none (l := dims) (i := j) (by omega)
        rw [List.getD_eq_getElem?_getD, hget]
        exact .inr ⟨hj, rfl, rfl⟩
    refine ⟨_, _, _, hdim 0, ⟨_, _, _, hdim 1, ⟨_, _, _, hdim 2, ⟨_, hdim 3, (hvec rfl rfl rfl rfl).symm⟩, rfl⟩, rfl⟩, ?_⟩
    match dims with
    | [] => rfl
    | [a] => simp
    | [a, b] => simp
    | [a, b, c] => simp
    | [a, b, c, d] => simp
    | a :: b :: c :: d :: e :: l =>
      simp at hlen
      omega

/-- The name and the shape of a tensor; `infos` are the tensors before. -/
def readDims (infos : List Info) : Read Unit (Bytes × (Fin 4 → Nat)) := do
  let name ← readString
  if 64 ≤ name.length ∨ infos.any (·.t.name = (CStr.of name).bytes) then Read.fail .thrown
  else
    let nDims ← Read.nat 4
    if 4 < nDims then Read.fail .thrown
    else
      let ne0 ← readDim nDims 0
      let ne1 ← readDim nDims 1
      let ne2 ← readDim nDims 2
      let ne3 ← readDim nDims 3
      return ((CStr.of name).bytes, ![ne0, ne1, ne2, ne3])

/-- As far as the strides. -/
def readTensor (tr : Traits) (infos : List Info) : Read Unit Tensor := do
  let p ← readDims infos
  match checkElements p.2 with
  | some e => Read.fail e
  | none =>
    let type ← Read.int 4
    if type < 0 ∨ 40 ≤ type then Read.fail .thrown
    else
      if tr.blckSize type.toNat = 0 ∨ p.2 0 % tr.blckSize type.toNat ≠ 0 then Read.fail .thrown
      else return ⟨p.1, type.toNat, p.2, strides tr type.toNat p.2, fun _ => 0⟩

theorem readInfo_eq (tr : Traits) (infos : List Info) : readInfo tr infos = do
    let t ← readTensor tr infos
    let offset ← Read.nat 8
    return ⟨t, offset⟩ := by
  have hcheck : ∀ (name : Bytes) (ne : Fin 4 → Nat), (match checkElements ne with
      | some e => Read.fail e
      | none => do
        let type ← Read.int 4
        if type < 0 ∨ 40 ≤ type then Read.fail .thrown
        else
          if tr.blckSize type.toNat = 0 ∨ ne 0 % tr.blckSize type.toNat ≠ 0 then Read.fail .thrown
          else
            let offset ← Read.nat 8
            return ⟨⟨name, type.toNat, ne, strides tr type.toNat ne, fun _ => 0⟩, offset⟩ : Read Unit Info) =
      (match checkElements ne with
      | some e => Read.fail e
      | none => do
        let type ← Read.int 4
        if type < 0 ∨ 40 ≤ type then Read.fail .thrown
        else
          if tr.blckSize type.toNat = 0 ∨ ne 0 % tr.blckSize type.toNat ≠ 0 then Read.fail .thrown
          else return ⟨name, type.toNat, ne, strides tr type.toNat ne, fun _ => 0⟩ : Read Unit Tensor) >>= fun t => do
        let offset ← Read.nat 8
        return ⟨t, offset⟩ := by
    intro name ne
    cases checkElements ne with
    | some e => rfl
    | none =>
        dsimp only
        simp only [bind_assoc, ite_bind, fail_bind, pure_bind]
  unfold readInfo readTensor readDims
  simp only [bind_assoc, ite_bind, fail_bind, pure_bind]
  simp only [← hcheck]
  all_goals rfl

/-- The names of the tensors before. -/
def names (infos : List Info) : List Bytes := infos.map (·.t.name)

theorem forms_dims (infos : List Info) : Forms (readDims infos)
    (fun p w => ∃ r : Record, r.Shaped ∧ r.cname ∉ names infos ∧ p = (r.cname, r.ne) ∧ w = r.shapeBytes) fun _ => False := by
  have hshape : ∀ name : Bytes, Forms (do
      let nDims ← Read.nat 4
      if 4 < nDims then Read.fail .thrown
      else
        let ne0 ← readDim nDims 0
        let ne1 ← readDim nDims 1
        let ne2 ← readDim nDims 2
        let ne3 ← readDim nDims 3
        return ((CStr.of name).bytes, ![ne0, ne1, ne2, ne3]) : Read Unit (Bytes × (Fin 4 → Nat)))
      (fun p w => ∃ dims : List Nat, dims.length ≤ 4 ∧ (∀ d ∈ dims, d < 2 ^ 63) ∧
        p = ((CStr.of name).bytes, fun j : Fin 4 => dims.getD j.val 1) ∧
        w = leBytes 4 dims.length ++ dims.flatMap (leBytes 8)) fun _ => False := by
    intro name
    have hdims : ∀ nDims : Nat, Forms (if 4 < nDims then Read.fail .thrown else do
        let ne0 ← readDim nDims 0
        let ne1 ← readDim nDims 1
        let ne2 ← readDim nDims 2
        let ne3 ← readDim nDims 3
        return ((CStr.of name).bytes, ![ne0, ne1, ne2, ne3]) : Read Unit (Bytes × (Fin 4 → Nat)))
        (fun p w => nDims ≤ 4 ∧ ∃ dims : List Nat, dims.length = nDims ∧ (∀ d ∈ dims, d < 2 ^ 63) ∧
          p = ((CStr.of name).bytes, fun j : Fin 4 => dims.getD j.val 1) ∧ w = dims.flatMap (leBytes 8))
        fun _ => False := by
      intro nDims
      by_cases hn : 4 < nDims
      · rw [if_pos hn]
        exact Forms.thrown.congr (fun p w => by simp [hn]) fun _ => Iff.rfl
      · rw [if_neg hn]
        have hne := (forms_ne (not_lt.mp hn)).map (f := fun ne => ((CStr.of name).bytes, ne))
        simp only [bind_assoc, pure_bind] at hne
        refine hne.congr (fun p w => ?_) fun _ => Iff.rfl
        constructor
        · rintro ⟨_, ⟨dims, hlen, hlt, rfl, rfl⟩, rfl⟩
          exact ⟨not_lt.mp hn, dims, hlen, hlt, rfl, rfl⟩
        · rintro ⟨-, dims, hlen, hlt, rfl, rfl⟩
          exact ⟨_, ⟨dims, hlen, hlt, rfl, rfl⟩, rfl⟩
    refine ((Forms.nat 4).bind hdims).congr (fun p w => ?_) fun _ => by simp
    constructor
    · rintro ⟨_, _, _, ⟨-, rfl⟩, ⟨hle, dims, rfl, hlt, rfl, rfl⟩, rfl⟩
      exact ⟨dims, hle, hlt, rfl, rfl⟩
    · rintro ⟨dims, hle, hlt, rfl, rfl⟩
      exact ⟨_, _, _, ⟨by norm_num; omega, rfl⟩, ⟨hle, dims, rfl, hlt, rfl, rfl⟩, rfl⟩
  have hnew : ∀ name : Bytes, ¬ infos.any (·.t.name = (CStr.of name).bytes) = true ↔ (CStr.of name).bytes ∉ names infos := by
    intro name
    unfold names
    simp
  refine (forms_string.bind fun name => (hshape name).guard
    (p := 64 ≤ name.length ∨ infos.any (·.t.name = (CStr.of name).bytes) = true)).congr (fun p w => ?_) fun _ => by simp
  simp only [not_or, hnew]
  constructor
  · rintro ⟨name, _, _, ⟨-, rfl⟩, ⟨⟨hname, hfresh⟩, dims, hle, hlt, rfl, rfl⟩, rfl⟩
    exact ⟨⟨name, dims, 0, 0⟩, ⟨not_le.mp hname, hle, hlt⟩, hfresh, rfl, rfl⟩
  · rintro ⟨r, ⟨hname, hle, hlt⟩, hfresh, rfl, rfl⟩
    exact ⟨r.name, _, _, ⟨by omega, rfl⟩, ⟨⟨not_le.mpr hname, hfresh⟩, r.dims, hle, hlt, rfl, rfl⟩, rfl⟩

theorem forms_tensor (tr : Traits) (infos : List Info) : Forms (readTensor tr infos)
    (fun t w => ∃ r : Record, r.Typed tr ∧ r.cname ∉ names infos ∧ t = r.tensor tr ∧ w = r.shapeBytes ++ leBytes 4 r.type)
    fun w => ∃ r : Record, r.Shaped ∧ r.cname ∉ names infos ∧ checkElements r.ne = some .aborted ∧ w = r.shapeBytes := by
  have htype : ∀ p : Bytes × (Fin 4 → Nat), Forms (do
      let type ← Read.int 4
      if type < 0 ∨ 40 ≤ type then Read.fail .thrown
      else
        if tr.blckSize type.toNat = 0 ∨ p.2 0 % tr.blckSize type.toNat ≠ 0 then Read.fail .thrown
        else return ⟨p.1, type.toNat, p.2, strides tr type.toNat p.2, fun _ => 0⟩ : Read Unit Tensor)
      (fun t w => ∃ type, type < 40 ∧ tr.blckSize type ≠ 0 ∧ p.2 0 % tr.blckSize type = 0 ∧
        t = ⟨p.1, type, p.2, strides tr type p.2, fun _ => 0⟩ ∧ w = leBytes 4 type) fun _ => False := by
    intro p
    have hblck : ∀ type : Nat, Forms (if tr.blckSize type = 0 ∨ p.2 0 % tr.blckSize type ≠ 0 then Read.fail .thrown
        else return ⟨p.1, type, p.2, strides tr type p.2, fun _ => 0⟩ : Read Unit Tensor) _ _ := fun type =>
      (Forms.pure (⟨p.1, type, p.2, strides tr type p.2, fun _ => 0⟩ : Tensor)).guard
    refine (forms_signed 4 (p := fun i => i < 0 ∨ 40 ≤ i) (fun i hi => .inl hi) hblck).congr (fun t w => ?_)
      fun w => by simp
    constructor
    · rintro ⟨type, _, -, hbad, ⟨hb, rfl, rfl⟩, rfl⟩
      rw [not_or, not_not] at hb
      exact ⟨type, by omega, hb.1, hb.2, rfl, List.append_nil _⟩
    · rintro ⟨type, hlt, hb, hrow, rfl, rfl⟩
      refine ⟨type, [], by norm_num; omega, by omega, ⟨?_, rfl, rfl⟩, (List.append_nil _).symm⟩
      rw [not_or, not_not]
      exact ⟨hb, hrow⟩
  have hcheck : ∀ p : Bytes × (Fin 4 → Nat), Forms (match checkElements p.2 with
      | some e => Read.fail e
      | none => do
        let type ← Read.int 4
        if type < 0 ∨ 40 ≤ type then Read.fail .thrown
        else
          if tr.blckSize type.toNat = 0 ∨ p.2 0 % tr.blckSize type.toNat ≠ 0 then Read.fail .thrown
          else return ⟨p.1, type.toNat, p.2, strides tr type.toNat p.2, fun _ => 0⟩ : Read Unit Tensor)
      (fun t w => checkElements p.2 = none ∧ ∃ type, type < 40 ∧ tr.blckSize type ≠ 0 ∧ p.2 0 % tr.blckSize type = 0 ∧
        t = ⟨p.1, type, p.2, strides tr type p.2, fun _ => 0⟩ ∧ w = leBytes 4 type)
      fun w => checkElements p.2 = some .aborted ∧ w = [] := by
    intro p
    cases checkElements p.2 with
    | none => exact (htype p).congr (fun t w => by simp) fun w => by simp
    | some e =>
        cases e with
        | thrown => exact Forms.thrown.congr (fun t w => by simp) fun w => by simp
        | aborted => exact Forms.aborted.congr (fun t w => by simp) fun w => by simp
  refine ((forms_dims infos).bind hcheck).congr (fun t w => ?_) fun w => ?_
  · constructor
    · rintro ⟨_, _, _, ⟨r, hr, hfresh, rfl, rfl⟩, ⟨hne, type, hlt, hb, hrow, rfl, rfl⟩, rfl⟩
      exact ⟨⟨r.name, r.dims, type, 0⟩, ⟨⟨hr.name_lt, hr.dims_le, hr.dims_lt⟩, hne, hlt, hb, hrow⟩, hfresh, rfl, rfl⟩
    · rintro ⟨r, ⟨hr, hne, hlt, hb, hrow⟩, hfresh, rfl, rfl⟩
      exact ⟨_, _, _, ⟨r, hr, hfresh, rfl, rfl⟩, ⟨hne, r.type, hlt, hb, hrow, rfl, rfl⟩, rfl⟩
  · constructor
    · rintro (hf | ⟨_, _, _, ⟨r, hr, hfresh, rfl, rfl⟩, ⟨hc, rfl⟩, rfl⟩)
      · exact hf.elim
      · exact ⟨r, hr, hfresh, hc, List.append_nil _⟩
    · rintro ⟨r, hr, hfresh, hc, rfl⟩
      exact .inr ⟨_, _, _, ⟨r, hr, hfresh, rfl, rfl⟩, ⟨hc, rfl⟩, (List.append_nil _).symm⟩

theorem forms_info (tr : Traits) (infos : List Info) : Forms (readInfo tr infos)
    (fun i w => ∃ r : Record, r.Typed tr ∧ r.cname ∉ names infos ∧ r.offset < 2 ^ 64 ∧ i = r.info tr ∧ w = r.bytes)
    fun w => ∃ r : Record, r.Shaped ∧ r.cname ∉ names infos ∧ checkElements r.ne = some .aborted ∧ w = r.shapeBytes := by
  rw [readInfo_eq]
  refine ((forms_tensor tr infos).bind fun t => (Forms.nat 8).map (f := fun offset => (⟨t, offset⟩ : Info))).congr
    (fun i w => ?_) fun w => by simp
  constructor
  · rintro ⟨_, _, _, ⟨r, hr, hfresh, rfl, rfl⟩, ⟨offset, ⟨hlt, rfl⟩, rfl⟩, rfl⟩
    norm_num at hlt
    exact ⟨⟨r.name, r.dims, r.type, offset⟩,
      ⟨⟨hr.shaped.name_lt, hr.shaped.dims_le, hr.shaped.dims_lt⟩, hr.elements, hr.type_lt, hr.blck, hr.rows⟩, hfresh, hlt,
      rfl, rfl⟩
  · rintro ⟨r, hr, hfresh, hlt, rfl, rfl⟩
    exact ⟨_, _, _, ⟨r, hr, hfresh, rfl, rfl⟩, ⟨r.offset, ⟨by norm_num; exact hlt, rfl⟩, rfl⟩, rfl⟩

/-- Tensors that follow each other, each name once. -/
structure RecordsOk (tr : Traits) (infos : List Info) (rs : List Record) : Prop where
  typed : ∀ r ∈ rs, r.Typed tr ∧ r.offset < 2 ^ 64
  nodup : (rs.map Record.cname).Nodup
  fresh : ∀ r ∈ rs, r.cname ∉ names infos

section Records
variable {tr : Traits} {infos : List Info} {rs : List Record} {r : Record}

theorem RecordsOk.nil : RecordsOk tr infos [] :=
  ⟨fun _ h => absurd h List.not_mem_nil, List.nodup_nil, fun _ h => absurd h List.not_mem_nil⟩

theorem names_append (is js : List Info) : names (is ++ js) = names is ++ names js := List.map_append

theorem names_info (tr : Traits) (rs : List Record) : names (rs.map (Record.info tr)) = rs.map Record.cname := by
  unfold names
  rw [List.map_map]
  rfl

theorem recordsOk_cons : RecordsOk tr infos (r :: rs) ↔
    r.Typed tr ∧ r.cname ∉ names infos ∧ r.offset < 2 ^ 64 ∧ RecordsOk tr (infos ++ [r.info tr]) rs := by
  have hname : names (infos ++ [r.info tr]) = names infos ++ [r.cname] := names_append infos [r.info tr]
  constructor
  · rintro ⟨hs, hn, hf⟩
    rw [List.map_cons, List.nodup_cons] at hn
    obtain ⟨hr, hrs⟩ := List.forall_mem_cons.mp hs
    obtain ⟨hfr, hfrs⟩ := List.forall_mem_cons.mp hf
    refine ⟨hr.1, hfr, hr.2, hrs, hn.2, fun q hq hmem => ?_⟩
    rw [hname, List.mem_append, List.mem_singleton] at hmem
    rcases hmem with hmem | hmem
    · exact hfrs q hq hmem
    · exact hn.1 (hmem ▸ List.mem_map_of_mem hq)
  · rintro ⟨hr, hfr, ho, hs, hn, hf⟩
    have hne : ∀ q ∈ rs, q.cname ≠ r.cname ∧ q.cname ∉ names infos := by
      intro q hq
      have hq' := hf q hq
      rw [hname, List.mem_append, List.mem_singleton, not_or] at hq'
      exact ⟨hq'.2, hq'.1⟩
    refine ⟨List.forall_mem_cons.mpr ⟨⟨hr, ho⟩, hs⟩, ?_, List.forall_mem_cons.mpr ⟨hfr, fun q hq => (hne q hq).2⟩⟩
    rw [List.map_cons, List.nodup_cons]
    refine ⟨fun hmem => ?_, hn⟩
    obtain ⟨q, hq, hqk⟩ := List.mem_map.mp hmem
    exact (hne q hq).1 hqk

end Records

theorem forms_infos (tr : Traits) : ∀ (n : Nat) (infos : List Info), Forms (readInfos tr n infos)
    (fun l w => ∃ rs : List Record, rs.length = n ∧ RecordsOk tr infos rs ∧ l = infos ++ rs.map (Record.info tr) ∧
      w = rs.flatMap Record.bytes)
    fun w => ∃ (rs : List Record) (r : Record), rs.length < n ∧ RecordsOk tr infos rs ∧ r.Shaped ∧
      r.cname ∉ names infos ++ rs.map Record.cname ∧ checkElements r.ne = some .aborted ∧
      w = rs.flatMap Record.bytes ++ r.shapeBytes
  | 0, infos => by
    refine (Forms.pure infos).congr (fun l w => ?_) fun w => ?_
    · constructor
      · rintro ⟨rfl, rfl⟩
        exact ⟨[], rfl, RecordsOk.nil, (List.append_nil _).symm, rfl⟩
      · rintro ⟨rs, hlen, -, rfl, rfl⟩
        obtain rfl := List.length_eq_zero_iff.mp hlen
        exact ⟨List.append_nil _, rfl⟩
    · constructor
      · exact False.elim
      · rintro ⟨rs, r, hlen, -⟩
        exact absurd hlen (Nat.not_lt_zero _)
  | n + 1, infos => by
    have hname : ∀ r : Record, names (infos ++ [r.info tr]) = names infos ++ [r.cname] := fun r =>
      names_append infos [r.info tr]
    refine ((forms_info tr infos).bind fun i => forms_infos tr n (infos ++ [i])).congr (fun l w => ?_) fun w => ?_
    · constructor
      · rintro ⟨_, _, _, ⟨r, hr, hfresh, ho, rfl, rfl⟩, ⟨rs, rfl, hok, rfl, rfl⟩, rfl⟩
        refine ⟨r :: rs, rfl, recordsOk_cons.mpr ⟨hr, hfresh, ho, hok⟩, ?_, rfl⟩
        rw [List.append_assoc]
        rfl
      · rintro ⟨rs, hlen, hok, rfl, rfl⟩
        match rs with
        | [] => cases hlen
        | r :: rs =>
          obtain ⟨hr, hfresh, ho, hok⟩ := recordsOk_cons.mp hok
          refine ⟨r.info tr, _, _, ⟨r, hr, hfresh, ho, rfl, rfl⟩, ⟨rs, Nat.succ.inj hlen, hok, ?_, rfl⟩, rfl⟩
          rw [List.append_assoc]
          rfl
    · constructor
      · rintro (⟨r, hr, hfresh, hc, rfl⟩ | ⟨_, _, _, ⟨q, hq, hfresh, ho, rfl, rfl⟩, ⟨rs, r, hlen, hok, hr, hnew, hc, rfl⟩,
          rfl⟩)
        · refine ⟨[], r, Nat.succ_pos n, RecordsOk.nil, hr, ?_, hc, rfl⟩
          rw [List.map_nil, List.append_nil]
          exact hfresh
        · refine ⟨q :: rs, r, Nat.succ_lt_succ hlen, recordsOk_cons.mpr ⟨hq, hfresh, ho, hok⟩, hr, ?_, hc, ?_⟩
          · rw [hname, List.append_assoc] at hnew
            exact hnew
          · rw [List.flatMap_cons, List.append_assoc]
      · rintro ⟨rs, r, hlen, hok, hr, hnew, hc, rfl⟩
        match rs with
        | [] =>
          rw [List.map_nil, List.append_nil] at hnew
          exact .inl ⟨r, hr, hnew, hc, rfl⟩
        | q :: rs =>
          obtain ⟨hq, hfresh, ho, hok⟩ := recordsOk_cons.mp hok
          refine .inr ⟨q.info tr, _, _, ⟨q, hq, hfresh, ho, rfl, rfl⟩,
            ⟨rs, r, Nat.lt_of_succ_lt_succ hlen, hok, hr, ?_, hc, rfl⟩, ?_⟩
          · rw [hname, List.append_assoc]
            exact hnew
          · rw [List.flatMap_cons, List.append_assoc]

/-! ## The front of a file -/

/-- The header, the pairs and the alignment. -/
def readPairs : Read Unit (Header × List Kv × Nat) := do
  let h ← readHeader
  let kv ← readKvs h.nKv []
  let alignment ← readAlignment kv
  return (h, kv, alignment)

/-- As far as the first `k` tensors. -/
def readFront (tr : Traits) (k : Nat) : Read Unit ((Header × List Kv × Nat) × List Info) := do
  let q ← readPairs
  let infos ← readInfos tr k []
  return (q, infos)

theorem readMeta_eq_front (tr : Traits) : readMeta tr = do
    let q ← readPairs
    let info ← readInfos tr q.1.nTensors []
    return { version := q.1.version, kv := q.2.1, info := info, alignment := q.2.2 } := by
  rw [readMeta_eq]
  unfold readPairs
  simp only [bind_assoc, pure_bind]

/-- Pairs that the file begins with. -/
structure PairsIn (file : Bytes) (h : Header) (ps : List Kv) (rest : Bytes) : Prop where
  header : h.Valid
  count : ps.length ≤ h.nKv
  pairs : PairsOk [] ps
  file : file = h.bytes ++ (ps.flatMap Kv.stored ++ rest)

/-- All pairs of the file, with an alignment. -/
structure FrontIn (file : Bytes) (h : Header) (ps : List Kv) (rest : Bytes) : Prop extends PairsIn file h ps rest where
  all : ps.length = h.nKv
  pow2 : Ctx.isPow2 (alignmentIn ps) = true

/-- The reader takes the pairs. -/
def Taken (ps : List Kv) : Prop := (∀ p ∈ ps, p.key ≠ []) ∧ TypedAlignment ps

theorem forms_pairs : Forms readPairs
    (fun q w => ∃ (h : Header) (ps : List Kv), h.Valid ∧ ps.length = h.nKv ∧ PairsOk [] ps ∧ Taken ps ∧
      Ctx.isPow2 (alignmentIn ps) = true ∧ q = (h, ps.map Kv.norm, alignmentIn ps) ∧ w = h.bytes ++ ps.flatMap Kv.stored)
    fun w => (∃ (h : Header) (ps : List Kv) (p : Kv), h.Valid ∧ ps.length < h.nKv ∧ PairsOk [] (ps ++ [p]) ∧
        (∀ q ∈ ps, q.key ≠ []) ∧ p.key = [] ∧ w = h.bytes ++ (ps ++ [p]).flatMap Kv.stored) ∨
      ∃ (h : Header) (ps : List Kv), h.Valid ∧ ps.length = h.nKv ∧ PairsOk [] ps ∧ (∀ q ∈ ps, q.key ≠ []) ∧
        ¬ TypedAlignment ps ∧ w = h.bytes ++ ps.flatMap Kv.stored := by
  have halign : ∀ (h : Header) (n : Nat), Forms (do
      let kv ← readKvs n []
      let alignment ← readAlignment kv
      return (h, kv, alignment) : Read Unit (Header × List Kv × Nat))
      (fun q w => ∃ ps, ps.length = n ∧ PairsOk [] ps ∧ Taken ps ∧ Ctx.isPow2 (alignmentIn ps) = true ∧
        q = (h, ps.map Kv.norm, alignmentIn ps) ∧ w = ps.flatMap Kv.stored)
      fun w => (∃ ps p, ps.length < n ∧ PairsOk [] (ps ++ [p]) ∧ (∀ q ∈ ps, q.key ≠ []) ∧ p.key = [] ∧
          w = (ps ++ [p]).flatMap Kv.stored) ∨
        ∃ ps, ps.length = n ∧ PairsOk [] ps ∧ (∀ q ∈ ps, q.key ≠ []) ∧ ¬ TypedAlignment ps ∧ w = ps.flatMap Kv.stored := by
    intro h n
    refine ((forms_kvs n []).bind fun kv => (forms_alignment kv).map (f := fun alignment => (h, kv, alignment))).congr
      (fun q w => ?_) fun w => ?_
    · constructor
      · rintro ⟨_, _, _, ⟨ps, hlen, hok, hne, rfl, rfl⟩, ⟨a, ⟨ht, hpow, rfl, rfl⟩, rfl⟩, rfl⟩
        have ht' := (typedAlignment_norm hok.stored).mp ht
        have halign := alignmentIn_norm ht'
        rw [List.nil_append, halign] at hpow
        exact ⟨ps, hlen, hok, ⟨hne, ht'⟩, hpow, by rw [List.nil_append, halign], List.append_nil _⟩
      · rintro ⟨ps, hlen, hok, ⟨hne, ht⟩, hpow, rfl, rfl⟩
        have halign := alignmentIn_norm ht
        refine ⟨ps.map Kv.norm, _, _, ⟨ps, hlen, hok, hne, rfl, rfl⟩,
          ⟨_, ⟨(typedAlignment_norm hok.stored).mpr ht, ?_, rfl, rfl⟩, ?_⟩, (List.append_nil _).symm⟩
        · rw [halign]
          exact hpow
        · rw [halign]
    · constructor
      · rintro (⟨ps, p, hlen, hok, hne, hnil, rfl⟩ | ⟨_, _, _, ⟨ps, hlen, hok, hne, rfl, rfl⟩, ⟨ht, rfl⟩, rfl⟩)
        · exact .inl ⟨ps, p, hlen, hok, hne, hnil, rfl⟩
        · exact .inr ⟨ps, hlen, hok, hne, fun hc => ht ((typedAlignment_norm hok.stored).mpr hc), List.append_nil _⟩
      · rintro (⟨ps, p, hlen, hok, hne, hnil, rfl⟩ | ⟨ps, hlen, hok, hne, ht, rfl⟩)
        · exact .inl ⟨ps, p, hlen, hok, hne, hnil, rfl⟩
        · exact .inr ⟨_, _, _, ⟨ps, hlen, hok, hne, rfl, rfl⟩,
            ⟨fun hc => ht ((typedAlignment_norm hok.stored).mp hc), rfl⟩, (List.append_nil _).symm⟩
  refine (forms_header.bind fun h => halign h h.nKv).congr (fun q w => ?_) fun w => ?_
  · constructor
    · rintro ⟨h, _, _, ⟨hv, rfl⟩, ⟨ps, hlen, hok, ht, hpow, rfl, rfl⟩, rfl⟩
      exact ⟨h, ps, hv, hlen, hok, ht, hpow, rfl, rfl⟩
    · rintro ⟨h, ps, hv, hlen, hok, ht, hpow, rfl, rfl⟩
      exact ⟨h, _, _, ⟨hv, rfl⟩, ⟨ps, hlen, hok, ht, hpow, rfl, rfl⟩, rfl⟩
  · constructor
    · rintro (hf | ⟨h, _, _, ⟨hv, rfl⟩, ⟨ps, p, hlen, hok, hne, hnil, rfl⟩ | ⟨ps, hlen, hok, hne, ht, rfl⟩, rfl⟩)
      · exact hf.elim
      · exact .inl ⟨h, ps, p, hv, hlen, hok, hne, hnil, rfl⟩
      · exact .inr ⟨h, ps, hv, hlen, hok, hne, ht, rfl⟩
    · rintro (⟨h, ps, p, hv, hlen, hok, hne, hnil, rfl⟩ | ⟨h, ps, hv, hlen, hok, hne, ht, rfl⟩)
      · exact .inr ⟨h, _, _, ⟨hv, rfl⟩, .inl ⟨ps, p, hlen, hok, hne, hnil, rfl⟩, rfl⟩
      · exact .inr ⟨h, _, _, ⟨hv, rfl⟩, .inr ⟨ps, hlen, hok, hne, ht, rfl⟩, rfl⟩

/-- What the reader makes of the pairs. -/
def Header.read (h : Header) (ps : List Kv) : Header × List Kv × Nat := (h, ps.map Kv.norm, alignmentIn ps)

/-- All pairs, and tensors behind them. -/
theorem forms_behind (tr : Traits) {β : Type} (n : Header × List Kv × Nat → Nat)
    (g : Header × List Kv × Nat → List Info → β) : Forms (do
      let q ← readPairs
      let infos ← readInfos tr (n q) []
      return g q infos : Read Unit β)
    (fun b w => ∃ (h : Header) (ps : List Kv) (rs : List Record), h.Valid ∧ ps.length = h.nKv ∧ PairsOk [] ps ∧ Taken ps ∧
      Ctx.isPow2 (alignmentIn ps) = true ∧ rs.length = n (h.read ps) ∧ RecordsOk tr [] rs ∧
      b = g (h.read ps) (rs.map (Record.info tr)) ∧ w = h.bytes ++ (ps.flatMap Kv.stored ++ rs.flatMap Record.bytes))
    fun w => (∃ (h : Header) (ps : List Kv) (p : Kv), h.Valid ∧ ps.length < h.nKv ∧ PairsOk [] (ps ++ [p]) ∧
        (∀ q ∈ ps, q.key ≠ []) ∧ p.key = [] ∧ w = h.bytes ++ (ps ++ [p]).flatMap Kv.stored) ∨
      (∃ (h : Header) (ps : List Kv), h.Valid ∧ ps.length = h.nKv ∧ PairsOk [] ps ∧ (∀ q ∈ ps, q.key ≠ []) ∧
        ¬ TypedAlignment ps ∧ w = h.bytes ++ ps.flatMap Kv.stored) ∨
      ∃ (h : Header) (ps : List Kv) (rs : List Record) (r : Record), h.Valid ∧ ps.length = h.nKv ∧ PairsOk [] ps ∧ Taken ps ∧
        Ctx.isPow2 (alignmentIn ps) = true ∧ rs.length < n (h.read ps) ∧ RecordsOk tr [] rs ∧ r.Shaped ∧
        r.cname ∉ rs.map Record.cname ∧ checkElements r.ne = some .aborted ∧
        w = h.bytes ++ (ps.flatMap Kv.stored ++ (rs.flatMap Record.bytes ++ r.shapeBytes)) := by
  refine (forms_pairs.bind fun q => (forms_infos tr (n q) []).map (f := g q)).congr (fun b w => ?_) fun w => ?_
  · constructor
    · rintro ⟨_, _, _, ⟨h, ps, hv, hlen, hok, ht, hpow, rfl, rfl⟩, ⟨_, ⟨rs, hn, hrs, rfl, rfl⟩, rfl⟩, rfl⟩
      exact ⟨h, ps, rs, hv, hlen, hok, ht, hpow, hn, hrs, rfl, List.append_assoc _ _ _⟩
    · rintro ⟨h, ps, rs, hv, hlen, hok, ht, hpow, hn, hrs, rfl, rfl⟩
      exact ⟨_, _, _, ⟨h, ps, hv, hlen, hok, ht, hpow, rfl, rfl⟩, ⟨_, ⟨rs, hn, hrs, rfl, rfl⟩, rfl⟩,
        (List.append_assoc _ _ _).symm⟩
  · constructor
    · rintro ((hA | hA) | ⟨_, _, _, ⟨h, ps, hv, hlen, hok, ht, hpow, rfl, rfl⟩, ⟨rs, r, hn, hrs, hr, hfresh, hc, rfl⟩, rfl⟩)
      · exact .inl hA
      · exact .inr (.inl hA)
      · exact .inr (.inr ⟨h, ps, rs, r, hv, hlen, hok, ht, hpow, hn, hrs, hr, hfresh, hc, List.append_assoc _ _ _⟩)
    · rintro (hA | hA | ⟨h, ps, rs, r, hv, hlen, hok, ht, hpow, hn, hrs, hr, hfresh, hc, rfl⟩)
      · exact .inl (.inl hA)
      · exact .inl (.inr hA)
      · exact .inr ⟨_, _, _, ⟨h, ps, hv, hlen, hok, ht, hpow, rfl, rfl⟩, ⟨rs, r, hn, hrs, hr, hfresh, hc, rfl⟩,
          (List.append_assoc _ _ _).symm⟩

section Front
variable {tr : Traits} {file : Bytes}

theorem readFront_iff {k : Nat} {q : Header × List Kv × Nat} {infos : List Info} {s : Input Unit} :
    readFront tr k ⟨file, ()⟩ = .ok (q, infos) s ↔ ∃ h ps rs, FrontIn file h ps (rs.flatMap Record.bytes ++ s.bytes) ∧
      Taken ps ∧ rs.length = k ∧ RecordsOk tr [] rs ∧ q = h.read ps ∧ infos = rs.map (Record.info tr) := by
  unfold readFront
  rw [(forms_behind tr (fun _ => k) Prod.mk).accepts]
  constructor
  · rintro ⟨_, ⟨h, ps, rs, hv, hlen, hok, ht, hpow, hn, hrs, heq, rfl⟩, rfl⟩
    obtain ⟨rfl, rfl⟩ := Prod.mk.inj heq
    refine ⟨h, ps, rs, ⟨⟨hv, hlen.le, hok, ?_⟩, hlen, hpow⟩, ht, hn, hrs, rfl, rfl⟩
    simp only [List.append_assoc]
  · rintro ⟨h, ps, rs, ⟨⟨hv, -, hok, rfl⟩, hlen, hpow⟩, ht, hn, hrs, rfl, rfl⟩
    refine ⟨_, ⟨h, ps, rs, hv, hlen, hok, ht, hpow, hn, hrs, rfl, rfl⟩, ?_⟩
    simp only [List.append_assoc]

theorem readMeta_iff {c : Ctx} {s : Input Unit} : readMeta tr ⟨file, ()⟩ = .ok c s ↔
    ∃ h ps rs, FrontIn file h ps (rs.flatMap Record.bytes ++ s.bytes) ∧ Taken ps ∧ rs.length = h.nTensors ∧
      RecordsOk tr [] rs ∧
      c = { version := h.version, kv := ps.map Kv.norm, info := rs.map (Record.info tr), alignment := alignmentIn ps } := by
  rw [readMeta_eq_front, (forms_behind tr (fun q => q.1.nTensors) fun q infos =>
    ({ version := q.1.version, kv := q.2.1, info := infos, alignment := q.2.2 } : Ctx)).accepts]
  constructor
  · rintro ⟨_, ⟨h, ps, rs, hv, hlen, hok, ht, hpow, hn, hrs, rfl, rfl⟩, rfl⟩
    refine ⟨h, ps, rs, ⟨⟨hv, hlen.le, hok, ?_⟩, hlen, hpow⟩, ht, hn, hrs, rfl⟩
    simp only [List.append_assoc]
  · rintro ⟨h, ps, rs, ⟨⟨hv, -, hok, rfl⟩, hlen, hpow⟩, ht, hn, hrs, rfl⟩
    refine ⟨_, ⟨h, ps, rs, hv, hlen, hok, ht, hpow, hn, hrs, rfl, rfl⟩, ?_⟩
    simp only [List.append_assoc]

/-- **Where the reader stops the process**: at the empty key, at an alignment of another type, at a division by zero. -/
theorem readMeta_aborts_iff : (∃ s, readMeta tr ⟨file, ()⟩ = .error .aborted s) ↔
    (∃ (h : Header) (ps : List Kv) (p : Kv) (rest : Bytes), PairsIn file h (ps ++ [p]) rest ∧ (∀ q ∈ ps, q.key ≠ []) ∧
      p.key = []) ∨
    (∃ (h : Header) (ps : List Kv) (rest : Bytes), PairsIn file h ps rest ∧ ps.length = h.nKv ∧ (∀ q ∈ ps, q.key ≠ []) ∧
      ¬ TypedAlignment ps) ∨
    ∃ (h : Header) (ps : List Kv) (rs : List Record) (r : Record) (rest : Bytes),
      FrontIn file h ps (rs.flatMap Record.bytes ++ (r.shapeBytes ++ rest)) ∧ Taken ps ∧
      rs.length < h.nTensors ∧ RecordsOk tr [] rs ∧ r.Shaped ∧ r.cname ∉ rs.map Record.cname ∧
      checkElements r.ne = some .aborted := by
  rw [readMeta_eq_front, (forms_behind tr (fun q => q.1.nTensors) fun q infos =>
    ({ version := q.1.version, kv := q.2.1, info := infos, alignment := q.2.2 } : Ctx)).aborts]
  constructor
  · rintro ⟨_, rest, ⟨h, ps, p, hv, hlen, hok, hne, hnil, rfl⟩ | ⟨h, ps, hv, hlen, hok, hne, ht, rfl⟩ |
      ⟨h, ps, rs, r, hv, hlen, hok, ht, hpow, hn, hrs, hr, hfresh, hc, rfl⟩, rfl⟩
    · refine .inl ⟨h, ps, p, rest, ⟨hv, ?_, hok, List.append_assoc _ _ _⟩, hne, hnil⟩
      rw [List.length_append]
      exact hlen
    · exact .inr (.inl ⟨h, ps, rest, ⟨hv, hlen.le, hok, List.append_assoc _ _ _⟩, hlen, hne, ht⟩)
    · refine .inr (.inr ⟨h, ps, rs, r, rest, ⟨⟨hv, hlen.le, hok, ?_⟩, hlen, hpow⟩, ht, hn, hrs, hr, hfresh, hc⟩)
      simp only [List.append_assoc]
  · rintro (⟨h, ps, p, rest, ⟨hv, hlen, hok, rfl⟩, hne, hnil⟩ | ⟨h, ps, rest, ⟨hv, -, hok, rfl⟩, hlen, hne, ht⟩ |
      ⟨h, ps, rs, r, rest, ⟨⟨hv, -, hok, rfl⟩, hlen, hpow⟩, ht, hn, hrs, hr, hfresh, hc⟩)
    · rw [List.length_append] at hlen
      exact ⟨_, rest, .inl ⟨h, ps, p, hv, hlen, hok, hne, hnil, rfl⟩, (List.append_assoc _ _ _).symm⟩
    · exact ⟨_, rest, .inr (.inl ⟨h, ps, hv, hlen, hok, hne, ht, rfl⟩), (List.append_assoc _ _ _).symm⟩
    · refine ⟨_, rest, .inr (.inr ⟨h, ps, rs, r, hv, hlen, hok, ht, hpow, hn, hrs, hr, hfresh, hc, rfl⟩), ?_⟩
      simp only [List.append_assoc]

end Front

end S2Moe.Gguf
