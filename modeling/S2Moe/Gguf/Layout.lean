import S2Moe.Gguf.Meta
import S2Moe.Lib.Format

/-!
# What lies in a file

* `Header`, `Kv.stored` : the bytes of a header and of a key-value pair, as they may stand in a file;
* `readHeader` : the first stage of the reader; `readMeta_eq`;
* `forms_header`, `forms_kvs`, `forms_alignment` : which bytes each stage takes, and where it stops the process.
-/

namespace S2Moe.Gguf
open S2Moe.Lib

/-! ## Strings and values -/

theorem forms_string : Forms readString (fun s w => s.length < 2 ^ 64 ∧ w = writeString s) fun _ => False := by
  refine ((Forms.nat 8).bind fun n => Forms.bytes n).congr (fun s w => ?_) fun _ => by simp
  constructor
  · rintro ⟨n, u, v, ⟨hn, rfl⟩, ⟨rfl, rfl⟩, rfl⟩
    exact ⟨by norm_num at hn; omega, rfl⟩
  · rintro ⟨hs, rfl⟩
    exact ⟨s.length, leBytes 8 s.length, s, ⟨by norm_num; omega, rfl⟩, ⟨rfl, rfl⟩, rfl⟩

theorem forms_strings : ∀ n : Nat, Forms (readStrings n)
    (fun l w => l.length = n ∧ (∀ s ∈ l, s.length < 2 ^ 64) ∧ w = l.flatMap writeString) fun _ => False
  | 0 => by
    refine (Forms.pure []).congr (fun l w => ?_) fun _ => Iff.rfl
    constructor
    · rintro ⟨rfl, rfl⟩
      exact ⟨rfl, fun s hs => absurd hs List.not_mem_nil, rfl⟩
    · rintro ⟨hlen, -, rfl⟩
      obtain rfl := List.length_eq_zero_iff.mp hlen
      exact ⟨rfl, rfl⟩
  | n + 1 => by
    refine (forms_string.bind fun s => (forms_strings n).map (f := fun l => s :: l)).congr (fun l w => ?_) fun _ => by simp
    constructor
    · rintro ⟨s, u, v, ⟨hs, rfl⟩, ⟨l, ⟨rfl, hl, rfl⟩, rfl⟩, rfl⟩
      exact ⟨rfl, List.forall_mem_cons.mpr ⟨hs, hl⟩, rfl⟩
    · rintro ⟨hlen, hall, rfl⟩
      match l with
      | [] => cases hlen
      | s :: l =>
        obtain ⟨hs, hl⟩ := List.forall_mem_cons.mp hall
        exact ⟨s, _, _, ⟨hs, rfl⟩, ⟨l, ⟨Nat.succ.inj hlen, hl, rfl⟩, rfl⟩, rfl⟩

/-- The values of a pair, where the reader has found them. -/
def ValuesForm (type : GgufType) (n : Nat) (p : Bytes × List Bytes) (w : Bytes) : Prop :=
  (type = .string ∧ p.1 = [] ∧ p.2.length = n ∧ (∀ s ∈ p.2, s.length < 2 ^ 64) ∧ w = p.2.flatMap writeString) ∨
    (type ≠ .string ∧ p.2 = [] ∧ w.length = n * type.size ∧ p.1 = if type = .bool then w.map writeBool else w)

theorem forms_values (type : GgufType) (n : Nat) : Forms (readValues type n) (ValuesForm type n) fun _ => False := by
  have hplain : type ≠ .string → type ≠ .bool →
      Forms (do return (← Read.bytes (n * type.size), []) : Read Unit (Bytes × List Bytes)) (ValuesForm type n)
        fun _ => False := by
    intro hs hb
    refine ((Forms.bytes (n * type.size)).map (f := fun w => (w, ([] : List Bytes)))).congr (fun p w => ?_) fun _ => Iff.rfl
    constructor
    · rintro ⟨a, ⟨rfl, hlen⟩, rfl⟩
      exact .inr ⟨hs, rfl, hlen, (if_neg hb).symm⟩
    · rintro (⟨hc, -⟩ | ⟨-, h2, hlen, h1⟩)
      · exact absurd hc hs
      · rw [if_neg hb] at h1
        exact ⟨w, ⟨rfl, hlen⟩, Prod.ext h1 h2⟩
  unfold readValues
  cases type with
  | string =>
      refine ((forms_strings n).map (f := fun l => (([] : Bytes), l))).congr (fun p w => ?_) fun _ => Iff.rfl
      constructor
      · rintro ⟨l, ⟨hlen, hl, hw⟩, rfl⟩
        exact .inl ⟨rfl, rfl, hlen, hl, hw⟩
      · rintro (⟨-, h1, hlen, hl, hw⟩ | ⟨hc, -⟩)
        · exact ⟨p.2, ⟨hlen, hl, hw⟩, Prod.ext h1 rfl⟩
        · exact absurd rfl hc
  | bool =>
      refine ((Forms.bytes n).map (f := fun w => (w.map writeBool, ([] : List Bytes)))).congr (fun p w => ?_) fun _ => Iff.rfl
      constructor
      · rintro ⟨a, ⟨rfl, hlen⟩, rfl⟩
        exact .inr ⟨by decide, rfl, hlen.trans (Nat.mul_one n).symm, rfl⟩
      · rintro (⟨hc, -⟩ | ⟨-, h2, hlen, h1⟩)
        · cases hc
        · exact ⟨w, ⟨rfl, hlen.trans (Nat.mul_one n)⟩, Prod.ext h1 h2⟩
  | array | uint8 | int8 | uint16 | int16 | uint32 | int32 | float32 | uint64 | int64 | float64 =>
      exact hplain (by decide) (by decide)

/-! ## Key-value pairs -/

/-- The values of a pair, each bool as any byte. -/
def Kv.rawValues (kv : Kv) : Bytes := if kv.type = .string then kv.dataString.flatMap writeString else kv.data

/-- The bytes of a pair in a file. -/
def Kv.stored (kv : Kv) : Bytes := writeString kv.key ++ (kv.head ++ kv.rawValues)

/-- A pair as it may stand in a file. -/
structure Kv.Stored (kv : Kv) : Prop where
  values : (kv.type = .string ∧ kv.data = [] ∧ (kv.isArray = true ∨ kv.dataString.length = 1)) ∨
    (kv.type.size ≠ 0 ∧ kv.dataString = [] ∧ ∃ n, kv.data.length = n * kv.type.size ∧ (kv.isArray = true ∨ n = 1))
  short : kv.Short

theorem GgufType.ofCode_eq_some {i : Int} {t : GgufType} : GgufType.ofCode i = some t ↔ i = t.code := by
  constructor
  · intro h
    unfold GgufType.ofCode at h
    split at h <;> cases h <;> rfl
  · rintro rfl
    exact GgufType.ofCode_code t

theorem writeType_eq (t : GgufType) : writeType t = intBytes 4 t.code := by
  have := t.code_lt
  exact (intBytes_natCast (by norm_num; omega)).symm

theorem fitsInt_code (t : GgufType) : FitsInt 4 t.code := by
  have := t.code_lt
  constructor
  · omega
  · norm_num
    omega

/-- The front of a value: its type, and for an array the type and the number of its elements. -/
def HeadForm (h : Int × Bool × Nat) (w : Bytes) : Prop :=
  FitsInt 4 h.1 ∧ ((h.2.1 = true ∧ h.2.2 < 2 ^ 64 ∧ w = writeType .array ++ (intBytes 4 h.1 ++ leBytes 8 h.2.2)) ∨
    (h.2.1 = false ∧ h.2.2 = 1 ∧ h.1 ≠ GgufType.array.code ∧ w = intBytes 4 h.1))

theorem forms_head : Forms readHead HeadForm fun _ => False := by
  have hrest : ∀ i : Int, Forms (if i = GgufType.array.code then do
        let type ← Read.int 4
        let n ← Read.nat 8
        return (type, true, n)
      else return (i, false, 1) : Read Unit (Int × Bool × Nat))
      (fun h w => (i = GgufType.array.code ∧ h.2.1 = true ∧ FitsInt 4 h.1 ∧ h.2.2 < 2 ^ 64 ∧
        w = intBytes 4 h.1 ++ leBytes 8 h.2.2) ∨ (i ≠ GgufType.array.code ∧ h = (i, false, 1) ∧ w = [])) fun _ => False := by
    intro i
    by_cases hi : i = GgufType.array.code
    · rw [if_pos hi]
      refine ((Forms.int 4).bind fun type => (Forms.nat 8).map (f := fun n => (type, true, n))).congr (fun h w => ?_)
        fun _ => by simp
      constructor
      · rintro ⟨type, u, v, ⟨hfit, rfl⟩, ⟨n, ⟨hn, rfl⟩, rfl⟩, rfl⟩
        exact .inl ⟨hi, rfl, hfit, by norm_num at hn; exact hn, rfl⟩
      · rintro (⟨-, harr, hfit, hn, rfl⟩ | ⟨hc, -⟩)
        · refine ⟨h.1, _, _, ⟨hfit, rfl⟩, ⟨h.2.2, ⟨by norm_num; exact hn, rfl⟩, ?_⟩, rfl⟩
          rw [← harr]
        · exact absurd hi hc
    · rw [if_neg hi]
      refine (Forms.pure (i, false, 1)).congr (fun h w => ?_) fun _ => Iff.rfl
      constructor
      · rintro ⟨rfl, rfl⟩
        exact .inr ⟨hi, rfl, rfl⟩
      · rintro (⟨hc, -⟩ | ⟨-, rfl, rfl⟩)
        · exact absurd hc hi
        · exact ⟨rfl, rfl⟩
  refine ((Forms.int 4).bind hrest).congr (fun h w => ?_) fun _ => by simp
  constructor
  · rintro ⟨i, u, v, ⟨hfit, rfl⟩, ⟨rfl, harr, hfit', hn, rfl⟩ | ⟨hi, rfl, rfl⟩, rfl⟩
    · exact ⟨hfit', .inl ⟨harr, hn, by rw [writeType_eq]⟩⟩
    · exact ⟨hfit, .inr ⟨rfl, rfl, hi, List.append_nil _⟩⟩
  · rintro ⟨hfit, ⟨harr, hn, rfl⟩ | ⟨harr, hone, hi, rfl⟩⟩
    · exact ⟨_, _, _, ⟨fitsInt_code .array, rfl⟩, .inl ⟨rfl, harr, hfit, hn, rfl⟩, by rw [writeType_eq]⟩
    · refine ⟨h.1, _, _, ⟨hfit, rfl⟩, .inr ⟨hi, ?_, rfl⟩, (List.append_nil _).symm⟩
      rw [← harr, ← hone]

theorem GgufType.size_ne {t : GgufType} (hs : t ≠ .string) (ha : t ≠ .array) : t.size ≠ 0 := by
  cases t with
  | string => exact absurd rfl hs
  | array => exact absurd rfl ha
  | uint8 | int8 | uint16 | int16 | uint32 | int32 | float32 | bool | uint64 | int64 | float64 => decide

/-- Behind the key. -/
theorem exists_stored {key w : Bytes} (hkey : key.length < 2 ^ 64) {r : Kv} :
    (∃ h u v t p, HeadForm h u ∧ h.1 = GgufType.code t ∧ t ≠ .array ∧ ValuesForm t h.2.2 p v ∧
        r = ⟨key, h.2.1, t, p.1, p.2⟩ ∧ w = u ++ v) ↔
      ∃ kv : Kv, kv.Stored ∧ kv.key = key ∧ r = kv.norm ∧ w = kv.head ++ kv.rawValues := by
  constructor
  · rintro ⟨⟨i, arr, n⟩, u, v, t, ⟨data, strs⟩, ⟨-, hhead⟩, hi, ht, hval, rfl, rfl⟩
    dsimp only at hi hhead hval
    subst hi
    let kv : Kv := ⟨key, arr, t, if t = .string then [] else v, strs⟩
    have hn : n < 2 ^ 64 := by
      obtain ⟨-, hn, -⟩ | ⟨-, rfl, -⟩ := hhead
      · exact hn
      · norm_num
    have hone : arr = true ∨ n = 1 := by
      obtain ⟨harr, -⟩ | ⟨-, hn, -⟩ := hhead
      · exact .inl harr
      · exact .inr hn
    have hvalues : kv.count = n ∧ kv.rawValues = v ∧ kv.norm = ⟨key, arr, t, data, strs⟩ ∧
        (∀ s ∈ strs, s.length < 2 ^ 64) ∧ ((t = .string ∧ kv.data = [] ∧ (arr = true ∨ strs.length = 1)) ∨
          (t.size ≠ 0 ∧ strs = [] ∧ ∃ m, kv.data.length = m * t.size ∧ (arr = true ∨ m = 1))) := by
      unfold ValuesForm at hval
      dsimp only at hval
      obtain ⟨hs, rfl, rfl, hshort, rfl⟩ | ⟨hs, rfl, hlen, rfl⟩ := hval
      · refine ⟨if_pos hs, if_pos hs, ?_, hshort, .inl ⟨hs, if_pos hs, hone⟩⟩
        unfold Kv.norm
        rw [if_neg (by rw [show kv.type = t from rfl, hs]; decide)]
        show (⟨key, arr, t, if t = .string then [] else _, strs⟩ : Kv) = _
        rw [if_pos hs]
      · have hsize := GgufType.size_ne hs ht
        have hdata : kv.data = v := if_neg hs
        refine ⟨?_, ?_, ?_, fun s h => absurd h List.not_mem_nil, .inr ⟨hsize, rfl, n, by rw [hdata]; exact hlen, hone⟩⟩
        · unfold Kv.count
          rw [if_neg hs, hdata, hlen]
          exact Nat.mul_div_cancel n (Nat.pos_of_ne_zero hsize)
        · unfold Kv.rawValues
          rw [if_neg hs, hdata]
        · unfold Kv.norm
          rw [hdata]
          by_cases hb : t = .bool
          · rw [if_pos hb, if_pos hb]
          · rw [if_neg hb, if_neg hb]
            show (⟨key, arr, t, if t = .string then [] else v, []⟩ : Kv) = _
            rw [if_neg hs]
    obtain ⟨hcount, hraw, hnorm, hshort, hor⟩ := hvalues
    refine ⟨kv, ⟨hor, hkey, by rw [hcount]; exact hn, hshort⟩, rfl, hnorm.symm, ?_⟩
    rw [hraw]
    congr 1
    unfold Kv.head
    obtain ⟨harr, -, rfl⟩ | ⟨harr, -, -, rfl⟩ := hhead
    · rw [show kv.isArray = arr from rfl, harr, if_pos rfl, hcount, writeType_eq t, List.append_assoc]
    · rw [show kv.isArray = arr from rfl, harr, if_neg Bool.false_ne_true, writeType_eq]
  · rintro ⟨kv, ⟨hvalues, hshort⟩, rfl, rfl, rfl⟩
    have ht : kv.type ≠ .array := by
      intro hc
      obtain ⟨hs, -⟩ | ⟨hsize, -⟩ := hvalues
      · rw [hc] at hs
        cases hs
      · rw [hc] at hsize
        exact hsize rfl
    have hval : ValuesForm kv.type kv.count (kv.norm.data, kv.norm.dataString) kv.rawValues ∧
        (kv.isArray = true ∨ kv.count = 1) := by
      unfold ValuesForm Kv.rawValues Kv.norm Kv.count
      obtain ⟨hs, hnil, hone⟩ | ⟨hsize, hnil, n, hlen, hone⟩ := hvalues
      · have hb : kv.type ≠ .bool := by
          rw [hs]
          decide
        rw [if_pos hs, if_pos hs, if_neg hb]
        exact ⟨.inl ⟨hs, hnil, rfl, hshort.strings, rfl⟩, hone⟩
      · have hs : kv.type ≠ .string := by
          intro hc
          rw [hc] at hsize
          exact hsize rfl
        rw [if_neg hs, if_neg hs, hlen, Nat.mul_div_cancel n (Nat.pos_of_ne_zero hsize)]
        refine ⟨.inr ⟨hs, ?_, rfl, ?_⟩, hone⟩
        · split
          · exact hnil
          · exact hnil
        · split
          · rfl
          · rfl
    refine ⟨(kv.type.code, kv.isArray, kv.count), kv.head, kv.rawValues, kv.type, (kv.norm.data, kv.norm.dataString),
      ⟨fitsInt_code _, ?_⟩, rfl, ht, hval.1, ?_, rfl⟩
    · unfold Kv.head
      cases harr : kv.isArray with
      | true =>
          refine .inl ⟨rfl, hshort.count, ?_⟩
          rw [if_pos rfl, writeType_eq kv.type, List.append_assoc]
      | false =>
          refine .inr ⟨rfl, hval.2.resolve_left (by rw [harr]; exact Bool.false_ne_true), ?_, ?_⟩
          · intro hc
            have hcode : GgufType.ofCode kv.type.code = some .array := GgufType.ofCode_eq_some.mpr hc
            rw [GgufType.ofCode_code] at hcode
            exact ht (Option.some.inj hcode)
          · rw [if_neg Bool.false_ne_true, writeType_eq]
    · unfold Kv.norm
      split
      · rfl
      · rfl

/-- `readKv` behind the head. -/
def readTyped (key : Bytes) (h : Int × Bool × Nat) : Read Unit Kv :=
  match GgufType.ofCode h.1 with
  | none => Read.fail .thrown
  | some .array => Read.fail .thrown
  | some t => readData key h.2.1 t h.2.2

theorem forms_kv (kvs : List Kv) : Forms (readKv kvs)
    (fun r w => ∃ kv : Kv, kv.Stored ∧ kv.key ∉ kvs.map Kv.key ∧ kv.key ≠ [] ∧ r = kv.norm ∧ w = kv.stored)
    fun w => ∃ kv : Kv, kv.Stored ∧ kv.key ∉ kvs.map Kv.key ∧ kv.key = [] ∧ w = kv.stored := by
  have hlast : ∀ (key : Bytes) (arr : Bool) (t : GgufType) (n : Nat), Forms (readData key arr t n)
      (fun r w => ∃ p, ValuesForm t n p w ∧ key ≠ [] ∧ r = ⟨key, arr, t, p.1, p.2⟩)
      fun w => ∃ p, ValuesForm t n p w ∧ key = [] := by
    intro key arr t n
    unfold readData
    by_cases hkey : key = []
    · simp only [if_pos hkey]
      refine ((forms_values t n).bind fun _ => Forms.aborted).congr (fun r w => ?_) fun w => ?_
      · simp [hkey]
      · simp [hkey]
    · simp only [if_neg hkey]
      refine ((forms_values t n).map (f := fun p => (⟨key, arr, t, p.1, p.2⟩ : Kv))).congr (fun r w => ?_) fun w => ?_
      · simp [hkey]
      · simp [hkey]
  have hmatch : ∀ (key : Bytes) (h : Int × Bool × Nat), Forms (readTyped key h)
      (fun r w => ∃ t p, h.1 = GgufType.code t ∧ t ≠ .array ∧ ValuesForm t h.2.2 p w ∧ key ≠ [] ∧
        r = ⟨key, h.2.1, t, p.1, p.2⟩)
      fun w => ∃ t p, h.1 = GgufType.code t ∧ t ≠ .array ∧ ValuesForm t h.2.2 p w ∧ key = [] := by
    intro key h
    have hcode : ∀ t, h.1 = GgufType.code t ↔ GgufType.ofCode h.1 = some t := fun t => GgufType.ofCode_eq_some.symm
    simp only [hcode, readTyped]
    cases hc : GgufType.ofCode h.1 with
    | none => exact Forms.thrown.congr (fun r w => by simp) fun w => by simp
    | some t =>
        have hval := (hlast key h.2.1 t h.2.2).congr
          (G := fun r w => ∃ t' p, some t = some t' ∧ t' ≠ .array ∧ ValuesForm t' h.2.2 p w ∧ key ≠ [] ∧
            r = ⟨key, h.2.1, t', p.1, p.2⟩)
          (B := fun w => ∃ t' p, some t = some t' ∧ t' ≠ .array ∧ ValuesForm t' h.2.2 p w ∧ key = [])
        cases t with
        | array => exact Forms.thrown.congr (fun r w => by simp) fun w => by simp
        | uint8 | int8 | uint16 | int16 | uint32 | int32 | float32 | bool | string | uint64 | int64 | float64 =>
            exact hval (fun r w => by simp) fun w => by simp
  have hnew : ∀ key, ¬ kvs.any (·.key = key) = true ↔ key ∉ kvs.map Kv.key := by
    intro key
    simp
  refine (forms_string.bind fun key => (forms_head.bind (hmatch key)).guard (p := kvs.any (·.key = key) = true)).congr
    (fun r w => ?_) fun w => ?_
  · constructor
    · rintro ⟨key, _, _, ⟨hlen, rfl⟩, ⟨hany, h, u, v, hh, ⟨t, p, hc, ht, hv, hne, rfl⟩, rfl⟩, rfl⟩
      obtain ⟨kv, hkv, rfl, hr, hw⟩ := (exists_stored hlen).mp ⟨h, u, v, t, p, hh, hc, ht, hv, rfl, rfl⟩
      exact ⟨kv, hkv, (hnew kv.key).mp hany, hne, hr, by rw [hw]; rfl⟩
    · rintro ⟨kv, hkv, hmem, hne, rfl, rfl⟩
      obtain ⟨h, u, v, t, p, hh, hc, ht, hv, hr, hw⟩ := (exists_stored hkv.short.key).mpr ⟨kv, hkv, rfl, rfl, rfl⟩
      exact ⟨kv.key, _, _, ⟨hkv.short.key, rfl⟩, ⟨(hnew kv.key).mpr hmem, h, u, v, hh, ⟨t, p, hc, ht, hv, hne, hr⟩, hw⟩, rfl⟩
  · constructor
    · rintro (hf | ⟨key, _, _, ⟨hlen, rfl⟩, ⟨hany, hf | ⟨h, u, v, hh, ⟨t, p, hc, ht, hv, hnil⟩, rfl⟩⟩, rfl⟩)
      · exact hf.elim
      · exact hf.elim
      · obtain ⟨kv, hkv, rfl, -, hw⟩ := (exists_stored hlen).mp ⟨h, u, v, t, p, hh, hc, ht, hv, rfl, rfl⟩
        exact ⟨kv, hkv, (hnew kv.key).mp hany, hnil, by rw [hw]; rfl⟩
    · rintro ⟨kv, hkv, hmem, hnil, rfl⟩
      obtain ⟨h, u, v, t, p, hh, hc, ht, hv, -, hw⟩ := (exists_stored hkv.short.key).mpr ⟨kv, hkv, rfl, rfl, rfl⟩
      exact .inr ⟨kv.key, _, _, ⟨hkv.short.key, rfl⟩,
        ⟨(hnew kv.key).mpr hmem, .inr ⟨h, u, v, hh, ⟨t, p, hc, ht, hv, hnil⟩, hw⟩⟩, rfl⟩

/-- Pairs that follow each other, each key once. -/
structure PairsOk (kvs ps : List Kv) : Prop where
  stored : ∀ p ∈ ps, p.Stored
  nodup : (ps.map Kv.key).Nodup
  fresh : ∀ p ∈ ps, p.key ∉ kvs.map Kv.key

theorem PairsOk.nil (kvs : List Kv) : PairsOk kvs [] :=
  ⟨fun _ h => absurd h List.not_mem_nil, List.nodup_nil, fun _ h => absurd h List.not_mem_nil⟩

theorem pairsOk_cons {kvs ps : List Kv} {p : Kv} :
    PairsOk kvs (p :: ps) ↔ p.Stored ∧ p.key ∉ kvs.map Kv.key ∧ PairsOk (kvs ++ [p.norm]) ps := by
  constructor
  · rintro ⟨hs, hn, hf⟩
    rw [List.map_cons, List.nodup_cons] at hn
    obtain ⟨hp, hps⟩ := List.forall_mem_cons.mp hs
    obtain ⟨hfp, hfps⟩ := List.forall_mem_cons.mp hf
    refine ⟨hp, hfp, hps, hn.2, fun q hq hmem => ?_⟩
    rw [List.map_append, List.map_singleton, Kv.key_norm] at hmem
    rcases List.mem_append.mp hmem with hmem | hmem
    · exact hfps q hq hmem
    · rw [List.mem_singleton] at hmem
      exact hn.1 (hmem ▸ List.mem_map_of_mem hq)
  · rintro ⟨hp, hfp, hs, hn, hf⟩
    have hne : ∀ q ∈ ps, q.key ≠ p.key ∧ q.key ∉ kvs.map Kv.key := by
      intro q hq
      have hq' := hf q hq
      rw [List.map_append, List.map_singleton, Kv.key_norm, List.mem_append, List.mem_singleton, not_or] at hq'
      exact ⟨hq'.2, hq'.1⟩
    refine ⟨List.forall_mem_cons.mpr ⟨hp, hs⟩, ?_, List.forall_mem_cons.mpr ⟨hfp, fun q hq => (hne q hq).2⟩⟩
    rw [List.map_cons, List.nodup_cons]
    refine ⟨fun hmem => ?_, hn⟩
    obtain ⟨q, hq, hqk⟩ := List.mem_map.mp hmem
    exact (hne q hq).1 hqk

theorem forms_kvs : ∀ (n : Nat) (kvs : List Kv), Forms (readKvs n kvs)
    (fun r w => ∃ ps, ps.length = n ∧ PairsOk kvs ps ∧ (∀ p ∈ ps, p.key ≠ []) ∧ r = kvs ++ ps.map Kv.norm ∧
      w = ps.flatMap Kv.stored)
    fun w => ∃ ps p, ps.length < n ∧ PairsOk kvs (ps ++ [p]) ∧ (∀ q ∈ ps, q.key ≠ []) ∧ p.key = [] ∧
      w = (ps ++ [p]).flatMap Kv.stored
  | 0, kvs => by
    refine (Forms.pure kvs).congr (fun r w => ?_) fun w => ?_
    · constructor
      · rintro ⟨rfl, rfl⟩
        exact ⟨[], rfl, PairsOk.nil _, fun p hp => absurd hp List.not_mem_nil, (List.append_nil _).symm, rfl⟩
      · rintro ⟨ps, hlen, -, -, rfl, rfl⟩
        obtain rfl := List.length_eq_zero_iff.mp hlen
        exact ⟨List.append_nil _, rfl⟩
    · constructor
      · exact False.elim
      · rintro ⟨ps, p, hlen, -⟩
        exact absurd hlen (Nat.not_lt_zero _)
  | n + 1, kvs => by
    refine ((forms_kv kvs).bind fun kv => forms_kvs n (kvs ++ [kv])).congr (fun r w => ?_) fun w => ?_
    · constructor
      · rintro ⟨_, _, _, ⟨p, hp, hfresh, hne, rfl, rfl⟩, ⟨ps, rfl, hok, hnes, rfl, rfl⟩, rfl⟩
        refine ⟨p :: ps, rfl, pairsOk_cons.mpr ⟨hp, hfresh, hok⟩, List.forall_mem_cons.mpr ⟨hne, hnes⟩, ?_, rfl⟩
        rw [List.append_assoc]
        rfl
      · rintro ⟨ps, hlen, hok, hne, rfl, rfl⟩
        match ps with
        | [] => cases hlen
        | p :: ps =>
          obtain ⟨hp, hfresh, hok⟩ := pairsOk_cons.mp hok
          obtain ⟨hnp, hnps⟩ := List.forall_mem_cons.mp hne
          refine ⟨p.norm, _, _, ⟨p, hp, hfresh, hnp, rfl, rfl⟩, ⟨ps, Nat.succ.inj hlen, hok, hnps, ?_, rfl⟩, rfl⟩
          rw [List.append_assoc]
          rfl
    · constructor
      · rintro (⟨p, hp, hfresh, hnil, rfl⟩ | ⟨_, _, _, ⟨p, hp, hfresh, hne, rfl, rfl⟩,
          ⟨ps, q, hlen, hok, hnes, hnil, rfl⟩, rfl⟩)
        · refine ⟨[], p, Nat.succ_pos n, pairsOk_cons.mpr ⟨hp, hfresh, PairsOk.nil _⟩,
            fun q hq => absurd hq List.not_mem_nil, hnil, ?_⟩
          rw [List.nil_append, List.flatMap_cons, List.flatMap_nil, List.append_nil]
        · exact ⟨p :: ps, q, Nat.succ_lt_succ hlen, pairsOk_cons.mpr ⟨hp, hfresh, hok⟩,
            List.forall_mem_cons.mpr ⟨hne, hnes⟩, hnil, rfl⟩
      · rintro ⟨ps, q, hlen, hok, hne, hnil, rfl⟩
        match ps with
        | [] =>
          obtain ⟨hq, hfresh, -⟩ := pairsOk_cons.mp hok
          refine .inl ⟨q, hq, hfresh, hnil, ?_⟩
          rw [List.nil_append, List.flatMap_cons, List.flatMap_nil, List.append_nil]
        | p :: ps =>
          obtain ⟨hp, hfresh, hok⟩ := pairsOk_cons.mp hok
          obtain ⟨hnp, hnps⟩ := List.forall_mem_cons.mp hne
          exact .inr ⟨p.norm, _, _, ⟨p, hp, hfresh, hnp, rfl, rfl⟩,
            ⟨ps, q, Nat.lt_of_succ_lt_succ hlen, hok, hnps, hnil, rfl⟩, rfl⟩

/-! ## The alignment -/

/-- The pair that the reader takes for the alignment. -/
def alignmentPair (ps : List Kv) : Option Kv := ps.find? fun p => (CStr.of p.key).bytes = alignmentKey

/-- Its number. -/
def alignmentIn (ps : List Kv) : Nat :=
  match alignmentPair ps with
  | none => 32
  | some p => ofLe (p.data.take 4)

/-- It is one `uint32`. -/
def TypedAlignment (ps : List Kv) : Prop := ∀ p, alignmentPair ps = some p → p.type = .uint32 ∧ p.count = 1

theorem Kv.type_norm (kv : Kv) : kv.norm.type = kv.type := by
  unfold Kv.norm
  split <;> rfl

theorem forms_alignment (kvs : List Kv) : Forms (readAlignment kvs)
    (fun a w => (∀ p, alignmentPair kvs = some p → p.valU32 ≠ none) ∧ Ctx.isPow2 a = true ∧ a = alignmentIn kvs ∧ w = [])
    fun w => (¬ ∀ p, alignmentPair kvs = some p → p.valU32 ≠ none) ∧ w = [] := by
  have hfind : kvs.find? (fun kv => (CStr.of kv.key).bytes = alignmentKey) = alignmentPair kvs := rfl
  unfold readAlignment alignmentIn
  rw [hfind]
  cases hp : alignmentPair kvs with
  | none =>
      refine (Forms.pure 32).congr (fun a w => ?_) fun w => by simp
      constructor
      · rintro ⟨rfl, rfl⟩
        exact ⟨fun p h => (nomatch h), by decide, rfl, rfl⟩
      · rintro ⟨-, -, rfl, rfl⟩
        exact ⟨rfl, rfl⟩
  | some p =>
      dsimp only
      cases hv : p.valU32 with
      | none => exact Forms.aborted.congr (fun a w => by simp [hv]) fun w => by simp [hv]
      | some v =>
          have hval : v = ofLe (p.data.take 4) := by
            unfold Kv.valU32 at hv
            split at hv
            · exact (Option.some.inj hv).symm
            · cases hv
          dsimp only
          by_cases hpow : Ctx.isPow2 v = true
          · rw [if_pos hpow]
            refine (Forms.pure v).congr (fun a w => ?_) fun w => by simp [hv]
            constructor
            · rintro ⟨rfl, rfl⟩
              exact ⟨by simp [hv], hpow, hval, rfl⟩
            · rintro ⟨-, -, rfl, rfl⟩
              exact ⟨hval.symm, rfl⟩
          · rw [if_neg hpow]
            refine Forms.thrown.congr (fun a w => ?_) fun w => by simp [hv]
            constructor
            · exact False.elim
            · rintro ⟨-, hc, rfl, -⟩
              exact hpow (hval ▸ hc)

section Norm
variable {ps : List Kv}

theorem alignmentPair_norm (ps : List Kv) : alignmentPair (ps.map Kv.norm) = (alignmentPair ps).map Kv.norm := by
  unfold alignmentPair
  rw [List.find?_map]
  congr 2
  funext p
  exact congrArg (fun k => decide ((CStr.of k).bytes = alignmentKey)) p.key_norm

theorem Kv.Stored.valU32 {p : Kv} (h : p.Stored) :
    p.norm.valU32 = if p.type = .uint32 ∧ p.count = 1 then some (ofLe (p.data.take 4)) else none := by
  unfold Kv.valU32
  by_cases ht : p.type = .uint32
  · have hnorm : p.norm = p := if_neg (by rw [ht]; decide)
    rw [hnorm, Kv.getNe_eq h.values]
    by_cases hn : p.count = 1
    · rw [if_pos ⟨congrArg some hn, ht⟩, if_pos ⟨ht, hn⟩]
    · rw [if_neg fun hc => hn (Option.some.inj hc.1), if_neg fun hc => hn hc.2]
  · rw [if_neg fun hc => ht (p.type_norm ▸ hc.2), if_neg fun hc => ht hc.1]

theorem typedAlignment_norm (hps : ∀ p ∈ ps, p.Stored) :
    (∀ p, alignmentPair (ps.map Kv.norm) = some p → p.valU32 ≠ none) ↔ TypedAlignment ps := by
  rw [alignmentPair_norm]
  unfold TypedAlignment
  cases hp : alignmentPair ps with
  | none => simp
  | some p =>
      rw [Option.map_some]
      simp only [Option.some.injEq, forall_eq', (hps p (List.mem_of_find?_eq_some hp)).valU32]
      simp

theorem alignmentIn_norm (ht : TypedAlignment ps) : alignmentIn (ps.map Kv.norm) = alignmentIn ps := by
  unfold alignmentIn
  rw [alignmentPair_norm]
  cases hp : alignmentPair ps with
  | none => rfl
  | some p =>
      have hnorm : p.norm = p := if_neg (by rw [(ht p hp).1]; decide)
      rw [Option.map_some, hnorm]

end Norm

/-! ## The header -/

structure Header where
  version : Nat
  nTensors : Nat
  nKv : Nat

/-- The bytes of a header. -/
def Header.bytes (h : Header) : Bytes := magic ++ (leBytes 4 h.version ++ (leBytes 8 h.nTensors ++ leBytes 8 h.nKv))

/-- A header that the reader takes. -/
structure Header.Valid (h : Header) : Prop where
  version : h.version = 2 ∨ h.version = 3
  nTensors : h.nTensors ≤ (2 ^ 64 - 1) / sizeofInfo
  nKv : h.nKv ≤ (2 ^ 64 - 1) / sizeofKv

def readHeader : Read Unit Header := do
  let m ← Read.bytes 4
  if m ≠ magic then Read.fail .thrown
  else
    let version ← Read.nat 4
    if version = 0 ∨ version % 2 ^ 16 = 0 ∨ version = 1 ∨ 3 < version then Read.fail .thrown
    else
      let nTensors ← Read.int 8
      if nTensors < 0 ∨ ((2 ^ 64 - 1) / sizeofInfo : Nat) < nTensors then Read.fail .thrown
      else
        let nKv ← Read.int 8
        if nKv < 0 ∨ ((2 ^ 64 - 1) / sizeofKv : Nat) < nKv then Read.fail .thrown
        else return ⟨version, nTensors.toNat, nKv.toNat⟩

theorem fail_bind {α β : Type} (e : Failure) (f : α → Read Unit β) : (Read.fail e >>= f) = Read.fail e := rfl

theorem ite_bind {α β : Type} {p : Prop} [Decidable p] (m m' : Read Unit α) (f : α → Read Unit β) :
    (if p then m else m') >>= f = if p then m >>= f else m' >>= f := by
  split <;> rfl

/-- The reader in front of the data section, stage by stage. -/
theorem readMeta_eq (tr : Traits) : readMeta tr = do
    let h ← readHeader
    let kv ← readKvs h.nKv []
    let alignment ← readAlignment kv
    let info ← readInfos tr h.nTensors []
    return { version := h.version, kv := kv, info := info, alignment := alignment } := by
  unfold readMeta readHeader
  simp only [bind_assoc, ite_bind, fail_bind, pure_bind]

/-- A field that is read as a signed number and must not be negative. -/
theorem forms_signed (w : Nat) {p : Int → Prop} [DecidablePred p] (hneg : ∀ i, i < 0 → p i) {α : Type}
    {f : Int → Read Unit α} {F : Nat → α → Bytes → Prop} {A : Nat → Bytes → Prop}
    (h : ∀ n : Nat, Forms (f n) (F n) (A n)) :
    Forms (do
      let i ← Read.int w
      if p i then Read.fail .thrown else f i)
      (fun a bs => ∃ n : Nat, ∃ v, 2 * n < 256 ^ w ∧ ¬ p n ∧ F n a v ∧ bs = leBytes w n ++ v)
      fun bs => ∃ n : Nat, ∃ v, 2 * n < 256 ^ w ∧ ¬ p n ∧ A n v ∧ bs = leBytes w n ++ v := by
  have hguard : ∀ i : Int, Forms (if p i then Read.fail .thrown else f i)
      (fun a v => ∃ n : Nat, i = n ∧ ¬ p i ∧ F n a v) fun v => ∃ n : Nat, i = n ∧ ¬ p i ∧ A n v := by
    intro i
    by_cases hi : p i
    · rw [if_pos hi]
      exact Forms.thrown.congr (fun a v => by simp [hi]) fun v => by simp [hi]
    · obtain ⟨n, rfl⟩ := Int.eq_ofNat_of_zero_le (not_lt.mp fun hlt => hi (hneg i hlt))
      rw [if_neg hi]
      exact (h n).congr (fun a v => by simp [hi]) fun v => by simp [hi]
  have hfit : ∀ n : Nat, FitsInt w n ↔ 2 * n < 256 ^ w := by
    intro n
    unfold FitsInt
    omega
  have hwrite : ∀ {n : Nat}, 2 * n < 256 ^ w → leBytes w n = intBytes w n := by
    intro n hn
    exact (intBytes_natCast (by omega)).symm
  refine ((Forms.int w).bind hguard).congr (fun a bs => ?_) fun bs => ?_
  · constructor
    · rintro ⟨_, _, v, ⟨hi, rfl⟩, ⟨n, rfl, hbad, hF⟩, rfl⟩
      have hn := (hfit n).mp hi
      exact ⟨n, v, hn, hbad, hF, by rw [hwrite hn]⟩
    · rintro ⟨n, v, hn, hbad, hF, rfl⟩
      exact ⟨n, _, v, ⟨(hfit n).mpr hn, rfl⟩, ⟨n, rfl, hbad, hF⟩, by rw [hwrite hn]⟩
  · constructor
    · rintro (hf | ⟨_, _, v, ⟨hi, rfl⟩, ⟨n, rfl, hbad, hA⟩, rfl⟩)
      · exact hf.elim
      · have hn := (hfit n).mp hi
        exact ⟨n, v, hn, hbad, hA, by rw [hwrite hn]⟩
    · rintro ⟨n, v, hn, hbad, hA, rfl⟩
      exact .inr ⟨n, _, v, ⟨(hfit n).mpr hn, rfl⟩, ⟨n, rfl, hbad, hA⟩, by rw [hwrite hn]⟩

theorem forms_header : Forms readHeader (fun h w => h.Valid ∧ w = h.bytes) fun _ => False := by
  have hkv : ∀ version nTensors : Nat, Forms (do
      let nKv ← Read.int 8
      if nKv < 0 ∨ ((2 ^ 64 - 1) / sizeofKv : Nat) < nKv then Read.fail .thrown
      else return ⟨version, nTensors, nKv.toNat⟩ : Read Unit Header)
      (fun h w => h.version = version ∧ h.nTensors = nTensors ∧ h.nKv ≤ (2 ^ 64 - 1) / sizeofKv ∧ w = leBytes 8 h.nKv)
      fun _ => False := by
    intro version nTensors
    refine (forms_signed 8 (p := fun i => i < 0 ∨ ((2 ^ 64 - 1) / sizeofKv : Nat) < i) (fun i hi => .inl hi)
      fun nKv => Forms.pure (⟨version, nTensors, nKv⟩ : Header)).congr (fun h w => ?_) fun w => by simp
    constructor
    · rintro ⟨n, v, -, hbad, ⟨rfl, rfl⟩, rfl⟩
      refine ⟨rfl, rfl, ?_, List.append_nil _⟩
      dsimp only
      omega
    · rintro ⟨rfl, rfl, hle, rfl⟩
      refine ⟨h.nKv, [], ?_, by omega, ⟨rfl, rfl⟩, (List.append_nil _).symm⟩
      unfold sizeofKv at hle
      norm_num at hle ⊢
      omega
  have htensors : ∀ version : Nat, Forms (do
      let nTensors ← Read.int 8
      if nTensors < 0 ∨ ((2 ^ 64 - 1) / sizeofInfo : Nat) < nTensors then Read.fail .thrown
      else
        let nKv ← Read.int 8
        if nKv < 0 ∨ ((2 ^ 64 - 1) / sizeofKv : Nat) < nKv then Read.fail .thrown
        else return ⟨version, nTensors.toNat, nKv.toNat⟩ : Read Unit Header)
      (fun h w => h.version = version ∧ h.nTensors ≤ (2 ^ 64 - 1) / sizeofInfo ∧ h.nKv ≤ (2 ^ 64 - 1) / sizeofKv ∧
        w = leBytes 8 h.nTensors ++ leBytes 8 h.nKv)
      fun _ => False := by
    intro version
    refine (forms_signed 8 (p := fun i => i < 0 ∨ ((2 ^ 64 - 1) / sizeofInfo : Nat) < i) (fun i hi => .inl hi)
      fun nTensors => hkv version nTensors).congr (fun h w => ?_) fun w => by simp
    constructor
    · rintro ⟨n, v, -, hbad, ⟨hv, rfl, hle, rfl⟩, rfl⟩
      exact ⟨hv, by omega, hle, rfl⟩
    · rintro ⟨hv, hle, hle', rfl⟩
      refine ⟨h.nTensors, _, ?_, by omega, ⟨hv, rfl, hle', rfl⟩, rfl⟩
      unfold sizeofInfo at hle
      norm_num at hle ⊢
      omega
  have hversion := (Forms.nat 4).bind fun version => (htensors version).guard
    (p := version = 0 ∨ version % 2 ^ 16 = 0 ∨ version = 1 ∨ 3 < version)
  refine ((Forms.bytes 4).bind fun m => hversion.guard (p := m ≠ magic)).congr (fun h w => ?_) fun w => by simp
  constructor
  · rintro ⟨m, _, _, ⟨rfl, -⟩, ⟨hm, version, _, _, ⟨hv, rfl⟩, ⟨hver, rfl, hT, hK, rfl⟩, rfl⟩, rfl⟩
    obtain rfl := not_not.mp hm
    norm_num at hv
    exact ⟨⟨by omega, hT, hK⟩, rfl⟩
  · rintro ⟨⟨hver, hT, hK⟩, rfl⟩
    exact ⟨magic, _, _, ⟨rfl, rfl⟩, ⟨not_not.mpr rfl, h.version, _, _, ⟨by norm_num; omega, rfl⟩,
      ⟨by omega, rfl, hT, hK, rfl⟩, rfl⟩, rfl⟩

end S2Moe.Gguf
