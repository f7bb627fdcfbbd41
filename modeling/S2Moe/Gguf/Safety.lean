import S2Moe.Gguf.Records
import S2Moe.Gguf.RoundTrip

/-!
# Reading any file

* `ggmlTraits` : the table of the tensor types;
* `exactStrides`, `exactBytes` : the sizes of a tensor without overflow; `strides_eq_iff`, `nbytes_eq_iff`;
* `initMeta` : the reader without the tensor data; `initFromFile_eq`;
* `Checks`, `Strides`, `Measures` : what the reader computes on its way through a file, also through one that it rejects;
* `Safe` : it stops nowhere, computes the exact sizes, and what it returns is coherent; `Plain` : what the file must not hold.
-/

namespace S2Moe.Gguf
open S2Moe.Lib

/-- `type_traits`. -/
def ggmlTraits : Traits where
  blckSize := fun type => match type with
    | 0 => 1 | 1 => 1 | 2 => 32 | 3 => 32 | 6 => 32 | 7 => 32 | 8 => 32 | 9 => 32
    | 10 => 256 | 11 => 256 | 12 => 256 | 13 => 256 | 14 => 256 | 15 => 256 | 16 => 256 | 17 => 256 | 18 => 256 | 19 => 256
    | 20 => 32 | 21 => 256 | 22 => 256 | 23 => 256 | 24 => 1 | 25 => 1 | 26 => 1 | 27 => 1 | 28 => 1 | 29 => 256
    | 30 => 1 | 34 => 256 | 35 => 256 | 39 => 32 | _ => 0
  typeSize := fun type => match type with
    | 0 => 4 | 1 => 2 | 2 => 18 | 3 => 20 | 6 => 22 | 7 => 24 | 8 => 34 | 9 => 36
    | 10 => 84 | 11 => 110 | 12 => 144 | 13 => 176 | 14 => 210 | 15 => 292 | 16 => 66 | 17 => 74 | 18 => 98 | 19 => 50
    | 20 => 18 | 21 => 110 | 22 => 82 | 23 => 136 | 24 => 1 | 25 => 2 | 26 => 4 | 27 => 8 | 28 => 8 | 29 => 56
    | 30 => 2 | 34 => 54 | 35 => 66 | 39 => 17 | _ => 0

theorem blckSize_le (type : Nat) : ggmlTraits.blckSize type ≤ 2 ^ 64 := by
  have hle : ggmlTraits.blckSize type ≤ 256 := by
    unfold ggmlTraits
    dsimp only
    split <;> decide
  exact hle.trans (by norm_num)

/-! ## Sizes -/

section Sizes
variable (tr : Traits)

/-- The bytes of a row. -/
def rowBytes (type : Nat) (ne : Fin 4 → Nat) : Nat := tr.typeSize type * (ne 0 / tr.blckSize type)

def exactStrides (type : Nat) (ne : Fin 4 → Nat) : Fin 4 → Nat :=
  ![tr.typeSize type, rowBytes tr type ne, rowBytes tr type ne * ne 1, rowBytes tr type ne * ne 1 * ne 2]

def exactBytes (type : Nat) (ne : Fin 4 → Nat) : Nat := rowBytes tr type ne * ne 1 * ne 2 * ne 3

/-- The test of the number of elements divides by zero. -/
def DividesByZero (ne : Fin 4 → Nat) : Prop :=
  ne 1 = 0 ∨ (ne 0 < (2 ^ 63 - 1) / ne 1 ∧ (ne 2 = 0 ∨ (ne 0 * ne 1 < (2 ^ 63 - 1) / ne 2 ∧ ne 3 = 0)))

variable {tr} {ne : Fin 4 → Nat} {type : Nat}

theorem checkElements_aborted : checkElements ne = some .aborted ↔ DividesByZero ne := by
  unfold checkElements DividesByZero
  split_ifs with h1 h2 h3 h4 h5
  · exact iff_of_true rfl (by omega)
  · exact iff_of_false (by decide) (by omega)
  · exact iff_of_true rfl (by omega)
  · exact iff_of_false (by decide) (by omega)
  · exact iff_of_true rfl (by omega)
  · exact iff_of_false (by decide) (by omega)
  · exact iff_of_false (by decide) (by omega)

/-- The products of the test: none is computed behind a division by zero or a test that failed. -/
def products (ne : Fin 4 → Nat) : List Nat :=
  if ne 1 = 0 ∨ (2 ^ 63 - 1) / ne 1 ≤ ne 0 then []
  else if ne 2 = 0 ∨ (2 ^ 63 - 1) / ne 2 ≤ ne 0 * ne 1 then [ne 0 * ne 1]
  else [ne 0 * ne 1, ne 0 * ne 1 * ne 2]

theorem mul_lt_of_lt_div {x n : Nat} (h : x < (2 ^ 63 - 1) / n) : x * n < 2 ^ 63 := by
  have hle := Nat.div_mul_le_self (2 ^ 63 - 1) n
  have hmul : x * n ≤ (2 ^ 63 - 1) / n * n := Nat.mul_le_mul_right n h.le
  omega

theorem products_lt : ∀ p ∈ products ne, p < 2 ^ 63 := by
  intro p hp
  unfold products at hp
  split_ifs at hp with h1 h2
  · exact absurd hp List.not_mem_nil
  · rw [List.mem_singleton.mp hp]
    exact mul_lt_of_lt_div (by omega)
  · rcases List.mem_cons.mp hp with rfl | hp
    · exact mul_lt_of_lt_div (by omega)
    · rw [List.mem_singleton.mp hp]
      exact mul_lt_of_lt_div (by omega)

/-- **The number of elements is representable.** -/
theorem elements_lt (h : checkElements ne = none) :
    ne 1 ≠ 0 ∧ ne 2 ≠ 0 ∧ ne 3 ≠ 0 ∧ ne 0 * ne 1 * ne 2 * ne 3 < 2 ^ 63 := by
  unfold checkElements at h
  split_ifs at h with h1 h2 h3 h4 h5 h6
  exact ⟨h1, h3, h5, mul_lt_of_lt_div (by omega)⟩

theorem le_mul_of_ne_zero {x n : Nat} (h : n ≠ 0) : x ≤ x * n := Nat.le_mul_of_pos_right x (Nat.pos_of_ne_zero h)

/-- **The strides are exact as long as the largest fits.** -/
theorem strides_eq_iff (h : checkElements ne = none) :
    strides tr type ne = exactStrides tr type ne ↔ rowBytes tr type ne * ne 1 * ne 2 < 2 ^ 64 := by
  obtain ⟨h1, h2, -, -⟩ := elements_lt h
  constructor
  · intro heq
    have h3 : strides tr type ne 3 = rowBytes tr type ne * ne 1 * ne 2 := congrFun heq 3
    rw [← h3]
    exact Nat.mod_lt _ (by decide)
  · intro hlt
    have hle1 : rowBytes tr type ne ≤ rowBytes tr type ne * ne 1 := le_mul_of_ne_zero h1
    have hle2 : rowBytes tr type ne * ne 1 ≤ rowBytes tr type ne * ne 1 * ne 2 := le_mul_of_ne_zero h2
    have hrow : tr.typeSize type * (ne 0 / tr.blckSize type) % 2 ^ 64 = rowBytes tr type ne :=
      Nat.mod_eq_of_lt (by unfold rowBytes at *; omega)
    unfold strides exactStrides
    dsimp only
    rw [hrow, Nat.mod_eq_of_lt (show rowBytes tr type ne * ne 1 < 2 ^ 64 by omega), Nat.mod_eq_of_lt hlt]

/-- What the sum in `ggml_nbytes` comes to. -/
theorem sum_strides {r a b c : Nat} (ha : a ≠ 0) (hb : b ≠ 0) (hc : c ≠ 0) :
    r + (a - 1) * r + (b - 1) * (r * a) + (c - 1) * (r * a * b) = r * a * b * c := by
  obtain ⟨a, rfl⟩ := Nat.exists_eq_succ_of_ne_zero ha
  obtain ⟨b, rfl⟩ := Nat.exists_eq_succ_of_ne_zero hb
  obtain ⟨c, rfl⟩ := Nat.exists_eq_succ_of_ne_zero hc
  simp only [Nat.succ_eq_add_one, Nat.add_sub_cancel]
  ring

/-- A sum that is computed modulo `2^64`. -/
theorem mod_eq_iff {x : Nat} : x % 2 ^ 64 = x ↔ x < 2 ^ 64 := by
  constructor
  · intro h
    rw [← h]
    exact Nat.mod_lt _ (by decide)
  · exact Nat.mod_eq_of_lt

theorem nbytes_eq_exact_iff (hblck : tr.blckSize type ≤ 2 ^ 64) (h0 : tr.blckSize type ≠ 0)
    (hrow : ne 0 % tr.blckSize type = 0) (h : checkElements ne = none) {t : Tensor} (htype : t.type = type)
    (hne : t.ne = ne) (hnb : t.nb = exactStrides tr type ne) :
    t.nbytes tr = exactBytes tr type ne ↔ tr.typeSize type * ne 0 < 2 ^ 64 ∧ exactBytes tr type ne < 2 ^ 64 := by
  subst htype hne
  obtain ⟨h1, h2, h3, -⟩ := elements_lt h
  have hblocks : t.ne 0 = t.ne 0 / tr.blckSize t.type * tr.blckSize t.type :=
    (Nat.div_mul_cancel (Nat.dvd_of_mod_eq_zero hrow)).symm
  have hrows : tr.typeSize t.type * t.ne 0 = rowBytes tr t.type t.ne * tr.blckSize t.type := by
    unfold rowBytes
    rw [Nat.mul_assoc, ← hblocks]
  have hsum := sum_strides (r := rowBytes tr t.type t.ne) h1 h2 h3
  have hle : rowBytes tr t.type t.ne ≤ exactBytes tr t.type t.ne :=
    (le_mul_of_ne_zero h1).trans ((le_mul_of_ne_zero h2).trans (le_mul_of_ne_zero h3))
  unfold Tensor.nbytes
  by_cases hzero : t.ne 0 = 0
  · have hexact : exactBytes tr t.type t.ne = 0 := by
      unfold exactBytes rowBytes
      simp [hzero]
    rw [if_pos ⟨0, hzero⟩, hexact, hzero, Nat.mul_zero]
    exact iff_of_true rfl ⟨by norm_num, by norm_num⟩
  · have hpos : ¬ ∃ i, t.ne i = 0 := by
      rintro ⟨i, hi⟩
      match i with
      | 0 => exact hzero hi
      | 1 => exact h1 hi
      | 2 => exact h2 hi
      | 3 => exact h3 hi
    rw [if_neg hpos, hnb]
    change (if tr.blckSize t.type = 1 then (tr.typeSize t.type + (t.ne 0 - 1) * tr.typeSize t.type +
        (t.ne 1 - 1) * rowBytes tr t.type t.ne + (t.ne 2 - 1) * (rowBytes tr t.type t.ne * t.ne 1) +
        (t.ne 3 - 1) * (rowBytes tr t.type t.ne * t.ne 1 * t.ne 2)) % 2 ^ 64
      else (t.ne 0 * tr.typeSize t.type % 2 ^ 64 / tr.blckSize t.type +
        (t.ne 1 - 1) * rowBytes tr t.type t.ne + (t.ne 2 - 1) * (rowBytes tr t.type t.ne * t.ne 1) +
        (t.ne 3 - 1) * (rowBytes tr t.type t.ne * t.ne 1 * t.ne 2)) % 2 ^ 64) = _ ↔ _
    unfold exactBytes at hle ⊢
    by_cases hone : tr.blckSize t.type = 1
    · have hfirst : tr.typeSize t.type + (t.ne 0 - 1) * tr.typeSize t.type = rowBytes tr t.type t.ne := by
        rw [hone, Nat.mul_one] at hrows
        rw [← hrows]
        obtain ⟨n, hn⟩ := Nat.exists_eq_succ_of_ne_zero hzero
        rw [hn, Nat.succ_eq_add_one, Nat.add_sub_cancel]
        ring
      rw [if_pos hone, hfirst, hsum, mod_eq_iff, hrows, hone, Nat.mul_one]
      omega
    · rw [if_neg hone, Nat.mul_comm (t.ne 0), hrows]
      set r := rowBytes tr t.type t.ne
      set b := tr.blckSize t.type
      rcases Nat.lt_or_ge (r * b) (2 ^ 64) with hlt | hge
      · rw [Nat.mod_eq_of_lt hlt, Nat.mul_div_cancel r (Nat.pos_of_ne_zero h0), hsum, mod_eq_iff]
        omega
      · -- the product inside overflows, and the quotient comes out too small
        have hmod : r * b % 2 ^ 64 ≤ r * b - 2 ^ 64 := by
          rw [Nat.mod_eq_sub_mod hge]
          exact Nat.mod_le _ _
        have hquot : r * b % 2 ^ 64 / b < r := by
          rw [Nat.div_lt_iff_lt_mul (Nat.pos_of_ne_zero h0)]
          omega
        refine iff_of_false (fun heq => ?_) (by omega)
        have hmod' := Nat.mod_le (r * b % 2 ^ 64 / b + (t.ne 1 - 1) * r + (t.ne 2 - 1) * (r * t.ne 1) +
          (t.ne 3 - 1) * (r * t.ne 1 * t.ne 2)) (2 ^ 64)
        omega

/-- **The number of bytes and its padding are exact as long as the product inside and the sum fit.** -/
theorem nbytes_eq_iff (hblck : tr.blckSize type ≤ 2 ^ 64) (h0 : tr.blckSize type ≠ 0) (hrow : ne 0 % tr.blckSize type = 0)
    (h : checkElements ne = none) {a : Nat} (ha : 0 < a) (ha' : a ≤ 2 ^ 64) {t : Tensor} (htype : t.type = type)
    (hne : t.ne = ne) (hnb : t.nb = exactStrides tr type ne) :
    (t.nbytes tr = exactBytes tr type ne ∧ pad (t.nbytes tr) a = roundUp (exactBytes tr type ne) a) ↔
      tr.typeSize type * ne 0 < 2 ^ 64 ∧ exactBytes tr type ne + a ≤ 2 ^ 64 := by
  subst htype hne
  obtain ⟨h1, h2, h3, -⟩ := elements_lt h
  -- the padding, once the number of bytes is exact
  have hpad : ∀ {x : Nat}, x < 2 ^ 64 → (pad x a = roundUp x a ↔ x + a ≤ 2 ^ 64) := by
    intro x hx
    constructor
    · intro heq
      by_contra hgt
      have hmod : (x + a - 1) % 2 ^ 64 = x + a - 1 - 2 ^ 64 := by
        rw [Nat.mod_eq_sub_mod (by omega)]
        exact Nat.mod_eq_of_lt (by omega)
      have hle : pad x a ≤ x + a - 1 - 2 ^ 64 := by
        unfold pad
        rw [hmod]
        exact Nat.div_mul_le_self _ _
      have := le_roundUp x ha
      omega
    · exact pad_eq
  have hsum : t.nbytes tr = exactBytes tr t.type t.ne ↔
      tr.typeSize t.type * t.ne 0 < 2 ^ 64 ∧ exactBytes tr t.type t.ne < 2 ^ 64 :=
    nbytes_eq_exact_iff hblck h0 hrow h rfl rfl hnb
  constructor
  · rintro ⟨hn, hp⟩
    obtain ⟨hx, hlt⟩ := hsum.mp hn
    rw [hn] at hp
    exact ⟨hx, (hpad hlt).mp hp⟩
  · rintro ⟨hx, hle⟩
    have hlt : exactBytes tr t.type t.ne < 2 ^ 64 := by omega
    have hn := hsum.mpr ⟨hx, hlt⟩
    rw [hn]
    exact ⟨rfl, (hpad hlt).mpr hle⟩

end Sizes

/-! ## The data section -/

section Section
variable (tr : Traits)

/-- The bytes of the tensors, each padded to `a`. -/
def span (a : Nat) (rs : List Record) : Nat := (rs.map fun r => roundUp (exactBytes tr r.type r.ne) a).sum

/-- Each tensor lies behind those before, and the section does not overflow. -/
def Placed (a : Nat) (rs : List Record) : Prop :=
  ∀ before r after, rs = before ++ r :: after → r.offset = span tr a before ∧ span tr a (before ++ [r]) < 2 ^ 64

/-- The sizes that are computed for a tensor are exact. -/
def Sized (a : Nat) (t : Tensor) : Prop :=
  t.nbytes tr = exactBytes tr t.type t.ne ∧ pad (t.nbytes tr) a = roundUp (exactBytes tr t.type t.ne) a

variable {tr} {a : Nat}

theorem span_append (l k : List Record) : span tr a (l ++ k) = span tr a l + span tr a k := by
  unfold span
  rw [List.map_append, List.sum_append]

theorem span_singleton (r : Record) : span tr a [r] = roundUp (exactBytes tr r.type r.ne) a := by
  unfold span
  rw [List.map_singleton, List.sum_singleton]

theorem span_split (before : List Record) (r : Record) (after : List Record) : span tr a (before ++ r :: after) =
    span tr a before + roundUp (exactBytes tr r.type r.ne) a + span tr a after := by
  rw [← List.singleton_append, span_append, span_append, span_singleton, Nat.add_assoc]

theorem Placed.nil : Placed tr a [] := by
  intro before r after h
  exact absurd h.symm (List.append_ne_nil_of_right_ne_nil _ (List.cons_ne_nil _ _))

theorem placed_concat {rs : List Record} {r : Record} :
    Placed tr a (rs ++ [r]) ↔ Placed tr a rs ∧ r.offset = span tr a rs ∧ span tr a (rs ++ [r]) < 2 ^ 64 := by
  constructor
  · intro h
    refine ⟨fun before q after heq => ?_, h rs r [] rfl⟩
    refine h before q (after ++ [r]) ?_
    rw [heq, List.append_assoc]
    rfl
  · rintro ⟨hrs, hr⟩ before q after heq
    rcases List.eq_nil_or_concat after with rfl | ⟨after, q', rfl⟩
    · obtain ⟨rfl, hq⟩ := List.append_inj' heq rfl
      obtain rfl : r = q := by simpa using hq
      exact hr
    · rw [List.concat_eq_append, ← List.cons_append, ← List.append_assoc] at heq
      obtain ⟨hrs', -⟩ := List.append_inj' heq rfl
      exact hrs before q after hrs'

theorem Placed.span_lt {rs : List Record} (h : Placed tr a rs) : span tr a rs < 2 ^ 64 := by
  rcases List.eq_nil_or_concat rs with rfl | ⟨rs, r, rfl⟩
  · exact Nat.two_pow_pos 64
  · rw [List.concat_eq_append] at h ⊢
    exact (placed_concat.mp h).2.2

theorem dataSize_append (l k : List Info) : ∀ n : Nat, dataSize tr a (l ++ k) n =
    (dataSize tr a l n).bind fun m => dataSize tr a k m := by
  induction l with
  | nil => exact fun n => rfl
  | cons i l ih =>
      intro n
      rw [List.cons_append, dataSize, dataSize]
      split
      · rfl
      · dsimp only
        split
        · rfl
        · exact ih _

theorem dataSize_singleton {i : Info} {n m : Nat} (hn : n < 2 ^ 64) : dataSize tr a [i] n = some m ↔
    i.offset = n ∧ n + pad (i.t.nbytes tr) a < 2 ^ 64 ∧ m = n + pad (i.t.nbytes tr) a := by
  rw [dataSize]
  by_cases ho : i.offset = n
  · rw [if_neg (not_not.mpr ho)]
    dsimp only
    by_cases hlt : 2 ^ 64 - 1 - n < pad (i.t.nbytes tr) a
    · rw [if_pos hlt]
      refine iff_of_false (fun h => (by cases h)) fun h => ?_
      omega
    · rw [if_neg hlt, dataSize, Option.some.injEq]
      constructor
      · rintro rfl
        exact ⟨ho, by omega, rfl⟩
      · rintro ⟨-, -, rfl⟩
        rfl
  · rw [if_pos ho]
    exact iff_of_false (fun h => (by cases h)) fun h => ho h.1

/-- **With exact sizes the reader accepts just the tensors that follow each other.** -/
theorem dataSize_eq_some_iff {rs : List Record}
    (h : ∀ before r after, rs = before ++ r :: after → Placed tr a before → r.offset = span tr a before →
      Sized tr a (r.tensor tr)) {m : Nat} :
    dataSize tr a (rs.map (Record.info tr)) 0 = some m ↔ Placed tr a rs ∧ m = span tr a rs := by
  induction rs using List.reverseRecOn generalizing m with
  | nil =>
      constructor
      · intro heq
        cases heq
        exact ⟨Placed.nil, rfl⟩
      · rintro ⟨-, rfl⟩
        rfl
  | append_singleton rs r ih =>
      have ih' := fun {m : Nat} => ih (m := m) fun before q after heq => by
        refine h before q (after ++ [r]) ?_
        rw [heq, List.append_assoc]
        rfl
      rw [List.map_append, List.map_singleton, dataSize_append, Option.bind_eq_some_iff, placed_concat, span_append,
        span_singleton]
      constructor
      · rintro ⟨n, hn, hr⟩
        obtain ⟨hplaced, rfl⟩ := ih'.mp hn
        obtain ⟨ho, hlt, rfl⟩ := (dataSize_singleton hplaced.span_lt).mp hr
        have hsized := h rs r [] rfl hplaced ho
        have hpad : pad ((r.info tr).t.nbytes tr) a = roundUp (exactBytes tr r.type r.ne) a := hsized.2
        rw [hpad] at hlt ⊢
        exact ⟨⟨hplaced, ho, hlt⟩, rfl⟩
      · rintro ⟨⟨hplaced, ho, hlt⟩, rfl⟩
        have hsized := h rs r [] rfl hplaced ho
        have hpad : pad ((r.info tr).t.nbytes tr) a = roundUp (exactBytes tr r.type r.ne) a := hsized.2
        refine ⟨span tr a rs, ih'.mpr ⟨hplaced, rfl⟩, (dataSize_singleton hplaced.span_lt).mpr ?_⟩
        rw [hpad]
        exact ⟨ho, hlt, rfl⟩

/-- Where a tensor ends, the next begins. -/
theorem Placed.pairwise {rs : List Record} (h : Placed tr a rs) (ha : 0 < a) :
    rs.Pairwise fun r q => r.offset + exactBytes tr r.type r.ne ≤ q.offset := by
  induction rs using List.reverseRecOn with
  | nil => exact List.Pairwise.nil
  | append_singleton rs q ih =>
      obtain ⟨hrs, ho, -⟩ := placed_concat.mp h
      refine List.pairwise_append.mpr ⟨ih hrs, List.pairwise_singleton _ _, fun r hr q' hq' => ?_⟩
      obtain rfl := List.mem_singleton.mp hq'
      obtain ⟨before, after, rfl⟩ := List.append_of_mem hr
      have hle := le_roundUp (exactBytes tr r.type r.ne) ha
      have hspan : span tr a (before ++ r :: after) = _ := span_split before r after
      have hr' := (hrs before r after rfl).1
      omega

theorem Placed.inside {rs : List Record} (h : Placed tr a rs) (ha : 0 < a) :
    ∀ r ∈ rs, r.offset + exactBytes tr r.type r.ne ≤ span tr a rs := by
  intro r hr
  obtain ⟨before, after, rfl⟩ := List.append_of_mem hr
  have hle := le_roundUp (exactBytes tr r.type r.ne) ha
  have hspan : span tr a (before ++ r :: after) = _ := span_split before r after
  have hr' := (h before r after rfl).1
  omega

theorem dvd_span (rs : List Record) : a ∣ span tr a rs := by
  unfold span
  refine List.dvd_sum fun x hx => ?_
  obtain ⟨r, -, rfl⟩ := List.mem_map.mp hx
  exact Nat.dvd_of_mod_eq_zero (roundUp_mod _ a)

end Section

/-! ## The reader -/

/-- `gguf_init_from_file_impl` without a context for the tensors. -/
def initMeta (tr : Traits) (file : Bytes) : Except Failure Ctx :=
  match readMeta tr ⟨file, ()⟩ with
  | .error e _ => .error e
  | .ok ctx s =>
    match dataSize tr ctx.alignment ctx.info 0 with
    | none => .error .thrown
    | some size => .ok { ctx with offset := pad (file.length - s.bytes.length) ctx.alignment, size := size }

/-- The tensor data are read last. -/
theorem initFromFile_eq (tr : Traits) (file : Bytes) : initFromFile tr file = (initMeta tr file).bind fun c =>
    let data := (file.drop c.offset).take c.size
    if data.length < c.size then .error .thrown
    else
      .ok {
        ctx := { c with data := some data }
        tensors := c.info.map fun i => { i.t with data := fun k => data.getD (i.offset + k) 0 } } := by
  unfold initFromFile initMeta
  cases readMeta tr ⟨file, ()⟩ with
  | error e s => rfl
  | ok c s =>
      dsimp only
      cases dataSize tr c.alignment c.info 0 with
      | none => rfl
      | some size => rfl

section Runs
variable (tr : Traits) (file : Bytes)

/-- The reader tests the number of elements of a tensor. -/
def Checks (ne : Fin 4 → Nat) : Prop :=
  ∃ k q infos s name s', k < q.1.nTensors ∧ readFront tr k ⟨file, ()⟩ = .ok (q, infos) s ∧
    readDims infos s = .ok (name, ne) s'

/-- It computes the strides of a tensor. -/
def Strides (t : Tensor) : Prop :=
  ∃ k q infos s s', k < q.1.nTensors ∧ readFront tr k ⟨file, ()⟩ = .ok (q, infos) s ∧ readTensor tr infos s = .ok t s'

/-- It computes the bytes and the padding of a tensor. -/
def Measures (a : Nat) (t : Tensor) : Prop :=
  ∃ q infos s before i after, readFront tr q.1.nTensors ⟨file, ()⟩ = .ok (q, infos) s ∧ a = q.2.2 ∧
    infos = before ++ i :: after ∧ dataSize tr a before 0 = some i.offset ∧ t = i.t

/-- A context with distinct names whose tensors lie apart from each other in the data section. -/
structure Coherent (c : Ctx) : Prop where
  keys : (c.kv.map Kv.key).Nodup
  names : (c.info.map (·.t.name)).Nodup
  apart : c.info.Pairwise fun i j => i.offset + i.t.nbytes tr ≤ j.offset
  aligned : ∀ i ∈ c.info, c.alignment ∣ i.offset
  inside : ∀ i ∈ c.info, i.offset + i.t.nbytes tr ≤ c.size

/-- Nothing goes wrong, and no size overflows. -/
structure Safe : Prop where
  returns : initMeta tr file ≠ .error .aborted ∧ initFromFile tr file ≠ .error .aborted
  products : ∀ ne, Checks tr file ne → ∀ p ∈ products ne, p < 2 ^ 63
  strides : ∀ t, Strides tr file t → t.ne 0 * t.ne 1 * t.ne 2 * t.ne 3 < 2 ^ 63 ∧ t.nb = exactStrides tr t.type t.ne
  sizes : ∀ a t, Measures tr file a t → Sized tr a t
  size : ∀ c, initMeta tr file = .ok c →
    c.size = (c.info.map fun i => roundUp (exactBytes tr i.t.type i.t.ne) c.alignment).sum ∧
    ∃ n ≤ file.length, c.offset = roundUp n c.alignment
  context : ∀ c, initMeta tr file = .ok c → Coherent tr c
  loaded : ∀ l, initFromFile tr file = .ok l → Coherent tr l.ctx

/-- What the file must not hold: an empty key, an alignment that is not one `uint32`, a shape by which the reader divides by
zero, and a tensor with more bytes than a size holds. -/
structure Plain : Prop where
  keys : ∀ h ps rest, PairsIn file h ps rest → ∀ p ∈ ps, p.key ≠ []
  alignment : ∀ h ps rest, PairsIn file h ps rest → ps.length = h.nKv → TypedAlignment ps
  shapes : ∀ (h : Header) (ps : List Kv) (rs : List Record) (r : Record) (rest : Bytes),
    FrontIn file h ps (rs.flatMap Record.bytes ++ (r.shapeBytes ++ rest)) → RecordsOk tr [] rs → rs.length < h.nTensors →
    r.Shaped → r.cname ∉ rs.map Record.cname → ¬ DividesByZero r.ne
  strides : ∀ (h : Header) (ps : List Kv) (rs : List Record) (r : Record) (rest : Bytes),
    FrontIn file h ps (rs.flatMap Record.bytes ++ (r.shapeBytes ++ (leBytes 4 r.type ++ rest))) → RecordsOk tr [] rs →
    rs.length < h.nTensors → r.Typed tr → r.cname ∉ rs.map Record.cname → rowBytes tr r.type r.ne * r.ne 1 * r.ne 2 < 2 ^ 64
  sizes : ∀ (h : Header) (ps : List Kv) (before : List Record) (r : Record) (after : List Record) (rest : Bytes),
    FrontIn file h ps ((before ++ r :: after).flatMap Record.bytes ++ rest) → RecordsOk tr [] (before ++ r :: after) →
    (before ++ r :: after).length = h.nTensors → Placed tr (alignmentIn ps) before →
    r.offset = span tr (alignmentIn ps) before →
    tr.typeSize r.type * r.ne 0 < 2 ^ 64 ∧ exactBytes tr r.type r.ne + alignmentIn ps ≤ 2 ^ 64

end Runs

section Proof
variable {tr : Traits} {file : Bytes} {h : Header} {ps : List Kv} {rs : List Record} {rest : Bytes}

theorem alignmentIn_pos (hpow : Ctx.isPow2 (alignmentIn ps) = true) : 0 < alignmentIn ps := (of_decide_eq_true hpow).1

theorem alignmentIn_le (ps : List Kv) : alignmentIn ps ≤ 2 ^ 32 := by
  unfold alignmentIn
  cases alignmentPair ps with
  | none => decide
  | some p =>
      have hlt := ofLe_lt (p.data.take 4)
      have hpow : 256 ^ (p.data.take 4).length ≤ 256 ^ 4 := Nat.pow_le_pow_right (by decide) (List.length_take_le _ _)
      exact hlt.le.trans (hpow.trans (by norm_num))

theorem pairsOk_append {qs : List Kv} (hok : PairsOk [] (ps ++ qs)) : PairsOk [] ps where
  stored p hp := hok.stored p (List.mem_append_left qs hp)
  nodup := by
    have hn := hok.nodup
    rw [List.map_append] at hn
    exact (List.nodup_append.mp hn).1
  fresh p hp := hok.fresh p (List.mem_append_left qs hp)

/-- The pairs up to the first empty key. -/
theorem PairsIn.upTo {p : Kv} (hin : PairsIn file h ps rest) (hp : p ∈ ps) (hnil : p.key = []) :
    ∃ l rest', PairsIn file h (l ++ [p]) rest' ∧ ∀ q ∈ l, q.key ≠ [] := by
  obtain ⟨l, k, rfl⟩ := List.append_of_mem hp
  have hsplit : l ++ p :: k = (l ++ [p]) ++ k := by rw [List.append_assoc, List.singleton_append]
  refine ⟨l, k.flatMap Kv.stored ++ rest, ⟨hin.header, ?_, ?_, ?_⟩, fun q hq hc => ?_⟩
  · have hcount := hin.count
    rw [hsplit, List.length_append] at hcount
    omega
  · have hok := hin.pairs
    rw [hsplit] at hok
    exact pairsOk_append hok
  · rw [hin.file, hsplit, List.flatMap_append, List.append_assoc]
  · have hn := hin.pairs.nodup
    rw [List.map_append] at hn
    refine (List.nodup_append.mp hn).2.2 q.key (List.mem_map_of_mem hq) p.key ?_ (hc.trans hnil.symm)
    rw [List.map_cons]
    exact List.mem_cons_self

/-- The reader takes the pairs. -/
theorem FrontIn.taken (hin : FrontIn file h ps rest) (hkeys : ∀ h ps rest, PairsIn file h ps rest → ∀ p ∈ ps, p.key ≠ [])
    (halign : ∀ h ps rest, PairsIn file h ps rest → ps.length = h.nKv → TypedAlignment ps) : Taken ps :=
  ⟨hkeys h ps rest hin.toPairsIn, halign h ps rest hin.toPairsIn hin.all⟩

theorem initMeta_aborted_iff : initMeta tr file = .error .aborted ↔ ∃ s, readMeta tr ⟨file, ()⟩ = .error .aborted s := by
  unfold initMeta
  cases hm : readMeta tr ⟨file, ()⟩ with
  | error e s =>
      dsimp only
      constructor
      · intro heq
        cases heq
        exact ⟨s, rfl⟩
      · rintro ⟨s', heq⟩
        cases heq
        rfl
  | ok c s =>
      dsimp only
      constructor
      · intro heq
        split at heq <;> cases heq
      · rintro ⟨s', heq⟩
        cases heq

theorem initFromFile_aborted_iff : initFromFile tr file = .error .aborted ↔ initMeta tr file = .error .aborted := by
  rw [initFromFile_eq]
  cases initMeta tr file with
  | error e =>
      constructor
      · intro heq
        cases heq
        rfl
      · intro heq
        cases heq
        rfl
  | ok c =>
      refine iff_of_false (fun heq => ?_) (fun heq => (nomatch heq))
      change (if _ then _ else _) = _ at heq
      split at heq <;> cases heq

/-- **Where the reader does not stop the process.** -/
theorem returns_iff : (initMeta tr file ≠ .error .aborted ∧ initFromFile tr file ≠ .error .aborted) ↔
    (∀ h ps rest, PairsIn file h ps rest → ∀ p ∈ ps, p.key ≠ []) ∧
    (∀ h ps rest, PairsIn file h ps rest → ps.length = h.nKv → TypedAlignment ps) ∧
    ∀ (h : Header) (ps : List Kv) (rs : List Record) (r : Record) (rest : Bytes),
      FrontIn file h ps (rs.flatMap Record.bytes ++ (r.shapeBytes ++ rest)) → RecordsOk tr [] rs → rs.length < h.nTensors →
      r.Shaped → r.cname ∉ rs.map Record.cname → ¬ DividesByZero r.ne := by
  rw [ne_eq, ne_eq, initFromFile_aborted_iff, and_self, initMeta_aborted_iff, readMeta_aborts_iff]
  constructor
  · intro hno
    have hkeys : ∀ h ps rest, PairsIn file h ps rest → ∀ p ∈ ps, p.key ≠ [] := by
      intro h ps rest hin p hp hnil
      obtain ⟨l, rest', hin', hne⟩ := hin.upTo hp hnil
      exact hno (.inl ⟨h, l, p, rest', hin', hne, hnil⟩)
    have halign : ∀ h ps rest, PairsIn file h ps rest → ps.length = h.nKv → TypedAlignment ps := by
      intro h ps rest hin hall
      by_contra ht
      exact hno (.inr (.inl ⟨h, ps, rest, hin, hall, hkeys h ps rest hin, ht⟩))
    refine ⟨hkeys, halign, fun h ps rs r rest hin hrs hlt hr hfresh hzero => ?_⟩
    exact hno (.inr (.inr ⟨h, ps, rs, r, rest, hin, hin.taken hkeys halign, hlt, hrs, hr, hfresh,
      checkElements_aborted.mpr hzero⟩))
  · rintro ⟨hkeys, halign, hshapes⟩
    rintro (⟨h, ps, p, rest, hin, -, hnil⟩ | ⟨h, ps, rest, hin, hall, -, ht⟩ |
      ⟨h, ps, rs, r, rest, hin, -, hlt, hrs, hr, hfresh, hc⟩)
    · exact hkeys h _ rest hin p (List.mem_append_right ps (List.mem_singleton_self p)) hnil
    · exact ht (halign h ps rest hin hall)
    · exact hshapes h ps rs r rest hin hrs hlt hr hfresh (checkElements_aborted.mp hc)

/-- The tensors whose strides are computed. -/
theorem strides_iff {t : Tensor} : Strides tr file t ↔
    ∃ (h : Header) (ps : List Kv) (rs : List Record) (r : Record) (rest : Bytes),
      FrontIn file h ps (rs.flatMap Record.bytes ++ (r.shapeBytes ++ (leBytes 4 r.type ++ rest))) ∧ Taken ps ∧
      RecordsOk tr [] rs ∧ rs.length < h.nTensors ∧ r.Typed tr ∧ r.cname ∉ rs.map Record.cname ∧ t = r.tensor tr := by
  constructor
  · rintro ⟨k, q, infos, ⟨bs, _⟩, s', hlt, hfront, ht⟩
    obtain ⟨h, ps, rs, hin, htaken, rfl, hrs, rfl, rfl⟩ := readFront_iff.mp hfront
    obtain ⟨w, ⟨r, hr, hfresh, rfl, rfl⟩, hbs⟩ := (forms_tensor tr _).accepts.mp ht
    rw [names_info] at hfresh
    refine ⟨h, ps, rs, r, s'.bytes, ?_, htaken, hrs, hlt, hr, hfresh, rfl⟩
    have hassoc : r.shapeBytes ++ (leBytes 4 r.type ++ s'.bytes) = bs := by rw [hbs, List.append_assoc]
    rw [hassoc]
    exact hin
  · rintro ⟨h, ps, rs, r, rest, hin, htaken, hrs, hlt, hr, hfresh, rfl⟩
    refine ⟨rs.length, h.read ps, rs.map (Record.info tr), ⟨r.shapeBytes ++ (leBytes 4 r.type ++ rest), ()⟩, ⟨rest, ()⟩, hlt,
      readFront_iff.mpr ⟨h, ps, rs, hin, htaken, rfl, hrs, rfl, rfl⟩, (forms_tensor tr _).accepts.mpr ?_⟩
    rw [← names_info tr] at hfresh
    exact ⟨_, ⟨r, hr, hfresh, rfl, rfl⟩, (List.append_assoc _ _ _).symm⟩

/-- The tensors whose bytes are computed. -/
theorem measures_iff {a : Nat} {t : Tensor} : Measures tr file a t ↔
    ∃ (h : Header) (ps : List Kv) (before : List Record) (r : Record) (after : List Record) (rest : Bytes),
      FrontIn file h ps ((before ++ r :: after).flatMap Record.bytes ++ rest) ∧ Taken ps ∧
      RecordsOk tr [] (before ++ r :: after) ∧ (before ++ r :: after).length = h.nTensors ∧
      dataSize tr (alignmentIn ps) (before.map (Record.info tr)) 0 = some r.offset ∧ a = alignmentIn ps ∧
        t = r.tensor tr := by
  constructor
  · rintro ⟨q, infos, s, before, i, after, hfront, rfl, rfl, hsize, rfl⟩
    obtain ⟨h, ps, rs, hin, htaken, hlen, hrs, rfl, heq⟩ := readFront_iff.mp hfront
    obtain ⟨before, rs', rfl, rfl, hrest⟩ := List.map_eq_append_iff.mp heq.symm
    obtain ⟨r, after, rfl, rfl, rfl⟩ := List.map_eq_cons_iff.mp hrest
    exact ⟨h, ps, before, r, after, s.bytes, hin, htaken, hrs, hlen, hsize, rfl, rfl⟩
  · rintro ⟨h, ps, before, r, after, rest, hin, htaken, hrs, hlen, hsize, rfl, rfl⟩
    refine ⟨h.read ps, (before ++ r :: after).map (Record.info tr), ⟨rest, ()⟩, before.map (Record.info tr), r.info tr,
      after.map (Record.info tr), readFront_iff.mpr ⟨h, ps, _, hin, htaken, hlen, hrs, rfl, rfl⟩, rfl, ?_, hsize, rfl⟩
    rw [List.map_append, List.map_cons]

/-- How the reader gets to one of the tensors. -/
theorem RecordsOk.at {before after : List Record} {r : Record}
    (hin : FrontIn file h ps ((before ++ r :: after).flatMap Record.bytes ++ rest))
    (hrs : RecordsOk tr [] (before ++ r :: after))
    (hlen : (before ++ r :: after).length = h.nTensors) :
    ∃ rest', FrontIn file h ps (before.flatMap Record.bytes ++ (r.shapeBytes ++ (leBytes 4 r.type ++ rest'))) ∧
      RecordsOk tr [] before ∧ before.length < h.nTensors ∧ r.Typed tr ∧ r.cname ∉ before.map Record.cname := by
  have hn := hrs.nodup
  rw [List.map_append, List.map_cons] at hn
  refine ⟨leBytes 8 r.offset ++ (after.flatMap Record.bytes ++ rest), ?_, ⟨?_, ?_, ?_⟩, ?_, ?_, ?_⟩
  · have heq : (before ++ r :: after).flatMap Record.bytes ++ rest = before.flatMap Record.bytes ++ (r.shapeBytes ++
        (leBytes 4 r.type ++ (leBytes 8 r.offset ++ (after.flatMap Record.bytes ++ rest)))) := by
      rw [List.flatMap_append, List.flatMap_cons]
      unfold Record.bytes
      simp only [List.append_assoc]
    rw [← heq]
    exact hin
  · exact fun q hq => hrs.typed q (List.mem_append_left _ hq)
  · exact (List.nodup_append.mp hn).1
  · exact fun q hq => hrs.fresh q (List.mem_append_left _ hq)
  · rw [← hlen, List.length_append, List.length_cons]
    omega
  · exact (hrs.typed r (List.mem_append_right _ List.mem_cons_self)).1
  · exact fun hc => (List.nodup_append.mp hn).2.2 _ hc _ List.mem_cons_self rfl

/-- What a file without these defects gives. -/
theorem Plain.sized (hp : Plain tr file) (hblck : ∀ type, tr.blckSize type ≤ 2 ^ 64)
    (hin : FrontIn file h ps (rs.flatMap Record.bytes ++ rest)) (hrs : RecordsOk tr [] rs) (hlen : rs.length = h.nTensors) :
    ∀ before r after, rs = before ++ r :: after → Placed tr (alignmentIn ps) before →
      r.offset = span tr (alignmentIn ps) before → Sized tr (alignmentIn ps) (r.tensor tr) := by
  rintro before r after rfl hplaced ho
  -- the strides of the tensor were computed before
  obtain ⟨rest', hin', hbefore, hlt, ht, hfresh⟩ := RecordsOk.at hin hrs hlen
  have hstrides := hp.strides h ps before r rest' hin' hbefore hlt ht hfresh
  refine (nbytes_eq_iff (hblck r.type) ht.blck ht.rows ht.elements (alignmentIn_pos hin.pow2)
    ((alignmentIn_le ps).trans (by norm_num)) rfl rfl ((strides_eq_iff ht.elements).mpr hstrides)).mpr ?_
  exact hp.sizes h ps before r after rest hin hrs hlen hplaced ho

/-- **What the reader returns.** -/
theorem Plain.context (hp : Plain tr file) (hblck : ∀ type, tr.blckSize type ≤ 2 ^ 64) (hfile : file.length < 2 ^ 63)
    {c : Ctx}
    (hc : initMeta tr file = .ok c) :
    (c.size = (c.info.map fun i => roundUp (exactBytes tr i.t.type i.t.ne) c.alignment).sum ∧
      ∃ n ≤ file.length, c.offset = roundUp n c.alignment) ∧ Coherent tr c := by
  unfold initMeta at hc
  cases hm : readMeta tr ⟨file, ()⟩ with
  | error e s =>
      rw [hm] at hc
      cases hc
  | ok c' s =>
      rw [hm] at hc
      obtain ⟨h, ps, rs, hin, -, hlen, hrs, rfl⟩ := readMeta_iff.mp hm
      dsimp only at hc
      cases hsize : dataSize tr (alignmentIn ps) (rs.map (Record.info tr)) 0 with
      | none =>
          rw [hsize] at hc
          cases hc
      | some size =>
          rw [hsize] at hc
          cases hc
          have hsized := hp.sized hblck hin hrs hlen
          obtain ⟨hplaced, rfl⟩ := (dataSize_eq_some_iff hsized).mp hsize
          have hpos := alignmentIn_pos hin.pow2
          have hbytes : ∀ r ∈ rs, (r.tensor tr).nbytes tr = exactBytes tr r.type r.ne := by
            intro r hr
            obtain ⟨before, after, heq⟩ := List.append_of_mem hr
            have hbefore : Placed tr (alignmentIn ps) before := fun b q k hbk =>
              hplaced b q (k ++ r :: after) (by rw [heq, hbk, List.append_assoc, List.cons_append])
            exact (hsized before r after heq hbefore (hplaced before r after heq).1).1
          refine ⟨⟨?_, ?_⟩, ⟨?_, ?_, ?_, ?_, ?_⟩⟩
          · dsimp only
            rw [List.map_map]
            rfl
          · -- the position behind the last tensor
            have hle : file.length - s.bytes.length ≤ file.length := Nat.sub_le _ _
            have ha := alignmentIn_le ps
            exact ⟨_, hle, pad_eq (by norm_num at hfile ha ⊢; omega)⟩
          · dsimp only
            rw [List.map_map]
            have hkeys : Kv.key ∘ Kv.norm = Kv.key := funext Kv.key_norm
            rw [hkeys]
            exact hin.pairs.nodup
          · dsimp only
            have hnames := names_info tr rs
            unfold names at hnames
            rw [hnames]
            exact hrs.nodup
          · dsimp only
            rw [List.pairwise_map]
            refine (hplaced.pairwise hpos).imp_of_mem fun {r q} hr _ hle => ?_
            show r.offset + (r.tensor tr).nbytes tr ≤ q.offset
            rw [hbytes r hr]
            exact hle
          · dsimp only
            refine List.forall_mem_map.mpr fun r hr => ?_
            obtain ⟨before, after, heq⟩ := List.append_of_mem hr
            show alignmentIn ps ∣ r.offset
            rw [(hplaced before r after heq).1]
            exact dvd_span before
          · dsimp only
            refine List.forall_mem_map.mpr fun r hr => ?_
            show r.offset + (r.tensor tr).nbytes tr ≤ _
            rw [hbytes r hr]
            exact hplaced.inside hpos r hr

theorem Plain.safe (hp : Plain tr file) (hblck : ∀ type, tr.blckSize type ≤ 2 ^ 64) (hfile : file.length < 2 ^ 63) :
    Safe tr file where
  returns := returns_iff.mpr ⟨hp.keys, hp.alignment, hp.shapes⟩
  products := fun _ _ => products_lt
  strides := by
    intro t ht
    obtain ⟨h, ps, rs, r, rest, hin, -, hrs, hlt, hr, hfresh, rfl⟩ := strides_iff.mp ht
    refine ⟨(elements_lt hr.elements).2.2.2, (strides_eq_iff hr.elements).mpr ?_⟩
    exact hp.strides h ps rs r rest hin hrs hlt hr hfresh
  sizes := by
    intro a t hm
    obtain ⟨h, ps, before, r, after, rest, hin, -, hrs, hlen, hsize, rfl, rfl⟩ := measures_iff.mp hm
    have hsized := hp.sized hblck hin hrs hlen
    have hbefore : ∀ b q k, before = b ++ q :: k → Placed tr (alignmentIn ps) b → q.offset = span tr (alignmentIn ps) b →
        Sized tr (alignmentIn ps) (q.tensor tr) := fun b q k hbk => hsized b q (k ++ r :: after) (by
      rw [hbk, List.append_assoc, List.cons_append])
    obtain ⟨hplaced, ho⟩ := (dataSize_eq_some_iff hbefore).mp hsize
    exact hsized before r after rfl hplaced ho
  size := fun c hc => (hp.context hblck hfile hc).1
  context := fun c hc => (hp.context hblck hfile hc).2
  loaded := by
    intro l hl
    rw [initFromFile_eq] at hl
    cases hc : initMeta tr file with
    | error e =>
        rw [hc] at hl
        cases hl
    | ok c =>
        rw [hc] at hl
        have hcoherent := (hp.context hblck hfile hc).2
        change (if _ then _ else _) = _ at hl
        split at hl
        · cases hl
        · cases hl
          exact ⟨hcoherent.keys, hcoherent.names, hcoherent.apart, hcoherent.aligned, hcoherent.inside⟩

theorem Safe.plain (hs : Safe tr file) (hblck : ∀ type, tr.blckSize type ≤ 2 ^ 64) : Plain tr file := by
  obtain ⟨hkeys, halign, hshapes⟩ := returns_iff.mp hs.returns
  refine ⟨hkeys, halign, hshapes, ?_, ?_⟩
  · intro h ps rs r rest hin hrs hlt hr hfresh
    have ht : Strides tr file (r.tensor tr) :=
      strides_iff.mpr ⟨h, ps, rs, r, rest, hin, hin.taken hkeys halign, hrs, hlt, hr, hfresh, rfl⟩
    exact (strides_eq_iff hr.elements).mp (hs.strides _ ht).2
  · intro h ps before r after rest hin hrs hlen hplaced ho
    have htaken := hin.taken hkeys halign
    -- a tensor behind others that the reader has measured is measured
    have hsized : ∀ b q k, before ++ r :: after = b ++ q :: k →
        dataSize tr (alignmentIn ps) (b.map (Record.info tr)) 0 = some q.offset →
          Sized tr (alignmentIn ps) (q.tensor tr) := by
      intro b q k heq hsize
      refine hs.sizes _ _ (measures_iff.mpr ⟨h, ps, b, q, k, rest, ?_, htaken, ?_, ?_, hsize, rfl, rfl⟩)
      · rw [← heq]
        exact hin
      · rw [← heq]
        exact hrs
      · rw [← heq]
        exact hlen
    have hprefix : ∀ n (l k : List Record), l.length = n → before = l ++ k →
        dataSize tr (alignmentIn ps) (l.map (Record.info tr)) 0 = some (span tr (alignmentIn ps) l) := by
      intro n
      induction n using Nat.strong_induction_on with
      | _ n ih =>
          rintro l k rfl rfl
          refine (dataSize_eq_some_iff fun b q k' heq _ ho' => ?_).mpr ⟨?_, rfl⟩
          · refine hsized b q (k' ++ k ++ r :: after) ?_ ?_
            · rw [heq]
              simp only [List.append_assoc, List.cons_append]
            · rw [ho']
              refine ih b.length ?_ b (q :: k' ++ k) rfl ?_
              · rw [heq, List.length_append, List.length_cons]
                omega
              · rw [heq, List.append_assoc]
          · intro b q k' heq
            exact hplaced b q (k' ++ k) (by rw [heq, List.append_assoc, List.cons_append])
    obtain ⟨rest', hin', hbefore, hlt, ht, hfresh⟩ := RecordsOk.at hin hrs hlen
    have hstrides : Strides tr file (r.tensor tr) :=
      strides_iff.mpr ⟨h, ps, before, r, rest', hin', htaken, hbefore, hlt, ht, hfresh, rfl⟩
    have hr : Sized tr (alignmentIn ps) (r.tensor tr) := by
      refine hsized before r after rfl ?_
      rw [ho]
      exact hprefix before.length before [] rfl (List.append_nil before).symm
    exact (nbytes_eq_iff (hblck r.type) ht.blck ht.rows ht.elements (alignmentIn_pos hin.pow2)
      ((alignmentIn_le ps).trans (by norm_num)) rfl rfl (hs.strides _ hstrides).2).mp hr

end Proof

/-- A file with nothing but a header. -/
def noTensors : Bytes := (⟨3, 0, 0⟩ : Header).bytes

/-- A file with one tensor, whose second dimension is 0. -/
def zeroDim : Bytes := (⟨3, 1, 0⟩ : Header).bytes ++ (⟨ascii ['a'], [1, 0], 0, 0⟩ : Record).bytes

end S2Moe.Gguf
