import S2Moe.Kv.Decode

/-!
# The attention mask

* `ggmlPad`, `nPad`, `Cache.nKv` : how many cells the mask looks at;
* `Cache.setInputKqMask` : the mask behind `apply_ubatch`, a row for each token of the ubatch. `none` is minus infinity;
* `Cache.setInputKqMask_isSome` : a used cell is in sight of a token exactly when it is of the token's first sequence and
  not at a later position.
-/

namespace S2Moe.Kv

/-- `GGML_PAD`, in 32 bits. -/
def ggmlPad (x n : Nat) : Nat := ((x + n - 1) % 2 ^ 32) &&& (2 ^ 32 - 1 - (n - 1))

/-- `get_padding`. -/
def nPad (flashAttn : Bool) : Nat := if flashAttn then 256 else 32

namespace Cache
variable {D : Type}

/-- `get_n_kv`, for one stream. -/
def nKv (c : Cache D) (pad : Nat) : Nat := min c.cells.size (max pad (ggmlPad c.cells.usedMaxP1 pad))

/-- What is written for the cell `j` in the row of the token `r`. -/
def maskEntry (c : Cache D) (causal alibi : Bool) (r : Row D) (j : Nat) : Option Int :=
  if c.cells.isEmpty j then none
  else if ¬ c.cells.seqHas j (r.ids.headD 0) then none
  else if causal ∧ r.pos < (c.cells.cell j).pos then none
  else some (if alibi then -|(c.cells.cell j).pos - r.pos| else 0)

/-- `set_input_kq_mask` with no sliding window: the entry in row `i`, column `j`. Rows behind the tokens are padding. -/
def setInputKqMask (c : Cache D) (pad : Nat) (causal alibi : Bool) (ubatch : List (Row D)) (i j : Nat) : Option Int :=
  match ubatch[i]? with
  | none => none
  | some r => if j < c.nKv pad then c.maskEntry causal alibi r j else none

end Cache

/-! ## The cells the mask looks at -/

theorem land_high {y k : Nat} (hy : y < 2 ^ 32) (hk : k ≤ 32) :
    y &&& (2 ^ 32 - 1 - (2 ^ k - 1)) = y / 2 ^ k * 2 ^ k := by
  have hpos : 0 < 2 ^ k := Nat.two_pow_pos k
  have hle : 2 ^ k ≤ 2 ^ 32 := Nat.pow_le_pow_right (by norm_num) hk
  have hmask : 2 ^ 32 - 1 - (2 ^ k - 1) = 2 ^ 32 - ((2 ^ k - 1) + 1) := by omega
  apply Nat.eq_of_testBit_eq
  intro i
  rw [hmask, Nat.testBit_and, Nat.testBit_two_pow_sub_succ (by omega), Nat.testBit_two_pow_sub_one,
    Nat.testBit_mul_two_pow, Nat.testBit_div_two_pow]
  by_cases hi : i < 32
  · by_cases hik : i < k
    · simp [hik]
    · have hsum : i - k + k = i := by omega
      simp [hi, hik, hsum, Nat.le_of_not_lt hik]
  · have hbit : y.testBit i = false := by
      apply Nat.testBit_lt_two_pow
      calc y < 2 ^ 32 := hy
        _ ≤ 2 ^ i := Nat.pow_le_pow_right (by norm_num) (by omega)
    have hsum : i - k + k = i := by omega
    simp [hbit, hsum]

theorem le_ggmlPad {x k : Nat} (hk : k ≤ 32) (hx : x + 2 ^ k ≤ 2 ^ 32) : x ≤ ggmlPad x (2 ^ k) := by
  have hpos : 0 < 2 ^ k := Nat.two_pow_pos k
  unfold ggmlPad
  rw [Nat.mod_eq_of_lt (by omega), land_high (by omega) hk]
  have hdiv := Nat.div_add_mod (x + 2 ^ k - 1) (2 ^ k)
  have hmod := Nat.mod_lt (x + 2 ^ k - 1) hpos
  rw [Nat.mul_comm] at hdiv
  omega

theorem nPad_eq (flashAttn : Bool) : ∃ k ≤ 8, nPad flashAttn = 2 ^ k := by
  cases flashAttn with
  | false => exact ⟨5, by omega, rfl⟩
  | true => exact ⟨8, by omega, rfl⟩

/-- What the constructor of the cache asserts, and the type of `kv_size`. -/
structure Cache.Sized {D : Type} (c : Cache D) (flashAttn : Bool) : Prop where
  dvd : nPad flashAttn ∣ c.cells.size
  lt : c.cells.size < 2 ^ 32

section Mask
variable {D : Type} {c : Cache D} {flashAttn : Bool}

theorem Rep.usedMaxP1_le {d : Cells} (h : Rep d) : d.usedMaxP1 ≤ d.size := by
  apply Finset.sup_le
  intro i hi
  exact ((h.used_iff i).mp hi).1

/-- No used cell is left out. -/
theorem Cache.Sized.lt_nKv (hs : c.Sized flashAttn) (hrep : Rep c.cells) {j : Nat} (hj : j < c.cells.size)
    (hp : (c.cells.cell j).pos ≠ -1) : j < c.nKv (nPad flashAttn) := by
  obtain ⟨k, hk, hpad⟩ := nPad_eq flashAttn
  have hmax : j + 1 ≤ c.cells.usedMaxP1 := Finset.le_sup (f := (· + 1)) ((hrep.used_iff j).mpr ⟨hj, hp⟩)
  -- the size is a multiple of the padding, so that the sum does not wrap
  have hroom : c.cells.size + 2 ^ k ≤ 2 ^ 32 := by
    obtain ⟨q, hq⟩ := hs.dvd
    have hlt := hs.lt
    have htot : (2 : Nat) ^ 32 = 2 ^ k * 2 ^ (32 - k) := by
      rw [← pow_add]
      congr 1
      omega
    rw [hpad] at hq
    rw [hq, htot] at hlt ⊢
    have hlt' : q < 2 ^ (32 - k) := Nat.lt_of_mul_lt_mul_left hlt
    calc 2 ^ k * q + 2 ^ k = 2 ^ k * (q + 1) := by ring
      _ ≤ 2 ^ k * 2 ^ (32 - k) := Nat.mul_le_mul_left _ hlt'
  have hle := le_ggmlPad (x := c.cells.usedMaxP1) (k := k) (by omega) (by have := hrep.usedMaxP1_le; omega)
  unfold Cache.nKv
  rw [hpad]
  exact lt_min hj (lt_of_lt_of_le (by omega) (le_max_right _ _))

/-- The cells in sight of a token. -/
theorem Cache.setInputKqMask_isSome (hs : c.Sized flashAttn) (hrep : Rep c.cells) {ubatch : List (Row D)} {r : Row D}
    {i s : Nat} (hr : ubatch[i]? = some r) (hid : r.ids.head? = some s) (alibi : Bool) (j : Nat) :
    (c.setInputKqMask (nPad flashAttn) true alibi ubatch i j).isSome ↔
      j < c.cells.size ∧ s ∈ (c.cells.cell j).seq ∧ (c.cells.cell j).pos ≤ r.pos := by
  have hhead : r.ids.headD 0 = s := by
    rw [List.headD_eq_head?_getD, hid, Option.getD_some]
  have hentry : (c.maskEntry true alibi r j).isSome ↔
      (c.cells.cell j).pos ≠ -1 ∧ s ∈ (c.cells.cell j).seq ∧ (c.cells.cell j).pos ≤ r.pos := by
    unfold Cache.maskEntry Cells.isEmpty Cells.seqHas
    rw [hhead]
    by_cases hp : (c.cells.cell j).pos = -1
    · simp [hp]
    · by_cases hmem : s ∈ (c.cells.cell j).seq
      · by_cases hle : (c.cells.cell j).pos ≤ r.pos
        · simp [hp, hmem, hle]
        · simp [hp, hmem, hle]
      · simp [hp, hmem]
  unfold Cache.setInputKqMask
  rw [hr]
  dsimp only
  constructor
  · intro h
    split at h
    · rename_i hlt
      exact ⟨lt_of_lt_of_le hlt (min_le_left _ _), (hentry.mp h).2⟩
    · cases h
  · rintro ⟨hj, hmem, hle⟩
    have hp : (c.cells.cell j).pos ≠ -1 := hrep.pos_ne hj hmem
    rw [if_pos (hs.lt_nKv hrep hj hp)]
    exact hentry.mpr ⟨hp, hmem, hle⟩

end Mask

end S2Moe.Kv
