import Mathlib.Data.List.Sort
import S2Moe.Lib.Greedy
import S2Moe.Lib.Run

/-!
# `configure_ssd_budget`: which experts stay resident

Sizes are `uint64_t` and wrap around; a subtraction below zero is an error of its own.

* `Weight` : what is read of a tensor; `Weight.size` : its padded bytes; `parseSplitExpertName` : the expert in its name;
* `account` : the bytes that all runs need, and those of each expert's bundle;
* `placeExplicit`, `placeFallback`, `configureSsdBudget` : the hot list that is given, or the bundles that fit, in the
order of the experts;
* `denseBytes`, `bundleBytes`, `bundleKeys` : the same sizes without a wrap around;
* `account_eq`, `placeExplicit_eq`, `placeFallback_eq` : one lemma a function; the fallback fills the room greedily;
* `configureSsdBudget_spec` : a placement fits, an explicit list is refused for no other reason, and the fallback takes
whole bundles, as many as fit, and as many of one layer as of another.
-/

namespace S2Moe.Ssd.Budget
open S2Moe.Lib

/-- A layer and an expert. -/
abbrev Key := Int × Int

inductive Error where
  | invalidArgument (text : String)
  /-- `std::stoi` -/
  | outOfRange
  | underflow
deriving DecidableEq

/-- `ggml_type` -/
structure GgmlType where
  typeSize : Nat
  blckSize : Nat
  isQuantized : Bool

structure Weight where
  name : String
  type : GgmlType
  ne0 : Nat
  nbytes : Nat

/-- `ggml_row_size` -/
def rowSize (t : GgmlType) (ne : Nat) : Nat := t.typeSize * ne / t.blckSize

/-- The bytes of the tensor, with the padding of its last row. -/
def Weight.payload (w : Weight) : Nat :=
  if w.type.isQuantized ∧ w.ne0 % 512 ≠ 0 then w.nbytes + rowSize w.type (512 - w.ne0 % 512) else w.nbytes

def Weight.size (w : Weight) : Nat := (w.payload % 2 ^ 64 + 511) % 2 ^ 64 / 512 * 512

/-! ## Names -/

/-- What is left behind the text `p`. -/
def eat : List Char → List Char → Option (List Char)
  | [], s => some s
  | _ :: _, [] => none
  | c :: p, d :: s => if c = d then eat p s else none

def isDigit (c : Char) : Bool := decide ('0' ≤ c ∧ c ≤ '9')

/-- The number before the first other character. -/
def eatDigits (s : List Char) : Option (Nat × List Char) :=
  match s.span isDigit with
  | ([], _) => none
  | (ds, rest) => some (ds.foldl (fun n c => 10 * n + (c.toNat - '0'.toNat)) 0, rest)

/-- `blk.(number).ffn_(gate|up|down).(number).weight` -/
def matchName (s : List Char) : Option (Nat × Nat) := do
  let s ← eat "blk.".toList s
  let (layer, s) ← eatDigits s
  let s ← eat ".ffn_".toList s
  let s ← (eat "gate".toList s <|> eat "up".toList s <|> eat "down".toList s)
  let s ← eat ".".toList s
  let (expert, s) ← eatDigits s
  let s ← eat ".weight".toList s
  if s = [] then some (layer, expert) else none

def parseSplitExpertName (name : String) : Except Error (Option Key) :=
  match matchName name.toList with
  | none => .ok none
  | some (layer, expert) =>
    if layer < 2 ^ 31 ∧ expert < 2 ^ 31 then .ok (some (layer, expert)) else .error .outOfRange

/-! ## Accounts -/

/-- `bundles` : the experts that the model has, and the bytes of each. -/
structure Bundles where
  keys : List Key := []
  size : Key → Nat := fun _ => 0

def Bundles.add (b : Bundles) (k : Key) (bytes : Nat) : Bundles where
  keys := if k ∈ b.keys then b.keys else b.keys ++ [k]
  size := Function.update b.size k ((b.size k + bytes) % 2 ^ 64)

def account : List Weight → Nat → Bundles → Except Error (Nat × Bundles)
  | [], dense, b => .ok (dense, b)
  | w :: ws, dense, b =>
    (parseSplitExpertName w.name).bind fun
      | some k => account ws dense (b.add k w.size)
      | none => account ws ((dense + w.size) % 2 ^ 64) b

/-- `bytes - dense - hot` -/
def room (bytes dense hot : Nat) : Except Error Nat :=
  if dense ≤ bytes ∧ hot ≤ bytes - dense then .ok (bytes - dense - hot) else .error .underflow

/-- A `std::set`. -/
structure Indices where
  keys : List Key := []
  nodup : keys.Nodup := by decide

def Indices.insert (s : Indices) (k : Key) : Indices :=
  if h : k ∈ s.keys then s else ⟨k :: s.keys, List.nodup_cons.mpr ⟨h, s.nodup⟩⟩

def placeExplicit (bytes dense : Nat) (b : Bundles) : List Key → Nat → Except Error Nat
  | [], hot => .ok hot
  | k :: ks, hot =>
    if k ∉ b.keys then .error (.invalidArgument "hot expert absent from model")
    else
      (room bytes dense hot).bind fun r =>
        if r < b.size k then .error (.invalidArgument "hot-expert list exceeds SSD weight budget")
        else placeExplicit bytes dense b ks ((hot + b.size k) % 2 ^ 64)

def placeFallback (bytes dense : Nat) (b : Bundles) : List Key → Indices → Nat → Except Error Indices
  | [], s, _ => .ok s
  | k :: ks, s, hot =>
    (room bytes dense hot).bind fun r =>
      if b.size k ≤ r then placeFallback bytes dense b ks (s.insert k) ((hot + b.size k) % 2 ^ 64)
      else placeFallback bytes dense b ks s hot

/-- By expert, and by layer within an expert. -/
def KeyLe (x y : Key) : Prop := x.2 < y.2 ∨ x.2 = y.2 ∧ x.1 ≤ y.1

instance (x y : Key) : Decidable (KeyLe x y) := inferInstanceAs (Decidable (_ ∨ _))

def order (b : Bundles) : List Key := b.keys.insertionSort KeyLe

/-- `ssd` : the model is a Qwen hybrid in SSD mode. -/
def configureSsdBudget (ssd : Bool) (ws : List Weight) (bytes : UInt64) (explicitHotList : Bool) (s : Indices) :
    Except Error Indices :=
  if bytes = 0 then .ok s
  else if !ssd then .error (.invalidArgument "SSD weight budget requires a Qwen hybrid model in SSD mode")
  else
    (account ws 0 {}).bind fun (dense, b) =>
      if bytes.toNat < dense then .error (.invalidArgument "SSD budget cannot hold all non-routed weights")
      else if explicitHotList then (placeExplicit bytes.toNat dense b s.keys 0).map fun _ => s
      else placeFallback bytes.toNat dense b (order b) s 0

/-! ## Sizes -/

def Weight.padded (w : Weight) : Nat := (w.payload + 511) / 512 * 512

theorem Weight.size_eq {w : Weight} (h : w.padded < 2 ^ 64) : w.size = w.padded := by
  unfold Weight.padded at h ⊢
  unfold Weight.size
  omega

/-- The expert that a name says, when its numbers are numbers of the program. -/
def splitKey (w : Weight) : Option Key :=
  match parseSplitExpertName w.name with
  | .ok k => k
  | .error _ => none

def denseBytes (ws : List Weight) : Nat := ((ws.filter fun w => decide (splitKey w = none)).map Weight.padded).sum

def bundleBytes (ws : List Weight) (k : Key) : Nat :=
  ((ws.filter fun w => decide (splitKey w = some k)).map Weight.padded).sum

def bundleKeys (ws : List Weight) : List Key := ws.filterMap splitKey

theorem denseBytes_cons (w : Weight) (ws : List Weight) :
    denseBytes (w :: ws) = (if splitKey w = none then w.padded else 0) + denseBytes ws := by
  unfold denseBytes
  rw [List.filter_cons]
  simp only [decide_eq_true_eq]
  split
  · rw [List.map_cons, List.sum_cons]
  · rw [Nat.zero_add]

theorem bundleBytes_cons (w : Weight) (ws : List Weight) (k : Key) :
    bundleBytes (w :: ws) k = (if splitKey w = some k then w.padded else 0) + bundleBytes ws k := by
  unfold bundleBytes
  rw [List.filter_cons]
  simp only [decide_eq_true_eq]
  split
  · rw [List.map_cons, List.sum_cons]
  · rw [Nat.zero_add]

theorem parseSplitExpertName_error {name : String} {e : Error} (h : parseSplitExpertName name = .error e) :
    e = .outOfRange := by
  unfold parseSplitExpertName at h
  split at h
  · cases h
  · split at h
    · cases h
    · cases h
      rfl

/-! ## Accounts -/

/-- What `account` adds to the sizes and bundles that it starts from. -/
structure Accounted (ws : List Weight) (dense : Nat) (b : Bundles) (r : Nat × Bundles) : Prop where
  dense : r.1 = dense + denseBytes ws
  size : ∀ k, r.2.size k = b.size k + bundleBytes ws k
  keys : ∀ k, k ∈ r.2.keys ↔ k ∈ b.keys ∨ k ∈ bundleKeys ws
  nodup : b.keys.Nodup → r.2.keys.Nodup

theorem Bundles.mem_add {b : Bundles} {k j : Key} {bytes : Nat} : j ∈ (b.add k bytes).keys ↔ j ∈ b.keys ∨ j = k := by
  unfold Bundles.add
  dsimp only
  split
  · rename_i hk
    exact ⟨.inl, fun h => h.elim id fun hj => hj ▸ hk⟩
  · rw [List.mem_append, List.mem_singleton]

theorem Bundles.nodup_add {b : Bundles} (h : b.keys.Nodup) (k : Key) (bytes : Nat) : (b.add k bytes).keys.Nodup := by
  unfold Bundles.add
  dsimp only
  split
  · exact h
  · rename_i hk
    rw [List.nodup_append]
    refine ⟨h, List.nodup_singleton k, fun i hi j hj hij => hk ?_⟩
    rwa [← List.mem_singleton.mp hj, ← hij]

/-- With all bytes below `2 ^ 64` nothing wraps around. -/
theorem account_eq : ∀ (ws : List Weight) (dense : Nat) (b : Bundles) {r : Nat × Bundles},
    account ws dense b = .ok r → dense + (ws.map Weight.padded).sum < 2 ^ 64 →
    (∀ k, b.size k + (ws.map Weight.padded).sum < 2 ^ 64) → Accounted ws dense b r
  | [], dense, b, r, h, _, _ => by
    cases h
    refine ⟨rfl, fun k => rfl, fun k => ?_, id⟩
    exact ⟨.inl, fun h => h.elim id fun hk => absurd hk List.not_mem_nil⟩
  | w :: ws, dense, b, r, h, hdense, hsize => by
    rw [List.map_cons, List.sum_cons] at hdense
    simp only [List.map_cons, List.sum_cons] at hsize
    have hw : w.size = w.padded := Weight.size_eq (by omega)
    rw [account] at h
    cases hname : parseSplitExpertName w.name with
    | error e =>
        rw [hname] at h
        cases h
    | ok key =>
        have hkey : splitKey w = key := by
          unfold splitKey
          rw [hname]
        rw [hname] at h
        cases key with
        | none =>
            change account ws ((dense + w.size) % 2 ^ 64) b = .ok r at h
            rw [hw, Nat.mod_eq_of_lt (by omega)] at h
            have hrest := account_eq ws _ _ h (by omega) fun k => by
              have := hsize k
              omega
            refine ⟨?_, fun k => ?_, fun k => ?_, hrest.nodup⟩
            · rw [hrest.dense, denseBytes_cons, if_pos hkey, Nat.add_assoc]
            · rw [hrest.size, bundleBytes_cons, if_neg (by rw [hkey]; exact fun hc => by cases hc), Nat.zero_add]
            · rw [hrest.keys]
              unfold bundleKeys
              rw [List.filterMap_cons_none hkey]
        | some key =>
            change account ws dense (b.add key w.size) = .ok r at h
            rw [hw] at h
            have hadd : ∀ k, (b.add key w.padded).size k = b.size k + if key = k then w.padded else 0 := by
              intro k
              have hk := hsize k
              unfold Bundles.add
              dsimp only
              by_cases hkk : key = k
              · subst hkk
                rw [Function.update_self, if_pos rfl, Nat.mod_eq_of_lt (by omega)]
              · rw [Function.update_of_ne (Ne.symm hkk), if_neg hkk, Nat.add_zero]
            have hrest := account_eq ws _ _ h (by omega) fun k => by
              have hk := hsize k
              rw [hadd]
              split <;> omega
            refine ⟨?_, fun k => ?_, fun k => ?_, fun hnodup => hrest.nodup (Bundles.nodup_add hnodup _ _)⟩
            · rw [hrest.dense, denseBytes_cons, if_neg (by rw [hkey]; exact fun hc => by cases hc), Nat.zero_add]
            · rw [hrest.size, hadd, bundleBytes_cons, hkey]
              simp only [Option.some.injEq]
              rw [Nat.add_assoc]
            · rw [hrest.keys, Bundles.mem_add]
              unfold bundleKeys
              rw [List.filterMap_cons_some hkey, List.mem_cons, or_assoc]

theorem account_ok : ∀ (ws : List Weight) (dense : Nat) (b : Bundles),
    (∀ w ∈ ws, ∃ k, parseSplitExpertName w.name = .ok k) → ∃ r, account ws dense b = .ok r
  | [], dense, b, _ => ⟨(dense, b), rfl⟩
  | w :: ws, dense, b, h => by
    obtain ⟨key, hname⟩ := h w List.mem_cons_self
    have hws : ∀ v ∈ ws, ∃ k, parseSplitExpertName v.name = .ok k := fun v hv => h v (List.mem_cons_of_mem _ hv)
    rw [account, hname]
    cases key with
    | none => exact account_ok ws _ b hws
    | some key => exact account_ok ws dense _ hws

theorem account_error : ∀ (ws : List Weight) (dense : Nat) (b : Bundles) {e : Error},
    account ws dense b = .error e → e = .outOfRange
  | [], _, _, _, h => by cases h
  | w :: ws, dense, b, e, h => by
    rw [account] at h
    cases hname : parseSplitExpertName w.name with
    | error e' =>
        rw [hname] at h
        cases h
        exact parseSplitExpertName_error hname
    | ok key =>
        rw [hname] at h
        cases key with
        | none => exact account_error ws _ b h
        | some key => exact account_error ws dense _ h

/-! ## Placements -/

section Place
variable {bytes dense : Nat} {b : Bundles}

theorem room_eq {hot : Nat} (h : dense + hot ≤ bytes) : room bytes dense hot = .ok (bytes - dense - hot) := by
  unfold room
  rw [if_pos ⟨by omega, by omega⟩]

/-- A list is refused when an expert is not there, or when it does not fit. -/
theorem placeExplicit_eq (hbytes : bytes < 2 ^ 64) : ∀ (ks : List Key) (hot : Nat), dense + hot ≤ bytes →
    if (∀ k ∈ ks, k ∈ b.keys) ∧ dense + hot + (ks.map b.size).sum ≤ bytes then
      placeExplicit bytes dense b ks hot = .ok (hot + (ks.map b.size).sum)
    else ∃ text, placeExplicit bytes dense b ks hot = .error (.invalidArgument text)
  | [], hot, h => by
    rw [if_pos ⟨fun k hk => absurd hk List.not_mem_nil, h⟩]
    rfl
  | k :: ks, hot, h => by
    rw [placeExplicit, room_eq h, List.map_cons, List.sum_cons]
    by_cases hk : k ∈ b.keys
    · rw [if_neg (not_not.mpr hk)]
      change if _ then (if bytes - dense - hot < b.size k then _ else _) = _ else ∃ text, (if _ then _ else _) = _
      by_cases hfit : bytes - dense - hot < b.size k
      · rw [if_pos hfit, if_neg (fun hc => by omega)]
        exact ⟨_, rfl⟩
      · rw [if_neg hfit, Nat.mod_eq_of_lt (by omega)]
        have hrest := placeExplicit_eq hbytes ks (hot + b.size k) (by omega)
        have hiff : ((∀ j ∈ k :: ks, j ∈ b.keys) ∧ dense + hot + (b.size k + (ks.map b.size).sum) ≤ bytes) ↔
            (∀ j ∈ ks, j ∈ b.keys) ∧ dense + (hot + b.size k) + (ks.map b.size).sum ≤ bytes := by
          rw [List.forall_mem_cons, show dense + hot + (b.size k + (ks.map b.size).sum) =
            dense + (hot + b.size k) + (ks.map b.size).sum by omega]
          exact ⟨fun hc => ⟨hc.1.2, hc.2⟩, fun hc => ⟨⟨hk, hc.1⟩, hc.2⟩⟩
        rw [if_congr hiff rfl rfl, ← Nat.add_assoc hot]
        exact hrest
    · rw [if_pos hk, if_neg (fun hc => hk (hc.1 k List.mem_cons_self))]
      exact ⟨_, rfl⟩

theorem Indices.mem_insert {s : Indices} {k j : Key} : j ∈ (s.insert k).keys ↔ j ∈ s.keys ∨ j = k := by
  unfold Indices.insert
  split
  · rename_i hk
    exact ⟨.inl, fun h => h.elim id fun hj => hj ▸ hk⟩
  · rw [List.mem_cons, or_comm]

/-- The fallback fills the room greedily. -/
theorem placeFallback_eq (hbytes : bytes < 2 ^ 64) : ∀ (ks : List Key) (s : Indices) (hot : Nat), dense + hot ≤ bytes →
    placeFallback bytes dense b ks s hot = .ok ((fill b.size (bytes - dense - hot) ks).foldl Indices.insert s)
  | [], _, _, _ => rfl
  | k :: ks, s, hot, h => by
    rw [placeFallback, room_eq h, fill]
    change (if b.size k ≤ bytes - dense - hot then _ else _) = _
    by_cases hfit : b.size k ≤ bytes - dense - hot
    · rw [if_pos hfit, if_pos hfit, Nat.mod_eq_of_lt (by omega), placeFallback_eq hbytes ks _ _ (by omega),
        List.foldl_cons, Nat.sub_sub (bytes - dense)]
    · rw [if_neg hfit, if_neg hfit, placeFallback_eq hbytes ks s hot h]

theorem mem_foldl_insert {j : Key} : ∀ (ks : List Key) (s : Indices),
    j ∈ (ks.foldl Indices.insert s).keys ↔ j ∈ s.keys ∨ j ∈ ks
  | [], s => ⟨.inl, fun h => h.elim id fun hj => absurd hj List.not_mem_nil⟩
  | k :: ks, s => by
    rw [List.foldl_cons, mem_foldl_insert ks, Indices.mem_insert, List.mem_cons, or_assoc]

end Place

/-! ## The order -/

theorem KeyLe.total (x y : Key) : KeyLe x y ∨ KeyLe y x := by
  unfold KeyLe
  omega

theorem KeyLe.trans {x y z : Key} (hxy : KeyLe x y) (hyz : KeyLe y z) : KeyLe x z := by
  unfold KeyLe at *
  omega

instance : Std.Total KeyLe := ⟨KeyLe.total⟩
instance : IsTrans Key KeyLe := ⟨fun _ _ _ => KeyLe.trans⟩

theorem order_perm (b : Bundles) : (order b).Perm b.keys := List.perm_insertionSort _ _

theorem order_pairwise (b : Bundles) : (order b).Pairwise KeyLe := List.pairwise_insertionSort _ _

/-! ## Placements of a model -/

/-- The dense bytes and the bundles of `ks` fit. -/
def Fits (ws : List Weight) (bytes : Nat) (ks : List Key) : Prop :=
  denseBytes ws + (ks.map (bundleBytes ws)).sum ≤ bytes

instance (ws : List Weight) (bytes : Nat) (ks : List Key) : Decidable (Fits ws bytes ks) :=
  inferInstanceAs (Decidable (_ ≤ _))

/-- How many experts of a layer are resident. -/
def residents (s : Indices) (layer : Int) : Nat := (s.keys.filter fun k => decide (k.1 = layer)).length

/-- What the fallback chooses: whole bundles that fit, with none left that would still fit, and of equal bundles in equal
layers as many of one layer as of another, up to one. -/
structure Placement (ws : List Weight) (bytes : Nat) (s : Indices) : Prop where
  fits : Fits ws bytes s.keys
  whole : ∀ k ∈ s.keys, k ∈ bundleKeys ws
  maximal : ∀ k ∈ bundleKeys ws, k ∉ s.keys → ¬ Fits ws bytes (k :: s.keys)
  balanced : (∀ j ∈ bundleKeys ws, ∀ k ∈ bundleKeys ws, bundleBytes ws j = bundleBytes ws k) →
    (∀ l m e f, (l, e) ∈ bundleKeys ws → (m, f) ∈ bundleKeys ws → (m, e) ∈ bundleKeys ws) →
    ∀ l m, (∃ e, (l, e) ∈ bundleKeys ws) → (∃ e, (m, e) ∈ bundleKeys ws) → residents s l ≤ residents s m + 1

theorem residents_eq (s : Indices) (layer : Int) :
    residents s layer = (s.keys.toFinset.filter fun k => k.1 = layer).card := by
  unfold residents
  rw [← List.toFinset_card_of_nodup (s.nodup.filter _), List.toFinset_filter]
  simp only [decide_eq_true_eq]

/-- The selection from an empty list, in terms of the items that a greedy filling takes. -/
theorem Placement.of_fill {ws : List Weight} {bytes : Nat} {r : Nat × Bundles} (hr : Accounted ws 0 {} r)
    (hdense : r.1 ≤ bytes) {s : Indices} (hs : ∀ k, k ∈ s.keys ↔ k ∈ fill r.2.size (bytes - r.1) (order r.2)) :
    Placement ws bytes s := by
  have hsize : r.2.size = bundleBytes ws := funext fun k => (hr.size k).trans (Nat.zero_add _)
  have hkeys : ∀ k, k ∈ order r.2 ↔ k ∈ bundleKeys ws := fun k =>
    (order_perm r.2).mem_iff.trans ((hr.keys k).trans (or_iff_right List.not_mem_nil))
  have hdense' : r.1 = denseBytes ws := hr.dense.trans (Nat.zero_add _)
  have hnodup : (order r.2).Nodup := (order_perm r.2).nodup_iff.mpr (hr.nodup List.nodup_nil)
  rw [hsize, hdense'] at hs
  have hperm : s.keys.Perm (fill (bundleBytes ws) (bytes - denseBytes ws) (order r.2)) :=
    (List.perm_ext_iff_of_nodup s.nodup ((fill_sublist _ _ _).nodup hnodup)).mpr hs
  have hsum := (hperm.map (bundleBytes ws)).sum_eq
  refine ⟨?_, fun k hk => ?_, fun k hk hnot => ?_, fun heq hgrid l m _ hm => ?_⟩
  · have hle := sum_fill_le (bundleBytes ws) (bytes - denseBytes ws) (order r.2)
    unfold Fits
    omega
  · exact (hkeys k).mp ((fill_sublist _ _ _).subset ((hs k).mp hk))
  · have hlt := lt_sum_fill (bundleBytes ws) (bytes - denseBytes ws) (order r.2) ((hkeys k).mpr hk)
      fun hc => hnot ((hs k).mpr hc)
    unfold Fits
    rw [List.map_cons, List.sum_cons]
    omega
  · rw [residents_eq, residents_eq]
    refine card_row_le fun e he hel f hf hlt => ?_
    rw [List.mem_toFinset] at he hf ⊢
    obtain ⟨e1, e2⟩ := e
    obtain rfl : e1 = l := hel
    obtain ⟨c, hc⟩ : ∃ c, ∀ k ∈ order r.2, bundleBytes ws k = c :=
      ⟨bundleBytes ws (e1, e2), fun k hk => heq k ((hkeys k).mp hk) _
        ((hkeys _).mp ((fill_sublist _ _ _).subset ((hs _).mp he)))⟩
    obtain ⟨n, hn⟩ := fill_eq_take (bundleBytes ws) (bytes - denseBytes ws) (order r.2) hc
    rw [hs, hn] at he hf ⊢
    obtain ⟨g, hg⟩ := hm
    have hmf : (m, f) ∈ order r.2 := (hkeys _).mpr (hgrid e1 m f g ((hkeys _).mp (List.mem_of_mem_take hf)) hg)
    have hsorted := order_pairwise r.2
    rw [← List.take_append_drop n (order r.2)] at hmf hsorted
    rcases List.mem_append.mp hmf with hmf | hmf
    · exact hmf
    · -- behind the taken part only keys that are not smaller come
      have hle := (List.pairwise_append.mp hsorted).2.2 _ he _ hmf
      unfold KeyLe at hle
      dsimp only at hle hlt
      omega

section Configure
variable {ws : List Weight} {bytes : UInt64}

theorem Accounted.of_ok (hfit : (ws.map Weight.padded).sum < 2 ^ 64) {r : Nat × Bundles}
    (h : account ws 0 {} = .ok r) : Accounted ws 0 {} r :=
  account_eq ws 0 {} h (by omega) fun k => by
    change 0 + _ < _
    omega

/-- A call that returns, with a budget, has accounted for everything and found room for the dense part. -/
theorem configure_ok {ssd explicit : Bool} {s s' : Indices} (hbytes : bytes ≠ 0)
    (hfit : (ws.map Weight.padded).sum < 2 ^ 64)
    (h : configureSsdBudget ssd ws bytes explicit s = .ok s') :
    ∃ r, Accounted ws 0 {} r ∧ r.1 ≤ bytes.toNat ∧
      (explicit = true → s' = s ∧ (∀ k ∈ s.keys, k ∈ r.2.keys) ∧ r.1 + (s.keys.map r.2.size).sum ≤ bytes.toNat) ∧
      (explicit = false → s' = (fill r.2.size (bytes.toNat - r.1) (order r.2)).foldl Indices.insert s) := by
  have hlt : bytes.toNat < 2 ^ 64 := bytes.toNat_lt
  unfold configureSsdBudget at h
  rw [if_neg hbytes] at h
  split at h
  · cases h
  · obtain ⟨⟨dense, b⟩, hacc, h⟩ := bind_eq_ok h
    refine ⟨_, Accounted.of_ok hfit hacc, ?_⟩
    dsimp only at h ⊢
    split at h
    · cases h
    · rename_i hdense
      rw [not_lt] at hdense
      refine ⟨hdense, fun hex => ?_, fun hex => ?_⟩
      · subst hex
        rw [if_pos rfl] at h
        obtain ⟨hot, hplace, rfl⟩ := map_eq_ok h
        have hspec := placeExplicit_eq (b := b) hlt s.keys 0 (show dense + 0 ≤ bytes.toNat from hdense)
        split at hspec
        · rename_i hall
          exact ⟨rfl, hall⟩
        · obtain ⟨text, htext⟩ := hspec
          rw [hplace] at htext
          cases htext
      · subst hex
        rw [if_neg Bool.false_ne_true, placeFallback_eq hlt _ _ 0 hdense] at h
        cases h
        rfl

variable (ws bytes) in
theorem configure_no_underflow (ssd explicit : Bool) (s : Indices) :
    configureSsdBudget ssd ws bytes explicit s ≠ .error .underflow := by
  have hlt : bytes.toNat < 2 ^ 64 := bytes.toNat_lt
  intro h
  unfold configureSsdBudget at h
  split at h
  · cases h
  · split at h
    · cases h
    · cases hacc : account ws 0 {} with
      | error e =>
          rw [hacc] at h
          cases h
          cases account_error ws 0 {} hacc
      | ok r =>
          obtain ⟨dense, b⟩ := r
          rw [hacc] at h
          change (if bytes.toNat < dense then _ else _) = _ at h
          split at h
          · cases h
          · rename_i hdense
            rw [not_lt] at hdense
            split at h
            · have hspec := placeExplicit_eq (b := b) hlt s.keys 0 (show dense + 0 ≤ bytes.toNat from hdense)
              split at hspec
              · rw [hspec] at h
                cases h
              · obtain ⟨text, htext⟩ := hspec
                rw [htext] at h
                cases h
            · rw [placeFallback_eq hlt _ _ 0 hdense] at h
              cases h

/-- An explicit list is refused when an expert is missing or when it does not fit. -/
theorem configure_explicit_error (hfit : (ws.map Weight.padded).sum < 2 ^ 64) (hbytes : bytes ≠ 0)
    (hnames : ∀ w ∈ ws, ∃ k, parseSplitExpertName w.name = .ok k) (s : Indices) :
    (∃ e, configureSsdBudget true ws bytes true s = .error e) ↔
      (∃ k ∈ s.keys, k ∉ bundleKeys ws) ∨ ¬ Fits ws bytes.toNat s.keys := by
  have hlt : bytes.toNat < 2 ^ 64 := bytes.toNat_lt
  obtain ⟨⟨dense, b⟩, hr⟩ := account_ok ws 0 {} hnames
  have hacc := Accounted.of_ok hfit hr
  have hsize : b.size = bundleBytes ws := funext fun k => (hacc.size k).trans (Nat.zero_add _)
  have hkeys : ∀ k, k ∈ b.keys ↔ k ∈ bundleKeys ws := fun k =>
    (hacc.keys k).trans (or_iff_right List.not_mem_nil)
  have hdense' : dense = denseBytes ws := hacc.dense.trans (Nat.zero_add _)
  have hrun : configureSsdBudget true ws bytes true s =
      if bytes.toNat < dense then .error (.invalidArgument "SSD budget cannot hold all non-routed weights")
      else (placeExplicit bytes.toNat dense b s.keys 0).map fun _ => s := by
    unfold configureSsdBudget
    rw [if_neg hbytes, hr]
    rfl
  rw [hrun]
  unfold Fits
  by_cases hdense : bytes.toNat < dense
  · rw [if_pos hdense]
    exact ⟨fun _ => .inr (by omega), fun _ => ⟨_, rfl⟩⟩
  · rw [if_neg hdense]
    rw [not_lt] at hdense
    have hspec := placeExplicit_eq (b := b) hlt s.keys 0 (show dense + 0 ≤ bytes.toNat from hdense)
    rw [Nat.add_zero, Nat.zero_add, hsize, hdense'] at hspec
    rw [hdense']
    split at hspec
    · rename_i hall
      rw [hspec]
      refine ⟨fun ⟨_, h⟩ => (by cases h), fun h => ?_⟩
      rcases h with ⟨k, hk, hnot⟩ | h
      · exact absurd ((hkeys k).mp (hall.1 k hk)) hnot
      · exact absurd hall.2 h
    · rename_i hnone
      obtain ⟨text, htext⟩ := hspec
      rw [htext]
      refine ⟨fun _ => ?_, fun _ => ⟨_, rfl⟩⟩
      rw [not_and_or] at hnone
      refine hnone.imp (fun h => ?_) id
      push Not at h
      obtain ⟨k, hk, hnot⟩ := h
      exact ⟨k, hk, fun hc => hnot ((hkeys k).mpr hc)⟩

/-- **A placement within a budget, for a model of less than `2 ^ 64` bytes.** -/
theorem configureSsdBudget_spec (hfit : (ws.map Weight.padded).sum < 2 ^ 64) (hbytes : bytes ≠ 0) :
    (∀ ssd explicit s, configureSsdBudget ssd ws bytes explicit s ≠ .error .underflow) ∧
      (∀ ssd explicit s s', configureSsdBudget ssd ws bytes explicit s = .ok s' →
        explicit = true ∨ s.keys = [] → Fits ws bytes.toNat s'.keys) ∧
      (∀ ssd s s', configureSsdBudget ssd ws bytes false s = .ok s' →
        ∃ ks, Fits ws bytes.toNat ks ∧ ∀ k, k ∈ s'.keys ↔ k ∈ s.keys ∨ k ∈ ks) ∧
      (∀ s, (∀ w ∈ ws, ∃ k, parseSplitExpertName w.name = .ok k) →
        ((∃ e, configureSsdBudget true ws bytes true s = .error e) ↔
          (∃ k ∈ s.keys, k ∉ bundleKeys ws) ∨ ¬ Fits ws bytes.toNat s.keys)) ∧
      ∀ ssd s', configureSsdBudget ssd ws bytes false {} = .ok s' → Placement ws bytes.toNat s' := by
  have hsizes : ∀ {r : Nat × Bundles}, Accounted ws 0 {} r → r.2.size = bundleBytes ws ∧ r.1 = denseBytes ws :=
    fun hacc => ⟨funext fun k => (hacc.size k).trans (Nat.zero_add _), hacc.dense.trans (Nat.zero_add _)⟩
  have hplaced : ∀ ssd s s', s.keys = [] → configureSsdBudget ssd ws bytes false s = .ok s' →
      Placement ws bytes.toNat s' := by
    intro ssd s s' hnil h
    obtain ⟨r, hacc, hdense, -, hfall⟩ := configure_ok hbytes hfit h
    refine Placement.of_fill hacc hdense fun k => ?_
    rw [hfall rfl, mem_foldl_insert, hnil]
    exact or_iff_right List.not_mem_nil
  refine ⟨configure_no_underflow ws bytes, fun ssd explicit s s' h hs => ?_, fun ssd s s' h => ?_,
    fun s hnames => configure_explicit_error hfit hbytes hnames s, fun ssd s' h => hplaced ssd {} s' rfl h⟩
  · cases explicit with
    | true =>
        obtain ⟨r, hacc, -, hexp, -⟩ := configure_ok hbytes hfit h
        obtain ⟨rfl, -, hle⟩ := hexp rfl
        rwa [(hsizes hacc).1, (hsizes hacc).2] at hle
    | false => exact (hplaced ssd s s' (hs.resolve_left Bool.false_ne_true) h).fits
  · obtain ⟨r, hacc, hdense, -, hfall⟩ := configure_ok hbytes hfit h
    refine ⟨fill r.2.size (bytes.toNat - r.1) (order r.2), ?_, fun k => ?_⟩
    · have hle := sum_fill_le r.2.size (bytes.toNat - r.1) (order r.2)
      unfold Fits
      rw [← (hsizes hacc).1, ← (hsizes hacc).2]
      omega
    · rw [hfall rfl, mem_foldl_insert]

end Configure

/-! ## Fixed models -/

def f32 : GgmlType := ⟨4, 1, false⟩

/-- Two layers of two experts, of 512 bytes each, and a dense tensor of 1024 bytes. -/
def twoLayers : List Weight :=
  [⟨"blk.0.ffn_gate.000.weight", f32, 128, 512⟩, ⟨"blk.0.ffn_gate.001.weight", f32, 128, 512⟩,
    ⟨"blk.1.ffn_gate.000.weight", f32, 128, 512⟩, ⟨"blk.1.ffn_gate.001.weight", f32, 128, 512⟩,
    ⟨"output.weight", f32, 256, 1024⟩]

/-- There is room for three of the four experts. -/
theorem configureSsdBudget_spec_twoLayers : ∃ s, configureSsdBudget true twoLayers 2999 false {} = .ok s ∧
    residents s 0 = 2 ∧ residents s 1 = 1 ∧ Placement twoLayers 2999 s := by
  have hkeys : (configureSsdBudget true twoLayers 2999 false {}).toOption.map Indices.keys =
      some [(0, 1), (1, 0), (0, 0)] := by decide +kernel
  have hspec := @configureSsdBudget_spec twoLayers 2999 (by decide +kernel) (by decide)
  cases h : configureSsdBudget true twoLayers 2999 false {} with
  | error e =>
      rw [h] at hkeys
      cases hkeys
  | ok s =>
      rw [h] at hkeys
      have hs : s.keys = [(0, 1), (1, 0), (0, 0)] := Option.some.inj hkeys
      refine ⟨s, rfl, ?_, ?_, hspec.2.2.2.2 true s h⟩
      · unfold residents
        rw [hs]
        decide
      · unfold residents
        rw [hs]
        decide

/-- Two tensors whose bytes wrap around to zero. -/
def twoHuge : List Weight := [⟨"a.weight", f32, 1, 2 ^ 63⟩, ⟨"b.weight", f32, 1, 2 ^ 63⟩]

def farLayer : List Weight := [⟨"blk.2147483648.ffn_gate.000.weight", f32, 128, 512⟩]

/-- The fallback does not count what is in the list before; sums wrap around; and an empty list is refused for a name with a
number that is not an `int`, or outside of SSD mode. -/
theorem configureSsdBudget_exceeds :
    (∃ s', configureSsdBudget true twoLayers 1536 false ⟨[(0, 1)], by decide⟩ = .ok s' ∧
      ¬ Fits twoLayers 1536 s'.keys) ∧
    (∃ s', configureSsdBudget true twoHuge 1 true {} = .ok s' ∧ ¬ Fits twoHuge 1 s'.keys) ∧
    (∃ e, configureSsdBudget true farLayer 512 true {} = .error e ∧ Fits farLayer 512 []) ∧
    ∃ e, configureSsdBudget false [] 1 true {} = .error e ∧ Fits [] 1 [] := by
  have hfall : (configureSsdBudget true twoLayers 1536 false ⟨[(0, 1)], by decide⟩).toOption.map Indices.keys =
      some [(0, 0), (0, 1)] := by decide +kernel
  have hhuge : (configureSsdBudget true twoHuge 1 true {}).toOption.map Indices.keys = some [] := by decide +kernel
  refine ⟨?_, ?_, ⟨.outOfRange, ?_, by decide +kernel⟩, ⟨_, rfl, by decide⟩⟩
  · cases h : configureSsdBudget true twoLayers 1536 false ⟨[(0, 1)], by decide⟩ with
    | error e =>
        rw [h] at hfall
        cases hfall
    | ok s' =>
        rw [h] at hfall
        refine ⟨s', rfl, ?_⟩
        rw [Option.some.inj hfall]
        decide +kernel
  · cases h : configureSsdBudget true twoHuge 1 true {} with
    | error e =>
        rw [h] at hhuge
        cases hhuge
    | ok s' =>
        rw [h] at hhuge
        refine ⟨s', rfl, ?_⟩
        rw [Option.some.inj hhuge]
        decide +kernel
  · rfl

end S2Moe.Ssd.Budget
