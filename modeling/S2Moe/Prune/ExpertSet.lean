import Mathlib
import S2Moe.Lib.Bits
import S2Moe.Lib.Run

/-!
# Sets of experts

An `ExpertSet` is a row of words whose length is fixed when it is made, from a maximum that later operations may raise. `set`
makes room; `or_with` and `andnot_with` go along the words of the left set and read the same words of the right one.

* `ExpertSet`, `ExpertLayers` : the rows and their operations, which do not return when they read outside a row;
* `Sets` : what they stand for: a set of ids for each layer;
* `Op`, `State`, `step` : programs on variables; `Op.spec` : the same program on sets;
* `Fits` : the right operand is no shorter, and of a union nothing lies behind the words of the left one;
* `run_iff_fits` : a program does what it says exactly if its operands fit.
-/

namespace S2Moe.Prune
open S2Moe.Lib

abbrev Word := BitVec 64

structure ExpertSet where
  bits : List Word

/-- The constructor : `(expert_max + 63) / 64` words, which must not be negative. -/
def ExpertSet.new (expertMax : Int) : Option ExpertSet :=
  if 0 ≤ (expertMax + 63).tdiv 64 then some ⟨List.replicate ((expertMax + 63).tdiv 64).toNat 0#64⟩ else none

def ExpertSet.clear (s : ExpertSet) : ExpertSet := ⟨List.replicate s.bits.length 0#64⟩

/-- `set`, with what becomes of `g_prune_config.expert_max`. -/
def ExpertSet.set (s : ExpertSet) (id : Int) (expertMax : Int) : ExpertSet × Int :=
  if id < 0 then (s, expertMax)
  else
    let expertMax := if id ≥ expertMax then id + 1 else expertMax
    let need := id.toNat / 64 + 1
    let bits := s.bits ++ List.replicate (need - s.bits.length) 0#64
    (⟨bits.set (id.toNat / 64) (bits.getD (id.toNat / 64) 0#64 ||| 1#64 <<< (id.toNat % 64))⟩, expertMax)

def ExpertSet.orWith (s other : ExpertSet) : Option ExpertSet := (zipWords (· ||| ·) s.bits other.bits).map .mk

def ExpertSet.andnotWith (s other : ExpertSet) : Option ExpertSet :=
  (zipWords (fun v u => v &&& ~~~u) s.bits other.bits).map .mk

def ExpertSet.popcount (s : ExpertSet) : Nat := (s.bits.map popCount).sum

structure ExpertLayers where
  layers : List ExpertSet

def ExpertLayers.resize (nLayers : Int) (expertMax : Int) : Option ExpertLayers :=
  (ExpertSet.new expertMax).map fun s => ⟨List.replicate (max 0 nLayers).toNat s⟩

def ExpertLayers.clear (l : ExpertLayers) : ExpertLayers := ⟨l.layers.map ExpertSet.clear⟩

def ExpertLayers.set (l : ExpertLayers) (layer expertId : Int) (expertMax : Int) : ExpertLayers × Int :=
  if layer < 0 ∨ layer ≥ l.layers.length then (l, expertMax)
  else
    match l.layers[layer.toNat]? with
    | none => (l, expertMax)
    | some s =>
      let r := s.set expertId expertMax
      (⟨l.layers.set layer.toNat r.1⟩, r.2)

/-- An operation on the layers of two, along the first. -/
def zipLayers (f : ExpertSet → ExpertSet → Option ExpertSet) : List ExpertSet → List ExpertSet → Option (List ExpertSet)
  | [], _ => some []
  | _ :: _, [] => none
  | s :: ss, t :: ts => do
    let r ← f s t
    let rs ← zipLayers f ss ts
    some (r :: rs)

def ExpertLayers.orWith (l other : ExpertLayers) : Option ExpertLayers :=
  (zipLayers ExpertSet.orWith l.layers other.layers).map .mk

def ExpertLayers.andnotWith (l other : ExpertLayers) : Option ExpertLayers :=
  (zipLayers ExpertSet.andnotWith l.layers other.layers).map .mk

def ExpertLayers.popcount (l : ExpertLayers) : Nat := (l.layers.map ExpertSet.popcount).sum

/-! ## What they stand for -/

/-- A number of layers, and a set of ids for each. -/
structure Sets where
  nLayers : Nat
  ids : Nat → Finset Nat

def ExpertSet.ids (s : ExpertSet) : Finset Nat := denote s.bits

def ExpertLayers.ids (l : ExpertLayers) (layer : Nat) : Finset Nat := ((l.layers[layer]?).map ExpertSet.ids).getD ∅

def ExpertLayers.sets (l : ExpertLayers) : Sets := ⟨l.layers.length, l.ids⟩

/-- `expert_layers_to_sets`. -/
def layersToSets (experts : ExpertLayers) : List (Finset Int) :=
  experts.layers.map fun s =>
    s.bits.zipIdx.foldl (fun result vw =>
      (setBits 64 vw.1).foldl (fun result bit => insert ((vw.2 * 64 + bit : Nat) : Int) result) result) ∅

/-- A `std::set<int>` in the order of its iterators. -/
def ascending (experts : Finset Int) : List Int := experts.sort (· ≤ ·)

theorem mem_ascending {experts : Finset Int} {e : Int} : e ∈ ascending experts ↔ e ∈ experts := Finset.mem_sort _

theorem toFinset_ascending (experts : Finset Int) : (ascending experts).toFinset = experts := Finset.sort_toFinset _ _

theorem length_ascending (experts : Finset Int) : (ascending experts).length = experts.card := Finset.length_sort _

/-- `expert_sets_to_layers`. -/
def setsToLayers (experts : List (Finset Int)) (expertMax : Int) : Option (ExpertLayers × Int) :=
  (ExpertLayers.resize experts.length expertMax).map fun l =>
    experts.zipIdx.foldl (fun r sl => (ascending sl.1).foldl (fun r expert => r.1.set sl.2 expert r.2) r) (l, expertMax)

/-! ## Programs -/

/-- Operations on variables. -/
inductive Op where
  | resize (x : Nat) (nLayers : Int)
  | clear (x : Nat)
  | set (x : Nat) (layer expertId : Int)
  | copy (x y : Nat)
  | orWith (x y : Nat)
  | andnotWith (x y : Nat)

structure State where
  expertMax : Int
  vars : Nat → ExpertLayers

/-- Variables made by `ExpertLayers()`. -/
def State.start (expertMax : Int) : State := ⟨expertMax, fun _ => ⟨[]⟩⟩

def State.put (s : State) (x : Nat) (l : ExpertLayers) : State := { s with vars := Function.update s.vars x l }

def step : Op → State → Option State
  | .resize x nLayers, s => (ExpertLayers.resize nLayers s.expertMax).map (s.put x)
  | .clear x, s => some (s.put x (s.vars x).clear)
  | .set x layer expertId, s =>
    let r := (s.vars x).set layer expertId s.expertMax
    some { s.put x r.1 with expertMax := r.2 }
  | .copy x y, s => some (s.put x (s.vars y))
  | .orWith x y, s => ((s.vars x).orWith (s.vars y)).map (s.put x)
  | .andnotWith x y, s => ((s.vars x).andnotWith (s.vars y)).map (s.put x)

/-- What the operations are for. -/
def Op.spec : Op → (Nat → Sets) → (Nat → Sets)
  | .resize x nLayers, v => Function.update v x ⟨nLayers.toNat, fun _ => ∅⟩
  | .clear x, v => Function.update v x { v x with ids := fun _ => ∅ }
  | .set x layer expertId, v =>
    Function.update v x
      { v x with
        ids := fun l => if (l : Int) = layer ∧ l < (v x).nLayers ∧ 0 ≤ expertId then insert expertId.toNat ((v x).ids l)
          else (v x).ids l }
  | .copy x y, v => Function.update v x (v y)
  | .orWith x y, v => Function.update v x { v x with ids := fun l => (v x).ids l ∪ (v y).ids l }
  | .andnotWith x y, v => Function.update v x { v x with ids := fun l => (v x).ids l \ (v y).ids l }

def State.sets (s : State) : Nat → Sets := fun x => (s.vars x).sets

/-- The right operand has the layers of the left one, with at least as many words. -/
def Covers (l other : ExpertLayers) : Prop :=
  l.layers.length ≤ other.layers.length ∧
    ∀ (i : Nat) (s t : ExpertSet), l.layers[i]? = some s → other.layers[i]? = some t → s.bits.length ≤ t.bits.length

/-- No id of the right operand lies behind the layers or the words of the left one. -/
def Holds (l other : ExpertLayers) : Prop :=
  ∀ i, ∀ id ∈ other.ids i, ∃ s, l.layers[i]? = some s ∧ id < 64 * s.bits.length

def Fits (s : State) : Op → Prop
  | .resize _ _ => 0 ≤ (s.expertMax + 63).tdiv 64
  | .orWith x y => Covers (s.vars x) (s.vars y) ∧ Holds (s.vars x) (s.vars y)
  | .andnotWith x y => Covers (s.vars x) (s.vars y)
  | _ => True

/-- Every operation of the program fits where it is executed. -/
def AllFit : List Op → State → Prop
  | [], _ => True
  | op :: ops, s => Fits s op ∧ ∀ t, step op s = some t → AllFit ops t

/-- Up to each of its operations the program returns, with the sets that it should have. -/
def Correct (ops : List Op) (s : State) : Prop :=
  ∀ n, ∃ t, runList step (ops.take n) s = some t ∧ t.sets = (ops.take n).foldl (fun v op => op.spec v) s.sets

/-! ## One operation -/

section Operations

theorem ids_new {expertMax : Int} {s : ExpertSet} (h : ExpertSet.new expertMax = some s) : s.ids = ∅ := by
  rw [ExpertSet.new] at h
  split at h
  · cases h
    exact denote_replicate _
  · cases h

theorem ids_clear (s : ExpertSet) : s.clear.ids = ∅ := denote_replicate _

theorem ids_set (s : ExpertSet) (id expertMax : Int) :
    (s.set id expertMax).1.ids = if 0 ≤ id then insert id.toNat s.ids else s.ids := by
  by_cases hid : 0 ≤ id
  · rw [ExpertSet.set, if_neg (show ¬ id < 0 by omega), if_pos hid]
    ext i
    dsimp only [ExpertSet.ids]
    rw [mem_denote (by decide), bitOf_set (by decide) (by rw [List.length_append, List.length_replicate]; omega),
      bitOf_append_replicate, Finset.mem_insert, mem_denote (by decide), Bool.or_eq_true, decide_eq_true_eq, or_comm]
  · rw [ExpertSet.set, if_pos (show id < 0 by omega), if_neg hid]

theorem orWith_eq (s t : ExpertSet) :
    s.orWith t = if s.bits.length ≤ t.bits.length then some ⟨List.zipWith (· ||| ·) s.bits t.bits⟩ else none := by
  rw [ExpertSet.orWith, zipWords_eq]
  split <;> rfl

theorem andnotWith_eq (s t : ExpertSet) :
    s.andnotWith t =
      if s.bits.length ≤ t.bits.length then some ⟨List.zipWith (fun v u => v &&& ~~~u) s.bits t.bits⟩ else none := by
  rw [ExpertSet.andnotWith, zipWords_eq]
  split <;> rfl

theorem popcount_eq_card (s : ExpertSet) : s.popcount = s.ids.card := sum_popCount (by decide) s.bits

variable {f : ExpertSet → ExpertSet → Option ExpertSet} {g : ExpertSet → ExpertSet → ExpertSet}

/-- The loop over the layers returns exactly if the right operand covers the left one. -/
theorem zipLayers_eq (hf : ∀ s t, f s t = if s.bits.length ≤ t.bits.length then some (g s t) else none) :
    ∀ (ss ts rs : List ExpertSet), zipLayers f ss ts = some rs ↔ Covers ⟨ss⟩ ⟨ts⟩ ∧ rs = List.zipWith g ss ts
  | [], ts, rs => by
    rw [zipLayers]
    constructor
    · rintro ⟨⟩
      exact ⟨⟨Nat.zero_le _, fun i s t hs => by simp at hs⟩, rfl⟩
    · rintro ⟨_, rfl⟩
      rfl
  | s :: ss, [], rs => by
    rw [zipLayers]
    constructor
    · rintro ⟨⟩
    · rintro ⟨⟨hlen, _⟩, _⟩
      cases hlen
  | s :: ss, t :: ts, rs => by
    rw [zipLayers, hf]
    by_cases hst : s.bits.length ≤ t.bits.length
    · rw [if_pos hst]
      have ih := zipLayers_eq hf ss ts
      constructor
      · intro h
        cases hrec : zipLayers f ss ts with
        | none =>
            rw [hrec] at h
            cases h
        | some rs' =>
            rw [hrec] at h
            cases h
            obtain ⟨⟨hlen, hcov⟩, rfl⟩ := (ih rs').mp hrec
            refine ⟨⟨Nat.succ_le_succ hlen, fun i s' t' hs ht => ?_⟩, rfl⟩
            cases i with
            | zero =>
                cases hs
                cases ht
                exact hst
            | succ i => exact hcov i s' t' hs ht
      · rintro ⟨⟨hlen, hcov⟩, rfl⟩
        have hrec := (ih _).mpr ⟨⟨Nat.le_of_succ_le_succ hlen, fun i s' t' hs ht => hcov (i + 1) s' t' hs ht⟩, rfl⟩
        rw [hrec]
        rfl
    · rw [if_neg hst]
      constructor
      · rintro ⟨⟩
      · rintro ⟨⟨_, hcov⟩, _⟩
        exact absurd (hcov 0 s t rfl rfl) hst

theorem ids_zipWith (l other : ExpertLayers) (i : Nat) :
    ExpertLayers.ids ⟨List.zipWith g l.layers other.layers⟩ i =
      match l.layers[i]?, other.layers[i]? with
      | some s, some t => (g s t).ids
      | _, _ => ∅ := by
  rw [ExpertLayers.ids, List.getElem?_zipWith]
  cases l.layers[i]? <;> cases other.layers[i]? <;> rfl

/-- A layer of the left operand has one on the right. -/
theorem Covers.exists_layer {l other : ExpertLayers} (h : Covers l other) {i : Nat} {s : ExpertSet}
    (hs : l.layers[i]? = some s) : ∃ t, other.layers[i]? = some t ∧ s.bits.length ≤ t.bits.length := by
  have hlt : i < other.layers.length := Nat.lt_of_lt_of_le (List.getElem?_eq_some_iff.mp hs).1 h.1
  exact ⟨_, List.getElem?_eq_getElem hlt, h.2 i s _ hs (List.getElem?_eq_getElem hlt)⟩

theorem ids_eq {l : ExpertLayers} {i : Nat} {s : ExpertSet} (hs : l.layers[i]? = some s) : l.ids i = s.ids := by
  rw [ExpertLayers.ids, hs]
  rfl

theorem ids_eq_empty {l : ExpertLayers} {i : Nat} (hs : l.layers[i]? = none) : l.ids i = ∅ := by
  rw [ExpertLayers.ids, hs]
  rfl

/-- A union is one exactly if the left operand has room for it. -/
theorem orWith_iff (l other : ExpertLayers) :
    (∃ r, l.orWith other = some r ∧ r.sets = ⟨l.layers.length, fun i => l.ids i ∪ other.ids i⟩) ↔
      Covers l other ∧ Holds l other := by
  have hzip := zipLayers_eq orWith_eq l.layers other.layers
  have hsets : Covers l other →
      ((∀ i, ExpertLayers.ids ⟨List.zipWith (fun s t => ⟨List.zipWith (· ||| ·) s.bits t.bits⟩) l.layers other.layers⟩ i =
        l.ids i ∪ other.ids i) ↔ Holds l other) := by
    intro hcov
    apply forall_congr'
    intro i
    rw [ids_zipWith]
    cases hs : l.layers[i]? with
    | none =>
        rw [ids_eq_empty hs, Finset.empty_union]
        constructor
        · intro h id hid
          rw [← h] at hid
          cases hid
        · intro h
          symm
          apply Finset.eq_empty_of_forall_notMem
          intro id hid
          obtain ⟨s, hs', _⟩ := h id hid
          cases hs'
    | some s =>
        obtain ⟨t, ht, hlen⟩ := hcov.exists_layer hs
        rw [ids_eq hs, ids_eq ht, ht]
        show denote _ = denote _ ∪ denote _ ↔ _
        rw [denote_or_eq_iff (by decide) hlen]
        constructor
        · exact fun h id hid => ⟨s, rfl, h id hid⟩
        · intro h id hid
          obtain ⟨s', hs', hlt⟩ := h id hid
          cases hs'
          exact hlt
  constructor
  · rintro ⟨r, hrun, hr⟩
    obtain ⟨rs, hrs, rfl⟩ := Option.map_eq_some_iff.mp hrun
    obtain ⟨hcov, rfl⟩ := (hzip rs).mp hrs
    exact ⟨hcov, (hsets hcov).mp fun i => congrFun (congrArg Sets.ids hr) i⟩
  · rintro ⟨hcov, hholds⟩
    refine ⟨_, Option.map_eq_some_iff.mpr ⟨_, (hzip _).mpr ⟨hcov, rfl⟩, rfl⟩, ?_⟩
    rw [ExpertLayers.sets, Sets.mk.injEq]
    refine ⟨?_, funext ((hsets hcov).mpr hholds)⟩
    rw [List.length_zipWith]
    exact Nat.min_eq_left hcov.1

/-- A difference is one whenever it returns. -/
theorem andnotWith_iff (l other : ExpertLayers) :
    (∃ r, l.andnotWith other = some r ∧ r.sets = ⟨l.layers.length, fun i => l.ids i \ other.ids i⟩) ↔ Covers l other := by
  have hzip := zipLayers_eq andnotWith_eq l.layers other.layers
  constructor
  · rintro ⟨r, hrun, _⟩
    obtain ⟨rs, hrs, _⟩ := Option.map_eq_some_iff.mp hrun
    exact ((hzip rs).mp hrs).1
  · intro hcov
    refine ⟨_, Option.map_eq_some_iff.mpr ⟨_, (hzip _).mpr ⟨hcov, rfl⟩, rfl⟩, ?_⟩
    rw [ExpertLayers.sets, Sets.mk.injEq]
    refine ⟨?_, funext fun i => ?_⟩
    · rw [List.length_zipWith]
      exact Nat.min_eq_left hcov.1
    · rw [ids_zipWith]
      cases hs : l.layers[i]? with
      | none => rw [ids_eq_empty hs, Finset.empty_sdiff]
      | some s =>
          obtain ⟨t, ht, hlen⟩ := hcov.exists_layer hs
          rw [ids_eq hs, ids_eq ht, ht]
          exact denote_andNot (by decide) hlen

theorem sets_resize {nLayers expertMax : Int} {l : ExpertLayers} (h : ExpertLayers.resize nLayers expertMax = some l) :
    l.sets = ⟨nLayers.toNat, fun _ => ∅⟩ := by
  obtain ⟨s, hs, rfl⟩ := Option.map_eq_some_iff.mp h
  rw [ExpertLayers.sets, Sets.mk.injEq]
  refine ⟨by rw [List.length_replicate]; omega, funext fun i => ?_⟩
  rw [ExpertLayers.ids, List.getElem?_replicate]
  split
  · exact ids_new hs
  · rfl

theorem sets_clear (l : ExpertLayers) : l.clear.sets = { l.sets with ids := fun _ => ∅ } := by
  rw [ExpertLayers.sets, ExpertLayers.sets, Sets.mk.injEq]
  refine ⟨List.length_map _, funext fun i => ?_⟩
  rw [ExpertLayers.ids, ExpertLayers.clear, List.getElem?_map]
  cases l.layers[i]? with
  | none => rfl
  | some s => exact ids_clear s

theorem sets_set (l : ExpertLayers) (layer expertId expertMax : Int) :
    (l.set layer expertId expertMax).1.sets =
      { l.sets with
        ids := fun i => if (i : Int) = layer ∧ i < l.layers.length ∧ 0 ≤ expertId then insert expertId.toNat (l.ids i)
          else l.ids i } := by
  have hsame : ∀ {p : Nat → Prop} [DecidablePred p] {F : Nat → Finset Nat}, (∀ i, ¬ p i) →
      l.sets = { l.sets with ids := fun i => if p i then F i else l.ids i } := by
    intro p _ F hp
    rw [ExpertLayers.sets, Sets.mk.injEq]
    exact ⟨rfl, funext fun i => (if_neg (hp i)).symm⟩
  rw [ExpertLayers.set]
  split
  · rename_i h
    exact hsame fun i hi => by omega
  · rename_i h
    have hlt : layer.toNat < l.layers.length := by omega
    rw [List.getElem?_eq_getElem hlt]
    dsimp only
    rw [ExpertLayers.sets, ExpertLayers.sets, Sets.mk.injEq]
    refine ⟨List.length_set, funext fun i => ?_⟩
    rw [ExpertLayers.ids, List.getElem?_set]
    by_cases hi : layer.toNat = i
    · subst hi
      rw [if_pos rfl, if_pos hlt, Option.map_some, Option.getD_some, ids_set, ids_eq (List.getElem?_eq_getElem hlt)]
      by_cases hid : 0 ≤ expertId
      · rw [if_pos hid, if_pos ⟨by omega, hlt, hid⟩]
      · rw [if_neg hid, if_neg (fun h => hid h.2.2)]
    · rw [if_neg hi, if_neg (by omega)]
      rfl

end Operations

/-! ## The conversions -/

section Conversions

/-- Ids as the integers of a `std::set<int>`, and back. -/
def toInts (ids : Finset Nat) : Finset Int := ids.image fun i : Nat => (i : Int)

def toNats (ids : Finset Int) : Finset Nat := (ids.filter (0 ≤ ·)).image Int.toNat

theorem toNats_toInts (ids : Finset Nat) : toNats (toInts ids) = ids := by
  ext i
  simp only [toNats, toInts, Finset.mem_image, Finset.mem_filter]
  constructor
  · rintro ⟨_, ⟨⟨j, hj, rfl⟩, _⟩, rfl⟩
    exact hj
  · intro hi
    exact ⟨i, ⟨⟨i, hi, rfl⟩, Int.natCast_nonneg i⟩, Int.toNat_natCast i⟩

theorem toInts_toNats {ids : Finset Int} (h : ∀ i ∈ ids, 0 ≤ i) : toInts (toNats ids) = ids := by
  ext i
  simp only [toNats, toInts, Finset.mem_image, Finset.mem_filter]
  constructor
  · rintro ⟨_, ⟨j, ⟨hj, hpos⟩, rfl⟩, rfl⟩
    rwa [Int.toNat_of_nonneg hpos]
  · intro hi
    exact ⟨i.toNat, ⟨i, ⟨hi, h i hi⟩, rfl⟩, Int.toNat_of_nonneg (h i hi)⟩

theorem mem_foldl_insert {α : Type} {F : α → Int} : ∀ (l : List α) (acc : Finset Int) {x : Int},
    x ∈ l.foldl (fun result a => insert (F a) result) acc ↔ x ∈ acc ∨ ∃ a ∈ l, x = F a
  | [], acc, x => by simp
  | a :: l, acc, x => by
    rw [List.foldl_cons, mem_foldl_insert l, Finset.mem_insert]
    simp only [List.mem_cons, exists_eq_or_imp]
    tauto

theorem mem_foldl_words : ∀ (l : List (Word × Nat)) (acc : Finset Int) {x : Int},
    x ∈ l.foldl (fun result vw =>
      (setBits 64 vw.1).foldl (fun result bit => insert ((vw.2 * 64 + bit : Nat) : Int) result) result) acc ↔
        x ∈ acc ∨ ∃ vw ∈ l, ∃ bit, vw.1.getLsbD bit = true ∧ x = ((vw.2 * 64 + bit : Nat) : Int)
  | [], acc, x => by simp
  | vw :: l, acc, x => by
    rw [List.foldl_cons, mem_foldl_words l, mem_foldl_insert]
    have hbits : (∃ bit ∈ setBits 64 vw.1, x = ((vw.2 * 64 + bit : Nat) : Int)) ↔
        ∃ bit, vw.1.getLsbD bit = true ∧ x = ((vw.2 * 64 + bit : Nat) : Int) := by
      apply exists_congr
      intro bit
      rw [mem_setBits 64 vw.1 (popCount_le vw.1)]
    rw [hbits, or_assoc]
    simp only [List.mem_cons, exists_eq_or_imp]

/-- The set of a layer. -/
theorem layersToSets_eq (l : ExpertLayers) : layersToSets l = l.layers.map fun s => toInts s.ids := by
  apply List.map_congr_left
  intro s _
  ext x
  rw [mem_foldl_words, toInts, Finset.mem_image]
  constructor
  · rintro (hx | ⟨⟨v, word⟩, hmem, bit, hbit, rfl⟩)
    · cases hx
    · have hlt : bit < 64 := BitVec.lt_of_getLsbD hbit
      rw [List.mem_zipIdx_iff_getElem?] at hmem
      refine ⟨word * 64 + bit, ?_, rfl⟩
      rw [ExpertSet.ids, mem_denote (by decide), bitOf, show (word * 64 + bit) / 64 = word by omega,
        show (word * 64 + bit) % 64 = bit by omega, List.getD_eq_getElem?_getD, hmem]
      exact hbit
  · rintro ⟨i, hi, rfl⟩
    rw [ExpertSet.ids, mem_denote (by decide)] at hi
    have hword : i / 64 < s.bits.length := (div_lt_length (by decide)).mpr (lt_of_bitOf (by decide) hi)
    refine .inr ⟨(s.bits.getD (i / 64) 0#64, i / 64), ?_, i % 64, hi, ?_⟩
    · rw [List.mem_zipIdx_iff_getElem?, List.getD_eq_getElem?_getD, List.getElem?_eq_getElem hword]
      rfl
    · rw [show i / 64 * 64 + i % 64 = i by omega]

/-- The ids of a layer one after the other. -/
theorem sets_foldl_set : ∀ (es : List Int) (r : ExpertLayers × Int) (layer : Nat), layer < r.1.layers.length →
    (es.foldl (fun r expert => r.1.set layer expert r.2) r).1.sets =
      ⟨r.1.layers.length, fun i => if i = layer then r.1.ids i ∪ toNats es.toFinset else r.1.ids i⟩
  | [], r, layer, _ => by
    rw [List.foldl_nil, ExpertLayers.sets, Sets.mk.injEq]
    refine ⟨rfl, funext fun i => ?_⟩
    simp [toNats]
  | e :: es, r, layer, h => by
    have hset := sets_set r.1 layer e r.2
    have hlen : (r.1.set layer e r.2).1.layers.length = r.1.layers.length := congrArg Sets.nLayers hset
    rw [List.foldl_cons, sets_foldl_set es _ layer (by rw [hlen]; exact h), Sets.mk.injEq]
    refine ⟨hlen, funext fun i => ?_⟩
    have hids := congrFun (congrArg Sets.ids hset) i
    dsimp only [ExpertLayers.sets] at hids
    by_cases hi : i = layer
    · subst hi
      rw [if_pos rfl, if_pos rfl, hids]
      ext id
      by_cases he : 0 ≤ e
      · rw [if_pos ⟨rfl, h, he⟩]
        simp only [toNats, List.toFinset_cons, Finset.filter_insert, if_pos he, Finset.image_insert, Finset.mem_union,
          Finset.mem_insert]
        tauto
      · rw [if_neg (fun h => he h.2.2)]
        simp only [toNats, List.toFinset_cons, Finset.filter_insert, if_neg he]
    · rw [if_neg hi, if_neg hi, hids, if_neg (fun h => hi (Int.ofNat_inj.mp h.1))]

/-- Layer by layer: those that have been filled and those that are still empty. -/
theorem sets_foldl_layers : ∀ (xs : List (Finset Int)) (k : Nat) (r : ExpertLayers × Int),
    k + xs.length ≤ r.1.layers.length → (∀ i, k ≤ i → r.1.ids i = ∅) →
    ((xs.zipIdx k).foldl (fun r sl => (ascending sl.1).foldl (fun r expert => r.1.set sl.2 expert r.2) r) r).1.sets =
      ⟨r.1.layers.length, fun i => if k ≤ i then toNats (xs.getD (i - k) ∅) else r.1.ids i⟩
  | [], k, r, _, hempty => by
    rw [List.zipIdx_nil, List.foldl_nil, ExpertLayers.sets, Sets.mk.injEq]
    refine ⟨rfl, funext fun i => ?_⟩
    split
    · rename_i h
      rw [hempty i h]
      rfl
    · rfl
  | x :: xs, k, r, hlen, hempty => by
    rw [List.length_cons] at hlen
    have hfirst := sets_foldl_set (ascending x) r k (by omega)
    have hlen' := congrArg Sets.nLayers hfirst
    dsimp only [ExpertLayers.sets] at hlen'
    have hids : ∀ i, ExpertLayers.ids _ i =
        if i = k then r.1.ids i ∪ toNats (ascending x).toFinset else r.1.ids i :=
      fun i => congrFun (congrArg Sets.ids hfirst) i
    rw [List.zipIdx_cons, List.foldl_cons]
    rw [sets_foldl_layers xs (k + 1) _ (by rw [hlen']; omega) (fun i hi => by
      rw [hids, if_neg (by omega)]
      exact hempty i (by omega)), Sets.mk.injEq]
    refine ⟨hlen', funext fun i => ?_⟩
    rw [hids]
    rcases Nat.lt_trichotomy i k with hi | rfl | hi
    · rw [if_neg (by omega), if_neg (by omega), if_neg (by omega)]
    · rw [if_neg (by omega), if_pos rfl, if_pos le_rfl, hempty i le_rfl, Finset.empty_union, toFinset_ascending,
        Nat.sub_self]
      rfl
    · rw [if_pos (by omega), if_pos hi.le, show i - k = i - (k + 1) + 1 by omega]
      rfl

theorem sets_setsToLayers {experts : List (Finset Int)} {expertMax : Int} {r : ExpertLayers × Int}
    (h : setsToLayers experts expertMax = some r) :
    r.1.sets = ⟨experts.length, fun i => toNats (experts.getD i ∅)⟩ := by
  obtain ⟨l, hl, rfl⟩ := Option.map_eq_some_iff.mp h
  have hsets := sets_resize hl
  have hlen : l.layers.length = experts.length := by
    have := congrArg Sets.nLayers hsets
    simpa [ExpertLayers.sets] using this
  have hids : ∀ i, l.ids i = ∅ := fun i => congrFun (congrArg Sets.ids hsets) i
  rw [sets_foldl_layers experts 0 (l, expertMax) (by show 0 + _ ≤ l.layers.length; omega) (fun i _ => hids i), Sets.mk.injEq]
  exact ⟨hlen, funext fun i => by rw [if_pos (Nat.zero_le i), Nat.sub_zero]⟩

theorem layersToSets_setsToLayers {experts : List (Finset Int)} {expertMax : Int} {r : ExpertLayers × Int}
    (h : setsToLayers experts expertMax = some r) (hpos : ∀ ids ∈ experts, ∀ i ∈ ids, 0 ≤ i) :
    layersToSets r.1 = experts := by
  have hsets := sets_setsToLayers h
  have hlen : r.1.layers.length = experts.length := congrArg Sets.nLayers hsets
  rw [layersToSets_eq]
  apply List.ext_getElem
  · rw [List.length_map, hlen]
  · intro i hi hi'
    have hids : r.1.ids i = toNats (experts.getD i ∅) := congrFun (congrArg Sets.ids hsets) i
    rw [List.length_map] at hi
    rw [ids_eq (List.getElem?_eq_getElem hi), List.getD_eq_getElem?_getD, List.getElem?_eq_getElem hi'] at hids
    rw [List.getElem_map, hids]
    exact toInts_toNats (hpos _ (List.getElem_mem hi'))

theorem setsToLayers_layersToSets {l : ExpertLayers} {expertMax : Int} {r : ExpertLayers × Int}
    (h : setsToLayers (layersToSets l) expertMax = some r) : r.1.sets = l.sets := by
  rw [sets_setsToLayers h, ExpertLayers.sets, Sets.mk.injEq, layersToSets_eq]
  refine ⟨List.length_map _, funext fun i => ?_⟩
  rw [List.getD_eq_getElem?_getD, List.getElem?_map, ExpertLayers.ids]
  cases l.layers[i]? with
  | none => rfl
  | some s => exact toNats_toInts s.ids

end Conversions

/-! ## Programs -/

section Programs

theorem sets_put (s : State) (x : Nat) (l : ExpertLayers) : (s.put x l).sets = Function.update s.sets x l.sets := by
  funext y
  show (Function.update s.vars x l y).sets = _
  by_cases h : y = x
  · subst h
    simp
  · simp [h, State.sets]

theorem update_sets_iff {v : Nat → Sets} {x : Nat} {a b : Sets} : Function.update v x a = Function.update v x b ↔ a = b := by
  constructor
  · intro h
    simpa using congrFun h x
  · rintro rfl
    rfl

/-- **An operation returns with the sets that it should have exactly if it fits.** -/
theorem step_iff (s : State) (op : Op) : (∃ t, step op s = some t ∧ t.sets = op.spec s.sets) ↔ Fits s op := by
  cases op with
  | resize x nLayers =>
      constructor
      · rintro ⟨t, ht, _⟩
        obtain ⟨l, hl, _⟩ := Option.map_eq_some_iff.mp ht
        obtain ⟨r, hr, _⟩ := Option.map_eq_some_iff.mp hl
        rw [ExpertSet.new] at hr
        split at hr
        · rename_i h
          exact h
        · cases hr
      · intro h
        have hnew : ExpertSet.new s.expertMax = some ⟨List.replicate ((s.expertMax + 63).tdiv 64).toNat 0#64⟩ := if_pos h
        have hres : ExpertLayers.resize nLayers s.expertMax =
            some ⟨List.replicate (max 0 nLayers).toNat ⟨List.replicate ((s.expertMax + 63).tdiv 64).toNat 0#64⟩⟩ := by
          rw [ExpertLayers.resize, hnew]
          rfl
        refine ⟨_, Option.map_eq_some_iff.mpr ⟨_, hres, rfl⟩, ?_⟩
        rw [sets_put, sets_resize hres]
        rfl
  | clear x =>
      refine ⟨fun _ => trivial, fun _ => ⟨_, rfl, ?_⟩⟩
      rw [sets_put, sets_clear]
      rfl
  | set x layer expertId =>
      refine ⟨fun _ => trivial, fun _ => ⟨_, rfl, ?_⟩⟩
      show (s.put x ((s.vars x).set layer expertId s.expertMax).1).sets = _
      rw [sets_put, sets_set]
      rfl
  | copy x y =>
      refine ⟨fun _ => trivial, fun _ => ⟨_, rfl, ?_⟩⟩
      rw [sets_put]
      rfl
  | orWith x y =>
      show _ ↔ Covers (s.vars x) (s.vars y) ∧ Holds (s.vars x) (s.vars y)
      rw [← orWith_iff]
      constructor
      · rintro ⟨t, ht, hsets⟩
        obtain ⟨r, hr, rfl⟩ := Option.map_eq_some_iff.mp ht
        rw [sets_put] at hsets
        exact ⟨r, hr, update_sets_iff.mp hsets⟩
      · rintro ⟨r, hr, hsets⟩
        refine ⟨s.put x r, Option.map_eq_some_iff.mpr ⟨r, hr, rfl⟩, ?_⟩
        rw [sets_put]
        exact update_sets_iff.mpr hsets
  | andnotWith x y =>
      show _ ↔ Covers (s.vars x) (s.vars y)
      rw [← andnotWith_iff]
      constructor
      · rintro ⟨t, ht, hsets⟩
        obtain ⟨r, hr, rfl⟩ := Option.map_eq_some_iff.mp ht
        rw [sets_put] at hsets
        exact ⟨r, hr, update_sets_iff.mp hsets⟩
      · rintro ⟨r, hr, hsets⟩
        refine ⟨s.put x r, Option.map_eq_some_iff.mpr ⟨r, hr, rfl⟩, ?_⟩
        rw [sets_put]
        exact update_sets_iff.mpr hsets

theorem correct_cons {op : Op} {ops : List Op} {s : State} :
    Correct (op :: ops) s ↔ ∃ t, step op s = some t ∧ t.sets = op.spec s.sets ∧ Correct ops t := by
  constructor
  · intro h
    obtain ⟨t, ht, hsets⟩ := h 1
    have hstep : step op s = some t := by
      cases hs : step op s with
      | none => simp [runList, hs] at ht
      | some u => simpa [runList, hs] using ht
    refine ⟨t, hstep, hsets, fun n => ?_⟩
    obtain ⟨u, hu, husets⟩ := h (n + 1)
    rw [List.take_succ_cons] at hu husets
    rw [runList, hstep] at hu
    refine ⟨u, hu, ?_⟩
    rw [husets, List.foldl_cons, ← show t.sets = op.spec s.sets from hsets]
  · rintro ⟨t, hstep, hsets, h⟩ n
    cases n with
    | zero => exact ⟨s, rfl, rfl⟩
    | succ n =>
        obtain ⟨u, hu, husets⟩ := h n
        refine ⟨u, ?_, ?_⟩
        · rw [List.take_succ_cons, runList, hstep]
          exact hu
        · rw [List.take_succ_cons, List.foldl_cons, ← hsets]
          exact husets

/-- By induction on the program: what fits returns, and then the rest is judged from there. -/
theorem correct_iff : ∀ (ops : List Op) (s : State), Correct ops s ↔ AllFit ops s
  | [], s => by
    refine ⟨fun _ => trivial, fun _ n => ⟨s, ?_, ?_⟩⟩ <;> rw [List.take_nil] <;> rfl
  | op :: ops, s => by
    rw [correct_cons, AllFit, ← step_iff]
    constructor
    · rintro ⟨t, hstep, hsets, h⟩
      refine ⟨⟨t, hstep, hsets⟩, fun u hu => ?_⟩
      obtain rfl : t = u := by simpa [hstep] using hu
      exact (correct_iff ops t).mp h
    · rintro ⟨⟨t, hstep, hsets⟩, h⟩
      exact ⟨t, hstep, hsets, (correct_iff ops t).mpr (h t hstep)⟩

end Programs

/-- **A program on sets of experts does what it says exactly if its operands fit**, and never reads outside a row then;
counting and converting are always right. -/
theorem run_iff_fits (expertMax : Int) (ops : List Op) :
    (Correct ops (.start expertMax) ↔ AllFit ops (.start expertMax)) ∧
      (∀ s : ExpertSet, s.popcount = s.ids.card) ∧
      (∀ experts r, setsToLayers experts expertMax = some r → (∀ ids ∈ experts, ∀ i ∈ ids, 0 ≤ i) →
        layersToSets r.1 = experts) ∧
      ∀ l r, setsToLayers (layersToSets l) expertMax = some r → r.1.sets = l.sets :=
  ⟨correct_iff ops _, popcount_eq_card, fun _ _ h hpos => layersToSets_setsToLayers h hpos,
    fun _ _ h => setsToLayers_layersToSets h⟩

/-- **An id that is put in by the routing noise is lost in a union**: the left set was made for 64 experts, and the right
one has grown. -/
theorem grown_not_correct : ¬ Correct [.resize 0 1, .resize 1 1, .set 1 0 64, .orWith 0 1] (.start 64) := by
  intro h
  obtain ⟨t, ht, hsets⟩ := h 4
  have hids := congrFun (congrArg (fun v : Nat → Sets => (v 0).ids) hsets) 0
  cases ht
  revert hids
  decide

end S2Moe.Prune
