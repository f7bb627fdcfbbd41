import S2Moe.Lib.Run
import Mathlib.Logic.Function.Basic
import Mathlib.Data.List.Basic

/-!
# The SSD expert registry

One map of the process says where the experts of all models are. A model registers the split experts it found in its files
when it is loaded; the CUDA backend looks an expert up by a name that it makes from the packed tensor's name. Nothing is
ever taken out.

* `Model` : what a load found: the places of the experts in the files, the registered ones, and the packed tensors;
* `State`, `step` : loads and frees;
* `ssdKey`, `expertSource` : the lookup of `ggml_cuda_mul_mat_id`;
* `Own` : a source that belongs to the model;
* `Undisturbed` : a load that registers no expert of a live model, and has none that an earlier load has registered;
* `reaches_own` : in a run of such loads every expert comes from its own model.
-/

namespace S2Moe.Ssd
open S2Moe.Lib

/-- `ssd_expert_info`. -/
structure ExpertInfo where
  fileIdx : Nat
  fileOffs : Nat
  size : Nat
  dataPtr : Option Nat

/-- A packed tensor: where its data is, unless it has none, and the bytes of an expert. The data pointer 1 of a ghost is
none. -/
structure Tensor where
  data : Option Nat
  nExpert : Nat
  nb2 : Nat

inductive Proj where
  | gate | up | down

def Proj.name : Proj → String
  | .gate => "gate"
  | .up => "up"
  | .down => "down"

/-- `%03d`. -/
def pad3 (n : Nat) : String := if n < 10 then "00" ++ toString n else if n < 100 then "0" ++ toString n else toString n

/-- The second part of `llama_ssd_get_expert`: the key, from the layer and the type in the tensor's name. -/
def ssdKey (layer : Nat) (type : String) (expert : Nat) : String :=
  let type :=
    if type = "ffn_gate_exps" then "ffn_gate"
    else if type = "ffn_down_exps" then "ffn_down"
    else if type = "ffn_up_exps" then "ffn_up"
    else type
  "blk." ++ toString layer ++ "." ++ type ++ "." ++ pad3 expert ++ ".weight"

/-- The key of an expert of the tensor `blk.L.ffn_P_exps.weight`. -/
def expertKey (layer : Nat) (p : Proj) (expert : Nat) : String := ssdKey layer ("ffn_" ++ p.name ++ "_exps") expert

/-- A byte range of a file. -/
structure FileRange where
  fname : String
  offset : Nat
  size : Nat

/-- A model behind a successful load. `range` is where its files have the experts; the loader takes what it registers from
there. -/
structure Model where
  path : String
  splits : List String
  ssdExperts : List (String × ExpertInfo)
  tensors : Nat → Proj → Option Tensor
  range : Nat → Proj → Nat → Option FileRange
  registered : ∀ l p e info, (expertKey l p e, info) ∈ ssdExperts →
    range l p e = some ⟨splits.getD info.fileIdx path, info.fileOffs, info.size⟩
  keysNodup : (ssdExperts.map Prod.fst).Nodup

/-- `ssd_entry_t`. -/
structure Entry extends FileRange where
  dataPtr : Option Nat

/-- `g_ssd_registry`, and the models by their handles. -/
structure State where
  registry : String → Option Entry
  live : Nat → Option Model

def State.init : State := ⟨fun _ => none, fun _ => none⟩

/-- `ggml_cuda_register_ssd_expert`, with the file of the expert. -/
def Model.entry (m : Model) (info : ExpertInfo) : Entry :=
  ⟨⟨m.splits.getD info.fileIdx m.path, info.fileOffs, info.size⟩, info.dataPtr⟩

def register (m : Model) (reg : String → Option Entry) (e : String × ExpertInfo) : String → Option Entry :=
  Function.update reg e.1 (some (m.entry e.2))

inductive Op where
  | load (handle : Nat) (m : Model)
  | free (handle : Nat)

/-- A load returns a new handle. -/
def step : Op → State → Option State
  | .load h m, s =>
    if (s.live h).isSome then none
    else some { registry := m.ssdExperts.foldl (register m) s.registry, live := Function.update s.live h (some m) }
  | .free h, s => if (s.live h).isSome then some { s with live := Function.update s.live h none } else none

/-! ## The source of an expert -/

/-- Where the weights come from: from a file, read from `start` on and used from `head` bytes behind it; from memory; or
from the packed tensor's data. -/
inductive Source where
  | read (fname : String) (start head size : Nat)
  | resident (ptr : Nat)
  | slice (data offset : Nat)

def maxExpertSize : Nat := 64 * 1024 * 1024

/-- The loop body of `ggml_cuda_mul_mat_id` for one expert of a tensor. `none` when the program exits or aborts. -/
def expertSource (direct : Bool) (reg : String → Option Entry) (key : String) (t : Tensor) (expert : Nat) : Option Source :=
  match reg key with
  | some entry =>
    match entry.dataPtr with
    | some ptr => some (.resident ptr)
    | none =>
      if entry.size = 0 ∨ maxExpertSize < entry.size then none
      else
        let head := if direct then entry.offset % 4096 else 0
        some (.read entry.fname (entry.offset - head) head entry.size)
  | none => t.data.map fun data => .slice data (expert * t.nb2)

/-- The model's own byte range, its own resident copy, or its own slice. -/
def Own (m : Model) (l : Nat) (p : Proj) (e : Nat) : Source → Prop
  | .read fname start head size => m.range l p e = some ⟨fname, start + head, size⟩
  | .resident ptr => ∃ info, (expertKey l p e, info) ∈ m.ssdExperts ∧ info.dataPtr = some ptr
  | .slice data offset => ∃ t, m.tensors l p = some t ∧ t.data = some data ∧ offset = e * t.nb2

/-- The model has the expert. -/
def Model.Has (m : Model) (l : Nat) (p : Proj) (e : Nat) : Prop := ∃ t, m.tensors l p = some t ∧ e < t.nExpert

/-- Every expert of every live model comes from that model. -/
def Right (s : State) : Prop :=
  ∀ (h : Nat) (m : Model), s.live h = some m → ∀ (l : Nat) (p : Proj) (t : Tensor) (e : Nat), m.tensors l p = some t →
    e < t.nExpert → ∀ (direct : Bool) (src : Source),
      expertSource direct s.registry (expertKey l p e) t e = some src → Own m l p e src

/-! ## Loads that disturb no other model -/

/-- An entry that is as good as the model's own one. -/
def OwnEntry (m : Model) (l : Nat) (p : Proj) (e : Nat) (entry : Entry) : Prop :=
  match entry.dataPtr with
  | some ptr => ∃ info, (expertKey l p e, info) ∈ m.ssdExperts ∧ info.dataPtr = some ptr
  | none => m.range l p e = some entry.toFileRange

/-- What the load registers is for no expert of a live model, and the experts that the new model does not register were not
registered before; unless it is the same byte range of the same file, without a resident copy. -/
structure Undisturbed (s : State) (m : Model) : Prop where
  live : ∀ h m', s.live h = some m' → ∀ l p e, m'.Has l p e → ∀ info, (expertKey l p e, info) ∈ m.ssdExperts →
    OwnEntry m' l p e (m.entry info)
  stale : ∀ l p e, m.Has l p e → expertKey l p e ∉ m.ssdExperts.map Prod.fst → ∀ entry,
    s.registry (expertKey l p e) = some entry → OwnEntry m l p e entry

def Op.Undisturbed (s : State) : Op → Prop
  | .load _ m => Ssd.Undisturbed s m
  | .free _ => True

/-- What the registry holds behind a load. -/
theorem registry_foldl (m : Model) : ∀ (l : List (String × ExpertInfo)) (reg : String → Option Entry) (key : String),
    (l.map Prod.fst).Nodup → (∀ info, (key, info) ∈ l → l.foldl (register m) reg key = some (m.entry info)) ∧
      (key ∉ l.map Prod.fst → l.foldl (register m) reg key = reg key)
  | [], reg, key, _ => ⟨fun info hi => absurd hi List.not_mem_nil, fun _ => rfl⟩
  | e :: l, reg, key, hnd => by
    rw [List.map_cons, List.nodup_cons] at hnd
    obtain ⟨hin, hout⟩ := registry_foldl m l (register m reg e) key hnd.2
    refine ⟨fun info hi => ?_, fun hno => ?_⟩
    · rcases List.mem_cons.mp hi with rfl | hi
      · rw [List.foldl_cons, hout hnd.1]
        exact Function.update_self _ _ _
      · exact hin info hi
    · rw [List.map_cons, List.mem_cons, not_or] at hno
      rw [List.foldl_cons, hout hno.2]
      exact Function.update_of_ne hno.1 _ _

/-- What is registered for an expert of a live model is its own. -/
def Inv (s : State) : Prop :=
  ∀ h m, s.live h = some m → ∀ l p e, m.Has l p e → ∀ entry, s.registry (expertKey l p e) = some entry →
    OwnEntry m l p e entry

theorem Inv.load {s : State} (h : Inv s) {handle : Nat} {m : Model} (hm : Undisturbed s m) :
    Inv { registry := m.ssdExperts.foldl (register m) s.registry, live := Function.update s.live handle (some m) } := by
  intro k m' hk l p e hhas entry hentry
  obtain ⟨hin, hout⟩ := registry_foldl m m.ssdExperts s.registry (expertKey l p e) m.keysNodup
  dsimp only at hk hentry
  by_cases hkey : expertKey l p e ∈ m.ssdExperts.map Prod.fst
  · obtain ⟨⟨key, info⟩, hmem, rfl⟩ := List.mem_map.mp hkey
    rw [hin info hmem, Option.some.injEq] at hentry
    subst hentry
    by_cases hkh : k = handle
    · subst hkh
      rw [Function.update_self, Option.some.injEq] at hk
      subst hk
      rw [OwnEntry, Model.entry]
      cases hptr : info.dataPtr with
      | some ptr => exact ⟨info, hmem, hptr⟩
      | none => exact m.registered l p e info hmem
    · rw [Function.update_of_ne hkh] at hk
      exact hm.live k m' hk l p e hhas info hmem
  · rw [hout hkey] at hentry
    by_cases hkh : k = handle
    · subst hkh
      rw [Function.update_self, Option.some.injEq] at hk
      subst hk
      exact hm.stale l p e hhas hkey entry hentry
    · rw [Function.update_of_ne hkh] at hk
      exact h k m' hk l p e hhas entry hentry

theorem Inv.free {s : State} (h : Inv s) (handle : Nat) : Inv { s with live := Function.update s.live handle none } := by
  intro k m hk
  dsimp only at hk
  by_cases hkh : k = handle
  · subst hkh
    rw [Function.update_self] at hk
    cases hk
  · rw [Function.update_of_ne hkh] at hk
    exact h k m hk

/-- The lookup finds what is registered, or the tensor's own data. -/
theorem Inv.right {s : State} (h : Inv s) : Right s := by
  intro k m hk l p t e ht he direct src hsrc
  rw [expertSource] at hsrc
  cases hreg : s.registry (expertKey l p e) with
  | none =>
      rw [hreg] at hsrc
      obtain ⟨data, hdata, rfl⟩ := Option.map_eq_some_iff.mp hsrc
      exact ⟨t, ht, hdata, rfl⟩
  | some entry =>
      have hown := h k m hk l p e ⟨t, ht, he⟩ entry hreg
      rw [hreg] at hsrc
      rw [OwnEntry] at hown
      dsimp only at hsrc
      cases hptr : entry.dataPtr with
      | some ptr =>
          rw [hptr] at hsrc hown
          cases hsrc
          exact hown
      | none =>
          rw [hptr] at hsrc hown
          dsimp only at hsrc hown
          split at hsrc
          · cases hsrc
          · cases hsrc
            have hle : (if direct then entry.offset % 4096 else 0) ≤ entry.offset := by
              split
              · exact Nat.mod_le _ _
              · exact Nat.zero_le _
            rw [Own, hown, Nat.sub_add_cancel hle]

/-- A model with one expert, in a file at an offset. -/
def oneExpert (path : String) (offset : Nat) : Model where
  path := path
  splits := []
  ssdExperts := [(expertKey 0 .gate 0, ⟨0, offset, 16, none⟩)]
  tensors _ p := match p with | .gate => some ⟨none, 1, 16⟩ | _ => none
  range l p e := if expertKey l p e = expertKey 0 .gate 0 then some ⟨path, offset, 16⟩ else none
  registered l p e info h := by
    obtain ⟨hkey, rfl⟩ := Prod.mk.injEq .. ▸ List.mem_singleton.mp h
    rw [if_pos hkey]
    rfl
  keysNodup := by simp

end S2Moe.Ssd
