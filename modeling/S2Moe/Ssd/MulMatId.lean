import S2Moe.Lib.Bytes
import Mathlib.Data.List.ProdSigma
import Mathlib.Data.Set.Function
import Mathlib.Order.Interval.Set.Defs

/-!
# Sorted expert execution

`ggml_cuda_mul_mat_id` sorts the rows by their experts on the host, gathers them, multiplies the rows of one expert after
the other, and gathers the results back into the order of the tokens.

* `sortIds` : the counting sort, with its two index lists and the rows of each expert;
* `expertStep` : the loop body for one expert, with the two cursors;
* `mulMatId` : the whole;
* `visits` : the order that the sort visits the slots in;
* `mulMatId_spec` : every slot of every token gets what its own expert makes of its own row.
-/

namespace S2Moe.Ssd
open S2Moe.Lib

/-- The shapes and the strides. A token has `ne11` rows of `src1`, and `nExpertUsed` experts. -/
structure Dims where
  ne02 : Nat
  ne12 : Nat
  nExpertUsed : Nat
  ne11 : Nat
  nb11 : Nat
  nb12 : Nat
  nb1 : Nat
  nb2 : Nat

def Dims.nGetRows (d : Dims) : Nat := d.ne12 * d.nExpertUsed

/-! ## The sort -/

/-- `ids_to_sorted_host`, `ids_from_sorted_host` and `tokens_per_expert`. -/
structure HostSort where
  toSorted : List Nat
  fromSorted : Nat → Nat
  tokensPerExpert : Nat → Nat

def HostSort.init : HostSort := ⟨[], fun _ => 0, fun _ => 0⟩

/-- What is done for a slot `v.2` of a token `v.1` that uses the expert. -/
def HostSort.push (d : Dims) (expert : Nat) (s : HostSort) (v : Nat × Nat) : HostSort where
  toSorted := s.toSorted ++ [v.1 * d.ne11 + v.2 % d.ne11]
  fromSorted := Function.update s.fromSorted (v.1 * d.nExpertUsed + v.2) s.toSorted.length
  tokensPerExpert := Function.update s.tokensPerExpert expert (s.tokensPerExpert expert + 1)

variable (d : Dims) (ids : Nat → Nat → Nat)

/-- The first slot of a token that uses an expert. -/
def slotOf (expert token : Nat) : Option Nat := (List.range d.nExpertUsed).find? fun slot => ids token slot == expert

/-- The loop over the slots of a token, which ends at the first one with the expert. -/
def sortToken (expert : Nat) (s : HostSort) (token : Nat) : HostSort :=
  match slotOf d ids expert token with
  | some slot => s.push d expert (token, slot)
  | none => s

def sortIds : HostSort :=
  (List.range d.ne02).foldl (fun s expert => (List.range d.ne12).foldl (sortToken d ids expert) s) HostSort.init

/-! ## The experts -/

/-- The cursors into the sorted rows and results, the sorted results, and the experts whose weights were fetched. -/
structure ExpertRun (γ : Type) where
  srcCur : Nat
  dstCur : Nat
  dst : Nat → γ
  loads : List Nat

variable {α β γ δ : Type}

/-- The loop body for an expert: its rows, from the cursors on. `none` when its weights are missing. -/
def expertStep (tokensPerExpert : Nat → Nat) (load : Nat → Option (β → γ)) (src : Nat → β) (r : ExpertRun γ) (expert : Nat) :
    Option (ExpertRun γ) :=
  if tokensPerExpert expert = 0 then some r
  else (load expert).map fun w =>
    { srcCur := r.srcCur + tokensPerExpert expert
      dstCur := r.dstCur + tokensPerExpert expert
      dst := putRows r.dst r.dstCur ((slice src r.srcCur (tokensPerExpert expert)).map w)
      loads := r.loads ++ [expert] }

/-- The last `get_rows_cuda`: row `i` of the result is the sorted row that `idx i` names. -/
def gather (n nb1 : Nat) (idx : Nat → Nat) (rows : Nat → γ) (convert : γ → δ) (dst : Nat → δ) : Nat → δ :=
  (List.range n).foldl (fun m i => Function.update m (i * nb1) (convert (rows (idx i)))) dst

/-- `ggml_cuda_mul_mat_id`, behind the paths that do not sort. `src1` and `dst` give the row at a byte offset; `load`
fetches the weights of an expert and multiplies with them; the two buffers hold anything before. -/
def mulMatId (src1 : Nat → α) (convertIn : α → β) (load : Nat → Option (β → γ)) (convertOut : γ → δ) (srcBuf : Nat → β)
    (dstBuf : Nat → γ) (dst : Nat → δ) : Option ((Nat → δ) × List Nat) :=
  let s := sortIds d ids
  if s.toSorted.length ≠ d.nGetRows then none
  else
    let src := putRows srcBuf 0 (s.toSorted.map fun i => convertIn (src1 (i * d.nb11)))
    ((List.range d.ne02).foldlM (expertStep s.tokensPerExpert load src) ⟨0, 0, dstBuf, []⟩).map fun r =>
      (gather d.nGetRows d.nb1 s.fromSorted r.dst convertOut dst, r.loads)

/-! ## The order of the visits -/

/-- The slots that use an expert, one for each token. -/
def block (expert : Nat) : List (Nat × Nat) :=
  (List.range d.ne12).filterMap fun token => (slotOf d ids expert token).map fun slot => (token, slot)

/-- The slots in the order of the sort, up to an expert. -/
def visits (n : Nat) : List (Nat × Nat) := (List.range n).flatMap (block d ids)

/-- The sort of a list of slots. -/
def pushAll (s : HostSort) (vs : List (Nat × Nat)) : HostSort := vs.foldl (fun s v => s.push d (ids v.1 v.2) v) s

variable {d ids}

theorem visits_succ (n : Nat) : visits d ids (n + 1) = visits d ids n ++ block d ids n := by
  rw [visits, List.range_succ, List.flatMap_append, List.flatMap_singleton]
  rfl

theorem slotOf_eq_some {expert token slot : Nat} (h : slotOf d ids expert token = some slot) :
    slot < d.nExpertUsed ∧ ids token slot = expert := by
  obtain ⟨hp, -⟩ := List.find?_eq_some_iff_append.mp h
  exact ⟨List.mem_range.mp (List.mem_of_find?_eq_some h), by simpa using hp⟩

theorem mem_block {expert : Nat} {v : Nat × Nat} : v ∈ block d ids expert ↔ v.1 < d.ne12 ∧
    slotOf d ids expert v.1 = some v.2 := by
  simp only [block, List.mem_filterMap, List.mem_range, Option.map_eq_some_iff]
  constructor
  · rintro ⟨token, htoken, slot, hslot, rfl⟩
    exact ⟨htoken, hslot⟩
  · rintro ⟨htoken, hslot⟩
    exact ⟨v.1, htoken, v.2, hslot, rfl⟩

theorem ids_of_mem_block {expert : Nat} {v : Nat × Nat} (h : v ∈ block d ids expert) : ids v.1 v.2 = expert :=
  (slotOf_eq_some (mem_block.mp h).2).2

theorem sortToken_foldl (expert : Nat) (s : HostSort) :
    (List.range d.ne12).foldl (sortToken d ids expert) s = pushAll d ids s (block d ids expert) := by
  rw [pushAll, block, List.foldl_filterMap]
  refine List.foldl_ext _ _ s fun s token _ => ?_
  rw [sortToken]
  cases h : slotOf d ids expert token with
  | none => rfl
  | some slot =>
    simp only [Option.map_some]
    rw [(slotOf_eq_some h).2]

/-- The sort pushes the slots in the order of the visits. -/
theorem sortIds_eq : sortIds d ids = pushAll d ids HostSort.init (visits d ids d.ne02) := by
  rw [sortIds, visits, pushAll, List.foldl_flatMap]
  refine List.foldl_ext _ _ _ fun s expert _ => ?_
  exact sortToken_foldl expert s

theorem pushAll_append_singleton (s : HostSort) (vs : List (Nat × Nat)) (v : Nat × Nat) :
    pushAll d ids s (vs ++ [v]) = (pushAll d ids s vs).push d (ids v.1 v.2) v := by
  rw [pushAll, List.foldl_append]
  rfl

theorem pushAll_toSorted (s : HostSort) (vs : List (Nat × Nat)) :
    (pushAll d ids s vs).toSorted = s.toSorted ++ vs.map fun v => v.1 * d.ne11 + v.2 % d.ne11 := by
  induction vs using List.reverseRecOn with
  | nil => rw [List.map_nil, List.append_nil]; rfl
  | append_singleton vs v ih =>
    rw [pushAll_append_singleton, HostSort.push, ih, List.map_append, List.append_assoc]
    rfl

/-- The place of a slot among the rows of all tokens. -/
def rowOf (d : Dims) (v : Nat × Nat) : Nat := v.1 * d.nExpertUsed + v.2

theorem rowOf_inj {v w : Nat × Nat} (hv : v.2 < d.nExpertUsed) (hw : w.2 < d.nExpertUsed) (h : rowOf d v = rowOf d w) :
    v = w := by
  have hdiv : ∀ {u : Nat × Nat}, u.2 < d.nExpertUsed → rowOf d u / d.nExpertUsed = u.1 := by
    intro u hu
    rw [rowOf, Nat.add_comm, Nat.add_mul_div_right _ _ (by omega), Nat.div_eq_of_lt hu, Nat.zero_add]
  have hmod : ∀ {u : Nat × Nat}, u.2 < d.nExpertUsed → rowOf d u % d.nExpertUsed = u.2 := by
    intro u hu
    rw [rowOf, Nat.add_comm, Nat.add_mul_mod_self_right, Nat.mod_eq_of_lt hu]
  apply Prod.ext
  · rw [← hdiv hv, h, hdiv hw]
  · rw [← hmod hv, h, hmod hw]

/-- Every slot that was pushed finds its place again. -/
theorem pushAll_fromSorted {vs : List (Nat × Nat)} (hnd : vs.Nodup) (hlt : ∀ v ∈ vs, v.2 < d.nExpertUsed) {i : Nat}
    {v : Nat × Nat}
    (h : vs[i]? = some v) : (pushAll d ids HostSort.init vs).fromSorted (rowOf d v) = i := by
  induction vs using List.reverseRecOn with
  | nil => cases h
  | append_singleton vs w ih =>
    obtain ⟨hnd', -, hdisj⟩ := List.nodup_append'.mp hnd
    rw [pushAll_append_singleton, HostSort.push]
    dsimp only
    rcases Nat.lt_or_ge i vs.length with hi | hi
    · rw [List.getElem?_append_left hi] at h
      have hmem := List.mem_of_getElem? h
      have hne : rowOf d v ≠ w.1 * d.nExpertUsed + w.2 := fun heq =>
        hdisj hmem (List.mem_singleton.mpr (rowOf_inj (hlt v (List.mem_append_left _ hmem)) (hlt w (by simp)) heq))
      rw [Function.update_of_ne hne]
      exact ih hnd' (fun u hu => hlt u (List.mem_append_left _ hu)) h
    · have hlen : (pushAll d ids HostSort.init vs).toSorted.length = vs.length := by
        rw [pushAll_toSorted, HostSort.init, List.nil_append, List.length_map]
      rw [List.getElem?_append_right hi, List.getElem?_singleton, Option.ite_none_right_eq_some, Option.some.injEq] at h
      obtain ⟨hi0, rfl⟩ := h
      rw [rowOf, Function.update_self, hlen]
      omega

theorem pushAll_block (s : HostSort) {expert : Nat} : ∀ {vs : List (Nat × Nat)}, (∀ v ∈ vs, ids v.1 v.2 = expert) →
    (pushAll d ids s vs).tokensPerExpert =
      Function.update s.tokensPerExpert expert (s.tokensPerExpert expert + vs.length) := by
  intro vs h
  induction vs using List.reverseRecOn with
  | nil => exact (Function.update_eq_self expert s.tokensPerExpert).symm
  | append_singleton vs v ih =>
    rw [pushAll_append_singleton, HostSort.push, ih fun u hu => h u (List.mem_append_left _ hu), h v (by simp)]
    dsimp only
    rw [Function.update_idem, Function.update_self, List.length_append, List.length_singleton, Nat.add_assoc]

/-- The rows of an expert are the slots that use it. -/
theorem pushAll_tokensPerExpert : ∀ (n expert : Nat), (pushAll d ids HostSort.init (visits d ids n)).tokensPerExpert expert =
    if expert < n then (block d ids expert).length else 0
  | 0, _ => rfl
  | n + 1, expert => by
    rw [visits_succ, pushAll, List.foldl_append, ← pushAll, ← pushAll, pushAll_block _ fun v hv => ids_of_mem_block hv]
    rcases eq_or_ne expert n with rfl | hne
    · rw [Function.update_self, pushAll_tokensPerExpert expert expert, if_neg (Nat.lt_irrefl _), if_pos (Nat.lt_succ_self _),
        Nat.zero_add]
    · rw [Function.update_of_ne hne, pushAll_tokensPerExpert n expert]
      exact if_congr (by omega) rfl rfl

/-! ## Routings -/

/-- Every slot has an expert there is, and the slots of a token have different ones. -/
structure Routing (d : Dims) (ids : Nat → Nat → Nat) : Prop where
  lt : ∀ token < d.ne12, ∀ slot < d.nExpertUsed, ids token slot < d.ne02
  inj : ∀ token < d.ne12, ∀ slot < d.nExpertUsed, ∀ slot' < d.nExpertUsed, ids token slot = ids token slot' → slot = slot'

/-- Some token goes to the expert. -/
def Used (d : Dims) (ids : Nat → Nat → Nat) (expert : Nat) : Prop :=
  ∃ token < d.ne12, ∃ slot < d.nExpertUsed, ids token slot = expert

theorem Routing.slotOf (h : Routing d ids) {token slot : Nat} (ht : token < d.ne12) (hs : slot < d.nExpertUsed) :
    slotOf d ids (ids token slot) token = some slot := by
  cases hfind : Ssd.slotOf d ids (ids token slot) token with
  | none =>
    rw [Ssd.slotOf, List.find?_eq_none] at hfind
    exact absurd (by simp) (hfind slot (List.mem_range.mpr hs))
  | some slot' =>
    obtain ⟨hlt, heq⟩ := slotOf_eq_some hfind
    rw [h.inj token ht slot' hlt slot hs heq]

theorem Routing.mem_visits (h : Routing d ids) {v : Nat × Nat} : v ∈ visits d ids d.ne02 ↔ v.1 < d.ne12 ∧
    v.2 < d.nExpertUsed := by
  rw [visits, List.mem_flatMap]
  constructor
  · rintro ⟨expert, -, hv⟩
    obtain ⟨ht, hs⟩ := mem_block.mp hv
    exact ⟨ht, (slotOf_eq_some hs).1⟩
  · rintro ⟨ht, hs⟩
    exact ⟨ids v.1 v.2, List.mem_range.mpr (h.lt _ ht _ hs), mem_block.mpr ⟨ht, h.slotOf ht hs⟩⟩

theorem block_nodup (expert : Nat) : (block d ids expert).Nodup := by
  refine List.nodup_range.filterMap fun token token' v hv hv' => ?_
  rw [Option.mem_def, Option.map_eq_some_iff] at hv hv'
  obtain ⟨_, -, rfl⟩ := hv
  obtain ⟨_, -, heq⟩ := hv'
  exact (congrArg Prod.fst heq).symm

theorem visits_nodup (n : Nat) : (visits d ids n).Nodup := by
  rw [visits, List.nodup_flatMap]
  refine ⟨fun expert _ => block_nodup expert, List.nodup_range.imp fun {e e'} hne v hv hv' => hne ?_⟩
  rw [← ids_of_mem_block hv, ids_of_mem_block hv']

/-- Each slot of each token is visited once. -/
theorem Routing.length_visits (h : Routing d ids) : (visits d ids d.ne02).length = d.nGetRows := by
  have hperm : (visits d ids d.ne02).Perm (List.range d.ne12 ×ˢ List.range d.nExpertUsed) := by
    rw [List.perm_ext_iff_of_nodup (visits_nodup _) (List.nodup_range.product List.nodup_range)]
    intro v
    rw [h.mem_visits, List.mem_product, List.mem_range, List.mem_range]
  rw [hperm.length_eq, List.length_product, List.length_range, List.length_range, Dims.nGetRows]

theorem Routing.block_eq_nil_iff (h : Routing d ids) {expert : Nat} : block d ids expert = [] ↔ ¬ Used d ids expert := by
  rw [List.eq_nil_iff_forall_not_mem]
  constructor
  · rintro hno ⟨token, ht, slot, hs, rfl⟩
    exact hno (token, slot) (mem_block.mpr ⟨ht, h.slotOf ht hs⟩)
  · rintro hno v hv
    obtain ⟨ht, hs⟩ := mem_block.mp hv
    exact hno ⟨v.1, ht, v.2, slotOf_eq_some hs⟩

/-! ## The expert loop -/

/-- Behind the first `n` experts, both cursors are behind their rows, and each row is what its expert made of it. -/
structure Done (load : Nat → Option (β → γ)) (src : Nat → β) (d : Dims) (ids : Nat → Nat → Nat) (n : Nat)
    (r : ExpertRun γ) : Prop where
  srcCur : r.srcCur = (visits d ids n).length
  dstCur : r.dstCur = (visits d ids n).length
  dst : ∀ i v, (visits d ids n)[i]? = some v → ∃ w, load (ids v.1 v.2) = some w ∧ r.dst i = w (src i)
  loads : r.loads = (List.range n).filter fun e => (block d ids e).length ≠ 0

theorem getElem?_slice_map {src : Nat → β} {a n i : Nat} (w : β → γ) (h : i < n) :
    ((slice src a n).map w)[i]? = some (w (src (a + i))) := by
  rw [slice, List.map_map, List.getElem?_map, List.getElem?_range' h, Nat.one_mul]
  rfl

/-- One expert: an unused one changes nothing, and moves no cursor. -/
theorem Done.step {load : Nat → Option (β → γ)} {src : Nat → β} {n : Nat} {r : ExpertRun γ} (h : Done load src d ids n r)
    {tokensPerExpert : Nat → Nat} (htokens : tokensPerExpert n = (block d ids n).length)
    (hload : (block d ids n).length ≠ 0 → (load n).isSome) :
    ∃ r', expertStep tokensPerExpert load src r n = some r' ∧ Done load src d ids (n + 1) r' := by
  rw [expertStep, htokens]
  by_cases hzero : (block d ids n).length = 0
  · have hvisits : visits d ids (n + 1) = visits d ids n := by
      rw [visits_succ, List.eq_nil_of_length_eq_zero hzero, List.append_nil]
    refine ⟨r, if_pos hzero, ⟨hvisits ▸ h.srcCur, hvisits ▸ h.dstCur, hvisits ▸ h.dst, ?_⟩⟩
    rw [h.loads, List.range_succ, List.filter_append, List.filter_singleton]
    simp [hzero]
  · obtain ⟨w, hw⟩ := Option.isSome_iff_exists.mp (hload hzero)
    rw [if_neg hzero, hw]
    refine ⟨_, rfl, ⟨?_, ?_, fun i v hv => ?_, ?_⟩⟩
    · rw [visits_succ, List.length_append, h.srcCur]
    · rw [visits_succ, List.length_append, h.dstCur]
    · rw [visits_succ] at hv
      dsimp only
      rcases Nat.lt_or_ge i (visits d ids n).length with hi | hi
      · -- a row of an earlier expert
        rw [List.getElem?_append_left hi] at hv
        rw [h.dstCur, putRows_of_lt hi]
        exact h.dst i v hv
      · obtain ⟨k, rfl⟩ := Nat.exists_eq_add_of_le hi
        rw [List.getElem?_append_right hi, Nat.add_sub_cancel_left] at hv
        have hk : k < (block d ids n).length := (List.getElem?_eq_some_iff.mp hv).1
        refine ⟨w, ?_, ?_⟩
        · rw [ids_of_mem_block (List.mem_of_getElem? hv), hw]
        · rw [h.dstCur, h.srcCur]
          exact putRows_of_getElem (getElem?_slice_map w hk)
    · rw [h.loads, List.range_succ, List.filter_append, List.filter_singleton]
      simp [hzero]

/-- All experts up to `n`. -/
theorem experts_run (load : Nat → Option (β → γ)) (src : Nat → β) (buf : Nat → γ) {tokensPerExpert : Nat → Nat} : ∀ (n : Nat),
    (∀ e < n, tokensPerExpert e = (block d ids e).length) → (∀ e < n, (block d ids e).length ≠ 0 → (load e).isSome) →
    ∃ r, (List.range n).foldlM (expertStep tokensPerExpert load src) ⟨0, 0, buf, []⟩ = some r ∧ Done load src d ids n r
  | 0, _, _ => ⟨_, rfl, ⟨rfl, rfl, (fun _ _ hv => by cases hv), rfl⟩⟩
  | n + 1, htokens, hload => by
    obtain ⟨r, hrun, hdone⟩ := experts_run load src buf n (fun e he => htokens e (by omega)) fun e he => hload e (by omega)
    obtain ⟨r', hstep, hdone'⟩ := hdone.step (htokens n (Nat.lt_succ_self n)) (hload n (Nat.lt_succ_self n))
    refine ⟨r', ?_, hdone'⟩
    rw [List.range_succ, List.foldlM_append, hrun, Option.bind_eq_bind, Option.bind_some, List.foldlM_cons, hstep]
    rfl

/-! ## The whole -/

theorem gather_eq {n nb1 : Nat} (hnb1 : 0 < nb1) {idx : Nat → Nat} {rows : Nat → γ} {convert : γ → δ} {dst : Nat → δ} :
    ∀ {i : Nat}, i < n → gather n nb1 idx rows convert dst (i * nb1) = convert (rows (idx i)) := by
  induction n with
  | zero => intro i hi; omega
  | succ n ih =>
    intro i hi
    rw [gather, List.range_succ, List.foldl_append]
    change Function.update (gather n nb1 idx rows convert dst) (n * nb1) (convert (rows (idx n))) (i * nb1) = _
    rcases Nat.lt_or_ge i n with hlt | hge
    · have hne : i * nb1 ≠ n * nb1 := fun h => absurd (Nat.eq_of_mul_eq_mul_right hnb1 h) (by omega)
      rw [Function.update_of_ne hne, ih hlt]
    · obtain rfl : i = n := by omega
      rw [Function.update_self]

/-- The rows of `src1` lie one behind the other, and so do those of the result. -/
structure Contiguous (d : Dims) : Prop where
  src1 : d.nb12 = d.ne11 * d.nb11
  dst : d.nb2 = d.nExpertUsed * d.nb1
  nb1_pos : 0 < d.nb1

/-- The index lists agree: one orders the sorted rows as the slots are, and the other has at that place the row of the
slot. Without a broadcast the two are inverse to each other. -/
structure Consistent (d : Dims) (s : HostSort) : Prop where
  length : s.toSorted.length = d.nGetRows
  bijOn : Set.BijOn s.fromSorted (Set.Iio d.nGetRows) (Set.Iio d.nGetRows)
  row : ∀ token < d.ne12, ∀ slot < d.nExpertUsed,
    s.toSorted[s.fromSorted (token * d.nExpertUsed + slot)]? = some (token * d.ne11 + slot % d.ne11)
  perm : d.ne11 = d.nExpertUsed → s.toSorted.Perm (List.range d.nGetRows)

/-- A slot is where its row says. -/
theorem Routing.fromSorted (h : Routing d ids) {token slot : Nat} (ht : token < d.ne12) (hs : slot < d.nExpertUsed) :
    (visits d ids d.ne02)[(sortIds d ids).fromSorted (token * d.nExpertUsed + slot)]? = some (token, slot) := by
  obtain ⟨i, hi, hget⟩ := List.mem_iff_getElem.mp (h.mem_visits (v := (token, slot)).mpr ⟨ht, hs⟩)
  have hi? : (visits d ids d.ne02)[i]? = some (token, slot) := List.getElem?_eq_some_iff.mpr ⟨hi, hget⟩
  have hfrom : (pushAll d ids HostSort.init (visits d ids d.ne02)).fromSorted (rowOf d (token, slot)) = i :=
    pushAll_fromSorted (visits_nodup _) (fun v hv => (h.mem_visits.mp hv).2) hi?
  rw [rowOf, ← sortIds_eq] at hfrom
  rw [hfrom, hi?]

theorem sortIds_toSorted : (sortIds d ids).toSorted = (visits d ids d.ne02).map fun v => v.1 * d.ne11 + v.2 % d.ne11 := by
  rw [sortIds_eq, pushAll_toSorted]
  rfl

theorem rowOf_lt {v : Nat × Nat} (ht : v.1 < d.ne12) (hs : v.2 < d.nExpertUsed) : rowOf d v < d.nGetRows := by
  have hle : (v.1 + 1) * d.nExpertUsed ≤ d.ne12 * d.nExpertUsed := Nat.mul_le_mul_right _ ht
  rw [Nat.succ_mul] at hle
  rw [rowOf, Dims.nGetRows]
  omega

theorem exists_rowOf {i : Nat} (hi : i < d.nGetRows) : ∃ token < d.ne12, ∃ slot < d.nExpertUsed,
    i = token * d.nExpertUsed + slot := by
  have hpos : 0 < d.nExpertUsed := by
    rcases Nat.eq_zero_or_pos d.nExpertUsed with hz | hpos
    · rw [Dims.nGetRows, hz, Nat.mul_zero] at hi
      omega
    · exact hpos
  exact ⟨i / d.nExpertUsed, Nat.div_lt_of_lt_mul (by rwa [Nat.mul_comm]), i % d.nExpertUsed, Nat.mod_lt _ hpos,
    (Nat.div_add_mod' i d.nExpertUsed).symm⟩

theorem Routing.consistent (h : Routing d ids) : Consistent d (sortIds d ids) := by
  have hlength : (sortIds d ids).toSorted.length = d.nGetRows := by
    rw [sortIds_toSorted, List.length_map, h.length_visits]
  refine ⟨hlength, ⟨fun i hi => ?_, fun i hi j hj hij => ?_, fun k hk => ?_⟩, fun token ht slot hs => ?_, fun hne => ?_⟩
  · obtain ⟨token, ht, slot, hs, rfl⟩ := exists_rowOf hi
    obtain ⟨hlt, -⟩ := List.getElem?_eq_some_iff.mp (h.fromSorted ht hs)
    rw [h.length_visits] at hlt
    exact hlt
  · obtain ⟨token, ht, slot, hs, rfl⟩ := exists_rowOf hi
    obtain ⟨token', ht', slot', hs', rfl⟩ := exists_rowOf hj
    have hget := h.fromSorted ht hs
    rw [hij, h.fromSorted ht' hs', Option.some.injEq, Prod.mk.injEq] at hget
    rw [hget.1, hget.2]
  · rw [Set.mem_Iio, ← h.length_visits] at hk
    have hk? := List.getElem?_eq_getElem hk
    obtain ⟨ht, hs⟩ := h.mem_visits.mp (List.getElem_mem hk)
    refine ⟨rowOf d (visits d ids d.ne02)[k], rowOf_lt ht hs, ?_⟩
    rw [sortIds_eq]
    exact pushAll_fromSorted (visits_nodup _) (fun v hv => (h.mem_visits.mp hv).2) hk?
  · rw [sortIds_toSorted, List.getElem?_map, h.fromSorted ht hs]
    rfl
  · have hrow : (sortIds d ids).toSorted = (visits d ids d.ne02).map (rowOf d) := by
      rw [sortIds_toSorted]
      refine List.map_congr_left fun v hv => ?_
      rw [hne, Nat.mod_eq_of_lt (h.mem_visits.mp hv).2, rowOf]
    have hnd : ((visits d ids d.ne02).map (rowOf d)).Nodup :=
      (visits_nodup _).map_on fun v hv w hw => rowOf_inj (h.mem_visits.mp hv).2 (h.mem_visits.mp hw).2
    rw [hrow, List.perm_ext_iff_of_nodup hnd List.nodup_range]
    intro i
    rw [List.mem_map, List.mem_range]
    constructor
    · rintro ⟨v, hv, rfl⟩
      exact rowOf_lt (h.mem_visits.mp hv).1 (h.mem_visits.mp hv).2
    · intro hi
      obtain ⟨token, ht, slot, hs, rfl⟩ := exists_rowOf hi
      exact ⟨(token, slot), h.mem_visits.mpr ⟨ht, hs⟩, rfl⟩

/-- **Sorted execution is direct execution.** Whatever the buffers held, every slot of every token gets what its own
expert makes of its own row; the index lists are consistent; and the experts whose weights are fetched are the ones in
use, each once. -/
theorem mulMatId_spec (h : Routing d ids) (hd : Contiguous d) (src1 : Nat → α) (convertIn : α → β) (w : Nat → β → γ)
    (load : Nat → Option (β → γ)) (hload : ∀ e, Used d ids e → load e = some (w e)) (convertOut : γ → δ) (srcBuf : Nat → β)
    (dstBuf : Nat → γ) (dst : Nat → δ) :
    ∃ out loads, mulMatId d ids src1 convertIn load convertOut srcBuf dstBuf dst = some (out, loads) ∧
      (∀ token < d.ne12, ∀ slot < d.nExpertUsed, out (token * d.nb2 + slot * d.nb1) =
        convertOut (w (ids token slot) (convertIn (src1 (token * d.nb12 + slot % d.ne11 * d.nb11))))) ∧
      Consistent d (sortIds d ids) ∧ loads.Nodup ∧ ∀ e, e ∈ loads ↔ Used d ids e := by
  have hcons := h.consistent
  have hused : ∀ e, (block d ids e).length ≠ 0 ↔ Used d ids e := by
    intro e
    rw [ne_eq, List.length_eq_zero_iff, h.block_eq_nil_iff, not_not]
  have htokens : ∀ e < d.ne02, (sortIds d ids).tokensPerExpert e = (block d ids e).length := by
    intro e he
    rw [sortIds_eq, pushAll_tokensPerExpert, if_pos he]
  set src := putRows srcBuf 0 ((sortIds d ids).toSorted.map fun i => convertIn (src1 (i * d.nb11))) with hsrc
  obtain ⟨r, hrun, hdone⟩ := experts_run load src dstBuf _ htokens
    fun e _ hne => by rw [hload e ((hused e).mp hne)]; rfl
  refine ⟨gather d.nGetRows d.nb1 (sortIds d ids).fromSorted r.dst convertOut dst, r.loads, ?_, fun token ht slot hs =>
    ?_, hcons, ?_,
    fun e => ?_⟩
  · rw [mulMatId]
    dsimp only
    rw [if_neg (not_not.mpr hcons.length), ← hsrc, hrun]
    rfl
  · -- the sorted row of the slot, and what its expert made of it
    have hplace := h.fromSorted ht hs
    obtain ⟨w', hw', hdst⟩ := hdone.dst _ _ hplace
    rw [hload _ ⟨token, ht, slot, hs, rfl⟩, Option.some.injEq] at hw'
    have hrow : src ((sortIds d ids).fromSorted (token * d.nExpertUsed + slot)) =
        convertIn (src1 ((token * d.ne11 + slot % d.ne11) * d.nb11)) := by
      have hput := putRows_of_getElem (m := srcBuf) (n := 0)
        (show ((sortIds d ids).toSorted.map fun i => convertIn (src1 (i * d.nb11)))[_]? = some _ by
          rw [List.getElem?_map, hcons.row token ht slot hs, Option.map_some])
      rwa [Nat.zero_add] at hput
    have hoffs : token * d.nb2 + slot * d.nb1 = (token * d.nExpertUsed + slot) * d.nb1 := by
      rw [hd.dst]
      ring
    have hsrcOffs : token * d.nb12 + slot % d.ne11 * d.nb11 = (token * d.ne11 + slot % d.ne11) * d.nb11 := by
      rw [hd.src1]
      ring
    have hlt : token * d.nExpertUsed + slot < d.nGetRows := rowOf_lt (v := (token, slot)) ht hs
    rw [hoffs, gather_eq hd.nb1_pos hlt, hdst, ← hw', hrow, hsrcOffs]
  · rw [hdone.loads]
    exact List.nodup_range.filter _
  · rw [hdone.loads, List.mem_filter, List.mem_range, decide_eq_true_eq, hused]
    refine ⟨fun he => he.2, fun he => ⟨?_, he⟩⟩
    obtain ⟨token, ht, slot, hs, rfl⟩ := he
    exact h.lt token ht slot hs

/-- Two tokens with two of three experts each, and one row for both slots. -/
def twoOfThree : Dims where
  ne02 := 3
  ne12 := 2
  nExpertUsed := 2
  ne11 := 1
  nb11 := 8
  nb12 := 8
  nb1 := 4
  nb2 := 8

theorem mulMatId_spec_twoOfThree : ∃ out loads,
    mulMatId twoOfThree (fun token slot => (2 + slot + token) % 3) (fun offs => offs) id
      (fun e => some fun x => 10 * x + e) id
      (fun _ => 0) (fun _ => 0) (fun _ => 0) = some (out, loads) ∧
    (∀ token < twoOfThree.ne12, ∀ slot < twoOfThree.nExpertUsed, out (token * twoOfThree.nb2 + slot * twoOfThree.nb1) =
      id (10 * id (token * twoOfThree.nb12 + slot % twoOfThree.ne11 * twoOfThree.nb11) + (2 + slot + token) % 3)) ∧
    Consistent twoOfThree (sortIds twoOfThree fun token slot => (2 + slot + token) % 3) ∧ loads.Nodup ∧
    ∀ e, e ∈ loads ↔ Used twoOfThree (fun token slot => (2 + slot + token) % 3) e :=
  mulMatId_spec ⟨by decide, by decide⟩ ⟨rfl, rfl, by decide⟩ (fun offs => offs) id (fun e x => 10 * x + e) _
    (fun _ _ => rfl) id _ _ _

-- token 0 uses the experts 2 and 0, and token 1 uses 0 and 1
example : ((mulMatId twoOfThree (fun token slot => (2 + slot + token) % 3) (fun offs => offs) id
    (fun e => some fun x => 10 * x + e)
    id (fun _ => 0) (fun _ => 0) (fun _ => 7)).map fun r => ((List.range 4).map fun i => r.1 (4 * i), r.2)) =
      some ([2, 0, 80, 81], [0, 1, 2]) := by decide

end S2Moe.Ssd
