import Mathlib.Data.List.Chain
import Mathlib.Tactic
import S2Moe.Lib.Loop

/-!
# Logits over a draft vocabulary

A draft model may score only part of the tokens. Its map says how far the id of a draft token lies from that of the target
token, and `decode` puts the logits where the target tokens are.

* `Model` : the map, which stays in range and meets no target token twice;
* `expandRow`, `dflashExpandLogits`, `extract`, `decode` : the expansion, and the map that EAGLE3 keeps between decodes;
* `Exposed` : what a row shows; `Reads` : the rows that the drafters look at;
* `allExposed_iff` : the rows are right in every run just when the kept map is that of the model whenever the sizes are the
same; `staleMap_not_exposed` : two models of one size.
-/

namespace S2Moe.DraftVocab
open S2Moe.Lib

variable {L : Type} (negInf : L)

/-- `LLM_ARCH_EAGLE3`, `LLM_ARCH_DFLASH`. -/
inductive Arch where
  | eagle3 | dflash
deriving DecidableEq

/-- `j + d2t_map[j]`. -/
def targetId (d2t : List Int) (j : Nat) : Int := j + d2t.getD j 0

/-- A draft model with a map: `d2t` of EAGLE3, `ea_layer.d2t_map` of DFlash; `n_vocab` counts the target tokens. -/
structure Model where
  arch : Arch
  d2t : List Int
  nVocab : Nat
  inRange : ∀ j < d2t.length, 0 ≤ targetId d2t j ∧ targetId d2t j < nVocab
  injective : ∀ i < d2t.length, ∀ j < d2t.length, targetId d2t i = targetId d2t j → i = j

/-- The rows of `t_logits` for one ubatch, each as long as the draft vocabulary. -/
structure Ubatch (L : Type) (m : Model) where
  rows : List (List L)
  width : ∀ row ∈ rows, row.length = m.d2t.length

/-- A decode with some output, and what was in its logits buffer before. -/
structure Decode (L : Type) where
  model : Model
  ubatches : List (Ubatch L model)
  output : ubatches.flatMap Ubatch.rows ≠ []
  before : Nat → L

/-- The loop over the draft vocabulary, for a row of minus infinities; nothing where an id is out of range. -/
def expandRow (nVocab : Nat) (d2t : List Int) (draft : List L) : Option (List L) :=
  (List.range draft.length).foldlM
    (fun out j =>
      if 0 ≤ targetId d2t j ∧ targetId d2t j < nVocab then some (out.set (targetId d2t j).toNat (draft.getD j negInf))
      else none)
    (List.replicate nVocab negInf)

/-- `dflash_expand_logits`. -/
def dflashExpandLogits (nVocab : Nat) (d2t : List Int) (rows : List (List L)) : Option (List (List L)) :=
  rows.mapM (expandRow negInf nVocab d2t)

/-- A copy into the logits buffer. -/
def writeAt (buf : Nat → L) (off : Nat) (xs : List L) : Nat → L :=
  fun i => if off ≤ i then xs.getD (i - off) (buf i) else buf i

/-- The thread local `d2t_map`, `n_outputs_prev` and the logits buffer. -/
structure State (L : Type) where
  d2tMap : List Int
  nOutputsPrev : Nat
  logits : Nat → L

/-- The extraction of the logits of one ubatch. -/
def extract (m : Model) (s : State L) (u : Ubatch L m) : Option (State L) :=
  if u.rows = [] then some s
  else
    match m.arch with
    | .dflash => do
      let expanded ← dflashExpandLogits negInf m.nVocab m.d2t u.rows
      some ⟨s.d2tMap, s.nOutputsPrev + u.rows.length, writeAt s.logits (s.nOutputsPrev * m.nVocab) expanded.flatten⟩
    | .eagle3 => do
      let d2tMap := if s.d2tMap.length ≠ m.d2t.length then m.d2t else s.d2tMap
      let lastIdx := u.rows.length - 1
      let row ← expandRow negInf m.nVocab d2tMap (u.rows.getD lastIdx [])
      some ⟨d2tMap, s.nOutputsPrev + u.rows.length, writeAt s.logits ((s.nOutputsPrev + lastIdx) * m.nVocab) row⟩

/-- `decode` : the map that is kept, and the logits buffer. -/
def decode (d : Decode L) (d2tMap : List Int) : Option (List Int × (Nat → L)) := do
  let s ← d.ubatches.foldlM (extract negInf d.model) ⟨d2tMap, 0, d.before⟩
  some (s.d2tMap, s.logits)

/-! ## What the rows show -/

/-- Row `r` shows the draft logits at the ids of the target, and minus infinity elsewhere. -/
def Exposed (m : Model) (logits : Nat → L) (r : Nat) (draft : List L) : Prop :=
  ∀ t < m.nVocab, (∀ j < m.d2t.length, targetId m.d2t j = t → logits (r * m.nVocab + t) = draft.getD j negInf) ∧
    ((∀ j < m.d2t.length, targetId m.d2t j ≠ t) → logits (r * m.nVocab + t) = negInf)

/-- DFlash samples from every row of its block, EAGLE3 from the last row of a decode. -/
def Reads (m : Model) (nOutputs r : Nat) : Prop :=
  match m.arch with
  | .dflash => True
  | .eagle3 => r + 1 = nOutputs

/-- The decodes of a thread in turn: each ends well, and the rows that are read show what they should. -/
def AllExposed : List (Decode L) → List Int → Prop
  | [], _ => True
  | d :: ds, d2tMap => ∃ d2tMap' logits, decode negInf d d2tMap = some (d2tMap', logits) ∧
      (∀ r draft, (d.ubatches.flatMap Ubatch.rows)[r]? = some draft →
        Reads d.model (d.ubatches.flatMap Ubatch.rows).length r → Exposed negInf d.model logits r draft) ∧
      AllExposed ds d2tMap'

/-- The map that a decode leaves behind. -/
def Model.keeps (m : Model) : Option (List Int) :=
  match m.arch with
  | .dflash => none
  | .eagle3 => some m.d2t

/-- Maps of the same size that follow each other are the same. -/
def SameMaps (maps : List (List Int)) : Prop := maps.IsChain fun a b => a.length = b.length → a = b

section Rows
variable {nVocab : Nat} {d2t : List Int} {draft : List L}

/-- The row that a model means. -/
structure Expands (m : Model) (draft out : List L) : Prop where
  length : out.length = m.nVocab
  get : ∀ t < m.nVocab, (∀ j < m.d2t.length, targetId m.d2t j = t → out[t]? = some (draft.getD j negInf)) ∧
    ((∀ j < m.d2t.length, targetId m.d2t j ≠ t) → out[t]? = some negInf)

/-- The expansion of a row by the map of the model itself. -/
theorem Model.expandRow_eq (m : Model) (hdraft : draft.length = m.d2t.length) :
    ∃ out, expandRow negInf m.nVocab m.d2t draft = some out ∧ Expands negInf m draft out := by
  -- after `i` draft tokens these stand where they should
  have hloop := foldlM_range_rule (f := fun out j =>
      if 0 ≤ targetId m.d2t j ∧ targetId m.d2t j < m.nVocab then
        some (out.set (targetId m.d2t j).toNat (draft.getD j negInf))
      else none)
    (P := fun i (out : List L) => out.length = m.nVocab ∧ ∀ t < m.nVocab,
      (∀ j < i, targetId m.d2t j = t → out[t]? = some (draft.getD j negInf)) ∧
        ((∀ j < i, targetId m.d2t j ≠ t) → out[t]? = some negInf))
    (s := List.replicate m.nVocab negInf) ?_ draft.length ?_
  · obtain ⟨out, hrun, hlen, hget⟩ := hloop
    rw [hdraft] at hget
    exact ⟨out, hrun, hlen, hget⟩
  · refine ⟨List.length_replicate, fun t ht => ⟨fun j hj => absurd hj (Nat.not_lt_zero j), fun _ => ?_⟩⟩
    rw [List.getElem?_replicate, if_pos ht]
  · intro i hi out ⟨hlen, hout⟩
    have hrange := m.inRange i (hdraft ▸ hi)
    refine ⟨_, if_pos hrange, by rw [List.length_set, hlen], fun t ht => ⟨fun j hj heq => ?_, fun hno => ?_⟩⟩
    · by_cases hji : j = i
      · subst hji
        rw [heq, Int.toNat_natCast, List.getElem?_set_self (by omega)]
      · have hne : targetId m.d2t i ≠ t := fun h =>
          hji (m.injective j (by omega) i (by omega) (heq.trans h.symm))
        rw [List.getElem?_set_ne (by omega)]
        exact (hout t ht).1 j (by omega) heq
    · have hne : targetId m.d2t i ≠ t := hno i (Nat.lt_succ_self i)
      rw [List.getElem?_set_ne (by omega)]
      exact (hout t ht).2 fun j hj => hno j (by omega)

/-- By whatever map a row is expanded: where only minus infinities go, or nothing, there is minus infinity. -/
theorem expandRow_negInf {out : List L} (hrun : expandRow negInf nVocab d2t draft = some out) {t : Nat} (ht : t < nVocab)
    (hno : ∀ j < draft.length, targetId d2t j = t → draft.getD j negInf = negInf) : out[t]? = some negInf := by
  have hloop := foldlM_range_some (P := fun (_ : Nat) (out : List L) => out.length = nVocab ∧ out[t]? = some negInf)
    (s := List.replicate nVocab negInf)
    ⟨List.length_replicate, by rw [List.getElem?_replicate, if_pos ht]⟩ draft.length (fun i hi out u h hu => ?_) hrun
  · exact hloop.2
  · split at hu
    · rename_i hrange
      obtain rfl := Option.some.inj hu
      refine ⟨by rw [List.length_set, h.1], ?_⟩
      by_cases heq : targetId d2t i = t
      · rw [heq, Int.toNat_natCast, List.getElem?_set_self (by omega), hno i hi heq]
      · rw [List.getElem?_set_ne (by omega)]
        exact h.2
    · cases hu

theorem writeAt_of_lt (buf : Nat → L) {off i : Nat} (xs : List L) (h : i < off) : writeAt buf off xs i = buf i :=
  if_neg (by omega)

theorem writeAt_add (buf : Nat → L) (off : Nat) {xs : List L} {k : Nat} {x : L} (h : xs[k]? = some x) :
    writeAt buf off xs (off + k) = x := by
  rw [writeAt, if_pos (by omega), Nat.add_sub_cancel_left, List.getD_eq_getElem?_getD, h]
  rfl

/-- Rows of one length behind each other. -/
theorem getElem?_flatten_of_length {n : Nat} : ∀ {xss : List (List L)}, (∀ xs ∈ xss, xs.length = n) → ∀ {k t : Nat}
    {xs : List L}, xss[k]? = some xs → t < n → xss.flatten[k * n + t]? = xs[t]?
  | [], _, _, _, _, hk, _ => by simp at hk
  | ys :: xss, hlen, 0, t, xs, hk, ht => by
    obtain rfl : ys = xs := by simpa using hk
    have hys := hlen ys List.mem_cons_self
    rw [List.flatten_cons, Nat.zero_mul, Nat.zero_add, List.getElem?_append_left (by omega)]
  | ys :: xss, hlen, k + 1, t, xs, hk, ht => by
    have hys := hlen ys List.mem_cons_self
    have ih := getElem?_flatten_of_length (fun zs hzs => hlen zs (List.mem_cons_of_mem _ hzs))
      (show xss[k]? = some xs by simpa using hk) ht
    have hidx : (k + 1) * n + t - n = k * n + t := by
      rw [Nat.succ_mul]
      omega
    rw [List.flatten_cons, List.getElem?_append_right (by rw [Nat.succ_mul]; omega), hys, hidx, ih]

theorem Expands.exposed {m : Model} {out xs : List L} (h : Expands negInf m draft out) (buf : Nat → L) {off r : Nat}
    (hrow : ∀ t < m.nVocab, xs[(r - off) * m.nVocab + t]? = out[t]?) (hoff : off ≤ r) :
    Exposed negInf m (writeAt buf (off * m.nVocab) xs) r draft := by
  intro t ht
  have hidx : r * m.nVocab + t = off * m.nVocab + ((r - off) * m.nVocab + t) := by
    rw [← Nat.add_assoc, ← Nat.add_mul, Nat.add_sub_cancel' hoff]
  have hget := h.get t ht
  rw [← hrow t ht] at hget
  rw [hidx]
  constructor
  · intro j hj heq
    exact writeAt_add buf _ (hget.1 j hj heq)
  · intro hno
    exact writeAt_add buf _ (hget.2 hno)

/-- A row keeps what it shows while only later ones are written. -/
theorem Exposed.frame {m : Model} {a b : Nat → L} {r n : Nat} (h : Exposed negInf m a r draft)
    (hframe : ∀ i < n * m.nVocab, b i = a i) (hr : r < n) : Exposed negInf m b r draft := by
  intro t ht
  have hlt : r * m.nVocab + t < n * m.nVocab := by
    have hle : (r + 1) * m.nVocab ≤ n * m.nVocab := Nat.mul_le_mul_right _ hr
    rw [Nat.succ_mul] at hle
    omega
  rw [hframe _ hlt]
  exact h t ht

end Rows

section Runs
variable {m : Model}

/-- The map that is kept, unless it is read anew, is that of the model. -/
def Kept (m : Model) (d2tMap : List Int) : Prop :=
  m.arch = .eagle3 → d2tMap.length = m.d2t.length → d2tMap = m.d2t

/-- What the extraction of `rows` leads to. -/
structure Extracted (m : Model) (rows : List (List L)) (s s' : State L) : Prop where
  nOutputsPrev : s'.nOutputsPrev = s.nOutputsPrev + rows.length
  d2tMap : s'.d2tMap = if rows = [] then s.d2tMap else m.keeps.getD s.d2tMap
  frame : ∀ i < s.nOutputsPrev * m.nVocab, s'.logits i = s.logits i
  exposed : ∀ k draft, rows[k]? = some draft → Reads m rows.length k →
    Exposed negInf m s'.logits (s.nOutputsPrev + k) draft

theorem extract_spec {s : State L} (u : Ubatch L m) (hkept : Kept m s.d2tMap) :
    ∃ s', extract negInf m s u = some s' ∧ Extracted negInf m u.rows s s' := by
  by_cases hrows : u.rows = []
  · refine ⟨s, if_pos hrows, by simp [hrows], by simp [hrows], fun _ _ => rfl, fun k draft hk => ?_⟩
    rw [hrows] at hk
    cases hk
  · have hexpand : ∀ draft ∈ u.rows, ∃ out, expandRow negInf m.nVocab m.d2t draft = some out ∧ Expands negInf m draft out :=
      fun draft hd => m.expandRow_eq negInf (u.width draft hd)
    rw [extract, if_neg hrows]
    cases harch : m.arch with
    | dflash =>
        obtain ⟨expanded, hrun, hall⟩ : ∃ expanded, dflashExpandLogits negInf m.nVocab m.d2t u.rows = some expanded ∧
            List.Forall₂ (Expands negInf m) u.rows expanded := by
          refine mapM_forall₂ (P := Eq) ?_ fun draft hd y hy => ?_
          · exact List.forall₂_same.mpr fun _ _ => rfl
          · rw [← hy]
            exact hexpand draft hd
        dsimp only
        rw [hrun]
        refine ⟨_, rfl, rfl, by simp [hrows, Model.keeps, harch], fun i hi => writeAt_of_lt _ _ hi, fun k draft hk _ => ?_⟩
        obtain ⟨hlt, rfl⟩ := List.getElem?_eq_some_iff.mp hk
        have hlt' : k < expanded.length := hall.length_eq ▸ hlt
        have hexp : Expands negInf m u.rows[k] expanded[k] := hall.get hlt hlt'
        have hlen : ∀ xs ∈ expanded, xs.length = m.nVocab := by
          intro xs hxs
          obtain ⟨i, hi, rfl⟩ := List.mem_iff_getElem.mp hxs
          exact (hall.get (hall.length_eq ▸ hi) hi).length
        refine hexp.exposed negInf _ (fun t ht => ?_) (Nat.le_add_right _ _)
        rw [Nat.add_sub_cancel_left]
        exact getElem?_flatten_of_length hlen (List.getElem?_eq_getElem hlt') ht
    | eagle3 =>
        -- by now the map is that of the model
        have hmap : (if s.d2tMap.length ≠ m.d2t.length then m.d2t else s.d2tMap) = m.d2t := by
          split
          · rfl
          · rename_i hlen
            exact hkept harch (not_not.mp hlen)
        have hpos : 0 < u.rows.length := List.length_pos_iff.mpr hrows
        have hlast : u.rows[u.rows.length - 1]? = some u.rows[u.rows.length - 1] := List.getElem?_eq_getElem (by omega)
        obtain ⟨out, hrun, hexp⟩ := hexpand u.rows[u.rows.length - 1] (List.getElem_mem _)
        dsimp only
        rw [hmap, List.getD_eq_getElem?_getD, hlast, Option.getD_some, hrun]
        refine ⟨_, rfl, rfl, by simp [hrows, Model.keeps, harch], fun i hi => writeAt_of_lt _ _ ?_,
          fun k draft hk hread => ?_⟩
        · exact lt_of_lt_of_le hi (Nat.mul_le_mul_right _ (Nat.le_add_right _ _))
        · have hk' : k + 1 = u.rows.length := by
            unfold Reads at hread
            rw [harch] at hread
            exact hread
          obtain rfl : k = u.rows.length - 1 := by omega
          obtain rfl := Option.some.inj (hlast.symm.trans hk)
          refine hexp.exposed negInf _ (fun t _ => ?_) le_rfl
          rw [Nat.sub_self, Nat.zero_mul, Nat.zero_add]

/-- The ubatches of a decode in turn. -/
theorem foldlM_extract_spec : ∀ (us : List (Ubatch L m)) {s : State L}, Kept m s.d2tMap →
    ∃ s', us.foldlM (extract negInf m) s = some s' ∧ Extracted negInf m (us.flatMap Ubatch.rows) s s'
  | [], s, _ => ⟨s, rfl, rfl, rfl, fun _ _ => rfl, fun _ _ hk _ => by simp at hk⟩
  | u :: us, s, hkept => by
    obtain ⟨s₁, hrun, h₁⟩ := extract_spec negInf u hkept
    have hkept₁ : Kept m s₁.d2tMap := by
      intro harch
      rw [h₁.d2tMap]
      split
      · exact hkept harch
      · intro _
        rw [Model.keeps, harch]
        rfl
    obtain ⟨s', hrest, h'⟩ := foldlM_extract_spec us hkept₁
    refine ⟨s', by rw [List.foldlM_cons, hrun]; exact hrest, ?_, ?_, fun i hi => ?_, fun k draft hk hread => ?_⟩
    · rw [List.flatMap_cons, List.length_append, ← Nat.add_assoc, ← h₁.nOutputsPrev, h'.nOutputsPrev]
    · rw [h'.d2tMap, h₁.d2tMap, List.flatMap_cons]
      by_cases hu : u.rows = [] <;> by_cases hus : us.flatMap Ubatch.rows = [] <;> simp [hu, hus]
      unfold Model.keeps
      cases m.arch <;> rfl
    · have hle : s.nOutputsPrev * m.nVocab ≤ s₁.nOutputsPrev * m.nVocab := by
        rw [h₁.nOutputsPrev]
        exact Nat.mul_le_mul_right _ (Nat.le_add_right _ _)
      rw [h'.frame i (lt_of_lt_of_le hi hle), h₁.frame i hi]
    · rw [List.flatMap_cons] at hk hread
      by_cases hlt : k < u.rows.length
      · -- a row of this ubatch, which the later ones leave
        rw [List.getElem?_append_left hlt] at hk
        have hread₁ : Reads m u.rows.length k := by
          unfold Reads at hread ⊢
          rw [List.length_append] at hread
          cases harch : m.arch with
          | dflash => trivial
          | eagle3 =>
              rw [harch] at hread
              dsimp only at hread ⊢
              omega
        refine (h₁.exposed k draft hk hread₁).frame negInf h'.frame ?_
        rw [h₁.nOutputsPrev]
        omega
      · rw [List.getElem?_append_right (by omega)] at hk
        have hread' : Reads m (us.flatMap Ubatch.rows).length (k - u.rows.length) := by
          unfold Reads at hread ⊢
          rw [List.length_append] at hread
          cases harch : m.arch with
          | dflash => trivial
          | eagle3 =>
              rw [harch] at hread
              dsimp only at hread ⊢
              omega
        have hexp := h'.exposed _ draft hk hread'
        have hidx : s₁.nOutputsPrev + (k - u.rows.length) = s.nOutputsPrev + k := by
          rw [h₁.nOutputsPrev]
          omega
        rwa [hidx] at hexp

/-- **A decode whose map is kept from the same model**, or read anew, exposes what it should. -/
theorem decode_spec (d : Decode L) {d2tMap : List Int} (hkept : Kept d.model d2tMap) :
    ∃ logits, decode negInf d d2tMap = some (d.model.keeps.getD d2tMap, logits) ∧
      ∀ r draft, (d.ubatches.flatMap Ubatch.rows)[r]? = some draft →
        Reads d.model (d.ubatches.flatMap Ubatch.rows).length r → Exposed negInf d.model logits r draft := by
  obtain ⟨s', hrun, hext⟩ := foldlM_extract_spec negInf d.ubatches (s := ⟨d2tMap, 0, d.before⟩) hkept
  refine ⟨s'.logits, ?_, fun r draft hr hread => ?_⟩
  · have hmap := hext.d2tMap
    rw [if_neg d.output] at hmap
    rw [decode, hrun, ← hmap]
    rfl
  · have hexp := hext.exposed r draft hr hread
    rwa [Nat.zero_add] at hexp

/-- One decode of a model, with a row. -/
def Model.decodeRow (m : Model) (draft : List L) (h : draft.length = m.d2t.length) (before : Nat → L) : Decode L where
  model := m
  ubatches := [⟨[draft], by simpa using h⟩]
  output := by simp
  before := before

/-- **A map of the right size that is not that of the model** shows: some logit is put elsewhere. -/
theorem exists_not_exposed (m : Model) {x : L} (hx : x ≠ negInf) {d2tMap : List Int} (harch : m.arch = .eagle3)
    (hlen : d2tMap.length = m.d2t.length) (hne : d2tMap ≠ m.d2t) :
    ∃ d : Decode L, d.model = m ∧ ∀ ds, ¬ AllExposed negInf (d :: ds) d2tMap := by
  obtain ⟨j, hj, hdiff⟩ : ∃ j, j < m.d2t.length ∧ d2tMap.getD j 0 ≠ m.d2t.getD j 0 := by
    by_contra hno
    apply hne
    apply List.ext_getElem hlen
    intro j hj hj'
    by_contra hdiff
    refine hno ⟨j, hj', ?_⟩
    simpa [List.getD_eq_getElem?_getD, List.getElem?_eq_getElem hj, List.getElem?_eq_getElem hj'] using hdiff
  -- the draft token `j` alone has a logit
  have hdraft : ((List.replicate m.d2t.length negInf).set j x).length = m.d2t.length := by simp
  refine ⟨m.decodeRow _ hdraft fun _ => negInf, rfl, fun ds hall => ?_⟩
  obtain ⟨d2tMap', logits, hrun, hexp, _⟩ := hall
  have hrow : Exposed negInf m logits 0 ((List.replicate m.d2t.length negInf).set j x) :=
    hexp 0 _ rfl (by unfold Reads; rw [show (m.decodeRow _ hdraft fun _ => negInf).model.arch = .eagle3 from harch]; rfl)
  have hrange := m.inRange j hj
  obtain ⟨t, ht⟩ := Int.eq_ofNat_of_zero_le hrange.1
  have htlt : t < m.nVocab := by omega
  have hshown := (hrow t htlt).1 j hj ht
  rw [Nat.zero_mul, Nat.zero_add, List.getD_eq_getElem?_getD, List.getElem?_set_self (by simpa using hj)] at hshown
  -- by the other map it goes elsewhere
  cases hexpand : expandRow negInf m.nVocab d2tMap ((List.replicate m.d2t.length negInf).set j x) with
  | none =>
      exfalso
      simp [decode, Model.decodeRow, extract, harch, hlen, hexpand] at hrun
  | some out =>
      have hout : out[t]? = some negInf := by
        refine expandRow_negInf negInf hexpand htlt fun k hk hkt => ?_
        have hkj : j ≠ k := by
          rintro rfl
          unfold targetId at hkt ht
          omega
        have hk' : k < m.d2t.length := by simpa using hk
        rw [List.getD_eq_getElem?_getD, List.getElem?_set_ne hkj, List.getElem?_replicate, if_pos hk']
        rfl
      have hlogits : logits = writeAt (fun _ => negInf) (0 * m.nVocab) out := by
        simp [decode, Model.decodeRow, extract, harch, hlen, hexpand] at hrun
        rw [Nat.zero_mul]
        exact hrun.2.symm
      have hval : logits t = negInf := by
        have hwrite := writeAt_add (fun _ => negInf) (0 * m.nVocab) hout
        rwa [Nat.zero_mul, Nat.zero_add, ← Nat.zero_mul m.nVocab, ← hlogits] at hwrite
      exact hx (Option.some.inj (congrArg some hshown.symm) |>.trans hval)

/-- The models of a thread in turn, from a map that is kept. -/
theorem allExposed_from {x : L} (hx : x ≠ negInf) : ∀ (ms : List Model) (d2tMap : List Int),
    (∀ ds : List (Decode L), ds.map Decode.model = ms → AllExposed negInf ds d2tMap) ↔
      SameMaps (d2tMap :: ms.filterMap Model.keeps)
  | [], d2tMap => by
    constructor
    · intro _
      exact List.isChain_singleton _
    · intro _ ds hds
      rw [List.map_eq_nil_iff.mp hds]
      trivial
  | m :: ms, d2tMap => by
    -- what is left when the first decode goes well
    have hnext : Kept m d2tMap → ((∀ ds : List (Decode L), ds.map Decode.model = m :: ms → AllExposed negInf ds d2tMap) ↔
        SameMaps (m.keeps.getD d2tMap :: ms.filterMap Model.keeps)) := by
      intro hkept
      rw [← allExposed_from hx ms]
      constructor
      · intro h ds hds
        have hdraft : (List.replicate m.d2t.length negInf).length = m.d2t.length := List.length_replicate
        obtain ⟨_, logits, hrun, _, hrest⟩ := h (m.decodeRow _ hdraft (fun _ => negInf) :: ds)
          (by rw [List.map_cons, hds]; rfl)
        obtain ⟨logits', hrun', _⟩ := decode_spec negInf (m.decodeRow _ hdraft fun _ => negInf) hkept
        rw [hrun'] at hrun
        cases hrun
        exact hrest
      · intro h ds hds
        obtain ⟨d, ds, rfl, rfl, hds'⟩ := List.map_eq_cons_iff.mp hds
        obtain ⟨logits, hrun, hexp⟩ := decode_spec negInf d hkept
        exact ⟨_, logits, hrun, hexp, h ds hds'⟩
    cases harch : m.arch with
    | dflash =>
        have hkeeps : m.keeps = none := by rw [Model.keeps, harch]
        have hkept : Kept m d2tMap := by
          intro h
          rw [harch] at h
          cases h
        rw [hnext hkept, List.filterMap_cons_none hkeeps, hkeeps]
        rfl
    | eagle3 =>
        have hkeeps : m.keeps = some m.d2t := by rw [Model.keeps, harch]
        rw [List.filterMap_cons_some hkeeps, SameMaps, List.isChain_cons_cons]
        constructor
        · intro h
          have hkept : d2tMap.length = m.d2t.length → d2tMap = m.d2t := by
            intro hlen
            by_contra hne
            obtain ⟨d, rfl, hbad⟩ := exists_not_exposed negInf m hx harch hlen hne
            have hdraft : ∀ m : Model, (List.replicate m.d2t.length negInf).length = m.d2t.length :=
              fun _ => List.length_replicate
            refine hbad (ms.map fun m => m.decodeRow _ (hdraft m) fun _ => negInf) (h _ ?_)
            rw [List.map_cons, List.map_map]
            congr 1
            exact (List.map_congr_left fun _ _ => rfl).trans (List.map_id _)
          refine ⟨hkept, ?_⟩
          have hrest := (hnext fun _ => hkept).mp h
          rwa [hkeeps] at hrest
        · rintro ⟨hkept, hrest⟩
          rw [hnext fun _ => hkept, hkeeps]
          exact hrest

/-- **Which threads expose the right rows**: those on which EAGLE3 models of one size that decode after each other have the
same map. -/
theorem allExposed_iff {x : L} (hx : x ≠ negInf) (ms : List Model) :
    (∀ ds : List (Decode L), ds.map Decode.model = ms → AllExposed negInf ds []) ↔ SameMaps (ms.filterMap Model.keeps) := by
  rw [allExposed_from negInf hx ms [], SameMaps, SameMaps]
  cases hmaps : ms.filterMap Model.keeps with
  | nil => simp
  | cons d2t maps =>
      rw [List.isChain_cons_cons]
      constructor
      · exact fun h => h.2
      · intro h
        exact ⟨fun hlen => (List.length_eq_zero_iff.mp hlen.symm).symm, h⟩

end Runs

/-! ## Two models of one size -/

/-- Two target tokens, and one draft token that stands for the first, or for the second. -/
def firstToken : Model where
  arch := .eagle3
  d2t := [0]
  nVocab := 2
  inRange := by decide
  injective := by decide

def secondToken : Model where
  arch := .eagle3
  d2t := [1]
  nVocab := 2
  inRange := by decide
  injective := by decide

/-- A decode of each, with one row that gives the draft token the logit 5, where -9 is minus infinity. -/
def firstDecode : Decode Int := firstToken.decodeRow [5] rfl fun _ => 0

def secondDecode : Decode Int := secondToken.decodeRow [5] rfl fun _ => 0

/-- **The second decode shows the logit at the token of the first model.** -/
theorem staleMap_not_exposed : ¬ AllExposed (-9) [firstDecode, secondDecode] [] := by
  rintro ⟨_, _, hrun, _, _, logits, hrun', hexp, _⟩
  have hfirst : decode (-9) firstDecode [] = some ([0], writeAt (fun _ => 0) 0 [5, -9]) := rfl
  rw [hfirst] at hrun
  cases hrun
  have hsecond : decode (-9) secondDecode [0] = some ([0], writeAt (fun _ => 0) 0 [5, -9]) := rfl
  rw [hsecond] at hrun'
  cases hrun'
  have hrow := (hexp 0 [5] rfl rfl 1 (by decide)).1 0 (by decide) rfl
  exact absurd hrow (by decide)

/-- A model that decodes twice. -/
theorem allExposed_iff_twice :
    (∀ ds : List (Decode Int), ds.map Decode.model = [firstToken, firstToken] → AllExposed (-9) ds []) ↔
      SameMaps ([firstToken, firstToken].filterMap Model.keeps) :=
  allExposed_iff (-9) (x := 5) (by decide) [firstToken, firstToken]

end S2Moe.DraftVocab
