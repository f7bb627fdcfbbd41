import S2Moe.Lib.Run
import Mathlib.Data.List.Range
import Mathlib.Data.List.GetD

/-!
# The ring buffer of the sampler

* `RingBuffer` and its methods : reading behind the end of `data` is an error of its own;
* `Op.onList` : what the operations do to a list that drops its head when it is full;
* `Rep` : the buffer holds the list from `first` on, and `pos` is where the next value goes;
* `Agrees` : what every method returns;
* `buffer_agrees_iff` : the methods agree with the list in every state of a run exactly when every value that is pushed is already
behind the place where it goes: `back` reads that place.
-/

namespace S2Moe.Sampling
open S2Moe.Lib (bind_eq_ok)

inductive Error where
  | empty        -- "ring buffer is empty"
  | outOfBounds  -- "ring buffer: index out of bounds"
  | outOfRange   -- an index beyond `data`
deriving DecidableEq

/-- `ring_buffer` -/
structure RingBuffer (α : Type*) where
  capacity : Nat
  sz : Nat
  first : Nat
  pos : Nat
  data : List α

namespace RingBuffer
variable {α : Type*}

/-- The constructor: `data` has as many default values. -/
def ofCapacity (cap : Nat) (d : α) : RingBuffer α := ⟨cap, 0, 0, 0, .replicate cap d⟩

/-- `data[i]`. -/
def read (r : RingBuffer α) (i : Nat) : Except Error α :=
  match r.data[i]? with
  | some v => .ok v
  | none => .error .outOfRange

def front (r : RingBuffer α) : Except Error α := if r.sz = 0 then .error .empty else r.read r.first

def back (r : RingBuffer α) : Except Error α := if r.sz = 0 then .error .empty else r.read r.pos

def pushBack (r : RingBuffer α) (value : α) : Except Error (RingBuffer α) :=
  let r := if r.sz = r.capacity then { r with first := (r.first + 1) % r.capacity } else { r with sz := r.sz + 1 }
  if r.pos < r.data.length then .ok { r with data := r.data.set r.pos value, pos := (r.pos + 1) % r.capacity }
  else .error .outOfRange

def popFront (r : RingBuffer α) : Except Error (α × RingBuffer α) :=
  if r.sz = 0 then .error .empty
  else do
    let value ← r.read r.first
    .ok (value, { r with first := (r.first + 1) % r.capacity, sz := r.sz - 1 })

def rat (r : RingBuffer α) (i : Nat) : Except Error α :=
  if r.sz ≤ i then .error .outOfBounds else r.read ((r.first + r.sz - i - 1) % r.capacity)

def toVector (r : RingBuffer α) : Except Error (List α) :=
  (List.range r.sz).mapM fun i => r.read ((r.first + i) % r.capacity)

def clear (r : RingBuffer α) : RingBuffer α := { r with sz := 0, first := 0, pos := 0 }

def size (r : RingBuffer α) : Nat := r.sz

end RingBuffer

inductive Op (α : Type*) where
  | pushBack (value : α)
  | popFront
  | clear

section Runs
variable {α : Type*}

def Op.apply (r : RingBuffer α) : Op α → Except Error (RingBuffer α)
  | .pushBack value => r.pushBack value
  | .popFront => Prod.snd <$> r.popFront
  | .clear => .ok r.clear

def run (ops : List (Op α)) (r : RingBuffer α) : Except Error (RingBuffer α) := ops.foldlM Op.apply r

/-- The same on a list that holds `cap` elements at most. -/
def Op.onList (cap : Nat) (l : List α) : Op α → List α
  | .pushBack value => (if l.length = cap then l.tail else l) ++ [value]
  | .popFront => l.tail
  | .clear => []

def listRun (cap : Nat) (ops : List (Op α)) : List α := ops.foldl (Op.onList cap) []

/-- `pop_front` only when there is something. -/
def Legal (cap : Nat) (ops : List (Op α)) : Prop :=
  ∀ k, ops[k]? = some .popFront → listRun cap (ops.take k) ≠ []

/-- What the methods return, next to the list. -/
structure Agrees (r : RingBuffer α) (l : List α) : Prop where
  size : r.size = l.length
  toVector : r.toVector = .ok l
  front : ∀ v, l.head? = some v → r.front = .ok v
  back : ∀ v, l.getLast? = some v → r.back = .ok v
  rat : ∀ i v, l.reverse[i]? = some v → r.rat i = .ok v
  below : r.first < r.capacity ∧ r.pos < r.capacity

/-- The value is already at the place behind the one where it goes. With a capacity of one, that is the same place. -/
def FindsBehind (r : RingBuffer α) (value : α) : Prop :=
  r.capacity = 1 ∨ r.data[(r.pos + 1) % r.capacity]? = some value

end Runs

section Refinement
variable {α : Type*} {r r' : RingBuffer α} {l : List α}

/-- The buffer holds the list. -/
structure Rep (r : RingBuffer α) (l : List α) : Prop where
  capacity_pos : 0 < r.capacity
  data_length : r.data.length = r.capacity
  sz_eq : r.sz = l.length
  sz_le : r.sz ≤ r.capacity
  first_lt : r.first < r.capacity
  pos_eq : r.pos = (r.first + r.sz) % r.capacity
  elems : ∀ i, i < l.length → r.data[(r.first + i) % r.capacity]? = l[i]?

theorem rep_ofCapacity {cap : Nat} (hcap : 0 < cap) (d : α) : Rep (RingBuffer.ofCapacity cap d) [] := by
  refine ⟨hcap, List.length_replicate, rfl, Nat.zero_le _, hcap, ?_, fun i hi => absurd hi (Nat.not_lt_zero i)⟩
  show 0 = (0 + 0) % cap
  rw [Nat.zero_mod]

/-- Two places of the circle that are less than a turn apart. -/
theorem circular_ne {c a i j : Nat} (hij : i < j) (hj : j < i + c) : (a + i) % c ≠ (a + j) % c := by
  intro h
  have hdvd : c ∣ (a + j) - (a + i) := Nat.dvd_of_mod_eq_zero (Nat.sub_mod_eq_zero_of_mod_eq h.symm)
  have hle := Nat.le_of_dvd (by omega) hdvd
  omega

theorem Rep.pos_lt (h : Rep r l) : r.pos < r.capacity := by
  rw [h.pos_eq]
  exact Nat.mod_lt _ h.capacity_pos

theorem Rep.read_elem (h : Rep r l) {i : Nat} {v : α} (hv : l[i]? = some v) :
    r.read ((r.first + i) % r.capacity) = .ok v := by
  have hi := (List.getElem?_eq_some_iff.mp hv).1
  rw [RingBuffer.read, h.elems i hi, hv]

/-- The place that is written is none of those that are kept. -/
theorem Rep.pushBack (h : Rep r l) (value : α) :
    ∃ r', r.pushBack value = .ok r' ∧ Rep r' ((if l.length = r.capacity then l.tail else l) ++ [value]) ∧
      r'.capacity = r.capacity ∧ r'.pos = (r.pos + 1) % r.capacity ∧ r'.data = r.data.set r.pos value := by
  have hpos := h.pos_lt
  have hcap := h.capacity_pos
  have hset : ∀ j v, r.data[j]? = some v → j ≠ r.pos → (r.data.set r.pos value)[j]? = some v := by
    intro j v hj hne
    rw [List.getElem?_set_ne hne.symm, hj]
  have hnew : (r.data.set r.pos value)[r.pos]? = some value := by
    rw [List.getElem?_set_self (by rw [h.data_length]; exact hpos)]
  by_cases hfull : r.sz = r.capacity
  · -- the head is dropped: `pos` is `first`
    have hlen : l.length = r.capacity := by rw [← h.sz_eq, hfull]
    refine ⟨{ r with first := (r.first + 1) % r.capacity, data := r.data.set r.pos value, pos := (r.pos + 1) % r.capacity },
      ?_, ⟨hcap, ?_, ?_, h.sz_le, Nat.mod_lt _ hcap, ?_, fun i hi => ?_⟩, rfl, rfl, rfl⟩
    · rw [RingBuffer.pushBack, if_pos hfull]
      exact if_pos (by rw [h.data_length]; exact hpos)
    · rw [List.length_set, h.data_length]
    · rw [if_pos hlen, List.length_append, List.length_tail, List.length_singleton, hlen]
      dsimp only
      omega
    · dsimp only
      rw [h.pos_eq, Nat.mod_add_mod, Nat.mod_add_mod]
      congr 1
      omega
    · dsimp only
      rw [if_pos hlen, List.length_append, List.length_tail, List.length_singleton] at hi
      rw [if_pos hlen, Nat.mod_add_mod, Nat.add_assoc, Nat.add_comm 1 i]
      by_cases hlast : i + 1 < l.length
      · rw [List.getElem?_append_left (by rw [List.length_tail]; omega), List.getElem?_tail]
        have hget := h.elems (i + 1) hlast
        rw [List.getElem?_eq_getElem hlast] at hget ⊢
        apply hset _ _ hget
        rw [h.pos_eq, hfull, Nat.add_mod_right, ← Nat.add_zero r.first, Nat.add_assoc, Nat.zero_add]
        exact (circular_ne (Nat.succ_pos i) (by omega)).symm
      · have hi' : i + 1 = r.capacity := by omega
        have hpos' : r.pos = (r.first + r.capacity) % r.capacity := by rw [h.pos_eq, hfull]
        rw [List.getElem?_append_right (by rw [List.length_tail]; omega), List.length_tail,
          show i - (l.length - 1) = 0 by omega, hi', ← hpos']
        exact hnew
  · have hlen : l.length ≠ r.capacity := by rw [← h.sz_eq]; exact hfull
    have hlt : r.sz < r.capacity := lt_of_le_of_ne h.sz_le hfull
    refine ⟨{ r with sz := r.sz + 1, data := r.data.set r.pos value, pos := (r.pos + 1) % r.capacity },
      ?_, ⟨hcap, ?_, ?_, hlt, h.first_lt, ?_, fun i hi => ?_⟩, rfl, rfl, rfl⟩
    · rw [RingBuffer.pushBack, if_neg hfull]
      exact if_pos (by rw [h.data_length]; exact hpos)
    · rw [List.length_set, h.data_length]
    · rw [if_neg hlen, List.length_append, List.length_singleton, ← h.sz_eq]
    · dsimp only
      rw [h.pos_eq, Nat.mod_add_mod, Nat.add_assoc]
    · dsimp only
      rw [if_neg hlen, List.length_append, List.length_singleton] at hi
      rw [if_neg hlen]
      by_cases hlast : i < l.length
      · rw [List.getElem?_append_left hlast]
        have hget := h.elems i hlast
        rw [List.getElem?_eq_getElem hlast] at hget ⊢
        apply hset _ _ hget
        rw [h.pos_eq]
        exact circular_ne (by rw [h.sz_eq]; exact hlast) (by omega)
      · obtain rfl : i = l.length := by omega
        rw [List.getElem?_append_right le_rfl, Nat.sub_self, ← h.sz_eq, ← h.pos_eq]
        exact hnew

theorem Rep.popFront (h : Rep r l) {v : α} {rest : List α} (hl : l = v :: rest) :
    ∃ r', r.popFront = .ok (v, r') ∧ Rep r' rest ∧ r'.capacity = r.capacity ∧ r'.pos = r.pos ∧ r'.data = r.data := by
  have hlen : r.sz = rest.length + 1 := by rw [h.sz_eq, hl, List.length_cons]
  have hread : r.read r.first = .ok v := by
    have hfirst := h.read_elem (i := 0) (v := v) (by rw [hl]; rfl)
    rwa [Nat.add_zero, Nat.mod_eq_of_lt h.first_lt] at hfirst
  refine ⟨{ r with first := (r.first + 1) % r.capacity, sz := r.sz - 1 }, ?_,
    ⟨h.capacity_pos, h.data_length, by dsimp only; omega, by have := h.sz_le; dsimp only; omega,
      Nat.mod_lt _ h.capacity_pos, ?_, fun i hi => ?_⟩, rfl, rfl, rfl⟩
  · rw [RingBuffer.popFront, if_neg (by omega), hread]
    rfl
  · dsimp only
    rw [h.pos_eq, Nat.mod_add_mod]
    congr 1
    omega
  · dsimp only
    have helem := h.elems (i + 1) (by rw [hl, List.length_cons]; omega)
    rw [hl, List.getElem?_cons_succ] at helem
    rw [Nat.mod_add_mod, Nat.add_assoc, Nat.add_comm 1 i, helem]

theorem Rep.clear (h : Rep r l) : Rep r.clear [] := by
  refine ⟨h.capacity_pos, h.data_length, rfl, Nat.zero_le _, h.capacity_pos, ?_, fun i hi => absurd hi (Nat.not_lt_zero i)⟩
  show 0 = (0 + 0) % r.capacity
  rw [Nat.zero_mod]

theorem mapM_range_eq_ok {f : Nat → Except Error α} : ∀ {l : List α} {n : Nat}, n = l.length →
    (∀ i v, l[i]? = some v → f i = .ok v) → (List.range n).mapM f = .ok l := by
  intro l
  induction l using List.reverseRecOn with
  | nil =>
      rintro n rfl _
      rfl
  | append_singleton l v ih =>
      rintro n rfl h
      have hinit := ih rfl fun i w hw => h i w (by
        rw [List.getElem?_append_left (List.getElem?_eq_some_iff.mp hw).1, hw])
      have hlast := h l.length v (by rw [List.getElem?_append_right le_rfl, Nat.sub_self]; rfl)
      rw [List.length_append, List.length_singleton, List.range_succ, List.mapM_append, hinit, List.mapM_cons,
        List.mapM_nil, hlast]
      rfl

/-- All but `back`. -/
theorem Rep.agrees (h : Rep r l) (hback : ∀ v, l.getLast? = some v → r.data[r.pos]? = some v) : Agrees r l := by
  have hne : ∀ {o : Option α} {v : α}, (l = [] → o = none) → o = some v → r.sz ≠ 0 := by
    intro o v hnil ho hz
    have hl := List.length_eq_zero_iff.mp (h.sz_eq.symm.trans hz)
    rw [hnil hl] at ho
    cases ho
  refine ⟨h.sz_eq, mapM_range_eq_ok h.sz_eq fun i v hv => h.read_elem hv, fun v hv => ?_, fun v hv => ?_, fun i v hv => ?_,
    h.first_lt, h.pos_lt⟩
  · rw [RingBuffer.front, if_neg (hne (by rintro rfl; rfl) hv)]
    rw [List.head?_eq_getElem?] at hv
    have hread := h.read_elem hv
    rwa [Nat.add_zero, Nat.mod_eq_of_lt h.first_lt] at hread
  · rw [RingBuffer.back, if_neg (hne (by rintro rfl; rfl) hv), RingBuffer.read, hback v hv]
  · have hi := (List.getElem?_eq_some_iff.mp hv).1
    rw [List.length_reverse, ← h.sz_eq] at hi
    rw [List.getElem?_reverse (by rw [← h.sz_eq]; exact hi), ← h.sz_eq] at hv
    rw [RingBuffer.rat, if_neg (not_le.mpr hi), show r.first + r.sz - i - 1 = r.first + (r.sz - 1 - i) by omega]
    exact h.read_elem hv

end Refinement

section Runs
variable {α : Type*} {cap : Nat} {d : α}

theorem listRun_succ (cap : Nat) {ops : List (Op α)} {k : Nat} {op : Op α} (hop : ops[k]? = some op) :
    listRun cap (ops.take (k + 1)) = op.onList cap (listRun cap (ops.take k)) := by
  rw [List.take_add_one, hop, listRun, List.foldl_append]
  rfl

theorem run_succ (r : RingBuffer α) {ops : List (Op α)} {k : Nat} {op : Op α} (hop : ops[k]? = some op) :
    run (ops.take (k + 1)) r = run (ops.take k) r >>= fun r => op.apply r := by
  rw [List.take_add_one, hop, run, List.foldlM_append]
  congr 1
  funext t
  exact bind_pure _

/-- Every legal run goes through, and the buffer holds the list in all of its states. -/
theorem exists_rep (hcap : 0 < cap) {ops : List (Op α)} (hlegal : Legal cap ops) : ∀ k,
    ∃ r, run (ops.take k) (RingBuffer.ofCapacity cap d) = .ok r ∧ r.capacity = cap ∧ Rep r (listRun cap (ops.take k)) := by
  intro k
  induction k with
  | zero => exact ⟨_, rfl, rfl, rep_ofCapacity hcap d⟩
  | succ k ih =>
      obtain ⟨r, hrun, hr, hrep⟩ := ih
      cases hop : ops[k]? with
      | none =>
          rw [List.take_add_one, hop, Option.toList_none, List.append_nil]
          exact ⟨r, hrun, hr, hrep⟩
      | some op =>
          rw [run_succ _ hop, listRun_succ cap hop, hrun]
          cases op with
          | pushBack value =>
              obtain ⟨r', happly, hrep', hcap', -, -⟩ := hrep.pushBack value
              rw [hr] at hrep' hcap'
              exact ⟨r', happly, hcap', hrep'⟩
          | popFront =>
              obtain ⟨v, rest, hl⟩ := List.exists_cons_of_ne_nil (hlegal k hop)
              obtain ⟨r', hpop, hrep', hcap', -, -⟩ := hrep.popFront hl
              refine ⟨r', ?_, hcap'.trans hr, ?_⟩
              · show Prod.snd <$> r.popFront = _
                rw [hpop]
                rfl
              · show Rep r' (listRun cap (ops.take k)).tail
                rw [hl]
                exact hrep'
          | clear => exact ⟨r.clear, rfl, hr, hrep.clear⟩

/-- What `back` reads after the steps that meet the condition: the value pushed last. -/
theorem back_of_found (hcap : 0 < cap) {ops : List (Op α)} (hlegal : Legal cap ops)
    (hfound : ∀ k value, ops[k]? = some (.pushBack value) →
      ∃ r, run (ops.take k) (RingBuffer.ofCapacity cap d) = .ok r ∧ FindsBehind r value) : ∀ k r,
    run (ops.take k) (RingBuffer.ofCapacity cap d) = .ok r →
      ∀ v, (listRun cap (ops.take k)).getLast? = some v → r.data[r.pos]? = some v := by
  intro k
  induction k with
  | zero =>
      intro r _ v hv
      cases hv
  | succ k ih =>
      intro r' hrun' v hv
      obtain ⟨r, hrun, hr, hrep⟩ := @exists_rep _ _ d hcap _ hlegal k
      have ih := ih r hrun
      cases hop : ops[k]? with
      | none =>
          rw [List.take_add_one, hop, Option.toList_none, List.append_nil] at hrun' hv
          obtain rfl := Except.ok.inj (hrun.symm.trans hrun')
          exact ih v hv
      | some op =>
          rw [run_succ _ hop, hrun] at hrun'
          rw [listRun_succ cap hop] at hv
          cases op with
          | pushBack value =>
              obtain ⟨t, happly, -, -, hpos, hdata⟩ := hrep.pushBack value
              obtain rfl : t = r' := Except.ok.inj (happly.symm.trans hrun')
              obtain rfl : value = v := by
                rw [Op.onList, List.getLast?_concat] at hv
                exact Option.some.inj hv
              obtain ⟨r₁, hrun₁, hbehind⟩ := hfound k value hop
              obtain rfl : r = r₁ := Except.ok.inj (hrun.symm.trans hrun₁)
              have hself : (r.data.set r.pos value)[r.pos]? = some value :=
                List.getElem?_set_self (by rw [hrep.data_length]; exact hrep.pos_lt)
              rw [hpos, hdata]
              by_cases hsame : (r.pos + 1) % r.capacity = r.pos
              · rw [hsame, hself]
              · rw [List.getElem?_set_ne (Ne.symm hsame)]
                refine hbehind.resolve_left fun hone => hsame ?_
                have hpos := hrep.pos_lt
                rw [hone, Nat.mod_one]
                omega
          | popFront =>
              obtain ⟨w, rest, hl⟩ := List.exists_cons_of_ne_nil (hlegal k hop)
              obtain ⟨t, hpop, -, -, hpos, hdata⟩ := hrep.popFront hl
              have happly : Op.apply r .popFront = .ok t := by
                show Prod.snd <$> r.popFront = _
                rw [hpop]
                rfl
              obtain rfl : t = r' := Except.ok.inj (happly.symm.trans hrun')
              rw [hpos, hdata]
              apply ih
              rw [hl] at hv ⊢
              have hlast : rest.getLast? = some v := hv
              rw [List.getLast?_cons, hlast]
              rfl
          | clear => cases hv

/-- **The ring buffer refines the list, `back` included, exactly when every pushed value is already behind the place where it
goes.** -/
theorem buffer_agrees_iff (hcap : 0 < cap) (d : α) {ops : List (Op α)} (hlegal : Legal cap ops) :
    (∀ k, ∃ r, run (ops.take k) (RingBuffer.ofCapacity cap d) = .ok r ∧ Agrees r (listRun cap (ops.take k))) ↔
      ∀ k value, ops[k]? = some (.pushBack value) →
        ∃ r, run (ops.take k) (RingBuffer.ofCapacity cap d) = .ok r ∧ FindsBehind r value := by
  constructor
  · intro h k value hop
    obtain ⟨r, hrun, hr, hrep⟩ := @exists_rep _ _ d hcap _ hlegal k
    refine ⟨r, hrun, ?_⟩
    obtain ⟨r', hrun', hagrees⟩ := h (k + 1)
    rw [run_succ _ hop, hrun] at hrun'
    rw [listRun_succ cap hop] at hagrees
    obtain ⟨t, happly, hrep', hcap', hpos, hdata⟩ := hrep.pushBack value
    obtain rfl : t = r' := Except.ok.inj (happly.symm.trans hrun')
    have hback := hagrees.back value (by rw [Op.onList, List.getLast?_concat])
    have hsz : t.sz ≠ 0 := by
      rw [hrep'.sz_eq, List.length_append, List.length_singleton]
      omega
    rw [RingBuffer.back, if_neg hsz, RingBuffer.read, hpos, hdata] at hback
    by_cases hone : r.capacity = 1
    · exact .inl hone
    · have hlt := hrep.pos_lt
      have hne : (r.pos + 1) % r.capacity ≠ r.pos := by
        intro heq
        rcases Nat.lt_or_ge (r.pos + 1) r.capacity with hlt' | hge
        · rw [Nat.mod_eq_of_lt hlt'] at heq
          omega
        · rw [show r.pos + 1 = r.capacity by omega, Nat.mod_self] at heq
          omega
      rw [List.getElem?_set_ne hne.symm] at hback
      right
      cases hget : r.data[(r.pos + 1) % r.capacity]? with
      | none =>
          rw [hget] at hback
          cases hback
      | some w =>
          rw [hget] at hback
          rw [Except.ok.inj hback]
  · intro h k
    obtain ⟨r, hrun, -, hrep⟩ := @exists_rep _ _ d hcap _ hlegal k
    exact ⟨r, hrun, hrep.agrees (back_of_found hcap hlegal h k r hrun)⟩

/-- With a capacity of one `back` is right. -/
theorem buffer_agrees_iff_one :
    (∀ k, ∃ r, run ([.pushBack 5, .popFront, .pushBack 7].take k) (RingBuffer.ofCapacity 1 0) = .ok r ∧
        Agrees r (listRun 1 ([.pushBack 5, .popFront, .pushBack 7].take k))) ↔
      ∀ k value, [Op.pushBack 5, .popFront, .pushBack 7][k]? = some (.pushBack value) →
        ∃ r, run ([.pushBack 5, .popFront, .pushBack 7].take k) (RingBuffer.ofCapacity 1 0) = .ok r ∧
          FindsBehind r value := by
  refine buffer_agrees_iff Nat.one_pos 0 fun k hk => ?_
  rcases k with _ | _ | _ | k
  · cases hk
  · exact List.cons_ne_nil 5 []
  · cases hk
  · cases hk

/-- A value is pushed into a buffer of two, and `back` returns what was there before. -/
theorem back_not_last : ∃ r : RingBuffer Nat, run [.pushBack 7] (RingBuffer.ofCapacity 2 0) = .ok r ∧
    (listRun 2 [Op.pushBack 7]).getLast? = some 7 ∧ r.back = .ok 0 ∧ ¬ Agrees r (listRun 2 [.pushBack 7]) := by
  refine ⟨_, rfl, rfl, rfl, fun h => ?_⟩
  have hback := h.back 7 rfl
  cases hback

end Runs

end S2Moe.Sampling
