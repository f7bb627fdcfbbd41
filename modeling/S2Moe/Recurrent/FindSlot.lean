import S2Moe.Recurrent.Tails

/-!
# `find_slot` keeps tails and cells together

While `find_slot` runs, the sequences in `reserved` own a cell that may still be empty.

* `Placing m reserved` : the links in that phase; with nothing reserved these are `Links`;
* `Placing.take`, `Placing.swap`, `Placing.emplace` : the three loops add to `reserved`, permute the cells, and take from
  `reserved`;
* `NextOk` : the next empty cell is not reserved, as long as there is one that is not;
* `Consistent.findSlot` : a ubatch of disjoint sequence sets keeps the memory consistent.
-/

namespace S2Moe.Recurrent
open S2Moe.Lib

structure Placing (m : Memory) (reserved : List Nat) : Prop where
  seq_lt : ∀ i < m.size, ∀ y ∈ m.seqs i, y < m.size
  tail_lt : ∀ y < m.size, ∀ i, m.tail y = some i → i < m.size
  mem_tail : ∀ i < m.size, ∀ y ∈ m.seqs i, m.tail y = some i
  tail_mem : ∀ y < m.size, ∀ i, m.tail y = some i → y ∈ m.seqs i ∨ y ∈ reserved ∧ m.seqs i = ∅
  own : ∀ a ∈ reserved, ∃ i, m.tail a = some i ∧ ∀ y < m.size, m.tail y = some i → y = a
  reserved_lt : ∀ a ∈ reserved, a < m.size
  empty_pos : ∀ i < m.size, m.seqs i = ∅ → (m.cells i).pos < 0

theorem Linked.placing {m : Memory} (h : Linked m) : Placing m [] where
  seq_lt := h.seq_lt
  tail_lt := h.tail_lt
  mem_tail i hi y hy := (h.tail_iff y (h.seq_lt i hi y hy) i hi).mpr hy
  tail_mem y hy i hi := .inl ((h.tail_iff y hy i (h.tail_lt y hy i hi)).mp hi)
  own _ ha := absurd ha List.not_mem_nil
  reserved_lt _ ha := absurd ha List.not_mem_nil
  empty_pos := h.empty_pos

theorem Placing.linked {m : Memory} (h : Placing m []) (hhead : m.head < m.size) : Linked m where
  tail_iff y hy i hi := by
    constructor
    · intro ht
      obtain hmem | ⟨hmem, _⟩ := h.tail_mem y hy i ht
      · exact hmem
      · exact absurd hmem List.not_mem_nil
    · exact h.mem_tail i hi y
  tail_lt := h.tail_lt
  seq_lt := h.seq_lt
  empty_pos := h.empty_pos
  head_lt := hhead

/-- A cell that no sequence has as its tail. -/
def Memory.Free (m : Memory) (i : Nat) : Prop := i < m.size ∧ ∀ y < m.size, m.tail y ≠ some i

section Take
variable {m m' : Memory} {reserved : List Nat} {x next : Nat}

theorem Placing.seqs_of_free (h : Placing m reserved) (hfree : m.Free next) : m.seqs next = ∅ := by
  apply Finset.eq_empty_of_forall_notMem
  intro y hy
  exact hfree.2 y (h.seq_lt next hfree.1 y hy) (h.mem_tail next hfree.1 y hy)

/-- A sequence that shares its cell, or has none, leaves a cell free: there are as many cells as sequences. -/
theorem Placing.exists_free (h : Placing m reserved) (hx : x < m.size) (hnew : x ∉ reserved)
    (hown : m.owns x ≠ some true) : ∃ i, m.Free i := by
  by_contra hno
  have hall : ∀ i < m.size, ∃ y < m.size, m.tail y = some i := by
    intro i hi
    by_contra hc
    exact hno ⟨i, hi, fun y hy ht => hc ⟨y, hy, ht⟩⟩
  choose! f hf using hall
  -- `f` chooses an owner for every cell; it is injective, so every sequence is chosen
  have hinj : Set.InjOn f (Finset.range m.size) := by
    intro i hi j hj heq
    have hi' := (hf i (Finset.mem_range.mp hi)).2
    have hj' := (hf j (Finset.mem_range.mp hj)).2
    rw [heq, hj'] at hi'
    exact (Option.some.inj hi').symm
  have hmaps : Set.MapsTo f (Finset.range m.size) (Finset.range m.size) :=
    fun i hi => Finset.mem_coe.mpr (Finset.mem_range.mpr (hf i (Finset.mem_range.mp hi)).1)
  have hsurj : ∀ y < m.size, ∃ i < m.size, f i = y := by
    intro y hy
    obtain ⟨i, hi, heq⟩ := Finset.surjOn_of_injOn_of_card_le f hmaps hinj le_rfl
      (Finset.mem_coe.mpr (Finset.mem_range.mpr hy))
    exact ⟨i, Finset.mem_range.mp hi, heq⟩
  obtain ⟨t, ht, rfl⟩ := hsurj x hx
  have htail := (hf t ht).2
  have hsole : ∀ y ∈ m.seqs t, y = f t := by
    intro y hy
    obtain ⟨j, hj, rfl⟩ := hsurj y (h.seq_lt t ht y hy)
    have hjt := h.mem_tail t ht _ hy
    rw [(hf j hj).2] at hjt
    rw [Option.some.inj hjt]
  have hmem : f t ∈ m.seqs t := by
    obtain hmem | ⟨hmem, _⟩ := h.tail_mem _ hx t htail
    · exact hmem
    · exact absurd hmem hnew
  apply hown
  unfold Memory.owns
  rw [htail]
  dsimp only
  rw [if_pos hmem, Finset.eq_singleton_iff_unique_mem.mpr ⟨hmem, hsole⟩, Finset.card_singleton]
  rfl

/-- A sequence with a cell of its own is reserved as it stands. -/
theorem Placing.reserve (h : Placing m reserved) (hx : x < m.size) (hown : m.owns x = some true) :
    Placing m (x :: reserved) where
  seq_lt := h.seq_lt
  tail_lt := h.tail_lt
  mem_tail := h.mem_tail
  tail_mem y hy i hi := by
    obtain hmem | ⟨hmem, he⟩ := h.tail_mem y hy i hi
    · exact .inl hmem
    · exact .inr ⟨List.mem_cons_of_mem _ hmem, he⟩
  own a ha := by
    obtain rfl | ha := List.mem_cons.mp ha
    · unfold Memory.owns at hown
      cases ht : m.tail a with
      | none => rw [ht] at hown; cases hown
      | some t =>
          rw [ht] at hown
          dsimp only at hown
          split at hown
          · rename_i hmem
            have hcard : (m.seqs t).card = 1 := of_decide_eq_true (Option.some.inj hown)
            obtain ⟨b, hb⟩ := Finset.card_eq_one.mp hcard
            rw [hb, Finset.mem_singleton] at hmem
            refine ⟨t, rfl, fun y hy hyt => ?_⟩
            obtain hyt' | ⟨_, he⟩ := h.tail_mem y hy t hyt
            · rw [hb, Finset.mem_singleton] at hyt'
              rw [hyt', hmem]
            · rw [hb] at he
              exact absurd he (Finset.singleton_ne_empty _)
          · cases hown
    · exact h.own a ha
  reserved_lt a ha := by
    obtain rfl | ha := List.mem_cons.mp ha
    · exact hx
    · exact h.reserved_lt a ha
  empty_pos := h.empty_pos

/-- The fields of the memory behind `take`. -/
structure Taken (m m' : Memory) (x next : Nat) : Prop where
  size_eq : m'.size = m.size
  head_eq : m'.head = m.head
  tail_eq : ∀ y, m'.tail y = if y = x then some next else m.tail y
  mem_seqs : ∀ i y, y ∈ m'.seqs i ↔
    (m.tail x ≠ none ∧ i = next ∧ y = x) ∨ (m.tail x = some i ∧ y ∈ m.seqs i ∧ y ≠ x) ∨ (m.tail x ≠ some i ∧ y ∈ m.seqs i)
  pos_eq : ∀ i, i ≠ next → (m'.cells i).pos = (m.cells i).pos
  pos_next : m.tail x = none → (m'.cells next).pos = (m.cells next).pos
  rest : ∀ t, m.tail x = some t → m'.seqs t ≠ ∅

theorem Memory.take_eq_some (htake : m.take x next = some m') : Taken m m' x next := by
  unfold Memory.take at htake
  split at htake
  · cases htake
  · rename_i hempty
    rw [not_not] at hempty
    cases ht : m.tail x with
    | none =>
        rw [ht] at htake
        cases htake
        refine ⟨rfl, rfl, fun y => Memory.tail_setTail m x _ y, fun i y => ?_, fun i _ => Memory.pos_setTail m x _ i,
          fun _ => Memory.pos_setTail m x _ next, fun t hc => ?_⟩
        · rw [Memory.seqs_setTail, ht]
          simp
        · rw [ht] at hc
          cases hc
    | some t =>
        rw [ht] at htake
        dsimp only at htake
        split at htake
        · cases htake
        · rename_i hrest
          cases htake
          have hne : t ≠ next := by
            rintro rfl
            rw [hempty] at hrest
            exact hrest rfl
          have hseqs : ∀ i, (((m.modify next fun c =>
              { c with pos := (m.cells t).pos, src := (m.cells t).src, seqId := {x} }).modify t
              fun c => { c with seqId := c.seqId.erase x }).setTail x (some next)).seqs i =
              if i = t then (m.seqs t).erase x else if i = next then {x} else m.seqs i := by
            intro i
            rw [Memory.seqs_setTail]
            unfold Memory.seqs Memory.modify
            dsimp only
            by_cases hit : i = t
            · rw [if_pos hit, hit, Function.update_self, Function.update_of_ne hne]
            · rw [if_neg hit, Function.update_of_ne hit]
              by_cases hin : i = next
              · rw [if_pos hin, hin, Function.update_self]
              · rw [if_neg hin, Function.update_of_ne hin]
          refine ⟨rfl, rfl, fun y => ?_, fun i y => ?_, fun i hi => ?_, fun hc => ?_, fun u hu => ?_⟩
          · rw [Memory.tail_setTail, Memory.tail_modify, Memory.tail_modify]
            · exact fun _ => rfl
            · exact fun _ => rfl
          · rw [hseqs, ht]
            by_cases hit : i = t
            · subst hit
              simp [hne, and_comm]
            · by_cases hin : i = next
              · subst hin
                simp [hit, Ne.symm hit, hempty]
              · simp [hit, Ne.symm hit, hin]
          · rw [Memory.pos_setTail]
            unfold Memory.modify
            dsimp only
            by_cases hit : i = t
            · rw [hit, Function.update_self, Function.update_of_ne hne]
            · rw [Function.update_of_ne hit, Function.update_of_ne hi]
          · rw [ht] at hc
            cases hc
          · rw [ht] at hu
            cases hu
            rw [hseqs, if_pos rfl]
            exact hrest

/-- The next free cell is reserved for a sequence that has no cell of its own. -/
theorem Placing.take (h : Placing m reserved) (hx : x < m.size) (hnew : x ∉ reserved) (hfree : m.Free next)
    (ht : Taken m m' x next) : Placing m' (x :: reserved) where
  seq_lt i hi y hy := by
    rw [ht.size_eq] at hi ⊢
    obtain ⟨_, _, rfl⟩ | ⟨_, hy, _⟩ | ⟨_, hy⟩ := (ht.mem_seqs i y).mp hy
    · exact hx
    · exact h.seq_lt i hi y hy
    · exact h.seq_lt i hi y hy
  tail_lt y hy i hi := by
    rw [ht.size_eq] at hy ⊢
    rw [ht.tail_eq] at hi
    split at hi
    · cases hi
      exact hfree.1
    · exact h.tail_lt y hy i hi
  mem_tail i hi y hy := by
    rw [ht.size_eq] at hi
    rw [ht.tail_eq]
    obtain ⟨_, rfl, rfl⟩ | ⟨_, hy, hyx⟩ | ⟨hxi, hy⟩ := (ht.mem_seqs i y).mp hy
    · rw [if_pos rfl]
    · rw [if_neg hyx]
      exact h.mem_tail i hi y hy
    · have hyi := h.mem_tail i hi y hy
      rw [if_neg]
      · exact hyi
      · rintro rfl
        exact hxi hyi
  tail_mem y hy i hi := by
    rw [ht.size_eq] at hy
    rw [ht.tail_eq] at hi
    split at hi
    · rename_i hyx
      cases hi
      subst hyx
      by_cases hnone : m.tail y = none
      · right
        refine ⟨List.mem_cons_self, Finset.eq_empty_of_forall_notMem fun z hz => ?_⟩
        rw [ht.mem_seqs, h.seqs_of_free hfree, hnone] at hz
        simp at hz
      · left
        rw [ht.mem_seqs]
        exact .inl ⟨hnone, rfl, rfl⟩
    · rename_i hyx
      obtain hmem | ⟨hmem, he⟩ := h.tail_mem y hy i hi
      · left
        rw [ht.mem_seqs]
        by_cases hxi : m.tail x = some i
        · exact .inr (.inl ⟨hxi, hmem, hyx⟩)
        · exact .inr (.inr ⟨hxi, hmem⟩)
      · right
        refine ⟨List.mem_cons_of_mem _ hmem, Finset.eq_empty_of_forall_notMem fun z hz => ?_⟩
        rw [ht.mem_seqs, he] at hz
        obtain ⟨_, rfl, _⟩ | ⟨_, hz, _⟩ | ⟨_, hz⟩ := hz
        · exact hfree.2 y hy hi
        · cases hz
        · cases hz
  own a ha := by
    obtain rfl | ha := List.mem_cons.mp ha
    · refine ⟨next, by rw [ht.tail_eq, if_pos rfl], fun y hy hyt => ?_⟩
      rw [ht.size_eq] at hy
      rw [ht.tail_eq] at hyt
      by_contra hne
      rw [if_neg hne] at hyt
      exact hfree.2 y hy hyt
    · have hax : a ≠ x := fun hc => hnew (hc ▸ ha)
      obtain ⟨i, hi, hsole⟩ := h.own a ha
      refine ⟨i, by rw [ht.tail_eq, if_neg hax]; exact hi, fun y hy hyt => ?_⟩
      rw [ht.size_eq] at hy
      rw [ht.tail_eq] at hyt
      split at hyt
      · cases hyt
        exact absurd hi (hfree.2 a (h.reserved_lt a ha))
      · exact hsole y hy hyt
  reserved_lt a ha := by
    rw [ht.size_eq]
    obtain rfl | ha := List.mem_cons.mp ha
    · exact hx
    · exact h.reserved_lt a ha
  empty_pos i hi he := by
    rw [ht.size_eq] at hi
    by_cases hin : i = next
    · subst hin
      have hnone : m.tail x = none := by
        by_contra hc
        have hmem : x ∈ m'.seqs i := (ht.mem_seqs i x).mpr (.inl ⟨hc, rfl, rfl⟩)
        rw [he] at hmem
        cases hmem
      rw [ht.pos_next hnone]
      exact h.empty_pos i hi (h.seqs_of_free hfree)
    · rw [ht.pos_eq i hin]
      apply h.empty_pos i hi
      apply Finset.eq_empty_of_forall_notMem
      intro y hy
      by_cases hxi : m.tail x = some i
      · exact ht.rest i hxi he
      · have hmem := (ht.mem_seqs i y).mpr (.inr (.inr ⟨hxi, hy⟩))
        rw [he] at hmem
        cases hmem

theorem Taken.free_iff (ht : Taken m m' x next) (h : Placing m reserved) (hx : x < m.size) (hnew : x ∉ reserved)
    (i : Nat) : m'.Free i ↔ m.Free i ∧ i ≠ next := by
  unfold Memory.Free
  rw [ht.size_eq]
  constructor
  · rintro ⟨hi, hfree⟩
    have hin : i ≠ next := by
      rintro rfl
      exact hfree x hx (by rw [ht.tail_eq, if_pos rfl])
    refine ⟨⟨hi, fun y hy hyi => ?_⟩, hin⟩
    by_cases hyx : y = x
    · -- the cell that `x` left still has another sequence
      subst hyx
      obtain ⟨z, hz⟩ := Finset.nonempty_iff_ne_empty.mpr (ht.rest i hyi)
      rw [ht.mem_seqs] at hz
      obtain ⟨_, hc, _⟩ | ⟨_, hz, hzy⟩ | ⟨hc, _⟩ := hz
      · exact hin hc
      · refine hfree z (h.seq_lt i hi z hz) ?_
        rw [ht.tail_eq, if_neg hzy]
        exact h.mem_tail i hi z hz
      · exact hc hyi
    · exact hfree y hy (by rw [ht.tail_eq, if_neg hyx]; exact hyi)
  · rintro ⟨⟨hi, hfree⟩, hin⟩
    refine ⟨hi, fun y hy hyi => ?_⟩
    rw [ht.tail_eq] at hyi
    split at hyi
    · exact hin (Option.some.inj hyi).symm
    · exact hfree y hy hyi

theorem Taken.empty_of_empty (ht : Taken m m' x next) {i : Nat} (he : m'.seqs i = ∅) : m.seqs i = ∅ := by
  apply Finset.eq_empty_of_forall_notMem
  intro y hy
  by_cases hxi : m.tail x = some i
  · exact ht.rest i hxi he
  · have hmem := (ht.mem_seqs i y).mpr (.inr (.inr ⟨hxi, hy⟩))
    rw [he] at hmem
    cases hmem

end Take

/-! ## The next empty cell -/

/-- As long as a cell is free, `next` is the first free one from `head` on, and all empty cells that are reserved lie
before it. -/
def NextOk (m : Memory) (next : Nat) : Prop :=
  ∀ e, m.Free e → m.Free next ∧ ahead m.size m.head next ≤ ahead m.size m.head e ∧
    ∀ i < m.size, m.seqs i = ∅ → ¬ m.Free i → ahead m.size m.head i < ahead m.size m.head next

section Next
variable {m m' : Memory} {reserved : List Nat} {x next : Nat}

theorem exists_first_free (h : ∃ e, m.Free e) :
    ∃ e, m.Free e ∧ ∀ i, m.Free i → ahead m.size m.head e ≤ ahead m.size m.head i := by
  classical
  obtain ⟨e, he⟩ := h
  obtain ⟨f, hf, hmin⟩ := Finset.exists_min_image ((Finset.range m.size).filter m.Free) (ahead m.size m.head)
    ⟨e, Finset.mem_filter.mpr ⟨Finset.mem_range.mpr he.1, he⟩⟩
  refine ⟨f, (Finset.mem_filter.mp hf).2, fun i hi => ?_⟩
  exact hmin i (Finset.mem_filter.mpr ⟨Finset.mem_range.mpr hi.1, hi⟩)

/-- With nothing reserved the empty cells are the free ones. -/
theorem Placing.free_iff (h : Placing m []) {i : Nat} (hi : i < m.size) : m.Free i ↔ m.seqs i = ∅ := by
  refine ⟨h.seqs_of_free, fun he => ⟨hi, fun y hy hyi => ?_⟩⟩
  obtain hmem | ⟨hmem, _⟩ := h.tail_mem y hy i hyi
  · rw [he] at hmem
    cases hmem
  · exact absurd hmem List.not_mem_nil

/-- The search from `head`. -/
theorem Placing.nextOk_seek (h : Placing m []) (hhead : m.head < m.size) :
    NextOk m (seek m.isEmpty m.size m.size m.head) := by
  intro e he
  obtain ⟨f, hf, hmin⟩ := exists_first_free ⟨e, he⟩
  have hseek : seek m.isEmpty m.size m.size m.head = f := by
    apply seek_eq_of_ahead (by omega) hf.1
    · exact decide_eq_true (h.seqs_of_free hf)
    · intro i hi hempty
      exact hmin i ((h.free_iff hi).mpr (of_decide_eq_true hempty))
  rw [hseek]
  exact ⟨hf, hmin e he, fun i hi hempty hno => absurd ((h.free_iff hi).mpr hempty) hno⟩

/-- The search goes on behind the cell that was taken. -/
theorem NextOk.moveOn (h : NextOk m next) (hp : Placing m reserved) (hx : x < m.size) (hnew : x ∉ reserved)
    (hfree : m.Free next) (ht : Taken m m' x next) :
    NextOk m' (seekAfter m'.isEmpty m'.size m'.size next) := by
  intro e he
  obtain ⟨f, hf, hmin⟩ := exists_first_free ⟨e, he⟩
  have hf' := (ht.free_iff hp hx hnew f).mp hf
  obtain ⟨_, hle, _⟩ := h f hf'.1
  obtain ⟨_, _, hbefore⟩ := h next hfree
  rw [ht.size_eq, ht.head_eq] at hmin
  -- in steps from `head`: reserved cells, then `next`, then the free cells
  have hreserved : ∀ i < m.size, m'.seqs i = ∅ → ¬ m'.Free i →
      ahead m.size m.head i ≤ ahead m.size m.head next := by
    intro i hi hempty hno
    by_cases hin : i = next
    · rw [hin]
    · refine (hbefore i hi (ht.empty_of_empty hempty) fun hc => ?_).le
      exact hno ((ht.free_iff hp hx hnew i).mpr ⟨hc, hin⟩)
  have hlt : ahead m.size m.head next < ahead m.size m.head f := by
    refine lt_of_le_of_ne hle fun hc => hf'.2 ?_
    exact (ahead_inj hfree.1 hf'.1.1 hc).symm
  have hseek : seekAfter m'.isEmpty m'.size m'.size next = f := by
    rw [ht.size_eq]
    apply seekAfter_eq_of_ahead hfree.1 hf'.1.1
    · have hplaced := hp.take hx hnew hfree ht
      exact decide_eq_true (hplaced.seqs_of_free hf)
    · intro i hi hempty
      rw [ahead_succ m.head hfree.1 hf'.1.1, ahead_succ m.head hfree.1 hi, if_pos hlt]
      by_cases hi' : m'.Free i
      · have := hmin i hi'
        rw [if_pos (by omega)]
        omega
      · have hle' := hreserved i hi (of_decide_eq_true hempty) hi'
        have := ahead_lt (by omega : 0 < m.size) m.head f
        have := ahead_lt (by omega : 0 < m.size) m.head next
        rw [if_neg (by omega)]
        omega
  rw [hseek, ht.size_eq, ht.head_eq]
  refine ⟨hf, hmin e he, fun i hi hempty hno => ?_⟩
  exact lt_of_le_of_lt (hreserved i hi hempty hno) hlt

end Next

/-! ## The second loop -/

section AssignLoop
variable {a b : Assign} {reserved : List Nat} {x : Nat}

structure Assigned (a : Assign) (reserved : List Nat) : Prop where
  placing : Placing a.mem reserved
  max_lt : a.max < a.mem.size
  bounds : ∀ y ∈ reserved, ∀ i, a.mem.tail y = some i → a.min ≤ i ∧ i ≤ a.max

/-- One pass: the sequence gets a cell of its own, and no other tail moves. -/
theorem Assigned.step {last : Bool} (h : Assigned a reserved) (hnext : NextOk a.mem a.next) (hx : x < a.mem.size)
    (hnew : x ∉ reserved) (hstep : a.step x last = some b) :
    Assigned b (x :: reserved) ∧ b.mem.size = a.mem.size ∧ b.mem.head = a.mem.head ∧
      (last = false → NextOk b.mem b.next) ∧ ∀ y, y ≠ x → b.mem.tail y = a.mem.tail y := by
  -- the bounds only need that the other reserved tails stay where they are
  have hbounds : ∀ (m : Memory) (t : Nat), m.tail x = some t → (∀ y, y ≠ x → m.tail y = a.mem.tail y) →
      ∀ y ∈ x :: reserved, ∀ i, m.tail y = some i → Nat.min a.min t ≤ i ∧ i ≤ Nat.max a.max t := by
    intro m t ht hsame y hy i hi
    by_cases hyx : y = x
    · rw [hyx, ht] at hi
      cases hi
      exact ⟨Nat.min_le_right _ _, Nat.le_max_right _ _⟩
    · rw [hsame y hyx] at hi
      obtain hc | hy := List.mem_cons.mp hy
      · exact absurd hc hyx
      · obtain ⟨h1, h2⟩ := h.bounds y hy i hi
        exact ⟨(Nat.min_le_left _ _).trans h1, h2.trans (Nat.le_max_left _ _)⟩
  simp only [Assign.step, Option.bind_eq_bind, Option.bind_eq_some_iff] at hstep
  obtain ⟨own, hown, hstep⟩ := hstep
  cases own with
  | true =>
      simp only [if_true, Option.bind_some, Option.bind_eq_some_iff] at hstep
      obtain ⟨t, ht, hb⟩ := hstep
      cases hb
      have hplacing := h.placing.reserve hx hown
      have htl := hplacing.tail_lt x hx t ht
      refine ⟨⟨hplacing, ?_, hbounds a.mem t ht fun _ _ => rfl⟩, rfl, rfl, fun _ => hnext, fun _ _ => rfl⟩
      exact Nat.max_lt.mpr ⟨h.max_lt, htl⟩
  | false =>
      simp only [Bool.false_eq_true, if_false, Option.bind_some, Option.bind_eq_some_iff] at hstep
      obtain ⟨mem, htake, t, ht, hb⟩ := hstep
      cases hb
      have htaken := Memory.take_eq_some htake
      obtain ⟨e, he⟩ := h.placing.exists_free hx hnew (by rw [hown]; simp)
      have hfree := (hnext e he).1
      have hplacing := h.placing.take hx hnew hfree htaken
      have hsame : ∀ y, y ≠ x → mem.tail y = a.mem.tail y := by
        intro y hy
        rw [htaken.tail_eq, if_neg hy]
      have htl := hplacing.tail_lt x (by rw [htaken.size_eq]; exact hx) t ht
      refine ⟨⟨hplacing, ?_, hbounds mem t ht hsame⟩, htaken.size_eq, htaken.head_eq, fun hlast => ?_, hsame⟩
      · refine Nat.max_lt.mpr ⟨?_, htl⟩
        rw [htaken.size_eq]
        exact h.max_lt
      · subst hlast
        exact hnext.moveOn h.placing hx hnew hfree htaken

/-- The whole loop. -/
theorem Assigned.run : ∀ (sets : List SeqSet) (a : Assign) (reserved : List Nat), Assigned a reserved →
    (sets ≠ [] → NextOk a.mem a.next) → (sets.map (·.primary.toNat)).Nodup →
    (∀ s ∈ sets, s.primary.toNat < a.mem.size ∧ s.primary.toNat ∉ reserved) → Assign.run sets a = some b →
    Assigned b ((sets.map (·.primary.toNat)).reverse ++ reserved) ∧ b.mem.size = a.mem.size ∧
      ∀ y, y ∉ sets.map (·.primary.toNat) → b.mem.tail y = a.mem.tail y
  | [], a, reserved, h, _, _, _, hrun => by
    cases hrun
    exact ⟨h, rfl, fun _ _ => rfl⟩
  | s :: sets, a, reserved, h, hnext, hnodup, hmem, hrun => by
    simp only [Assign.run, Option.bind_eq_bind, Option.bind_eq_some_iff] at hrun
    obtain ⟨c, hc, hrun⟩ := hrun
    obtain ⟨hs, hs'⟩ := hmem s List.mem_cons_self
    obtain ⟨hstep, hsize, _, hnext', hsame⟩ := h.step (hnext (List.cons_ne_nil _ _)) hs hs' hc
    rw [List.map_cons, List.nodup_cons] at hnodup
    have hmem' : ∀ u ∈ sets, u.primary.toNat < c.mem.size ∧ u.primary.toNat ∉ s.primary.toNat :: reserved := by
      intro u hu
      obtain ⟨h1, h2⟩ := hmem u (List.mem_cons_of_mem _ hu)
      refine ⟨by rw [hsize]; exact h1, fun hc => ?_⟩
      obtain heq | hc := List.mem_cons.mp hc
      · exact hnodup.1 (heq ▸ List.mem_map_of_mem hu)
      · exact h2 hc
    obtain ⟨hrun', hsize', hsame'⟩ := Assigned.run sets c _ hstep
      (fun hne => hnext' (by cases sets with | nil => exact absurd rfl hne | cons _ _ => rfl)) hnodup.2 hmem' hrun
    refine ⟨?_, hsize'.trans hsize, fun y hy => ?_⟩
    · rw [List.map_cons, List.reverse_cons, List.append_assoc]
      exact hrun'
    · rw [List.map_cons, List.mem_cons, not_or] at hy
      rw [hsame' y hy.2, hsame y hy.1]

/-- The reserved cells fit between `min` and `max`. -/
theorem Assigned.length_le (h : Assigned a reserved) (hnodup : reserved.Nodup) (hne : reserved ≠ []) :
    a.min + reserved.length ≤ a.max + 1 := by
  have hcard : reserved.toFinset.card ≤ (Finset.Icc a.min a.max).card := by
    apply Finset.card_le_card_of_injOn (fun y => (a.mem.tail y).getD 0)
    · intro y hy
      have hy' : y ∈ reserved := List.mem_toFinset.mp hy
      obtain ⟨i, hi, _⟩ := h.placing.own y hy'
      obtain ⟨h1, h2⟩ := h.bounds y hy' i hi
      simp only [hi, Option.getD_some]
      exact Finset.mem_coe.mpr (Finset.mem_Icc.mpr ⟨h1, h2⟩)
    · intro y hy z hz heq
      obtain ⟨i, hi, _⟩ := h.placing.own y (List.mem_toFinset.mp hy)
      obtain ⟨j, hj, hsole⟩ := h.placing.own z (List.mem_toFinset.mp hz)
      simp only [hi, hj, Option.getD_some] at heq
      exact hsole y (h.placing.reserved_lt y (List.mem_toFinset.mp hy)) (by rw [hi, heq])
  rw [List.toFinset_card_of_nodup hnodup, Nat.card_Icc] at hcard
  have hlen := List.length_pos_iff.mpr hne
  omega

end AssignLoop

theorem Placing.congr_reserved {m : Memory} {r r' : List Nat} (h : Placing m r) (hr : ∀ y, y ∈ r' ↔ y ∈ r) :
    Placing m r' where
  seq_lt := h.seq_lt
  tail_lt := h.tail_lt
  mem_tail := h.mem_tail
  tail_mem y hy i hi := by
    rw [hr]
    exact h.tail_mem y hy i hi
  own a ha := h.own a ((hr a).mp ha)
  reserved_lt a ha := h.reserved_lt a ((hr a).mp ha)
  empty_pos := h.empty_pos

theorem Placing.congr {m m' : Memory} {r : List Nat} (h : Placing m r) (hsize : m'.size = m.size)
    (hsame : ∀ i, m'.tail i = m.tail i ∧ m'.seqs i = m.seqs i ∧ (m'.cells i).pos = (m.cells i).pos) : Placing m' r where
  seq_lt i hi y hy := by
    rw [hsize] at hi ⊢
    rw [(hsame i).2.1] at hy
    exact h.seq_lt i hi y hy
  tail_lt y hy i hi := by
    rw [hsize] at hy ⊢
    rw [(hsame y).1] at hi
    exact h.tail_lt y hy i hi
  mem_tail i hi y hy := by
    rw [hsize] at hi
    rw [(hsame i).2.1] at hy
    rw [(hsame y).1]
    exact h.mem_tail i hi y hy
  tail_mem y hy i hi := by
    rw [hsize] at hy
    rw [(hsame y).1] at hi
    rw [(hsame i).2.1]
    exact h.tail_mem y hy i hi
  own a ha := by
    obtain ⟨i, hi, hsole⟩ := h.own a ha
    refine ⟨i, by rw [(hsame a).1]; exact hi, fun y hy hyi => ?_⟩
    rw [hsize] at hy
    rw [(hsame y).1] at hyi
    exact hsole y hy hyi
  reserved_lt a ha := by
    rw [hsize]
    exact h.reserved_lt a ha
  empty_pos i hi he := by
    rw [hsize] at hi
    rw [(hsame i).2.1] at he
    rw [(hsame i).2.2]
    exact h.empty_pos i hi he

/-! ## The third loop -/

section Gather
variable {m m' : Memory} {reserved : List Nat}

theorem swapIndex_swapIndex (dst src i : Nat) : swapIndex dst src (swapIndex dst src i) = i := by
  unfold swapIndex
  split_ifs <;> omega

theorem swapIndex_lt {dst src i n : Nat} (hd : dst < n) (hs : src < n) (hi : i < n) : swapIndex dst src i < n := by
  unfold swapIndex
  split_ifs <;> omega

theorem Memory.tail_swap (m : Memory) (dst src : Nat) {y : Nat} (hy : y < m.size) :
    (m.swap dst src).tail y = (m.tail y).map (swapIndex dst src) := by
  unfold Memory.tail Memory.swap
  dsimp only
  rw [if_pos hy]
  rfl

theorem Memory.tail_swap_eq_some {dst src y i : Nat} (hy : y < m.size) :
    (m.swap dst src).tail y = some i ↔ m.tail y = some (swapIndex dst src i) := by
  rw [Memory.tail_swap m dst src hy, Option.map_eq_some_iff]
  constructor
  · rintro ⟨j, hj, rfl⟩
    rw [swapIndex_swapIndex]
    exact hj
  · intro h
    exact ⟨_, h, swapIndex_swapIndex dst src i⟩

/-- Exchanging two cells, and the tails to them, renames the cells. -/
theorem Placing.swap (h : Placing m reserved) {dst src : Nat} (hd : dst < m.size) (hs : src < m.size) :
    Placing (m.swap dst src) reserved where
  seq_lt i hi y hy := h.seq_lt _ (swapIndex_lt hd hs hi) y hy
  tail_lt y hy i hi := by
    rw [Memory.tail_swap_eq_some (m := m) hy] at hi
    rw [← swapIndex_swapIndex dst src i]
    exact swapIndex_lt hd hs (h.tail_lt y hy _ hi)
  mem_tail i hi y hy := by
    have hlt := swapIndex_lt hd hs hi
    rw [Memory.tail_swap_eq_some (h.seq_lt _ hlt y hy)]
    exact h.mem_tail _ hlt y hy
  tail_mem y hy i hi := h.tail_mem y hy _ ((Memory.tail_swap_eq_some (m := m) hy).mp hi)
  own a ha := by
    obtain ⟨i, hi, hsole⟩ := h.own a ha
    refine ⟨swapIndex dst src i, ?_, fun y hy hyt => ?_⟩
    · rw [Memory.tail_swap_eq_some (h.reserved_lt a ha), swapIndex_swapIndex]
      exact hi
    · rw [Memory.tail_swap_eq_some (m := m) hy, swapIndex_swapIndex] at hyt
      exact hsole y hy hyt
  reserved_lt := h.reserved_lt
  empty_pos i hi he := h.empty_pos _ (swapIndex_lt hd hs hi) he

/-- The sequence sets have consecutive cells from `dst` on. -/
def Aligned : List SeqSet → Nat → Memory → Prop
  | [], _, _ => True
  | s :: sets, dst, m => m.tail s.primary.toNat = some dst ∧ Aligned sets (dst + 1) m

/-- The loop puts the sequence sets in order; `done` are the sequences already in place. -/
theorem Placing.gather : ∀ (sets : List SeqSet) (dst : Nat) (m : Memory) (done : List Nat), Placing m reserved →
    (∀ s ∈ sets, s.primary.toNat ∈ reserved) → (sets.map (·.primary.toNat)).Nodup → dst + sets.length ≤ m.size →
    (∀ y ∈ done, y < m.size ∧ y ∉ sets.map (·.primary.toNat) ∧ ∃ c < dst, m.tail y = some c) →
    Memory.gather sets dst m = some m' →
    Placing m' reserved ∧ m'.size = m.size ∧ Aligned sets dst m' ∧ (∀ y ∈ done, m'.tail y = m.tail y) ∧
      ∀ y < m.size, m.tail y = none → m'.tail y = none
  | [], _, m, _, h, _, _, _, _, hrun => by
    cases hrun
    exact ⟨h, rfl, trivial, fun _ _ => rfl, fun _ _ h => h⟩
  | s :: sets, dst, m, done, h, hres, hnodup, hlen, hdone, hrun => by
    have hs := hres s List.mem_cons_self
    have hslt := h.reserved_lt _ hs
    rw [List.length_cons] at hlen
    rw [List.map_cons, List.nodup_cons] at hnodup
    obtain ⟨src, hsrc, hsole⟩ := h.own _ hs
    have hsrclt := h.tail_lt _ hslt src hsrc
    rw [Memory.gather, hsrc] at hrun
    dsimp only at hrun
    -- whether or not the cells differ, the tails are renamed
    obtain ⟨m1, hm1, hp1, hsize1, htail1⟩ : ∃ m1, (if dst ≠ src then m.swap dst src else m) = m1 ∧
        Placing m1 reserved ∧ m1.size = m.size ∧ ∀ y < m.size, m1.tail y = (m.tail y).map (swapIndex dst src) := by
      refine ⟨_, rfl, ?_⟩
      split
      · exact ⟨h.swap (by omega) hsrclt, rfl, fun y hy => Memory.tail_swap m dst src hy⟩
      · rename_i hds
        rw [not_not] at hds
        refine ⟨h, rfl, fun y _ => ?_⟩
        have hid : swapIndex dst src = id := by
          funext i
          unfold swapIndex
          rw [hds]
          split_ifs with h1
          · exact h1.symm
          · rfl
        rw [hid, Option.map_id]
        rfl
    rw [hm1] at hrun
    have hplaced : m1.tail s.primary.toNat = some dst := by
      rw [htail1 _ hslt, hsrc, Option.map_some]
      unfold swapIndex
      rw [if_pos rfl]
    have hkept : ∀ y ∈ done, m1.tail y = m.tail y := by
      intro y hy
      obtain ⟨hylt, hyne, c, hc, hyc⟩ := hdone y hy
      rw [htail1 y hylt, hyc, Option.map_some]
      unfold swapIndex
      rw [if_neg, if_neg (by omega)]
      rintro rfl
      exact hyne (List.mem_cons.mpr (.inl (hsole y hylt hyc)))
    have hdone' : ∀ y ∈ s.primary.toNat :: done, y < m1.size ∧ y ∉ sets.map (·.primary.toNat) ∧
        ∃ c < dst + 1, m1.tail y = some c := by
      intro y hy
      rw [hsize1]
      obtain rfl | hy := List.mem_cons.mp hy
      · exact ⟨hslt, hnodup.1, dst, Nat.lt_succ_self dst, hplaced⟩
      · obtain ⟨hylt, hyne, c, hc, hyc⟩ := hdone y hy
        rw [hkept y hy]
        exact ⟨hylt, fun hmem => hyne (List.mem_cons_of_mem _ hmem), c, by omega, hyc⟩
    obtain ⟨hp, hsize, haligned, hsame, hnone⟩ := Placing.gather sets (dst + 1) m1 _ hp1
      (fun u hu => hres u (List.mem_cons_of_mem _ hu)) hnodup.2 (by omega) hdone' hrun
    refine ⟨hp, hsize.trans hsize1, ⟨?_, haligned⟩, fun y hy => ?_, fun y hy hyn => ?_⟩
    · rw [hsame _ List.mem_cons_self, hplaced]
    · rw [hsame y (List.mem_cons_of_mem _ hy), hkept y hy]
    · refine hnone y (by rw [hsize1]; exact hy) ?_
      rw [htail1 y hy, hyn]
      rfl

end Gather

/-! ## The fourth loop -/

section Emplace
variable {m : Memory} {reserved : List Nat}

theorem Memory.setTails_spec (cell : Nat) : ∀ (ids : List Nat) (m : Memory),
    (ids.foldl (fun m x => m.setTail x (some cell)) m).size = m.size ∧
      (ids.foldl (fun m x => m.setTail x (some cell)) m).head = m.head ∧
      ∀ y, (ids.foldl (fun m x => m.setTail x (some cell)) m).tail y = (if y ∈ ids then some cell else m.tail y) ∧
        (ids.foldl (fun m x => m.setTail x (some cell)) m).seqs y = m.seqs y ∧
        ((ids.foldl (fun m x => m.setTail x (some cell)) m).cells y).pos = (m.cells y).pos
  | [], m => ⟨rfl, rfl, fun y => ⟨by simp, rfl, rfl⟩⟩
  | x :: ids, m => by
    obtain ⟨hsize, hhead, hrest⟩ := Memory.setTails_spec cell ids (m.setTail x (some cell))
    refine ⟨hsize, hhead, fun y => ?_⟩
    obtain ⟨htail, hseqs, hpos⟩ := hrest y
    rw [List.foldl_cons]
    refine ⟨?_, hseqs.trans (Memory.seqs_setTail m x _ y), hpos.trans (Memory.pos_setTail m x _ y)⟩
    rw [htail, Memory.tail_setTail]
    by_cases hy : y ∈ ids
    · rw [if_pos hy, if_pos (List.mem_cons_of_mem _ hy)]
    · rw [if_neg hy]
      by_cases hyx : y = x
      · rw [if_pos hyx, if_pos (List.mem_cons.mpr (.inl hyx))]
      · rw [if_neg hyx, if_neg]
        rw [List.mem_cons, not_or]
        exact ⟨hyx, hy⟩

/-- One pass of the fourth loop. -/
def Memory.emplaceOne (m : Memory) (s : SeqSet) (cell : Nat) : Memory :=
  s.ids.foldl (fun m x => m.setTail x (some cell))
    (m.modify cell fun c => { c with pos := s.lastPos, seqId := s.ids.toFinset })

section One
variable (m) (s : SeqSet) (cell : Nat)

theorem Memory.size_emplaceOne : (m.emplaceOne s cell).size = m.size := (Memory.setTails_spec cell s.ids _).1

theorem Memory.tail_emplaceOne (y : Nat) :
    (m.emplaceOne s cell).tail y = if y ∈ s.ids then some cell else m.tail y := by
  unfold Memory.emplaceOne
  rw [((Memory.setTails_spec cell s.ids _).2.2 y).1, Memory.tail_modify]
  exact fun _ => rfl

theorem Memory.seqs_emplaceOne (i : Nat) :
    (m.emplaceOne s cell).seqs i = if i = cell then s.ids.toFinset else m.seqs i := by
  unfold Memory.emplaceOne
  rw [((Memory.setTails_spec cell s.ids _).2.2 i).2.1]
  unfold Memory.seqs Memory.modify
  dsimp only
  by_cases hi : i = cell
  · rw [if_pos hi, hi, Function.update_self]
  · rw [if_neg hi, Function.update_of_ne hi]

theorem Memory.pos_emplaceOne {i : Nat} (hi : i ≠ cell) : ((m.emplaceOne s cell).cells i).pos = (m.cells i).pos := by
  unfold Memory.emplaceOne
  rw [((Memory.setTails_spec cell s.ids _).2.2 i).2.2]
  unfold Memory.modify
  dsimp only
  rw [Function.update_of_ne hi]

end One

/-- A sequence set moves into the cell its first sequence owns; the others had none. -/
theorem Placing.emplaceOne {s : SeqSet} {cell : Nat} (h : Placing m (s.primary.toNat :: reserved))
    (hcell : m.tail s.primary.toNat = some cell) (hids : ∀ y ∈ s.ids, y < m.size)
    (hfree : ∀ y ∈ s.ids, y = s.primary.toNat ∨ m.tail y = none) (hdisj : ∀ y ∈ s.ids, y ∉ reserved) :
    Placing (m.emplaceOne s cell) reserved := by
  have hprim : s.primary.toNat ∈ s.ids := List.mem_cons_self
  have hclt := h.tail_lt _ (hids _ hprim) cell hcell
  have hsole : ∀ y < m.size, m.tail y = some cell → y = s.primary.toNat := by
    obtain ⟨i, hi, hsole⟩ := h.own _ List.mem_cons_self
    rw [hcell] at hi
    cases hi
    exact hsole
  -- a sequence of the set has no tail to another cell
  have hother : ∀ y ∈ s.ids, ∀ i, m.tail y = some i → i = cell := by
    intro y hy i hyi
    obtain rfl | hnone := hfree y hy
    · rw [hcell] at hyi
      exact (Option.some.inj hyi).symm
    · rw [hnone] at hyi
      cases hyi
  refine ⟨fun i hi y hy => ?_, fun y hy i hi => ?_, fun i hi y hy => ?_, fun y hy i hi => ?_, fun a ha => ?_,
    fun a ha => ?_, fun i hi he => ?_⟩
  · rw [Memory.size_emplaceOne] at hi ⊢
    rw [Memory.seqs_emplaceOne] at hy
    split at hy
    · exact hids y (List.mem_toFinset.mp hy)
    · exact h.seq_lt i hi y hy
  · rw [Memory.size_emplaceOne] at hy ⊢
    rw [Memory.tail_emplaceOne] at hi
    split at hi
    · cases hi
      exact hclt
    · exact h.tail_lt y hy i hi
  · rw [Memory.size_emplaceOne] at hi
    rw [Memory.seqs_emplaceOne] at hy
    rw [Memory.tail_emplaceOne]
    split at hy
    · rename_i hic
      rw [if_pos (List.mem_toFinset.mp hy), hic]
    · rename_i hic
      have hyi := h.mem_tail i hi y hy
      rw [if_neg]
      · exact hyi
      · exact fun hmem => hic (hother y hmem i hyi)
  · rw [Memory.size_emplaceOne] at hy
    rw [Memory.tail_emplaceOne] at hi
    rw [Memory.seqs_emplaceOne]
    split at hi
    · rename_i hmem
      cases hi
      rw [if_pos rfl]
      exact .inl (List.mem_toFinset.mpr hmem)
    · rename_i hmem
      have hic : i ≠ cell := by
        rintro rfl
        exact hmem (hsole y hy hi ▸ hprim)
      rw [if_neg hic]
      obtain hin | ⟨hres, he⟩ := h.tail_mem y hy i hi
      · exact .inl hin
      · obtain rfl | hres := List.mem_cons.mp hres
        · exact absurd hprim hmem
        · exact .inr ⟨hres, he⟩
  · have hna : a ∉ s.ids := fun hmem => hdisj a hmem ha
    obtain ⟨i, hi, hsole'⟩ := h.own a (List.mem_cons_of_mem _ ha)
    refine ⟨i, by rw [Memory.tail_emplaceOne, if_neg hna]; exact hi, fun y hy hyi => ?_⟩
    rw [Memory.size_emplaceOne] at hy
    rw [Memory.tail_emplaceOne] at hyi
    split at hyi
    · cases hyi
      have halt := h.reserved_lt a (List.mem_cons_of_mem _ ha)
      exact absurd (hsole a halt hi ▸ hprim) hna
    · exact hsole' y hy hyi
  · rw [Memory.size_emplaceOne]
    exact h.reserved_lt a (List.mem_cons_of_mem _ ha)
  · rw [Memory.size_emplaceOne] at hi
    rw [Memory.seqs_emplaceOne] at he
    split at he
    · have := List.mem_toFinset.mpr hprim
      rw [he] at this
      cases this
    · rename_i hic
      rw [Memory.pos_emplaceOne m s cell hic]
      exact h.empty_pos i hi he

theorem Aligned.congr {m m' : Memory} : ∀ (sets : List SeqSet) (dst : Nat),
    (∀ s ∈ sets, m'.tail s.primary.toNat = m.tail s.primary.toNat) → Aligned sets dst m → Aligned sets dst m'
  | [], _, _, _ => trivial
  | s :: sets, dst, hsame, h => by
    refine ⟨?_, Aligned.congr sets (dst + 1) (fun u hu => hsame u (List.mem_cons_of_mem _ hu)) h.2⟩
    rw [hsame s List.mem_cons_self]
    exact h.1

/-- The whole loop: in the end nothing is reserved. -/
theorem Placing.emplace : ∀ (sets : List SeqSet) (dst : Nat) (m : Memory),
    Placing m (sets.map (·.primary.toNat)) → Aligned sets dst m → sets.Pairwise (fun s u => s.ids.Disjoint u.ids) →
    (∀ s ∈ sets, ∀ y ∈ s.ids, y < m.size ∧ (y = s.primary.toNat ∨ m.tail y = none)) →
    Placing (Memory.emplace sets dst m) [] ∧ (Memory.emplace sets dst m).size = m.size
  | [], _, m, h, _, _, _ => ⟨h, rfl⟩
  | s :: sets, dst, m, h, ha, hdisj, hids => by
    rw [List.pairwise_cons] at hdisj
    have hs := hids s List.mem_cons_self
    have hout : ∀ u ∈ sets, ∀ y ∈ u.ids, (m.emplaceOne s dst).tail y = m.tail y := by
      intro u hu y hy
      rw [Memory.tail_emplaceOne, if_neg]
      exact fun hc => hdisj.1 u hu hc hy
    have hone : Placing (m.emplaceOne s dst) (sets.map (·.primary.toNat)) := by
      refine Placing.emplaceOne h ha.1 (fun y hy => (hs y hy).1) (fun y hy => (hs y hy).2) fun y hy hc => ?_
      obtain ⟨u, hu, rfl⟩ := List.mem_map.mp hc
      exact hdisj.1 u hu hy List.mem_cons_self
    have haligned : Aligned sets (dst + 1) (m.emplaceOne s dst) :=
      Aligned.congr sets (dst + 1) (fun u hu => hout u hu _ List.mem_cons_self) ha.2
    obtain ⟨hp, hsize⟩ := Placing.emplace sets (dst + 1) (m.emplaceOne s dst) hone haligned hdisj.2 fun u hu y hy => by
      rw [Memory.size_emplaceOne, hout u hu y hy]
      exact hids u (List.mem_cons_of_mem _ hu) y hy
    exact ⟨hp, hsize.trans (Memory.size_emplaceOne m s dst)⟩

end Emplace

/-! ## The first loop, and all of them -/

section Whole
variable {m m' : Memory}

theorem Consistent.unshareIds : ∀ (ids : List Int) (m : Memory), Consistent m →
    Consistent (Memory.unshareIds ids m).2 ∧ (Memory.unshareIds ids m).2.size = m.size ∧
      (∀ y, m.tail y = none → (Memory.unshareIds ids m).2.tail y = none) ∧
      ((Memory.unshareIds ids m).1 = true → ∀ x ∈ ids, m.inRange x ∧ (Memory.unshareIds ids m).2.tail x.toNat = none)
  | [], m, h => ⟨h, rfl, fun _ hy => hy, fun _ x hx => absurd hx List.not_mem_nil⟩
  | x :: ids, m, h => by
    rw [Memory.unshareIds]
    split
    · rename_i hx
      have hx' : x.toNat < m.size := by
        have := hx.1
        have := hx.2
        omega
      obtain ⟨hc, hsize, hnone, hall⟩ := Consistent.unshareIds ids (m.detach x.toNat) (h.detach hx')
      refine ⟨hc, hsize.trans (Memory.size_detach m _), fun y hy => hnone y ?_, fun hb z hz => ?_⟩
      · rw [Memory.tail_detach, hy]
        exact ite_self none
      · obtain rfl | hz := List.mem_cons.mp hz
        · refine ⟨hx, hnone _ ?_⟩
          rw [Memory.tail_detach, if_pos rfl]
        · obtain ⟨h1, h2⟩ := hall hb z hz
          refine ⟨?_, h2⟩
          unfold Memory.inRange at h1 ⊢
          rwa [Memory.size_detach] at h1
    · exact ⟨h, rfl, fun _ hy => hy, fun hc => absurd hc Bool.false_ne_true⟩

theorem Consistent.unshare : ∀ (sets : List SeqSet) (m : Memory), Consistent m →
    Consistent (Memory.unshare sets m).2 ∧ (Memory.unshare sets m).2.size = m.size ∧
      (∀ y, m.tail y = none → (Memory.unshare sets m).2.tail y = none) ∧
      ((Memory.unshare sets m).1 = true → ∀ s ∈ sets, m.inRange s.primary ∧
        ∀ x ∈ s.secondary, m.inRange x ∧ (Memory.unshare sets m).2.tail x.toNat = none)
  | [], m, h => ⟨h, rfl, fun _ hy => hy, fun _ s hs => absurd hs List.not_mem_nil⟩
  | s :: sets, m, h => by
    rw [Memory.unshare]
    split
    · rename_i hs
      obtain ⟨hc, hsize, hnone, hall⟩ := Consistent.unshareIds s.secondary m h
      cases hu : Memory.unshareIds s.secondary m with
      | mk b m1 =>
          rw [hu] at hc hsize hnone hall
          cases b with
          | false => exact ⟨hc, hsize, hnone, fun hb => absurd hb Bool.false_ne_true⟩
          | true =>
              obtain ⟨hc', hsize', hnone', hall'⟩ := Consistent.unshare sets m1 hc
              refine ⟨hc', hsize'.trans hsize, fun y hy => hnone' y (hnone y hy), fun hb u hmem => ?_⟩
              obtain rfl | hmem := List.mem_cons.mp hmem
              · refine ⟨hs, fun x hx => ?_⟩
                obtain ⟨h1, h2⟩ := hall rfl x hx
                exact ⟨h1, hnone' _ h2⟩
              · have := hall' hb u hmem
                unfold Memory.inRange at this ⊢
                rwa [hsize] at this
    · exact ⟨h, rfl, fun _ hy => hy, fun hc => absurd hc Bool.false_ne_true⟩

/-- The sequence sets have no sequence in common. -/
def UBatch.disjoint (ubatch : UBatch) : Prop := ubatch.sets.Pairwise fun s u => s.ids.Disjoint u.ids

instance (ubatch : UBatch) : Decidable ubatch.disjoint :=
  inferInstanceAs (Decidable (ubatch.sets.Pairwise fun s u => ∀ a ∈ s.ids, a ∈ u.ids → False))

theorem UBatch.disjoint.nodup {sets : List SeqSet} (h : sets.Pairwise fun s u => s.ids.Disjoint u.ids) :
    (sets.map (·.primary.toNat)).Nodup := by
  apply List.Pairwise.map _ _ h
  intro s u hsu heq
  exact hsu (List.mem_cons_self (a := s.primary.toNat)) (heq ▸ List.mem_cons_self)

theorem UBatch.disjoint.eq_of_mem {sets : List SeqSet} (h : sets.Pairwise fun s u => s.ids.Disjoint u.ids)
    {s u : SeqSet} (hs : s ∈ sets) (hu : u ∈ sets) {y : Nat} (hys : y ∈ s.ids) (hyu : y ∈ u.ids) : s = u := by
  have : Std.Symm (fun s u : SeqSet => s.ids.Disjoint u.ids) := ⟨fun _ _ h => h.symm⟩
  by_contra hne
  exact h.forall hs hu hne hys hyu

/-- The last block changes no link. -/
theorem Memory.stage_eq_some {min max : Nat} (hstage : m.stage min max = some m') :
    m'.size = m.size ∧ ∀ i, m'.tail i = m.tail i ∧ m'.seqs i = m.seqs i ∧ (m'.cells i).pos = (m.cells i).pos := by
  unfold Memory.stage at hstage
  dsimp only at hstage
  split at hstage
  · cases hstage
  · cases hstage
    refine ⟨rfl, fun i => ?_⟩
    unfold Memory.tail Memory.seqs
    dsimp only
    split
    · exact ⟨rfl, rfl, rfl⟩
    · exact ⟨rfl, rfl, rfl⟩

/-- **A ubatch is placed without breaking a link.** -/
theorem Consistent.findSlot (h : Consistent m) {ubatch : UBatch} (hdisj : ubatch.disjoint) {ok : Bool}
    (hfind : m.findSlot ubatch = some (ok, m')) : Consistent m' := by
  obtain ⟨m0, hm0, h0⟩ : ∃ m0, (if m.used + 2 * ubatch.sets.length < m.head then { m with head := 0 } else m) = m0 ∧
      Consistent m0 := by
    refine ⟨_, rfl, ?_⟩
    split
    · exact h.withHead m.size_pos
    · exact h
  unfold Memory.findSlot at hfind
  rw [hm0] at hfind
  dsimp only at hfind
  obtain ⟨hun, hsize, -, hall⟩ := Consistent.unshare ubatch.sets m0 h0
  cases hu : Memory.unshare ubatch.sets m0 with
  | mk b m1 =>
      rw [hu] at hfind hun hsize hall
      cases b with
      | false =>
          cases hfind
          exact hun
      | true =>
          simp only [Option.bind_eq_bind, Option.bind_eq_some_iff, Option.some.injEq, Prod.mk.injEq] at hfind
          obtain ⟨a, hrun, m2, hgather, m3, hstage, -, rfl⟩ := hfind
          dsimp only at hall
          have hprim : ∀ s ∈ ubatch.sets, s.primary.toNat < m1.size := by
            intro s hs
            have := (hall rfl s hs).1
            unfold Memory.inRange at this
            rw [hsize]
            omega
          have hnodup := UBatch.disjoint.nodup hdisj
          have hp1 : Placing m1 [] := hun.toLinked.placing
          have hassigned : Assigned ⟨m1, seek m1.isEmpty m1.size m1.size m1.head, m1.size - 1, 0⟩ [] :=
            ⟨hp1, m1.size_pos, fun y hy => absurd hy List.not_mem_nil⟩
          obtain ⟨harun, hasize, hasame⟩ := Assigned.run ubatch.sets _ [] hassigned
            (fun _ => hp1.nextOk_seek hun.head_lt) hnodup (fun s hs => ⟨hprim s hs, List.not_mem_nil⟩) hrun
          rw [List.append_nil] at harun
          have hne : (ubatch.sets.map (·.primary.toNat)).reverse ≠ [] := by
            intro hc
            exact ubatch.ne (List.map_eq_nil_iff.mp (List.reverse_eq_nil_iff.mp hc))
          have hlen := harun.length_le (List.nodup_reverse.mpr hnodup) hne
          have hmax := harun.max_lt
          rw [List.length_reverse, List.length_map] at hlen
          have hlen1 : 0 < ubatch.sets.length := List.length_pos_iff.mpr ubatch.ne
          have hp2 : Placing a.mem (ubatch.sets.map (·.primary.toNat)) :=
            harun.placing.congr_reserved fun y => List.mem_reverse.symm
          obtain ⟨hp3, hgsize, haligned, -, hgnone⟩ := Placing.gather ubatch.sets a.min a.mem [] hp2
            (fun s hs => List.mem_map_of_mem hs) hnodup (by omega) (fun y hy => absurd hy List.not_mem_nil) hgather
          -- the other sequences of a set have had no tail since the first loop
          have hids : ∀ s ∈ ubatch.sets, ∀ y ∈ s.ids,
              y < m2.size ∧ (y = s.primary.toNat ∨ m2.tail y = none) := by
            intro s hs y hy
            have hsz : m2.size = m1.size := hgsize.trans hasize
            unfold SeqSet.ids at hy
            rw [List.map_cons, List.mem_cons] at hy
            obtain rfl | hy := hy
            · exact ⟨hsz ▸ hprim s hs, .inl rfl⟩
            · obtain ⟨x, hx, rfl⟩ := List.mem_map.mp hy
              obtain ⟨hin, hnone⟩ := (hall rfl s hs).2 x hx
              have hxlt : x.toNat < m1.size := by
                unfold Memory.inRange at hin
                rw [hsize]
                omega
              refine ⟨hsz ▸ hxlt, ?_⟩
              by_cases hxs : x.toNat = s.primary.toNat
              · exact .inl hxs
              · right
                refine hgnone _ (by rw [hasize]; exact hxlt) ?_
                rw [hasame]
                · exact hnone
                · intro hc
                  obtain ⟨u, hu', heq⟩ := List.mem_map.mp hc
                  have hmem : x.toNat ∈ u.ids := heq ▸ List.mem_cons_self
                  have hmem' : x.toNat ∈ s.ids := List.mem_cons_of_mem _ (List.mem_map_of_mem hx)
                  rw [UBatch.disjoint.eq_of_mem hdisj hu' hs hmem hmem'] at heq
                  exact hxs heq.symm
          obtain ⟨hp4, hesize⟩ := Placing.emplace ubatch.sets a.min m2 hp3 haligned hdisj hids
          obtain ⟨hssize, hsame⟩ := Memory.stage_eq_some hstage
          have hmin : a.min < m3.size := by omega
          refine ⟨Placing.linked (Placing.congr hp4 ?_ ?_) ?_, rfl⟩
          · exact hssize
          · exact hsame
          · exact hmin

end Whole

end S2Moe.Recurrent
