import S2Moe.Grammar.Accept

/-!
# The stacks one by one

What becomes of a set of stacks is the union of what becomes of each of them, so that a stack of the set can be followed on
its own.

* `Advances` : the stacks that advancing one adds; `advanceStack_mem` : these and no others;
* `Reads` : what a code point makes of a stack; `accept_mem`;
* `Survives` : some stack is left behind the code points; `acceptAll_ne_nil`.
-/

namespace S2Moe.Grammar
open S2Moe.Lib

section Matching

/-- How far a class reaches does not depend on the code point. -/
theorem matchLoop_snd (c d : UInt32) : ∀ (es : List Element) (found found' : Bool) (n : Nat),
    (matchLoop c es found n).2 = (matchLoop d es found' n).2 := by
  intro es found found' n
  induction es, found, n using matchLoop.induct c generalizing found' with
  | case1 e u found n hu => simp [matchLoop, hu]
  | case2 e u found n hu _ a rest ha ih =>
      rw [matchLoop, matchLoop, if_pos hu, if_pos hu]
      simp only [ha, if_true]
      exact ih _
  | case3 e u found n hu a rest ha => simp [matchLoop, hu, ha]
  | case4 e u rest found n hu _ ha ih =>
      rw [matchLoop, matchLoop, if_neg hu, if_neg hu]
      simp only [ha, if_true]
      exact ih _
  | case5 e u rest found n hu ha => simp [matchLoop, hu, ha]
  | case6 es found n hes =>
      cases es with
      | nil => rfl
      | cons e es =>
          cases es with
          | nil => rfl
          | cons u rest => exact absurd rfl (hes e u rest)

theorem matchChar_snd {pos : List Element} {c d : UInt32} {b b' : Bool} {n n' : Nat} (h : matchChar pos c = .ok (b, n))
    (h' : matchChar pos d = .ok (b', n')) : n = n' := by
  cases pos with
  | nil => cases h
  | cons e es =>
      unfold matchChar at h h'
      dsimp only at h h'
      split at h
      · rename_i hclass
        rw [if_pos hclass] at h'
        cases h
        cases h'
        exact matchLoop_snd c d _ _ _ _
      · cases h

end Matching

section Stacks
variable {rules : Rules}

/-- `s` is one of the stacks that advancing a stack adds. -/
inductive Advances (rules : Rules) : Stack → Stack → Prop
  | empty : Advances rules [] []
  | top {pos : Pos} {rest : Stack} (h : ClassOnTop rules pos) : Advances rules (pos :: rest) (pos :: rest)
  | ref {pos : Pos} {rest s : Stack} {e : Element} {es : List Element} {i : Nat} (at_ : rules.suffixAt pos = e :: es)
      (type : e.type = .ruleRef) (start : i ∈ alternateStarts (rules.getD e.value.toNat []))
      (sub : Advances rules (pushUnlessEnd rules ⟨e.value.toNat, i⟩ (pushUnlessEnd rules (pos.next 1) rest)) s) :
      Advances rules (pos :: rest) s

theorem addStack_mem {stack : Stack} {stackSet : Stacks} {s : Stack} :
    s ∈ addStack stack stackSet ↔ s ∈ stackSet ∨ s = stack := by
  unfold addStack
  split
  · rename_i hmem
    constructor
    · exact .inl
    · rintro (h | rfl)
      · exact h
      · exact hmem
  · simp

theorem advances_nil {s : Stack} : Advances rules [] s ↔ s = [] := by
  constructor
  · rintro ⟨⟩
    rfl
  · rintro rfl
    exact .empty

theorem ClassOnTop.advances {pos : Pos} (h : ClassOnTop rules pos) {rest s : Stack} :
    Advances rules (pos :: rest) s ↔ s = pos :: rest := by
  constructor
  · rintro (_ | _ | ⟨hat, htype, _, _⟩)
    · rfl
    · obtain ⟨e, es, hsuf, he⟩ := h
      rw [hsuf] at hat
      cases hat
      rcases he with he | he | he <;> rw [he] at htype <;> cases htype
  · rintro rfl
    exact .top h

theorem advances_ref {pos : Pos} {rest s : Stack} {e : Element} {es : List Element} (hsuf : rules.suffixAt pos = e :: es)
    (he : e.type = .ruleRef) : Advances rules (pos :: rest) s ↔
      ∃ t ∈ (alternateStarts (rules.getD e.value.toNat [])).map fun i =>
        pushUnlessEnd rules ⟨e.value.toNat, i⟩ (pushUnlessEnd rules (pos.next 1) rest), Advances rules t s := by
  constructor
  · rintro (_ | ⟨e', es', hsuf', he'⟩ | ⟨hat, _, hi, hsub⟩)
    · rw [hsuf] at hsuf'
      cases hsuf'
      rcases he' with he' | he' | he' <;> rw [he'] at he <;> cases he
    · rw [hsuf] at hat
      cases hat
      exact ⟨_, List.mem_map.mpr ⟨_, hi, rfl⟩, hsub⟩
  · rintro ⟨t, ht, hsub⟩
    obtain ⟨i, hi, rfl⟩ := List.mem_map.mp ht
    exact .ref hsuf he hi hsub

/-- A loop over calls that each add their stacks. -/
theorem foldlM_mem {ι : Type*} {body : Stacks → ι → Except Fail Stacks} {added : ι → Stack → Prop} :
    ∀ (xs : List ι), (∀ x ∈ xs, ∀ stackSet stackSet', body stackSet x = .ok stackSet' →
        ∀ s, s ∈ stackSet' ↔ s ∈ stackSet ∨ added x s) →
      ∀ {stackSet last : Stacks}, xs.foldlM body stackSet = .ok last → ∀ s, s ∈ last ↔ s ∈ stackSet ∨ ∃ x ∈ xs, added x s
  | [], _, stackSet, last, h, s => by
    cases h
    simp
  | x :: xs, hbody, stackSet, last, h, s => by
    rw [List.foldlM_cons] at h
    obtain ⟨mid, hmid, hrest⟩ := bind_eq_ok h
    rw [foldlM_mem xs (fun y hy => hbody y (List.mem_cons_of_mem _ hy)) hrest,
      hbody x List.mem_cons_self stackSet mid hmid, or_assoc]
    simp

/-- **Advancing a stack adds the stacks that it becomes.** -/
theorem advanceStack_mem : ∀ (fuel : Nat) {stack : Stack} {stackSet last : Stacks},
    advanceStack rules fuel stack stackSet = .ok last → ∀ s, s ∈ last ↔ s ∈ stackSet ∨ Advances rules stack s := by
  intro fuel
  induction fuel with
  | zero =>
      intro stack stackSet last h s
      cases stack with
      | nil =>
          cases h
          rw [addStack_mem, advances_nil]
      | cons pos rest => cases h
  | succ fuel ih =>
      intro stack stackSet last h s
      cases stack with
      | nil =>
          cases h
          rw [addStack_mem, advances_nil]
      | cons pos rest =>
          rw [advanceStack] at h
          cases hsuf : rules.suffixAt pos with
          | nil =>
              rw [hsuf] at h
              cases h
          | cons e es =>
              rw [hsuf] at h
              have hclass : (e.type = .char ∨ e.type = .charNot ∨ e.type = .charAny) →
                  .ok (addStack (pos :: rest) stackSet) = (.ok last : Except Fail Stacks) →
                  (s ∈ last ↔ s ∈ stackSet ∨ Advances rules (pos :: rest) s) := by
                intro he h
                cases h
                rw [addStack_mem, ClassOnTop.advances ⟨e, es, hsuf, he⟩]
              cases ht : e.type with
              | char => exact hclass (.inl ht) (by simpa [ht] using h)
              | charNot => exact hclass (.inr (.inl ht)) (by simpa [ht] using h)
              | charAny => exact hclass (.inr (.inr ht)) (by simpa [ht] using h)
              | ruleRef =>
                  simp only [ht] at h
                  rw [advances_ref hsuf ht]
                  exact foldlM_mem _ (fun t _ before after hcall => ih hcall) h s
              | _ => simp [ht] at h

/-- A call that returns has added some stack. -/
theorem exists_advances : ∀ (fuel : Nat) {stack : Stack} {stackSet last : Stacks},
    advanceStack rules fuel stack stackSet = .ok last → ∃ s, Advances rules stack s := by
  intro fuel
  induction fuel with
  | zero =>
      intro stack stackSet last h
      cases stack with
      | nil => exact ⟨[], .empty⟩
      | cons pos rest => cases h
  | succ fuel ih =>
      intro stack stackSet last h
      cases stack with
      | nil => exact ⟨[], .empty⟩
      | cons pos rest =>
          rw [advanceStack] at h
          cases hsuf : rules.suffixAt pos with
          | nil =>
              rw [hsuf] at h
              cases h
          | cons e es =>
              rw [hsuf] at h
              cases ht : e.type with
              | char => exact ⟨_, .top ⟨e, es, hsuf, .inl ht⟩⟩
              | charNot => exact ⟨_, .top ⟨e, es, hsuf, .inr (.inl ht)⟩⟩
              | charAny => exact ⟨_, .top ⟨e, es, hsuf, .inr (.inr ht)⟩⟩
              | ruleRef =>
                  simp only [ht, alternateStarts, List.map_cons, List.foldlM_cons] at h
                  obtain ⟨mid, hmid, _⟩ := bind_eq_ok h
                  obtain ⟨s, hs⟩ := ih hmid
                  exact ⟨s, .ref hsuf ht List.mem_cons_self hs⟩
              | _ => simp [ht] at h

end Stacks

section Reading
variable {rules : Rules}

/-- What a code point makes of a stack: the class on top is passed, and what is left is advanced. -/
def Reads (rules : Rules) (c : UInt32) : Stack → Stack → Prop
  | [], _ => False
  | pos :: rest, s =>
    ∃ n, matchChar (rules.suffixAt pos) c = .ok (true, n) ∧ Advances rules (pushUnlessEnd rules (pos.next n) rest) s

/-- Some stack is left behind the code points. -/
def Survives (rules : Rules) : List UInt32 → Stack → Prop
  | [], _ => True
  | c :: w, stack => ∃ s, Reads rules c stack s ∧ Survives rules w s

theorem acceptStack_mem {fuel : Nat} {c : UInt32} {stack : Stack} {stackSet last : Stacks}
    (h : acceptStack fuel rules c stackSet stack = .ok last) (s : Stack) :
    s ∈ last ↔ s ∈ stackSet ∨ Reads rules c stack s := by
  cases stack with
  | nil =>
      cases h
      simp [Reads]
  | cons pos rest =>
      rw [acceptStack] at h
      obtain ⟨⟨found, n⟩, hmatch, h⟩ := bind_eq_ok h
      cases found with
      | false =>
          cases h
          simp [Reads, hmatch]
      | true =>
          rw [advanceStack_mem fuel h, Reads, hmatch]
          simp

/-- **Reading a code point keeps what each stack becomes.** -/
theorem accept_mem {fuel : Nat} {g g' : LlamaGrammar} {c : UInt32} (h : accept fuel g c = .ok g') :
    g'.rules = g.rules ∧ ∀ s, s ∈ g'.stackSet ↔ ∃ t ∈ g.stackSet, Reads g.rules c t s := by
  obtain ⟨stacksNew, hfold, h⟩ := bind_eq_ok h
  cases h
  refine ⟨rfl, fun s => ?_⟩
  rw [foldlM_mem g.stackSet (fun t _ before after hcall => acceptStack_mem hcall) hfold]
  simp

/-- **Some stack is left just when one of the stacks survives.** -/
theorem acceptAll_ne_nil {fuel : Nat} : ∀ {w : List UInt32} {g g' : LlamaGrammar}, acceptAll fuel g w = .ok g' →
    (g'.stackSet ≠ [] ↔ ∃ t ∈ g.stackSet, Survives g.rules w t) := by
  intro w
  induction w with
  | nil =>
      intro g g' h
      cases h
      rw [List.ne_nil_iff_exists_cons]
      constructor
      · rintro ⟨t, ts, heq⟩
        exact ⟨t, by simp [heq], trivial⟩
      · rintro ⟨t, ht, _⟩
        exact List.exists_cons_of_ne_nil (List.ne_nil_of_mem ht)
  | cons c w ih =>
      intro g g' h
      rw [acceptAll, List.foldlM_cons] at h
      obtain ⟨mid, hmid, hrest⟩ := bind_eq_ok h
      obtain ⟨hrules, hmem⟩ := accept_mem hmid
      rw [ih hrest, hrules]
      constructor
      · rintro ⟨s, hs, hw⟩
        obtain ⟨t, ht, hread⟩ := (hmem s).mp hs
        exact ⟨t, ht, s, hread, hw⟩
      · rintro ⟨t, ht, s, hread, hw⟩
        exact ⟨s, (hmem s).mpr ⟨t, ht, hread⟩, hw⟩

/-- What survives survives up to any point. -/
theorem Survives.of_append : ∀ {u w : List UInt32} {t : Stack}, Survives rules (u ++ w) t → Survives rules u t
  | [], _, _, _ => trivial
  | _ :: _, _, _, ⟨s, hread, hw⟩ => ⟨s, hread, hw.of_append⟩

end Reading

end S2Moe.Grammar
