import Mathlib.Data.List.Count
import Mathlib.Tactic

/-!
# Spans of bytes

* `Span.Has` : the bytes of a span;
* `hits bs x` : how many of the spans `bs` have the byte `x`;
* `hits_eraseIdx` : the same for a list with one span less;
* `Apart` : every span ends before the next one begins; spans that are `Clear` of another one can be joined to it or put
beside it.
-/

namespace S2Moe.Lib

structure Span where
  offset : Nat
  size : Nat
deriving DecidableEq

def Span.Has (b : Span) (x : Nat) : Prop := b.offset ≤ x ∧ x < b.offset + b.size

instance (b : Span) (x : Nat) : Decidable (b.Has x) := inferInstanceAs (Decidable (_ ∧ _))

def Span.stop (b : Span) : Nat := b.offset + b.size

/-- One for a byte of the span. -/
def Span.one (b : Span) (x : Nat) : Nat := if b.Has x then 1 else 0

def hits (bs : List Span) (x : Nat) : Nat := (bs.map fun b => b.one x).sum

section Hits
variable {b b' : Span} {bs cs : List Span} {x i : Nat}

@[simp] theorem Span.one_of_has (h : b.Has x) : b.one x = 1 := if_pos h

@[simp] theorem Span.one_of_not_has (h : ¬ b.Has x) : b.one x = 0 := if_neg h

/-- A span and the one behind it. -/
theorem Span.one_add (o s t x : Nat) : (⟨o, s + t⟩ : Span).one x = (⟨o, s⟩ : Span).one x + (⟨o + s, t⟩ : Span).one x := by
  have hiff : (⟨o, s + t⟩ : Span).Has x ↔ (⟨o, s⟩ : Span).Has x ∨ (⟨o + s, t⟩ : Span).Has x := by
    unfold Span.Has
    dsimp only
    omega
  have hnot : ¬ ((⟨o, s⟩ : Span).Has x ∧ (⟨o + s, t⟩ : Span).Has x) := by
    unfold Span.Has
    dsimp only
    omega
  by_cases h1 : (⟨o, s⟩ : Span).Has x
  · rw [Span.one_of_has h1, Span.one_of_has (hiff.mpr (.inl h1)), Span.one_of_not_has fun h2 => hnot ⟨h1, h2⟩]
  · by_cases h2 : (⟨o + s, t⟩ : Span).Has x
    · rw [Span.one_of_not_has h1, Span.one_of_has h2, Span.one_of_has (hiff.mpr (.inr h2))]
    · rw [Span.one_of_not_has h1, Span.one_of_not_has h2, Span.one_of_not_has fun h => (hiff.mp h).elim h1 h2]

@[simp] theorem hits_nil : hits [] x = 0 := rfl

@[simp] theorem hits_cons : hits (b :: bs) x = b.one x + hits bs x := by
  unfold hits
  rw [List.map_cons, List.sum_cons]

@[simp] theorem hits_append : hits (bs ++ cs) x = hits bs x + hits cs x := by
  unfold hits
  rw [List.map_append, List.sum_append]

/-- One span is taken out. -/
theorem hits_eraseIdx : ∀ {bs : List Span} {i : Nat}, bs[i]? = some b → hits bs x = b.one x + hits (bs.eraseIdx i) x
  | [], _, h => by simp at h
  | c :: bs, 0, h => by
    obtain rfl : c = b := by simpa using h
    rw [hits_cons, List.eraseIdx_cons_zero]
  | c :: bs, i + 1, h => by
    have ih := hits_eraseIdx (i := i) (show bs[i]? = some b by simpa using h)
    rw [hits_cons, ih, List.eraseIdx_cons_succ, hits_cons]
    omega

/-- Spans without a common byte. -/
theorem pairwise_of_hits (h : ∀ x, hits bs x ≤ 1) : bs.Pairwise fun b c => ∀ x, ¬ (b.Has x ∧ c.Has x) := by
  induction bs with
  | nil => exact List.Pairwise.nil
  | cons b bs ih =>
      have hle : ∀ {c}, c ∈ bs → ∀ x, c.one x ≤ hits bs x := by
        intro c hc x
        obtain ⟨i, hi⟩ := List.mem_iff_getElem?.mp hc
        rw [hits_eraseIdx hi]
        exact Nat.le_add_right _ _
      refine List.pairwise_cons.mpr ⟨fun c hc x hx => ?_, ih fun x => ?_⟩
      · have h1 := h x
        have h2 := hle hc x
        rw [hits_cons, Span.one_of_has hx.1] at h1
        rw [Span.one_of_has hx.2] at h2
        omega
      · have h1 := h x
        rw [hits_cons] at h1
        omega

theorem hits_pos_iff : 0 < hits bs x ↔ ∃ b ∈ bs, b.Has x := by
  induction bs with
  | nil => simp
  | cons b bs ih =>
      rw [hits_cons]
      by_cases hb : b.Has x
      · rw [Span.one_of_has hb]
        exact iff_of_true (by omega) ⟨b, List.mem_cons_self, hb⟩
      · rw [Span.one_of_not_has hb, Nat.zero_add, ih]
        constructor
        · rintro ⟨c, hc, hx⟩
          exact ⟨c, List.mem_cons_of_mem b hc, hx⟩
        · rintro ⟨c, hc, hx⟩
          rcases List.mem_cons.mp hc with rfl | hc
          · exact absurd hx hb
          · exact ⟨c, hc, hx⟩

/-- Two spans of some bytes that have none in common. -/
theorem stop_le_or {a b : Span} (h : ∀ x, ¬ (a.Has x ∧ b.Has x)) (ha : 0 < a.size) (hb : 0 < b.size) :
    a.stop ≤ b.offset ∨ b.stop ≤ a.offset := by
  unfold Span.stop Span.Has at *
  by_contra hc
  exact h (max a.offset b.offset) (by omega)

end Hits

/-! ## Spans with room between them -/

def Apart (bs : List Span) : Prop := bs.Pairwise fun b c => b.stop < c.offset

/-- The span lies before or behind the other one. -/
def Clear (b c : Span) : Prop := b.stop ≤ c.offset ∨ c.stop ≤ b.offset

section Apart
variable {b c : Span} {pre post : List Span}

theorem Apart.between (h : Apart (pre ++ post)) (hpre : ∀ a ∈ pre, a.stop < b.offset)
    (hpost : ∀ c ∈ post, b.stop < c.offset) :
    Apart (pre ++ b :: post) := by
  obtain ⟨h1, h2, h12⟩ := List.pairwise_append.mp h
  refine List.pairwise_append.mpr ⟨h1, List.pairwise_cons.mpr ⟨hpost, h2⟩, fun a ha d hd => ?_⟩
  rcases List.mem_cons.mp hd with rfl | hd
  · exact hpre a ha
  · exact h12 a ha d hd

theorem Apart.without (h : Apart (pre ++ b :: post)) : Apart (pre ++ post) :=
  h.sublist ((List.sublist_cons_self b post).append_left pre)

theorem Apart.before (h : Apart (pre ++ b :: post)) : ∀ a ∈ pre, a.stop < b.offset := fun a ha =>
  (List.pairwise_append.mp h).2.2 a ha b List.mem_cons_self

theorem Apart.behind (h : Apart (pre ++ b :: post)) : ∀ c ∈ post, b.stop < c.offset :=
  (List.pairwise_cons.mp (List.pairwise_append.mp h).2.1).1

/-- A span is replaced by a part of it. -/
theorem Apart.shrink (h : Apart (pre ++ b :: post)) (hlow : b.offset ≤ c.offset) (hhigh : c.stop ≤ b.stop) :
    Apart (pre ++ c :: post) := by
  refine h.without.between (fun a ha => ?_) fun d hd => ?_
  · exact lt_of_lt_of_le (h.before a ha) hlow
  · exact lt_of_le_of_lt hhigh (h.behind d hd)

end Apart

end S2Moe.Lib
