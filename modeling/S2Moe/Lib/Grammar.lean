import Mathlib.Computability.MyhillNerode
import Mathlib.Order.WellFoundedSet

/-!
# Context-free grammars read from the left

A terminal is a class of letters. A form is a list of symbols; a recogniser that reads from the left rewrites the first
symbol of a form until it is a class.

* `Cfg.Derives`, `Cfg.lang` : the words of a form;
* `Cfg.Step` : the first symbol is replaced by an alternate of its rule; `lang_ref` : what that does to the language;
* `Ready` : no step is possible; `leftQuotient_lang_cls` : reading a letter from a ready form;
* `LeftRef`, `NoLeftRecursion` : direct, indirect and hidden left recursion; `acc_step`, `not_acc_step` : without it every
form has finitely many steps before it, and with it some form has not;
* `Productive` : every alternate has a word, and so has every form of its symbols.
-/

namespace S2Moe.Lib

inductive Sym (ν κ : Type*) where
  | ref (n : ν)
  | cls (k : κ)
deriving DecidableEq

/-- The alternates of each rule, and the letters of each class. -/
structure Cfg (ν κ α : Type*) where
  alts : ν → List (List (Sym ν κ))
  hit : κ → α → Prop

namespace Cfg

variable {ν κ α : Type*} {G : Cfg ν κ α}

inductive Derives (G : Cfg ν κ α) : List (Sym ν κ) → List α → Prop
  | nil : Derives G [] []
  | cls {k : κ} {c : α} {f : List (Sym ν κ)} {w : List α} (hit : G.hit k c) (rest : Derives G f w) :
      Derives G (.cls k :: f) (c :: w)
  | ref {n : ν} {alt f : List (Sym ν κ)} {u v : List α} (mem : alt ∈ G.alts n) (sub : Derives G alt u)
      (rest : Derives G f v) : Derives G (.ref n :: f) (u ++ v)

/-- The words of a form. -/
def lang (G : Cfg ν κ α) (f : List (Sym ν κ)) : Language α := {w | G.Derives f w}

/-- The words of a rule. -/
def ruleLang (G : Cfg ν κ α) (n : ν) : Language α := {w | ∃ alt ∈ G.alts n, w ∈ G.lang alt}

section Words

theorem Derives.append {f g : List (Sym ν κ)} {u v : List α} (hf : G.Derives f u) (hg : G.Derives g v) :
    G.Derives (f ++ g) (u ++ v) := by
  induction hf with
  | nil => exact hg
  | cls hit _ ih => exact .cls hit ih
  | ref mem sub _ _ ih =>
      rw [List.append_assoc]
      exact .ref mem sub ih

theorem Derives.split : ∀ {f g : List (Sym ν κ)} {w : List α}, G.Derives (f ++ g) w →
    ∃ u v, w = u ++ v ∧ G.Derives f u ∧ G.Derives g v
  | [], _, w, h => ⟨[], w, rfl, .nil, h⟩
  | .cls _ :: _, _, _, .cls hit rest => by
    obtain ⟨u, v, rfl, hu, hv⟩ := rest.split
    exact ⟨_ :: u, v, rfl, .cls hit hu, hv⟩
  | .ref _ :: _, _, _, .ref mem sub rest => by
    obtain ⟨u, v, rfl, hu, hv⟩ := rest.split
    exact ⟨_, v, (List.append_assoc _ _ _).symm, .ref mem sub hu, hv⟩

@[simp] theorem lang_nil {w : List α} : w ∈ G.lang [] ↔ w = [] := by
  constructor
  · rintro ⟨⟩
    rfl
  · rintro rfl
    exact .nil

@[simp] theorem nil_notMem_lang_cls {k : κ} {f : List (Sym ν κ)} : [] ∉ G.lang (.cls k :: f) := by
  generalize hw : ([] : List α) = w
  rintro ⟨⟩
  cases hw

@[simp] theorem lang_cls {k : κ} {f : List (Sym ν κ)} {c : α} {w : List α} :
    c :: w ∈ G.lang (.cls k :: f) ↔ G.hit k c ∧ w ∈ G.lang f := by
  constructor
  · rintro (_ | ⟨hit, rest⟩)
    exact ⟨hit, rest⟩
  · rintro ⟨hit, rest⟩
    exact .cls hit rest

/-- Replacing the first symbol by the alternates of its rule keeps the words. -/
theorem lang_ref {n : ν} {f : List (Sym ν κ)} {w : List α} :
    w ∈ G.lang (.ref n :: f) ↔ ∃ alt ∈ G.alts n, w ∈ G.lang (alt ++ f) := by
  constructor
  · intro h
    generalize hg : Sym.ref n :: f = g at h
    cases h with
    | nil => cases hg
    | cls => cases hg
    | ref mem sub rest =>
        cases hg
        exact ⟨_, mem, sub.append rest⟩
  · rintro ⟨alt, mem, h⟩
    obtain ⟨u, v, rfl, hu, hv⟩ := Derives.split h
    exact .ref mem hu hv

theorem ruleLang_eq (n : ν) : G.ruleLang n = G.lang [.ref n] := by
  ext w
  rw [lang_ref]
  simp only [List.append_nil]
  exact Iff.rfl

end Words

/-- Nothing is left, or a class comes first. -/
inductive Ready : List (Sym ν κ) → Prop
  | nil : Ready []
  | cls (k : κ) (f : List (Sym ν κ)) : Ready (.cls k :: f)

/-- The first symbol is replaced by an alternate of its rule. -/
inductive Step (G : Cfg ν κ α) : List (Sym ν κ) → List (Sym ν κ) → Prop
  | mk {n : ν} {alt : List (Sym ν κ)} (f : List (Sym ν κ)) (mem : alt ∈ G.alts n) : Step G (.ref n :: f) (alt ++ f)

theorem leftQuotient_lang_cls {k : κ} {f : List (Sym ν κ)} {c : α} {w : List α} :
    w ∈ (G.lang (.cls k :: f)).leftQuotient [c] ↔ G.hit k c ∧ w ∈ G.lang f := lang_cls

section LeftRecursion

/-- `m` can come first in what `n` becomes: only symbols with the empty word stand before it in an alternate. -/
def LeftRef (G : Cfg ν κ α) (n m : ν) : Prop :=
  ∃ pre post, pre ++ Sym.ref m :: post ∈ G.alts n ∧ G.Derives pre []

/-- No rule comes first in what it becomes itself: directly, through other rules, or behind rules with the empty word. -/
def NoLeftRecursion (G : Cfg ν κ α) : Prop := ∀ n, ¬ Relation.TransGen G.LeftRef n n

theorem NoLeftRecursion.wellFounded (h : G.NoLeftRecursion) (hfin : {n | G.alts n ≠ []}.Finite) :
    WellFounded fun m n => G.LeftRef n m := by
  have hlt : IsStrictOrder ν (fun m n => Relation.TransGen G.LeftRef n m) :=
    { irrefl := h, trans := fun _ _ _ hab hbc => hbc.trans hab }
  have hon := hfin.wellFoundedOn (r := fun m n => Relation.TransGen G.LeftRef n m)
  rw [Set.wellFoundedOn_iff] at hon
  have hacc : ∀ n, G.alts n ≠ [] → Acc (fun m n => G.LeftRef n m) n := by
    intro n
    induction n using hon.induction with
    | h n ih =>
      intro hn
      refine ⟨_, fun m hm => ?_⟩
      by_cases hm' : G.alts m = []
      · refine ⟨_, fun l ⟨pre, post, hmem, _⟩ => ?_⟩
        rw [hm'] at hmem
        cases hmem
      · exact ih m ⟨.single hm, hm', hn⟩ hm'
  refine ⟨fun n => ⟨_, fun m hm => ?_⟩⟩
  by_cases hm' : G.alts m = []
  · refine ⟨_, fun l ⟨pre, post, hmem, _⟩ => ?_⟩
    rw [hm'] at hmem
    cases hmem
  · exact hacc m hm'

theorem Ready.acc {f : List (Sym ν κ)} (h : Ready f) : Acc (fun g f => G.Step f g) f := by
  refine ⟨_, fun g hg => ?_⟩
  cases h <;> cases hg

/-- A reference in front of a form: the steps below it end, and those of the form itself matter only when the rule has the
empty word. -/
theorem acc_step_ref (hwf : WellFounded fun m n => G.LeftRef n m) :
    ∀ (n : ν) (f : List (Sym ν κ)), (G.Derives [.ref n] [] → Acc (fun g f => G.Step f g) f) →
      Acc (fun g f => G.Step f g) (.ref n :: f) := by
  intro n
  induction n using hwf.induction with
  | h n ih =>
    intro f hf
    refine ⟨_, fun g hg => ?_⟩
    cases hg with
    | mk _ mem =>
      rename_i alt
      -- what is left of the alternate once only symbols with the empty word have been passed
      suffices key : ∀ (post pre : List (Sym ν κ)), alt = pre ++ post → G.Derives pre [] →
          Acc (fun g f => G.Step f g) (post ++ f) from key alt [] rfl .nil
      intro post
      induction post with
      | nil =>
          intro pre heq hpre
          rw [List.append_nil] at heq
          subst heq
          exact hf (lang_ref.mpr ⟨_, mem, by rw [List.append_nil]; exact hpre⟩)
      | cons s post ihp =>
          intro pre heq hpre
          cases s with
          | cls k => exact (Ready.cls k _).acc
          | ref m =>
              refine ih m ⟨pre, post, heq ▸ mem, hpre⟩ (post ++ f) fun hm => ?_
              apply ihp (pre ++ [.ref m])
              · rw [heq, List.append_assoc, List.singleton_append]
              · exact hpre.append hm

/-- **Without left recursion the steps from any form end.** -/
theorem acc_step (hwf : WellFounded fun m n => G.LeftRef n m) (f : List (Sym ν κ)) : Acc (fun g f => G.Step f g) f := by
  induction f with
  | nil => exact Ready.nil.acc
  | cons s f ih =>
      cases s with
      | cls k => exact (Ready.cls k f).acc
      | ref n => exact acc_step_ref hwf n f fun _ => ih

/-- Symbols with the empty word can be stepped away. -/
theorem Derives.steps {pre : List (Sym ν κ)} (h : G.Derives pre []) (f : List (Sym ν κ)) :
    Relation.ReflTransGen G.Step (pre ++ f) f := by
  generalize hw : ([] : List α) = w at h
  induction h generalizing f with
  | nil => exact .refl
  | cls => cases hw
  | @ref _ _ g _ _ mem _ _ ihsub ihrest =>
      obtain ⟨hu, hv⟩ := List.append_eq_nil_iff.mp hw.symm
      have hsub := ihsub (g ++ f) hu.symm
      exact Relation.ReflTransGen.head (.mk (g ++ f) mem) (hsub.trans (ihrest f hv.symm))

theorem LeftRef.steps {n m : ν} (h : G.LeftRef n m) (f : List (Sym ν κ)) :
    ∃ f', Relation.TransGen G.Step (.ref n :: f) (.ref m :: f') := by
  obtain ⟨pre, post, hmem, hpre⟩ := h
  refine ⟨post ++ f, .head' (.mk f hmem) ?_⟩
  rw [List.append_assoc]
  exact hpre.steps _

theorem steps_of_leftRefs {n m : ν} (h : Relation.TransGen G.LeftRef n m) (f : List (Sym ν κ)) :
    ∃ f', Relation.TransGen G.Step (.ref n :: f) (.ref m :: f') := by
  induction h with
  | single h => exact h.steps f
  | tail _ h ih =>
      obtain ⟨mid, hmid⟩ := ih
      obtain ⟨f', hf'⟩ := h.steps mid
      exact ⟨f', hmid.trans hf'⟩

/-- **From a left recursion the steps do not end.** -/
theorem not_acc_step {n : ν} (h : Relation.TransGen G.LeftRef n n) (f : List (Sym ν κ)) :
    ¬ Acc (fun g f => G.Step f g) (.ref n :: f) := by
  intro hacc
  replace hacc := hacc.transGen
  generalize hg : Sym.ref n :: f = g at hacc
  induction hacc generalizing f with
  | intro g _ ih =>
      subst hg
      obtain ⟨f', hf'⟩ := steps_of_leftRefs h f
      exact ih _ (Relation.transGen_swap.mpr hf') f' rfl

end LeftRecursion

section Productive

/-- Every alternate has a word. -/
def Productive (G : Cfg ν κ α) : Prop := ∀ n, ∀ alt ∈ G.alts n, ∃ w, w ∈ G.lang alt

theorem exists_mem_lang_of_forall {f : List (Sym ν κ)} (h : ∀ s ∈ f, ∃ w, w ∈ G.lang [s]) : ∃ w, w ∈ G.lang f := by
  induction f with
  | nil => exact ⟨[], .nil⟩
  | cons s f ih =>
      obtain ⟨u, hu⟩ := h s List.mem_cons_self
      obtain ⟨v, hv⟩ := ih fun t ht => h t (List.mem_cons_of_mem _ ht)
      exact ⟨u ++ v, Derives.append hu hv⟩

/-- A symbol of some alternate. -/
def Used (G : Cfg ν κ α) (s : Sym ν κ) : Prop := ∃ n, ∃ alt ∈ G.alts n, s ∈ alt

theorem Productive.of_used (h : G.Productive) {s : Sym ν κ} (hs : G.Used s) : ∃ w, w ∈ G.lang [s] := by
  obtain ⟨n, alt, hmem, hs⟩ := hs
  obtain ⟨w, hw⟩ := h n alt hmem
  obtain ⟨pre, post, rfl⟩ := List.append_of_mem hs
  obtain ⟨u, v, rfl, hu, hv⟩ := Derives.split hw
  obtain ⟨u', v', rfl, hu', hv'⟩ := Derives.split (f := [s]) (g := post) hv
  exact ⟨u', hu'⟩

theorem Productive.exists_mem_lang (h : G.Productive) {f : List (Sym ν κ)} (hf : ∀ s ∈ f, G.Used s) :
    ∃ w, w ∈ G.lang f :=
  exists_mem_lang_of_forall fun s hs => h.of_used (hf s hs)

end Productive

end Cfg

end S2Moe.Lib
