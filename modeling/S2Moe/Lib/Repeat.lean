import S2Moe.Lib.Grammar

/-!
# Repetition in a grammar

* `lang_append`, `lang_replicate` : symbols behind each other are a product of languages;
* `repeats L lo hi` : between `lo` and `hi` words of `L` behind each other; no `hi` is no bound;
* `lang_optional` : a rule that is a form or nothing, behind `n` words at most, is behind `n + 1` at most;
* `lang_star` : a rule that is a form and itself, or nothing, is the form any number of times.
-/

namespace S2Moe.Lib

section Repeats
variable {α : Type*} {L : Language α}

/-- Words of the language behind each other, as many as the bounds say. -/
def repeats (L : Language α) (lo : Nat) (hi : Option Nat) : Language α :=
  {w | ∃ k, lo ≤ k ∧ (∀ h ∈ hi, k ≤ h) ∧ w ∈ L ^ k}

theorem mem_repeats {lo : Nat} {hi : Option Nat} {w : List α} :
    w ∈ repeats L lo hi ↔ ∃ k, lo ≤ k ∧ (∀ h ∈ hi, k ≤ h) ∧ w ∈ L ^ k := Iff.rfl

theorem repeats_zero : repeats L 0 (some 0) = 1 := by
  ext w
  rw [mem_repeats]
  constructor
  · rintro ⟨k, -, hk, hw⟩
    obtain rfl : k = 0 := Nat.le_zero.mp (hk 0 rfl)
    exact hw
  · intro hw
    exact ⟨0, le_rfl, fun h hh => (Option.mem_some_iff.mp hh).le, hw⟩

/-- One word more at most. -/
theorem repeats_succ (n : Nat) : L * repeats L 0 (some n) + 1 = repeats L 0 (some (n + 1)) := by
  ext w
  rw [Language.mem_add, Language.mem_mul, mem_repeats]
  constructor
  · rintro (⟨u, hu, v, ⟨k, -, hk, hv⟩, rfl⟩ | hw)
    · refine ⟨k + 1, Nat.zero_le _, fun h hh => ?_, ?_⟩
      · obtain rfl := Option.mem_some_iff.mp hh
        exact Nat.succ_le_succ (hk n rfl)
      · rw [pow_succ']
        exact Language.append_mem_mul hu hv
    · exact ⟨0, le_rfl, fun _ _ => Nat.zero_le _, hw⟩
  · rintro ⟨k, -, hk, hw⟩
    cases k with
    | zero => exact .inr hw
    | succ k =>
        rw [pow_succ'] at hw
        obtain ⟨u, hu, v, hv, rfl⟩ := Language.mem_mul.mp hw
        refine .inl ⟨u, hu, v, ⟨k, Nat.zero_le _, fun h hh => ?_, hv⟩, rfl⟩
        obtain rfl := Option.mem_some_iff.mp hh
        exact Nat.le_of_succ_le_succ (hk (n + 1) rfl)

theorem repeats_none : repeats L 0 none = KStar.kstar L := by
  rw [Language.kstar_eq_iSup_pow]
  ext w
  rw [mem_repeats, Language.mem_iSup]
  constructor
  · rintro ⟨k, -, -, hw⟩
    exact ⟨k, hw⟩
  · rintro ⟨k, hw⟩
    exact ⟨k, Nat.zero_le k, fun h hh => absurd hh (Option.not_mem_none h), hw⟩

/-- Words in front. -/
theorem pow_mul_repeats (m : Nat) (hi : Option Nat) : L ^ m * repeats L 0 hi = repeats L m (hi.map (m + ·)) := by
  ext w
  rw [Language.mem_mul, mem_repeats]
  constructor
  · rintro ⟨u, hu, v, ⟨k, -, hk, hv⟩, rfl⟩
    refine ⟨m + k, Nat.le_add_right m k, fun h hh => ?_, ?_⟩
    · obtain ⟨b, hb, rfl⟩ := Option.map_eq_some_iff.mp hh
      exact Nat.add_le_add_left (hk b hb) m
    · rw [pow_add]
      exact Language.append_mem_mul hu hv
  · rintro ⟨k, hm, hk, hw⟩
    obtain ⟨d, rfl⟩ := Nat.exists_eq_add_of_le hm
    rw [pow_add] at hw
    obtain ⟨u, hu, v, hv, rfl⟩ := Language.mem_mul.mp hw
    refine ⟨u, hu, v, ⟨d, Nat.zero_le d, fun h hh => ?_, hv⟩, rfl⟩
    exact Nat.le_of_add_le_add_left (hk (m + h) (Option.map_eq_some_iff.mpr ⟨h, hh, rfl⟩))

/-- Of one letter: as many letters as the bounds say. -/
theorem replicate_mem_repeats {c : α} {lo : Nat} {hi : Option Nat} {n : Nat} (hL : ∀ w, w ∈ L ↔ w = [c]) :
    List.replicate n c ∈ repeats L lo hi ↔ lo ≤ n ∧ ∀ h ∈ hi, n ≤ h := by
  have hpow : ∀ (k : Nat) (w : List α), w ∈ L ^ k ↔ w = List.replicate k c := by
    intro k
    induction k with
    | zero => exact fun w => Iff.rfl
    | succ k ih =>
        intro w
        rw [pow_succ', Language.mem_mul, List.replicate_succ]
        constructor
        · rintro ⟨u, hu, v, hv, rfl⟩
          rw [(hL u).mp hu, (ih v).mp hv]
          rfl
        · rintro rfl
          exact ⟨[c], (hL _).mpr rfl, List.replicate k c, (ih _).mpr rfl, rfl⟩
  rw [mem_repeats]
  constructor
  · rintro ⟨k, hlo, hhi, hw⟩
    have hlen := congrArg List.length ((hpow k _).mp hw)
    rw [List.length_replicate, List.length_replicate] at hlen
    subst hlen
    exact ⟨hlo, hhi⟩
  · rintro ⟨hlo, hhi⟩
    exact ⟨n, hlo, hhi, (hpow n _).mpr rfl⟩

/-- Of one letter the bounds can be read off, unless they leave nothing. -/
theorem bounds_of_repeats_eq {c : α} {lo lo' : Nat} {hi hi' : Option Nat} (hL : ∀ w, w ∈ L ↔ w = [c])
    (hne : ∀ h ∈ hi, lo ≤ h) (heq : repeats L lo hi = repeats L lo' hi') : lo = lo' ∧ hi = hi' := by
  have hiff : ∀ n : Nat, (lo ≤ n ∧ ∀ h ∈ hi, n ≤ h) ↔ lo' ≤ n ∧ ∀ h ∈ hi', n ≤ h := by
    intro n
    rw [← replicate_mem_repeats hL, ← replicate_mem_repeats hL, heq]
  obtain ⟨hle, hhi⟩ := (hiff lo).mp ⟨le_rfl, hne⟩
  have hge := ((hiff lo').mpr ⟨le_rfl, fun h hh => hle.trans (hhi h hh)⟩).1
  obtain rfl : lo = lo' := le_antisymm hge hle
  refine ⟨rfl, ?_⟩
  cases hi with
  | none =>
      cases hi' with
      | none => rfl
      | some h =>
          have habove := ((hiff (lo + h + 1)).mp ⟨by omega, fun _ hh => absurd hh (Option.not_mem_none _)⟩).2 h rfl
          omega
  | some h =>
      have hlo := hne h rfl
      have htop := (hiff h).mp ⟨hlo, fun b hb => (Option.mem_some_iff.mp hb).le⟩
      cases hi' with
      | none =>
          have habove := ((hiff (h + 1)).mpr ⟨by omega, fun _ hh => absurd hh (Option.not_mem_none _)⟩).2 h rfl
          omega
      | some h' =>
          have hup : h ≤ h' := htop.2 h' rfl
          have htop' := (hiff h').mpr ⟨hlo.trans hup, fun b hb => (Option.mem_some_iff.mp hb).le⟩
          rw [le_antisymm hup (htop'.2 h rfl)]

end Repeats

namespace Cfg
variable {ν κ α : Type*} {G : Cfg ν κ α} {f g : List (Sym ν κ)} {n : ν}

theorem lang_append (f g : List (Sym ν κ)) : G.lang (f ++ g) = G.lang f * G.lang g := by
  ext w
  rw [Language.mem_mul]
  constructor
  · intro h
    obtain ⟨u, v, rfl, hu, hv⟩ := Derives.split h
    exact ⟨u, hu, v, hv, rfl⟩
  · rintro ⟨u, hu, v, hv, rfl⟩
    exact Derives.append hu hv

theorem lang_nil_eq : G.lang ([] : List (Sym ν κ)) = 1 := by
  ext w
  rw [lang_nil]
  exact Iff.rfl

theorem lang_replicate (f : List (Sym ν κ)) (k : Nat) : G.lang (List.replicate k f).flatten = G.lang f ^ k := by
  induction k with
  | zero => exact lang_nil_eq
  | succ k ih => rw [List.replicate_succ, List.flatten_cons, lang_append, ih, pow_succ']

/-- A rule that is a form or nothing. -/
theorem lang_optional (h : G.alts n = [f, []]) : G.lang [.ref n] = G.lang f + 1 := by
  ext w
  rw [lang_ref, Language.mem_add, h]
  simp only [List.append_nil, List.mem_cons, List.not_mem_nil, or_false, exists_eq_or_imp, exists_eq_left, lang_nil]
  exact Iff.rfl

/-- What ends in the rule itself, by induction on the derivation: words of the form in front of it, any number of times. -/
theorem Derives.star (h : G.alts n = [f ++ [.ref n], []]) {e : List (Sym ν κ)} {w : List α} (hw : G.Derives e w) :
    ∀ g, e = g ++ [.ref n] → w ∈ G.lang g * KStar.kstar (G.lang f) := by
  induction hw with
  | nil => exact fun g hg => absurd hg.symm (List.append_ne_nil_of_right_ne_nil g (List.cons_ne_nil _ _))
  | @cls k c e w hit _ ih =>
      intro g hg
      cases g with
      | nil => cases hg
      | cons s g =>
          obtain ⟨rfl, rfl⟩ := List.cons.inj hg
          obtain ⟨x, hx, y, hy, rfl⟩ := Language.mem_mul.mp (ih g rfl)
          exact Language.mem_mul.mpr ⟨c :: x, .cls hit hx, y, hy, rfl⟩
  | @ref m alt e u v mem _ rest ihsub ihrest =>
      intro g hg
      cases g with
      | nil =>
          obtain ⟨hm, rfl⟩ := List.cons.inj hg
          obtain rfl := Sym.ref.inj hm
          cases rest
          rw [h] at mem
          rw [lang_nil_eq, one_mul, List.append_nil]
          simp only [List.mem_cons, List.not_mem_nil, or_false] at mem
          rcases mem with rfl | rfl
          · -- once more, and what the recursion gives
            rw [← Language.one_add_self_mul_kstar_eq_kstar]
            exact .inr (ihsub f rfl)
          · rename_i hsub
            rw [lang_nil.mp hsub]
            exact Language.nil_mem_kstar _
      | cons s g =>
          obtain ⟨rfl, rfl⟩ := List.cons.inj hg
          obtain ⟨x, hx, y, hy, rfl⟩ := Language.mem_mul.mp (ihrest g rfl)
          rename_i hsub
          refine Language.mem_mul.mpr ⟨u ++ x, .ref mem hsub hx, y, hy, ?_⟩
          rw [List.append_assoc]

/-- **A rule that is a form and itself, or nothing.** -/
theorem lang_star (h : G.alts n = [f ++ [.ref n], []]) : G.lang [.ref n] = KStar.kstar (G.lang f) := by
  apply le_antisymm
  · intro w hw
    have hstar := Derives.star h hw [] rfl
    rwa [lang_nil_eq, one_mul] at hstar
  · intro w hw
    obtain ⟨ws, rfl, hws⟩ := Language.mem_kstar.mp hw
    clear hw
    induction ws with
    | nil =>
        rw [lang_optional h]
        exact .inr rfl
    | cons x ws ih =>
        obtain ⟨hx, hrest⟩ := List.forall_mem_cons.mp hws
        rw [lang_optional h, List.flatten_cons]
        refine .inl ?_
        rw [lang_append]
        exact Language.append_mem_mul hx (ih hrest)

end Cfg

end S2Moe.Lib
