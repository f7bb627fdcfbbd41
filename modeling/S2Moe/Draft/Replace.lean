import S2Moe.Lib.Text

/-!
# Replacements between the texts of the two models

* `addReplacement` : the map of the replacements, in the order in which it is gone through;
* `replaceLoop` : the loop for one replacement; `replaceToDft`, `replaceToTgt` : one loop for each of them, with the scans
  it makes;
* `Scan.ahead` : the text that a scan goes over;
* `Terminates` : the function returns, and each scan of a loop goes over a shorter end of the text that the loop was given;
* `replace_terminates_iff` : it does if nothing that is searched for is empty, and only then.
-/

namespace S2Moe.Draft
open S2Moe.Lib

/-- `tgt_dft_replacements` -/
abbrev Replacements := List (List UInt8 × List UInt8)

/-- `common_speculative_add_replacement_tgt_dft` -/
def addReplacement (source dest : List UInt8) : Replacements → Replacements
  | [] => [(source, dest)]
  | (s, d) :: rest =>
    if source = s then (s, dest) :: rest
    else if source < s then (source, dest) :: (s, d) :: rest
    else (s, d) :: addReplacement source dest rest

/-- A search in the text from a position on. -/
structure Scan where
  text : List UInt8
  pos : Nat
deriving DecidableEq

def Scan.ahead (t : Scan) : List UInt8 := t.text.drop t.pos

/-- The scans that the loop makes, and the text at its end; nothing when it has not ended after so many scans. -/
def replaceLoop (pat new : List UInt8) : Nat → Scan → Option (List Scan × List UInt8)
  | 0, _ => none
  | fuel + 1, t =>
    match find t.text pat t.pos with
    | none => some ([t], t.text)
    | some p => (replaceLoop pat new fuel ⟨splice t.text p pat.length new, p + new.length⟩).map fun r => (t :: r.1, r.2)

/-- One loop after the other. -/
def replaceAll (fuel : Nat) : Replacements → List UInt8 → Option (List (List Scan) × List UInt8)
  | [], s => some ([], s)
  | (pat, new) :: rest, s => do
    let r ← replaceLoop pat new fuel ⟨s, 0⟩
    let q ← replaceAll fuel rest r.2
    some (r.1 :: q.1, q.2)

def replaceToDft (fuel : Nat) (m : Replacements) (input : List UInt8) : Option (List (List Scan) × List UInt8) :=
  replaceAll fuel m input

/-- The other direction searches for the second text of each pair. -/
def replaceToTgt (fuel : Nat) (m : Replacements) (input : List UInt8) : Option (List (List Scan) × List UInt8) :=
  replaceAll fuel (m.map Prod.swap) input

/-- Each scan goes over a proper end of what the scan before it goes over. -/
def Forward (scans : List Scan) : Prop :=
  scans.IsChain fun t t' => t'.ahead <:+ t.ahead ∧ t'.ahead ≠ t.ahead

/-- With enough fuel there is a result, and all loops go forward. -/
def Terminates (f : Nat → Option (List (List Scan) × List UInt8)) : Prop :=
  ∃ fuel r, f fuel = some r ∧ ∀ scans ∈ r.1, Forward scans

/-! ## One loop -/

section Loop
variable {pat new s : List UInt8} {t : Scan} {fuel p : Nat}

/-- The text that the next scan goes over. -/
theorem ahead_next (h : find t.text pat t.pos = some p) :
    (Scan.mk (splice t.text p pat.length new) (p + new.length)).ahead = t.ahead.drop (p - t.pos + pat.length) := by
  obtain ⟨hpos, hle⟩ := find_length_le h
  unfold Scan.ahead
  rw [drop_splice (by omega), List.drop_drop]
  congr 1
  omega

theorem replaceLoop_succ : ∀ {fuel : Nat} {t : Scan} {r : List Scan × List UInt8}, replaceLoop pat new fuel t = some r →
    replaceLoop pat new (fuel + 1) t = some r
  | 0, _, _, h => by cases h
  | fuel + 1, t, r, h => by
    rw [replaceLoop] at h ⊢
    cases hf : find t.text pat t.pos with
    | none =>
        rw [hf] at h
        exact h
    | some p =>
        rw [hf] at h
        obtain ⟨q, hq, rfl⟩ := Option.map_eq_some_iff.mp h
        exact Option.map_eq_some_iff.mpr ⟨q, replaceLoop_succ hq, rfl⟩

theorem replaceLoop_mono {r : List Scan × List UInt8} (h : replaceLoop pat new fuel t = some r) {fuel' : Nat}
    (hle : fuel ≤ fuel') : replaceLoop pat new fuel' t = some r := by
  induction hle with
  | refl => exact h
  | step _ ih => exact replaceLoop_succ ih

/-- Each turn takes the text that was found from what is ahead. -/
theorem replaceLoop_terminates (hne : pat ≠ []) : ∀ (fuel : Nat) (t : Scan), t.ahead.length < fuel →
    ∃ scans out, replaceLoop pat new fuel t = some (t :: scans, out) ∧ Forward (t :: scans)
  | 0, _, h => absurd h (Nat.not_lt_zero _)
  | fuel + 1, t, h => by
    rw [replaceLoop]
    cases hf : find t.text pat t.pos with
    | none => exact ⟨[], t.text, rfl, List.IsChain.singleton t⟩
    | some p =>
        have hnext : (Scan.mk (splice t.text p pat.length new) (p + new.length)).ahead =
            t.ahead.drop (p - t.pos + pat.length) := ahead_next hf
        obtain ⟨hpos, hle⟩ := find_length_le hf
        have hpat : 0 < pat.length := List.length_pos_iff.mpr hne
        have hlen : t.ahead.length = t.text.length - t.pos := List.length_drop
        have hshort : (Scan.mk (splice t.text p pat.length new) (p + new.length)).ahead.length < t.ahead.length := by
          rw [hnext, List.length_drop]
          omega
        obtain ⟨scans, out, hrun, hforward⟩ := replaceLoop_terminates hne fuel
          ⟨splice t.text p pat.length new, p + new.length⟩ (by omega)
        refine ⟨_ :: scans, out, by dsimp only; rw [hrun]; rfl, ?_⟩
        refine List.isChain_cons_cons.mpr ⟨⟨?_, fun he => ?_⟩, hforward⟩
        · rw [hnext]
          exact List.drop_suffix _ _
        · rw [he] at hshort
          exact lt_irrefl _ hshort

/-- The empty text is found again behind each replacement. -/
theorem replaceLoop_nil : ∀ (fuel : Nat) (t : Scan), t.pos ≤ t.text.length → replaceLoop [] new fuel t = none
  | 0, _, _ => rfl
  | fuel + 1, t, h => by
    rw [replaceLoop, find_nil h]
    have hle : t.pos + new.length ≤ (splice t.text t.pos 0 new).length := by
      unfold splice
      rw [List.length_append, List.length_append, List.length_take_of_le h]
      omega
    exact Option.map_eq_none_iff.mpr (replaceLoop_nil fuel _ hle)

end Loop

/-! ## All loops -/

section All
variable {m : Replacements} {s : List UInt8} {fuel : Nat} {r : List (List Scan) × List UInt8}

theorem replaceAll_mono : ∀ {m : Replacements} {s : List UInt8} {r : List (List Scan) × List UInt8},
    replaceAll fuel m s = some r → ∀ {fuel' : Nat}, fuel ≤ fuel' → replaceAll fuel' m s = some r
  | [], _, _, h, _, _ => h
  | (pat, new) :: m, s, r, h, fuel', hle => by
    simp only [replaceAll, Option.bind_eq_bind, Option.bind_eq_some_iff] at h ⊢
    obtain ⟨q, hq, q', hq', hr⟩ := h
    exact ⟨q, replaceLoop_mono hq hle, q', replaceAll_mono hq' hle, hr⟩

theorem replaceAll_terminates : ∀ (m : Replacements), (∀ p ∈ m, p.1 ≠ []) → ∀ s,
    ∃ fuel r, replaceAll fuel m s = some r ∧ ∀ scans ∈ r.1, Forward scans
  | [], _, s => ⟨0, ([], s), rfl, fun _ h => absurd h List.not_mem_nil⟩
  | (pat, new) :: m, hne, s => by
    obtain ⟨scans, out, hloop, hforward⟩ : ∃ scans out,
        replaceLoop pat new ((Scan.mk s 0).ahead.length + 1) ⟨s, 0⟩ = some (⟨s, 0⟩ :: scans, out) ∧
          Forward (⟨s, 0⟩ :: scans) :=
      replaceLoop_terminates (hne _ List.mem_cons_self) _ ⟨s, 0⟩ (Nat.lt_succ_self _)
    obtain ⟨fuel, r, hrest, hall⟩ := replaceAll_terminates m (fun p hp => hne p (List.mem_cons_of_mem _ hp)) out
    refine ⟨max ((Scan.mk s 0).ahead.length + 1) fuel, ((⟨s, 0⟩ :: scans) :: r.1, r.2), ?_, ?_⟩
    · simp only [replaceAll, Option.bind_eq_bind, Option.bind_eq_some_iff]
      exact ⟨_, replaceLoop_mono hloop (le_max_left _ _), r, replaceAll_mono hrest (le_max_right _ _), rfl⟩
    · intro l hl
      rcases List.mem_cons.mp hl with rfl | hl
      · exact hforward
      · exact hall l hl

/-- A loop that does not end is reached, or one before it does not end. -/
theorem replaceAll_ne_nil : ∀ {m : Replacements} {s : List UInt8} {r : List (List Scan) × List UInt8},
    replaceAll fuel m s = some r → ∀ p ∈ m, p.1 ≠ []
  | [], _, _, _, _, hp => absurd hp List.not_mem_nil
  | (pat, new) :: m, s, r, h, p, hp => by
    simp only [replaceAll, Option.bind_eq_bind, Option.bind_eq_some_iff] at h
    obtain ⟨q, hq, q', hq', -⟩ := h
    rcases List.mem_cons.mp hp with rfl | hp
    · rintro rfl
      rw [replaceLoop_nil fuel ⟨s, 0⟩ (Nat.zero_le _)] at hq
      cases hq
    · exact replaceAll_ne_nil hq' p hp

theorem terminates_replaceAll_iff : Terminates (fun fuel => replaceAll fuel m s) ↔ ∀ p ∈ m, p.1 ≠ [] := by
  constructor
  · rintro ⟨fuel, r, hr, -⟩
    exact replaceAll_ne_nil hr
  · exact fun hne => replaceAll_terminates m hne s

end All

/-- The map behind some calls of `common_speculative_add_replacement_tgt_dft`. -/
def added (calls : List (List UInt8 × List UInt8)) : Replacements := calls.foldl (fun m c => addReplacement c.1 c.2 m) []

/-- **Both functions return, scanning forward only, exactly when the texts they search for are not empty.** -/
theorem replace_terminates_iff (calls : List (List UInt8 × List UInt8)) (input : List UInt8) :
    (Terminates (fun fuel => replaceToDft fuel (added calls) input) ↔ ∀ p ∈ added calls, p.1 ≠ []) ∧
      (Terminates (fun fuel => replaceToTgt fuel (added calls) input) ↔ ∀ p ∈ added calls, p.2 ≠ []) := by
  refine ⟨terminates_replaceAll_iff, terminates_replaceAll_iff.trans ?_⟩
  constructor
  · intro h p hp
    exact h p.swap (List.mem_map_of_mem hp)
  · intro h q hq
    obtain ⟨p, hp, rfl⟩ := List.mem_map.mp hq
    exact h p hp

/-- With both texts empty nothing changes and the loop goes on. -/
theorem replaceToDft_not_terminates : ¬ Terminates (fun fuel => replaceToDft fuel (added [([], [])]) [97]) := by
  rintro ⟨fuel, r, h, -⟩
  have hnone : replaceToDft fuel (added [([], [])]) [97] = none := by
    show ((replaceLoop [] [] fuel ⟨[97], 0⟩).bind _) = none
    rw [replaceLoop_nil fuel ⟨[97], 0⟩ (Nat.zero_le _)]
    rfl
  cases hnone.symm.trans h

end S2Moe.Draft
