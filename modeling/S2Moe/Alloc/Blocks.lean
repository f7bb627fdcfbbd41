import Mathlib.Data.List.TakeWhile
import S2Moe.Alloc.Tallocr

/-!
# The free blocks of a chunk

* `find_eq_some`, `find_eq_none` : what the search finds;
* `Freed` : what freeing does to the list of the free blocks, `freeBlock_spec`;
* `TakenFrom` : what allocating does to it, `take_spec`;
* both keep room between the blocks, `Freed.apart`, `TakenFrom.apart`.
-/

namespace S2Moe.Alloc
open S2Moe.Lib

/-! ## The search -/

section Search
variable {size i : Nat} {bs : List Span}

theorem bestFit_some : ∀ {i : Nat} {bs : List Span} {best : Option Nat} {bestSize j : Nat},
    bestFit size i bs best bestSize = some j → best = some j ∨ ∃ k b, j = i + k ∧ bs[k]? = some b ∧ size ≤ b.size
  | _, [], _, _, _, h => .inl h
  | _, [_], _, _, _, h => .inl h
  | i, b :: c :: bs, best, bestSize, j, h => by
    rw [bestFit] at h
    split_ifs at h with hfit
    · rcases bestFit_some h with hj | ⟨k, d, rfl, hk, hd⟩
      · obtain rfl := Option.some.inj hj
        exact .inr ⟨0, b, rfl, rfl, hfit.1⟩
      · exact .inr ⟨k + 1, d, by omega, hk, hd⟩
    · rcases bestFit_some h with hj | ⟨k, d, rfl, hk, hd⟩
      · exact .inl hj
      · exact .inr ⟨k + 1, d, by omega, hk, hd⟩

theorem bestFit_isSome : ∀ {i : Nat} {bs : List Span} {best : Option Nat} {bestSize : Nat}, best.isSome = true →
    (bestFit size i bs best bestSize).isSome = true
  | _, [], _, _, h => h
  | _, [_], _, _, h => h
  | i, b :: c :: bs, best, bestSize, h => by
    rw [bestFit]
    split_ifs
    · exact bestFit_isSome rfl
    · exact bestFit_isSome h

/-- Nothing is found when all blocks but the last one are too small. -/
theorem bestFit_none : ∀ {i : Nat} {bs : List Span} {best : Option Nat}, (∀ b ∈ bs, b.size ≤ sizeMax) →
    bestFit size i bs best sizeMax = none → ∀ b ∈ bs.dropLast, b.size < size
  | _, [], _, _, _, _, hb => absurd hb List.not_mem_nil
  | _, [_], _, _, _, _, hb => absurd hb List.not_mem_nil
  | i, b :: c :: bs, best, hle, h, d, hd => by
    rw [bestFit] at h
    split_ifs at h with hfit
    · have hsome : (bestFit size (i + 1) (c :: bs) (some i) b.size).isSome = true := bestFit_isSome rfl
      rw [h] at hsome
      cases hsome
    · rcases List.mem_cons.mp hd with rfl | hd
      · exact not_le.mp fun hc => hfit ⟨hc, hle _ List.mem_cons_self⟩
      · exact bestFit_none (fun x hx => hle x (List.mem_cons_of_mem b hx)) h d hd

/-- Block `i` of chunk `c` is large enough. -/
def Fitting (chunks : List Chunk) (size c i : Nat) : Prop :=
  ∃ chunk b, chunks[c]? = some chunk ∧ chunk.freeBlocks[i]? = some b ∧ size ≤ b.size

theorem Fitting.cons {chunks : List Chunk} {chunk : Chunk} {c : Nat} (h : Fitting chunks size c i) :
    Fitting (chunk :: chunks) size (c + 1) i := h

theorem bestBlock_some : ∀ {c : Nat} {chunks : List Chunk} {best : Option (Nat × Nat)} {r : Nat × Nat},
    bestBlock size c chunks best = some r → best = some r ∨ ∃ k, r.1 = c + k ∧ Fitting chunks size k r.2
  | _, [], _, _, h => .inl h
  | c, chunk :: chunks, best, r, h => by
    rw [bestBlock] at h
    rcases bestBlock_some h with hr | ⟨k, hk, hfit⟩
    · cases hb : bestFit size 0 chunk.freeBlocks none sizeMax with
      | none =>
          rw [hb] at hr
          exact .inl hr
      | some i =>
          rw [hb] at hr
          obtain rfl := Option.some.inj hr
          rcases bestFit_some hb with hnone | ⟨k, b, hk, hkb, hle⟩
          · cases hnone
          · rw [Nat.zero_add] at hk
            exact .inr ⟨0, rfl, chunk, b, rfl, hk ▸ hkb, hle⟩
    · exact .inr ⟨k + 1, by omega, hfit.cons⟩

theorem bestBlock_isSome : ∀ {c : Nat} {chunks : List Chunk} {best : Option (Nat × Nat)}, best.isSome = true →
    (bestBlock size c chunks best).isSome = true
  | _, [], _, h => h
  | c, chunk :: chunks, best, h => by
    rw [bestBlock]
    refine bestBlock_isSome ?_
    split
    · rfl
    · exact h

theorem bestBlock_none : ∀ {c : Nat} {chunks : List Chunk} {best : Option (Nat × Nat)},
    (∀ chunk ∈ chunks, ∀ b ∈ chunk.freeBlocks, b.size ≤ sizeMax) → bestBlock size c chunks best = none →
    ∀ chunk ∈ chunks, ∀ b ∈ chunk.freeBlocks.dropLast, b.size < size
  | _, [], _, _, _, _, hchunk => absurd hchunk List.not_mem_nil
  | c, chunk :: chunks, best, hle, h, d, hd => by
    rw [bestBlock] at h
    rcases List.mem_cons.mp hd with rfl | hd
    · have hfit : bestFit size 0 d.freeBlocks none sizeMax = none := by
        cases hb : bestFit size 0 d.freeBlocks none sizeMax with
        | none => rfl
        | some i =>
            rw [hb] at h
            have hsome : (bestBlock size (c + 1) chunks (some (c, i))).isSome = true := bestBlock_isSome rfl
            rw [h] at hsome
            cases hsome
      exact bestFit_none (hle _ List.mem_cons_self) hfit
    · exact bestBlock_none (fun x hx => hle x (List.mem_cons_of_mem chunk hx)) h d hd

theorem lastBlock_some : ∀ {c : Nat} {chunks : List Chunk} {r : Nat × Nat}, lastBlock size c chunks = some r →
    ∃ k, r.1 = c + k ∧ Fitting chunks size k r.2
  | _, [], _, h => by cases h
  | c, chunk :: chunks, r, h => by
    have hskip : lastBlock size (c + 1) chunks = some r → ∃ k, r.1 = c + k ∧ Fitting (chunk :: chunks) size k r.2 := by
      intro h
      obtain ⟨k, hk, hfit⟩ := lastBlock_some h
      exact ⟨k + 1, by omega, hfit.cons⟩
    rw [lastBlock] at h
    split at h
    · rename_i b hb
      split_ifs at h with hle
      · obtain rfl := Option.some.inj h
        rw [List.getLast?_eq_getElem?] at hb
        exact ⟨0, rfl, chunk, b, rfl, hb, hle⟩
      · exact hskip h
    · exact hskip h

theorem lastBlock_none : ∀ {c : Nat} {chunks : List Chunk}, lastBlock size c chunks = none →
    ∀ chunk ∈ chunks, ∀ b, chunk.freeBlocks.getLast? = some b → b.size < size
  | _, [], _, _, hchunk => absurd hchunk List.not_mem_nil
  | c, chunk :: chunks, h, d, hd => by
    intro b hb
    rw [lastBlock] at h
    rcases List.mem_cons.mp hd with rfl | hd
    · rw [hb] at h
      dsimp only at h
      split_ifs at h with hle
      exact not_le.mp hle
    · split at h
      · split_ifs at h
        exact lastBlock_none h d hd b hb
      · exact lastBlock_none h d hd b hb

theorem find_eq_some {a : DynTallocr} {c : Nat} (h : a.find size = some (c, i)) : Fitting a.chunks size c i := by
  unfold DynTallocr.find at h
  cases hb : bestBlock size 0 a.chunks none with
  | some r =>
      rw [hb] at h
      obtain rfl := Option.some.inj h
      rcases bestBlock_some hb with hnone | ⟨k, hk, hfit⟩
      · cases hnone
      · obtain rfl : c = k := hk.trans (Nat.zero_add k)
        exact hfit
  | none =>
      rw [hb] at h
      obtain ⟨k, hk, hfit⟩ := lastBlock_some h
      obtain rfl : c = k := hk.trans (Nat.zero_add k)
      exact hfit

theorem find_eq_none {a : DynTallocr} (hle : ∀ chunk ∈ a.chunks, ∀ b ∈ chunk.freeBlocks, b.size ≤ sizeMax)
    (h : a.find size = none) : ∀ chunk ∈ a.chunks, ∀ b ∈ chunk.freeBlocks, b.size < size := by
  unfold DynTallocr.find at h
  rw [Option.orElse_eq_none] at h
  intro chunk hchunk b hb
  have hlast := lastBlock_none h.2 chunk hchunk
  have hfirst := bestBlock_none hle h.1 chunk hchunk
  have hne : chunk.freeBlocks ≠ [] := List.ne_nil_of_mem hb
  rw [← List.dropLast_append_getLast hne, List.mem_append, List.mem_singleton] at hb
  rcases hb with hb | rfl
  · exact hfirst b hb
  · exact hlast _ (List.getLast?_eq_some_getLast hne)

end Search

/-! ## Freeing -/

/-- What freeing the `s` bytes at `o` does to the free blocks. -/
inductive Freed (o s : Nat) : List Span → List Span → Prop where
  | inserted {pre post : List Span} (hnot : ∀ b ∈ pre ++ post, touches o s b = false) (hpre : ∀ b ∈ pre, b.offset < o)
      (hpost : ∀ b ∈ post.head?, o ≤ b.offset) (hlt : (pre ++ post).length < maxFreeBlocks) :
      Freed o s (pre ++ post) (pre ++ ⟨o, s⟩ :: post)
  | behind {pre post : List Span} {b : Span} (hnot : ∀ a ∈ pre, touches o s a = false) (hb : b.stop = o)
      (hnext : ∀ c ∈ post.head?, o + s ≠ c.offset) : Freed o s (pre ++ b :: post) (pre ++ ⟨b.offset, b.size + s⟩ :: post)
  | between {pre post : List Span} {b c : Span} (hb : b.stop = o) (hc : o + s = c.offset) :
      Freed o s (pre ++ b :: c :: post) (pre ++ ⟨b.offset, b.size + s + c.size⟩ :: post)
  | before {pre post : List Span} {b : Span} (hnot : ∀ a ∈ pre, touches o s a = false) (hb : b.stop ≠ o)
      (hc : o + s = b.offset) : Freed o s (pre ++ b :: post) (pre ++ ⟨o, b.size + s⟩ :: post)

section Freeing
variable {o s : Nat} {bs bs' : List Span}

theorem removeBlock_ok {idx : Nat} (hidx : idx < bs.length) (h : bs.length < maxFreeBlocks) :
    removeBlock bs idx = .ok (bs.eraseIdx idx) := by
  refine if_pos fun i hi => ?_
  have := List.mem_range'_1.mp hi
  omega

theorem insertBlock_spec (hnot : ∀ b ∈ bs, touches o s b = false) :
    (∃ bs', insertBlock bs o s = .ok bs' ∧ Freed o s bs bs') ∨ insertBlock bs o s = .error .outOfFreeBlocks := by
  unfold insertBlock
  split_ifs with hlt
  · left
    have hcut := List.takeWhile_append_dropWhile (p := fun b : Span => decide (b.offset < o)) (l := bs)
    have hfreed : Freed o s (bs.takeWhile (fun b => b.offset < o) ++ bs.dropWhile (fun b => b.offset < o))
        (bs.takeWhile (fun b => b.offset < o) ++ ⟨o, s⟩ :: bs.dropWhile (fun b => b.offset < o)) := by
      refine .inserted (by rwa [hcut]) (fun b hb => ?_) (fun b hb => ?_) (by rwa [hcut])
      · exact of_decide_eq_true (List.mem_takeWhile_imp (p := fun b : Span => decide (b.offset < o)) hb)
      · have hhead := List.head?_dropWhile_not (fun b : Span => decide (b.offset < o)) bs
        rw [Option.mem_def.mp hb] at hhead
        exact not_lt.mp (of_decide_eq_false hhead)
    rw [hcut] at hfreed
    exact ⟨_, rfl, hfreed⟩
  · exact .inr rfl

/-- Freeing ends in one of these ways, or the list is full. -/
theorem freeBlock_spec (bs : List Span) (o s : Nat) : (∃ bs', freeBlock bs o s = .ok bs' ∧ Freed o s bs bs') ∨
    freeBlock bs o s = .error .outOfFreeBlocks ∨
      (maxFreeBlocks ≤ bs.length ∧ (∃ b ∈ bs, b.stop = o) ∧ ∃ c ∈ bs, o + s = c.offset) := by
  have hcut := List.takeWhile_append_dropWhile (p := fun b => !touches o s b) (l := bs)
  have hhead := List.head?_dropWhile_not (fun b => !touches o s b) bs
  have hnot : ∀ a ∈ bs.takeWhile (fun b => !touches o s b), touches o s a = false := fun a ha => by
    simpa using List.mem_takeWhile_imp ha
  unfold freeBlock
  dsimp only
  generalize bs.takeWhile (fun b => !touches o s b) = pre at hcut hnot ⊢
  cases hrest : bs.dropWhile (fun b => !touches o s b) with
  | nil =>
      rw [hrest, List.append_nil] at hcut
      subst hcut
      exact (insertBlock_spec hnot).imp_right .inl
  | cons b post =>
      rw [hrest] at hcut hhead
      have htouch : b.stop = o ∨ o + s = b.offset := by
        simpa [touches, or_iff_not_imp_left] using hhead
      subst hcut
      dsimp only
      by_cases hb : b.stop = o
      · rw [if_pos hb]
        have hlen : b.offset + (b.size + s) = o + s := by
          rw [← hb, Span.stop, Nat.add_assoc]
        cases post with
        | nil => exact .inl ⟨_, rfl, .behind hnot hb fun c hc => by cases hc⟩
        | cons next rest =>
            dsimp only
            rw [hlen]
            split_ifs with hnext
            · by_cases hfull : maxFreeBlocks ≤ (pre ++ b :: next :: rest).length
              · exact .inr (.inr ⟨hfull, ⟨b, by simp, hb⟩, next, by simp, hnext⟩)
              · left
                have hpre : (pre ++ [(⟨b.offset, b.size + s + next.size⟩ : Span)]).length = pre.length + 1 := by simp
                have herase : (pre ++ (⟨b.offset, b.size + s + next.size⟩ : Span) :: next :: rest).eraseIdx (pre.length + 1) =
                    pre ++ ⟨b.offset, b.size + s + next.size⟩ :: rest := by
                  rw [List.append_cons, List.eraseIdx_append_of_length_le hpre.le, hpre, Nat.sub_self,
                    List.eraseIdx_cons_zero, ← List.append_cons]
                simp only [List.length_append, List.length_cons] at hfull
                refine ⟨_, (removeBlock_ok (by simp) (by simp; omega)).trans (congrArg _ herase), .between hb hnext⟩
            · exact .inl ⟨_, rfl, .behind hnot hb fun c hc => by
                obtain rfl := Option.some.inj (Option.mem_def.mp hc)
                exact hnext⟩
      · rw [if_neg hb]
        have hbegin := htouch.resolve_left hb
        left
        cases hlast : pre.getLast? with
        | none => exact ⟨_, rfl, .before hnot hb hbegin⟩
        | some prev =>
            have hprev : prev.stop ≠ o := fun hc => by
              have := hnot prev (List.mem_of_getLast? hlast)
              simp [touches, hc] at this
            dsimp only
            rw [if_neg hprev]
            exact ⟨_, rfl, .before hnot hb hbegin⟩

/-- The bytes that are given back. -/
theorem Freed.hits_eq (h : Freed o s bs bs') (x : Nat) : hits bs' x = hits bs x + (⟨o, s⟩ : Span).one x := by
  have hgrow : ∀ b : Span, b.stop = o → (⟨b.offset, b.size + s⟩ : Span).one x = b.one x + (⟨o, s⟩ : Span).one x := by
    rintro b rfl
    exact Span.one_add b.offset b.size s x
  cases h with
  | inserted =>
      simp only [hits_append, hits_cons]
      omega
  | behind hnot hb =>
      simp only [hits_append, hits_cons, hgrow _ hb]
      omega
  | @between pre post b c hb hc =>
      have hjoin : (⟨b.offset, b.size + s + c.size⟩ : Span).one x = (⟨b.offset, b.size + s⟩ : Span).one x + c.one x := by
        rw [Span.one_add, ← Nat.add_assoc, show b.offset + b.size = o from hb, hc]
      simp only [hits_append, hits_cons, hjoin, hgrow b hb]
      omega
  | @before pre post b hnot hb hc =>
      have hjoin : (⟨o, b.size + s⟩ : Span).one x = (⟨o, s⟩ : Span).one x + b.one x := by
        rw [Nat.add_comm b.size, Span.one_add, hc]
      simp only [hits_append, hits_cons, hjoin]
      omega

theorem Freed.length_le (h : Freed o s bs bs') (hle : bs.length ≤ maxFreeBlocks) : bs'.length ≤ maxFreeBlocks := by
  cases h <;> simp only [List.length_append, List.length_cons] at * <;> omega

/-- A block behind freeing is an old one, or begins and ends where the freed one or an old one does. -/
theorem Freed.of_mem (h : Freed o s bs bs') : ∀ b' ∈ bs', b' ∈ bs ∨
    (b'.size = 0 → s = 0 ∧ b'.offset = o) ∧ (b'.offset = o ∨ ∃ b ∈ bs, b.offset = b'.offset) ∧
      (b'.stop = o + s ∨ ∃ b ∈ bs, b.stop = b'.stop) := by
  have hsplit : ∀ {pre post : List Span} {n : Span} {b' : Span}, b' ∈ pre ++ n :: post → b' ∈ pre ∨ b' = n ∨ b' ∈ post := by
    intro pre post n b' hb
    rcases List.mem_append.mp hb with hb | hb
    · exact .inl hb
    · exact .inr (List.mem_cons.mp hb)
  intro b' hb'
  cases h with
  | inserted =>
      rcases hsplit hb' with hm | rfl | hm
      · exact .inl (List.mem_append_left _ hm)
      · exact .inr ⟨fun hs => ⟨hs, rfl⟩, .inl rfl, .inl rfl⟩
      · exact .inl (List.mem_append_right _ hm)
  | @behind pre post b hnot hb =>
      rcases hsplit hb' with hm | rfl | hm
      · exact .inl (List.mem_append_left _ hm)
      · refine .inr ⟨fun hs => ?_, .inr ⟨b, by simp, rfl⟩, .inl ?_⟩
        · unfold Span.stop at hb
          dsimp only at hs ⊢
          omega
        · unfold Span.stop at hb ⊢
          dsimp only
          omega
      · exact .inl (List.mem_append_right _ (List.mem_cons_of_mem b hm))
  | @between pre post b c hb hc =>
      rcases hsplit hb' with hm | rfl | hm
      · exact .inl (List.mem_append_left _ hm)
      · refine .inr ⟨fun hs => ?_, .inr ⟨b, by simp, rfl⟩, .inr ⟨c, by simp, ?_⟩⟩
        · unfold Span.stop at hb
          dsimp only at hs ⊢
          omega
        · unfold Span.stop at hb ⊢
          dsimp only
          omega
      · exact .inl (List.mem_append_right _ (List.mem_cons_of_mem b (List.mem_cons_of_mem c hm)))
  | @before pre post b hnot hb hc =>
      rcases hsplit hb' with hm | rfl | hm
      · exact .inl (List.mem_append_left _ hm)
      · refine .inr ⟨fun hs => ⟨?_, rfl⟩, .inl rfl, .inr ⟨b, by simp, ?_⟩⟩
        · dsimp only at hs
          omega
        · unfold Span.stop
          dsimp only
          omega
      · exact .inl (List.mem_append_right _ (List.mem_cons_of_mem b hm))

/-- A block that was there is a part of one that is. -/
theorem Freed.exists_mem (h : Freed o s bs bs') : ∀ b ∈ bs, ∃ b' ∈ bs', b'.offset ≤ b.offset ∧ b.stop ≤ b'.stop := by
  intro x hx
  cases h with
  | inserted =>
      refine ⟨x, ?_, le_rfl, le_rfl⟩
      rcases List.mem_append.mp hx with hx | hx
      · exact List.mem_append_left _ hx
      · exact List.mem_append_right _ (List.mem_cons_of_mem _ hx)
  | @behind pre post b hnot hb =>
      rcases List.mem_append.mp hx with hx | hx
      · exact ⟨x, List.mem_append_left _ hx, le_rfl, le_rfl⟩
      · rcases List.mem_cons.mp hx with rfl | hx
        · exact ⟨_, List.mem_append_right _ List.mem_cons_self, le_rfl, by unfold Span.stop; dsimp only; omega⟩
        · exact ⟨x, List.mem_append_right _ (List.mem_cons_of_mem _ hx), le_rfl, le_rfl⟩
  | @between pre post b c hb hc =>
      unfold Span.stop at hb
      rcases List.mem_append.mp hx with hx | hx
      · exact ⟨x, List.mem_append_left _ hx, le_rfl, le_rfl⟩
      · rcases List.mem_cons.mp hx with rfl | hx
        · exact ⟨_, List.mem_append_right _ List.mem_cons_self, le_rfl, by unfold Span.stop; dsimp only; omega⟩
        · rcases List.mem_cons.mp hx with rfl | hx
          · exact ⟨_, List.mem_append_right _ List.mem_cons_self, by dsimp only; omega, by unfold Span.stop; dsimp only; omega⟩
          · exact ⟨x, List.mem_append_right _ (List.mem_cons_of_mem _ hx), le_rfl, le_rfl⟩
  | @before pre post b hnot hb hc =>
      rcases List.mem_append.mp hx with hx | hx
      · exact ⟨x, List.mem_append_left _ hx, le_rfl, le_rfl⟩
      · rcases List.mem_cons.mp hx with rfl | hx
        · exact ⟨_, List.mem_append_right _ List.mem_cons_self, by dsimp only; omega, by unfold Span.stop; dsimp only; omega⟩
        · exact ⟨x, List.mem_append_right _ (List.mem_cons_of_mem _ hx), le_rfl, le_rfl⟩

theorem not_touches {b : Span} (h : touches o s b = false) : b.stop ≠ o ∧ o + s ≠ b.offset := by
  simpa [touches] using h

/-- Blocks that are clear of the freed bytes keep their distance. -/
theorem Freed.apart (h : Freed o s bs bs') (hapart : Apart bs) (hclear : ∀ b ∈ bs, Clear b ⟨o, s⟩) : Apart bs' := by
  have hstop : ∀ b : Span, b.offset ≤ b.stop := fun b => Nat.le_add_right _ _
  cases h with
  | @inserted pre post hnot hpre hpost hlt =>
      refine hapart.between (fun a ha => ?_) fun c hc => ?_
      · have ha' := List.mem_append_left post ha
        have h1 := (not_touches (hnot a ha')).1
        have h2 := hpre a ha
        rcases hclear a ha' with h3 | h3
        · exact lt_of_le_of_ne h3 h1
        · unfold Span.stop at h3
          dsimp only at h3
          omega
      · have hc' := List.mem_append_right pre hc
        have h1 := not_touches (hnot c hc')
        have hge : o ≤ c.offset := by
          cases post with
          | nil => cases hc
          | cons d rest =>
              have hd := hpost d rfl
              rcases List.mem_cons.mp hc with rfl | hc
              · exact hd
              · exact hd.trans ((hstop d).trans (hapart.behind c hc).le)
        have h2 := hstop c
        rcases hclear c hc' with h3 | h3
        · exact absurd (le_antisymm h3 (hge.trans h2)) h1.1
        · exact lt_of_le_of_ne h3 h1.2
  | @behind pre post b hnot hb hnext =>
      refine hapart.without.between hapart.before fun c hc => ?_
      have hend : (⟨b.offset, b.size + s⟩ : Span).stop = o + s := by
        unfold Span.stop at hb ⊢
        dsimp only
        omega
      rw [hend]
      have hbc := hapart.behind c hc
      have hclear' : ∀ d ∈ post, o + s ≤ d.offset := by
        intro d hd
        have := hapart.behind d hd
        have := hstop d
        rcases hclear d (List.mem_append_right _ (List.mem_cons_of_mem b hd)) with h3 | h3
        · dsimp only at h3
          omega
        · exact h3
      cases post with
      | nil => cases hc
      | cons d rest =>
          have hd := lt_of_le_of_ne (hclear' d List.mem_cons_self) (hnext d rfl)
          rcases List.mem_cons.mp hc with rfl | hc
          · exact hd
          · have hrest : Apart (pre ++ [b] ++ d :: rest) := by simpa using hapart
            exact hd.trans_le ((hstop d).trans (hrest.behind c hc).le)
  | @between pre post b c hb hc =>
      have hrest : Apart (pre ++ [b] ++ c :: post) := by simpa using hapart
      have hout : Apart (pre ++ post) := hapart.without.without
      have hend : (⟨b.offset, b.size + s + c.size⟩ : Span).stop = c.stop := by
        unfold Span.stop at hb ⊢
        dsimp only
        omega
      refine hout.between hapart.before fun d hd => ?_
      rw [hend]
      exact hrest.behind d hd
  | @before pre post b hnot hb hc =>
      have hend : (⟨o, b.size + s⟩ : Span).stop = b.stop := by
        unfold Span.stop
        dsimp only
        omega
      refine hapart.without.between (fun a ha => ?_) fun d hd => ?_
      · have h1 := hapart.before a ha
        have h2 := hstop a
        refine lt_of_le_of_ne ?_ (not_touches (hnot a ha)).1
        rcases hclear a (List.mem_append_left _ ha) with h3 | h3
        · exact h3
        · unfold Span.stop at h3
          dsimp only at h3
          omega
      · rw [hend]
        exact hapart.behind d hd

end Freeing

/-! ## Taking -/

/-- What taking `s` bytes at `o` does to the free blocks. -/
inductive TakenFrom (o s : Nat) : List Span → List Span → Prop where
  | all {pre post : List Span} {b : Span} (ho : b.offset = o) (hs : b.size = s) :
    TakenFrom o s (pre ++ b :: post) (pre ++ post)
  | front {pre post : List Span} {b : Span} (ho : b.offset = o) (hs : s < b.size) :
      TakenFrom o s (pre ++ b :: post) (pre ++ ⟨b.offset + s, b.size - s⟩ :: post)

section Taking
variable {o s : Nat} {bs bs' : List Span}

theorem exists_split {i : Nat} {b : Span} (h : bs[i]? = some b) : ∃ pre post, bs = pre ++ b :: post ∧ pre.length = i := by
  obtain ⟨hi, hb⟩ := List.getElem?_eq_some_iff.mp h
  refine ⟨bs.take i, bs.drop (i + 1), ?_, List.length_take_of_le hi.le⟩
  rw [← hb, ← List.drop_eq_getElem_cons hi, List.take_append_drop]

theorem TakenFrom.hits_eq (h : TakenFrom o s bs bs') (x : Nat) : hits bs' x + (⟨o, s⟩ : Span).one x = hits bs x := by
  cases h with
  | @all pre post b ho hs =>
      obtain rfl : b = ⟨o, s⟩ := by rw [← ho, ← hs]
      simp only [hits_append, hits_cons]
      omega
  | @front pre post b ho hs =>
      have hsplit : b.one x = (⟨o, s⟩ : Span).one x + (⟨o + s, b.size - s⟩ : Span).one x := by
        rw [← Span.one_add, Nat.add_sub_cancel' hs.le, ← ho]
      simp only [hits_append, hits_cons, ho]
      omega

/-- The bytes are the front of a block. -/
theorem TakenFrom.exists_mem (h : TakenFrom o s bs bs') : ∃ b ∈ bs, b.offset = o ∧ o + s ≤ b.stop := by
  cases h with
  | @all pre post b ho hs => exact ⟨b, by simp, ho, by rw [Span.stop, ho, hs]⟩
  | @front pre post b ho hs => exact ⟨b, by simp, ho, by rw [Span.stop, ho]; omega⟩

theorem TakenFrom.of_mem (h : TakenFrom o s bs bs') : ∀ b' ∈ bs', b' ∈ bs ∨
    0 < b'.size ∧ b'.offset = o + s ∧ ∃ b ∈ bs, b.stop = b'.stop := by
  intro b' hb'
  cases h with
  | @all pre post b ho hs =>
      refine .inl ?_
      rcases List.mem_append.mp hb' with hm | hm
      · exact List.mem_append_left _ hm
      · exact List.mem_append_right _ (List.mem_cons_of_mem _ hm)
  | @front pre post b ho hs =>
      rcases List.mem_append.mp hb' with hm | hm
      · exact .inl (List.mem_append_left _ hm)
      · rcases List.mem_cons.mp hm with rfl | hm
        · refine .inr ⟨Nat.sub_pos_of_lt hs, by rw [← ho], b, by simp, ?_⟩
          unfold Span.stop
          dsimp only
          omega
        · exact .inl (List.mem_append_right _ (List.mem_cons_of_mem _ hm))

theorem TakenFrom.apart (h : TakenFrom o s bs bs') (hapart : Apart bs) : Apart bs' := by
  cases h with
  | all ho hs => exact hapart.without
  | front ho hs =>
      refine hapart.shrink (Nat.le_add_right _ _) ?_
      unfold Span.stop
      dsimp only
      omega

/-- What is left is clear of what was taken. -/
theorem TakenFrom.clear (h : TakenFrom o s bs bs') (hapart : Apart bs) : ∀ b' ∈ bs', Clear b' ⟨o, s⟩ := by
  have hsides : ∀ {pre post : List Span} {b : Span}, Apart (pre ++ b :: post) → b.offset = o → o + s ≤ b.stop →
      (∀ a ∈ pre, Clear a ⟨o, s⟩) ∧ ∀ c ∈ post, Clear c ⟨o, s⟩ := by
    intro pre post b hap ho hs
    refine ⟨fun a ha => .inl ?_, fun c hc => .inr ?_⟩
    · exact (ho ▸ hap.before a ha).le
    · exact hs.trans (hap.behind c hc).le
  intro b' hb'
  cases h with
  | @all pre post b ho hs =>
      obtain ⟨hpre, hpost⟩ := hsides hapart ho (by rw [Span.stop, ho, hs])
      exact (List.mem_append.mp hb').elim (hpre b') (hpost b')
  | @front pre post b ho hs =>
      obtain ⟨hpre, hpost⟩ := hsides hapart ho (by rw [Span.stop, ho]; omega)
      rcases List.mem_append.mp hb' with hm | hm
      · exact hpre b' hm
      · rcases List.mem_cons.mp hm with rfl | hm
        · exact .inr (by rw [← ho]; exact le_rfl)
        · exact hpost b' hm

theorem TakenFrom.length_le (h : TakenFrom o s bs bs') : bs'.length ≤ bs.length := by
  cases h <;> simp

/-- The last block of the memory is still there, with a later begin. -/
theorem TakenFrom.last (h : TakenFrom o s bs bs') {b : Span} (hb : b ∈ bs) (hlt : b.offset = o → o + s < b.stop) :
    ∃ b' ∈ bs', b'.stop = b.stop ∧ b'.offset ≤ b.offset + s := by
  have hin : ∀ {pre post : List Span} {y : Span}, b ∈ pre ++ y :: post → b = y ∨ b ∈ pre ++ post := by
    intro pre post y hm
    rcases List.mem_append.mp hm with hm | hm
    · exact .inr (List.mem_append_left _ hm)
    · exact (List.mem_cons.mp hm).imp_right (List.mem_append_right _)
  cases h with
  | @all pre post c ho hs =>
      rcases hin hb with rfl | hm
      · have := hlt ho
        rw [Span.stop, ho, hs] at this
        exact absurd this (lt_irrefl _)
      · exact ⟨b, hm, rfl, Nat.le_add_right _ _⟩
  | @front pre post c ho hs =>
      rcases hin hb with rfl | hm
      · refine ⟨_, List.mem_append_right _ List.mem_cons_self, ?_, le_rfl⟩
        unfold Span.stop
        dsimp only
        omega
      · refine ⟨b, ?_, rfl, Nat.le_add_right _ _⟩
        exact (List.mem_append.mp hm).elim (List.mem_append_left _) fun hm =>
          List.mem_append_right _ (List.mem_cons_of_mem _ hm)

/-- A fitting block is taken, or its list is full. -/
theorem take_spec {a : DynTallocr} {c i : Nat} (h : Fitting a.chunks s c i) :
    (∃ chunk o bs', a.chunks[c]? = some chunk ∧ TakenFrom o s chunk.freeBlocks bs' ∧ a.take s c i =
        .ok (⟨c, o⟩, { a with
          chunks := a.chunks.set c { chunk with freeBlocks := bs', maxSize := max chunk.maxSize (o + s) } })) ∨
      ∃ chunk b, a.chunks[c]? = some chunk ∧ chunk.freeBlocks[i]? = some b ∧ b.size = s ∧
        maxFreeBlocks ≤ chunk.freeBlocks.length := by
  obtain ⟨chunk, b, hc, hb, hle⟩ := h
  obtain ⟨pre, post, hsplit, rfl⟩ := exists_split hb
  have hset : ∀ y : Span, chunk.freeBlocks.set pre.length y = pre ++ y :: post := by
    intro y
    rw [hsplit, List.set_append_right _ _ le_rfl, Nat.sub_self, List.set_cons_zero]
  unfold DynTallocr.take
  rw [hc]
  dsimp only
  rw [hb]
  dsimp only
  rw [if_neg (not_lt.mpr hle), hset]
  split_ifs with hzero
  · by_cases hfull : maxFreeBlocks ≤ chunk.freeBlocks.length
    · exact .inr ⟨chunk, b, rfl, hb, by omega, hfull⟩
    · left
      have hlen : (pre ++ (⟨b.offset + s, b.size - s⟩ : Span) :: post).length = chunk.freeBlocks.length := by
        rw [hsplit]
        simp
      have herase : (pre ++ (⟨b.offset + s, b.size - s⟩ : Span) :: post).eraseIdx pre.length = pre ++ post := by
        rw [List.eraseIdx_append_of_length_le le_rfl, Nat.sub_self, List.eraseIdx_cons_zero]
      rw [removeBlock_ok (by simp) (by omega), herase]
      exact ⟨chunk, b.offset, pre ++ post, rfl, hsplit ▸ .all rfl (by omega), rfl⟩
  · exact .inl ⟨chunk, b.offset, _, rfl, hsplit ▸ .front rfl (by omega), rfl⟩

end Taking

end S2Moe.Alloc
