import Mathlib
import S2Moe.Grammar.Reads
import S2Moe.Grammar.Utf8

/-!
# Which candidates a grammar rejects

The code points of all candidates are tried stack by stack: what one stack rejects goes on to the next. A candidate is read
through a pointer into its code points, up to the zero behind them.

* `matchPartialChar` : a class against the bytes of a character that is cut off;
* `rejectCandidates`, `rejectCandidatesForStack` : the candidates that no stack keeps;
* `rejectCandidates_perm` : they are those that no stack can follow up to the first zero;
* `agrees_iff` : which are those that leave no stack when they are accepted, where nothing follows the zero.
-/

namespace S2Moe.Grammar
open S2Moe.Lib

/-- The loop of `llama_grammar_match_partial_char`, for code points from `low` to `high`. -/
def matchPartialLoop (low high : UInt32) (isPositiveChar : Bool) : List Element → Bool
  | e :: u :: rest =>
    if u.type = .charRngUpper then
      -- inclusive range, e.g. [a-z]
      if e.value ≤ high && low ≤ u.value then isPositiveChar
      else
        match rest with
        | [] => !isPositiveChar
        | a :: rest => if a.type = .charAlt then matchPartialLoop low high isPositiveChar (a :: rest) else !isPositiveChar
    else if e.type = .charAny then true
    -- exact char match, e.g. [a] or "a"
    else if low ≤ e.value && e.value ≤ high then isPositiveChar
    else if u.type = .charAlt then matchPartialLoop low high isPositiveChar (u :: rest)
    else !isPositiveChar
  | _ => !isPositiveChar

/-- `llama_grammar_match_partial_char`. -/
def matchPartialChar (pos : List Element) (partialUtf8 : PartialUtf8) : Except Fail Bool :=
  match pos with
  | [] => .error .assert
  | e :: _ =>
    let isPositiveChar := e.type = .char || e.type = .charAny
    if isPositiveChar || e.type = .charNot then
      let value := partialUtf8.value
      -- invalid sequence or 7-bit char split across 2 bytes (overlong)
      if partialUtf8.nRemain < 0 ∨ partialUtf8.nRemain = 1 ∧ value < 2 then .ok false
      else
        let n := partialUtf8.nRemain.toNat
        let low := value <<< UInt32.ofNat (n * 6)
        let high := low ||| UInt32.ofNat (2 ^ (n * 6) - 1)
        let low := if low = 0 then if n = 2 then 2 ^ 11 else if n = 3 then 2 ^ 16 else low else low
        .ok (matchPartialLoop low high isPositiveChar pos)
    else .error .assert

/-- `llama_grammar_candidate` : `code_points` is the index `pos` into the decoded code points. -/
structure Candidate where
  index : Nat
  codePoints : List UInt32
  pos : Nat
  partialUtf8 : PartialUtf8
deriving DecidableEq

/-- `llama_grammar_candidates`. -/
abbrev Candidates := List Candidate

/-- `*tok.code_points`. -/
def Candidate.codePoint (tok : Candidate) : UInt32 := tok.codePoints.getD tok.pos 0

/-- `tok.code_points + 1`. -/
def Candidate.forward (tok : Candidate) : Candidate := { tok with pos := tok.pos + 1 }

/-- `tok.code_points - 1`. -/
def Candidate.back (tok : Candidate) : Candidate := { tok with pos := tok.pos - 1 }

/-- The body of the loop over the candidates: the rejects, and the next candidates. -/
def rejectStep (stackPos : List Element) (r : Candidates × Candidates) (tok : Candidate) :
    Except Fail (Candidates × Candidates) :=
  if tok.codePoint = 0 then
    -- reached end of full codepoints in token, reject iff it ended in a partial sequence that cannot satisfy this position
    if tok.partialUtf8.nRemain = 0 then .ok r
    else do
      if ← matchPartialChar stackPos tok.partialUtf8 then .ok r else .ok (r.1 ++ [tok], r.2)
  else do
    let (found, _) ← matchChar stackPos tok.codePoint
    if found then .ok (r.1, r.2 ++ [tok.forward]) else .ok (r.1 ++ [tok], r.2)

/-- `llama_grammar_reject_candidates`. -/
def rejectCandidates (forStack : Stack → Candidates → Except Fail Candidates) (stackSet : Stacks) (candidates : Candidates) :
    Except Fail Candidates :=
  if stackSet.isEmpty then .error .assert
  else if candidates.isEmpty then .ok []
  else stackSet.foldlM (fun rejects stack => forStack stack rejects) candidates

/-- `llama_grammar_reject_candidates_for_stack`. -/
def rejectCandidatesForStack (rules : Rules) : Nat → Stack → Candidates → Except Fail Candidates
  | _, [], candidates => .ok (candidates.filter fun tok => tok.codePoint ≠ 0 || tok.partialUtf8.nRemain ≠ 0)
  | 0, _ :: _, _ => .error .fuel
  | fuel + 1, pos :: rest, candidates => do
    let (rejects, nextCandidates) ← candidates.foldlM (rejectStep (rules.suffixAt pos)) ([], [])
    let (_, n) ← matchChar (rules.suffixAt pos) 0
    let nextStacks ← advanceStack rules fuel (pushUnlessEnd rules (pos.next n) rest) []
    let nextRejects ← rejectCandidates (rejectCandidatesForStack rules fuel) nextStacks nextCandidates
    .ok (rejects ++ nextRejects.map Candidate.back)

/-! ## What a candidate has before it -/

/-- The code points that are looked at: up to the first zero. -/
def Candidate.seen (tok : Candidate) : List UInt32 := (tok.codePoints.drop tok.pos).takeWhile (· ≠ 0)

/-- A stack that is left behind the code points, and that a cut character could go on with. -/
def Keeps (rules : Rules) (p : PartialUtf8) : List UInt32 → Stack → Prop
  | [], stack => p.nRemain = 0 ∨ ∃ pos rest, stack = pos :: rest ∧ matchPartialChar (rules.suffixAt pos) p = .ok true
  | c :: w, stack => ∃ s, Reads rules c stack s ∧ Keeps rules p w s

def Rejected (rules : Rules) (stack : Stack) (tok : Candidate) : Prop := ¬ Keeps rules tok.partialUtf8 tok.seen stack

section Candidates
variable {rules : Rules} {tok : Candidate}

@[simp] theorem Candidate.back_forward (tok : Candidate) : tok.forward.back = tok := by
  simp [Candidate.forward, Candidate.back]

theorem Candidate.seen_of_zero (h : tok.codePoint = 0) : tok.seen = [] := by
  rw [Candidate.codePoint, List.getD_eq_getElem?_getD] at h
  rw [Candidate.seen]
  cases hd : tok.codePoints.drop tok.pos with
  | nil => rfl
  | cons c w =>
      have hc : tok.codePoints[tok.pos]? = some c := by
        rw [← List.head?_drop, hd]
        rfl
      rw [hc] at h
      exact List.takeWhile_cons_of_neg (by simpa using h)

theorem Candidate.seen_of_ne_zero (h : tok.codePoint ≠ 0) : tok.seen = tok.codePoint :: tok.forward.seen := by
  rw [Candidate.codePoint, List.getD_eq_getElem?_getD] at h ⊢
  cases hc : tok.codePoints[tok.pos]? with
  | none => rw [hc] at h; exact absurd rfl h
  | some c =>
      rw [hc] at h
      have hd : tok.codePoints.drop tok.pos = c :: tok.codePoints.drop (tok.pos + 1) := by
        obtain ⟨hlt, rfl⟩ := List.getElem?_eq_some_iff.mp hc
        exact List.drop_eq_getElem_cons hlt
      rw [Candidate.seen, hd, List.takeWhile_cons_of_pos (by simpa using h)]
      rfl

theorem keeps_iff_survives {p : PartialUtf8} (hp : p.nRemain = 0) : ∀ {w : List UInt32} {stack : Stack},
    Keeps rules p w stack ↔ Survives rules w stack
  | [], _ => ⟨fun _ => trivial, fun _ => .inl hp⟩
  | _ :: _, _ => exists_congr fun _ => and_congr Iff.rfl (keeps_iff_survives hp)

theorem Keeps.survives {p : PartialUtf8} : ∀ {w : List UInt32} {stack : Stack}, Keeps rules p w stack →
    Survives rules w stack
  | [], _, _ => trivial
  | _ :: _, _, ⟨s, hread, h⟩ => ⟨s, hread, h.survives⟩

end Candidates

section Rejecting
variable {rules : Rules}

/-- Two kinds of elements that do not overlap. -/
theorem filter_or_perm {α : Type*} (p q : α → Bool) : ∀ (l : List α), (∀ x ∈ l, p x = true → q x = false) →
    (l.filter p ++ l.filter q).Perm (l.filter fun x => p x || q x)
  | [], _ => .nil
  | x :: l, h => by
    have ih := filter_or_perm p q l fun y hy => h y (List.mem_cons_of_mem _ hy)
    cases hp : p x with
    | true =>
        have hq := h x List.mem_cons_self hp
        simpa [List.filter_cons, hp, hq] using ih
    | false =>
        cases hq : q x with
        | true =>
            simp only [List.filter_cons, hp, hq, Bool.or_true, if_true, Bool.false_eq_true, if_false]
            exact List.perm_middle.trans (ih.cons x)
        | false => simpa [List.filter_cons, hp, hq] using ih

/-- A class on top, as the filter uses it: what it matches, also of a cut character, and the pointer behind it. -/
structure Matcher (rules : Rules) (pos : Pos) where
  found : UInt32 → Bool
  cut : PartialUtf8 → Bool
  n : Nat
  matchChar_eq : ∀ c, matchChar (rules.suffixAt pos) c = .ok (found c, n)
  matchPartialChar_eq : ∀ p, matchPartialChar (rules.suffixAt pos) p = .ok (cut p)
  wellFormed : WellFormed (rules.suffixAt (pos.next n))

theorem exists_matchPartialChar {es : List Element} {c : UInt32} {r : Bool × Nat} (h : matchChar es c = .ok r)
    (p : PartialUtf8) : ∃ b, matchPartialChar es p = .ok b := by
  cases es with
  | nil => cases h
  | cons e es =>
      unfold matchChar at h
      unfold matchPartialChar
      dsimp only at h ⊢
      split at h
      · rename_i hclass
        rw [if_pos hclass]
        split
        · exact ⟨_, rfl⟩
        · exact ⟨_, rfl⟩
      · cases h

theorem exists_matcher {pos : Pos} (hp : Placed rules pos) (htop : ClassOnTop rules pos) : Nonempty (Matcher rules pos) := by
  have hmatch : ∀ c, ∃ b n, matchChar (rules.suffixAt pos) c = .ok (b, n) ∧ WellFormed (rules.suffixAt (pos.next n)) := by
    intro c
    obtain ⟨_, b, n, h, _, hwf, _⟩ := @form_of_classOnTop rules pos [] hp htop c
    exact ⟨b, n, h, hwf⟩
  obtain ⟨_, n, h0, hwf⟩ := hmatch 0
  choose found m hm _ using hmatch
  choose cut hcut using exists_matchPartialChar h0
  refine ⟨⟨found, cut, n, fun c => ?_, hcut, hwf⟩⟩
  rw [hm c, matchChar_snd (hm c) h0]

variable {pos : Pos}

/-- A candidate that ends here and is cut wrongly, or goes on with what the class does not match. -/
def Matcher.rejects (m : Matcher rules pos) (tok : Candidate) : Bool :=
  if tok.codePoint = 0 then tok.partialUtf8.nRemain ≠ 0 && !m.cut tok.partialUtf8 else !m.found tok.codePoint

def Matcher.passes (m : Matcher rules pos) (tok : Candidate) : Bool := tok.codePoint ≠ 0 && m.found tok.codePoint

theorem Matcher.rejectStep_eq (m : Matcher rules pos) (r : Candidates × Candidates) (tok : Candidate) :
    rejectStep (rules.suffixAt pos) r tok =
      .ok (r.1 ++ [tok].filter m.rejects, r.2 ++ ([tok].filter m.passes).map Candidate.forward) := by
  rw [rejectStep, m.matchChar_eq, m.matchPartialChar_eq]
  by_cases hzero : tok.codePoint = 0
  · rw [if_pos hzero]
    by_cases hn : tok.partialUtf8.nRemain = 0
    · simp [hn, Matcher.rejects, Matcher.passes, hzero]
    · rw [if_neg hn]
      show (if m.cut tok.partialUtf8 then _ else _) = _
      cases hc : m.cut tok.partialUtf8 <;> simp [Matcher.rejects, Matcher.passes, hzero, hn, hc]
  · rw [if_neg hzero]
    show (if m.found tok.codePoint then _ else _) = _
    cases hf : m.found tok.codePoint <;> simp [Matcher.rejects, Matcher.passes, hzero, hf]

/-- The loop over the candidates. -/
theorem Matcher.foldlM_rejectStep (m : Matcher rules pos) : ∀ (candidates : Candidates) (r : Candidates × Candidates),
    candidates.foldlM (rejectStep (rules.suffixAt pos)) r =
      .ok (r.1 ++ candidates.filter m.rejects, r.2 ++ (candidates.filter m.passes).map Candidate.forward)
  | [], r => by simp; rfl
  | tok :: candidates, r => by
    rw [List.foldlM_cons, m.rejectStep_eq]
    refine (m.foldlM_rejectStep candidates _).trans ?_
    have hcons : tok :: candidates = [tok] ++ candidates := rfl
    rw [hcons, List.filter_append, List.filter_append, List.map_append, List.append_assoc, List.append_assoc]

theorem Matcher.reads_iff (m : Matcher rules pos) {c : UInt32} {rest s : Stack} : Reads rules c (pos :: rest) s ↔
    m.found c = true ∧ Advances rules (pushUnlessEnd rules (pos.next m.n) rest) s := by
  rw [Reads, m.matchChar_eq]
  constructor
  · rintro ⟨n, heq, h⟩
    obtain ⟨hfound, rfl⟩ := Prod.mk.inj (Except.ok.inj heq)
    exact ⟨hfound, h⟩
  · rintro ⟨hfound, h⟩
    exact ⟨m.n, by rw [hfound], h⟩

/-- What one stack rejects: at once, or later from every stack that it becomes. -/
theorem Matcher.rejected_iff (m : Matcher rules pos) {rest : Stack} {tok : Candidate} :
    Rejected rules (pos :: rest) tok ↔ m.rejects tok = true ∨ m.passes tok = true ∧
      ∀ s, Advances rules (pushUnlessEnd rules (pos.next m.n) rest) s → Rejected rules s tok.forward := by
  by_cases hzero : tok.codePoint = 0
  · rw [Rejected, Candidate.seen_of_zero hzero, Keeps, Matcher.rejects, Matcher.passes, if_pos hzero]
    have hcut : (∃ p r, pos :: rest = p :: r ∧ matchPartialChar (rules.suffixAt p) tok.partialUtf8 = .ok true) ↔
        m.cut tok.partialUtf8 = true := by
      constructor
      · rintro ⟨p, r, heq, h⟩
        cases heq
        rw [m.matchPartialChar_eq] at h
        exact Except.ok.inj h
      · intro h
        exact ⟨pos, rest, rfl, by rw [m.matchPartialChar_eq, h]⟩
    rw [hcut]
    simp [hzero]
  · rw [Rejected, Candidate.seen_of_ne_zero hzero, Keeps, Matcher.rejects, Matcher.passes, if_neg hzero]
    simp only [m.reads_iff]
    cases hf : m.found tok.codePoint with
    | false => simp
    | true =>
        simp only [Bool.not_true, Bool.false_eq_true, false_or, true_and, not_exists, not_and, hzero, ne_eq,
          not_false_eq_true, decide_true, Bool.and_self]
        exact Iff.rfl

open scoped Classical in
/-- The loop over the stacks, where a call for each of them works on candidates that are `ok`. -/
theorem foldlM_forStack_perm {forStack : Stack → Candidates → Except Fail Candidates} {ok : Candidate → Prop} :
    ∀ (stackSet : Stacks), (∀ s ∈ stackSet, ∀ candidates : Candidates, (∀ tok ∈ candidates, ok tok) →
        ∃ r, forStack s candidates = .ok r ∧ r.Perm (candidates.filter fun tok => Rejected rules s tok)) →
      ∀ candidates : Candidates, (∀ tok ∈ candidates, ok tok) →
        ∃ r, stackSet.foldlM (fun rejects stack => forStack stack rejects) candidates = .ok r ∧
          r.Perm (candidates.filter fun tok => ∀ s ∈ stackSet, Rejected rules s tok)
  | [], _, candidates, _ => ⟨candidates, rfl, by simp⟩
  | s :: stackSet, h, candidates, hok => by
    obtain ⟨r, hr, hperm⟩ := h s List.mem_cons_self candidates hok
    have hok' : ∀ tok ∈ r, ok tok := fun tok htok => hok tok (List.mem_of_mem_filter (hperm.mem_iff.mp htok))
    obtain ⟨last, hlast, hperm'⟩ := foldlM_forStack_perm stackSet (fun t ht => h t (List.mem_cons_of_mem _ ht)) r hok'
    refine ⟨last, by rw [List.foldlM_cons, hr]; exact hlast, hperm'.trans ?_⟩
    refine (hperm.filter _).trans ?_
    rw [List.filter_filter]
    apply List.Perm.of_eq
    apply List.filter_congr
    intro tok _
    simp [Bool.and_comm]

/-- A bound for each element of a list gives one for all. -/
theorem exists_bound {α : Type*} {P : α → Nat → Prop} : ∀ (xs : List α), (∀ x ∈ xs, ∃ bound, ∀ fuel ≥ bound, P x fuel) →
    ∃ bound, ∀ fuel ≥ bound, ∀ x ∈ xs, P x fuel
  | [], _ => ⟨0, by simp⟩
  | x :: xs, h => by
    obtain ⟨first, hfirst⟩ := h x List.mem_cons_self
    obtain ⟨bound, hbound⟩ := exists_bound xs fun t ht => h t (List.mem_cons_of_mem _ ht)
    refine ⟨max first bound, fun fuel hfuel t ht => ?_⟩
    rcases List.mem_cons.mp ht with rfl | ht
    · exact hfirst fuel (le_trans (le_max_left _ _) hfuel)
    · exact hbound fuel (le_trans (le_max_right _ _) hfuel) t ht

open scoped Classical in
/-- The candidates with fewer than `len` code points are filtered as they should by the stacks of a set. -/
def Filters (rules : Rules) (len : Nat) (stackSet : Stacks) (fuel : Nat) : Prop :=
  ∀ candidates : Candidates, (∀ tok ∈ candidates, tok.seen.length < len) →
    ∃ r, rejectCandidates (rejectCandidatesForStack rules fuel) stackSet candidates = .ok r ∧
      r.Perm (candidates.filter fun tok => ∀ s ∈ stackSet, Rejected rules s tok)

open scoped Classical in
/-- One stack, where the stacks that it becomes filter what is left of the candidates. -/
theorem rejectCandidatesForStack_perm (hw : WfRules rules) (hwf : WellFounded fun m n => (cfg rules).LeftRef n m) {len : Nat}
    (hnext : ∀ stackSet, Topped rules stackSet → stackSet ≠ [] → ∃ bound, ∀ fuel ≥ bound, Filters rules len stackSet fuel)
    {stack : Stack} (hplaced : ∀ p ∈ stack, Placed rules p) (htop : ∀ p ∈ stack.head?, ClassOnTop rules p) :
    ∃ bound, ∀ fuel ≥ bound, ∀ candidates : Candidates, (∀ tok ∈ candidates, tok.seen.length < len + 1) →
      ∃ r, rejectCandidatesForStack rules fuel stack candidates = .ok r ∧
        r.Perm (candidates.filter fun tok => Rejected rules stack tok) := by
  cases stack with
  | nil =>
      refine ⟨0, fun fuel _ candidates _ => ⟨_, rejectCandidatesForStack.eq_1 _ _ _, List.Perm.of_eq ?_⟩⟩
      apply List.filter_congr
      intro tok _
      by_cases hzero : tok.codePoint = 0
      · rw [Rejected, Candidate.seen_of_zero hzero]
        simp [Keeps, hzero]
      · rw [Rejected, Candidate.seen_of_ne_zero hzero]
        simp [Keeps, Reads, hzero]
  | cons pos rest =>
      obtain ⟨m⟩ := exists_matcher (hplaced pos List.mem_cons_self) (htop pos rfl)
      have hrest : ∀ q ∈ rest, Placed rules q := fun q hq => hplaced q (List.mem_cons_of_mem _ hq)
      obtain ⟨bound, hadv⟩ := advanceStack_adds hw
        (Cfg.acc_step hwf (form rules (pushUnlessEnd rules (pos.next m.n) rest))) (placed_pushUnlessEnd m.wellFormed hrest)
      obtain ⟨nextStacks, hadd, hrun⟩ := hadv [] Topped.empty
      have hmem : ∀ s, s ∈ nextStacks ↔ Advances rules (pushUnlessEnd rules (pos.next m.n) rest) s := fun s => by
        rw [advanceStack_mem bound (hrun bound le_rfl)]
        simp
      obtain ⟨s, hs⟩ := exists_advances bound (hrun bound le_rfl)
      obtain ⟨bound', hfilter⟩ := hnext nextStacks hadd.topped (List.ne_nil_of_mem ((hmem s).mpr hs))
      refine ⟨max bound bound' + 1, fun fuel hfuel candidates hlen => ?_⟩
      obtain ⟨k, rfl⟩ := Nat.exists_eq_add_of_le' (Nat.le_of_add_left_le hfuel)
      have hk : max bound bound' ≤ k := by omega
      obtain ⟨nextRejects, hnextRun, hperm⟩ := hfilter k (le_trans (le_max_right _ _) hk)
        ((candidates.filter m.passes).map Candidate.forward) (by
          intro tok htok
          obtain ⟨before, hbefore, rfl⟩ := List.mem_map.mp htok
          obtain ⟨hmem', hpass⟩ := List.mem_filter.mp hbefore
          have hlt := hlen before hmem'
          rw [Candidate.seen_of_ne_zero (by simpa using (Bool.and_eq_true_iff.mp hpass).1), List.length_cons] at hlt
          omega)
      refine ⟨candidates.filter m.rejects ++ nextRejects.map Candidate.back, ?_, ?_⟩
      · have hcall : advanceStack rules k (pushUnlessEnd rules (pos.next m.n) rest) [] = .ok nextStacks :=
          hrun k (le_trans (le_max_left _ _) hk)
        rw [rejectCandidatesForStack, m.foldlM_rejectStep, m.matchChar_eq]
        simp only [List.nil_append]
        show (advanceStack rules k (pushUnlessEnd rules (pos.next m.n) rest) [] >>= _) = _
        rw [hcall]
        show (rejectCandidates _ nextStacks _ >>= _) = _
        rw [hnextRun]
        rfl
      · -- what comes back from the next stacks
        have hback : (nextRejects.map Candidate.back).Perm (candidates.filter fun tok =>
            m.passes tok && decide (∀ s ∈ nextStacks, Rejected rules s tok.forward)) := by
          refine (hperm.map _).trans (List.Perm.of_eq ?_)
          rw [List.filter_map, List.map_map, List.filter_filter]
          have hid : (Candidate.back ∘ Candidate.forward) = id := funext fun tok => Candidate.back_forward tok
          rw [hid, List.map_id]
          apply List.filter_congr
          intro tok _
          rw [Bool.and_comm]
          rfl
        refine (hback.append_left _).trans ((filter_or_perm _ _ _ fun tok _ hrej => ?_).trans (List.Perm.of_eq ?_))
        · unfold Matcher.rejects at hrej
          unfold Matcher.passes
          split at hrej
          · rename_i hzero
            simp [hzero]
          · simp_all
        · apply List.filter_congr
          intro tok _
          rw [Bool.eq_iff_iff, decide_eq_true_iff, m.rejected_iff]
          simp [hmem]

open scoped Classical in
/-- **The filter keeps what some stack keeps**, each candidate once, and no assertion fails. -/
theorem rejectCandidates_perm (hw : WfRules rules) (hwf : WellFounded fun m n => (cfg rules).LeftRef n m) (len : Nat) :
    ∀ stackSet, Topped rules stackSet → stackSet ≠ [] → ∃ bound, ∀ fuel ≥ bound, Filters rules len stackSet fuel := by
  induction len with
  | zero =>
      intro stackSet _ hne
      refine ⟨0, fun fuel _ candidates hlen => ?_⟩
      cases candidates with
      | nil => exact ⟨[], by simp [rejectCandidates, hne], .nil⟩
      | cons tok candidates => exact absurd (hlen tok List.mem_cons_self) (Nat.not_lt_zero _)
  | succ len ih =>
      intro stackSet htop hne
      obtain ⟨bound, hbound⟩ := exists_bound stackSet fun s hs =>
        rejectCandidatesForStack_perm hw hwf ih (htop.placed s hs) (htop.top s hs)
      refine ⟨bound, fun fuel hfuel candidates hlen => ?_⟩
      rw [rejectCandidates, if_neg (by simpa using hne)]
      split
      · rename_i hempty
        rw [List.isEmpty_iff.mp hempty]
        exact ⟨[], rfl, .nil⟩
      · exact foldlM_forStack_perm stackSet (hbound fuel hfuel) candidates hlen

end Rejecting

/-! ## The filter against the stacks -/

/-- The code points that are read when the candidate is accepted: all but the zero behind them. -/
def Candidate.points (tok : Candidate) : List UInt32 := (tok.codePoints.drop tok.pos).dropLast

/-- The zero behind the code points is there. -/
def Candidate.Terminated (tok : Candidate) : Prop := tok.pos < tok.codePoints.length ∧ tok.codePoints.getLast? = some 0

/-- Accepting the code points leaves no stack. -/
def emptied (fuel : Nat) (g : LlamaGrammar) (w : List UInt32) : Bool :=
  match acceptAll fuel g w with
  | .ok g' => g'.stackSet.isEmpty
  | .error _ => false

/-- The rejected candidates are those that leave no stack when they are accepted, each once. -/
def Agrees (fuel : Nat) (g : LlamaGrammar) (candidates : Candidates) : Prop :=
  ∃ rejects, rejectCandidates (rejectCandidatesForStack g.rules fuel) g.stackSet candidates = .ok rejects ∧
    rejects.Perm (candidates.filter fun tok => emptied fuel g tok.points)

/-- Where there is a zero among the code points and what stands before it is accepted, so is the whole. -/
def ReadsOn (fuel : Nat) (g : LlamaGrammar) (tok : Candidate) : Prop :=
  tok.seen ≠ tok.points → emptied fuel g tok.seen = false → emptied fuel g tok.points = false

section Points
variable {tok : Candidate}

theorem Candidate.Terminated.drop_eq (h : tok.Terminated) : tok.codePoints.drop tok.pos = tok.points ++ [0] := by
  have hne : tok.codePoints.drop tok.pos ≠ [] := by
    rw [ne_eq, List.drop_eq_nil_iff]
    exact Nat.not_le.mpr h.1
  have hlast : (tok.codePoints.drop tok.pos).getLast hne = 0 := by
    have hl := h.2
    rw [List.getLast?_eq_some_getLast (List.ne_nil_of_drop_ne_nil hne)] at hl
    rw [List.getLast_drop]
    exact Option.some.inj hl
  rw [Candidate.points, ← hlast, List.dropLast_append_getLast hne]

/-- What is looked at is read first. -/
theorem Candidate.Terminated.points_eq (h : tok.Terminated) : ∃ rest, tok.points = tok.seen ++ rest := by
  refine ⟨tok.points.dropWhile (· ≠ 0), ?_⟩
  have hseen : tok.seen = tok.points.takeWhile (· ≠ 0) := by
    rw [Candidate.seen, h.drop_eq]
    induction tok.points with
    | nil => rfl
    | cons c w ih =>
        by_cases hc : c = 0
        · simp [hc]
        · simpa [List.takeWhile_cons, hc] using ih
  rw [hseen, List.takeWhile_append_dropWhile]

end Points

section Masking
variable {g : LlamaGrammar}

/-- With enough fuel the run says whether a stack survives. -/
theorem emptied_iff (hw : WfRules g.rules) (hwf : WellFounded fun m n => (cfg g.rules).LeftRef n m)
    (htop : Topped g.rules g.stackSet) (w : List UInt32) : ∃ bound, ∀ fuel ≥ bound,
      ∃ g', acceptAll fuel g w = .ok g' ∧ (emptied fuel g w = true ↔ ¬ ∃ t ∈ g.stackSet, Survives g.rules w t) := by
  obtain ⟨bound, stackSet, hrun, _⟩ := acceptAll_words w hw hwf htop
  refine ⟨bound, fun fuel hfuel => ⟨_, hrun fuel hfuel, ?_⟩⟩
  rw [← acceptAll_ne_nil (hrun fuel hfuel), emptied, hrun fuel hfuel]
  simp

/-- **The filter rejects what accepting empties**, unless a zero among the code points hides the rest. -/
theorem agrees_iff (hw : WfRules g.rules) (hwf : WellFounded fun m n => (cfg g.rules).LeftRef n m)
    (htop : Topped g.rules g.stackSet) (hne : g.stackSet ≠ []) {candidates : Candidates}
    (hterm : ∀ tok ∈ candidates, tok.Terminated) (hfull : ∀ tok ∈ candidates, tok.partialUtf8.nRemain = 0) :
    ∃ bound, ∀ fuel ≥ bound,
      (∃ rejects, rejectCandidates (rejectCandidatesForStack g.rules fuel) g.stackSet candidates = .ok rejects) ∧
      (Agrees fuel g candidates ↔ ∀ tok ∈ candidates, ReadsOn fuel g tok) := by
  classical
  obtain ⟨len, hlen⟩ : ∃ len, ∀ tok ∈ candidates, tok.seen.length < len := by
    obtain ⟨len, hlen⟩ := exists_bound (P := fun tok len => tok.seen.length < len) candidates
      fun tok _ => ⟨tok.seen.length + 1, fun _ h => h⟩
    exact ⟨len, hlen len le_rfl⟩
  obtain ⟨bound, hfilter⟩ := rejectCandidates_perm hw hwf len g.stackSet htop hne
  obtain ⟨bound', hseen⟩ := exists_bound candidates fun tok _ => emptied_iff hw hwf htop tok.seen
  obtain ⟨bound'', hpoints⟩ := exists_bound candidates fun tok _ => emptied_iff hw hwf htop tok.points
  refine ⟨max bound (max bound' bound''), fun fuel hfuel => ?_⟩
  obtain ⟨rejects, hrun, hperm⟩ := hfilter fuel (by omega) candidates hlen
  have hrejects : rejects.Perm (candidates.filter fun tok => emptied fuel g tok.seen) := by
    refine hperm.trans (List.Perm.of_eq (List.filter_congr fun tok htok => ?_))
    obtain ⟨_, _, hiff⟩ := hseen fuel (by omega) tok htok
    rw [Bool.eq_iff_iff, decide_eq_true_iff, hiff]
    simp [Rejected, keeps_iff_survives (hfull tok htok)]
  have hmore : ∀ tok ∈ candidates, emptied fuel g tok.seen = true → emptied fuel g tok.points = true := by
    intro tok htok h
    obtain ⟨_, _, hiff⟩ := hseen fuel (by omega) tok htok
    obtain ⟨_, _, hiff'⟩ := hpoints fuel (by omega) tok htok
    obtain ⟨rest, heq⟩ := (hterm tok htok).points_eq
    rw [hiff']
    rintro ⟨t, ht, hsurvives⟩
    rw [heq] at hsurvives
    exact hiff.mp h ⟨t, ht, hsurvives.of_append⟩
  refine ⟨⟨rejects, hrun⟩, ?_⟩
  constructor
  · rintro ⟨r, hr, hagree⟩ tok htok _ hkept
    rw [hrun] at hr
    cases hr
    by_contra hpoints'
    have hmem : tok ∈ rejects := hagree.mem_iff.mpr (List.mem_filter.mpr ⟨htok, by simpa using hpoints'⟩)
    have hseen' := (List.mem_filter.mp (hrejects.mem_iff.mp hmem)).2
    rw [hkept] at hseen'
    cases hseen'
  · intro h
    refine ⟨rejects, hrun, hrejects.trans (List.Perm.of_eq (List.filter_congr fun tok htok => ?_))⟩
    cases hs : emptied fuel g tok.seen with
    | true => exact (hmore tok htok hs).symm
    | false =>
        by_cases heq : tok.seen = tok.points
        · rw [← heq, hs]
        · exact (h tok htok heq hs).symm

end Masking

end S2Moe.Grammar
