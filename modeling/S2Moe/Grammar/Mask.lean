import S2Moe.Grammar.Reject

/-!
# Which tokens a grammar masks

* `applyImpl` : the mask over the tokens; `acceptStr` : reading the piece of a token;
* `applyImpl_spec` : what is left unmasked;
* `masking_agrees_iff` : the mask agrees with reading just where no zero among the code points hides the rest of a piece;
`overlongZero_not_agrees` : the two bytes of an overlong zero.
-/

namespace S2Moe.Grammar
open S2Moe.Lib

/-- What the grammar asks of the vocabulary. -/
structure Vocab where
  tokenToPiece : Nat → Text
  isEog : Nat → Bool

/-- `llama_token_data`, for logits of any kind. -/
structure TokenData (L : Type) where
  id : Nat
  logit : L

/-- The fields of `llama_grammar` that the mask uses. -/
structure GrammarState where
  grammar : LlamaGrammar
  partialUtf8 : PartialUtf8
  awaitingTrigger : Bool

section Apply
variable {L : Type} (negInf : L) (vocab : Vocab)

/-- A token that the loop over `cur_p` masks by itself. -/
def maskedAlone (allowEog : Bool) (data : TokenData L) : Bool :=
  let piece := vocab.tokenToPiece data.id
  if vocab.isEog data.id then !allowEog else piece.headD 0 == 0

/-- A token that becomes a candidate. -/
def candidateOf (start : PartialUtf8) (i : Nat) (data : TokenData L) : Option Candidate :=
  let piece := vocab.tokenToPiece data.id
  if vocab.isEog data.id || piece.headD 0 == 0 then none
  else
    let decoded := decodeUtf8Partial piece start
    some ⟨i, decoded.1, 0, decoded.2⟩

/-- `llama_grammar_apply_impl`. -/
def applyImpl (fuel : Nat) (st : GrammarState) (curP : List (TokenData L)) : Except Fail (List (TokenData L)) :=
  if st.awaitingTrigger then .ok curP
  else do
    let allowEog := st.grammar.stackSet.any List.isEmpty
    let candidates := (curP.zipIdx.filterMap fun (data, i) => candidateOf vocab st.partialUtf8 i data)
    let rejects ← rejectCandidates (rejectCandidatesForStack st.grammar.rules fuel) st.grammar.stackSet candidates
    .ok (curP.mapIdx fun i data =>
      if maskedAlone vocab allowEog data || rejects.any (fun reject => reject.index == i) then { data with logit := negInf }
      else data)

end Apply

/-- `llama_grammar_accept_str`; nothing where it throws. -/
def acceptStr (fuel : Nat) (st : GrammarState) (piece : Text) : Except Fail (Option GrammarState) := do
  let decoded := decodeUtf8Partial piece st.partialUtf8
  let grammar ← acceptAll fuel st.grammar decoded.1.dropLast
  if grammar.stackSet.isEmpty then .ok none
  else .ok (some { st with grammar := grammar, partialUtf8 := decoded.2 })

/-- A token that is not masked can be read. -/
def NeverThrows {L : Type} (negInf : L) (vocab : Vocab) (fuel : Nat) (st : GrammarState) (curP : List (TokenData L)) : Prop :=
  ∃ out, applyImpl negInf vocab fuel st curP = .ok out ∧
    ∀ data ∈ out, data.logit ≠ negInf → vocab.isEog data.id = false →
      ∃ st', acceptStr fuel st (vocab.tokenToPiece data.id) = .ok (some st')

section Mask
variable {L : Type} {negInf : L} {vocab : Vocab} {st : GrammarState} {curP : List (TokenData L)}

theorem decodeChars_fst : ∀ (fuel : Nat) (src : Text) (codePoints : List UInt32) (p : PartialUtf8),
    ∃ w, (decodeChars fuel src codePoints p).1 = w ++ [0]
  | 0, _, codePoints, _ => ⟨codePoints, by rw [decodeChars]; simp⟩
  | _ + 1, [], codePoints, _ => ⟨codePoints, by rw [decodeChars]; simp⟩
  | fuel + 1, b :: src, codePoints, p => by
    rw [decodeChars]
    split
    · exact ⟨codePoints, rfl⟩
    · split
      · exact ⟨[], rfl⟩
      · exact decodeChars_fst fuel _ _ _

/-- Every decoded piece ends with a zero. -/
theorem decodeUtf8Partial_fst (src : Text) (start : PartialUtf8) : ∃ w, (decodeUtf8Partial src start).1 = w ++ [0] := by
  rw [decodeUtf8Partial]
  split
  · exact ⟨[], rfl⟩
  · exact decodeChars_fst _ _ _ _

theorem candidateOf_eq {start : PartialUtf8} {i : Nat} {data : TokenData L} {tok : Candidate}
    (h : candidateOf vocab start i data = some tok) :
    vocab.isEog data.id = false ∧ (vocab.tokenToPiece data.id).headD 0 ≠ 0 ∧
      tok = ⟨i, (decodeUtf8Partial (vocab.tokenToPiece data.id) start).1, 0,
        (decodeUtf8Partial (vocab.tokenToPiece data.id) start).2⟩ := by
  unfold candidateOf at h
  dsimp only at h
  split at h
  · cases h
  · rename_i hno
    rw [Bool.or_eq_true, not_or] at hno
    exact ⟨by simpa using hno.1, by simpa using hno.2, (Option.some.inj h).symm⟩

/-- A token that is no end of generation and is not masked by itself becomes a candidate. -/
theorem candidateOf_of_not_maskedAlone {allowEog : Bool} {data : TokenData L} (heog : vocab.isEog data.id = false)
    (h : maskedAlone vocab allowEog data = false) (start : PartialUtf8) (i : Nat) :
    ∃ tok, candidateOf vocab start i data = some tok := by
  unfold maskedAlone at h
  unfold candidateOf
  dsimp only at h ⊢
  rw [if_neg (by simp [heog])] at h
  rw [if_neg (by simpa [heog] using h)]
  exact ⟨_, rfl⟩

theorem not_maskedAlone {start : PartialUtf8} {i : Nat} {data : TokenData L} {tok : Candidate} {allowEog : Bool}
    (h : candidateOf vocab start i data = some tok) : maskedAlone vocab allowEog data = false := by
  obtain ⟨heog, hpiece, _⟩ := candidateOf_eq h
  unfold maskedAlone
  dsimp only
  rw [if_neg (by simp [heog])]
  simpa using hpiece

theorem mem_candidates {start : PartialUtf8} {tok : Candidate} :
    tok ∈ (curP.zipIdx.filterMap fun (data, i) => candidateOf vocab start i data) ↔
      ∃ i data, curP[i]? = some data ∧ candidateOf vocab start i data = some tok := by
  rw [List.mem_filterMap]
  constructor
  · rintro ⟨⟨data, i⟩, hmem, htok⟩
    exact ⟨i, data, List.mem_zipIdx_iff_getElem?.mp hmem, htok⟩
  · rintro ⟨i, data, hdata, htok⟩
    exact ⟨(data, i), List.mem_zipIdx_iff_getElem?.mpr hdata, htok⟩

/-- A stack that the piece of a token keeps. -/
def KeptToken (vocab : Vocab) (st : GrammarState) (data : TokenData L) : Prop :=
  ∃ tok, candidateOf vocab st.partialUtf8 0 data = some tok ∧
    ∃ s ∈ st.grammar.stackSet, Keeps st.grammar.rules tok.partialUtf8 tok.seen s

theorem keptToken_iff {i : Nat} {data : TokenData L} {tok : Candidate}
    (h : candidateOf vocab st.partialUtf8 i data = some tok) :
    KeptToken vocab st data ↔ ¬ ∀ s ∈ st.grammar.stackSet, Rejected st.grammar.rules s tok := by
  obtain ⟨heog, hpiece, rfl⟩ := candidateOf_eq h
  have hzero : candidateOf vocab st.partialUtf8 0 data =
      some ⟨0, (decodeUtf8Partial (vocab.tokenToPiece data.id) st.partialUtf8).1, 0,
        (decodeUtf8Partial (vocab.tokenToPiece data.id) st.partialUtf8).2⟩ := by
    unfold candidateOf
    dsimp only
    rw [if_neg (by simpa [heog] using hpiece)]
  rw [KeptToken, hzero]
  simp only [Option.some.injEq, exists_eq_left', Rejected, not_forall, not_not]
  constructor
  · rintro ⟨s, hs, hkeeps⟩
    exact ⟨s, hs, hkeeps⟩
  · rintro ⟨s, hs, hkeeps⟩
    exact ⟨s, hs, hkeeps⟩

variable (negInf vocab curP) in
/-- **What is left unmasked**: tokens of the list, and of those that are read all that some stack keeps. -/
theorem applyImpl_spec (hw : WfRules st.grammar.rules)
    (hwf : WellFounded fun m n => (cfg st.grammar.rules).LeftRef n m) (htop : Topped st.grammar.rules st.grammar.stackSet)
    (hne : st.grammar.stackSet ≠ []) (hactive : st.awaitingTrigger = false) :
    ∃ bound, ∀ fuel ≥ bound, ∃ out, applyImpl negInf vocab fuel st curP = .ok out ∧
      (∀ data ∈ out, data.logit ≠ negInf → data ∈ curP ∧ (vocab.isEog data.id = false → KeptToken vocab st data)) ∧
      ∀ data ∈ curP, KeptToken vocab st data → data ∈ out := by
  classical
  generalize hcands : (curP.zipIdx.filterMap fun (data, i) => candidateOf vocab st.partialUtf8 i data) = candidates
  have hmem : ∀ tok, tok ∈ candidates ↔ ∃ i data, curP[i]? = some data ∧ candidateOf vocab st.partialUtf8 i data = some tok :=
    fun tok => by rw [← hcands]; exact mem_candidates
  obtain ⟨len, hlen⟩ : ∃ len, ∀ tok ∈ candidates, tok.seen.length < len := by
    obtain ⟨len, hlen⟩ := exists_bound (P := fun tok len => tok.seen.length < len) candidates
      fun tok _ => ⟨tok.seen.length + 1, fun _ h => h⟩
    exact ⟨len, hlen len le_rfl⟩
  obtain ⟨bound, hfilter⟩ := rejectCandidates_perm hw hwf len st.grammar.stackSet htop hne
  refine ⟨bound, fun fuel hfuel => ?_⟩
  obtain ⟨rejects, hrun, hperm⟩ := hfilter fuel hfuel candidates hlen
  -- the index of a reject leads back to its token
  have hany : ∀ i data tok, curP[i]? = some data → candidateOf vocab st.partialUtf8 i data = some tok →
      (rejects.any (fun reject => reject.index == i) = true ↔
        ∀ s ∈ st.grammar.stackSet, Rejected st.grammar.rules s tok) := by
    intro i data tok hdata htok
    rw [List.any_eq_true]
    constructor
    · rintro ⟨reject, hreject, hindex⟩
      obtain ⟨hcand, hrejected⟩ := List.mem_filter.mp (hperm.mem_iff.mp hreject)
      obtain ⟨j, other, hother, htok'⟩ := (hmem reject).mp hcand
      have hj : reject.index = j := by
        obtain ⟨_, _, rfl⟩ := candidateOf_eq htok'
        rfl
      obtain rfl : j = i := hj.symm.trans (by simpa using hindex)
      rw [hdata] at hother
      cases hother
      rw [htok] at htok'
      cases htok'
      simpa using hrejected
    · intro hrejected
      refine ⟨tok, hperm.mem_iff.mpr (List.mem_filter.mpr
        ⟨(hmem tok).mpr ⟨i, data, hdata, htok⟩, by simpa using hrejected⟩), ?_⟩
      obtain ⟨_, _, rfl⟩ := candidateOf_eq htok
      simp
  have happly : applyImpl negInf vocab fuel st curP = .ok (curP.mapIdx fun i data =>
      if maskedAlone vocab (st.grammar.stackSet.any List.isEmpty) data || rejects.any (fun reject => reject.index == i) then
        { data with logit := negInf }
      else data) := by
    rw [applyImpl, hactive, hcands]
    show (rejectCandidates _ _ candidates >>= _) = _
    rw [hrun]
    rfl
  refine ⟨_, happly, fun data hdata hlogit => ?_, fun data hdata hkept => ?_⟩
  · obtain ⟨i, hi, heq⟩ := List.mem_mapIdx.mp hdata
    have hget : curP[i]? = some curP[i] := List.getElem?_eq_getElem hi
    split at heq
    · subst heq
      exact absurd rfl hlogit
    · rename_i hmask
      subst heq
      rw [Bool.or_eq_true, not_or] at hmask
      refine ⟨List.getElem_mem hi, fun heog => ?_⟩
      obtain ⟨tok, htok⟩ := candidateOf_of_not_maskedAlone heog (by simpa using hmask.1) st.partialUtf8 i
      rw [keptToken_iff htok, ← hany i _ tok hget htok]
      exact hmask.2
  · obtain ⟨i, hi, heq⟩ := List.mem_iff_getElem.mp hdata
    have ⟨tok, htok, _⟩ := hkept
    have hget : curP[i]? = some data := by rw [List.getElem?_eq_getElem hi, heq]
    obtain ⟨tok', htok'⟩ := candidateOf_of_not_maskedAlone (candidateOf_eq htok).1 (@not_maskedAlone _ _ _ _ _ _ false htok)
      st.partialUtf8 i
    rw [List.mem_mapIdx]
    refine ⟨i, hi, ?_⟩
    rw [heq, not_maskedAlone htok, Bool.false_or, if_neg]
    rw [hany i data tok' hget htok']
    exact (keptToken_iff htok').mp hkept

/-- Reading a piece throws when no stack survives it. -/
theorem acceptStr_iff (hw : WfRules st.grammar.rules) (hwf : WellFounded fun m n => (cfg st.grammar.rules).LeftRef n m)
    (htop : Topped st.grammar.rules st.grammar.stackSet) {data : TokenData L} {tok : Candidate}
    (htok : candidateOf vocab st.partialUtf8 0 data = some tok) : ∃ bound, ∀ fuel ≥ bound,
      ((∃ st', acceptStr fuel st (vocab.tokenToPiece data.id) = .ok (some st')) ↔ emptied fuel st.grammar tok.points =
        false) := by
  obtain ⟨bound, hrun⟩ := emptied_iff hw hwf htop tok.points
  refine ⟨bound, fun fuel hfuel => ?_⟩
  obtain ⟨g', hacc, _⟩ := hrun fuel hfuel
  obtain ⟨_, _, rfl⟩ := candidateOf_eq htok
  have hacc' : acceptAll fuel st.grammar (decodeUtf8Partial (vocab.tokenToPiece data.id) st.partialUtf8).1.dropLast =
    .ok g' :=
    hacc
  rw [acceptStr, emptied, hacc, hacc']
  show (∃ st', (if g'.stackSet.isEmpty then _ else _) = _) ↔ g'.stackSet.isEmpty = false
  cases g'.stackSet.isEmpty <;> simp

variable (negInf vocab curP) in
/-- The mask is as good as reading just when every token that some stack keeps can be read. -/
theorem neverThrows_iff (hw : WfRules st.grammar.rules)
    (hwf : WellFounded fun m n => (cfg st.grammar.rules).LeftRef n m) (htop : Topped st.grammar.rules st.grammar.stackSet)
    (hne : st.grammar.stackSet ≠ []) (hactive : st.awaitingTrigger = false) : ∃ bound, ∀ fuel ≥ bound,
      (NeverThrows negInf vocab fuel st curP ↔ ∀ data ∈ curP, data.logit ≠ negInf → KeptToken vocab st data →
        ∃ st', acceptStr fuel st (vocab.tokenToPiece data.id) = .ok (some st')) := by
  obtain ⟨bound, hmask⟩ := applyImpl_spec negInf vocab curP hw hwf htop hne hactive
  refine ⟨bound, fun fuel hfuel => ?_⟩
  obtain ⟨out, hrun, hunmasked, hkept⟩ := hmask fuel hfuel
  constructor
  · rintro ⟨out', hrun', hread⟩ data hdata hlogit hkeep
    rw [hrun] at hrun'
    cases hrun'
    have ⟨tok, htok, _⟩ := hkeep
    exact hread data (hkept data hdata hkeep) hlogit (candidateOf_eq htok).1
  · intro h
    refine ⟨out, hrun, fun data hdata hlogit heog => ?_⟩
    obtain ⟨hmem, hkeep⟩ := hunmasked data hdata hlogit
    exact h data hmem hlogit (hkeep heog)

/-- **Where no zero hides the rest of a piece, a token that is not masked can be read**, also one that ends in a part of a
character. -/
theorem unmasked_neverThrows (hw : WfRules st.grammar.rules)
    (hwf : WellFounded fun m n => (cfg st.grammar.rules).LeftRef n m) (htop : Topped st.grammar.rules st.grammar.stackSet)
    (hne : st.grammar.stackSet ≠ []) (hactive : st.awaitingTrigger = false)
    (hwhole : ∀ data ∈ curP, ∀ tok, candidateOf vocab st.partialUtf8 0 data = some tok → tok.seen = tok.points) :
    ∃ bound, ∀ fuel ≥ bound, NeverThrows negInf vocab fuel st curP := by
  obtain ⟨bound, hiff⟩ := neverThrows_iff negInf vocab curP hw hwf htop hne hactive
  obtain ⟨bound', hread⟩ := exists_bound (P := fun (data : TokenData L) fuel => KeptToken vocab st data →
      ∃ st', acceptStr fuel st (vocab.tokenToPiece data.id) = .ok (some st')) curP fun data hdata => by
    by_cases hkept : KeptToken vocab st data
    · obtain ⟨tok, htok, s, hs, hkeeps⟩ := hkept
      obtain ⟨first, hfirst⟩ := acceptStr_iff hw hwf htop htok
      obtain ⟨second, hsecond⟩ := emptied_iff hw hwf htop tok.points
      refine ⟨max first second, fun fuel hfuel _ => (hfirst fuel (by omega)).mpr ?_⟩
      obtain ⟨_, _, hiff⟩ := hsecond fuel (by omega)
      rw [← Bool.not_eq_true, hiff, not_not]
      exact ⟨s, hs, hwhole data hdata tok htok ▸ hkeeps.survives⟩
    · exact ⟨0, fun _ _ h => absurd h hkept⟩
  refine ⟨max bound bound', fun fuel hfuel => (hiff fuel (by omega)).mpr fun data hdata _ => ?_⟩
  exact hread fuel (by omega) data hdata

/-- A token is kept, and can be read, by its code points. -/
theorem keptToken_emptied (hw : WfRules st.grammar.rules)
    (hwf : WellFounded fun m n => (cfg st.grammar.rules).LeftRef n m) (htop : Topped st.grammar.rules st.grammar.stackSet)
    {data : TokenData L} (hfull : ∀ tok, candidateOf vocab st.partialUtf8 0 data = some tok → tok.partialUtf8.nRemain = 0) :
    ∃ bound, ∀ fuel ≥ bound,
      ((KeptToken vocab st data → ∃ st', acceptStr fuel st (vocab.tokenToPiece data.id) = .ok (some st')) ↔
        ∀ tok, candidateOf vocab st.partialUtf8 0 data = some tok → ReadsOn fuel st.grammar tok) := by
  cases htok : candidateOf vocab st.partialUtf8 0 data with
  | none =>
      refine ⟨0, fun fuel _ => ?_⟩
      constructor
      · rintro _ tok ⟨⟩
      · rintro _ ⟨tok, htok', _⟩
        rw [htok] at htok'
        cases htok'
  | some tok =>
      obtain ⟨first, hfirst⟩ := acceptStr_iff hw hwf htop htok
      obtain ⟨second, hsecond⟩ := emptied_iff hw hwf htop tok.seen
      refine ⟨max first second, fun fuel hfuel => ?_⟩
      obtain ⟨_, _, hseen⟩ := hsecond fuel (by omega)
      have hkept : KeptToken vocab st data ↔ emptied fuel st.grammar tok.seen = false := by
        rw [keptToken_iff htok, ← Bool.not_eq_true, hseen]
        simp [Rejected, keeps_iff_survives (hfull tok htok)]
      rw [hfirst fuel (by omega), hkept]
      constructor
      · rintro h _ ⟨⟩ _
        exact h
      · intro h hs
        by_cases heq : tok.seen = tok.points
        · rw [← heq, hs]
        · exact h tok rfl heq hs

variable (negInf vocab curP) in
/-- **The mask against reading.** For a grammar without left recursion that has stacks: the filter always ends well; where no
candidate ends in a part of a character it rejects those that leave no stack when they are accepted, and what it leaves
unmasked can be read, just when every candidate with a zero among its code points reads on behind it. -/
theorem masking_agrees_iff (hw : WfRules st.grammar.rules) (hleft : (cfg st.grammar.rules).NoLeftRecursion)
    (htop : Topped st.grammar.rules st.grammar.stackSet) (hne : st.grammar.stackSet ≠ []) :
    (∀ candidates : Candidates, (∀ tok ∈ candidates, tok.Terminated) → (∀ tok ∈ candidates, tok.partialUtf8.nRemain = 0) →
      ∃ bound, ∀ fuel ≥ bound,
        (∃ rejects, rejectCandidates (rejectCandidatesForStack st.grammar.rules fuel) st.grammar.stackSet candidates =
          .ok rejects) ∧
        (Agrees fuel st.grammar candidates ↔ ∀ tok ∈ candidates, ReadsOn fuel st.grammar tok)) ∧
    (st.awaitingTrigger = false →
      (∀ data ∈ curP, ∀ tok, candidateOf vocab st.partialUtf8 0 data = some tok → tok.partialUtf8.nRemain = 0) →
      ∃ bound, ∀ fuel ≥ bound, (NeverThrows negInf vocab fuel st curP ↔ ∀ data ∈ curP, data.logit ≠ negInf →
        ∀ tok, candidateOf vocab st.partialUtf8 0 data = some tok → ReadsOn fuel st.grammar tok)) := by
  have hwf := wellFounded_leftRef hleft
  refine ⟨fun candidates hterm hfull => agrees_iff hw hwf htop hne hterm hfull, fun hactive hfull => ?_⟩
  obtain ⟨bound, hiff⟩ := neverThrows_iff negInf vocab curP hw hwf htop hne hactive
  obtain ⟨bound', hkept⟩ := exists_bound curP fun data hdata => keptToken_emptied hw hwf htop (hfull data hdata)
  refine ⟨max bound bound', fun fuel hfuel => ?_⟩
  rw [hiff fuel (by omega)]
  apply forall₂_congr
  intro data hdata
  rw [hkept fuel (by omega) data hdata]

/-! ## A zero of two bytes -/

/-- `root ::= "a"` before anything is read. -/
def letterA : LlamaGrammar := ⟨[[⟨.char, 97⟩, ⟨.endRule, 0⟩]], [[⟨0, 0⟩]]⟩

/-- The bytes `C0 80`, an overlong zero. -/
def overlongZero : Text := [0xC0, 0x80]

/-- The token 0 has the piece `C0 80`, the token 1 `a`. -/
def overlongVocab : Vocab := ⟨fun id => if id = 0 then overlongZero else [97], fun _ => false⟩

theorem letterA_wf : WfRules letterA.rules := by
  refine ⟨fun rule hrule => ?_, fun rule hrule e he h => ?_⟩
  · rw [List.mem_singleton.mp hrule]
    refine ⟨⟨by simp, rfl⟩, ?_⟩
    refine List.isChain_cons_cons.mpr ⟨⟨by simp, by simp⟩, List.isChain_cons_cons.mpr ⟨⟨by simp, by simp⟩, ?_⟩⟩
    exact .singleton _
  · rw [List.mem_singleton.mp hrule] at he
    rcases List.mem_cons.mp he with rfl | he
    · cases h
    · rw [List.mem_singleton.mp he] at h
      cases h

theorem letterA_noLeftRecursion : (cfg letterA.rules).NoLeftRecursion := by
  refine noLeftRecursion_of_not_leftRef fun n m ⟨pre, post, hmem, hpre⟩ => ?_
  cases n with
  | succ n => cases hmem
  | zero =>
      rw [show (cfg letterA.rules).alts 0 = [[.cls (.chars true [⟨97, 97⟩])]] from rfl] at hmem
      cases pre with
      | nil => simp at hmem
      | cons s pre =>
          cases s with
          | cls k => exact Cfg.nil_notMem_lang_cls hpre
          | ref n => simp at hmem

theorem letterA_topped : Topped letterA.rules letterA.stackSet := by
  refine ⟨by decide, ?_, ?_⟩
  · intro stack hs p hp
    rw [List.mem_singleton.mp hs] at hp
    rw [List.mem_singleton.mp hp]
    exact ⟨letterA_wf.wf _ List.mem_cons_self, _, _, rfl, rfl⟩
  · intro stack hs p hp
    rw [List.mem_singleton.mp hs] at hp
    cases hp
    exact ⟨_, _, rfl, .inl rfl⟩

/-- **The overlong zero is left unmasked and cannot be read**: the filter takes its zero for the end of the piece. -/
theorem overlongZero_not_agrees : WfRules letterA.rules ∧ (cfg letterA.rules).NoLeftRecursion ∧
    Topped letterA.rules letterA.stackSet ∧
    decodeUtf8Partial overlongZero {} = ([0, 0], {}) ∧ ∀ fuel ≥ 2,
      ¬ Agrees fuel letterA [⟨0, [0, 0], 0, {}⟩] ∧
      ¬ NeverThrows (0 : Int) overlongVocab fuel ⟨letterA, {}, false⟩ [⟨0, 1⟩] := by
  refine ⟨letterA_wf, letterA_noLeftRecursion, letterA_topped, by decide +kernel, fun fuel hfuel => ?_⟩
  obtain ⟨k, rfl⟩ := Nat.exists_eq_add_of_le' hfuel
  constructor
  · rintro ⟨rejects, hrun, hperm⟩
    have hnone : rejectCandidates (rejectCandidatesForStack letterA.rules (k + 2)) letterA.stackSet [⟨0, [0, 0], 0, {}⟩] =
        .ok [] := rfl
    rw [hnone] at hrun
    cases hrun
    have hlen : ([] : Candidates).length = 1 := hperm.length_eq
    cases hlen
  · rintro ⟨out, hrun, hread⟩
    have hout : applyImpl (0 : Int) overlongVocab (k + 2) ⟨letterA, {}, false⟩ [⟨0, 1⟩] = .ok [⟨0, 1⟩] := rfl
    rw [hout] at hrun
    cases hrun
    obtain ⟨st', hst⟩ := hread ⟨0, 1⟩ List.mem_cons_self (by decide) rfl
    have hthrow : acceptStr (k + 2) ⟨letterA, {}, false⟩ (overlongVocab.tokenToPiece 0) = .ok none := rfl
    rw [hthrow] at hst
    cases hst

/-- The letter is neither rejected nor masked. -/
theorem masking_agrees_iff_letterA : (∃ bound, ∀ fuel ≥ bound,
      (∃ rejects, rejectCandidates (rejectCandidatesForStack letterA.rules fuel) letterA.stackSet [⟨0, [97, 0], 0, {}⟩] =
        .ok rejects) ∧
      (Agrees fuel letterA [⟨0, [97, 0], 0, {}⟩] ↔
        ∀ tok ∈ [(⟨0, [97, 0], 0, {}⟩ : Candidate)], ReadsOn fuel letterA tok)) ∧
    ∃ bound, ∀ fuel ≥ bound, (NeverThrows (0 : Int) overlongVocab fuel ⟨letterA, {}, false⟩ [⟨1, 1⟩] ↔
      ∀ data ∈ [(⟨1, 1⟩ : TokenData Int)], data.logit ≠ 0 → ∀ tok, candidateOf overlongVocab {} 0 data = some tok →
        ReadsOn fuel letterA tok) := by
  obtain ⟨hfilter, hmask⟩ := @masking_agrees_iff Int 0 overlongVocab ⟨letterA, {}, false⟩
    [⟨1, 1⟩] letterA_wf letterA_noLeftRecursion letterA_topped (by decide)
  refine ⟨hfilter _ ?_ ?_, hmask rfl ?_⟩
  · intro tok htok
    rw [List.mem_singleton.mp htok]
    exact ⟨by decide, rfl⟩
  · intro tok htok
    rw [List.mem_singleton.mp htok]
  · intro data hdata tok htok
    rw [List.mem_singleton.mp hdata] at htok
    obtain ⟨_, _, rfl⟩ := candidateOf_eq htok
    rfl

end Mask

end S2Moe.Grammar
