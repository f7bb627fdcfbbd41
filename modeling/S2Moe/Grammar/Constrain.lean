import Mathlib
import S2Moe.Grammar.Accept
import S2Moe.Grammar.Mask
import S2Moe.Lib.Settles

/-!
# What a grammar has read

* `Allowed`, `applyImpl_settles` : the mask is applied to each candidate alone;
* `decoded` : the code points of the pieces, one behind the other;
* `Reading` : the grammar has read them from the stacks it started with;
* `Reading.acceptStr` : a piece is read just where the text stays the beginning of a word;
* `Reading.readable_of_allowed`, `Reading.allowed_of_readable` : the tokens that are left are those that can be read, where no
zero is among the code points of a token and none ends inside a character.
-/

namespace S2Moe.Grammar
open S2Moe.Lib

/-! ## The mask, one candidate at a time -/

section Mask
variable {L : Type} {negInf : L} {vocab : Vocab} {st : GrammarState} {curP : List (TokenData L)}

variable (vocab st) in
/-- What the grammar says of a token alone. -/
def Allowed (id : Nat) : Prop :=
  if vocab.isEog id then [] ∈ st.grammar.stackSet else KeptToken vocab st (⟨id, ()⟩ : TokenData Unit)

/-- A grammar that can be read on with. -/
structure Ready (g : LlamaGrammar) : Prop where
  wf : WfRules g.rules
  leftRef : WellFounded fun m n => (cfg g.rules).LeftRef n m
  topped : Topped g.rules g.stackSet
  ne : g.stackSet ≠ []

variable (negInf vocab st) in
open scoped Classical in
noncomputable def masked (data : TokenData L) : TokenData L :=
  if Allowed vocab st data.id then data else { data with logit := negInf }

theorem mem_rejects {candidates rejects : Candidates}
    (hcands : candidates = curP.zipIdx.filterMap fun x => candidateOf vocab st.partialUtf8 x.2 x.1)
    (hrejects : ∀ tok, tok ∈ rejects ↔ tok ∈ candidates ∧ ∀ s ∈ st.grammar.stackSet, Rejected st.grammar.rules s tok)
    {i : Nat} {data : TokenData L} (hdata : curP[i]? = some data) :
    rejects.any (fun reject => reject.index == i) = true ↔
      ∃ tok, candidateOf vocab st.partialUtf8 i data = some tok ∧
        ∀ s ∈ st.grammar.stackSet, Rejected st.grammar.rules s tok := by
  have hmem : ∀ tok, tok ∈ candidates ↔ ∃ j d, curP[j]? = some d ∧ candidateOf vocab st.partialUtf8 j d = some tok := by
    intro tok
    rw [hcands]
    exact mem_candidates
  rw [List.any_eq_true]
  constructor
  · rintro ⟨reject, hreject, hindex⟩
    obtain ⟨hcand, hrejected⟩ := (hrejects reject).mp hreject
    obtain ⟨j, d, hd, htok⟩ := (hmem reject).mp hcand
    obtain ⟨-, -, rfl⟩ := candidateOf_eq htok
    obtain rfl : j = i := by simpa using hindex
    rw [hdata] at hd
    cases hd
    exact ⟨_, htok, hrejected⟩
  · rintro ⟨tok, htok, hrejected⟩
    refine ⟨tok, (hrejects tok).mpr ⟨(hmem tok).mpr ⟨i, data, hdata, htok⟩, hrejected⟩, ?_⟩
    obtain ⟨-, -, rfl⟩ := candidateOf_eq htok
    exact beq_self_eq_true i

/-- The condition of the loop that masks. -/
theorem not_allowed_iff {rejects : Candidates} {i : Nat} {data : TokenData L}
    (hany : rejects.any (fun reject => reject.index == i) = true ↔
      ∃ tok, candidateOf vocab st.partialUtf8 i data = some tok ∧
        ∀ s ∈ st.grammar.stackSet, Rejected st.grammar.rules s tok) :
    (maskedAlone vocab (st.grammar.stackSet.any List.isEmpty) data || rejects.any fun reject => reject.index == i) = true ↔
      ¬ Allowed vocab st data.id := by
  rw [Bool.or_eq_true, hany, Allowed]
  by_cases heog : vocab.isEog data.id = true
  · have hnone : ∀ tok, candidateOf vocab st.partialUtf8 i data ≠ some tok := fun tok htok => by
      rw [(candidateOf_eq htok).1] at heog
      cases heog
    have hempty : st.grammar.stackSet.any List.isEmpty = true ↔ [] ∈ st.grammar.stackSet := by
      simp [List.isEmpty_iff]
    rw [if_pos heog, maskedAlone, if_pos heog, Bool.not_eq_true', ← Bool.not_eq_true, hempty]
    exact or_iff_left fun h => h.elim fun tok htok => hnone tok htok.1
  · rw [if_neg heog]
    rw [Bool.not_eq_true] at heog
    have heq : maskedAlone vocab (st.grammar.stackSet.any List.isEmpty) data =
        ((vocab.tokenToPiece data.id).headD 0 == 0) := if_neg (by rw [heog]; exact Bool.false_ne_true)
    by_cases hpiece : (vocab.tokenToPiece data.id).headD 0 = 0
    · refine iff_of_true (.inl (heq.trans (beq_iff_eq.mpr hpiece))) ?_
      rintro ⟨tok, htok, -⟩
      exact (candidateOf_eq htok).2.1 hpiece
    · have halone : maskedAlone vocab (st.grammar.stackSet.any List.isEmpty) data = false :=
        heq.trans (beq_eq_false_iff_ne.mpr hpiece)
      obtain ⟨tok, htok⟩ := candidateOf_of_not_maskedAlone heog halone st.partialUtf8 i
      have hunit : candidateOf vocab st.partialUtf8 i (⟨data.id, ()⟩ : TokenData Unit) = some tok := htok
      rw [halone, keptToken_iff hunit, htok]
      simp

variable (negInf vocab curP) in
/-- **The mask is applied to each candidate alone.** -/
theorem applyImpl_settles (h : Ready st.grammar) (hactive : st.awaitingTrigger = false) :
    Settles (fun fuel => applyImpl negInf vocab fuel st curP) (.ok (curP.map (masked negInf vocab st))) := by
  classical
  generalize hcands : (curP.zipIdx.filterMap fun x => candidateOf vocab st.partialUtf8 x.2 x.1) = candidates
  obtain ⟨len, hlen⟩ := exists_bound (P := fun tok len => tok.seen.length < len) candidates
    fun tok _ => ⟨tok.seen.length + 1, fun _ h => h⟩
  obtain ⟨bound, hfilter⟩ := rejectCandidates_perm h.wf h.leftRef len st.grammar.stackSet h.topped h.ne
  refine ⟨bound, fun fuel hfuel => ?_⟩
  obtain ⟨rejects, hrun, hperm⟩ := hfilter fuel hfuel candidates (hlen len le_rfl)
  have hrejects : ∀ tok, tok ∈ rejects ↔
      tok ∈ candidates ∧ ∀ s ∈ st.grammar.stackSet, Rejected st.grammar.rules s tok := fun tok => by
    rw [hperm.mem_iff, List.mem_filter, decide_eq_true_iff]
  have happly : applyImpl negInf vocab fuel st curP = .ok (curP.mapIdx fun i data =>
      if maskedAlone vocab (st.grammar.stackSet.any List.isEmpty) data || rejects.any (fun reject => reject.index == i) then
        { data with logit := negInf }
      else data) := by
    rw [applyImpl, hactive]
    show (rejectCandidates _ _ (curP.zipIdx.filterMap fun x => candidateOf vocab st.partialUtf8 x.2 x.1) >>= _) = _
    rw [hcands, hrun]
    rfl
  show applyImpl negInf vocab fuel st curP = _
  rw [happly]
  congr 1
  apply List.ext_getElem?
  intro i
  rw [List.getElem?_mapIdx, List.getElem?_map]
  cases hdata : curP[i]? with
  | none => rfl
  | some data =>
      have hiff := not_allowed_iff (mem_rejects hcands.symm hrejects hdata)
      show some _ = some _
      congr 1
      by_cases hallowed : Allowed vocab st data.id
      · rw [masked, if_pos hallowed]
        exact if_neg fun hmask => hiff.mp hmask hallowed
      · rw [masked, if_neg hallowed]
        exact if_pos (hiff.mpr hallowed)

end Mask

/-! ## What has been read -/

section Reading
variable {vocab : Vocab} {rules : Rules} {start : Stacks} {texts : List Text} {st : GrammarState} {g : LlamaGrammar}

/-- The code points of the pieces, one behind the other. -/
def decoded (texts : List Text) : List UInt32 := (feed {} texts).codePoints

/-- What a piece adds to them. -/
def newPoints (texts : List Text) (piece : Text) : List UInt32 :=
  (decodeUtf8Partial piece (feed {} texts).partial_).1.dropLast

theorem feed_concat (piece : Text) : ∀ (texts : List Text) (p : PartialUtf8),
    (feed p (texts ++ [piece])).codePoints =
      (feed p texts).codePoints ++ (decodeUtf8Partial piece (feed p texts).partial_).1.dropLast ∧
    (feed p (texts ++ [piece])).partial_ = (decodeUtf8Partial piece (feed p texts).partial_).2 := by
  intro texts
  induction texts with
  | nil => exact fun p => ⟨List.append_nil _, rfl⟩
  | cons text texts ih =>
      intro p
      obtain ⟨hpoints, hpartial⟩ := ih (decodeUtf8Partial text p).2
      refine ⟨?_, hpartial⟩
      show _ ++ (feed (decodeUtf8Partial text p).2 (texts ++ [piece])).codePoints = _
      rw [hpoints, ← List.append_assoc]
      rfl

theorem decoded_concat (texts : List Text) (piece : Text) :
    decoded (texts ++ [piece]) = decoded texts ++ newPoints texts piece := (feed_concat piece texts {}).1

/-- Code points that can be gone on with. -/
theorem survives_iff (h : Ready g) (hprod : (cfg g.rules).Productive) (w : List UInt32) :
    (∃ t ∈ g.stackSet, Survives g.rules w t) ↔ ∃ v, w ++ v ∈ words g.rules g.stackSet := by
  obtain ⟨bound, stackSet, hrun, htop, hwords⟩ := acceptAll_words w h.wf h.leftRef h.topped
  rw [← acceptAll_ne_nil (hrun bound le_rfl)]
  have hmem : ∀ v, v ∈ words g.rules stackSet ↔ w ++ v ∈ words g.rules g.stackSet := fun v => by
    rw [hwords, Language.mem_leftQuotient]
  constructor
  · intro hne
    obtain ⟨v, hv⟩ := Topped.words_empty h.wf hprod hne
    exact ⟨v, (hmem v).mp hv⟩
  · rintro ⟨v, hv⟩ hnil
    obtain ⟨stack, hstack, -⟩ := (hmem v).mpr hv
    rw [show stackSet = [] from hnil] at hstack
    cases hstack

variable (rules start texts st) in
/-- **The grammar has read the texts** from the stacks it started with. -/
structure Reading : Prop where
  rules_eq : st.grammar.rules = rules
  ready : Ready st.grammar
  words_eq : words rules st.grammar.stackSet = (words rules start).leftQuotient (decoded texts)
  partial_eq : st.partialUtf8 = (feed {} texts).partial_
  active : st.awaitingTrigger = false

/-- The stacks that a grammar starts with, where its text can be read. -/
theorem initImpl_settles {grammarStr grammarRoot : Text} {parser : Parser} {root : UInt32}
    (hparse : parse grammarStr = .ok parser) (hname : (parser.symbolIds.lookup rootName).isSome)
    (hroot : parser.symbolIds.lookup grammarRoot = some root) (hdef : root.toNat < parser.rules.length)
    (hleft : (cfg parser.rules).NoLeftRecursion) : ∃ stackSet,
      Settles (fun fuel => initImpl fuel grammarStr grammarRoot) (.ok (some ⟨parser.rules, stackSet⟩)) ∧
        Topped parser.rules stackSet ∧ words parser.rules stackSet = (cfg parser.rules).ruleLang root.toNat := by
  obtain ⟨bound, stackSet, hinit, htop, hwords⟩ := initRules_words (parse_wf hparse) hleft hdef
  refine ⟨stackSet, ⟨bound, fun fuel hfuel => ?_⟩, htop, hwords⟩
  have hne : parser.rules.isEmpty = false := by
    cases h : parser.rules with
    | nil =>
        rw [h] at hdef
        cases hdef
    | cons => rfl
  show initImpl fuel grammarStr grammarRoot = _
  rw [initImpl, hparse]
  simp only [hne, Bool.false_eq_true, if_false, Option.isNone_iff_eq_none, Option.isSome_iff_ne_none.mp hname, hroot]
  exact hinit fuel hfuel

/-- Where every alternate has a word, so has every rule. -/
theorem exists_mem_ruleLang (hprod : (cfg rules).Productive) {n : Nat} (hn : n < rules.length) :
    ∃ w, w ∈ (cfg rules).ruleLang n := by
  have hrule : rules[n]? = some rules[n] := List.getElem?_eq_getElem hn
  have hne : (cfg rules).alts n ≠ [] := by
    rw [alts_eq hrule]
    simp [alternateStarts]
  obtain ⟨alt, halt⟩ := List.exists_mem_of_ne_nil _ hne
  obtain ⟨w, hmem⟩ := hprod n alt halt
  exact ⟨w, alt, halt, hmem⟩

namespace Reading

theorem mem_words (h : Reading rules start texts st) (v : List UInt32) :
    v ∈ words rules st.grammar.stackSet ↔ decoded texts ++ v ∈ words rules start := by
  rw [h.words_eq, Language.mem_leftQuotient]

/-- What has been read is the beginning of a word. -/
theorem readable (h : Reading rules start texts st) (hprod : (cfg rules).Productive) :
    ∃ v, decoded texts ++ v ∈ words rules start := by
  obtain ⟨v, hv⟩ := Topped.words_empty (h.rules_eq ▸ h.ready.wf) hprod h.ready.ne
  exact ⟨v, (h.mem_words v).mp hv⟩

theorem nil_mem (h : Reading rules start texts st) : [] ∈ st.grammar.stackSet ↔ decoded texts ∈ words rules start := by
  have htop : Topped rules st.grammar.stackSet := h.rules_eq ▸ h.ready.topped
  rw [← htop.nil_mem_words, h.mem_words, List.append_nil]

/-- **A piece is read** just where the text stays the beginning of a word. -/
theorem acceptStr (h : Reading rules start texts st) (hprod : (cfg rules).Productive) (piece : Text) :
    (∃ v, decoded (texts ++ [piece]) ++ v ∈ words rules start) ∧
        (∃ st', Reading rules start (texts ++ [piece]) st' ∧
          Settles (fun fuel => Grammar.acceptStr fuel st piece) (.ok (some st'))) ∨
      (¬ ∃ v, decoded (texts ++ [piece]) ++ v ∈ words rules start) ∧
        Settles (fun fuel => Grammar.acceptStr fuel st piece) (.ok none) := by
  obtain ⟨rfl, hready, hwords, hpartial, hactive⟩ := h
  obtain ⟨bound, stackSet, hrun, htop, hwords'⟩ :=
    acceptAll_words (newPoints texts piece) hready.wf hready.leftRef hready.topped
  have hlang : words st.grammar.rules stackSet =
      (words st.grammar.rules start).leftQuotient (decoded (texts ++ [piece])) := by
    rw [hwords', hwords, decoded_concat, Language.leftQuotient_append]
  have hacc : ∀ fuel ≥ bound, Grammar.acceptStr fuel st piece =
      if stackSet.isEmpty then .ok none
      else .ok (some { st with
        grammar := ⟨st.grammar.rules, stackSet⟩
        partialUtf8 := (decodeUtf8Partial piece (feed {} texts).partial_).2 }) := by
    intro fuel hfuel
    rw [Grammar.acceptStr, hpartial]
    show (acceptAll fuel st.grammar (newPoints texts piece) >>= _) = _
    rw [hrun fuel hfuel]
    rfl
  have hmem : ∀ v, v ∈ words st.grammar.rules stackSet ↔ decoded (texts ++ [piece]) ++ v ∈ words st.grammar.rules start :=
    fun v => by rw [hlang, Language.mem_leftQuotient]
  by_cases hne : stackSet = []
  · refine .inr ⟨?_, bound, fun fuel hfuel => ?_⟩
    · rintro ⟨v, hv⟩
      obtain ⟨stack, hstack, -⟩ := (hmem v).mpr hv
      rw [hne] at hstack
      cases hstack
    · exact (hacc fuel hfuel).trans (if_pos (List.isEmpty_iff.mpr hne))
  · refine .inl ⟨?_, { st with
      grammar := ⟨st.grammar.rules, stackSet⟩
      partialUtf8 := (decodeUtf8Partial piece (feed {} texts).partial_).2 },
      ⟨rfl, ⟨hready.wf, hready.leftRef, htop, hne⟩, hlang, ?_, hactive⟩, bound, fun fuel hfuel => ?_⟩
    · obtain ⟨v, hv⟩ := Topped.words_empty hready.wf hprod hne
      exact ⟨v, (hmem v).mp hv⟩
    · exact (feed_concat piece texts {}).2.symm
    · exact (hacc fuel hfuel).trans (if_neg (fun hempty => hne (List.isEmpty_iff.mp hempty)))

theorem allowed_eog (h : Reading rules start texts st) {id : Nat} (heog : vocab.isEog id = true) :
    Allowed vocab st id ↔ decoded texts ∈ words rules start := by
  rw [Allowed, if_pos heog, h.nil_mem]

/-- The candidate of a token, where its piece has no zero. -/
theorem seen_eq (h : Reading rules start texts st) {id : Nat} {tok : Candidate}
    (htok : candidateOf vocab st.partialUtf8 0 (⟨id, ()⟩ : TokenData Unit) = some tok)
    (hzero : 0 ∉ newPoints texts (vocab.tokenToPiece id)) : tok.seen = newPoints texts (vocab.tokenToPiece id) := by
  obtain ⟨-, -, rfl⟩ := candidateOf_eq htok
  obtain ⟨w, hw⟩ := decodeUtf8Partial_fst (vocab.tokenToPiece id) st.partialUtf8
  rw [newPoints, ← h.partial_eq, hw, List.dropLast_concat] at hzero ⊢
  show ((w ++ [0]).drop 0).takeWhile _ = w
  have hall : ∀ c ∈ w, decide (c ≠ 0) = true := fun c hc => decide_eq_true (ne_of_mem_of_not_mem hc hzero)
  rw [List.drop_zero, List.takeWhile_append_of_pos hall]
  exact List.append_nil w

theorem survives_iff (h : Reading rules start texts st) (hprod : (cfg rules).Productive) (piece : Text) :
    (∃ t ∈ st.grammar.stackSet, Survives rules (newPoints texts piece) t) ↔
      ∃ v, decoded (texts ++ [piece]) ++ v ∈ words rules start := by
  have hiff := Grammar.survives_iff h.ready (by rw [h.rules_eq]; exact hprod) (newPoints texts piece)
  rw [h.rules_eq] at hiff
  rw [hiff]
  apply exists_congr
  intro v
  rw [h.mem_words, decoded_concat, List.append_assoc]

/-- A token that is left can be read. -/
theorem readable_of_allowed (h : Reading rules start texts st) (hprod : (cfg rules).Productive) {id : Nat}
    (heog : vocab.isEog id = false) (hzero : 0 ∉ newPoints texts (vocab.tokenToPiece id)) (hallowed : Allowed vocab st id) :
    ∃ v, decoded (texts ++ [vocab.tokenToPiece id]) ++ v ∈ words rules start := by
  rw [Allowed, if_neg (by rw [heog]; exact Bool.false_ne_true)] at hallowed
  obtain ⟨tok, htok, s, hs, hkeeps⟩ := hallowed
  have hsurvives := hkeeps.survives
  rw [h.seen_eq htok hzero, h.rules_eq] at hsurvives
  exact (h.survives_iff hprod _).mp ⟨s, hs, hsurvives⟩

/-- A token that ends with a character is left where it can be read. -/
theorem allowed_of_readable (h : Reading rules start texts st) (hprod : (cfg rules).Productive) {id : Nat}
    (heog : vocab.isEog id = false) (hhead : (vocab.tokenToPiece id).headD 0 ≠ 0)
    (hwhole : (feed {} (texts ++ [vocab.tokenToPiece id])).partial_.nRemain = 0)
    (hzero : 0 ∉ newPoints texts (vocab.tokenToPiece id))
    (hread : ∃ v, decoded (texts ++ [vocab.tokenToPiece id]) ++ v ∈ words rules start) : Allowed vocab st id := by
  rw [Allowed, if_neg (by rw [heog]; exact Bool.false_ne_true)]
  have halone : maskedAlone vocab false (⟨id, ()⟩ : TokenData Unit) = false :=
    (if_neg (by rw [heog]; exact Bool.false_ne_true)).trans (beq_eq_false_iff_ne.mpr hhead)
  obtain ⟨tok, htok⟩ := candidateOf_of_not_maskedAlone heog halone st.partialUtf8 0
  obtain ⟨s, hs, hsurvives⟩ := (h.survives_iff hprod _).mpr hread
  refine ⟨tok, htok, s, hs, (keeps_iff_survives ?_).mpr ?_⟩
  · rw [(feed_concat _ texts {}).2, ← h.partial_eq] at hwhole
    obtain ⟨-, -, rfl⟩ := candidateOf_eq htok
    exact hwhole
  · rw [h.seen_eq htok hzero, h.rules_eq]
    exact hsurvives

end Reading
end Reading

theorem listRules_productive : (cfg listRules).Productive := by
  have halts : (cfg listRules).alts 0 = [[.cls (.chars true [⟨97, 97⟩]), .ref 0], [.cls (.chars true [⟨98, 98⟩])]] := rfl
  have hhit : ∀ c : UInt32, CharClass.Hit (.chars true [⟨c, c⟩]) c := fun c => by simp [CharClass.Hit]
  have hb : [98] ∈ (cfg listRules).lang [.cls (.chars true [⟨98, 98⟩])] := Cfg.lang_cls.mpr ⟨hhit 98, .nil⟩
  intro n alt halt
  cases n with
  | succ n => cases halt
  | zero =>
      rw [halts] at halt
      rcases List.mem_cons.mp halt with rfl | halt
      · refine ⟨[97] ++ [98], Cfg.lang_cls.mpr ⟨hhit 97, ?_⟩⟩
        exact Cfg.lang_ref.mpr ⟨_, by rw [halts]; exact List.mem_cons_of_mem _ List.mem_cons_self, hb⟩
      · rw [List.mem_singleton.mp halt]
        exact ⟨_, hb⟩

end S2Moe.Grammar
