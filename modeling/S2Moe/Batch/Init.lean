import Mathlib.Data.List.Chain
import S2Moe.Batch.Split

/-!
# `llama_batch_allocr::init`: which batches are accepted

* `Input` : `llama_batch`; `Input.positions` : the positions, generated from the memory when there are none;
* `seqOk`, `coupledOk`, `orderOk` : the consistency checks. The last is the loop over `cur_seq_set` and `cur_seq_pos`;
* `init` : nothing when the batch is refused, and also when the call reads an id that is not there or leaves `int32_t`;
* `WellOrdered` : what the comments on the checks promise; `Continues` : each token is compared with the one before it;
* `orderOk_iff` : `cur_seq_pos` is never assigned and a set is never compared with the one before it, so that the loop
  only refuses positions below -1;
* `init_wellOrdered` : an accepted batch is well ordered exactly when it `Continues`.
-/

namespace S2Moe.Batch
open S2Moe.Lib

/-- `LLAMA_MAX_SEQ` -/
def maxSeq : Nat := 256

/-- `llama_batch` : a null pointer is `none`. The ids and their counts are given together, and embeddings take the place of
tokens. -/
structure Input where
  nTokens : Nat
  token : Option (Nat → Int) := none
  pos : Option (Nat → Int) := none
  seqId : Option (Nat → List Int) := none
  logits : Option (Nat → Bool) := none

/-- What is asked of a memory: the least and the greatest position of a sequence, -1 when it has none. -/
structure Positions where
  posMin : Nat → Int
  posMax : Nat → Int

def inInt32 (x : Int) : Bool := decide (-2 ^ 31 ≤ x ∧ x < 2 ^ 31)

namespace Input

def tokenOk (nVocab : Nat) (t : Int) : Bool :=
  let eagle := decide (32000 ≤ t ∧ t ≤ 151943 ∧ nVocab = 32000)
  decide (0 ≤ t) && (eagle || decide (t < nVocab))

def tokensOk (b : Input) (nVocab : Nat) : Bool :=
  match b.token with
  | none => true
  | some tok => (List.range b.nTokens).all fun i => tokenOk nVocab (tok i)

def idsOk (b : Input) (nSeqMax : Nat) : Bool :=
  match b.seqId with
  | none => true
  | some ids => (List.range b.nTokens).all fun i => (ids i).all fun s => decide (0 ≤ s ∧ s < nSeqMax)

/-- Without ids every token is one of sequence 0. -/
def ids (b : Input) (i : Nat) : List Nat :=
  match b.seqId with
  | none => [0]
  | some ids => (ids i).map Int.toNat

/-- The position after the last one of the first sequence of a token, for all the sequences of the token. -/
def autoPos (p0 : Nat → Int) : List (List Nat) → Option (List Int)
  | [] => some []
  | [] :: _ => none
  | (s :: others) :: rest =>
    (autoPos (fun r => if r ∈ s :: others then p0 s + 1 else p0 r) rest).map (p0 s :: ·)

def positions (b : Input) (memory : Option Positions) : Option (List Int) :=
  match b.pos with
  | some pos => some ((List.range b.nTokens).map pos)
  | none =>
    let p0 := fun s => match memory with
      | none => 0
      | some m => m.posMax s + 1
    autoPos p0 ((List.range b.nTokens).map b.ids)

/-- Only the last token is an output when nothing is said about them. -/
def output (b : Input) (outputAll : Bool) (i : Nat) : Bool :=
  match b.logits with
  | none => outputAll || decide (i + 1 = b.nTokens)
  | some logits => outputAll || logits i

/-- The first id of every token is read. -/
def tokenOf (ids : List Nat) (pos : Int) (output : Bool) : Option Token :=
  match ids with
  | [] => none
  | s :: others => some ⟨pos, s, others, output⟩

/-- The tokens from index `i` on. -/
def tokens (b : Input) (outputAll : Bool) : Nat → List Int → Option (List Token)
  | _, [] => some []
  | i, p :: ps =>
    (tokenOf (b.ids i) p (b.output outputAll i)).bind fun t => (tokens b outputAll (i + 1) ps).map (t :: ·)

end Input

/-! ## The checks -/

/-- The tokens of a sequence. -/
def carriers (tokens : List Token) (s : Nat) : List Token := tokens.filter fun t => decide (s ∈ t.ids)

/-- `seq_pos[s]`, with repetitions. -/
def seqPos (tokens : List Token) (s : Nat) : List Int := (carriers tokens s).map Token.pos

def seqPosMin (tokens : List Token) (s : Nat) : Int := (seqPos tokens s).min?.getD (-1)

def seqPosMax (tokens : List Token) (s : Nat) : Int := (seqPos tokens s).max?.getD (-1)

/-- `p0` : the last position in the memory. -/
def lastPos (memory : Option Positions) (s : Nat) : Int :=
  match memory with
  | none => -1
  | some m => m.posMax s

def seqOk (memory : Option Positions) (isToken : Bool) (tokens : List Token) (s : Nat) : Bool :=
  let p0 := lastPos memory s
  let lo := seqPosMin tokens s
  let span := seqPosMax tokens s - lo + 1
  decide (seqPos tokens s = []) ||
    ((decide (p0 < 0) || decide (lo = p0 + 1) || (!isToken && decide (lo = p0))) &&
      (inInt32 span && decide (span ≤ (seqPos tokens s).toFinset.card)))

/-- `seq_cpl[s0][s1]` : some token has `s1` as its first sequence and `s0` as another. -/
def seqCpl (tokens : List Token) (s0 s1 : Nat) : Bool :=
  tokens.any fun t => decide (t.first = s1 ∧ s0 ∈ t.others)

def coupledOk (memory : Option Positions) (nSeqMax : Nat) (tokens : List Token) : Bool :=
  match memory with
  | none => true
  | some m => (List.range nSeqMax).all fun s0 => (List.range nSeqMax).all fun s1 =>
      !seqCpl tokens s0 s1 || decide (m.posMin s0 = m.posMin s1 ∧ m.posMax s0 = m.posMax s1)

/-- `cur_seq_set` and `cur_seq_pos` -/
structure Order where
  seqSet : Nat → Finset Nat
  seqPos : Nat → Int

namespace Order

def start : Order := ⟨fun _ => Finset.range maxSeq, fun _ => -1⟩

/-- The set is narrowed to what all tokens of the sequence have in common; the position stays as it is. -/
def seq (t : Token) (o : Order) (s : Nat) : Option Order :=
  if o.seqSet s ∩ t.seqSet = ∅ then none
  else if t.pos < o.seqPos s then none
  else some { o with seqSet := Function.update o.seqSet s (o.seqSet s ∩ t.seqSet) }

def token (o : Order) (t : Token) : Option Order := t.ids.foldlM (Order.seq t) o

end Order

def orderOk (tokens : List Token) : Bool := (tokens.foldlM Order.token Order.start).isSome

/-- The arrays of the checks hold `nSeqMax` entries: an id outside them, such as 0 when there are none, has no entry. -/
def init (nVocab : Nat) (memory : Option Positions) (nSeqMax : Nat) (outputAll : Bool) (b : Input) : Option Allocr :=
  if b.nTokens = 0 ∨ maxSeq < nSeqMax ∨ b.tokensOk nVocab = false ∨ b.idsOk nSeqMax = false then none
  else
    (b.positions memory).bind fun pos =>
      (b.tokens outputAll 0 pos).bind fun tokens =>
        if (∀ t ∈ tokens, inInt32 t.pos ∧ ∀ s ∈ t.ids, s < nSeqMax) ∧
            (∀ s < nSeqMax, seqOk memory b.token.isSome tokens s) ∧ coupledOk memory nSeqMax tokens ∧ orderOk tokens then
          some { tokens := tokens }
        else none

/-! ## What the checks promise -/

/-- Positions do not decrease along a sequence, leave no gap and continue those of the memory, and a token is in none of the
sequences that an earlier one of a common sequence has left. -/
structure WellOrdered (memory : Option Positions) (isToken : Bool) (tokens : List Token) : Prop where
  nondecreasing : ∀ s, (seqPos tokens s).Pairwise (· ≤ ·)
  covers : ∀ s, ∀ p ∈ seqPos tokens s, ∀ q ∈ seqPos tokens s, ∀ x, p ≤ x → x ≤ q → x ∈ seqPos tokens s
  starts : ∀ s, 0 ≤ lastPos memory s → isToken = true → seqPos tokens s ≠ [] →
    lastPos memory s + 1 ∈ seqPos tokens s ∧ ∀ p ∈ seqPos tokens s, lastPos memory s + 1 ≤ p
  chain : ∀ s, ((carriers tokens s).map Token.seqSet).Pairwise (· ⊇ ·)

def Token.Follows (l t : Token) : Prop := l.pos ≤ t.pos ∧ t.seqSet ⊆ l.seqSet

instance (l t : Token) : Decidable (l.Follows t) := inferInstanceAs (Decidable (_ ∧ _))

/-- No token is before the last token of one of its sequences, or in a sequence that this one is not in. -/
def Continues (last : Nat → Option Token) : List Token → Prop
  | [] => True
  | t :: ts => (∀ s ∈ t.ids, ∀ l ∈ last s, l.Follows t) ∧ Continues (fun s => if s ∈ t.ids then some t else last s) ts

theorem Token.Follows.trans {a b c : Token} (h1 : a.Follows b) (h2 : b.Follows c) : a.Follows c :=
  ⟨h1.1.trans h2.1, h2.2.trans h1.2⟩

instance : IsTrans Token Token.Follows := ⟨fun _ _ _ => Token.Follows.trans⟩

theorem carriers_cons (t : Token) (ts : List Token) (s : Nat) :
    carriers (t :: ts) s = if s ∈ t.ids then t :: carriers ts s else carriers ts s := by
  unfold carriers
  rw [List.filter_cons]
  simp only [decide_eq_true_eq]

theorem continues_iff_isChain : ∀ (last : Nat → Option Token) (ts : List Token),
    Continues last ts ↔ ∀ s, ((last s).toList ++ carriers ts s).IsChain Token.Follows
  | last, [] => by
    refine ⟨fun _ s => ?_, fun _ => trivial⟩
    cases last s with
    | none => exact List.isChain_nil
    | some l => exact List.isChain_singleton l
  | last, t :: ts => by
    rw [Continues, continues_iff_isChain _ ts]
    constructor
    · rintro ⟨hhead, htail⟩ s
      have hs := htail s
      rw [carriers_cons]
      by_cases hmem : s ∈ t.ids
      · rw [if_pos hmem] at hs ⊢
        cases hl : last s with
        | none => exact hs
        | some l => exact List.isChain_cons_cons.mpr ⟨hhead s hmem l hl, hs⟩
      · rwa [if_neg hmem] at hs ⊢
    · intro h
      refine ⟨fun s hmem l hl => ?_, fun s => ?_⟩
      · have hs := h s
        rw [carriers_cons, if_pos hmem, Option.mem_def.mp hl] at hs
        exact (List.isChain_cons_cons.mp hs).1
      · have hs := h s
        rw [carriers_cons] at hs
        by_cases hmem : s ∈ t.ids
        · rw [if_pos hmem] at hs ⊢
          cases hl : last s with
          | none => rwa [hl] at hs
          | some l =>
              rw [hl] at hs
              exact (List.isChain_cons_cons.mp hs).2
        · rwa [if_neg hmem] at hs ⊢

/-- What each token is to the one before it, it is to all of them. -/
theorem continues_iff (tokens : List Token) :
    Continues (fun _ => none) tokens ↔ ∀ s, (carriers tokens s).Pairwise Token.Follows := by
  rw [continues_iff_isChain]
  exact forall_congr' fun s => List.isChain_iff_pairwise

/-! ## What they check -/

theorem mem_seqPos {tokens : List Token} {s : Nat} {p : Int} :
    p ∈ seqPos tokens s ↔ ∃ t ∈ tokens, s ∈ t.ids ∧ t.pos = p := by
  unfold seqPos carriers
  simp [and_assoc]

theorem seqPosMin_spec {tokens : List Token} {s : Nat} (h : seqPos tokens s ≠ []) :
    seqPosMin tokens s ∈ seqPos tokens s ∧ ∀ p ∈ seqPos tokens s, seqPosMin tokens s ≤ p := by
  unfold seqPosMin
  cases hm : (seqPos tokens s).min? with
  | none => exact absurd (List.min?_eq_none_iff.mp hm) h
  | some m => exact List.min?_eq_some_iff.mp hm

theorem seqPosMax_spec {tokens : List Token} {s : Nat} (h : seqPos tokens s ≠ []) :
    seqPosMax tokens s ∈ seqPos tokens s ∧ ∀ p ∈ seqPos tokens s, p ≤ seqPosMax tokens s := by
  unfold seqPosMax
  cases hm : (seqPos tokens s).max? with
  | none => exact absurd (List.max?_eq_none_iff.mp hm) h
  | some m => exact List.max?_eq_some_iff.mp hm

/-- As many positions as there are from the first to the last one are all of them. -/
theorem mem_seqPos_of_span {tokens : List Token} {s : Nat} (hne : seqPos tokens s ≠ [])
    (hspan : seqPosMax tokens s - seqPosMin tokens s + 1 ≤ (seqPos tokens s).toFinset.card) {x : Int}
    (hlo : seqPosMin tokens s ≤ x) (hhi : x ≤ seqPosMax tokens s) : x ∈ seqPos tokens s := by
  have hsub : (seqPos tokens s).toFinset ⊆ Finset.Icc (seqPosMin tokens s) (seqPosMax tokens s) := by
    intro p hp
    rw [List.mem_toFinset] at hp
    exact Finset.mem_Icc.mpr ⟨(seqPosMin_spec hne).2 p hp, (seqPosMax_spec hne).2 p hp⟩
  have heq := Finset.eq_of_subset_of_card_le hsub (by rw [Int.card_Icc]; omega)
  rw [← List.mem_toFinset, heq]
  exact Finset.mem_Icc.mpr ⟨hlo, hhi⟩

theorem seqOk_spec {memory : Option Positions} {isToken : Bool} {tokens : List Token} {s : Nat}
    (h : seqOk memory isToken tokens s = true) (hne : seqPos tokens s ≠ []) :
    (lastPos memory s < 0 ∨ seqPosMin tokens s = lastPos memory s + 1 ∨
        isToken = false ∧ seqPosMin tokens s = lastPos memory s) ∧
      seqPosMax tokens s - seqPosMin tokens s + 1 ≤ (seqPos tokens s).toFinset.card := by
  unfold seqOk at h
  simp only [hne, decide_false, Bool.false_or, Bool.and_eq_true, Bool.or_eq_true, decide_eq_true_eq,
    Bool.not_eq_true'] at h
  exact ⟨by tauto, h.2.2⟩

theorem Order.seq_eq_some {o o' : Order} {t : Token} {s : Nat} (hs : s ∈ o.seqSet s) (hts : s ∈ t.seqSet) :
    Order.seq t o s = some o' ↔ o.seqPos s ≤ t.pos ∧
      o' = { o with seqSet := Function.update o.seqSet s (o.seqSet s ∩ t.seqSet) } := by
  have hne : o.seqSet s ∩ t.seqSet ≠ ∅ := Finset.ne_empty_of_mem (Finset.mem_inter.mpr ⟨hs, hts⟩)
  unfold Order.seq
  rw [if_neg hne]
  split
  · rename_i hlt
    exact ⟨fun h => (by cases h), fun h => absurd h.1 (not_le.mpr hlt)⟩
  · rename_i hle
    rw [Option.some.injEq, eq_comm]
    exact ⟨fun h => ⟨not_lt.mp hle, h⟩, fun h => h.2⟩

/-- A sequence stays in its own set, and the positions stay at -1. -/
structure Order.Idle (o : Order) : Prop where
  self : ∀ s < maxSeq, s ∈ o.seqSet s
  pos : o.seqPos = fun _ => -1

theorem Order.Idle.seqs {t : Token} : ∀ (ids : List Nat) (o : Order), o.Idle → (∀ s ∈ ids, s < maxSeq ∧ s ∈ t.seqSet) →
    ids ≠ [] → ((ids.foldlM (Order.seq t) o).isSome ↔ -1 ≤ t.pos) ∧
      ∀ o' ∈ ids.foldlM (Order.seq t) o, o'.Idle
  | [], _, _, _, hne => absurd rfl hne
  | s :: ids, o, ho, hids, _ => by
    obtain ⟨hlt, hmem⟩ := hids s List.mem_cons_self
    have hstep : ∀ o', Order.seq t o s = some o' ↔ _ := fun _ => Order.seq_eq_some (ho.self s hlt) hmem
    rw [List.foldlM_cons]
    cases hseq : Order.seq t o s with
    | none =>
        refine ⟨⟨fun h => (by cases h), fun hpos => ?_⟩, fun o' h => (by cases h)⟩
        have := (hstep _).mpr ⟨by rw [ho.pos]; exact hpos, rfl⟩
        rw [hseq] at this
        cases this
    | some o1 =>
        obtain ⟨hpos, rfl⟩ := (hstep o1).mp hseq
        rw [ho.pos] at hpos
        have hidle : Order.Idle { o with seqSet := Function.update o.seqSet s (o.seqSet s ∩ t.seqSet) } := by
          refine ⟨fun r hr => ?_, ho.pos⟩
          by_cases hrs : r = s
          · subst hrs
            simp only [Function.update_self]
            exact Finset.mem_inter.mpr ⟨ho.self r hr, hmem⟩
          · simp only [Function.update_of_ne hrs]
            exact ho.self r hr
        change ((ids.foldlM (Order.seq t) _).isSome ↔ _) ∧ ∀ o' ∈ ids.foldlM (Order.seq t) _, o'.Idle
        by_cases hnil : ids = []
        · subst hnil
          refine ⟨⟨fun _ => hpos, fun _ => rfl⟩, fun o' h => ?_⟩
          cases h
          exact hidle
        · exact Order.Idle.seqs ids _ hidle (fun r hr => hids r (List.mem_cons_of_mem _ hr)) hnil

/-- **The loop over the sets and positions only refuses positions below -1.** -/
theorem orderOk_iff {tokens : List Token} (h : ∀ t ∈ tokens, ∀ s ∈ t.ids, s < maxSeq) :
    orderOk tokens ↔ ∀ t ∈ tokens, -1 ≤ t.pos := by
  have hrun : ∀ (ts : List Token) (o : Order), o.Idle → (∀ t ∈ ts, ∀ s ∈ t.ids, s < maxSeq) →
      ((ts.foldlM Order.token o).isSome ↔ ∀ t ∈ ts, -1 ≤ t.pos) := by
    intro ts
    induction ts with
    | nil => exact fun _ _ _ => ⟨fun _ t ht => absurd ht List.not_mem_nil, fun _ => rfl⟩
    | cons t ts ih =>
        intro o ho hts
        obtain ⟨hsome, hidle⟩ := Order.Idle.seqs t.ids o ho
          (fun s hs => ⟨hts t List.mem_cons_self s hs, List.mem_toFinset.mpr hs⟩) (List.cons_ne_nil _ _)
        rw [List.foldlM_cons, List.forall_mem_cons]
        change ((o.token t).isSome ↔ _) at hsome
        cases htok : o.token t with
        | none =>
            rw [htok] at hsome
            exact ⟨fun h => (by cases h), fun h => absurd (hsome.mpr h.1) (by simp)⟩
        | some o1 =>
            rw [htok] at hsome
            have hih := ih o1 (hidle o1 htok) fun u hu => hts u (List.mem_cons_of_mem _ hu)
            exact ⟨fun h => ⟨hsome.mp rfl, hih.mp h⟩, fun h => hih.mpr h.2⟩
  exact hrun tokens Order.start ⟨fun s hs => Finset.mem_range.mpr hs, rfl⟩ h

/-! ## Accepted batches -/

section Accepted
variable {nVocab nSeqMax : Nat} {memory : Option Positions} {outputAll : Bool} {b : Input} {a : Allocr}

theorem Input.length_autoPos : ∀ (p0 : Nat → Int) (ids : List (List Nat)) {pos : List Int},
    Input.autoPos p0 ids = some pos → pos.length = ids.length
  | _, [], _, h => by cases h; rfl
  | _, [] :: _, _, h => by cases h
  | _, (_ :: _) :: rest, _, h => by
    obtain ⟨pos, hpos, rfl⟩ := Option.map_eq_some_iff.mp h
    rw [List.length_cons, List.length_cons, Input.length_autoPos _ rest hpos]

theorem Input.length_positions {pos : List Int} (h : b.positions memory = some pos) : pos.length = b.nTokens := by
  unfold Input.positions at h
  split at h
  · cases h
    rw [List.length_map, List.length_range]
  · rw [Input.length_autoPos _ _ h, List.length_map, List.length_range]

theorem Input.length_tokens : ∀ (i : Nat) (pos : List Int) {tokens : List Token},
    b.tokens outputAll i pos = some tokens → tokens.length = pos.length
  | _, [], _, h => by cases h; rfl
  | i, p :: pos, _, h => by
    obtain ⟨t, -, h⟩ := Option.bind_eq_some_iff.mp h
    obtain ⟨tokens, htokens, rfl⟩ := Option.map_eq_some_iff.mp h
    rw [List.length_cons, List.length_cons, Input.length_tokens (i + 1) pos htokens]

/-- What an accepted batch has passed. -/
structure Accepted (memory : Option Positions) (nSeqMax : Nat) (b : Input) (a : Allocr) : Prop where
  start : a = { tokens := a.tokens }
  length : a.tokens.length = b.nTokens
  ids : ∀ t ∈ a.tokens, ∀ s ∈ t.ids, s < nSeqMax
  maxSeq : nSeqMax ≤ maxSeq
  seq : ∀ s < nSeqMax, seqOk memory b.token.isSome a.tokens s
  order : orderOk a.tokens

theorem init_accepted (h : init nVocab memory nSeqMax outputAll b = some a) :
    Accepted memory nSeqMax b a := by
  unfold init at h
  split at h
  · cases h
  · rename_i hfirst
    obtain ⟨pos, hpos, h⟩ := Option.bind_eq_some_iff.mp h
    obtain ⟨tokens, htokens, h⟩ := Option.bind_eq_some_iff.mp h
    have hlen := (Input.length_tokens 0 pos htokens).trans (Input.length_positions hpos)
    split at h
    · rename_i hok
      cases h
      push Not at hfirst
      exact ⟨rfl, hlen, fun t ht => (hok.1 t ht).2, hfirst.2.1, hok.2.1, hok.2.2.2⟩
    · cases h

theorem Accepted.pos_ge (h : Accepted memory nSeqMax b a) : ∀ t ∈ a.tokens, -1 ≤ t.pos :=
  (orderOk_iff fun t ht s hs => (h.ids t ht s hs).trans_le h.maxSeq).mp h.order

/-- The checks of positions against the memory and against each other hold what they promise. -/
theorem Accepted.checked (h : Accepted memory nSeqMax b a) {s : Nat}
    (hne : seqPos a.tokens s ≠ []) :
    (∀ p ∈ seqPos a.tokens s, ∀ q ∈ seqPos a.tokens s, ∀ x, p ≤ x → x ≤ q → x ∈ seqPos a.tokens s) ∧
      (0 ≤ lastPos memory s → b.token.isSome = true →
        lastPos memory s + 1 ∈ seqPos a.tokens s ∧ ∀ p ∈ seqPos a.tokens s, lastPos memory s + 1 ≤ p) := by
  obtain ⟨p, hp⟩ := List.exists_mem_of_ne_nil _ hne
  obtain ⟨t, ht, hs, -⟩ := mem_seqPos.mp hp
  obtain ⟨hstart, hspan⟩ := seqOk_spec (h.seq s (h.ids t ht s hs)) hne
  refine ⟨fun p hp q hq x hpx hxq => ?_, fun hlast htok => ?_⟩
  · exact mem_seqPos_of_span hne hspan (((seqPosMin_spec hne).2 p hp).trans hpx)
      (hxq.trans ((seqPosMax_spec hne).2 q hq))
  · have hmin : seqPosMin a.tokens s = lastPos memory s + 1 := by
      rcases hstart with hneg | hmin | ⟨hemb, -⟩
      · omega
      · exact hmin
      · rw [hemb] at htok
        cases htok
    rw [← hmin]
    exact seqPosMin_spec hne

/-- **An accepted batch is well ordered exactly when no token falls behind the last one of one of its sequences.** -/
theorem init_wellOrdered (h : init nVocab memory nSeqMax outputAll b = some a) :
    WellOrdered memory b.token.isSome a.tokens ↔ Continues (fun _ => none) a.tokens := by
  have hacc := init_accepted h
  rw [continues_iff]
  constructor
  · intro hord s
    have hpos := List.pairwise_map.mp (hord.nondecreasing s)
    have hset := List.pairwise_map.mp (hord.chain s)
    exact hpos.and hset
  · intro hfol
    refine ⟨fun s => ?_, fun s p hp q hq x hpx hxq => ?_, fun s hlast htok hne => ?_, fun s => ?_⟩
    · exact List.pairwise_map.mpr ((hfol s).imp fun h => h.1)
    · exact (hacc.checked (List.ne_nil_of_mem hp)).1 p hp q hq x hpx hxq
    · exact (hacc.checked hne).2 hlast htok
    · exact List.pairwise_map.mpr ((hfol s).imp fun h => h.2)

end Accepted

/-- Two tokens of which only the ids are given. -/
theorem init_wellOrdered_two : ∃ a, init 32 none 1 false { nTokens := 2, token := some fun _ => 0 } = some a ∧
    WellOrdered none true a.tokens := by
  have hmap : (init 32 none 1 false { nTokens := 2, token := some fun _ => 0 }).map Allocr.tokens =
      some [⟨0, 0, [], false⟩, ⟨1, 0, [], true⟩] := by decide +kernel
  obtain ⟨a, ha, hatok⟩ := Option.map_eq_some_iff.mp hmap
  refine ⟨a, ha, (init_wellOrdered ha).mpr ?_⟩
  rw [hatok]
  refine ⟨fun s _ l hl => (by cases hl), fun s hs l hl => ?_, trivial⟩
  dsimp only at hl
  rw [if_pos (show s ∈ Token.ids ⟨0, 0, [], false⟩ from hs)] at hl
  cases hl
  exact ⟨by decide, by decide⟩

/-- The two batches that the comments on the loop give as invalid. -/
def partialSets : Input :=
  { nTokens := 3, token := some fun _ => 0, pos := some fun i => [0, 1, 1].getD i 0,
    seqId := some fun i => [[0, 1, 2], [0, 1], [1, 2]].getD i [] }

def decreasing : Input :=
  { nTokens := 7, token := some fun _ => 0, pos := some fun i => [4, 5, 0, 1, 6, 2, 3].getD i 0,
    seqId := some fun i => [[0], [0], [1], [1], [0], [1], [0]].getD i [] }

/-- Both are accepted: sequence 0 goes back from position 6 to 3, and sequence 2 comes back to sequence 1. -/
theorem accepts_invalid :
    (∃ a, init 32 none 3 false decreasing = some a ∧ ¬ WellOrdered none true a.tokens) ∧
      ∃ a, init 32 none 3 false partialSets = some a ∧ ¬ WellOrdered none true a.tokens := by
  have hdec : (init 32 none 3 false decreasing).map Allocr.tokens =
      some [⟨4, 0, [], false⟩, ⟨5, 0, [], false⟩, ⟨0, 1, [], false⟩, ⟨1, 1, [], false⟩, ⟨6, 0, [], false⟩,
        ⟨2, 1, [], false⟩, ⟨3, 0, [], true⟩] := by decide +kernel
  have hpart : (init 32 none 3 false partialSets).map Allocr.tokens =
      some [⟨0, 0, [1, 2], false⟩, ⟨1, 0, [1], false⟩, ⟨1, 1, [2], true⟩] := by decide +kernel
  obtain ⟨a, ha, hatok⟩ := Option.map_eq_some_iff.mp hdec
  obtain ⟨c, hc, hctok⟩ := Option.map_eq_some_iff.mp hpart
  refine ⟨⟨a, ha, fun h => ?_⟩, ⟨c, hc, fun h => ?_⟩⟩
  · have hpos := h.nondecreasing 0
    rw [hatok] at hpos
    exact absurd hpos (by decide)
  · have hsets := h.chain 1
    rw [hctok] at hsets
    exact absurd hsets (by decide)

end S2Moe.Batch
