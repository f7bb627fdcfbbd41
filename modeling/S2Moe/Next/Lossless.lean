import S2Moe.Next.Generate

/-!
# Speculation is lossless

Both modes of `generate` emit the target's greedy continuation of the prompt.

* `greedyList` : that continuation, as a function of the prompt and the predict limit alone;
* `SoFar e` : `e` is a part of it, the rest being its own continuation of the prompt and `e`;
* `Ready r` : the loop invariant. Memory and position are at the prompt and all emitted tokens, and the root is the
  target's next token there;
* `Verifying` : the invariant of staged verification. Memory and position are one token behind the emitted ones, and
  that token is the one at the node to verify next;
* `scanRows_spec`, `verifyPath_spec`, `verify_spec`, `round_spec`, `arStep_spec` : one step each;
* `generate_eq_greedyList`, `generate_lossless` : the whole run.
-/

namespace S2Moe.Next

/-- The greedy continuation of `text`: at most `n` tokens, ending before a token that stops. -/
def greedyList (next : List Token → Token) (stop : Token → Bool) : Nat → List Token → List Token
  | 0, _ => []
  | n + 1, text => if stop (next text) then [] else next text :: greedyList next stop n (text ++ [next text])

theorem length_greedyList_le (next : List Token → Token) (stop : Token → Bool) :
    ∀ (n : Nat) (text : List Token), (greedyList next stop n text).length ≤ n
  | 0, _ => Nat.le_refl 0
  | n + 1, text => by
    rw [greedyList]
    split
    · exact Nat.zero_le _
    · rw [List.length_cons]
      exact Nat.succ_le_succ (length_greedyList_le next stop n _)

theorem stop_of_mem_greedyList (next : List Token → Token) (stop : Token → Bool) :
    ∀ (n : Nat) (text : List Token), ∀ x ∈ greedyList next stop n text, stop x = false
  | 0, _, x, hx => by cases hx
  | n + 1, text, x, hx => by
    rw [greedyList] at hx
    split at hx
    · cases hx
    · rcases List.mem_cons.mp hx with rfl | hx
      · simpa using ‹¬ stop (next text) = true›
      · exact stop_of_mem_greedyList next stop n _ x hx

/-! ## What the target has committed -/

/-- The entries of a text decoded by the target. -/
def committed (text : List Token) : List Entry := entries .target 0 text

theorem length_committed (text : List Token) : (committed text).length = text.length := length_entries _ _ _

theorem numberedFrom_committed (text : List Token) : NumberedFrom 0 (committed text) := NumberedFrom.entries _ _ _

theorem committed_append (a b : List Token) :
    committed (a ++ b) = committed a ++ entries .target (committed a).length b := by
  rw [length_committed, committed, entries_append, zero_add]
  rfl

theorem committed_ne_nil {text : List Token} (h : text ≠ []) : committed text ≠ [] := entries_ne_nil h

theorem Memory.visible_committed {m : Memory} {a b : List Token} {i : Nat} (h : m.attn = committed (a ++ b))
    (hi : i < b.length) : m.visible (a.length + i) = committed (a ++ b.take (i + 1)) := by
  have hsplit : a ++ b = (a ++ b.take (i + 1)) ++ b.drop (i + 1) := by
    rw [List.append_assoc, List.take_append_drop]
  have hlen : (a.length + i : Int) + 1 = 0 + (committed (a ++ b.take (i + 1))).length := by
    rw [length_committed, List.length_append, List.length_take]
    omega
  have hn := numberedFrom_committed (a ++ b)
  unfold Memory.visible
  rw [h]
  simp only [← Int.lt_add_one_iff]
  rw [hsplit, committed_append] at hn ⊢
  rw [hlen]
  exact hn.filter_append

section Target
variable (T : Target)

/-- The target's next token after `text`, with expert reuse off. -/
def Target.text (text : List Token) : Token := T.next false (committed text) (committed text)

/-- Row `i` of a decode behind the text `a` is the target's token after `a` and the first `i + 1` tokens. -/
theorem Target.decode_row {m m' : Memory} {a b : List Token} (hdec : m.decode .target b a.length = .ok m')
    (hrecr : m.recr = committed a) (hattn : m'.attn = committed (a ++ b)) :
    ∃ row, T.decode false m b a.length = .ok (m', row) ∧ ∀ i < b.length, row i = T.text (a ++ b.take (i + 1)) := by
  refine ⟨_, by unfold Target.decode; rw [hdec]; rfl, fun i hi => ?_⟩
  rw [Memory.visible_committed hattn hi, hrecr, take_entries, ← length_committed a, ← committed_append]
  rfl

/-- A decode of the target behind the committed text, outside a capture. -/
theorem Target.decode_spec {m : Memory} {a b : List Token} (h : m.Holds (committed a)) (hb : b ≠ [])
    (hidle : m.history.capturing = false) (hroom : a.length + b.length ≤ m.nCtx) :
    ∃ m' row, T.decode false m b a.length = .ok (m', row) ∧ m'.Holds (committed (a ++ b)) ∧ m.SameSetup m' ∧
      m'.history.capturing = false ∧ ∀ i < b.length, row i = T.text (a ++ b.take (i + 1)) := by
  have hfit : m.captureFits b (committed a).length = true := by simp [Memory.captureFits, hidle]
  obtain ⟨m', hdec, hold, h1, h2, h3⟩ := h.decode (numberedFrom_committed a) .target hb hfit
    (by rw [length_committed]; exact hroom)
  rw [← committed_append] at hold
  rw [length_committed] at hdec
  obtain ⟨row, hrow, htext⟩ := T.decode_row hdec h.2 hold.1
  exact ⟨m', row, hrow, hold, ⟨h1, h2, by rw [h3]⟩, by rw [h3]; exact hidle, htext⟩

end Target

/-! ## Partial output -/

section Loop
variable {L σ π : Type} [LinearOrder L] (T : Target) (D : Draft L σ π) (o : Options) (prompt : List Token)

/-- What both modes emit. -/
def expected : List Token := greedyList T.text (stops T o) o.predict.toNat prompt

/-- `e` is a part of the expected output, and the rest is what the target makes of the prompt and `e`. -/
def SoFar (e : List Token) : Prop :=
  e.length ≤ o.predict.toNat ∧
    e ++ greedyList T.text (stops T o) (o.predict.toNat - e.length) (prompt ++ e) = expected T o prompt

variable {T o prompt}

theorem SoFar.nil : SoFar T o prompt [] := ⟨Nat.zero_le _, by simp [expected]⟩

theorem SoFar.push {e : List Token} (h : SoFar T o prompt e) (hlt : e.length < o.predict.toNat)
    (hs : stops T o (T.text (prompt ++ e)) = false) : SoFar T o prompt (e ++ [T.text (prompt ++ e)]) := by
  obtain ⟨-, heq⟩ := h
  refine ⟨by simpa using hlt, ?_⟩
  rw [show o.predict.toNat - e.length = (o.predict.toNat - (e.length + 1)) + 1 by omega, greedyList, hs] at heq
  rw [← heq]
  simp

theorem SoFar.full {e : List Token} (h : SoFar T o prompt e) (hlen : o.predict.toNat ≤ e.length) :
    e = expected T o prompt := by
  obtain ⟨-, heq⟩ := h
  rw [show o.predict.toNat - e.length = 0 by omega, greedyList, List.append_nil] at heq
  exact heq

theorem SoFar.stop {e : List Token} (h : SoFar T o prompt e) (hs : stops T o (T.text (prompt ++ e)) = true) :
    e = expected T o prompt := by
  rcases Nat.lt_or_ge e.length o.predict.toNat with hlt | hge
  · obtain ⟨-, heq⟩ := h
    rw [show o.predict.toNat - e.length = (o.predict.toNat - (e.length + 1)) + 1 by omega, greedyList, hs] at heq
    simpa using heq
  · exact h.full hge

/-! ## One verified path -/

section Path
variable {tree : HybridTree} {dep : Nat → Nat} {limit : Nat}

/-- What the rows of a path below `v` lead to, when `text` is the part of the path that gets committed and at least `n`
tokens were out. -/
structure Scanned (T : Target) (o : Options) (prompt : List Token) (tree : HybridTree) (dep : Nat → Nat)
    (limit v n : Nat) (text : List Token) (s : Scan) : Prop where
  root : s.root = T.text text
  grown : n ≤ s.emitted.length
  soFar : SoFar T o prompt s.emitted
  outcome :
    (s.stopped = true ∧ stops T o s.root = true ∧ prompt ++ s.emitted = text) ∨
    (s.stopped = false ∧ s.alternate = none ∧ prompt ++ s.emitted = text) ∨
    (s.stopped = false ∧ ∃ c, s.alternate = some c ∧ v < c ∧ c < tree.size ∧ dep c ≤ limit ∧
      prompt ++ s.emitted = text ++ [tree.token c] ∧ s.emitted.length + limit ≤ o.predict.toNat + dep c)

/-- The rows of one path. `text` is committed, the token of `v` is emitted but not committed; the invariant moves one
node down with each accepted row. -/
theorem scanRows_spec (hshape : tree.Shape dep limit) (row : Nat → Token) {n : Nat} :
    ∀ (rest : List Nat) (v i : Nat) (s : Scan) (text : List Token), tree.FirstChildPath (v :: rest) → v < tree.size →
      s.stopped = false → s.alternate = none → prompt ++ s.emitted = text ++ [tree.token v] →
      (∀ j < (v :: rest).length, row (i + j) = T.text (text ++ ((v :: rest).map tree.token).take (j + 1))) →
      SoFar T o prompt s.emitted → s.emitted.length + limit ≤ o.predict.toNat + dep v → n ≤ s.emitted.length →
      ∃ k, 0 < k ∧ k ≤ (v :: rest).length ∧
        (scanRows T o tree row (v :: rest) i s).prefixTokens = s.prefixTokens + k ∧
        Scanned T o prompt tree dep limit v n (text ++ ((v :: rest).map tree.token).take k)
          (scanRows T o tree row (v :: rest) i s) := by
  intro rest
  induction rest with
  | nil =>
      intro v i s text hpath hv hst halt hem hrow hs _ hn
      have hleaf : tree.child v (row i) = none := by
        cases hpath with
        | leaf _ hc => simp [HybridTree.child, hc]
      have hroot : row i = T.text (text ++ [tree.token v]) := by simpa using hrow 0 (by simp)
      refine ⟨1, Nat.one_pos, by simp, ?_⟩
      rw [scanRows, hleaf]
      exact ⟨rfl, ⟨by simpa using hroot, hn, hs, .inr (.inl ⟨hst, halt, by simpa using hem⟩)⟩⟩
  | cons w rest ih =>
      intro v i s text hpath hv hst halt hem hrow hs hbudget hn
      have hroot : row i = T.text (text ++ [tree.token v]) := by simpa using hrow 0 (by simp)
      rw [scanRows]
      cases hchild : tree.child v (row i) with
      | none =>
          refine ⟨1, Nat.one_pos, by simp, rfl, ⟨by simpa using hroot, hn, hs, .inr (.inl ⟨hst, halt, by simpa using hem⟩)⟩⟩
      | some c =>
          obtain ⟨hc, htok⟩ := HybridTree.child_some hchild
          obtain ⟨hlt, hsz, hdep, hle⟩ := hshape v hv c hc
          have htext : T.text (prompt ++ s.emitted) = row i := by rw [hem, hroot]
          cases hstop : stops T o (row i) with
          | true =>
              simp only [if_true]
              exact ⟨1, Nat.one_pos, by simp, rfl,
                ⟨by simpa using hroot, hn, hs, .inl ⟨rfl, hstop, by simpa using hem⟩⟩⟩
          | false =>
              have hpush : SoFar T o prompt (s.emitted ++ [row i]) := by
                have := hs.push (by omega) (by rw [htext]; exact hstop)
                rwa [htext] at this
              have hem' : prompt ++ (s.emitted ++ [row i]) = (text ++ [tree.token v]) ++ [tree.token c] := by
                rw [← List.append_assoc, hem, htok]
              have hbudget' : (s.emitted ++ [row i]).length + limit ≤ o.predict.toNat + dep c := by
                rw [List.length_append, List.length_singleton]
                omega
              have hn' : n ≤ (s.emitted ++ [row i]).length := by
                rw [List.length_append]
                omega
              simp only [Bool.false_eq_true, if_false, List.head?_cons]
              by_cases hw : w = c
              · -- the drafted child itself: go on down the path
                subst hw
                simp only [ne_eq, not_true_eq_false, if_false]
                have hpath' : tree.FirstChildPath (w :: rest) := by
                  cases hpath with
                  | step _ _ _ _ hp => exact hp
                obtain ⟨k, hk, hkl, hpre, hroot', hg', hs', hout⟩ := ih w (i + 1)
                  { s with
                    prefixTokens := s.prefixTokens + 1
                    root := row i
                    reachedLeaf := (tree.children v).isEmpty
                    emitted := s.emitted ++ [row i]
                    accepted := s.accepted + 1 }
                  (text ++ [tree.token v]) hpath' hsz hst halt hem'
                  (fun j hj => by
                    have := hrow (j + 1) (by simpa using hj)
                    rw [show i + 1 + j = i + (j + 1) by omega, this]
                    simp) hpush hbudget' hn'
                have htake : text ++ ((v :: w :: rest).map tree.token).take (k + 1) =
                    (text ++ [tree.token v]) ++ ((w :: rest).map tree.token).take k := by simp
                refine ⟨k + 1, Nat.succ_pos k, Nat.succ_le_succ hkl, hpre.trans (by simp only; omega), ?_⟩
                rw [htake]
                refine ⟨hroot', hg', hs', hout.imp_right (Or.imp_right ?_)⟩
                rintro ⟨h1, d, h2, hwd, h3⟩
                exact ⟨h1, d, h2, hlt.trans hwd, h3⟩
              · -- a sibling: the batch ends here and the sibling's own path is verified next
                simp only [ne_eq, Option.some.injEq, hw, not_false_eq_true, if_true]
                exact ⟨1, Nat.one_pos, by simp, rfl, ⟨by simpa using hroot, hn', hpush,
                  .inr (.inr ⟨hst, c, rfl, hlt, hsz, hle, by simpa using hem', hbudget'⟩)⟩⟩

/-- A memory made for the options: room for prompt and output, and for one verification batch. -/
structure Enough (o : Options) (m : Memory) : Prop where
  nCtx : o.context.toNat ≤ m.nCtx
  nUbatch : (o.draft + 1).toNat ≤ m.nUbatch
  capacity : o.ar = false → (o.draft + 1).toNat ≤ m.history.capacity

theorem Enough.same {o : Options} {m m' : Memory} (h : Enough o m) (hs : m.SameSetup m') : Enough o m' where
  nCtx := hs.1 ▸ h.nCtx
  nUbatch := hs.2.1 ▸ h.nUbatch
  capacity har := hs.2.2 ▸ h.capacity har

/-- Memory and position are at `text`. -/
structure At (o : Options) (m : Memory) (pos : Int) (text : List Token) : Prop where
  holds : m.Holds (committed text)
  pos : pos = text.length
  idle : m.history.capturing = false
  enough : Enough o m

/-- The invariant of `while (current >= 0)`. -/
structure Verifying (T : Target) (o : Options) (prompt : List Token) (tree : HybridTree) (dep : Nat → Nat)
    (limit n current : Nat) (r : Round) (text : List Token) : Prop where
  at_ : At o r.mem r.pos text
  emitted : prompt ++ r.emitted = text ++ [tree.token current]
  running : r.stopped = false
  grown : n ≤ r.emitted.length
  soFar : SoFar T o prompt r.emitted
  lt : current < tree.size
  dep_le : dep current ≤ limit
  budget : r.emitted.length + limit ≤ o.predict.toNat + dep current

/-- What a round that starts with `n` tokens out must leave to the generation loop. -/
def RoundOver (T : Target) (o : Options) (prompt : List Token) (n : Nat) (mem : Memory) (pos : Int) (root : Token)
    (emitted : List Token) (stopped : Bool) : Prop :=
  n ≤ emitted.length ∧ SoFar T o prompt emitted ∧
    ((stopped = true ∧ stops T o (T.text (prompt ++ emitted)) = true) ∨
      (stopped = false ∧ o.predict.toNat ≤ emitted.length) ∨
      (stopped = false ∧ At o mem pos (prompt ++ emitted) ∧ root = T.text (prompt ++ emitted)))

theorem verifyPath_spec (hshape : tree.Shape dep limit) (har : o.ar = false) (hreuse : o.reuse = false)
    (hdraft : limit + 1 ≤ (o.draft + 1).toNat) (hcap : prompt.length + o.predict.toNat ≤ o.context.toNat) {n current : Nat}
    {r : Round} {text : List Token} (h : Verifying T o prompt tree dep limit n current r text) :
    ∃ r' alternate, verifyPath T o tree current r = .ok (r', alternate) ∧
      ((∃ c text', alternate = some c ∧ current < c ∧ Verifying T o prompt tree dep limit n c r' text') ∨
        ((r'.stopped = true ∨ alternate = none) ∧
          RoundOver T o prompt n r'.mem r'.pos r'.root r'.emitted r'.stopped)) := by
  obtain ⟨p, hp, hplen⟩ := hshape.path h.lt h.dep_le
  obtain ⟨hfirst, -⟩ := HybridTree.pathFrom_firstChild _ _ hp
  have hb := h.budget
  have hsum := congrArg List.length h.emitted
  simp only [List.length_append, List.length_singleton] at hsum
  have henough := h.at_.enough
  have hctx := henough.nCtx
  have hub := henough.nUbatch
  have hcapacity := henough.capacity har
  have hlen : ((current :: p).map tree.token).length = p.length + 1 := by simp
  have hbatch : (current :: p).map tree.token ≠ [] := by simp
  have hs := h.soFar.1
  obtain ⟨m₁, m₂, m₃, hbegin, hrecr, hdec, hattn, hfinish, hcommit⟩ := h.at_.holds.verification
    (numberedFrom_committed text) hbatch (by omega) (by omega) (by rw [length_committed]; omega)
  rw [← committed_append] at hattn
  rw [length_committed] at hbegin hdec
  obtain ⟨row, hrow, htext⟩ := T.decode_row hdec hrecr hattn
  obtain ⟨k, hk, hkl, hpre, hroot, hg', hs', hout⟩ := scanRows_spec hshape row p current 0
    { root := r.root, emitted := r.emitted, stopped := r.stopped, accepted := r.accepted
      reachedLeaf := r.reachedLeaf, treeSwitches := r.treeSwitches }
    text hfirst h.lt h.running rfl h.emitted (fun j hj => by rw [Nat.zero_add]; exact htext j (by simpa using hj))
    h.soFar h.budget h.grown
  generalize hscan : scanRows T o tree row (current :: p) 0 _ = s at hpre hroot hg' hs' hout
  rw [Nat.zero_add] at hpre
  obtain ⟨m₄, hcom, hold, hsame, hidle⟩ := hcommit k hk (by rw [hlen]; simpa using hkl)
  rw [← committed_append] at hold
  have hrun : verifyPath T o tree current r = .ok ({
      mem := m₄, pos := r.pos + k, root := s.root, emitted := s.emitted, stopped := s.stopped
      accepted := s.accepted, reachedLeaf := s.reachedLeaf, treeSwitches := s.treeSwitches
      verificationBatches := r.verificationBatches + 1 }, s.alternate) := by
    unfold verifyPath
    rw [hp, hreuse, h.at_.pos]
    simp only [hbegin, hrow, hfinish, hscan, hpre, hcom, require, if_true, bind, Except.bind]
  have hat : At o m₄ (r.pos + k) (text ++ ((current :: p).map tree.token).take k) := by
    refine ⟨hold, ?_, hidle, henough.same hsame⟩
    rw [h.at_.pos, List.length_append, List.length_take, hlen]
    push_cast
    simp only [List.length_cons] at hkl
    omega
  refine ⟨_, _, hrun, ?_⟩
  rcases hout with ⟨hst, hstop, heq⟩ | ⟨hst, halt, heq⟩ | ⟨hst, c, halt, hlt, hsz, hle, heq, hbud⟩
  · exact .inr ⟨.inl hst, hg', hs', .inl ⟨hst, by rw [heq, ← hroot]; exact hstop⟩⟩
  · exact .inr ⟨.inr halt, hg', hs', .inr (.inr ⟨hst, by rw [heq]; exact hat, by rw [heq]; exact hroot⟩)⟩
  · exact .inl ⟨c, _, halt, hlt, hat, heq, hst, hg', hs', hsz, hle, hbud⟩

/-- Staged verification: a sibling comes later in the node vector than the node before it, so the steps suffice. -/
theorem verify_spec (hshape : tree.Shape dep limit) (har : o.ar = false) (hreuse : o.reuse = false)
    (hdraft : limit + 1 ≤ (o.draft + 1).toNat) (hcap : prompt.length + o.predict.toNat ≤ o.context.toNat)
    {n : Nat} : ∀ (fuel current : Nat) (r : Round) (text : List Token), Verifying T o prompt tree dep limit n current r text →
      tree.size < current + fuel →
      ∃ r', verify T o tree fuel current r = .ok r' ∧ RoundOver T o prompt n r'.mem r'.pos r'.root r'.emitted r'.stopped
  | 0, current, r, text, h, hf => by
    have := h.lt
    omega
  | fuel + 1, current, r, text, h, hf => by
    obtain ⟨r', alternate, hrun, hout⟩ := verifyPath_spec hshape har hreuse hdraft hcap h
    rw [verify, hrun]
    simp only [bind, Except.bind]
    by_cases hend : r'.stopped = true ∨ o.predict ≤ r'.emitted.length
    · rw [if_pos hend]
      refine ⟨r', rfl, ?_⟩
      rcases hout with ⟨c, text', -, -, hv⟩ | ⟨-, hover⟩
      · refine ⟨hv.grown, hv.soFar, .inr (.inl ⟨hv.running, ?_⟩)⟩
        have hrun := hv.running
        rcases hend with hst | hle
        · rw [hrun] at hst
          cases hst
        · omega
      · exact hover
    · rw [if_neg hend]
      rcases hout with ⟨c, text', rfl, hlt, hv⟩ | ⟨hst | rfl, hover⟩
      · exact verify_spec hshape har hreuse hdraft hcap fuel c r' text' hv (by omega)
      · exact absurd (.inl hst) hend
      · exact ⟨r', rfl, hover⟩

end Path

/-! ## One step of the generation loop -/

/-- The invariant of the generation loop. -/
structure Ready (T : Target) (o : Options) (prompt : List Token) (r : Run) : Prop where
  at_ : At o r.mem r.pos (prompt ++ r.emitted)
  root : r.root = T.text (prompt ++ r.emitted)
  soFar : SoFar T o prompt r.emitted

theorem toNat_limit_le (hpredict : 0 ≤ o.predict) (hdraft : 0 ≤ o.draft) (n : Nat) (hn : n ≤ o.predict.toNat) :
    (o.limit n).toNat + 1 ≤ (o.draft + 1).toNat ∧ n + (o.limit n).toNat ≤ o.predict.toNat := by
  have h1 : o.limit n ≤ o.draft := by
    unfold Options.limit
    omega
  have h2 : o.limit n ≤ o.predict - n := by
    unfold Options.limit
    omega
  omega

/-- A speculative round, from the invariant with the root emitted. -/
theorem round_spec (hpredict : 0 ≤ o.predict) (hdraft : 0 ≤ o.draft) (har : o.ar = false) (hreuse : o.reuse = false)
    (hne : prompt ≠ []) (hcap : prompt.length + o.predict.toNat ≤ o.context.toNat) {r : Run} {e : List Token}
    (hat : At o r.mem r.pos (prompt ++ e)) (hem : r.emitted = e ++ [r.root]) (hs : SoFar T o prompt r.emitted) :
    ∃ r', round T D o r = .ok r' ∧
      RoundOver T o prompt r.emitted.length r'.mem r'.pos r'.root r'.emitted r'.stopped := by
  obtain ⟨hlim, hbudget⟩ := toNat_limit_le hpredict hdraft r.emitted.length hs.1
  have hlen : r.emitted.length = e.length + 1 := by rw [hem, List.length_append, List.length_singleton]
  have hctx := hat.enough.nCtx
  have hpos : r.pos = (committed (prompt ++ e)).length := by rw [hat.pos, length_committed]
  obtain ⟨built, dep, hbuild, hd⟩ := buildTree_spec o.prune.maxNodes D o.branches (numberedFrom_committed (prompt ++ e))
    hat.holds hat.idle r.root (o.limit r.emitted.length)
    (by rw [length_committed, List.length_append]; omega)
  obtain ⟨mem, hrestore, hold, h1, h2, h3⟩ := hd.restore (numberedFrom_committed _)
    (committed_ne_nil (by simp [hne])) hat.holds
  obtain ⟨v, hv, hover⟩ := verify_spec hd.shape har hreuse hlim hcap (built.tree.size + 1) 0
    { mem := mem, pos := r.pos, root := r.root, emitted := r.emitted
      treeSwitches := r.treeSwitches, verificationBatches := r.verificationBatches } (prompt ++ e)
    ⟨⟨hold, hat.pos, by rw [h3]; exact hat.idle, hat.enough.same ⟨h1, h2, by rw [h3]⟩⟩,
      by rw [hd.token_zero, hem, List.append_assoc], rfl, le_rfl, hs, hd.pos, by rw [hd.dep_zero]; exact Nat.zero_le _,
      by rw [hd.dep_zero]; exact hbudget⟩ (by omega)
  refine ⟨r.endRound built.tree.size v, ?_, hover⟩
  unfold round
  rw [hpos, hbuild]
  simp only [bind, Except.bind, hrestore]
  rw [hpos] at hv
  rw [hv]

/-- The probe leaves the memory as it found it. -/
theorem probe_spec (hne : prompt ≠ []) (hub : o.probeBatch2At < 0 ∨ 2 ≤ o.ubatch) {r : Run} {e : List Token}
    (hat : At o r.mem r.pos (prompt ++ e)) (hroom : (prompt ++ e).length + 2 ≤ o.context.toNat) :
    ∃ m, probe T o r = .ok m ∧ At o m r.pos (prompt ++ e) := by
  unfold probe
  split
  · have hne' : committed (prompt ++ e) ≠ [] := committed_ne_nil (by simp [hne])
    have hsnap := hat.holds.snapshot (numberedFrom_committed _)
    -- a decode behind the text, then the snapshot of the text
    have hback : ∀ {m m' : Memory} {b : List Token}, At o m r.pos (prompt ++ e) →
        m'.Holds (committed ((prompt ++ e) ++ b)) → m.SameSetup m' → m'.history.capturing = false →
        ∃ m'', m'.restore r.mem.snapshot = .ok m'' ∧ At o m'' r.pos (prompt ++ e) := by
      intro m m' b hm hold hsame hidle
      have hn := numberedFrom_committed ((prompt ++ e) ++ b)
      rw [committed_append] at hold hn
      obtain ⟨m'', hres, hold', h1, h2, h3⟩ := Memory.restore_prefix hne' hn hold.1
      rw [← hsnap] at hres
      exact ⟨m'', hres, hold', hm.pos, by rw [h3]; exact hidle,
        (hm.enough.same hsame).same ⟨h1, h2, by rw [h3]⟩⟩
    obtain ⟨m₁, row, hdec₁, hold₁, hsame₁, hidle₁, -⟩ := T.decode_spec hat.holds (List.cons_ne_nil r.root []) hat.idle
      (by have := hat.enough.nCtx; rw [List.length_singleton]; omega)
    obtain ⟨m₂, hres₂, hat₂⟩ := hback hat hold₁ hsame₁ hidle₁
    obtain ⟨m₃, row', hdec₃, hold₃, hsame₃, hidle₃, -⟩ := T.decode_spec hat₂.holds
      (List.cons_ne_nil r.root [row 0]) hat₂.idle (hroom.trans hat₂.enough.nCtx)
    obtain ⟨m₄, hres₄, hat₄⟩ := hback hat₂ hold₃ hsame₃ hidle₃
    refine ⟨m₄, ?_, hat₄⟩
    have hub' : decide (2 ≤ o.ubatch) = true := by
      rw [decide_eq_true_eq]
      omega
    simp only [hub', require, if_true, hat.pos, hdec₁, hres₂, hdec₃, hres₄, bind, Except.bind]
  · exact ⟨r.mem, rfl, hat⟩

/-- One step of `ar` mode, from the invariant with the root emitted. -/
theorem arStep_spec (hne : prompt ≠ []) (hub : o.probeBatch2At < 0 ∨ 2 ≤ o.ubatch)
    (hcap : prompt.length + o.predict.toNat ≤ o.context.toNat) {r : Run} {e : List Token}
    (hat : At o r.mem r.pos (prompt ++ e)) (hem : r.emitted = e ++ [r.root]) (hs : SoFar T o prompt r.emitted)
    (hlt : r.emitted.length < o.predict.toNat) : ∃ r', arStep T o r = .ok r' ∧ r'.emitted = r.emitted ∧
      r'.stopped = r.stopped ∧ Ready T o prompt r' := by
  have hlen : r.emitted.length = e.length + 1 := by rw [hem, List.length_append, List.length_singleton]
  obtain ⟨m, hprobe, hm⟩ := probe_spec (T := T) hne hub hat (by rw [List.length_append]; omega)
  obtain ⟨m', row, hdec, hold, hsame, hidle, hrow⟩ := T.decode_spec hm.holds (List.cons_ne_nil r.root []) hm.idle
    (by have := hm.enough.nCtx; rw [List.length_append, List.length_singleton]; omega)
  have htext : (prompt ++ e) ++ [r.root] = prompt ++ r.emitted := by rw [hem, List.append_assoc]
  rw [htext] at hold
  refine ⟨{ r with mem := m', pos := r.pos + 1, root := row 0 }, ?_, rfl, rfl,
    ⟨⟨hold, ?_, hidle, hm.enough.same hsame⟩, ?_, hs⟩⟩
  · unfold arStep
    simp only [hprobe, hat.pos, hdec, bind, Except.bind]
  · rw [← htext, hat.pos]
    simp only [List.length_append, List.length_singleton]
    push_cast
    rfl
  · rw [← htext]
    simpa using hrow 0 (by simp)

/-! ## The whole run -/

/-- The options that `parse` lets through, as far as the run depends on them. -/
structure Valid (o : Options) : Prop where
  predict : 0 ≤ o.predict
  draft : 0 ≤ o.draft
  draft_le : o.draft ≤ 31
  context : 0 < o.context
  ubatch : o.draft + 1 ≤ o.ubatch

/-- The generation loop emits at least one token in each step, so the steps suffice. -/
theorem loop_spec (hv : Valid o) (hne : prompt ≠ []) (hreuse : o.ar = false → o.reuse = false)
    (hprobe : o.ar = true → o.probeBatch2At < 0 ∨ 2 ≤ o.ubatch)
    (hcap : prompt.length + o.predict.toNat ≤ o.context.toNat) :
    ∀ (fuel : Nat) (r : Run), Ready T o prompt r ∨ (SoFar T o prompt r.emitted ∧ o.predict.toNat ≤ r.emitted.length) →
      o.predict.toNat < r.emitted.length + fuel →
      ∃ r', loop T D o fuel r = .ok r' ∧ r'.emitted = expected T o prompt
  | 0, r, h, hf => by
    have : SoFar T o prompt r.emitted := h.elim (·.soFar) (·.1)
    have := this.1
    omega
  | fuel + 1, r, h, hf => by
    rw [loop]
    by_cases hlt : (r.emitted.length : Int) < o.predict
    swap
    · have hs : SoFar T o prompt r.emitted := h.elim (·.soFar) (·.1)
      rw [if_neg hlt]
      exact ⟨r, rfl, hs.full (by omega)⟩
    rw [if_pos hlt]
    rcases h with h | ⟨-, hfull⟩
    swap
    · omega
    have hroot := h.root
    cases hstop : stops T o r.root with
    | true =>
        rw [if_pos rfl]
        exact ⟨r, rfl, h.soFar.stop (by rw [← hroot]; exact hstop)⟩
    | false =>
        have hs : SoFar T o prompt (r.emitted ++ [r.root]) := by
          rw [hroot] at hstop ⊢
          exact h.soFar.push (by omega) hstop
        rw [if_neg Bool.false_ne_true]
        simp only
        have hlen : (r.emitted ++ [r.root]).length = r.emitted.length + 1 := by
          rw [List.length_append, List.length_singleton]
        by_cases hlast : ((r.emitted ++ [r.root]).length : Int) = o.predict
        · rw [if_pos hlast]
          exact ⟨_, rfl, hs.full (by omega)⟩
        rw [if_neg hlast]
        cases har : o.ar with
        | true =>
            obtain ⟨r', hstep, hem, -, hready⟩ := arStep_spec hne (hprobe har) hcap
              (r := { r with emitted := r.emitted ++ [r.root] }) h.at_ rfl hs (by simp only; omega)
            rw [if_pos rfl, hstep]
            exact loop_spec hv hne hreuse hprobe hcap fuel r' (.inl hready) (by rw [hem]; simp only; omega)
        | false =>
            obtain ⟨r', hstep, hg, hs', hover⟩ := round_spec (D := D) hv.predict hv.draft har (hreuse har) hne hcap
              (r := { r with emitted := r.emitted ++ [r.root] }) h.at_ rfl hs
            rw [if_neg Bool.false_ne_true, hstep]
            simp only [bind, Except.bind]
            simp only at hg
            rcases hover with ⟨hst, hstop'⟩ | ⟨hst, hfull⟩ | ⟨hst, hat, hroot'⟩
            · rw [hst, if_pos rfl]
              exact ⟨r', rfl, hs'.stop hstop'⟩
            · rw [hst, if_neg Bool.false_ne_true]
              exact loop_spec hv hne hreuse hprobe hcap fuel r' (.inr ⟨hs', hfull⟩) (by omega)
            · rw [hst, if_neg Bool.false_ne_true]
              exact loop_spec hv hne hreuse hprobe hcap fuel r' (.inl ⟨hat, hroot', hs'⟩) (by omega)

/-- The prefill: after the chunks so far the memory holds `done`; the last row of the last chunk is the first root. -/
theorem prefill_spec (hub : 0 < o.ubatch) :
    ∀ (fuel : Nat) (m : Memory) (tokens done : List Token) (off : Int) (root : Token), m.Holds (committed done) →
      m.history.capturing = false → tokens.length < fuel → done.length + tokens.length ≤ m.nCtx →
      (tokens ≠ [] → off = done.length) → (tokens = [] → root = T.text done) →
      ∃ m', prefill T o fuel m tokens off root = .ok (m', T.text (done ++ tokens)) ∧
        m'.Holds (committed (done ++ tokens)) ∧ m'.history.capturing = false ∧ m.SameSetup m'
  | 0, m, tokens, done, off, root, _, _, hf, _, _, _ => by omega
  | fuel + 1, m, tokens, done, off, root, h, hidle, hf, hroom, hoff, hroot => by
    rw [prefill]
    by_cases ht : tokens = []
    · subst ht
      rw [if_pos rfl, hroot rfl, List.append_nil]
      exact ⟨m, rfl, h, hidle, rfl, rfl, rfl⟩
    rw [if_neg ht, hoff ht]
    have hpos : 0 < tokens.length := List.length_pos_of_ne_nil ht
    have hlen : (tokens.take o.ubatch.toNat).length = min o.ubatch.toNat tokens.length := List.length_take
    have hchunk : tokens.take o.ubatch.toNat ≠ [] := by
      rw [← List.length_pos_iff, hlen]
      omega
    obtain ⟨m', row, hdec, hold, hsame, hidle', hrow⟩ := T.decode_spec h hchunk hidle (by omega)
    simp only [hdec, bind, Except.bind]
    have hlast : row ((tokens.take o.ubatch.toNat).length - 1) = T.text (done ++ tokens.take o.ubatch.toNat) := by
      rw [hrow _ (by omega), Nat.sub_add_cancel (by omega), List.take_of_length_le le_rfl]
    have hdone : (done ++ tokens.take o.ubatch.toNat) ++ tokens.drop o.ubatch.toNat = done ++ tokens := by
      rw [List.append_assoc, List.take_append_drop]
    obtain ⟨m'', hpre, hold', hidle'', hsame'⟩ := prefill_spec hub fuel m' (tokens.drop o.ubatch.toNat)
      (done ++ tokens.take o.ubatch.toNat) (done.length + o.ubatch) _ hold hidle'
      (by rw [List.length_drop]; omega)
      (by rw [hsame.1, List.length_append, hlen, List.length_drop]; omega)
      (fun hd => by
        have : 0 < (tokens.drop o.ubatch.toNat).length := List.length_pos_of_ne_nil hd
        rw [List.length_drop] at this
        rw [List.length_append, hlen]
        omega)
      (fun _ => hlast)
    rw [hdone] at hpre hold'
    exact ⟨m'', hpre, hold', hidle'', hsame'.1.trans hsame.1, hsame'.2.1.trans hsame.2.1, hsame'.2.2.trans hsame.2.2⟩

theorem le_ggmlPad (x : Nat) {n : Nat} (hn : 0 < n) : x ≤ ggmlPad x n := by
  have h := Nat.div_add_mod (x + n - 1) n
  have hlt := Nat.mod_lt (x + n - 1) hn
  unfold ggmlPad
  rw [Nat.mul_comm]
  omega

/-- The memory that `generate` starts with: for the draft the history is reserved. -/
theorem reserve_spec (hv : Valid o) :
    ∃ m, (if o.ar then (true, Memory.create o) else (Memory.create o).historyReserve (o.draft + 1).toNat) = (true, m) ∧
      Enough o m ∧ m.Holds [] ∧ m.history.capturing = false := by
  have h1 := hv.draft_le
  have h2 := hv.ubatch
  have h3 := hv.draft
  have hctx : o.context.toNat ≤ (Memory.create o).nCtx := le_ggmlPad _ (by omega)
  have hub : (o.draft + 1).toNat ≤ (Memory.create o).nUbatch := by
    simp only [Memory.create]
    omega
  cases har : o.ar with
  | true => exact ⟨_, rfl, ⟨hctx, hub, by simp [har]⟩, ⟨rfl, rfl⟩, rfl⟩
  | false =>
      have hzero : (Memory.create o).history.capacity = 0 := rfl
      refine ⟨{ Memory.create o with history := { capacity := (o.draft + 1).toNat } }, ?_, ⟨hctx, hub, fun _ => le_rfl⟩,
        ⟨rfl, rfl⟩, rfl⟩
      rw [if_neg Bool.false_ne_true, Memory.historyReserve, if_neg (by omega), hzero, if_neg (by omega), if_neg (by omega)]
      rfl

/-- **Both modes emit the greedy continuation**, or refuse the prompt with the same message. -/
theorem generate_eq_greedyList (prompt : List Token) (hv : Valid o) (hreuse : o.ar = false → o.reuse = false)
    (hprobe : o.ar = true → o.probeBatch2At < 0 ∨ 2 ≤ o.ubatch) :
    (generate T D o prompt).map Run.emitted =
      if prompt = [] then .error "prompt must tokenize to at least one token"
      else if prompt.length + o.predict ≤ o.context then .ok (expected T o prompt)
      else .error "prompt + output exceeds context capacity" := by
  obtain ⟨m, hres, henough, hold, hidle⟩ := reserve_spec hv
  unfold generate
  simp only [hres, require, if_true, bind, Except.bind]
  by_cases hne : prompt = []
  · subst hne
    rfl
  have hne' : prompt.isEmpty = false := by simpa using hne
  by_cases hfit : prompt.length + o.predict ≤ o.context
  swap
  · simp [hne, hne', hfit, Except.map]
  have h1 := hv.predict
  have h2 := hv.draft
  have h3 := hv.ubatch
  have hctx := henough.nCtx
  obtain ⟨m', hpre, hold', hidle', hsame⟩ := prefill_spec (T := T) (o := o) (by omega) (prompt.length + 1) m prompt [] 0 0
    hold hidle (by omega) (by rw [List.length_nil]; omega) (fun _ => rfl) (fun h => absurd h hne)
  rw [List.nil_append] at hpre hold'
  obtain ⟨r', hloop, hem⟩ := loop_spec (T := T) (D := D) hv hne hreuse hprobe (by omega) (o.predict.toNat + 1)
    { mem := m', pos := prompt.length, root := T.text prompt }
    (.inl ⟨⟨by rw [List.append_nil]; exact hold', by rw [List.append_nil], hidle', henough.same hsame⟩,
      by rw [List.append_nil], SoFar.nil⟩) (by simp)
  simp [hne, hne', hfit, hpre, hloop, hem, Except.map]

theorem require_bind {α : Type} {c : Bool} {msg : String} {f : Unit → Except String α} {a : α}
    (h : (require c msg >>= f) = .ok a) : c = true ∧ f () = .ok a := by
  cases c with
  | false => cases h
  | true => exact ⟨rfl, h⟩

theorem Options.validate_ok (h : o.validate = .ok ()) : Valid o := by
  unfold Options.validate at h
  obtain ⟨-, h⟩ := require_bind h
  obtain ⟨-, h⟩ := require_bind h
  obtain ⟨hlimits, h⟩ := require_bind h
  obtain ⟨hdraft, h⟩ := require_bind h
  obtain ⟨hub, -⟩ := require_bind h
  rw [decide_eq_true_eq] at hlimits hdraft hub
  exact ⟨hlimits.1, hdraft.1, hdraft.2, hlimits.2.1, hub.1⟩

/-- **Speculation is lossless.** Whatever the target, the draft and its pruning, for all options that `parse` accepts
and with expert reuse off, the speculative mode emits what the `ar` mode emits on the same prompt, or refuses it with
the same message. The output is the target's greedy continuation: at most `predict` tokens, none that ends generation. -/
theorem generate_lossless (T : Target) (D : Draft L σ π) (o : Options) (hvalid : o.validate = .ok ())
    (hspec : o.ar = false) (hreuse : o.reuse = false) (probeAt : Int) (hprobe : probeAt < 0 ∨ 2 ≤ o.ubatch)
    (prompt : List Token) :
    (generate T D o prompt).map Run.emitted =
        (generate T D { o with ar := true, probeBatch2At := probeAt } prompt).map Run.emitted ∧
      (prompt ≠ [] → prompt.length + o.predict ≤ o.context →
        ∃ r, generate T D o prompt = .ok r ∧
          r.emitted = greedyList T.text (stops T o) o.predict.toNat prompt ∧
          r.emitted.length ≤ o.predict ∧ ∀ x ∈ r.emitted, stops T o x = false) := by
  have hv := Options.validate_ok hvalid
  have hmode := generate_eq_greedyList (T := T) (D := D) prompt hv (fun _ => hreuse) (fun h => by
    rw [hspec] at h
    cases h)
  have href := generate_eq_greedyList (T := T) (D := D) (o := { o with ar := true, probeBatch2At := probeAt })
    prompt ⟨hv.predict, hv.draft, hv.draft_le, hv.context, hv.ubatch⟩ (fun h => by cases h) (fun _ => hprobe)
  refine ⟨hmode.trans href.symm, fun hne hfit => ?_⟩
  rw [if_neg hne, if_pos hfit] at hmode
  cases hrun : generate T D o prompt with
  | error e =>
      rw [hrun] at hmode
      cases hmode
  | ok r =>
      rw [hrun] at hmode
      have hem : r.emitted = expected T o prompt := by
        injection hmode
      have hpredict := hv.predict
      have hle := length_greedyList_le T.text (stops T o) o.predict.toNat prompt
      refine ⟨r, rfl, hem, ?_, ?_⟩
      · rw [hem, expected]
        omega
      · rw [hem]
        exact stop_of_mem_greedyList _ _ _ _

end Loop

/-- A target over three tokens that counts the entries it sees, and an end-of-generation token it never picks. -/
def countTarget : Target where
  next _ attn _ := attn.length % 3
  isEog t := t == 3

theorem generate_lossless_countTarget :
    (generate countTarget rankDraft { model := "m", branches := 2, predict := 5 } [1, 2]).map Run.emitted =
        (generate countTarget rankDraft { model := "m", branches := 2, predict := 5, ar := true } [1, 2]).map Run.emitted :=
  (generate_lossless countTarget rankDraft { model := "m", branches := 2, predict := 5 }
    (by simp [Options.validate, require, bind, Except.bind]) rfl (by decide) (-1) (by decide) [1, 2]).1

end S2Moe.Next
