import S2Moe.Grammar.Parser
import Mathlib.Tactic

/-!
# `decode_utf8` of the pieces of a text

The pieces of the tokens are decoded one after the other; a character may be cut between two of them.

* `decodeUtf8Partial` : one piece, from the partial state behind the piece before it;
* `feed` : the code points of the pieces, whether all are valid, and the state at the end;
* `scan` : the same byte by byte, where every byte continues or begins a character as it should, `Continued`;
* `decodeUtf8_cuts_iff` : the cuts make no difference exactly for such texts, and for texts of continuation bytes only;
the code points of a well-formed text are the standard ones.
-/

namespace S2Moe.Grammar

/-- `llama_partial_utf8` -/
structure PartialUtf8 where
  value : UInt32 := 0
  nRemain : Int := 0
deriving DecidableEq

/-- How many bytes follow a first byte; negative for a byte that is none. -/
def remaining (firstByte : UInt8) : Int :=
  [1, 1, 1, 1, 1, 1, 1, 1, 0, 0, 0, 0, 2, 2, 3, 4].getD (firstByte >>> 4).toNat 0 - 1

def shiftIn (value : UInt32) (byte : UInt8) : UInt32 := (value <<< 6) + (byte &&& 0x3F).toUInt32

def firstValue (firstByte : UInt8) (nRemain : Nat) : UInt32 := (firstByte &&& UInt8.ofNat (2 ^ (7 - nRemain) - 1)).toUInt32

/-- The loop that continues the previous decode; nothing at a byte that does not continue a character. -/
def continuePrevious : Int → Text → UInt32 → Option (UInt32 × Int × Text)
  | n, [], value => some (value, n, [])
  | n, b :: pos, value =>
    if b ≠ 0 ∧ 0 < n then if b >>> 6 ≠ 2 then none else continuePrevious (n - 1) pos (shiftIn value b)
    else some (value, n, b :: pos)

/-- The inner loop of the other one, which takes what comes. -/
def takeBytes : Nat → Text → UInt32 → UInt32 × Nat × Text
  | 0, pos, value => (value, 0, pos)
  | n + 1, [], value => (value, n + 1, [])
  | n + 1, b :: pos, value => if b = 0 then (value, n + 1, b :: pos) else takeBytes n pos (shiftIn value b)

/-- The loop over the characters that begin in the piece; each turn takes a byte. -/
def decodeChars : Nat → Text → List UInt32 → PartialUtf8 → List UInt32 × PartialUtf8
  | fuel + 1, firstByte :: pos, codePoints, p =>
    if firstByte = 0 then (codePoints ++ [0], p)
    else if remaining firstByte < 0 then ([0], ⟨0, remaining firstByte⟩)
    else
      let n := (remaining firstByte).toNat
      let r := takeBytes n pos (firstValue firstByte n)
      decodeChars fuel r.2.2 (if r.2.1 = 0 then codePoints ++ [r.1] else codePoints) ⟨r.1, r.2.1⟩
  | _, _, codePoints, p => (codePoints ++ [0], p)

/-- `decode_utf8` with a partial state. -/
def decodeUtf8Partial (src : Text) (start : PartialUtf8) : List UInt32 × PartialUtf8 :=
  match continuePrevious start.nRemain src start.value with
  | none => ([0], ⟨0, -1⟩)
  | some (value, nRemain, pos) =>
    decodeChars pos.length pos (if 0 < start.nRemain ∧ nRemain = 0 then [value] else []) ⟨value, nRemain⟩

/-! ## The pieces of a text -/

structure Fed where
  codePoints : List UInt32
  valid : Bool
  partial_ : PartialUtf8
deriving DecidableEq

/-- The terminating zeros are dropped. -/
def feed (p : PartialUtf8) : List Text → Fed
  | [] => ⟨[], true, p⟩
  | src :: pieces =>
    let d := decodeUtf8Partial src p
    let r := feed d.2 pieces
    ⟨d.1.dropLast ++ r.codePoints, decide (0 ≤ d.2.nRemain) && r.valid, r.partial_⟩

def Independent (src : Text) : Prop := ∀ pieces : List Text, pieces.flatten = src → feed {} pieces = feed {} [src]

/-- The bytes begin and continue characters, where the first `n` of them still belong to one that began before. -/
def Continued : Nat → Text → Prop
  | _, [] => True
  | 0, b :: src => 0 ≤ remaining b ∧ Continued (remaining b).toNat src
  | n + 1, b :: src => b >>> 6 = 2 ∧ Continued n src

instance decidableContinued : ∀ (n : Nat) (src : Text), Decidable (Continued n src)
  | _, [] => isTrue trivial
  | 0, b :: src =>
    have := decidableContinued (remaining b).toNat src
    inferInstanceAs (Decidable (0 ≤ remaining b ∧ Continued (remaining b).toNat src))
  | n + 1, b :: src =>
    have := decidableContinued n src
    inferInstanceAs (Decidable (b >>> 6 = 2 ∧ Continued n src))

/-- The code points are those of the characters that end in the text, as many as there are. -/
def Standard (src : Text) (text : List Char) (r : Fed) : Prop :=
  r.valid = true ∧ ∃ k, r.codePoints = (text.take k).map Char.val ∧ (text.take k).flatMap String.utf8EncodeChar <+: src ∧
    ∀ c, text[k]? = some c → ¬ (text.take k ++ [c]).flatMap String.utf8EncodeChar <+: src

/-! ## Byte by byte -/

/-- A byte that ends a character yields its code point. -/
def emit (n : Nat) (value : UInt32) : List UInt32 := if n = 0 then [value] else []

def scan : UInt32 → Nat → Text → List UInt32 × PartialUtf8
  | value, n, [] => ([], ⟨value, n⟩)
  | _, 0, b :: src =>
    let n := (remaining b).toNat
    let r := scan (firstValue b n) n src
    (emit n (firstValue b n) ++ r.1, r.2)
  | value, n + 1, b :: src =>
    let r := scan (shiftIn value b) n src
    (emit n (shiftIn value b) ++ r.1, r.2)

section Scan
variable {src : Text} {value : UInt32} {n : Nat}

theorem scan_append : ∀ (value : UInt32) (n : Nat) (s t : Text), scan value n (s ++ t) =
    ((scan value n s).1 ++ (scan (scan value n s).2.value (scan value n s).2.nRemain.toNat t).1,
      (scan (scan value n s).2.value (scan value n s).2.nRemain.toNat t).2)
  | value, n, [], t => by simp [scan]
  | value, 0, b :: s, t => by simp [scan, scan_append _ _ s t]
  | value, n + 1, b :: s, t => by simp [scan, scan_append _ _ s t]

theorem continued_append : ∀ (value : UInt32) (n : Nat) (s t : Text),
    Continued n (s ++ t) ↔ Continued n s ∧ Continued (scan value n s).2.nRemain.toNat t
  | value, n, [], t => by simp [scan, Continued]
  | value, 0, b :: s, t => by
    rw [List.cons_append, Continued, Continued, continued_append (firstValue b (remaining b).toNat), scan, and_assoc]
  | value, n + 1, b :: s, t => by
    rw [List.cons_append, Continued, Continued, continued_append (shiftIn value b), scan, and_assoc]

theorem nRemain_scan : ∀ (value : UInt32) (n : Nat) (s : Text), 0 ≤ (scan value n s).2.nRemain
  | _, n, [] => Int.natCast_nonneg n
  | _, 0, _ :: s => nRemain_scan _ _ s
  | _, _ + 1, _ :: s => nRemain_scan _ _ s

end Scan

/-! ## The loops -/

section Loops
variable {src : Text} {value : UInt32} {n : Nat}

/-- Without a byte that does not continue a character both loops are the same. -/
theorem continuePrevious_eq : ∀ (n : Nat) (src : Text) (value : UInt32), 0 ∉ src → Continued n src →
    continuePrevious n src value =
      some ((takeBytes n src value).1, ((takeBytes n src value).2.1 : Int), (takeBytes n src value).2.2)
  | 0, [], _, _, _ => rfl
  | n + 1, [], _, _, _ => rfl
  | 0, b :: src, value, _, _ => by
    rw [continuePrevious, if_neg fun hc => by omega]
    rfl
  | n + 1, b :: src, value, hnul, h => by
    obtain ⟨hb, hsrc⟩ := not_or.mp (fun hc => hnul (List.mem_cons.mpr hc))
    rw [continuePrevious, if_pos ⟨Ne.symm hb, by omega⟩, if_neg (not_not.mpr h.1), takeBytes, if_neg (Ne.symm hb)]
    push_cast
    rw [add_sub_cancel_right]
    exact continuePrevious_eq n src (shiftIn value b) hsrc h.2

/-- All bytes are taken that are missing, or that there are. -/
theorem takeBytes_spec : ∀ (n : Nat) (src : Text) (value : UInt32), 0 ∉ src →
    ((takeBytes n src value).2.1 = 0 ∨ (takeBytes n src value).2.2 = []) ∧ (takeBytes n src value).2.2 <:+ src
  | 0, src, _, _ => ⟨.inl rfl, List.suffix_refl src⟩
  | n + 1, [], _, _ => ⟨.inr rfl, List.suffix_refl []⟩
  | n + 1, b :: src, value, hnul => by
    obtain ⟨hb, hsrc⟩ := not_or.mp (fun hc => hnul (List.mem_cons.mpr hc))
    rw [takeBytes, if_neg (Ne.symm hb)]
    obtain ⟨hend, hsuffix⟩ := takeBytes_spec n src (shiftIn value b) hsrc
    exact ⟨hend, hsuffix.trans (List.suffix_cons b src)⟩

theorem takeBytes_continued : ∀ (n : Nat) (src : Text) (value : UInt32), 0 ∉ src → Continued n src →
    Continued (takeBytes n src value).2.1 (takeBytes n src value).2.2
  | 0, _, _, _, h => h
  | n + 1, [], _, _, h => h
  | n + 1, b :: src, value, hnul, h => by
    obtain ⟨hb, hsrc⟩ := not_or.mp (fun hc => hnul (List.mem_cons.mpr hc))
    rw [takeBytes, if_neg (Ne.symm hb)]
    exact takeBytes_continued n src (shiftIn value b) hsrc h.2

theorem takeBytes_scan : ∀ (n : Nat) (src : Text) (value : UInt32), 0 ∉ src →
    scan value n src =
      ((if 0 < n ∧ (takeBytes n src value).2.1 = 0 then [(takeBytes n src value).1] else []) ++
        (scan (takeBytes n src value).1 (takeBytes n src value).2.1 (takeBytes n src value).2.2).1,
      (scan (takeBytes n src value).1 (takeBytes n src value).2.1 (takeBytes n src value).2.2).2)
  | 0, _, _, _ => rfl
  | n + 1, [], _, _ => rfl
  | n + 1, b :: src, value, hnul => by
    obtain ⟨hb, hsrc⟩ := not_or.mp (fun hc => hnul (List.mem_cons.mpr hc))
    rw [takeBytes, if_neg (Ne.symm hb), scan, takeBytes_scan n src (shiftIn value b) hsrc]
    cases n with
    | zero => rfl
    | succ n =>
        have hemit : emit (n + 1) (shiftIn value b) = [] := if_neg (Nat.succ_ne_zero n)
        simp only [hemit, List.nil_append, Nat.zero_lt_succ, true_and]

/-- The loop over the characters. -/
theorem decodeChars_scan : ∀ (fuel : Nat) (src : Text) (pts : List UInt32) (value : UInt32) (n : Nat), src.length ≤ fuel →
    0 ∉ src → n = 0 ∨ src = [] → Continued n src →
    decodeChars fuel src pts ⟨value, n⟩ = (pts ++ (scan value n src).1 ++ [0], (scan value n src).2)
  | fuel, [], pts, value, n, _, _, _, _ => by
    rw [scan, List.append_nil]
    cases fuel <;> rfl
  | fuel + 1, b :: pos, pts, value, n, hlen, hnul, hn, h => by
    obtain rfl : n = 0 := hn.resolve_right (List.cons_ne_nil b pos)
    obtain ⟨hb, hpos⟩ := not_or.mp (fun hc => hnul (List.mem_cons.mpr hc))
    obtain ⟨hend, hsuffix⟩ := takeBytes_spec (remaining b).toNat pos (firstValue b (remaining b).toNat) hpos
    have hshort : (takeBytes (remaining b).toNat pos (firstValue b (remaining b).toNat)).2.2.length ≤ fuel :=
      hsuffix.length_le.trans (Nat.le_of_succ_le_succ hlen)
    rw [decodeChars, if_neg (Ne.symm hb), if_neg (not_lt.mpr h.1)]
    dsimp only
    rw [decodeChars_scan fuel _ _ _ _ hshort (fun hc => hpos (hsuffix.subset hc)) hend
      (takeBytes_continued _ _ _ hpos h.2), scan]
    dsimp only
    rw [takeBytes_scan _ pos _ hpos]
    cases hr : (remaining b).toNat with
    | zero =>
        simp only [takeBytes, emit, if_true, lt_self_iff_false, false_and, if_false, List.nil_append, List.append_assoc]
    | succ k =>
        have hemit : emit (k + 1) (firstValue b (k + 1)) = [] := if_neg (Nat.succ_ne_zero k)
        simp only [hemit, List.nil_append, Nat.zero_lt_succ, true_and]
        split_ifs <;> simp

/-- **One piece**, where every byte begins or continues a character. -/
theorem decodeUtf8Partial_scan (hnul : 0 ∉ src) (h : Continued n src) :
    decodeUtf8Partial src ⟨value, n⟩ = ((scan value n src).1 ++ [0], (scan value n src).2) := by
  obtain ⟨hend, hsuffix⟩ := takeBytes_spec n src value hnul
  unfold decodeUtf8Partial
  rw [continuePrevious_eq n src value hnul h]
  dsimp only
  rw [decodeChars_scan _ _ _ _ _ le_rfl (fun hc => hnul (hsuffix.subset hc)) hend (takeBytes_continued _ _ _ hnul h),
    takeBytes_scan n src value hnul]
  simp only [Int.natCast_pos, Int.natCast_eq_zero]

/-- The pieces of such a text. -/
theorem feed_scan : ∀ (pieces : List Text) (value : UInt32) (n : Nat), 0 ∉ pieces.flatten → Continued n pieces.flatten →
    feed ⟨value, n⟩ pieces = ⟨(scan value n pieces.flatten).1, true, (scan value n pieces.flatten).2⟩
  | [], _, _, _, _ => rfl
  | src :: pieces, value, n, hnul, h => by
    rw [List.flatten_cons] at hnul h ⊢
    obtain ⟨hsrc, hrest⟩ := (continued_append value n src pieces.flatten).mp h
    have hrem := nRemain_scan value n src
    have hstate : (scan value n src).2 = ⟨(scan value n src).2.value, ((scan value n src).2.nRemain.toNat : Int)⟩ := by
      rw [Int.toNat_of_nonneg hrem]
    rw [feed, decodeUtf8Partial_scan (fun hc => hnul (List.mem_append_left _ hc)) hsrc]
    dsimp only
    rw [hstate, feed_scan pieces _ _ (fun hc => hnul (List.mem_append_right _ hc)) hrest, scan_append]
    simp only [List.dropLast_concat, Bool.and_true, decide_eq_true_eq, Fed.mk.injEq, true_and, and_true]
    exact Int.natCast_nonneg _

end Loops

/-! ## Invalid pieces -/

section Invalid
variable {src : Text} {p : PartialUtf8} {b : UInt8}

theorem remaining_neg (h : remaining b < 0) : remaining b = -1 := by
  unfold remaining at h ⊢
  omega

theorem decodeUtf8Partial_of_le (hp : p.nRemain ≤ 0) : decodeUtf8Partial src p = decodeChars src.length src [] p := by
  have hnone : continuePrevious p.nRemain src p.value = some (p.value, p.nRemain, src) := by
    cases src with
    | nil => rfl
    | cons b pos => rw [continuePrevious, if_neg fun hc => not_lt.mpr hp hc.2]
  unfold decodeUtf8Partial
  rw [hnone]
  dsimp only
  rw [if_neg fun hc => not_lt.mpr hp hc.1]

theorem decodeUtf8Partial_nil (hp : p.nRemain ≤ 0) : decodeUtf8Partial [] p = ([0], p) := by
  rw [decodeUtf8Partial_of_le hp]
  rfl

/-- A piece that begins with a byte that is no first byte. -/
theorem decodeUtf8Partial_neg (hp : p.nRemain ≤ 0) (h0 : b ≠ 0) (hb : remaining b < 0) :
    decodeUtf8Partial (b :: src) p = ([0], ⟨0, -1⟩) := by
  rw [decodeUtf8Partial_of_le hp, List.length_cons, decodeChars, if_neg h0, if_pos hb, remaining_neg hb]

/-- The bytes that were taken. -/
theorem takeBytes_append : ∀ (n : Nat) (src : Text) (value : UInt32), (takeBytes n src value).2.1 = 0 →
    ∃ used, src = used ++ (takeBytes n src value).2.2 ∧
      (0 ∉ src → ∀ more, takeBytes n (used ++ more) value = ((takeBytes n src value).1, 0, more))
  | 0, src, value, _ => ⟨[], rfl, fun _ _ => rfl⟩
  | n + 1, [], value, h => by cases h
  | n + 1, b :: src, value, h => by
    rw [takeBytes] at h ⊢
    split_ifs at h ⊢ with hb
    obtain ⟨used, hsrc, hmore⟩ := takeBytes_append n src (shiftIn value b) h
    refine ⟨b :: used, by rw [List.cons_append, ← hsrc], fun hnul more => ?_⟩
    rw [List.cons_append, takeBytes, if_neg hb]
    exact hmore (fun hc => hnul (List.mem_cons_of_mem b hc)) more

/-- An invalid end comes from a byte that is no first byte, with whole characters in front of it. -/
theorem decodeChars_neg : ∀ (fuel : Nat) (src : Text) (pts : List UInt32) (p : PartialUtf8), src.length ≤ fuel → 0 ∉ src →
    (src = [] → 0 ≤ p.nRemain) → (decodeChars fuel src pts p).2.nRemain < 0 →
    decodeChars fuel src pts p = ([0], ⟨0, -1⟩) ∧ ∃ pre y post chars, src = pre ++ y :: post ∧ remaining y < 0 ∧
      (pre = [] ↔ chars = []) ∧ ∀ fuel' pts' p', pre.length ≤ fuel' → pre ≠ [] →
        ∃ v, decodeChars fuel' pre pts' p' = (pts' ++ chars ++ [0], ⟨v, 0⟩)
  | fuel, [], pts, p, _, _, hp, h => by
    have hres : decodeChars fuel [] pts p = (pts ++ [0], p) := by cases fuel <;> rfl
    rw [hres] at h
    exact absurd h (not_lt.mpr (hp rfl))
  | fuel + 1, b :: pos, pts, p, hlen, hnul, _, h => by
    obtain ⟨hb, hpos⟩ := not_or.mp (fun hc => hnul (List.mem_cons.mpr hc))
    rw [decodeChars, if_neg (Ne.symm hb)] at h ⊢
    by_cases hneg : remaining b < 0
    · rw [if_pos hneg, remaining_neg hneg]
      exact ⟨rfl, [], b, pos, [], rfl, hneg, iff_of_true rfl rfl, fun _ _ _ _ hc => absurd rfl hc⟩
    · rw [if_neg hneg] at h ⊢
      dsimp only at h ⊢
      have htake := takeBytes_append (remaining b).toNat pos (firstValue b (remaining b).toNat)
      obtain ⟨hend, hsuffix⟩ := takeBytes_spec (remaining b).toNat pos (firstValue b (remaining b).toNat) hpos
      generalize hr : takeBytes (remaining b).toNat pos (firstValue b (remaining b).toNat) = r at h htake hend hsuffix ⊢
      obtain ⟨hres, pre, y, post, chars, hrest, hy, hiff, hpre⟩ := decodeChars_neg fuel _ _ _
        (hsuffix.length_le.trans (Nat.le_of_succ_le_succ hlen)) (fun hc => hpos (hsuffix.subset hc))
        (fun _ => Int.natCast_nonneg _) h
      have hzero : r.2.1 = 0 := by
        refine hend.resolve_right fun hnil => ?_
        rw [hnil] at hrest
        exact List.append_ne_nil_of_right_ne_nil _ (List.cons_ne_nil y post) hrest.symm
      obtain ⟨used, hused, hmore⟩ := htake hzero
      refine ⟨hres, b :: (used ++ pre), y, post, r.1 :: chars, ?_, hy, ?_, fun fuel' pts' p' hfuel _ => ?_⟩
      · rw [List.cons_append, List.append_assoc, ← hrest, ← hused]
      · exact iff_of_false (List.cons_ne_nil _ _) (List.cons_ne_nil _ _)
      · obtain ⟨k, rfl⟩ : ∃ k, fuel' = k + 1 := ⟨fuel' - 1, by rw [List.length_cons] at hfuel; omega⟩
        rw [decodeChars, if_neg (Ne.symm hb), if_neg hneg]
        dsimp only
        rw [hmore hpos pre, if_pos rfl]
        by_cases hnil : pre = []
        · have hchars := hiff.mp hnil
          subst hnil hchars
          exact ⟨r.1, by cases k <;> rfl⟩
        · rw [List.length_cons, List.length_append] at hfuel
          obtain ⟨v, hv⟩ := hpre k (pts' ++ [r.1]) ⟨r.1, 0⟩ (by omega) hnil
          exact ⟨v, hv.trans (by rw [List.append_cons pts' r.1 chars])⟩

/-- An invalid piece that begins with a first byte can be cut so that code points appear. -/
theorem exists_cut {x : UInt8} {post : Text} (hp : p.nRemain ≤ 0) (hnul : 0 ∉ x :: post) (hx : 0 ≤ remaining x)
    (h : (decodeUtf8Partial (x :: post) p).2.nRemain < 0) :
    ∃ pieces : List Text, pieces.flatten = x :: post ∧ (feed p pieces).codePoints ≠ [] := by
  rw [decodeUtf8Partial_of_le hp] at h
  obtain ⟨-, pre, y, post', chars, hsrc, hy, hiff, hpre⟩ := decodeChars_neg _ _ [] p le_rfl hnul (fun hc => by cases hc) h
  have hne : pre ≠ [] := by
    rintro rfl
    obtain ⟨rfl, -⟩ := List.cons.inj hsrc
    exact absurd hy (not_lt.mpr hx)
  obtain ⟨v, hv⟩ := hpre pre.length [] p le_rfl hne
  refine ⟨[pre, y :: post'], by simp [hsrc], ?_⟩
  rw [feed, decodeUtf8Partial_of_le hp, hv]
  dsimp only
  rw [List.nil_append, List.dropLast_concat]
  exact List.append_ne_nil_of_left_ne_nil (fun hc => hne (hiff.mpr hc)) _

/-- The first byte that neither continues nor begins a character as it should. -/
theorem exists_of_not_continued : ∀ (value : UInt32) (n : Nat) (src : Text), ¬ Continued n src →
    ∃ (pre : Text) (x : UInt8) (post : Text), src = pre ++ x :: post ∧ Continued n pre ∧
      ((0 < (scan value n pre).2.nRemain ∧ x >>> 6 ≠ 2) ∨ ((scan value n pre).2.nRemain = 0 ∧ remaining x < 0))
  | _, _, [], h => absurd trivial h
  | value, 0, b :: src, h => by
    by_cases hb : 0 ≤ remaining b
    · obtain ⟨pre, x, post, rfl, hpre, hx⟩ := exists_of_not_continued (firstValue b (remaining b).toNat)
        (remaining b).toNat src fun hc => h ⟨hb, hc⟩
      exact ⟨b :: pre, x, post, rfl, ⟨hb, hpre⟩, hx⟩
    · exact ⟨[], b, src, rfl, trivial, .inr ⟨rfl, not_le.mp hb⟩⟩
  | value, n + 1, b :: src, h => by
    by_cases hb : b >>> 6 = 2
    · obtain ⟨pre, x, post, rfl, hpre, hx⟩ := exists_of_not_continued (shiftIn value b) n src fun hc => h ⟨hb, hc⟩
      exact ⟨b :: pre, x, post, rfl, ⟨hb, hpre⟩, hx⟩
    · exact ⟨[], b, src, rfl, trivial, .inl ⟨Int.natCast_pos.mpr n.succ_pos, hb⟩⟩

/-- The first byte that begins a character. -/
theorem exists_firstByte : ∀ src : Text, (∀ b ∈ src, remaining b < 0) ∨
    ∃ (ys : Text) (x : UInt8) (post : Text), src = ys ++ x :: post ∧ (∀ b ∈ ys, remaining b < 0) ∧ 0 ≤ remaining x
  | [] => .inl fun _ h => absurd h List.not_mem_nil
  | b :: src => by
    by_cases hb : remaining b < 0
    · rcases exists_firstByte src with hall | ⟨ys, x, post, rfl, hys, hx⟩
      · exact .inl (List.forall_mem_cons.mpr ⟨hb, hall⟩)
      · exact .inr ⟨b :: ys, x, post, rfl, List.forall_mem_cons.mpr ⟨hb, hys⟩, hx⟩
    · exact .inr ⟨[], b, src, rfl, fun _ h => absurd h List.not_mem_nil, not_lt.mp hb⟩

/-- It makes a piece invalid that begins with it. -/
theorem feed_not_valid {pre post : Text} {x : UInt8} (hnul : 0 ∉ pre ++ x :: post) (hpre : Continued 0 pre)
    (hx : (0 < (scan 0 0 pre).2.nRemain ∧ x >>> 6 ≠ 2) ∨ ((scan 0 0 pre).2.nRemain = 0 ∧ remaining x < 0)) :
    (feed {} [pre, x :: post]).valid = false := by
  have h0 : x ≠ 0 := fun hc => hnul (hc ▸ List.mem_append_right pre List.mem_cons_self)
  have hsecond : decodeUtf8Partial (x :: post) (scan 0 0 pre).2 = ([0], ⟨0, -1⟩) := by
    rcases hx with ⟨hpos, hcont⟩ | ⟨hzero, hneg⟩
    · unfold decodeUtf8Partial
      rw [continuePrevious, if_pos ⟨h0, hpos⟩, if_pos hcont]
    · exact decodeUtf8Partial_neg hzero.le h0 hneg
  have hfirst : decodeUtf8Partial pre {} = ((scan 0 0 pre).1 ++ [0], (scan 0 0 pre).2) :=
    decodeUtf8Partial_scan (n := 0) (fun hc => hnul (List.mem_append_left _ hc)) hpre
  rw [feed, hfirst, feed]
  dsimp only
  rw [hsecond]
  simp

/-- Continuation bytes only. -/
theorem feed_neg : ∀ (pieces : List Text) (p : PartialUtf8), p.nRemain ≤ 0 → 0 ∉ pieces.flatten →
    (∀ b ∈ pieces.flatten, remaining b < 0) → (feed p pieces).codePoints = [] ∧
      (0 ≤ p.nRemain → (feed p pieces).valid = decide (pieces.flatten = [])) ∧
      (feed p pieces).partial_ = if pieces.flatten = [] then p else ⟨0, -1⟩
  | [], _, _, _, _ => ⟨rfl, fun _ => rfl, rfl⟩
  | [] :: pieces, p, hp, hnul, h => by
    obtain ⟨hpts, hvalid, hstate⟩ := feed_neg pieces p hp hnul h
    rw [feed, decodeUtf8Partial_nil hp]
    refine ⟨hpts, fun h0 => ?_, hstate⟩
    dsimp only
    rw [hvalid h0, decide_eq_true h0, Bool.true_and]
    rfl
  | (b :: src) :: pieces, p, hp, hnul, h => by
    have h0 : b ≠ 0 := fun hc => hnul (hc ▸ List.mem_cons_self)
    have hsub : ∀ x ∈ pieces.flatten, x ∈ ((b :: src) :: pieces).flatten := fun x hx => by
      rw [List.flatten_cons]
      exact List.mem_append_right _ hx
    obtain ⟨hpts, -, hstate⟩ := feed_neg pieces ⟨0, -1⟩ (by decide) (fun hc => hnul (hsub 0 hc)) fun x hx => h x (hsub x hx)
    rw [feed, decodeUtf8Partial_neg hp h0 (h b List.mem_cons_self)]
    have hne : ((b :: src) :: pieces).flatten ≠ [] := List.cons_ne_nil _ _
    refine ⟨hpts, fun _ => ?_, ?_⟩
    · rw [decide_eq_false hne]
      rfl
    · rw [if_neg hne, hstate]
      split_ifs <;> rfl

end Invalid

/-! ## All cuts -/

/-- The cuts make no difference. -/
theorem independent_iff {src : Text} (hnul : 0 ∉ src) :
    Independent src ↔ Continued 0 src ∨ ∀ b ∈ src, remaining b < 0 := by
  have hone : ∀ s : Text, ([s] : List Text).flatten = s := fun s => by simp
  constructor
  · intro h
    by_contra hnot
    obtain ⟨hcont, hmix⟩ := not_or.mp hnot
    by_cases hvalid : 0 ≤ (decodeUtf8Partial src {}).2.nRemain
    · -- a piece that begins at the bad byte is invalid
      obtain ⟨pre, x, post, rfl, hpre, hx⟩ := exists_of_not_continued 0 0 src hcont
      have heq := congrArg Fed.valid (h [pre, x :: post] (by simp))
      rw [feed_not_valid hnul hpre hx, feed, feed] at heq
      dsimp only at heq
      rw [decide_eq_true hvalid] at heq
      cases heq
    · -- code points in front of the bad byte are lost when it is in their piece
      have hlt := not_le.mp hvalid
      have hne : src ≠ [] := by
        rintro rfl
        exact hvalid le_rfl
      have hinv : decodeUtf8Partial src {} = ([0], ⟨0, -1⟩) := by
        rw [decodeUtf8Partial_of_le le_rfl] at hlt ⊢
        exact (decodeChars_neg _ _ [] {} le_rfl hnul (fun hc => absurd hc hne) hlt).1
      have hpts : ∀ pieces : List Text, pieces.flatten = src → (feed {} pieces).codePoints = [] := by
        intro pieces hflat
        rw [h pieces hflat, feed, hinv]
        rfl
      obtain ⟨ys, x, post, rfl, hys, hx⟩ := (exists_firstByte src).resolve_left hmix
      have hnulys : 0 ∉ ys := fun hc => hnul (List.mem_append_left _ hc)
      have hnulx : 0 ∉ x :: post := fun hc => hnul (List.mem_append_right _ hc)
      cases ys with
      | nil =>
          obtain ⟨pieces, hflat, hcut⟩ := exists_cut (p := {}) le_rfl hnulx hx hlt
          exact hcut (hpts pieces hflat)
      | cons b ys =>
          have hb : decodeUtf8Partial (b :: ys) {} = ([0], ⟨0, -1⟩) :=
            decodeUtf8Partial_neg le_rfl (fun hc => hnulys (hc ▸ List.mem_cons_self)) (hys b List.mem_cons_self)
          have hstate := congrArg Fed.partial_ (h [b :: ys, x :: post] (by simp))
          rw [feed, hb, feed, feed, feed, hinv] at hstate
          dsimp only [feed] at hstate
          obtain ⟨pieces, hflat, hcut⟩ := exists_cut (p := ⟨0, -1⟩) (by decide) hnulx hx (by rw [hstate]; decide)
          have hall := hpts ((b :: ys) :: pieces) (by rw [List.flatten_cons, hflat])
          rw [feed, hb] at hall
          exact hcut hall
  · rintro (h | h) pieces hflat
    · have hfeed : ∀ ps : List Text, ps.flatten = src → feed {} ps = ⟨(scan 0 0 src).1, true, (scan 0 0 src).2⟩ := by
        rintro ps rfl
        exact feed_scan ps 0 0 hnul h
      rw [hfeed pieces hflat, hfeed [src] (hone src)]
    · have hfeed : ∀ ps : List Text, ps.flatten = src →
          feed {} ps = ⟨[], decide (src = []), if src = [] then {} else ⟨0, -1⟩⟩ := by
        rintro ps rfl
        obtain ⟨hpts, hvalid, hstate⟩ := feed_neg ps {} le_rfl hnul h
        rw [← hpts, ← hvalid le_rfl, ← hstate]
      rw [hfeed pieces hflat, hfeed [src] (hone src)]

/-! ## Well-formed text -/

section Bytes
variable (b : UInt8) (value : UInt32)

theorem remaining_eq : remaining b = ([1, 1, 1, 1, 1, 1, 1, 1, 0, 0, 0, 0, 2, 2, 3, 4].getD (b.toNat / 16) 0 : Nat) - 1 := by
  have hshift : (b >>> 4).toNat = b.toNat / 16 := by
    have h4 : (4 : UInt8).toNat % 8 = 4 := rfl
    rw [UInt8.toNat_shiftRight, h4, Nat.shiftRight_eq_div_pow]
  unfold remaining
  rw [hshift]

theorem shiftRight_six_eq : b >>> 6 = 2 ↔ b.toNat / 64 = 2 := by
  have h6 : (6 : UInt8).toNat % 8 = 6 := rfl
  rw [← UInt8.toNat_inj, UInt8.toNat_shiftRight, h6, Nat.shiftRight_eq_div_pow]
  exact Iff.rfl

theorem toNat_shiftIn (h : value.toNat < 2 ^ 26) : (shiftIn value b).toNat = value.toNat * 64 + b.toNat % 64 := by
  have hmask : (b &&& 0x3F).toUInt32.toNat = b.toNat % 64 := by
    rw [UInt8.toNat_toUInt32, UInt8.toNat_and]
    exact Nat.and_two_pow_sub_one_eq_mod b.toNat 6
  have hshift : (value <<< 6).toNat = value.toNat * 64 := by
    rw [UInt32.toNat_shiftLeft]
    have h6 : (6 : UInt32).toNat % 32 = 6 := rfl
    rw [h6, Nat.shiftLeft_eq]
    omega
  unfold shiftIn
  rw [UInt32.toNat_add, hmask, hshift]
  omega

theorem toNat_firstValue {n : Nat} (h : n ≤ 3) : (firstValue b n).toNat = b.toNat % 2 ^ (7 - n) := by
  have hpow : 2 ^ (7 - n) - 1 < 256 := by
    interval_cases n <;> decide
  unfold firstValue
  rw [UInt8.toNat_toUInt32, UInt8.toNat_and, UInt8.toNat_ofNat', Nat.mod_eq_of_lt hpow,
    Nat.and_two_pow_sub_one_eq_mod]

end Bytes

section Text
variable {c : Char} {value : UInt32}

/-- A first byte of a character that has `n` more. -/
theorem remaining_of_lead {b : UInt8} {n : Nat} (h : (n = 0 ∧ b.toNat < 128) ∨ (n = 1 ∧ 192 ≤ b.toNat ∧ b.toNat < 224) ∨
    (n = 2 ∧ 224 ≤ b.toNat ∧ b.toNat < 240) ∨ (n = 3 ∧ 240 ≤ b.toNat)) : remaining b = n := by
  rw [remaining_eq]
  have hlt : b.toNat / 16 < 16 := by
    have := b.toNat_lt
    omega
  have hcases : (b.toNat / 16 ≤ 7 ∧ n = 0) ∨ ((b.toNat / 16 = 12 ∨ b.toNat / 16 = 13) ∧ n = 1) ∨
      (b.toNat / 16 = 14 ∧ n = 2) ∨ (b.toNat / 16 = 15 ∧ n = 3) := by omega
  generalize b.toNat / 16 = k at hlt hcases
  interval_cases k <;> simp <;> omega

/-- The missing bytes of a character. -/
theorem scan_conts : ∀ (conts : List UInt8) (value : UInt32), conts ≠ [] → (∀ b ∈ conts, b >>> 6 = 2) →
    scan value conts.length conts = ([conts.foldl shiftIn value], ⟨conts.foldl shiftIn value, 0⟩) ∧
      Continued conts.length conts
  | [], _, h, _ => absurd rfl h
  | [b], _, _, h => ⟨rfl, h b List.mem_cons_self, trivial⟩
  | b :: b' :: conts, value, _, h => by
    obtain ⟨hscan, hcont⟩ := scan_conts (b' :: conts) (shiftIn value b) (List.cons_ne_nil _ _) fun x hx =>
      h x (List.mem_cons_of_mem b hx)
    have hemit : emit (b' :: conts).length (shiftIn value b) = [] := if_neg (Nat.succ_ne_zero _)
    rw [List.length_cons, scan, hscan, hemit]
    exact ⟨rfl, h b List.mem_cons_self, hcont⟩

/-- A first byte with its missing bytes. -/
theorem scan_char {b : UInt8} {conts : List UInt8} {v : UInt32} (hlead : remaining b = conts.length)
    (hconts : ∀ x ∈ conts, x >>> 6 = 2) (hv : conts.foldl shiftIn (firstValue b conts.length) = v) :
    scan value 0 (b :: conts) = ([v], ⟨v, 0⟩) ∧ Continued 0 (b :: conts) := by
  rw [scan, Continued, hlead, Int.toNat_natCast]
  cases conts with
  | nil =>
      obtain rfl : firstValue b 0 = v := hv
      exact ⟨rfl, le_rfl, trivial⟩
  | cons b' conts =>
      obtain ⟨hscan, hcont⟩ := scan_conts (b' :: conts) (firstValue b (b' :: conts).length) (List.cons_ne_nil _ _) hconts
      have hemit : emit (b' :: conts).length (firstValue b (b' :: conts).length) = [] := if_neg (Nat.succ_ne_zero _)
      rw [hscan, hv, hemit]
      exact ⟨rfl, Int.natCast_nonneg _, hcont⟩

/-- The bytes of a character. -/
theorem scan_encode (value : UInt32) (c : Char) : scan value 0 (String.utf8EncodeChar c) = ([c.val], ⟨c.val, 0⟩) ∧
    Continued 0 (String.utf8EncodeChar c) := by
  have hmax : c.val.toNat < 0x110000 := by
    rcases c.valid with h | h
    · exact lt_trans h (by decide)
    · exact h.2
  unfold String.utf8EncodeChar
  dsimp only
  generalize hv : c.val.toNat = v at hmax
  have hbyte : ∀ k, k < 256 → (UInt8.ofNat k).toNat = k := fun k hk => UInt8.toNat_ofNat_of_lt' hk
  have hcont : ∀ k, UInt8.ofNat (k % 64 + 128) >>> 6 = 2 := by
    intro k
    rw [shiftRight_six_eq, hbyte _ (by omega)]
    omega
  have hlow : ∀ k, (UInt8.ofNat (k % 64 + 128)).toNat % 64 = k % 64 := by
    intro k
    rw [hbyte _ (by omega)]
    omega
  split_ifs with h1 h2 h3
  · refine scan_char (remaining_of_lead ?_) (fun _ h => absurd h List.not_mem_nil) ?_
    · rw [hbyte v (by omega)]
      exact .inl ⟨rfl, by omega⟩
    · rw [← UInt32.toNat_inj]
      exact (toNat_firstValue _ (Nat.zero_le 3)).trans (by rw [hbyte v (by omega), hv]; omega)
  · refine scan_char (remaining_of_lead ?_) ?_ ?_
    · rw [hbyte _ (by omega)]
      exact .inr (.inl ⟨rfl, by omega, by omega⟩)
    · simp only [List.forall_mem_cons, List.not_mem_nil, false_implies, implies_true, and_true]
      exact hcont _
    · have hfirst : (firstValue (UInt8.ofNat (v / 64 % 32 + 192)) 1).toNat = v / 64 := by
        rw [toNat_firstValue _ (by omega), hbyte _ (by omega)]
        omega
      have hlast := toNat_shiftIn (UInt8.ofNat (v % 64 + 128)) _ (lt_of_eq_of_lt hfirst (by omega))
      rw [hfirst, hlow] at hlast
      exact UInt32.toNat_inj.mp (hlast.trans (by rw [hv]; omega))
  · refine scan_char (remaining_of_lead ?_) ?_ ?_
    · rw [hbyte _ (by omega)]
      exact .inr (.inr (.inl ⟨rfl, by omega, by omega⟩))
    · simp only [List.forall_mem_cons, List.not_mem_nil, false_implies, implies_true, and_true]
      exact ⟨hcont _, hcont _⟩
    · have hfirst : (firstValue (UInt8.ofNat (v / 4096 % 16 + 224)) 2).toNat = v / 4096 := by
        rw [toNat_firstValue _ (by omega), hbyte _ (by omega)]
        omega
      have hsecond := toNat_shiftIn (UInt8.ofNat (v / 64 % 64 + 128)) _ (lt_of_eq_of_lt hfirst (by omega))
      rw [hfirst, hlow] at hsecond
      have hlast := toNat_shiftIn (UInt8.ofNat (v % 64 + 128)) _ (lt_of_eq_of_lt hsecond (by omega))
      rw [hsecond, hlow] at hlast
      exact UInt32.toNat_inj.mp (hlast.trans (by rw [hv]; omega))
  · refine scan_char (remaining_of_lead ?_) ?_ ?_
    · rw [hbyte _ (by omega)]
      exact .inr (.inr (.inr ⟨rfl, by omega⟩))
    · simp only [List.forall_mem_cons, List.not_mem_nil, false_implies, implies_true, and_true]
      exact ⟨hcont _, hcont _, hcont _⟩
    · have hfirst : (firstValue (UInt8.ofNat (v / 262144 % 8 + 240)) 3).toNat = v / 262144 := by
        rw [toNat_firstValue _ (by omega), hbyte _ (by omega)]
        omega
      have hsecond := toNat_shiftIn (UInt8.ofNat (v / 4096 % 64 + 128)) _ (lt_of_eq_of_lt hfirst (by omega))
      rw [hfirst, hlow] at hsecond
      have hthird := toNat_shiftIn (UInt8.ofNat (v / 64 % 64 + 128)) _ (lt_of_eq_of_lt hsecond (by omega))
      rw [hsecond, hlow] at hthird
      have hlast := toNat_shiftIn (UInt8.ofNat (v % 64 + 128)) _ (lt_of_eq_of_lt hthird (by omega))
      rw [hthird, hlow] at hlast
      exact UInt32.toNat_inj.mp (hlast.trans (by rw [hv]; omega))

/-- A character that ends yields a code point. -/
theorem scan_ne_nil : ∀ (value : UInt32) (n : Nat) (src : Text), src ≠ [] → (scan value n src).2.nRemain = 0 →
    (scan value n src).1 ≠ []
  | _, _, [], h, _ => absurd rfl h
  | value, 0, [b], _, hend => by
    have hzero : (remaining b).toNat = 0 := Int.natCast_eq_zero.mp hend
    rw [scan, hzero]
    exact List.cons_ne_nil _ _
  | value, n + 1, [b], _, hend => by
    obtain rfl : n = 0 := Int.natCast_eq_zero.mp hend
    exact List.cons_ne_nil _ _
  | value, 0, b :: b' :: src, _, hend => by
    rw [scan]
    exact List.append_ne_nil_of_right_ne_nil _ (scan_ne_nil _ _ (b' :: src) (List.cons_ne_nil _ _) hend)
  | value, n + 1, b :: b' :: src, _, hend => by
    rw [scan]
    exact List.append_ne_nil_of_right_ne_nil _ (scan_ne_nil _ _ (b' :: src) (List.cons_ne_nil _ _) hend)

/-- The code points of a prefix of a well-formed text. -/
theorem scan_text : ∀ (text : List Char) (value : UInt32) (src : Text), src <+: text.flatMap String.utf8EncodeChar →
    Continued 0 src ∧ ∃ k, (scan value 0 src).1 = (text.take k).map Char.val ∧
      (text.take k).flatMap String.utf8EncodeChar <+: src ∧
      ∀ c, text[k]? = some c → ¬ (text.take k ++ [c]).flatMap String.utf8EncodeChar <+: src
  | [], _, src, h => by
    obtain rfl := List.prefix_nil.mp h
    exact ⟨trivial, 0, rfl, List.nil_prefix, fun c hc => by cases hc⟩
  | c :: text, value, src, h => by
    rw [List.flatMap_cons] at h
    obtain ⟨hchar, hcont⟩ := scan_encode value c
    by_cases hfull : String.utf8EncodeChar c <+: src
    · obtain ⟨rest, rfl⟩ := hfull
      obtain ⟨hrest, k, hpts, hpre, hmax⟩ := scan_text text c.val rest ((List.prefix_append_right_inj _).mp h)
      refine ⟨(continued_append value 0 _ rest).mpr ⟨hcont, by rw [hchar]; exact hrest⟩, k + 1, ?_, ?_, fun c' hc' => ?_⟩
      · rw [scan_append, hchar]
        exact congrArg (c.val :: ·) hpts
      · rw [List.take_succ_cons, List.flatMap_cons]
        exact (List.prefix_append_right_inj _).mpr hpre
      · rw [List.take_succ_cons, List.cons_append, List.flatMap_cons]
        exact fun hc => hmax c' hc' ((List.prefix_append_right_inj _).mp hc)
    · -- the character is cut off
      obtain ⟨rest, hrest⟩ := (List.prefix_or_prefix_of_prefix
        (List.prefix_append (String.utf8EncodeChar c) _) h).resolve_left hfull
      have hne : rest ≠ [] := by
        rintro rfl
        rw [List.append_nil] at hrest
        exact hfull (hrest ▸ List.prefix_refl _)
      rw [← hrest, scan_append] at hchar
      rw [← hrest, continued_append value] at hcont
      obtain ⟨hpts, hend⟩ := Prod.mk.inj hchar
      refine ⟨hcont.1, 0, ?_, List.nil_prefix, fun c' hc' => ?_⟩
      · have hlast := scan_ne_nil (scan value 0 src).2.value (scan value 0 src).2.nRemain.toNat rest hne (by rw [hend])
        rcases List.append_eq_singleton_iff.mp hpts with ⟨hfirst, -⟩ | ⟨-, hnil⟩
        · exact hfirst
        · exact absurd hnil hlast
      · obtain rfl : c = c' := Option.some.inj hc'
        rw [List.take_zero, List.nil_append, List.flatMap_singleton]
        exact hfull

end Text

/-- The code points of a prefix of a well-formed text are the standard ones, however it is cut. -/
theorem standard_of_prefix {src : Text} (hnul : 0 ∉ src) {text : List Char}
    (h : src <+: text.flatMap String.utf8EncodeChar) {pieces : List Text} (hpieces : pieces.flatten = src) :
    Standard src text (feed {} pieces) := by
  obtain ⟨hcont, k, hpts, hpre, hmax⟩ := scan_text text 0 src h
  have hfeed : feed {} pieces = ⟨(scan 0 0 src).1, true, (scan 0 0 src).2⟩ := by
    subst hpieces
    exact feed_scan pieces 0 0 hnul hcont
  rw [hfeed]
  exact ⟨rfl, k, hpts, hpre, hmax⟩

/-- **The cuts of a text make no difference**, and the code points of well-formed text are the standard ones, exactly when all
its bytes begin or continue characters as they should, or all of them only continue one. -/
theorem decodeUtf8_cuts_iff (src : Text) (hnul : 0 ∉ src) :
    (Independent src ∧ ∀ text : List Char, src <+: text.flatMap String.utf8EncodeChar → ∀ pieces : List Text,
        pieces.flatten = src → Standard src text (feed {} pieces)) ↔
      Continued 0 src ∨ ∀ b ∈ src, remaining b < 0 := by
  rw [← independent_iff hnul]
  exact and_iff_left fun text htext pieces hpieces => standard_of_prefix hnul htext hpieces

/-- A two-byte character. -/
theorem decodeUtf8_cuts_iff_eAcute : Independent [0xC3, 0xA9] :=
  ((decodeUtf8_cuts_iff [0xC3, 0xA9] (by decide)).mpr (.inl (by decide +kernel))).1

/-- A first byte of two and an `A`. -/
theorem not_independent_C3_A : ¬ Independent [0xC3, 0x41] := fun h =>
  absurd (h [[0xC3], [0x41]] rfl) (by decide +kernel)

end S2Moe.Grammar
