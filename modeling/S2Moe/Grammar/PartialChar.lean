import S2Moe.Grammar.Reject

/-!
# A character that is cut off

* `stateOf` : the partial state behind the first bytes of a character;
* `cut_of_prefix` : its value is that of the character without the bits that are missing, and the characters that begin
with the same bytes are those with the same value that are no shorter;
* `mem_interval` : these are the characters between the bounds that `llama_grammar_match_partial_char` computes;
* `matchPartialChar_exact_iff` : its answer is right exactly when a range that reaches into the interval decides the
class.
-/

namespace S2Moe.Grammar
open S2Moe.Lib

section Prefix

/-- What `decode_utf8` leaves behind the first bytes of a character. -/
def stateOf (pre : Text) : PartialUtf8 := (decodeUtf8Partial pre {}).2

theorem scan_state : ∀ (conts : Text) (value : UInt32) (n : Nat), conts.length ≤ n →
    (scan value n conts).2 = ⟨conts.foldl shiftIn value, ((n - conts.length : Nat) : Int)⟩
  | [], _, _, _ => rfl
  | b :: conts, value, n + 1, h => by
    rw [scan, scan_state conts (shiftIn value b) n (Nat.le_of_succ_le_succ h), List.foldl_cons, List.length_cons,
      Nat.add_sub_add_right]

/-- The first byte says how many follow. -/
theorem scan_lead {b : UInt8} {n : Nat} (hlead : remaining b = n) {conts : Text} (hlen : conts.length ≤ n) :
    (scan 0 0 (b :: conts)).2 = ⟨conts.foldl shiftIn (firstValue b n), ((n - conts.length : Nat) : Int)⟩ := by
  rw [scan, hlead, Int.toNat_natCast]
  exact scan_state conts _ n hlen

theorem stateOf_eq {pre : Text} (hnul : 0 ∉ pre) (h : Continued 0 pre) : stateOf pre = (scan 0 0 pre).2 := by
  have hdec : decodeUtf8Partial pre {} = ((scan 0 0 pre).1 ++ [0], (scan 0 0 pre).2) := @decodeUtf8Partial_scan pre 0 0 hnul h
  rw [stateOf, hdec]

/-- The least character that is cut off with so many bytes missing: a shorter one would be overlong. -/
def leastCut (n : Nat) : Nat := if n = 1 then 2 ^ 7 else if n = 2 then 2 ^ 11 else 2 ^ 16

@[simp] theorem leastCut_one : leastCut 1 = 128 := rfl

@[simp] theorem leastCut_two : leastCut 2 = 2048 := rfl

@[simp] theorem leastCut_three : leastCut 3 = 65536 := rfl

theorem encode_two {c : Char} (h : 128 ≤ c.val.toNat) (h' : c.val.toNat ≤ 2047) : String.utf8EncodeChar c =
    [UInt8.ofNat (c.val.toNat / 64 % 32 + 192), UInt8.ofNat (c.val.toNat % 64 + 128)] := by
  unfold String.utf8EncodeChar
  dsimp only
  rw [if_neg (by omega), if_pos h']

theorem encode_three {c : Char} (h : 2048 ≤ c.val.toNat) (h' : c.val.toNat ≤ 65535) : String.utf8EncodeChar c =
    [UInt8.ofNat (c.val.toNat / 4096 % 16 + 224), UInt8.ofNat (c.val.toNat / 64 % 64 + 128),
      UInt8.ofNat (c.val.toNat % 64 + 128)] := by
  unfold String.utf8EncodeChar
  dsimp only
  rw [if_neg (by omega), if_neg (by omega), if_pos h']

theorem encode_four {c : Char} (h : 65536 ≤ c.val.toNat) : String.utf8EncodeChar c =
    [UInt8.ofNat (c.val.toNat / 262144 % 8 + 240), UInt8.ofNat (c.val.toNat / 4096 % 64 + 128),
      UInt8.ofNat (c.val.toNat / 64 % 64 + 128), UInt8.ofNat (c.val.toNat % 64 + 128)] := by
  unfold String.utf8EncodeChar
  dsimp only
  rw [if_neg (by omega), if_neg (by omega), if_neg (by omega)]

theorem val_lt (c : Char) : c.val.toNat < 0x110000 := by
  rcases c.valid with h | h
  · exact lt_trans h (by decide)
  · exact h.2

theorem toNat_byte {k : Nat} (hk : k < 256) : (UInt8.ofNat k).toNat = k := UInt8.toNat_ofNat_of_lt' hk

/-- The state behind first bytes of a character, `n` missing, and the characters that begin with the same bytes. -/
structure Cut (c : Char) (pre : Text) (n : Nat) : Prop where
  nRemain : (scan 0 0 pre).2.nRemain = n
  value : (scan 0 0 pre).2.value.toNat = c.val.toNat / 64 ^ n
  least : leastCut n ≤ c.val.toNat
  same : ∀ c' : Char, c'.val.toNat / 64 ^ n = c.val.toNat / 64 ^ n → leastCut n ≤ c'.val.toNat →
    pre <+: String.utf8EncodeChar c'

variable {c : Char}

theorem cut_two (h : 128 ≤ c.val.toNat) (h' : c.val.toNat ≤ 2047) : Cut c ((String.utf8EncodeChar c).take 1) 1 := by
  rw [encode_two h h', List.take_succ_cons, List.take_zero]
  have hlead : remaining (UInt8.ofNat (c.val.toNat / 64 % 32 + 192)) = (1 : Nat) :=
    remaining_of_lead (by rw [toNat_byte (by omega)]; exact .inr (.inl ⟨rfl, by omega, by omega⟩))
  have hstate := @scan_lead _ 1 hlead [] (Nat.zero_le 1)
  refine ⟨by rw [hstate]; rfl, ?_, by simp only [leastCut_one]; omega, fun c' hq hc' => ?_⟩
  · rw [hstate]
    show (firstValue _ 1).toNat = _
    rw [toNat_firstValue _ (by omega), toNat_byte (by omega)]
    omega
  · simp only [leastCut_one] at hc'
    rw [encode_two (by omega) (by omega), show c'.val.toNat / 64 = c.val.toNat / 64 by omega]
    exact List.prefix_append [_] [_]

theorem remaining_three : remaining (UInt8.ofNat (c.val.toNat / 4096 % 16 + 224)) = (2 : Nat) :=
  remaining_of_lead (by rw [toNat_byte (by omega)]; exact .inr (.inr (.inl ⟨rfl, by omega, by omega⟩)))

theorem toNat_firstValue_three (h' : c.val.toNat ≤ 65535) :
    (firstValue (UInt8.ofNat (c.val.toNat / 4096 % 16 + 224)) 2).toNat = c.val.toNat / 4096 := by
  rw [toNat_firstValue _ (by omega), toNat_byte (by omega)]
  omega

theorem toNat_shiftIn_byte {value : UInt32} {k q : Nat} (hvalue : value.toNat = q) (hq : q < 2 ^ 26) :
    (shiftIn value (UInt8.ofNat (k % 64 + 128))).toNat = q * 64 + k % 64 := by
  rw [toNat_shiftIn _ value (by rw [hvalue]; exact hq), hvalue, toNat_byte (by omega)]
  omega

theorem cut_three (h : 2048 ≤ c.val.toNat) (h' : c.val.toNat ≤ 65535) :
    Cut c ((String.utf8EncodeChar c).take 1) 2 ∧ Cut c ((String.utf8EncodeChar c).take 2) 1 := by
  have hlead := @remaining_three c
  have hfirst := toNat_firstValue_three h'
  constructor
  · rw [encode_three h h', List.take_succ_cons, List.take_zero]
    have hstate := @scan_lead _ 2 hlead [] (Nat.zero_le 2)
    refine ⟨by rw [hstate]; rfl, by rw [hstate]; exact hfirst, by simp only [leastCut_two]; omega, fun c' hq hc' => ?_⟩
    simp only [leastCut_two] at hc'
    rw [encode_three (by omega) (by omega), show c'.val.toNat / 4096 = c.val.toNat / 4096 by omega]
    exact List.prefix_append [_] [_, _]
  · rw [encode_three h h', List.take_succ_cons, List.take_succ_cons, List.take_zero]
    have hstate := @scan_lead _ 2 hlead [UInt8.ofNat (c.val.toNat / 64 % 64 + 128)] (by simp)
    refine ⟨by rw [hstate]; rfl, ?_, by simp only [leastCut_one]; omega, fun c' hq hc' => ?_⟩
    · rw [hstate]
      refine (toNat_shiftIn_byte hfirst (by omega)).trans ?_
      omega
    · simp only [leastCut_one] at hc'
      rw [encode_three (by omega) (by omega), show c'.val.toNat / 4096 = c.val.toNat / 4096 by omega,
        show c'.val.toNat / 64 = c.val.toNat / 64 by omega]
      exact List.prefix_append [_, _] [_]

theorem cut_four (h : 65536 ≤ c.val.toNat) : Cut c ((String.utf8EncodeChar c).take 1) 3 ∧
    Cut c ((String.utf8EncodeChar c).take 2) 2 ∧ Cut c ((String.utf8EncodeChar c).take 3) 1 := by
  have hmax := val_lt c
  have hlead : remaining (UInt8.ofNat (c.val.toNat / 262144 % 8 + 240)) = (3 : Nat) :=
    remaining_of_lead (by rw [toNat_byte (by omega)]; exact .inr (.inr (.inr ⟨rfl, by omega⟩)))
  have hfirst : (firstValue (UInt8.ofNat (c.val.toNat / 262144 % 8 + 240)) 3).toNat = c.val.toNat / 262144 := by
    rw [toNat_firstValue _ (by omega), toNat_byte (by omega)]
    omega
  have hsecond := @toNat_shiftIn_byte _ (c.val.toNat / 4096) _ hfirst (by omega)
  refine ⟨?_, ?_, ?_⟩
  · rw [encode_four h, List.take_succ_cons, List.take_zero]
    have hstate := @scan_lead _ 3 hlead [] (Nat.zero_le 3)
    refine ⟨by rw [hstate]; rfl, by rw [hstate]; exact hfirst, by simp only [leastCut_three]; omega, fun c' hq hc' => ?_⟩
    simp only [leastCut_three] at hc'
    rw [encode_four (by omega), show c'.val.toNat / 262144 = c.val.toNat / 262144 by omega]
    exact List.prefix_append [_] [_, _, _]
  · rw [encode_four h, List.take_succ_cons, List.take_succ_cons, List.take_zero]
    have hstate := @scan_lead _ 3 hlead [UInt8.ofNat (c.val.toNat / 4096 % 64 + 128)] (by simp)
    refine ⟨by rw [hstate]; rfl, ?_, by simp only [leastCut_two]; omega, fun c' hq hc' => ?_⟩
    · rw [hstate]
      refine hsecond.trans ?_
      omega
    · simp only [leastCut_two] at hc'
      rw [encode_four (by omega), show c'.val.toNat / 262144 = c.val.toNat / 262144 by omega,
        show c'.val.toNat / 4096 = c.val.toNat / 4096 by omega]
      exact List.prefix_append [_, _] [_, _]
  · rw [encode_four h, List.take_succ_cons, List.take_succ_cons, List.take_succ_cons, List.take_zero]
    have hstate := @scan_lead _ 3 hlead
      [UInt8.ofNat (c.val.toNat / 4096 % 64 + 128), UInt8.ofNat (c.val.toNat / 64 % 64 + 128)] (by simp)
    refine ⟨by rw [hstate]; rfl, ?_, by simp only [leastCut_one]; omega, fun c' hq hc' => ?_⟩
    · rw [hstate]
      refine (toNat_shiftIn_byte hsecond (by omega)).trans ?_
      omega
    · simp only [leastCut_one] at hc'
      rw [encode_four (by omega), show c'.val.toNat / 262144 = c.val.toNat / 262144 by omega,
        show c'.val.toNat / 4096 = c.val.toNat / 4096 by omega, show c'.val.toNat / 64 = c.val.toNat / 64 by omega]
      exact List.prefix_append [_, _, _] [_]

theorem nul_notMem_encode (h : 128 ≤ c.val.toNat) : 0 ∉ String.utf8EncodeChar c := by
  have hmax := val_lt c
  have hbyte : ∀ {k : Nat}, 0 < k → k < 256 → (0 : UInt8) ≠ UInt8.ofNat k := by
    intro k hk hk' heq
    have hval := congrArg UInt8.toNat heq
    rw [toNat_byte hk'] at hval
    exact absurd hval (by simp; omega)
  by_cases h2 : c.val.toNat ≤ 2047
  · rw [encode_two h h2]
    simp only [List.mem_cons, List.not_mem_nil, or_false, not_or]
    exact ⟨hbyte (by omega) (by omega), hbyte (by omega) (by omega)⟩
  by_cases h3 : c.val.toNat ≤ 65535
  · rw [encode_three (by omega) h3]
    simp only [List.mem_cons, List.not_mem_nil, or_false, not_or]
    exact ⟨hbyte (by omega) (by omega), hbyte (by omega) (by omega), hbyte (by omega) (by omega)⟩
  · rw [encode_four (by omega)]
    simp only [List.mem_cons, List.not_mem_nil, or_false, not_or]
    exact ⟨hbyte (by omega) (by omega), hbyte (by omega) (by omega), hbyte (by omega) (by omega),
      hbyte (by omega) (by omega)⟩

/-- Some of the bytes, but not all. -/
def CutOff (c : Char) (pre : Text) : Prop :=
  pre <+: String.utf8EncodeChar c ∧ pre ≠ [] ∧ pre ≠ String.utf8EncodeChar c

/-- **The state behind the first bytes, and what may follow.** -/
theorem cut_of_prefix {pre : Text} (h : CutOff c pre) : ∃ n : Nat, 1 ≤ n ∧ n ≤ 3 ∧ Cut c pre n := by
  obtain ⟨hpre, hne, hcut⟩ := h
  have hmax := val_lt c
  have htake := List.prefix_iff_eq_take.mp hpre
  have hpos : 0 < pre.length := List.length_pos_of_ne_nil hne
  have hlt : pre.length < (String.utf8EncodeChar c).length :=
    lt_of_le_of_ne hpre.length_le fun h => hcut (hpre.eq_of_length h)
  generalize pre.length = k at htake hpos hlt
  subst htake
  by_cases h1 : c.val.toNat < 128
  · unfold String.utf8EncodeChar at hlt
    dsimp only at hlt
    rw [if_pos (by omega), List.length_singleton] at hlt
    omega
  by_cases h2 : c.val.toNat ≤ 2047
  · rw [encode_two (by omega) h2] at hlt
    obtain rfl : k = 1 := by
      simp only [List.length_cons, List.length_nil] at hlt
      omega
    exact ⟨1, le_rfl, by omega, cut_two (by omega) h2⟩
  by_cases h3 : c.val.toNat ≤ 65535
  · obtain ⟨hone, htwo⟩ := @cut_three c (by omega) h3
    rw [encode_three (by omega) h3] at hlt
    simp only [List.length_cons, List.length_nil] at hlt
    obtain rfl | rfl : k = 1 ∨ k = 2 := by omega
    · exact ⟨2, by omega, by omega, hone⟩
    · exact ⟨1, by omega, by omega, htwo⟩
  · obtain ⟨hone, htwo, hthree⟩ := @cut_four c (by omega)
    rw [encode_four (by omega)] at hlt
    simp only [List.length_cons, List.length_nil] at hlt
    obtain rfl | rfl | rfl : k = 1 ∨ k = 2 ∨ k = 3 := by omega
    · exact ⟨3, by omega, le_rfl, hone⟩
    · exact ⟨2, by omega, by omega, htwo⟩
    · exact ⟨1, by omega, by omega, hthree⟩

end Prefix

section Interval
variable {c : Char} {pre : Text} {n : Nat}

/-- The bounds that `llama_grammar_match_partial_char` computes. -/
def lowest (p : PartialUtf8) : UInt32 :=
  let n := p.nRemain.toNat
  let low := p.value <<< UInt32.ofNat (n * 6)
  if low = 0 then if n = 2 then 2 ^ 11 else if n = 3 then 2 ^ 16 else low else low

def highest (p : PartialUtf8) : UInt32 :=
  let n := p.nRemain.toNat
  p.value <<< UInt32.ofNat (n * 6) ||| UInt32.ofNat (2 ^ (n * 6) - 1)

theorem toNat_shiftLeft_six {value : UInt32} (hn : 1 ≤ n) (hn' : n ≤ 3) (hvalue : value.toNat * 64 ^ n < 2 ^ 32) :
    (value <<< UInt32.ofNat (n * 6)).toNat = value.toNat * 64 ^ n := by
  rw [UInt32.toNat_shiftLeft, UInt32.toNat_ofNat', Nat.shiftLeft_eq]
  have hsix : n * 6 % 2 ^ 32 % 32 = n * 6 := by omega
  rw [hsix, Nat.mul_comm n 6, pow_mul, show (2 : Nat) ^ 6 = 64 from rfl, Nat.mod_eq_of_lt hvalue]

/-- The interval is that of the characters with the same bits in front. -/
theorem mem_interval (h : Cut c pre n) (hn : 1 ≤ n) (hn' : n ≤ 3) (u : UInt32) :
    lowest (scan 0 0 pre).2 ≤ u ∧ u ≤ highest (scan 0 0 pre).2 ↔
      u.toNat / 64 ^ n = c.val.toNat / 64 ^ n ∧ leastCut n ≤ u.toNat := by
  have hmax := val_lt c
  have hval := h.value
  have hbound : (scan 0 0 pre).2.value.toNat * 64 ^ n ≤ c.val.toNat := by
    rw [hval]
    exact Nat.div_mul_le_self _ _
  have hlow := toNat_shiftLeft_six hn hn' (hbound.trans_lt (hmax.trans (by decide)))
  have hlt : (2 : Nat) ^ (n * 6) - 1 < 2 ^ 32 := by
    interval_cases n <;> decide
  have hhigh : (highest (scan 0 0 pre).2).toNat = c.val.toNat / 64 ^ n * 64 ^ n + (64 ^ n - 1) := by
    rw [highest, h.nRemain, Int.toNat_natCast]
    rw [UInt32.toNat_or, hlow, hval, UInt32.toNat_ofNat', Nat.mod_eq_of_lt hlt, Nat.mul_comm n 6, pow_mul,
      show (2 : Nat) ^ 6 = 64 from rfl, Nat.mul_comm (c.val.toNat / 64 ^ n)]
    have hor := @Nat.two_pow_add_eq_or_of_lt (6 * n) (64 ^ n - 1) (by
      rw [pow_mul, show (2 : Nat) ^ 6 = 64 from rfl]
      exact Nat.sub_lt (by positivity) Nat.one_pos) (c.val.toNat / 64 ^ n)
    rw [pow_mul, show (2 : Nat) ^ 6 = 64 from rfl] at hor
    exact hor.symm
  have hlowest : (lowest (scan 0 0 pre).2).toNat = max (c.val.toNat / 64 ^ n * 64 ^ n) (leastCut n) := by
    have hleast := h.least
    rw [lowest, h.nRemain, Int.toNat_natCast]
    by_cases hzero : (scan 0 0 pre).2.value <<< UInt32.ofNat (n * 6) = 0
    · rw [if_pos hzero]
      rw [hzero, hval] at hlow
      interval_cases n
      · rw [leastCut_one] at hleast
        have hlow : 0 = c.val.toNat / 64 ^ 1 * 64 ^ 1 := hlow
        omega
      · have hlow : 0 = c.val.toNat / 64 ^ 2 * 64 ^ 2 := hlow
        rw [← hlow]
        rfl
      · have hlow : 0 = c.val.toNat / 64 ^ 3 * 64 ^ 3 := hlow
        rw [← hlow]
        rfl
    · rw [if_neg hzero, hlow, hval]
      have hne : c.val.toNat / 64 ^ n * 64 ^ n ≠ 0 := by
        rw [← hval, ← hlow]
        exact fun hz => hzero (UInt32.toNat_inj.mp hz)
      interval_cases n
      · rw [leastCut_one] at hleast ⊢
        omega
      · rw [leastCut_two] at hleast ⊢
        omega
      · rw [leastCut_three] at hleast ⊢
        omega
  rw [UInt32.le_iff_toNat_le, UInt32.le_iff_toNat_le, hlowest, hhigh]
  interval_cases n <;> omega

end Interval

section Class
variable {c : Char} {pre : Text} {e : Element} {es : List Element}

/-- The test of a range against the bounds. -/
def Range.reaches (low high : UInt32) (r : Range) : Bool := decide (r.lo ≤ high) && decide (low ≤ r.hi)

/-- The loop stops at the first range that reaches into the interval. -/
theorem matchPartialLoop_eq (low high : UInt32) (isPositiveChar : Bool) : ∀ (e : Element) (es : List Element),
    Ends (e :: es) → List.IsChain Adj (e :: es) → e.type = .char ∨ e.type = .charNot ∨ e.type = .charAlt →
      matchPartialLoop low high isPositiveChar (e :: es) =
        if (classRanges (e :: es)).any (Range.reaches low high) then isPositiveChar else !isPositiveChar := by
  intro e es hends hchain he
  have hne : e.type ≠ .endRule := by rcases he with he | he | he <;> simp [he]
  have hany : e.type ≠ .charAny := by rcases he with he | he | he <;> simp [he]
  obtain ⟨u, rest, rfl, hends'⟩ := hends.exists_cons hne
  have hchain' := (List.isChain_cons_cons.mp hchain).2
  by_cases hu : u.type = .charRngUpper
  · obtain ⟨a, rest, rfl, hends''⟩ := hends'.exists_cons (by simp [hu])
    have hchain'' := (List.isChain_cons_cons.mp hchain').2
    by_cases hreach : Range.reaches low high ⟨e.value, u.value⟩ = true
    · have htest : (decide (e.value ≤ high) && decide (low ≤ u.value)) = true := hreach
      rw [matchPartialLoop, if_pos hu, if_pos htest]
      simp [classRanges, hu, hreach]
    · have htest : ¬ (decide (e.value ≤ high) && decide (low ≤ u.value)) = true := hreach
      rw [matchPartialLoop, if_pos hu, if_neg htest]
      by_cases ha : a.type = .charAlt
      · have ih := matchPartialLoop_eq low high isPositiveChar a rest hends'' hchain'' (.inr (.inr ha))
        simp only [ha, if_true, ih]
        simp [classRanges, hu, ha, hreach]
      · simp [classRanges, hu, ha, hreach]
  · have hsingle : Range.reaches low high ⟨e.value, e.value⟩ = (decide (low ≤ e.value) && decide (e.value ≤ high)) :=
      Bool.and_comm _ _
    unfold matchPartialLoop
    rw [if_neg hu, if_neg hany, classRanges_single rest hu]
    by_cases hreach : (decide (low ≤ e.value) && decide (e.value ≤ high)) = true
    · rw [if_pos hreach, List.any_cons, hsingle, hreach, Bool.true_or, if_pos rfl]
    · rw [if_neg hreach, List.any_cons, hsingle, Bool.eq_false_iff.mpr hreach, Bool.false_or]
      by_cases hu' : u.type = .charAlt
      · rw [if_pos hu', if_pos hu']
        exact matchPartialLoop_eq low high isPositiveChar u rest hends' hchain' (.inr (.inr hu'))
      · rw [if_neg hu', if_neg hu', List.any_nil, if_neg (by simp)]
termination_by _ es => es.length
decreasing_by all_goals simp_all; try omega

/-- What `llama_grammar_match_char` accepts. -/
def Accepts (pos : List Element) (chr : UInt32) : Prop := ∃ m, matchChar pos chr = .ok (true, m)

theorem accepts_iff (hw : WellFormed (e :: es)) (chr : UInt32) :
    (e.type = .char → (Accepts (e :: es) chr ↔ ∃ r ∈ classRanges (e :: es), r.lo ≤ chr ∧ chr ≤ r.hi)) ∧
    (e.type = .charNot → (Accepts (e :: es) chr ↔ ¬ ∃ r ∈ classRanges (e :: es), r.lo ≤ chr ∧ chr ≤ r.hi)) ∧
    (e.type = .charAny → Accepts (e :: es) chr) := by
  have hmatch : ∀ {k : CharClass}, e.type = .char ∨ e.type = .charNot ∨ e.type = .charAny →
      sequence (e :: es) = .cls k :: sequence es → (Accepts (e :: es) chr ↔ k.Hit chr) := by
    intro k he hseq
    obtain ⟨k', b, m, heq, hb, -, hseq'⟩ := matchChar_eq hw he chr
    rw [hseq] at hseq'
    obtain rfl : k = k' := Sym.cls.inj (List.cons.inj hseq').1
    rw [← hb, Accepts, heq]
    constructor
    · rintro ⟨_, h⟩
      exact congrArg Prod.fst (Except.ok.inj h)
    · rintro rfl
      exact ⟨m, rfl⟩
  refine ⟨fun he => ?_, fun he => ?_, fun he => ?_⟩
  · rw [hmatch (.inl he) (sequence_char es he), CharClass.Hit, eq_self, iff_true]
  · rw [hmatch (.inr (.inl he)) (sequence_charNot es he), CharClass.Hit]
    simp only [Bool.false_eq_true, iff_false]
  · exact (hmatch (.inr (.inr he)) (sequence_charAny es he)).mpr trivial

/-- The answer on the first bytes is that of some character which begins so. -/
def Exact (pos : List Element) (pre : Text) : Prop :=
  matchPartialChar pos (stateOf pre) = .ok true ↔ ∃ c : Char, pre <+: String.utf8EncodeChar c ∧ Accepts pos c.val

/-- A range that reaches into the interval: a positive class has a character there, a negated one has them all. -/
def Decided (pos : List Element) (pre : Text) : Prop :=
  ∀ e ∈ pos.head?, (∃ r ∈ classRanges pos, r.reaches (lowest (stateOf pre)) (highest (stateOf pre))) →
    (e.type = .char → ∃ c : Char, pre <+: String.utf8EncodeChar c ∧ ∃ r ∈ classRanges pos, r.lo ≤ c.val ∧ c.val ≤ r.hi) ∧
    (e.type = .charNot → ∀ c : Char, pre <+: String.utf8EncodeChar c → ∃ r ∈ classRanges pos, r.lo ≤ c.val ∧ c.val ≤ r.hi)

/-- **The answer is exact unless a range reaches into the interval where a positive class has no character, or a negated
one does not have all.** -/
theorem matchPartialChar_exact_iff (hw : WellFormed (e :: es)) (he : e.type = .char ∨ e.type = .charNot ∨ e.type = .charAny)
    (h : CutOff c pre) : Exact (e :: es) pre ↔ Decided (e :: es) pre := by
  obtain ⟨n, hn, hn', hcut⟩ := cut_of_prefix h
  have hleast : 128 ≤ leastCut n := by
    interval_cases n <;> decide
  have hstate : stateOf pre = (scan 0 0 pre).2 := by
    obtain ⟨rest, hrest⟩ := h.1
    have hcont := (scan_encode 0 c).2
    rw [← hrest, continued_append 0] at hcont
    refine stateOf_eq (fun hzero => ?_) hcont.1
    refine nul_notMem_encode (hleast.trans hcut.least) ?_
    rw [← hrest]
    exact List.mem_append_left rest hzero
  -- the characters that begin so are those in the interval
  have hmem : ∀ d : Char, pre <+: String.utf8EncodeChar d ↔
      lowest (stateOf pre) ≤ d.val ∧ d.val ≤ highest (stateOf pre) := by
    intro d
    rw [hstate, mem_interval hcut hn hn']
    refine ⟨fun hd => ?_, fun hd => hcut.same d hd.1 hd.2⟩
    have hoff : CutOff d pre := by
      refine ⟨hd, h.2.1, fun heq => ?_⟩
      have hnone := hcut.nRemain
      rw [heq, (scan_encode 0 d).1] at hnone
      have hzero : (0 : Int) = n := hnone
      omega
    obtain ⟨m, -, -, hcut'⟩ := cut_of_prefix hoff
    obtain rfl : m = n := Int.natCast_inj.mp (hcut'.nRemain.symm.trans hcut.nRemain)
    exact ⟨hcut'.value.symm.trans hcut.value, hcut'.least⟩
  have hloop : matchPartialChar (e :: es) (stateOf pre) =
      .ok (matchPartialLoop (lowest (stateOf pre)) (highest (stateOf pre)) (e.type = .char || e.type = .charAny)
        (e :: es)) := by
    have hguard : (e.type = .char || e.type = .charAny || e.type = .charNot) = true := by
      rcases he with he | he | he <;> simp [he]
    have hcomplete : ¬ ((stateOf pre).nRemain < 0 ∨ (stateOf pre).nRemain = 1 ∧ (stateOf pre).value < 2) := by
      rw [hstate, hcut.nRemain, UInt32.lt_iff_toNat_lt, hcut.value]
      rintro (hneg | ⟨hone, hlt⟩)
      · omega
      · obtain rfl : n = 1 := by omega
        have hleast := hcut.least
        rw [leastCut_one] at hleast
        have hlt : c.val.toNat / 64 ^ 1 < 2 := hlt
        omega
    rw [matchPartialChar, if_pos hguard, if_neg hcomplete]
    rfl
  -- a character of the interval in a range: the range reaches into it
  have hreach : ∀ {r : Range} {d : Char}, pre <+: String.utf8EncodeChar d → r.lo ≤ d.val → d.val ≤ r.hi →
      r.reaches (lowest (stateOf pre)) (highest (stateOf pre)) = true := by
    intro r d hd hlo hhi
    obtain ⟨hd1, hd2⟩ := (hmem d).mp hd
    rw [Range.reaches, Bool.and_eq_true, decide_eq_true_eq, decide_eq_true_eq]
    exact ⟨UInt32.le_trans hlo hd2, UInt32.le_trans hd1 hhi⟩
  have hexact : Exact (e :: es) pre ↔
      (matchPartialLoop (lowest (stateOf pre)) (highest (stateOf pre)) (e.type = .char || e.type = .charAny) (e :: es) =
        true ↔
        ∃ c : Char, pre <+: String.utf8EncodeChar c ∧ Accepts (e :: es) c.val) := by
    rw [Exact, hloop]
    simp only [Except.ok.injEq]
  have hdecided : Decided (e :: es) pre ↔
      ((classRanges (e :: es)).any (Range.reaches (lowest (stateOf pre)) (highest (stateOf pre))) = true →
        (e.type = .char →
          ∃ c : Char, pre <+: String.utf8EncodeChar c ∧ ∃ r ∈ classRanges (e :: es), r.lo ≤ c.val ∧ c.val ≤ r.hi) ∧
        (e.type = .charNot →
          ∀ c : Char, pre <+: String.utf8EncodeChar c → ∃ r ∈ classRanges (e :: es), r.lo ≤ c.val ∧ c.val ≤ r.hi)) := by
    rw [Decided, List.any_eq_true]
    simp only [List.head?_cons, Option.mem_some_iff, forall_eq']
  rw [hexact, hdecided]
  have hchain := (List.isChain_cons_cons.mp hw.chain).2
  rcases he with he | he | he
  · -- a positive class
    rw [matchPartialLoop_eq _ _ _ e es hw.ends hchain (.inl he)]
    simp only [(accepts_iff hw _).1 he]
    simp only [he, decide_true, Bool.true_or, Bool.not_true, reduceCtorEq, false_implies, and_true, true_implies]
    by_cases hany : (classRanges (e :: es)).any (Range.reaches (lowest (stateOf pre)) (highest (stateOf pre))) = true
    · rw [hany, if_pos rfl]
      simp only [true_iff, true_implies]
    · rw [Bool.eq_false_iff.mpr hany]
      refine ⟨fun _ h => (by cases h), fun _ => ⟨fun h => (by cases h), ?_⟩⟩
      rintro ⟨d, hd, r, hr, hlo, hhi⟩
      exact absurd (List.any_eq_true.mpr ⟨r, hr, hreach hd hlo hhi⟩) hany
  · -- a negated one
    rw [matchPartialLoop_eq _ _ _ e es hw.ends hchain (.inr (.inl he))]
    simp only [(accepts_iff hw _).2.1 he]
    simp only [he, reduceCtorEq, decide_false, Bool.false_or, Bool.not_false, false_implies, true_and, true_implies]
    by_cases hany : (classRanges (e :: es)).any (Range.reaches (lowest (stateOf pre)) (highest (stateOf pre))) = true
    · rw [hany, if_pos rfl]
      simp only [Bool.false_eq_true, false_iff, true_implies]
      refine ⟨fun h d hd => not_not.mp fun hn => h ⟨d, hd, hn⟩, ?_⟩
      rintro h ⟨d, hd, hn⟩
      exact hn (h d hd)
    · rw [Bool.eq_false_iff.mpr hany]
      refine ⟨fun _ h => (by cases h), fun _ => ⟨fun _ => ⟨c, h.1, ?_⟩, fun _ => by simp⟩⟩
      rintro ⟨r, hr, hlo, hhi⟩
      exact hany (List.any_eq_true.mpr ⟨r, hr, hreach h.1 hlo hhi⟩)
  · -- any character
    obtain ⟨u, rest, rfl, -⟩ := hw.ends.exists_cons (by simp [he])
    have hu : u.type ≠ .charRngUpper := fun hu => by simpa [he] using (List.isChain_cons_cons.mp hchain).1.1 hu
    have hloop : ∀ low high b, matchPartialLoop low high b (e :: u :: rest) = true := by
      intro low high b
      unfold matchPartialLoop
      rw [if_neg hu, if_pos he]
    rw [hloop]
    simp only [he, reduceCtorEq, false_implies, and_self, implies_true, iff_true, true_iff]
    exact ⟨c, h.1, (accepts_iff hw _).2.2 he⟩

/-- `[а-я]` and the first byte of `д`. -/
theorem matchPartialChar_exact_iff_cyrillic :
    Exact [⟨.char, 0x430⟩, ⟨.charRngUpper, 0x44F⟩, ⟨.endRule, 0⟩] [0xD0] ↔
      Decided [⟨.char, 0x430⟩, ⟨.charRngUpper, 0x44F⟩, ⟨.endRule, 0⟩] [0xD0] :=
  @matchPartialChar_exact_iff 'д' _ _ _
    ⟨⟨by decide, by decide, rfl⟩, by
      refine List.isChain_cons_cons.mpr ⟨⟨by decide, by decide⟩, List.isChain_cons_cons.mpr ⟨⟨by decide, by decide⟩,
        List.isChain_cons_cons.mpr ⟨⟨by decide, by decide⟩, List.isChain_singleton _⟩⟩⟩⟩
    (.inl rfl) ⟨by decide, by decide, by decide⟩

/-- `[^é]` and the first byte of `é`, which `è` begins with too. -/
theorem negated_not_exact : matchPartialChar [⟨.charNot, 0xE9⟩, ⟨.endRule, 0⟩] (stateOf [0xC3]) = .ok false ∧
    [0xC3] <+: String.utf8EncodeChar 'è' ∧ Accepts [⟨.charNot, 0xE9⟩, ⟨.endRule, 0⟩] 'è'.val ∧
    ¬ Exact [⟨.charNot, 0xE9⟩, ⟨.endRule, 0⟩] [0xC3] := by
  have hfalse : matchPartialChar [⟨.charNot, 0xE9⟩, ⟨.endRule, 0⟩] (stateOf [0xC3]) = .ok false := by decide +kernel
  have hbegins : [0xC3] <+: String.utf8EncodeChar 'è' := by decide
  have haccepts : Accepts [⟨.charNot, 0xE9⟩, ⟨.endRule, 0⟩] 'è'.val := ⟨1, by decide +kernel⟩
  refine ⟨hfalse, hbegins, haccepts, fun h => ?_⟩
  have htrue := h.mpr ⟨'è', hbegins, haccepts⟩
  rw [hfalse] at htrue
  cases htrue

end Class

end S2Moe.Grammar
