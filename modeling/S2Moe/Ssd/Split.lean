import Mathlib
import S2Moe.Ssd.Registry
import S2Moe.Kv.State

/-!
# Splitting packed experts

The loader replaces every packed expert tensor by one entry for each expert, an alias of the bytes in the same file. It
does so while it walks over the ordered map that the new entries go into.

* `matchPacked`, `matchSplit`, `parseSplitExpertName` : the names; `sliceName` : the printed one;
* `less` : the order of the map; `WeightsMap` : the map in that order;
* `Cursor`, `splitLoop`, `splitPackedSsdExperts` : the walk, which stands between two parts of the map;
* `splitPackedSsdExperts_spec` : it ends, and re-indexes the packed tensors exactly.
-/

namespace S2Moe.Ssd
open S2Moe.Kv (GgmlType)

/-! ## Names -/

abbrev Name := List Char

/-- `\d+`, which takes all the digits there are, since no other part of the patterns starts with one. -/
def scanDigits (s : Name) : Option (Name × Name) :=
  if s.takeWhile Char.isDigit = [] then none else some (s.takeWhile Char.isDigit, s.dropWhile Char.isDigit)

def Proj.chars : Proj → Name
  | .gate => ['g', 'a', 't', 'e']
  | .up => ['u', 'p']
  | .down => ['d', 'o', 'w', 'n']

/-- `(gate|up|down)`. -/
def scanProj (s : Name) : Option (Proj × Name) :=
  [.gate, .up, .down].findSome? fun p => (s.dropPrefix? p.chars).map fun r => (p, r)

def blkChars : Name := ['b', 'l', 'k', '.']
def ffnChars : Name := ['.', 'f', 'f', 'n', '_']
def expsChars : Name := ['_', 'e', 'x', 'p', 's', '.', 'w', 'e', 'i', 'g', 'h', 't']
def weightChars : Name := ['.', 'w', 'e', 'i', 'g', 'h', 't']

/-- The part that both patterns start with: the digits of the layer, the projection and what follows. -/
def scanHead (s : Name) : Option (Name × Proj × Name) := do
  let s ← s.dropPrefix? blkChars
  let (l, s) ← scanDigits s
  let s ← s.dropPrefix? ffnChars
  let (p, s) ← scanProj s
  return (l, p, s)

/-- The pattern of `split_packed_ssd_experts`. -/
def matchPacked (s : Name) : Option (Name × Proj) := do
  let (l, p, s) ← scanHead s
  if s = expsChars then some (l, p) else none

/-- The pattern of `parse_split_expert_name`, which does not capture the projection. -/
def matchSplit (s : Name) : Option (Name × Proj × Name) := do
  let (l, p, s) ← scanHead s
  let s ← s.dropPrefix? ['.']
  let (e, s) ← scanDigits s
  if s = weightChars then some (l, p, e) else none

def digitVal (c : Char) : Nat := c.toNat - '0'.toNat

/-- The number that the digits stand for. -/
def decimal (s : Name) : Nat := Nat.ofDigits 10 (s.reverse.map digitVal)

def intMax : Nat := 2 ^ 31 - 1

/-- `std::stoi` of digits: `none` when it throws `std::out_of_range`. -/
def stoi (s : Name) : Option Nat := if decimal s ≤ intMax then some (decimal s) else none

inductive ParseError where
  | outOfRange

/-- `parse_split_expert_name`. -/
def parseSplitExpertName (s : Name) : Except ParseError (Option (Nat × Nat)) :=
  match matchSplit s with
  | none => .ok none
  | some (l, _, e) =>
    match stoi l, stoi e with
    | some layer, some expert => .ok (some (layer, expert))
    | _, _ => .error .outOfRange

/-- `%03d`. -/
def padded (e : Nat) : Name := ((Nat.digits 10 e).reverse.map Nat.digitChar).leftpad 3 '0'

/-- `blk.L.ffn_P`, and what follows. -/
def headName (l : Name) (p : Proj) (rest : Name) : Name := blkChars ++ (l ++ (ffnChars ++ (p.chars ++ rest)))

/-- `blk.%s.ffn_%s.%03d.weight`. -/
def sliceName (l : Name) (p : Proj) (e : Nat) : Name := headName l p (['.'] ++ (padded e ++ weightChars))

/-! ### What the patterns match -/

theorem dropPrefix?_append_self {p s : Name} : (p ++ s).dropPrefix? p = some s := List.dropPrefix?_append_of_beq s (by simp)

theorem dropPrefix?_eq_some {s p r : Name} : s.dropPrefix? p = some r ↔ s = p ++ r := by
  rw [List.dropPrefix?_eq_some_iff]
  simp

/-- One digit or more, and no other character. -/
def Digits (l : Name) : Prop := l ≠ [] ∧ ∀ c ∈ l, c.isDigit = true

theorem scanDigits_append {l r : Name} (hl : Digits l) (hr : ∀ c ∈ r.head?, c.isDigit = false) :
    scanDigits (l ++ r) = some (l, r) := by
  have htake : (l ++ r).takeWhile Char.isDigit = l := by
    rw [List.takeWhile_append_of_pos hl.2]
    cases r with
    | nil => simp
    | cons c r => simp [hr c (by simp)]
  have hdrop : (l ++ r).dropWhile Char.isDigit = r := by
    rw [List.dropWhile_append_of_pos hl.2]
    cases r with
    | nil => rfl
    | cons c r => simp [hr c (by simp)]
  rw [scanDigits, htake, hdrop, if_neg hl.1]

theorem scanDigits_eq_some {s l r : Name} (h : scanDigits s = some (l, r)) : s = l ++ r ∧ Digits l := by
  rw [scanDigits] at h
  split at h
  · cases h
  · rename_i hne
    rw [Option.some.injEq, Prod.mk.injEq] at h
    obtain ⟨rfl, rfl⟩ := h
    exact ⟨(List.takeWhile_append_dropWhile).symm, hne, fun c hc => List.mem_takeWhile_imp hc⟩

theorem scanProj_append (p : Proj) (r : Name) : scanProj (p.chars ++ r) = some (p, r) := by
  cases p <;> simp [scanProj, Proj.chars, List.dropPrefix?]

theorem scanProj_eq_some {s r : Name} {p : Proj} (h : scanProj s = some (p, r)) : s = p.chars ++ r := by
  obtain ⟨q, -, hq⟩ := List.exists_of_findSome?_eq_some h
  rw [Option.map_eq_some_iff] at hq
  obtain ⟨t, ht, heq⟩ := hq
  rw [Prod.mk.injEq] at heq
  obtain ⟨rfl, rfl⟩ := heq
  exact dropPrefix?_eq_some.mp ht

theorem scanHead_headName {l : Name} (hl : Digits l) (p : Proj) (rest : Name) :
    scanHead (headName l p rest) = some (l, p, rest) := by
  have hffn : ∀ c ∈ (ffnChars ++ (p.chars ++ rest)).head?, c.isDigit = false := by
    intro c hc
    rw [ffnChars, List.cons_append, List.head?_cons, Option.mem_some_iff] at hc
    subst hc
    rfl
  simp only [scanHead, headName, dropPrefix?_append_self, scanDigits_append hl hffn, scanProj_append, Option.bind_eq_bind,
    Option.bind_some, Option.pure_def]

theorem scanHead_eq_some {s l rest : Name} {p : Proj} (h : scanHead s = some (l, p, rest)) :
    s = headName l p rest ∧ Digits l := by
  simp only [scanHead, Option.bind_eq_bind, Option.bind_eq_some_iff, Option.pure_def, Option.some.injEq, Prod.mk.injEq,
    Prod.exists] at h
  obtain ⟨s₁, h₁, l', s₂, h₂, s₃, h₃, p', s₄, h₄, rfl, rfl, rfl⟩ := h
  obtain ⟨rfl, hl⟩ := scanDigits_eq_some h₂
  rw [dropPrefix?_eq_some.mp h₁, dropPrefix?_eq_some.mp h₃, scanProj_eq_some h₄]
  exact ⟨rfl, hl⟩

theorem matchPacked_eq_some {s l : Name} {p : Proj} : matchPacked s = some (l, p) ↔ s = headName l p expsChars ∧
    Digits l := by
  constructor
  · intro h
    simp only [matchPacked, Option.bind_eq_bind, Option.bind_eq_some_iff, Prod.exists] at h
    obtain ⟨l', p', r, hhead, hif⟩ := h
    split at hif
    · rename_i hr
      rw [Option.some.injEq, Prod.mk.injEq] at hif
      obtain ⟨rfl, rfl⟩ := hif
      subst hr
      exact scanHead_eq_some hhead
    · cases hif
  · rintro ⟨rfl, hl⟩
    simp only [matchPacked, scanHead_headName hl, Option.bind_eq_bind, Option.bind_some, if_true]

theorem matchPacked_sliceName {l : Name} (hl : Digits l) (p : Proj) (e : Nat) : matchPacked (sliceName l p e) = none := by
  simp [matchPacked, sliceName, scanHead_headName hl, expsChars]

theorem matchSplit_headName_exps {l : Name} (hl : Digits l) (p : Proj) : matchSplit (headName l p expsChars) = none := by
  simp [matchSplit, scanHead_headName hl, expsChars, List.dropPrefix?]

/-! ### What is printed is read back -/

theorem digitVal_digitChar {d : Nat} (hd : d < 10) : digitVal (Nat.digitChar d) = d := by
  interval_cases d <;> rfl

theorem digits_padded (e : Nat) : Digits (padded e) := by
  have hmem : ∀ c ∈ padded e, c.isDigit = true := by
    intro c hc
    rw [padded, List.leftpad, List.mem_append, List.mem_replicate, List.mem_map] at hc
    rcases hc with ⟨-, rfl⟩ | ⟨d, hd, rfl⟩
    · rfl
    · rw [Nat.isDigit_digitChar, decide_eq_true (Nat.digits_lt_base (by omega) (List.mem_reverse.mp hd))]
  refine ⟨fun h => ?_, hmem⟩
  have hlen := congrArg List.length h
  rw [padded, List.length_leftpad, List.length_nil] at hlen
  omega

theorem decimal_padded (e : Nat) : decimal (padded e) = e := by
  have hzeros (n : Nat) : (List.replicate n '0').map digitVal = List.replicate n 0 := by
    rw [List.map_replicate]
    rfl
  have hdigits : ((Nat.digits 10 e).map Nat.digitChar).map digitVal = Nat.digits 10 e := by
    rw [List.map_map]
    refine (List.map_congr_left fun d hd => ?_).trans (List.map_id _)
    exact digitVal_digitChar (Nat.digits_lt_base (by omega) hd)
  rw [decimal, padded, List.leftpad, List.reverse_append, List.reverse_replicate, ← List.map_reverse, List.reverse_reverse,
    List.map_append, hdigits, hzeros, Nat.ofDigits_append_replicate_zero, Nat.ofDigits_digits]

theorem matchSplit_sliceName {l : Name} (hl : Digits l) (p : Proj) (e : Nat) :
    matchSplit (sliceName l p e) = some (l, p, padded e) := by
  have hw : ∀ c ∈ weightChars.head?, c.isDigit = false := by
    intro c hc
    rw [← Option.some.inj hc]
    rfl
  simp only [matchSplit, sliceName, scanHead_headName hl, dropPrefix?_append_self, scanDigits_append (digits_padded e) hw,
    Option.bind_eq_bind, Option.bind_some, if_true]

theorem sliceName_inj {l l' : Name} {p p' : Proj} {e e' : Nat} (hl : Digits l) (hl' : Digits l')
    (h : sliceName l p e = sliceName l' p' e') : l = l' ∧ p = p' ∧ e = e' := by
  have hmatch := matchSplit_sliceName hl p e
  rw [h, matchSplit_sliceName hl' p' e', Option.some.injEq, Prod.mk.injEq, Prod.mk.injEq] at hmatch
  obtain ⟨rfl, rfl, hpad⟩ := hmatch
  have hval := congrArg decimal hpad
  rw [decimal_padded, decimal_padded] at hval
  exact ⟨rfl, rfl, hval.symm⟩

theorem parseSplitExpertName_sliceName {l : Name} (hl : Digits l) (p : Proj) {e : Nat} (hlayer : decimal l ≤ intMax)
    (he : e ≤ intMax) : parseSplitExpertName (sliceName l p e) = .ok (some (decimal l, e)) := by
  simp only [parseSplitExpertName, matchSplit_sliceName hl, stoi, decimal_padded, if_pos hlayer, if_pos he]

/-! ## The order of the map -/

/-- What `isspace` accepts. -/
def isSpace (c : Char) : Bool := c.toNat = 32 || (9 ≤ c.toNat && c.toNat ≤ 13)

/-- `%d` of `sscanf`: `none` when there is no number, which leaves the argument as it is. -/
def scanInt (s : Name) : Option Int :=
  let s := s.dropWhile isSpace
  let neg := s.head? = some '-'
  let s := if neg ∨ s.head? = some '+' then s.tail else s
  if s.takeWhile Char.isDigit = [] then none
  else
    let n : Int := decimal (s.takeWhile Char.isDigit)
    some (Int.bmod (max (-2 ^ 63) (min (2 ^ 63 - 1) (if neg then -n else n))) (2 ^ 32))

/-- The layer that `weight_name_comparer` reads. -/
def scanLayer (s : Name) : Int := ((s.dropPrefix? blkChars).bind scanInt).getD (-1)

/-- `weight_name_comparer`. -/
def less (a b : Name) : Bool :=
  if scanLayer a ≠ scanLayer b then scanLayer a < scanLayer b else a < b

/-- The order compares the layers, and then the names. -/
def orderKey (n : Name) : Int ×ₗ Name := toLex (scanLayer n, n)

theorem less_iff {a b : Name} : less a b = true ↔ orderKey a < orderKey b := by
  rw [less, orderKey, orderKey, Prod.Lex.toLex_lt_toLex]
  dsimp only
  split
  · rename_i hne
    simp [hne]
  · rename_i heq
    rw [not_not] at heq
    simp [heq]

theorem orderKey_inj {a b : Name} (h : orderKey a = orderKey b) : a = b := by
  rw [orderKey, orderKey, toLex_inj, Prod.mk.injEq] at h
  exact h.2

theorem less_trans {a b c : Name} (h : less a b = true) (h' : less b c = true) : less a c = true := by
  rw [less_iff] at h h' ⊢
  exact h.trans h'

theorem not_less_self (a : Name) : ¬ less a a = true := by
  rw [less_iff]
  exact lt_irrefl _

theorem less_or_of_ne {a b : Name} (h : a ≠ b) : less a b = true ∨ less b a = true := by
  rw [less_iff, less_iff]
  exact lt_or_gt_of_ne fun heq => h (orderKey_inj heq)

/-! ## Tensors and the map -/

/-- The header of a tensor of a model file: whole blocks in a row, and the element size as the first stride. -/
structure Header where
  type : GgmlType
  ne : Fin 4 → Nat
  nb : Fin 4 → Nat
  nb_zero : nb 0 = type.size
  blck_dvd : type.blck ∣ ne 0

/-- `ggml_is_contiguous`: the expected stride behind the dimensions seen so far, and whether all of them had theirs. -/
def contiguousStep (t : Header) (acc : Nat × Bool) (i : Fin 4) : Nat × Bool :=
  if t.ne i ≠ 1 then (acc.1 * t.ne i, acc.2 && t.nb i = acc.1) else acc

def Header.isContiguous (t : Header) : Bool :=
  if t.ne 0 ≠ t.type.blck ∧ t.nb 0 ≠ t.type.size then false
  else ([1, 2, 3].foldl (contiguousStep t) (t.type.size * (t.ne 0 / t.type.blck), true)).2

/-- `ggml_nbytes`. -/
def Header.nbytes (t : Header) : Nat :=
  if ∃ i, t.ne i = 0 then 0
  else
    if t.type.blck = 1 then t.type.size + ((t.ne 0 - 1) * t.nb 0 + (t.ne 1 - 1) * t.nb 1 + (t.ne 2 - 1) * t.nb 2 +
      (t.ne 3 - 1) * t.nb 3)
    else t.ne 0 * t.nb 0 / t.type.blck + ((t.ne 1 - 1) * t.nb 1 + (t.ne 2 - 1) * t.nb 2 + (t.ne 3 - 1) * t.nb 3)

/-- `ggml_new_tensor_2d`. -/
def newTensor2d (type : GgmlType) (ne0 ne1 : Nat) (h : type.blck ∣ ne0) : Header where
  type := type
  ne := ![ne0, ne1, 1, 1]
  nb := ![type.size, type.size * (ne0 / type.blck), type.size * (ne0 / type.blck) * ne1, type.size * (ne0 / type.blck) * ne1]
  nb_zero := rfl
  blck_dvd := h

/-- `llama_tensor_weight`. -/
structure Weight where
  idx : Nat
  offs : Nat
  tensor : Header

/-- The alias for one expert. -/
def Weight.slice (w : Weight) (e : Nat) : Weight where
  idx := w.idx
  offs := (w.offs + e * w.tensor.nb 2) % 2 ^ 64
  tensor := newTensor2d w.tensor.type (w.tensor.ne 0) (w.tensor.ne 1) w.tensor.blck_dvd

/-- The bytes of the file. -/
def Weight.bytes (w : Weight) : Set Nat := Set.Ico w.offs (w.offs + w.tensor.nbytes)

abbrev Entries := List (Name × Weight)

/-- `weights_map`. -/
structure WeightsMap where
  entries : Entries
  sorted : entries.Pairwise fun x y => less x.1 y.1 = true

/-- Inserts an entry in its place. `none` when the name is taken. -/
def insertEntry (x : Name × Weight) : Entries → Option Entries
  | [] => some [x]
  | y :: l =>
    if less x.1 y.1 then some (x :: y :: l)
    else if less y.1 x.1 then (insertEntry x l).map (y :: ·)
    else none

/-! ## The walk -/

inductive SplitError where
  | layout (name : Name)
  | mixed (name : Name)

def SplitError.text : SplitError → String
  | .layout n => "unsupported packed SSD expert layout: " ++ String.ofList n
  | .mixed n => "mixed packed/split SSD expert: " ++ String.ofList n

/-- The two parts of the map that the iterator stands between, without the entry it stands at. -/
structure Cursor where
  before : Entries
  rest : Entries

/-- `emplace`, while the iterator stands at `cur`. -/
def Cursor.emplace (cur : Name) (x : Name × Weight) (c : Cursor) : Except SplitError Cursor :=
  let placed :=
    if less x.1 cur then (insertEntry x c.before).map fun l => { c with before := l }
    else if less cur x.1 then (insertEntry x c.rest).map fun l => { c with rest := l }
    else none
  match placed with
  | some c => .ok c
  | none => .error (.mixed x.1)

/-- The entry of an expert. -/
def sliceEntry (l : Name) (p : Proj) (w : Weight) (e : Nat) : Name × Weight := (sliceName l p e, w.slice e)

/-- The entries of the experts of a packed tensor. -/
def sliceEntries (l : Name) (p : Proj) (w : Weight) : Entries := (List.range (w.tensor.ne 2)).map (sliceEntry l p w)

/-- The loop over the experts. -/
def emplaceAll (cur : Name) (ys : Entries) (c : Cursor) : Except SplitError Cursor :=
  ys.foldlM (fun c y => Cursor.emplace cur y c) c

def splitLoop : Nat → Cursor → Option (Except SplitError Entries)
  | 0, _ => none
  | _ + 1, ⟨before, []⟩ => some (.ok before)
  | fuel + 1, ⟨before, x :: rest⟩ =>
    match matchPacked x.1 with
    | none => splitLoop fuel ⟨before ++ [x], rest⟩
    | some (l, p) =>
      if x.2.tensor.isContiguous = false ∨ x.2.tensor.ne 3 ≠ 1 ∨ x.2.tensor.ne 2 < 1 then some (.error (.layout x.1))
      else
        match emplaceAll x.1 (sliceEntries l p x.2) ⟨before, rest⟩ with
        | .error e => some (.error e)
        | .ok c => splitLoop fuel c

/-- The experts of the packed tensors, counted first. -/
def packedCount (m : Entries) : Nat := (m.map fun x => if (matchPacked x.1).isSome then x.2.tensor.ne 2 else 0).sum

/-- `split_packed_ssd_experts`. `none` when `fuel` steps of the walk are too few. -/
def splitPackedSsdExperts (fuel : Nat) (m : WeightsMap) : Option (Except SplitError Entries) :=
  if packedCount m.entries = 0 then some (.ok m.entries) else splitLoop fuel ⟨[], m.entries⟩

/-! ### Inserting -/

/-- The entries are in the order of the map. -/
def Sorted (l : Entries) : Prop := l.Pairwise fun x y => less x.1 y.1 = true

theorem insertEntry_spec {x : Name × Weight} : ∀ {l : Entries}, Sorted l → x.1 ∉ l.map Prod.fst →
    ∃ l', insertEntry x l = some l' ∧ l'.Perm (x :: l) ∧ Sorted l'
  | [], _, _ => ⟨[x], rfl, List.Perm.refl _, List.pairwise_singleton _ _⟩
  | y :: l, hs, hx => by
    rw [List.map_cons, List.mem_cons, not_or] at hx
    obtain ⟨hy, hl⟩ := List.pairwise_cons.mp hs
    by_cases hlt : less x.1 y.1 = true
    · refine ⟨x :: y :: l, by rw [insertEntry, if_pos hlt], List.Perm.refl _, List.pairwise_cons.mpr ⟨fun z hz => ?_, hs⟩⟩
      rcases List.mem_cons.mp hz with rfl | hz
      · exact hlt
      · exact less_trans hlt (hy z hz)
    · have hgt : less y.1 x.1 = true := (less_or_of_ne hx.1).resolve_left hlt
      obtain ⟨l', heq, hperm, hs'⟩ := insertEntry_spec hl hx.2
      refine ⟨y :: l', ?_, (hperm.cons y).trans (List.Perm.swap _ _ _), List.pairwise_cons.mpr ⟨fun z hz => ?_, hs'⟩⟩
      · rw [insertEntry, if_neg hlt, if_pos hgt, heq, Option.map_some]
      · rcases List.mem_cons.mp (hperm.mem_iff.mp hz) with rfl | hz
        · exact hgt
        · exact hy z hz

/-- The map behind the cursor. -/
def Cursor.all (cur : Name × Weight) (c : Cursor) : Entries := c.before ++ cur :: c.rest

/-- A new entry goes to the part of the map that it belongs to. -/
theorem Cursor.emplace_spec {cur y : Name × Weight} {c : Cursor} (hs : Sorted (c.all cur))
    (hy : y.1 ∉ (c.all cur).map Prod.fst) :
    ∃ c', Cursor.emplace cur.1 y c = .ok c' ∧ Sorted (c'.all cur) ∧
      (c'.before.Perm (y :: c.before) ∧ c'.rest = c.rest ∨ c'.before = c.before ∧ c'.rest.Perm (y :: c.rest)) := by
  rw [Cursor.all, Sorted, List.pairwise_append, List.pairwise_cons] at hs
  obtain ⟨hb, ⟨hcur, hr⟩, hbr⟩ := hs
  rw [Cursor.all, List.map_append, List.map_cons, List.mem_append, List.mem_cons, not_or, not_or] at hy
  obtain ⟨hyb, hyc, hyr⟩ := hy
  by_cases hlt : less y.1 cur.1 = true
  · obtain ⟨l, heq, hperm, hl⟩ := insertEntry_spec hb hyb
    refine ⟨⟨l, c.rest⟩, by simp only [emplace, if_pos hlt, heq, Option.map_some], ?_, .inl ⟨hperm, rfl⟩⟩
    refine List.pairwise_append.mpr ⟨hl, List.pairwise_cons.mpr ⟨hcur, hr⟩, fun z hz t ht => ?_⟩
    rcases List.mem_cons.mp (hperm.mem_iff.mp hz) with rfl | hz
    · rcases List.mem_cons.mp ht with rfl | ht
      · exact hlt
      · exact less_trans hlt (hcur t ht)
    · exact hbr z hz t ht
  · have hgt : less cur.1 y.1 = true := (less_or_of_ne hyc).resolve_left hlt
    obtain ⟨l, heq, hperm, hl⟩ := insertEntry_spec hr hyr
    refine ⟨⟨c.before, l⟩, by simp only [emplace, if_neg hlt, if_pos hgt, heq, Option.map_some], ?_, .inr ⟨rfl, hperm⟩⟩
    have hall : ∀ t ∈ l, less cur.1 t.1 = true := by
      intro t ht
      rcases List.mem_cons.mp (hperm.mem_iff.mp ht) with rfl | ht
      · exact hgt
      · exact hcur t ht
    refine List.pairwise_append.mpr ⟨hb, List.pairwise_cons.mpr ⟨hall, hl⟩, fun z hz t ht => ?_⟩
    rcases List.mem_cons.mp ht with rfl | ht
    · exact hbr z hz t List.mem_cons_self
    · exact less_trans (hbr z hz cur List.mem_cons_self) (hall t ht)

/-- All the new entries go into the map, some of them before the cursor and the others behind it. -/
theorem emplaceAll_spec {cur : Name × Weight} : ∀ {ys : Entries} {c : Cursor}, Sorted (c.all cur) →
    (ys.map Prod.fst).Nodup → (∀ y ∈ ys, y.1 ∉ (c.all cur).map Prod.fst) →
    ∃ c' A B, emplaceAll cur.1 ys c = .ok c' ∧ Sorted (c'.all cur) ∧ c'.before.Perm (A ++ c.before) ∧
      c'.rest.Perm (B ++ c.rest) ∧
      (A ++ B).Perm ys
  | [], c, hs, _, _ => ⟨c, [], [], rfl, hs, List.Perm.refl _, List.Perm.refl _, List.Perm.refl _⟩
  | y :: ys, c, hs, hnd, hno => by
    rw [List.map_cons, List.nodup_cons] at hnd
    obtain ⟨c₁, heq, hs₁, hparts⟩ := Cursor.emplace_spec hs (hno y List.mem_cons_self)
    have hall : (c₁.all cur).Perm (y :: c.all cur) := by
      rcases hparts with ⟨hb, hr⟩ | ⟨hb, hr⟩
      · rw [Cursor.all, Cursor.all, hr]
        exact hb.append_right _
      · rw [Cursor.all, Cursor.all, hb]
        exact ((hr.cons cur).append_left _).trans (((List.Perm.swap y cur _).append_left _).trans List.perm_middle)
    have hno₁ : ∀ z ∈ ys, z.1 ∉ (c₁.all cur).map Prod.fst := by
      intro z hz hmem
      rw [(hall.map Prod.fst).mem_iff, List.map_cons, List.mem_cons] at hmem
      rcases hmem with hzy | hmem
      · exact hnd.1 (hzy ▸ List.mem_map_of_mem hz)
      · exact hno z (List.mem_cons_of_mem _ hz) hmem
    obtain ⟨c', A, B, hrun, hs', hA, hB, hAB⟩ := emplaceAll_spec hs₁ hnd.2 hno₁
    have hrun' : emplaceAll cur.1 (y :: ys) c = .ok c' := by
      rw [emplaceAll, List.foldlM_cons, heq]
      exact hrun
    rcases hparts with ⟨hb, hr⟩ | ⟨hb, hr⟩
    · refine ⟨c', y :: A, B, hrun', hs', ?_, hr ▸ hB, hAB.cons y⟩
      exact hA.trans ((hb.append_left A).trans List.perm_middle)
    · refine ⟨c', A, y :: B, hrun', hs', hb ▸ hA, ?_, List.perm_middle.trans (hAB.cons y)⟩
      exact hB.trans ((hr.append_left B).trans List.perm_middle)

/-! ### The walk ends -/

/-- What an entry turns into. -/
def expand (x : Name × Weight) : Entries :=
  match matchPacked x.1 with
  | none => [x]
  | some (l, p) => sliceEntries l p x.2

/-- The steps that the walk takes for an entry that is still ahead: its own, and one for each of its slices. -/
def cost (x : Name × Weight) : Nat := 1 + if (matchPacked x.1).isSome then x.2.tensor.ne 2 else 0

/-- A packed tensor that the loader accepts. -/
def Layout (x : Name × Weight) : Prop :=
  (matchPacked x.1).isSome → x.2.tensor.isContiguous = true ∧ x.2.tensor.ne 3 = 1 ∧ 1 ≤ x.2.tensor.ne 2

theorem matchPacked_sliceEntries {l : Name} {p : Proj} {w : Weight} (hl : Digits l) {y : Name × Weight}
    (hy : y ∈ sliceEntries l p w) : matchPacked y.1 = none := by
  obtain ⟨e, -, rfl⟩ := List.mem_map.mp hy
  exact matchPacked_sliceName hl p e

theorem flatMap_expand_eq_self : ∀ {ys : Entries}, (∀ y ∈ ys, matchPacked y.1 = none) → ys.flatMap expand = ys
  | [], _ => rfl
  | y :: ys, h => by
    have hy : expand y = [y] := by simp only [expand, h y List.mem_cons_self]
    rw [List.flatMap_cons, hy, flatMap_expand_eq_self fun z hz => h z (List.mem_cons_of_mem _ hz)]
    rfl

theorem sum_cost_eq_length : ∀ {ys : Entries}, (∀ y ∈ ys, matchPacked y.1 = none) → (ys.map cost).sum = ys.length
  | [], _ => rfl
  | y :: ys, h => by
    rw [List.map_cons, List.sum_cons, sum_cost_eq_length fun z hz => h z (List.mem_cons_of_mem _ hz), cost,
      h y List.mem_cons_self, List.length_cons]
    simp only [Option.isSome_none, Bool.false_eq_true, if_false]
    omega

/-- **The walk.** With enough steps it ends, and every entry has become what it expands to. -/
theorem splitLoop_spec : ∀ {fuel : Nat} {c : Cursor}, (c.rest.map cost).sum < fuel → Sorted (c.before ++ c.rest) →
    (∀ x ∈ c.before, matchPacked x.1 = none) → (∀ x ∈ c.rest, Layout x) →
    (((c.before ++ c.rest).flatMap expand).map Prod.fst).Nodup →
    ∃ m, splitLoop fuel c = some (.ok m) ∧ m.Perm ((c.before ++ c.rest).flatMap expand) ∧ Sorted m
  | _ + 1, ⟨before, []⟩, _, hs, hb, _, _ => by
    rw [List.append_nil] at hs ⊢
    exact ⟨before, rfl, by rw [flatMap_expand_eq_self hb], hs⟩
  | fuel + 1, ⟨before, x :: rest⟩, hfuel, hs, hb, hlay, hnd => by
    dsimp only at hfuel hs hb hlay hnd ⊢
    rw [List.map_cons, List.sum_cons] at hfuel
    cases hx : matchPacked x.1 with
    | none =>
      -- the iterator steps over an entry that is not packed
      have hmid : (before ++ [x]) ++ rest = before ++ x :: rest := List.append_assoc _ _ _
      have hcost : (rest.map cost).sum < fuel := by
        rw [cost] at hfuel
        omega
      have hb' : ∀ y ∈ before ++ [x], matchPacked y.1 = none := by
        intro y hy
        rcases List.mem_append.mp hy with hy | hy
        · exact hb y hy
        · rw [List.mem_singleton.mp hy]
          exact hx
      obtain ⟨m, hrun, hperm, hm⟩ := splitLoop_spec (c := ⟨before ++ [x], rest⟩) hcost (hmid ▸ hs) hb'
        (fun y hy => hlay y (List.mem_cons_of_mem _ hy)) (hmid ▸ hnd)
      refine ⟨m, ?_, hmid ▸ hperm, hm⟩
      rw [splitLoop, hx]
      exact hrun
    | some lp =>
      obtain ⟨l, p⟩ := lp
      have hl : Digits l := (matchPacked_eq_some.mp hx).2
      obtain ⟨hcont, hne3, hne2⟩ := hlay x List.mem_cons_self (by rw [hx]; rfl)
      have hexp : expand x = sliceEntries l p x.2 := by rw [expand, hx]
      have hunpacked : ∀ y ∈ sliceEntries l p x.2, matchPacked y.1 = none := fun y hy => matchPacked_sliceEntries hl hy
      have hpush : (before ++ x :: rest).Perm (x :: (before ++ rest)) := List.perm_middle
      have hnd₁ : ((sliceEntries l p x.2 ++ (before ++ rest).flatMap expand).map Prod.fst).Nodup := by
        have := ((hpush.flatMap_right expand).map Prod.fst).nodup_iff.mp hnd
        rwa [List.flatMap_cons, hexp] at this
      rw [List.map_append, List.nodup_append'] at hnd₁
      obtain ⟨hndY, -, hdisj⟩ := hnd₁
      -- no name of a slice is taken
      have hfree : ∀ y ∈ sliceEntries l p x.2, y.1 ∉ ((Cursor.mk before rest).all x).map Prod.fst := by
        intro y hy hmem
        obtain ⟨z, hz, hzy⟩ := List.mem_map.mp hmem
        have hznone : matchPacked z.1 = none := by
          rw [hzy]
          exact hunpacked y hy
        rcases List.mem_cons.mp (hpush.mem_iff.mp hz) with rfl | hz
        · rw [hx] at hznone
          cases hznone
        · refine hdisj (List.mem_map_of_mem hy) (List.mem_map.mpr ⟨z, List.mem_flatMap.mpr ⟨z, hz, ?_⟩, hzy⟩)
          simp only [expand, hznone, List.mem_singleton]
      obtain ⟨c', A, B, hrun, hs', hA, hB, hAB⟩ := emplaceAll_spec (c := ⟨before, rest⟩) hs hndY hfree
      have hAnone : ∀ y ∈ A, matchPacked y.1 = none :=
        fun y hy => hunpacked y (hAB.mem_iff.mp (List.mem_append_left _ hy))
      have hBnone : ∀ y ∈ B, matchPacked y.1 = none :=
        fun y hy => hunpacked y (hAB.mem_iff.mp (List.mem_append_right _ hy))
      have hparts : (c'.before ++ c'.rest).Perm (sliceEntries l p x.2 ++ (before ++ rest)) := by
        refine (hA.append hB).trans (List.Perm.trans ?_ (hAB.append_right _))
        rw [List.append_assoc, List.append_assoc]
        exact (List.perm_append_comm_assoc before B rest).append_left A
      have hperm' : ((c'.before ++ c'.rest).flatMap expand).Perm ((before ++ x :: rest).flatMap expand) := by
        refine (hparts.flatMap_right expand).trans (List.Perm.trans ?_ (hpush.flatMap_right expand).symm)
        rw [List.flatMap_append, flatMap_expand_eq_self hunpacked, List.flatMap_cons, hexp]
      have hcost' : (c'.rest.map cost).sum < fuel := by
        rw [((hB.map cost).sum_eq), List.map_append, List.sum_append, sum_cost_eq_length hBnone]
        have hlen := hAB.length_eq
        rw [List.length_append, sliceEntries, List.length_map, List.length_range] at hlen
        rw [cost, hx] at hfuel
        simp only [Option.isSome_some, if_true] at hfuel
        dsimp only
        omega
      have hsorted' : Sorted (c'.before ++ c'.rest) :=
        hs'.sublist ((List.sublist_cons_self x c'.rest).append_left c'.before)
      have hb' : ∀ y ∈ c'.before, matchPacked y.1 = none := by
        intro y hy
        rcases List.mem_append.mp (hA.mem_iff.mp hy) with hy | hy
        · exact hAnone y hy
        · exact hb y hy
      have hlay' : ∀ y ∈ c'.rest, Layout y := by
        intro y hy
        rcases List.mem_append.mp (hB.mem_iff.mp hy) with hy | hy
        · intro hsome
          rw [hBnone y hy] at hsome
          cases hsome
        · exact hlay y (List.mem_cons_of_mem _ hy)
      obtain ⟨m, hm, hmperm, hmsorted⟩ := splitLoop_spec hcost' hsorted' hb' hlay'
        ((hperm'.map Prod.fst).nodup_iff.mpr hnd)
      refine ⟨m, ?_, hmperm.trans hperm', hmsorted⟩
      have hok : ¬ (x.2.tensor.isContiguous = false ∨ x.2.tensor.ne 3 ≠ 1 ∨ x.2.tensor.ne 2 < 1) := by
        rw [hcont]
        simp only [Bool.true_eq_false, false_or]
        omega
      rw [splitLoop, hx]
      dsimp only
      rw [if_neg hok, hrun]
      exact hm

/-! ### The bytes -/

/-- The bytes of a row. -/
def Header.row (t : Header) : Nat := t.type.size * (t.ne 0 / t.type.blck)

/-- The bytes of whole blocks. -/
theorem row_eq_div (t : Header) : t.ne 0 * t.nb 0 / t.type.blck = t.row := by
  obtain ⟨k, hk⟩ := t.blck_dvd
  rw [Header.row, t.nb_zero, hk]
  rcases Nat.eq_zero_or_pos t.type.blck with hb | hb
  · rw [hb]
    simp
  · rw [Nat.mul_div_cancel_left k hb, Nat.mul_assoc, Nat.mul_div_cancel_left _ hb, Nat.mul_comm]

/-- The strides of a contiguous tensor, where they matter. -/
theorem nb_of_isContiguous {t : Header} (h : t.isContiguous = true) :
    (t.ne 1 ≠ 1 → t.nb 1 = t.row) ∧ (t.ne 2 ≠ 1 → t.nb 2 = t.row * t.ne 1) := by
  rw [Header.isContiguous] at h
  split at h
  · cases h
  · rw [List.foldl_cons, List.foldl_cons, List.foldl_cons, List.foldl_nil] at h
    rw [← Header.row] at h
    by_cases h1 : t.ne 1 = 1 <;> by_cases h2 : t.ne 2 = 1 <;> by_cases h3 : t.ne 3 = 1 <;>
      simp_all [contiguousStep]

theorem pred_mul_add {n k : Nat} (hn : n ≠ 0) : (n - 1) * k + k = n * k := by
  obtain ⟨m, rfl⟩ := Nat.exists_eq_succ_of_ne_zero hn
  rw [Nat.succ_sub_one, Nat.succ_mul]

/-- A tensor with elements holds its first row and what the strides skip. -/
theorem nbytes_eq_row_add {t : Header} (h : ∀ i, t.ne i ≠ 0) :
    t.nbytes = t.row + ((t.ne 1 - 1) * t.nb 1 + (t.ne 2 - 1) * t.nb 2 + (t.ne 3 - 1) * t.nb 3) := by
  rw [Header.nbytes, if_neg fun ⟨i, hi⟩ => h i hi]
  split
  · rename_i hb
    have hrow : t.row = t.ne 0 * t.type.size := by rw [Header.row, hb, Nat.div_one, Nat.mul_comm]
    have hpred := pred_mul_add (k := t.type.size) (h 0)
    rw [t.nb_zero]
    omega
  · rw [row_eq_div]

theorem nbytes_of_ne_eq_zero {t : Header} {i : Fin 4} (h : t.ne i = 0) : t.nbytes = 0 := by
  rw [Header.nbytes, if_pos ⟨i, h⟩]

/-- The size of a contiguous tensor. -/
theorem nbytes_of_isContiguous {t : Header} (h : t.isContiguous = true) (h3 : t.ne 3 = 1) (h2 : 1 ≤ t.ne 2) :
    t.nbytes = t.ne 2 * (t.row * t.ne 1) := by
  obtain ⟨hnb1, hnb2⟩ := nb_of_isContiguous h
  by_cases h0 : t.ne 0 = 0
  · rw [nbytes_of_ne_eq_zero h0, Header.row, h0, Nat.zero_div, Nat.mul_zero, Nat.zero_mul, Nat.mul_zero]
  by_cases h1 : t.ne 1 = 0
  · rw [nbytes_of_ne_eq_zero h1, h1, Nat.mul_zero, Nat.mul_zero]
  have hpos : ∀ i, t.ne i ≠ 0 := by
    intro i
    fin_cases i
    · exact h0
    · exact h1
    · exact Nat.one_le_iff_ne_zero.mp h2
    · rw [show t.ne ⟨3, by omega⟩ = 1 from h3]
      exact Nat.one_ne_zero
  rw [nbytes_eq_row_add hpos, h3]
  have hmat : t.row + (t.ne 1 - 1) * t.nb 1 = t.row * t.ne 1 := by
    by_cases hone : t.ne 1 = 1
    · rw [hone]
      omega
    · rw [hnb1 hone, Nat.add_comm, pred_mul_add h1, Nat.mul_comm]
  have hcube : t.row * t.ne 1 + (t.ne 2 - 1) * t.nb 2 = t.ne 2 * (t.row * t.ne 1) := by
    by_cases hone : t.ne 2 = 1
    · rw [hone]
      omega
    · rw [hnb2 hone, Nat.add_comm, pred_mul_add (by omega)]
  omega

theorem nbytes_newTensor2d (type : GgmlType) (ne0 ne1 : Nat) (h : type.blck ∣ ne0) :
    (newTensor2d type ne0 ne1 h).nbytes = type.size * (ne0 / type.blck) * ne1 := by
  by_cases h0 : ne0 = 0
  · rw [nbytes_of_ne_eq_zero (show (newTensor2d type ne0 ne1 h).ne 0 = 0 from h0), h0]
    simp
  by_cases h1 : ne1 = 0
  · rw [nbytes_of_ne_eq_zero (show (newTensor2d type ne0 ne1 h).ne 1 = 0 from h1), h1, Nat.mul_zero]
  have hpos : ∀ i, (newTensor2d type ne0 ne1 h).ne i ≠ 0 := by
    intro i
    fin_cases i
    · exact h0
    · exact h1
    · exact Nat.one_ne_zero
    · exact Nat.one_ne_zero
  rw [nbytes_eq_row_add hpos]
  have hpred := pred_mul_add (k := type.size * (ne0 / type.blck)) h1
  change type.size * (ne0 / type.blck) + ((ne1 - 1) * (type.size * (ne0 / type.blck)) + 0 * _ + 0 * _) = _
  rw [Nat.mul_comm _ ne1]
  omega

/-- The bytes of a matrix: of one expert. -/
def Header.matrix (t : Header) : Nat := t.row * t.ne 1

/-- A slice starts where the one before it ends. -/
theorem slice_bytes {w : Weight} (hcont : w.tensor.isContiguous = true) (h3 : w.tensor.ne 3 = 1)
    (hfits : w.offs + w.tensor.nbytes < 2 ^ 64) {e : Nat} (he : e < w.tensor.ne 2) :
    (w.slice e).bytes = Set.Ico (w.offs + e * w.tensor.matrix) (w.offs + (e + 1) * w.tensor.matrix) := by
  have hsize : (w.slice e).tensor.nbytes = w.tensor.matrix := nbytes_newTensor2d _ _ _ _
  have hend : w.offs + (e + 1) * w.tensor.matrix = w.offs + e * w.tensor.matrix + w.tensor.matrix := by ring
  rw [Weight.bytes, hsize, hend]
  by_cases hzero : w.tensor.matrix = 0
  · rw [hzero, Nat.add_zero, Nat.add_zero, Set.Ico_self, Set.Ico_self]
  · have hskip : e * w.tensor.nb 2 = e * w.tensor.matrix := by
      by_cases hone : w.tensor.ne 2 = 1
      · rw [show e = 0 by omega, Nat.zero_mul, Nat.zero_mul]
      · rw [(nb_of_isContiguous hcont).2 hone, Header.matrix]
    have hlast : e * w.tensor.matrix ≤ w.tensor.ne 2 * w.tensor.matrix := Nat.mul_le_mul_right _ he.le
    rw [nbytes_of_isContiguous hcont h3 (by omega), ← Header.matrix] at hfits
    have hoffs : (w.slice e).offs = w.offs + e * w.tensor.matrix := by
      rw [Weight.slice, hskip]
      exact Nat.mod_eq_of_lt (by omega)
    rw [hoffs]

theorem biUnion_Ico_succ {f : Nat → Nat} (hf : Monotone f) : ∀ n : Nat, ⋃ e < n, Set.Ico (f e) (f (e + 1)) = Set.Ico (f 0)
    (f n)
  | 0 => by simp
  | n + 1 => by
    rw [Set.biUnion_lt_succ, biUnion_Ico_succ hf n, Set.Ico_union_Ico_eq_Ico (hf (Nat.zero_le n)) (hf (Nat.le_succ n))]

/-- The slices of a packed tensor share no byte, and have the bytes of the tensor. -/
theorem slices_tile {w : Weight} (hcont : w.tensor.isContiguous = true) (h3 : w.tensor.ne 3 = 1) (h2 : 1 ≤ w.tensor.ne 2)
    (hfits : w.offs + w.tensor.nbytes < 2 ^ 64) :
    (∀ e < w.tensor.ne 2, ∀ e' < w.tensor.ne 2, e ≠ e' → Disjoint (w.slice e).bytes (w.slice e').bytes) ∧
      ⋃ e < w.tensor.ne 2, (w.slice e).bytes = w.bytes := by
  have hmono : Monotone fun e => w.offs + e * w.tensor.matrix :=
    fun i j hij => Nat.add_le_add_left (Nat.mul_le_mul_right _ hij) _
  constructor
  · intro e he e' he' hne
    rw [slice_bytes hcont h3 hfits he, slice_bytes hcont h3 hfits he']
    exact hmono.pairwise_disjoint_on_Ico_succ hne
  · have hslices : ⋃ e < w.tensor.ne 2, (w.slice e).bytes =
        ⋃ e < w.tensor.ne 2, Set.Ico (w.offs + e * w.tensor.matrix) (w.offs + (e + 1) * w.tensor.matrix) :=
      Set.iUnion₂_congr fun e he => slice_bytes hcont h3 hfits he
    rw [hslices, biUnion_Ico_succ hmono, Weight.bytes, nbytes_of_isContiguous hcont h3 h2, Header.matrix, Nat.zero_mul,
      Nat.add_zero]

/-! ## The split map -/

/-- The packed tensors are contiguous, three-dimensional and not empty, every tensor lies in its file, and no slice has a name
that is in use. -/
structure Splittable (m : WeightsMap) : Prop where
  layout : ∀ x ∈ m.entries, Layout x
  fits : ∀ x ∈ m.entries, x.2.offs + x.2.tensor.nbytes < 2 ^ 64
  free : ∀ x ∈ m.entries, ∀ l p, matchPacked x.1 = some (l, p) → ∀ e < x.2.tensor.ne 2, ∀ y ∈ m.entries, y.1 ≠ sliceName l p e

/-- The layers and the experts of the packed tensors are `int`s. -/
def IntRange (m : WeightsMap) : Prop :=
  ∀ x ∈ m.entries, ∀ l p, matchPacked x.1 = some (l, p) → decimal l ≤ intMax ∧ x.2.tensor.ne 2 ≤ intMax

/-- The exact re-indexing: the packed tensors have become their slices, and the other entries are what they were. -/
structure Reindexed (m m' : WeightsMap) : Prop where
  perm : m'.entries.Perm (m.entries.flatMap expand)
  other : ∀ x ∈ m.entries, matchPacked x.1 = none → x ∈ m'.entries
  packed : ∀ x ∈ m.entries, ∀ l p, matchPacked x.1 = some (l, p) →
    x.1 ∉ m'.entries.map Prod.fst ∧ (∀ e < x.2.tensor.ne 2, sliceEntry l p x.2 e ∈ m'.entries) ∧
    (∀ e < x.2.tensor.ne 2, (x.2.slice e).idx = x.2.idx) ∧
    (∀ e < x.2.tensor.ne 2, ∀ e' < x.2.tensor.ne 2, e ≠ e' → Disjoint (x.2.slice e).bytes (x.2.slice e').bytes) ∧
    ⋃ e < x.2.tensor.ne 2, (x.2.slice e).bytes = x.2.bytes

/-- The name of every slice is read as its layer and its expert. -/
def NamesParsed (m : WeightsMap) : Prop :=
  ∀ x ∈ m.entries, ∀ l p, matchPacked x.1 = some (l, p) → ∀ e < x.2.tensor.ne 2,
    parseSplitExpertName (sliceName l p e) = .ok (some (decimal l, e))

theorem mem_expand {x y : Name × Weight} (hy : y ∈ expand x) :
    matchPacked x.1 = none ∧ y = x ∨ ∃ l p e, matchPacked x.1 = some (l, p) ∧ e < x.2.tensor.ne 2 ∧
      y = sliceEntry l p x.2 e := by
  cases hx : matchPacked x.1 with
  | none =>
    simp only [expand, hx, List.mem_singleton] at hy
    exact .inl ⟨rfl, hy⟩
  | some lp =>
    simp only [expand, hx] at hy
    obtain ⟨e, he, rfl⟩ := List.mem_map.mp hy
    exact .inr ⟨lp.1, lp.2, e, rfl, List.mem_range.mp he, rfl⟩

theorem expand_nodup (x : Name × Weight) : ((expand x).map Prod.fst).Nodup := by
  cases hx : matchPacked x.1 with
  | none =>
    simp only [expand, hx]
    exact List.nodup_singleton _
  | some lp =>
    have hl : Digits lp.1 := (matchPacked_eq_some.mp hx).2
    simp only [expand, hx, sliceEntries, List.map_map]
    exact List.nodup_range.map_on fun e _ e' _ h => (sliceName_inj hl hl h).2.2

/-- Different entries expand to entries of different names. -/
theorem Splittable.disjoint {m : WeightsMap} (h : Splittable m) {x y : Name × Weight} (hx : x ∈ m.entries)
    (hy : y ∈ m.entries)
    (hne : x.1 ≠ y.1) : List.Disjoint ((expand x).map Prod.fst) ((expand y).map Prod.fst) := by
  intro n hnx hny
  obtain ⟨u, hu, rfl⟩ := List.mem_map.mp hnx
  obtain ⟨v, hv, huv⟩ := List.mem_map.mp hny
  rcases mem_expand hu with ⟨-, rfl⟩ | ⟨l, p, e, hxm, he, rfl⟩
  · rcases mem_expand hv with ⟨-, rfl⟩ | ⟨l', p', e', hym, he', rfl⟩
    · exact hne huv.symm
    · exact h.free y hy l' p' hym e' he' u hx huv.symm
  · rcases mem_expand hv with ⟨-, rfl⟩ | ⟨l', p', e', hym, he', rfl⟩
    · exact h.free x hx l p hxm e he v hy huv
    · obtain ⟨hxn, hl⟩ := matchPacked_eq_some.mp hxm
      obtain ⟨hyn, hl'⟩ := matchPacked_eq_some.mp hym
      obtain ⟨rfl, rfl, -⟩ := sliceName_inj hl' hl huv
      exact hne (hxn.trans hyn.symm)

theorem Splittable.nodup {m : WeightsMap} (h : Splittable m) : ((m.entries.flatMap expand).map Prod.fst).Nodup := by
  rw [List.map_flatMap, List.nodup_flatMap]
  refine ⟨fun x _ => expand_nodup x, m.sorted.imp_of_mem fun {x y} hx hy hxy => h.disjoint hx hy fun heq => ?_⟩
  rw [heq] at hxy
  exact not_less_self _ hxy

/-- There is one map with the given entries. -/
theorem Sorted.eq_of_perm {l l' : Entries} (h : Sorted l) (h' : Sorted l') (hp : l.Perm l') : l = l' :=
  hp.eq_of_pairwise (fun _ _ _ _ hab hba => absurd (less_trans hab hba) (not_less_self _)) h h'

theorem packedCount_pos {m : Entries} {x : Name × Weight} (hx : x ∈ m) (hsome : (matchPacked x.1).isSome)
    (hne : 1 ≤ x.2.tensor.ne 2) :
    packedCount m ≠ 0 := by
  have hle := List.single_le_sum (fun _ _ => Nat.zero_le _) _
    (List.mem_map_of_mem (f := fun x : Name × Weight => if (matchPacked x.1).isSome then x.2.tensor.ne 2 else 0) hx)
  rw [if_pos hsome] at hle
  rw [packedCount]
  omega

/-- The loop ends in the map of the expanded entries, with any number of steps that is large enough. -/
theorem Splittable.run {m : WeightsMap} (h : Splittable m) : ∃ m' : WeightsMap,
    (∃ n, ∀ fuel > n, splitPackedSsdExperts fuel m = some (.ok m'.entries)) ∧ m'.entries.Perm (m.entries.flatMap expand) := by
  by_cases hcount : packedCount m.entries = 0
  · refine ⟨m, ⟨0, fun fuel _ => by rw [splitPackedSsdExperts, if_pos hcount]⟩, ?_⟩
    rw [flatMap_expand_eq_self]
    intro x hx
    by_contra hsome
    have hsome : (matchPacked x.1).isSome := Option.isSome_iff_ne_none.mpr hsome
    exact packedCount_pos hx hsome (h.layout x hx hsome).2.2 hcount
  · have hrun : ∀ fuel > (m.entries.map cost).sum, ∃ l, splitLoop fuel ⟨[], m.entries⟩ = some (.ok l) ∧
        l.Perm (m.entries.flatMap expand) ∧ Sorted l :=
      fun fuel hfuel => splitLoop_spec (c := ⟨[], m.entries⟩) hfuel m.sorted
        (fun _ hx => absurd hx List.not_mem_nil) h.layout h.nodup
    obtain ⟨l, -, hperm, hl⟩ := hrun _ (Nat.lt_succ_self _)
    refine ⟨⟨l, hl⟩, ⟨(m.entries.map cost).sum, fun fuel hfuel => ?_⟩, hperm⟩
    obtain ⟨l', hl', hperm', hsorted'⟩ := hrun fuel hfuel
    rw [splitPackedSsdExperts, if_neg hcount, hl', hsorted'.eq_of_perm hl (hperm'.trans hperm.symm)]

/-- **Exact re-indexing.** Where the layers and the experts are `int`s, the walk ends although it inserts, the packed
tensors have become aliases of their own bytes, and the name of each alias is read as its layer and its expert. -/
theorem splitPackedSsdExperts_spec {m : WeightsMap} (h : Splittable m) (hint : IntRange m) : ∃ m' : WeightsMap,
    (∃ n, ∀ fuel > n, splitPackedSsdExperts fuel m = some (.ok m'.entries)) ∧ Reindexed m m' ∧ NamesParsed m := by
  obtain ⟨m', hrun, hperm⟩ := h.run
  have hmem : ∀ {x y : Name × Weight}, x ∈ m.entries → y ∈ expand x → y ∈ m'.entries :=
    fun {x y} hx hy => hperm.mem_iff.mpr (List.mem_flatMap.mpr ⟨x, hx, hy⟩)
  refine ⟨m', hrun, ⟨hperm, ?_, ?_⟩, ?_⟩
  · intro x hx hnone
    apply hmem hx
    simp only [expand, hnone, List.mem_singleton]
  · intro x hx l p hxm
    obtain ⟨hcont, h3, h2⟩ := h.layout x hx (by rw [hxm]; rfl)
    refine ⟨fun hin => ?_, fun e he => ?_, fun _ _ => rfl, slices_tile hcont h3 h2 (h.fits x hx)⟩
    · -- an entry of the packed name would be a slice, or not packed
      obtain ⟨y, hy, hyx⟩ := List.mem_map.mp hin
      obtain ⟨z, -, hyz⟩ := List.mem_flatMap.mp (hperm.mem_iff.mp hy)
      have hynone : matchPacked y.1 = none := by
        rcases mem_expand hyz with ⟨hz, rfl⟩ | ⟨l', p', e, hzm, -, rfl⟩
        · exact hz
        · exact matchPacked_sliceName (matchPacked_eq_some.mp hzm).2 p' e
      rw [hyx, hxm] at hynone
      cases hynone
    · apply hmem hx
      simp only [expand, hxm]
      exact List.mem_map_of_mem (List.mem_range.mpr he)
  · intro x hx l p hxm e he
    obtain ⟨hlayer, hexperts⟩ := hint x hx l p hxm
    exact parseSplitExpertName_sliceName (matchPacked_eq_some.mp hxm).2 p hlayer (by omega)

/-! ### Concrete maps -/

/-- `GGML_TYPE_F32`. -/
def f32 : GgmlType := Kv.floatType

/-- `n` matrices of two columns and three rows. -/
def stacked (n : Nat) : Header where
  type := f32
  ne := ![2, 3, n, 1]
  nb := ![4, 8, 24, 24 * n]
  nb_zero := rfl
  blck_dvd := one_dvd _

def stackedWeight (n : Nat) : Weight := ⟨0, 32, stacked n⟩

theorem layout_stacked {name : Name} {n : Nat} (hn : 1 ≤ n) : Layout (name, stackedWeight n) := by
  intro _
  refine ⟨?_, rfl, hn⟩
  by_cases h : n = 1 <;> simp [Header.isContiguous, contiguousStep, stackedWeight, stacked, f32, Kv.floatType, h]

theorem fits_stacked {n : Nat} (hn : n ≤ 2) : (stackedWeight n).offs + (stackedWeight n).tensor.nbytes < 2 ^ 64 := by
  interval_cases n <;> decide

/-- The up projection of layer 7, after another weight. -/
def twoExperts : WeightsMap where
  entries := [(['o', 'u', 't', 'p', 'u', 't'], stackedWeight 1), (headName ['7'] .up expsChars, stackedWeight 2)]
  sorted := by simpa using by decide

theorem digits_seven : Digits ['7'] := ⟨List.cons_ne_nil _ _, List.all_eq_true.mp rfl⟩

theorem splittable_twoExperts : Splittable twoExperts where
  layout x hx := by
    rcases List.mem_pair.mp hx with rfl | rfl
    · exact layout_stacked le_rfl
    · exact layout_stacked (by omega)
  fits x hx := by
    rcases List.mem_pair.mp hx with rfl | rfl
    · exact fits_stacked (by omega)
    · exact fits_stacked le_rfl
  free x hx l p hxm e _ y hy heq := by
    have hl := (matchPacked_eq_some.mp hxm).2
    have hparse := matchSplit_sliceName hl p e
    rw [← heq] at hparse
    rcases List.mem_pair.mp hy with rfl | rfl
    · cases hparse
    · rw [matchSplit_headName_exps digits_seven] at hparse
      cases hparse

theorem splitPackedSsdExperts_spec_twoExperts : ∃ m' : WeightsMap,
    (∃ n, ∀ fuel > n, splitPackedSsdExperts fuel twoExperts = some (.ok m'.entries)) ∧ Reindexed twoExperts m' ∧
      NamesParsed twoExperts := by
  refine splitPackedSsdExperts_spec splittable_twoExperts ?_
  intro x hx l p hxm
  rcases List.mem_pair.mp hx with rfl | rfl
  · cases hxm
  · rw [matchPacked_eq_some.mpr ⟨rfl, digits_seven⟩, Option.some.injEq, Prod.mk.injEq] at hxm
    obtain ⟨rfl, -⟩ := hxm
    decide

/-- The digits of `2^31`. -/
def hugeLayer : Name := ['2', '1', '4', '7', '4', '8', '3', '6', '4', '8']

def hugeLayerMap : WeightsMap where
  entries := [(headName hugeLayer .up expsChars, stackedWeight 1)]
  sorted := List.pairwise_singleton _ _

theorem digits_hugeLayer : Digits hugeLayer := ⟨List.cons_ne_nil _ _, List.all_eq_true.mp rfl⟩

theorem splittable_hugeLayerMap : Splittable hugeLayerMap where
  layout x hx := by
    rw [List.mem_singleton.mp hx]
    exact layout_stacked le_rfl
  fits x hx := by
    rw [List.mem_singleton.mp hx]
    exact fits_stacked (by omega)
  free x hx l p hxm e _ y hy heq := by
    have hparse := matchSplit_sliceName (matchPacked_eq_some.mp hxm).2 p e
    rw [← heq, List.mem_singleton.mp hy, matchSplit_headName_exps digits_hugeLayer] at hparse
    cases hparse

/-- A layer that is not an `int` makes `std::stoi` throw on the names of its slices. -/
theorem splitPackedSsdExperts_hugeLayer : ¬ ∀ m : WeightsMap, Splittable m → ∃ m' : WeightsMap,
    (∃ n, ∀ fuel > n, splitPackedSsdExperts fuel m = some (.ok m'.entries)) ∧ Reindexed m m' ∧ NamesParsed m := by
  intro h
  obtain ⟨-, -, -, hnames⟩ := h hugeLayerMap splittable_hugeLayerMap
  have hparse := hnames _ (List.mem_singleton.mpr rfl) hugeLayer .up (matchPacked_eq_some.mpr ⟨rfl, digits_hugeLayer⟩) 0
    Nat.one_pos
  have hstoi : stoi hugeLayer = none := by decide
  simp only [parseSplitExpertName, matchSplit_sliceName digits_hugeLayer, hstoi] at hparse
  cases hparse

end S2Moe.Ssd
