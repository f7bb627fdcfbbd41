import S2Moe.Lib.Loop

/-!
# Bytes: memories, numbers, readers

* `slice m a n`, `putRows m a l` : reading and writing neighbours of a memory; `slice_mul` : rows that lie behind each
other;
* `leBytes w n`, `intBytes w i` : numbers of `w` bytes, least significant first, and back;
* `ranges p size` : the maximal ranges of entries with `p`; `flatMap_ranges` : together they are those entries in order;
* `Read σ` : programs that take bytes from an input and change a state, which stays behind when they fail;
* `Reads m bs s a t` : on an input that begins with `bs`, in state `s`, the program takes just `bs`, returns `a` and
leaves `t`; one rule for each construct;
* `Fails m bs s` : on an input that begins with `bs` the program fails;
* `Follows P m look` : on every input the program does what `look` does, which has no state, and keeps `P` even where it
fails.
-/

namespace S2Moe.Lib

/-- The bytes of a word have indices. -/
instance neZero_four : NeZero 4 := ⟨by decide⟩

/-! ## Memories -/

section Memory
variable {α : Type}

/-- The rows replace what stood there from `start` on. -/
def putRows (buf : Nat → α) (start : Nat) (rows : List α) : Nat → α :=
  fun j => if start ≤ j then rows[j - start]?.getD (buf j) else buf j

def slice (m : Nat → α) (a n : Nat) : List α := (List.range' a n).map m

variable {m : Nat → α} {a b n k : Nat} {l : List α}

theorem putRows_of_getElem {x : α} (h : l[k]? = some x) : putRows m n l (n + k) = x := by
  unfold putRows
  rw [if_pos (Nat.le_add_right n k), Nat.add_sub_cancel_left, h]
  rfl

theorem putRows_of_lt (h : k < n) : putRows m n l k = m k := if_neg (by omega)

theorem putRows_of_le (h : n + l.length ≤ k) : putRows m n l k = m k := by
  unfold putRows
  rw [if_pos (by omega), List.getElem?_eq_none (by omega)]
  rfl

@[simp] theorem length_slice : (slice m a n).length = n := by
  unfold slice
  rw [List.length_map, List.length_range']

theorem slice_add : slice m a (n + k) = slice m a n ++ slice m (a + n) k := by
  unfold slice
  rw [← List.map_append, ← List.range'_append_1]

/-- Where two memories agree. -/
theorem slice_congr {m' : Nat → α} (h : ∀ i, a ≤ i → i < a + n → m i = m' i) : slice m a n = slice m' a n := by
  unfold slice
  refine List.map_congr_left fun i hi => ?_
  rw [List.mem_range'_1] at hi
  exact h i hi.1 hi.2

/-- A range of rows, row by row. -/
theorem slice_mul (m : Nat → α) (w : Nat) : ∀ (n a : Nat),
    slice m (a * w) (n * w) = (List.range' a n).flatMap fun i => slice m (i * w) w
  | 0, a => by simp [slice]
  | n + 1, a => by
    rw [Nat.succ_mul, Nat.add_comm (n * w), slice_add, ← Nat.succ_mul, slice_mul m w n (a + 1), List.range'_succ,
      List.flatMap_cons]

/-- What is copied from the front of one memory to the front of another. -/
theorem putRows_slice {m' : Nat → α} (h : k < n) : putRows m 0 (slice m' 0 n) k = m' k := by
  have hget : (slice m' 0 n)[k]? = some (m' k) := by
    rw [slice, List.getElem?_map, List.getElem?_range' h, Nat.one_mul, Nat.zero_add]
    rfl
  have hput := putRows_of_getElem (m := m) (n := 0) hget
  rwa [Nat.zero_add] at hput

theorem slice_putRows : slice (putRows m a l) a l.length = l := by
  refine List.ext_getElem? fun i => ?_
  unfold slice
  rw [List.getElem?_map]
  rcases Nat.lt_or_ge i l.length with hi | hi
  · rw [List.getElem?_range' hi, Nat.one_mul, Option.map_some, putRows_of_getElem (List.getElem?_eq_getElem hi),
      List.getElem?_eq_getElem hi]
  · rw [List.getElem?_eq_none (by simpa using hi), List.getElem?_eq_none hi]
    rfl

theorem slice_putRows_of_disjoint (h : b + n ≤ a ∨ a + l.length ≤ b) : slice (putRows m a l) b n = slice m b n := by
  refine slice_congr fun i h1 h2 => ?_
  rcases h with h | h
  · exact putRows_of_lt (by omega)
  · exact putRows_of_le (by omega)

theorem putRows_append (m : Nat → α) (a : Nat) (l l' : List α) :
    putRows m a (l ++ l') = putRows (putRows m a l) (a + l.length) l' := by
  funext j
  unfold putRows
  by_cases h1 : a + l.length ≤ j
  · rw [if_pos (by omega), if_pos h1, List.getElem?_append_right (by omega), if_pos (by omega),
      List.getElem?_eq_none (show l.length ≤ j - a by omega), show j - a - l.length = j - (a + l.length) by omega]
    rfl
  · rw [if_neg h1]
    by_cases h2 : a ≤ j
    · rw [if_pos h2, if_pos h2, List.getElem?_append_left (by omega)]
    · rw [if_neg h2, if_neg h2]

/-- Of rows of the same width that were put behind each other, row `k`. -/
theorem slice_putRows_flatMap {β : Type} {w : Nat} {f : β → List α} : ∀ {xs : List β} {m : Nat → α} {a k : Nat} {x : β},
    (∀ x ∈ xs, (f x).length = w) → xs[k]? = some x → slice (putRows m a (xs.flatMap f)) (a + k * w) w = f x
  | [], _, _, _, _, _, h => by simp at h
  | y :: ys, m, a, k, x, hf, h => by
    have hy := hf y List.mem_cons_self
    have hys : ∀ x ∈ ys, (f x).length = w := fun x hx => hf x (List.mem_cons_of_mem _ hx)
    rw [List.flatMap_cons, putRows_append, hy]
    cases k with
    | zero =>
        obtain rfl : y = x := by simpa using h
        rw [Nat.zero_mul, Nat.add_zero, slice_putRows_of_disjoint (.inl le_rfl), ← hy]
        exact slice_putRows
    | succ k =>
        rw [show a + (k + 1) * w = a + w + k * w by ring]
        exact slice_putRows_flatMap hys (by simpa using h)

end Memory

/-! ## Numbers -/

def leBytes : Nat → Nat → List UInt8
  | 0, _ => []
  | w + 1, n => UInt8.ofNat n :: leBytes w (n / 256)

def ofLe : List UInt8 → Nat
  | [] => 0
  | b :: bs => b.toNat + 256 * ofLe bs

@[simp] theorem length_leBytes : ∀ w n, (leBytes w n).length = w
  | 0, _ => rfl
  | w + 1, n => by rw [leBytes, List.length_cons, length_leBytes w]

theorem ofLe_leBytes : ∀ {w n : Nat}, n < 256 ^ w → ofLe (leBytes w n) = n
  | 0, n, h => by
    rw [pow_zero] at h
    rw [leBytes, ofLe]
    omega
  | w + 1, n, h => by
    rw [pow_succ] at h
    rw [leBytes, ofLe, ofLe_leBytes (show n / 256 < 256 ^ w by omega), UInt8.toNat_ofNat']
    omega

/-- Two's complement. -/
def intBytes (w : Nat) (i : Int) : List UInt8 := leBytes w (i % (256 ^ w : Nat)).toNat

def ofIntBytes (w : Nat) (bs : List UInt8) : Int :=
  if 2 * ofLe bs < 256 ^ w then ofLe bs else (ofLe bs : Int) - (256 ^ w : Nat)

@[simp] theorem length_intBytes (w : Nat) (i : Int) : (intBytes w i).length = w := length_leBytes w _

/-- The numbers that fit into `w` bytes with a sign. -/
def FitsInt (w : Nat) (i : Int) : Prop := -(256 ^ w : Nat) ≤ 2 * i ∧ 2 * i < (256 ^ w : Nat)

instance (w : Nat) (i : Int) : Decidable (FitsInt w i) := inferInstanceAs (Decidable (_ ∧ _))

theorem ofIntBytes_intBytes {w : Nat} {i : Int} (h : FitsInt w i) : ofIntBytes w (intBytes w i) = i := by
  obtain ⟨h1, h2⟩ := h
  have hpos : 0 < 256 ^ w := by positivity
  have hmod : i % (256 ^ w : Nat) = if 0 ≤ i then i else i + (256 ^ w : Nat) := by
    split
    · exact Int.emod_eq_of_lt (by omega) (by omega)
    · rw [← Int.add_emod_right, Int.emod_eq_of_lt (by omega) (by omega)]
  have hlt : (i % (256 ^ w : Nat)).toNat < 256 ^ w := by
    rw [hmod]
    split
    · omega
    · omega
  unfold ofIntBytes intBytes
  rw [ofLe_leBytes hlt, hmod]
  split
  · split
    · omega
    · omega
  · split
    · omega
    · omega

/-! ## Ranges -/

/-- `acc.1` is where the current range began, `size` if there is none. -/
def rangesStep (p : Nat → Bool) (size : Nat) (acc : Nat × List (Nat × Nat)) (i : Nat) : Nat × List (Nat × Nat) :=
  if p i then (if acc.1 = size then i else acc.1, acc.2)
  else if acc.1 ≠ size then (size, acc.2 ++ [(acc.1, i)])
  else acc

def ranges (p : Nat → Bool) (size : Nat) : List (Nat × Nat) :=
  let acc := (List.range size).foldl (rangesStep p size) (size, [])
  if acc.1 ≠ size then acc.2 ++ [(acc.1, size)] else acc.2

/-- The entries of a range. -/
def within (r : Nat × Nat) : List Nat := List.range' r.1 (r.2 - r.1)

/-- The entries of the ranges, in order, are those with `p`. -/
theorem flatMap_ranges (p : Nat → Bool) (size : Nat) : (ranges p size).flatMap within = (List.range size).filter p := by
  have hrun := foldl_range_rule (f := rangesStep p size) (s := (size, []))
    (P := fun i acc => (acc.1 = size ∧ acc.2.flatMap within = (List.range i).filter p) ∨
      (acc.1 < i ∧ acc.2.flatMap within ++ within (acc.1, i) = (List.range i).filter p))
    (.inl ⟨rfl, rfl⟩) size ?_
  · unfold ranges
    dsimp only
    rcases hrun with ⟨hnone, hall⟩ | ⟨hlt, hall⟩
    · rw [if_neg (by omega)]
      exact hall
    · rw [if_pos (by omega), List.flatMap_append]
      simpa using hall
  · rintro i hi ⟨begun, out⟩ hinv
    unfold rangesStep
    rw [List.range_succ, List.filter_append]
    dsimp only at hinv ⊢
    by_cases hp : p i
    · -- the range that is open grows by one entry, or begins here
      rw [if_pos hp]
      have hone : [i].filter p = [i] := by simp [hp]
      rcases hinv with ⟨hnone, hall⟩ | ⟨hlt, hall⟩
      · refine .inr ⟨by simp [hnone], ?_⟩
        rw [if_pos hnone, hall, hone]
        simp [within]
      · refine .inr ⟨by rw [if_neg (by omega)]; omega, ?_⟩
        rw [if_neg (by omega), ← hall, hone, List.append_assoc]
        congr 1
        unfold within
        dsimp only
        rw [show i + 1 - begun = i - begun + 1 by omega, List.range'_concat, Nat.one_mul,
          show begun + (i - begun) = i by omega]
    · rw [if_neg hp]
      have hnil : [i].filter p = [] := by simp [hp]
      rcases hinv with ⟨hnone, hall⟩ | ⟨hlt, hall⟩
      · rw [if_neg (by simpa using hnone)]
        refine .inl ⟨hnone, ?_⟩
        rw [hall, hnil, List.append_nil]
      · rw [if_pos (by omega)]
        refine .inl ⟨rfl, ?_⟩
        rw [List.flatMap_append, ← hall, hnil, List.append_nil]
        simp

/-- No range is empty or goes past the end. -/
theorem mem_ranges {p : Nat → Bool} {size : Nat} {r : Nat × Nat} (hr : r ∈ ranges p size) : r.1 < r.2 ∧ r.2 ≤ size := by
  have hrun := foldl_range_rule (f := rangesStep p size) (s := (size, []))
    (P := fun i acc => (acc.1 = size ∨ acc.1 < i) ∧ ∀ r ∈ acc.2, r.1 < r.2 ∧ r.2 ≤ size)
    ⟨.inl rfl, fun r hr => absurd hr List.not_mem_nil⟩ size ?_
  · unfold ranges at hr
    dsimp only at hr
    obtain ⟨hbegun, hall⟩ := hrun
    split at hr
    · rcases List.mem_append.mp hr with hr | hr
      · exact hall r hr
      · rw [List.mem_singleton.mp hr]
        exact ⟨by omega, le_rfl⟩
    · exact hall r hr
  · rintro i hi ⟨begun, out⟩ ⟨hbegun, hall⟩
    unfold rangesStep
    dsimp only at hbegun hall ⊢
    split
    · refine ⟨.inr ?_, hall⟩
      dsimp only
      split
      · omega
      · omega
    · split
      · refine ⟨.inl rfl, fun r hr => ?_⟩
        rcases List.mem_append.mp hr with hr | hr
        · exact hall r hr
        · rw [List.mem_singleton.mp hr]
          exact ⟨by dsimp only; omega, by dsimp only; omega⟩
      · refine ⟨?_, hall⟩
        dsimp only
        omega

/-! ## Readers -/

/-- How a reader fails: it throws, or it stops the process. -/
inductive Failure where
  | thrown
  | aborted
deriving DecidableEq

structure Input (σ : Type) where
  bytes : List UInt8
  st : σ

abbrev Read (σ : Type) := EStateM Failure (Input σ)

section Read
variable {σ : Type}

namespace Read

def bytes (n : Nat) : Read σ (List UInt8) := fun s =>
  if s.bytes.length < n then .error .thrown s else .ok (s.bytes.take n) { s with bytes := s.bytes.drop n }

def nat (w : Nat) : Read σ Nat := do return ofLe (← bytes w)

def int (w : Nat) : Read σ Int := do return ofIntBytes w (← bytes w)

def get : Read σ σ := fun s => .ok s.st s

def set (t : σ) : Read σ Unit := fun s => .ok () { s with st := t }

def fail (e : Failure) {α : Type} : Read σ α := fun s => .error e s

/-- The loop ends where its body gives up. -/
def each {ι : Type} (f : ι → Read σ Bool) : List ι → Read σ Bool
  | [] => pure true
  | i :: is => do if ← f i then each f is else return false

end Read

def Reads {α : Type} (m : Read σ α) (bs : List UInt8) (s : σ) (a : α) (t : σ) : Prop :=
  ∀ rest, m ⟨bs ++ rest, s⟩ = .ok a ⟨rest, t⟩

variable {α β ι : Type} {s t u : σ} {bs cs : List UInt8}

theorem Reads.pure (a : α) : Reads (pure a : Read σ α) [] s a s := fun _ => rfl

theorem Read.bind_run (m : Read σ α) (f : α → Read σ β) (x : Input σ) : (m >>= f) x = match m x with
    | .ok a r => f a r
    | .error e r => .error e r := by
  show EStateM.bind m f x = _
  unfold EStateM.bind
  cases m x with
  | ok a r => rfl
  | error e r => rfl

theorem Read.bytes_bind_run (n : Nat) (f : List UInt8 → Read σ β) (bs : List UInt8) (s : σ) :
    (Read.bytes n >>= f) ⟨bs, s⟩ = if bs.length < n then .error .thrown ⟨bs, s⟩ else f (bs.take n) ⟨bs.drop n, s⟩ := by
  rw [Read.bind_run]
  unfold Read.bytes
  by_cases hlt : bs.length < n
  · rw [if_pos hlt, if_pos hlt]
  · rw [if_neg hlt, if_neg hlt]

theorem Read.nat_bind_run (w : Nat) (f : Nat → Read σ β) (bs : List UInt8) (s : σ) :
    (Read.nat w >>= f) ⟨bs, s⟩ = if bs.length < w then .error .thrown ⟨bs, s⟩ else f (ofLe (bs.take w)) ⟨bs.drop w, s⟩ := by
  unfold Read.nat
  rw [bind_assoc, Read.bytes_bind_run]
  rfl

theorem Read.int_bind_run (w : Nat) (f : Int → Read σ β) (bs : List UInt8) (s : σ) : (Read.int w >>= f) ⟨bs, s⟩ =
    if bs.length < w then .error .thrown ⟨bs, s⟩ else f (ofIntBytes w (bs.take w)) ⟨bs.drop w, s⟩ := by
  unfold Read.int
  rw [bind_assoc, Read.bytes_bind_run]
  rfl

theorem Read.each_cons_run (f : ι → Read σ Bool) (i : ι) (is : List ι) (x : Input σ) : Read.each f (i :: is) x =
    match f i x with
    | .ok true r => Read.each f is r
    | .ok false r => .ok false r
    | .error e r => .error e r := by
  rw [Read.each, Read.bind_run]
  cases f i x with
  | error e r => rfl
  | ok b r =>
      cases b with
      | true => rfl
      | false => rfl

/-- What comes behind a step that succeeds. -/
theorem Reads.run_bind {m : Read σ α} {f : α → Read σ β} {a : α} (h : Reads m bs s a t) (rest : List UInt8) :
    (m >>= f) ⟨bs ++ rest, s⟩ = f a ⟨rest, t⟩ := by
  show EStateM.bind m f _ = _
  unfold EStateM.bind
  rw [h]

theorem Reads.bind {m : Read σ α} {f : α → Read σ β} {a : α} {b : β} (h : Reads m bs s a t) (k : Reads (f a) cs t b u) :
    Reads (m >>= f) (bs ++ cs) s b u := by
  intro rest
  rw [List.append_assoc, h.run_bind]
  exact k rest

/-- A step that takes nothing from the input. -/
theorem Reads.bind_nil {m : Read σ α} {f : α → Read σ β} {a : α} {b : β} (h : Reads m [] s a t) (k : Reads (f a) bs t b u) :
    Reads (m >>= f) bs s b u := h.bind k

/-- A step behind which nothing more is taken. -/
theorem Reads.bind_last {m : Read σ α} {f : α → Read σ β} {a : α} {b : β} (h : Reads m bs s a t) (k : Reads (f a) [] t b u) :
    Reads (m >>= f) bs s b u := by
  rw [← List.append_nil bs]
  exact h.bind k

theorem Reads.get : Reads (Read.get : Read σ σ) [] s s s := fun _ => rfl

theorem Reads.set : Reads (Read.set t : Read σ Unit) [] s () t := fun _ => rfl

theorem Reads.bytes {n : Nat} (h : bs.length = n) : Reads (Read.bytes n : Read σ _) bs s bs s := by
  intro rest
  unfold Read.bytes
  dsimp only
  rw [if_neg (by simp [h]), ← h, List.take_left, List.drop_left]

theorem Reads.nat {w n : Nat} (h : n < 256 ^ w) : Reads (Read.nat w : Read σ _) (leBytes w n) s n s := by
  refine (Reads.bytes (length_leBytes w n)).bind_last ?_
  rw [ofLe_leBytes h]
  exact Reads.pure n

theorem Reads.int {w : Nat} {i : Int} (h : FitsInt w i) : Reads (Read.int w : Read σ _) (intBytes w i) s i s := by
  refine (Reads.bytes (length_intBytes w i)).bind_last ?_
  rw [ofIntBytes_intBytes h]
  exact Reads.pure i

/-- **A loop reads what was written for each of its indices**, and keeps what every round keeps. -/
theorem Reads.each_range' {f : Nat → Read σ Bool} {w : Nat → List UInt8} {P : Nat → σ → Prop} : ∀ (n : Nat) {a : Nat} {s : σ},
    P a s → (∀ i, i < a + n → ∀ s, P i s → ∃ t, Reads (f i) (w i) s true t ∧ P (i + 1) t) →
    ∃ t, Reads (Read.each f (List.range' a n)) ((List.range' a n).flatMap w) s true t ∧ P (a + n) t
  | 0, _, s, hs, _ => ⟨s, Reads.pure true, hs⟩
  | n + 1, a, s, hs, h => by
    obtain ⟨t, ht, hPt⟩ := h a (by omega) s hs
    obtain ⟨u, hu, hPu⟩ := Reads.each_range' n hPt fun i hi => h i (by omega)
    rw [List.range'_succ, Read.each, List.flatMap_cons]
    refine ⟨u, ht.bind hu, ?_⟩
    rwa [show a + (n + 1) = a + 1 + n by omega]

theorem Reads.each {f : Nat → Read σ Bool} {w : Nat → List UInt8} {P : Nat → σ → Prop} (n : Nat) (h0 : P 0 s)
    (h : ∀ i < n, ∀ s, P i s → ∃ t, Reads (f i) (w i) s true t ∧ P (i + 1) t) :
    ∃ t, Reads (Read.each f (List.range n)) ((List.range n).flatMap w) s true t ∧ P n t := by
  rw [List.range_eq_range']
  obtain ⟨t, ht, hP⟩ := Reads.each_range' n h0 fun i hi => h i (by omega)
  exact ⟨t, ht, by rwa [Nat.zero_add] at hP⟩

theorem Read.each_append {f : ι → Read σ Bool} (is js : List ι) :
    Read.each f (is ++ js) = do if ← Read.each f is then Read.each f js else return false := by
  induction is with
  | nil => rfl
  | cons i is ih =>
      rw [List.cons_append, Read.each, Read.each, ih, bind_assoc]
      congr 1
      funext b
      cases b with
      | false => rfl
      | true => rfl

/-- A loop in two parts. -/
theorem Reads.each_append {f : ι → Read σ Bool} {is js : List ι} {b : Bool} (h : Reads (Read.each f is) bs s true t)
    (k : Reads (Read.each f js) cs t b u) : Reads (Read.each f (is ++ js)) (bs ++ cs) s b u := by
  rw [Read.each_append]
  exact h.bind k

/-- What a program does with an input that it does not accept. -/
def Fails {α : Type} (m : Read σ α) (bs : List UInt8) (s : σ) : Prop := ∀ rest, ∃ e u, m ⟨bs ++ rest, s⟩ = .error e u

theorem Fails.fail {e : Failure} : Fails (Read.fail e : Read σ α) bs s := fun _ => ⟨e, _, rfl⟩

theorem Fails.append {m : Read σ α} (h : Fails m bs s) : Fails m (bs ++ cs) s := by
  intro rest
  rw [List.append_assoc]
  exact h (cs ++ rest)

theorem Fails.bind {m : Read σ α} {f : α → Read σ β} (h : Fails m bs s) : Fails (m >>= f) bs s := by
  intro rest
  obtain ⟨e, u, he⟩ := h rest
  refine ⟨e, u, ?_⟩
  show EStateM.bind m f _ = _
  unfold EStateM.bind
  rw [he]

theorem Reads.bind_fails {m : Read σ α} {f : α → Read σ β} {a : α} (h : Reads m bs s a t) (k : Fails (f a) cs t) :
    Fails (m >>= f) (bs ++ cs) s := by
  intro rest
  rw [List.append_assoc, h.run_bind]
  exact k rest

/-! ## Readers that only look -/

/-- From state `s`. -/
def FollowsFrom (P : σ → Prop) {α : Type} (m : Read σ α) (look : Read Unit α) (s : σ) : Prop :=
  ∀ bs, ∃ t, P t ∧ m ⟨bs, s⟩ = match look ⟨bs, ()⟩ with
    | .ok a r => .ok a ⟨r.bytes, t⟩
    | .error e r => .error e ⟨r.bytes, t⟩

def Follows (P : σ → Prop) {α : Type} (m : Read σ α) (look : Read Unit α) : Prop := ∀ s, P s → FollowsFrom P m look s

section Follows
variable {P : σ → Prop}

theorem Follows.pure (a : α) : Follows P (pure a) (pure a) := fun s hs _ => ⟨s, hs, rfl⟩

theorem Follows.bind {m : Read σ α} {l : Read Unit α} {f : α → Read σ β} {g : α → Read Unit β} (h : Follows P m l)
    (k : ∀ a, Follows P (f a) (g a)) : Follows P (m >>= f) (l >>= g) := by
  intro s hs bs
  obtain ⟨t, ht, hm⟩ := h s hs bs
  rw [Read.bind_run, Read.bind_run, hm]
  cases l ⟨bs, ()⟩ with
  | ok a r => exact k a t ht r.bytes
  | error e r => exact ⟨t, ht, rfl⟩

/-- Bytes that are taken, as many as were asked for. -/
theorem Follows.bytes_bind {n : Nat} {f : List UInt8 → Read σ β} {g : List UInt8 → Read Unit β}
    (k : ∀ bs, bs.length = n → Follows P (f bs) (g bs)) : Follows P (Read.bytes n >>= f) (Read.bytes n >>= g) := by
  intro s hs bs
  rw [Read.bytes_bind_run, Read.bytes_bind_run]
  by_cases hlt : bs.length < n
  · rw [if_pos hlt, if_pos hlt]
    exact ⟨s, hs, rfl⟩
  · rw [if_neg hlt, if_neg hlt]
    exact k _ (by rw [List.length_take]; omega) s hs _

theorem Follows.nat (w : Nat) : Follows P (Read.nat w) (Read.nat w) := Follows.bytes_bind fun _ _ => Follows.pure _

theorem Follows.int (w : Nat) : Follows P (Read.int w) (Read.int w) := Follows.bytes_bind fun _ _ => Follows.pure _

theorem Follows.get_bind {f : σ → Read σ β} {look : Read Unit β} (k : ∀ s, P s → FollowsFrom P (f s) look s) :
    Follows P (Read.get >>= f) look := fun s hs => k s hs

theorem Follows.set_bind {t s : σ} {m : Read σ β} {look : Read Unit β} (ht : P t) (k : Follows P m look) :
    FollowsFrom P (Read.set t >>= fun _ => m) look s := fun bs => k t ht bs

theorem Follows.each {f : ι → Read σ Bool} {g : ι → Read Unit Bool} : ∀ {is : List ι}, (∀ i ∈ is, Follows P (f i) (g i)) →
    Follows P (Read.each f is) (Read.each g is)
  | [], _ => Follows.pure true
  | i :: is, h => by
    refine (h i List.mem_cons_self).bind fun b => ?_
    cases b with
    | true => exact Follows.each fun j hj => h j (List.mem_cons_of_mem _ hj)
    | false => exact Follows.pure false

end Follows

/-! ## Readers take bytes from the front -/

def Takes {α : Type} (m : Read σ α) : Prop := ∀ x a r, m x = .ok a r → r.bytes.length ≤ x.bytes.length

theorem Takes.pure (a : α) : Takes (pure a : Read σ α) := fun x b r h => by
  cases h
  exact le_rfl

theorem Takes.bind {m : Read σ α} {f : α → Read σ β} (h : Takes m) (k : ∀ a, Takes (f a)) : Takes (m >>= f) := by
  intro x b r hrun
  rw [Read.bind_run] at hrun
  cases hm : m x with
  | error e r' =>
      rw [hm] at hrun
      cases hrun
  | ok a r' =>
      rw [hm] at hrun
      exact (k a r' b r hrun).trans (h x a r' hm)

theorem Takes.bytes (n : Nat) : Takes (Read.bytes n : Read σ _) := by
  intro x a r h
  unfold Read.bytes at h
  split at h
  · cases h
  · cases h
    exact (List.length_drop ..).trans_le (Nat.sub_le _ _)

theorem Takes.nat (w : Nat) : Takes (Read.nat w : Read σ _) := (Takes.bytes w).bind fun _ => Takes.pure _

theorem Takes.int (w : Nat) : Takes (Read.int w : Read σ _) := (Takes.bytes w).bind fun _ => Takes.pure _

theorem Takes.get : Takes (Read.get : Read σ σ) := fun x a r h => by
  cases h
  exact le_rfl

theorem Takes.set (t : σ) : Takes (Read.set t : Read σ Unit) := fun x a r h => by
  cases h
  exact le_rfl

theorem Takes.fail (e : Failure) : Takes (Read.fail e : Read σ α) := fun x a r h => by cases h

theorem Takes.each {f : ι → Read σ Bool} (h : ∀ i, Takes (f i)) : ∀ is : List ι, Takes (Read.each f is)
  | [] => Takes.pure true
  | i :: is => (h i).bind fun b => by
    cases b with
    | true => exact Takes.each h is
    | false => exact Takes.pure false

end Read

end S2Moe.Lib
