import Mathlib.Data.List.GetD
import Mathlib.Tactic

/-!
# The hybrid memory shared by the target and the draft context

`llama-speculative-next` runs both contexts on one `llama_memory_hybrid`. Sequence 0 has two components: the
attention entries, tagged with their position, and the recurrent state, which is the exact list of what was folded
into it. Both record which context wrote them, because the draft runs with fewer experts.

* `Memory.decode` : `next_spec::decode`, with the checks of `llama_batch_allocr::init`, of the capture test in
  `llama_memory_recurrent::prepare` and of the attention cache's free cells;
* `Memory.snapshot`, `Memory.restore` : `next_spec::snapshot` with `LLAMA_STATE_SEQ_FLAGS_PARTIAL_ONLY`;
* `Memory.historyReserve`, `historyBegin`, `historyFinish`, `historyCommit` : the verification history;
* `Memory.Holds m l` : both components are exactly `l`.
-/

namespace S2Moe.Next

abbrev Token := Nat

/-- The context a memory entry was computed by. -/
inductive Writer where
  | target
  | draft
deriving DecidableEq, Repr

structure Entry where
  pos : Int
  token : Token
  writer : Writer
deriving DecidableEq, Repr

/-- The entries that a decode of `tokens` at positions `first`, `first + 1`, ... appends. -/
def entries (w : Writer) : Int → List Token → List Entry
  | _, [] => []
  | first, t :: ts => ⟨first, t, w⟩ :: entries w (first + 1) ts

/-- The verification history of the recurrent component. -/
structure History where
  capacity : Nat := 0
  capturing : Bool := false
  valid : Bool := false
  first : Int := -1
  tokens : Nat := 0
  /-- Row `k` is the recurrent state after `k + 1` tokens of the captured batch. -/
  rows : List (List Entry) := []
deriving DecidableEq, Repr

structure Memory where
  /-- Cells of the attention cache. -/
  nCtx : Nat
  nUbatch : Nat
  attn : List Entry := []
  recr : List Entry := []
  history : History := {}
deriving DecidableEq, Repr

/-- `next_spec::require`. -/
def require (condition : Bool) (message : String) : Except String Unit :=
  if condition then .ok () else .error message

namespace Memory

def attnPosMax (m : Memory) : Int := m.attn.foldl (fun p e => max p e.pos) (-1)

/-- The position of the recurrent tail cell. -/
def recrPosMax (m : Memory) : Int := (m.recr.getLast?.map Entry.pos).getD (-1)

/-- `llama_memory_hybrid::seq_pos_max`: the smaller of the two components' maxima. -/
def seqPosMax (m : Memory) : Int := min m.attnPosMax m.recrPosMax

/-- What `llama_memory_recurrent::prepare` demands of the batch while a history is being captured: one ubatch, of
exactly the announced tokens, at the announced position. -/
def captureFits (m : Memory) (tokens : List Token) (first : Int) : Bool :=
  !m.history.capturing ||
    (decide (tokens.length ≤ m.nUbatch) && tokens.length == m.history.tokens && first == m.history.first)

/-- The rows that the graph of a captured batch writes; a one-token batch exposes no capture buffer. -/
def captureRows (m : Memory) (new : List Entry) : List (List Entry) :=
  if m.history.capturing && decide (1 < m.history.tokens) then
    (List.range new.length).map (fun i => m.recr ++ new.take (i + 1)) ++ m.history.rows.drop new.length
  else m.history.rows

/-- `next_spec::decode` by the context `w`. -/
def decode (w : Writer) (m : Memory) (tokens : List Token) (first : Int) : Except String Memory := do
  require (!tokens.isEmpty) "cannot decode an empty batch"
  -- llama_batch_allocr::init: the batch continues the positions stored for the sequence
  require (decide (m.seqPosMax < 0) || first == m.seqPosMax + 1) "Qwen3-Next decode failed"
  require (m.captureFits tokens first) "Qwen3-Next decode failed"
  require (decide (m.attn.length + tokens.length ≤ m.nCtx)) "Qwen3-Next decode failed"
  let new := entries w first tokens
  .ok { m with
    attn := m.attn ++ new
    recr := m.recr ++ new
    history := { m.history with rows := m.captureRows new } }

/-- `next_spec::snapshot`: the recurrent state, and the position after the last one. -/
structure Snapshot where
  first : Int
  data : List Entry
deriving DecidableEq, Repr

def snapshot (m : Memory) : Snapshot := ⟨m.seqPosMax + 1, m.recr⟩

/-- `llama_memory_hybrid::seq_rm(0, p0, -1)`: the recurrent part refuses a partial removal, and is dropped whole when
its position lies in the range. -/
def seqRm (m : Memory) (p0 : Int) : Option Memory :=
  let p0 := max p0 0
  if 0 < p0 ∧ p0 < m.recrPosMax then none
  else some { m with
    recr := if p0 ≤ m.recrPosMax then [] else m.recr
    attn := m.attn.filter (fun e => decide (e.pos < p0)) }

/-- `next_spec::snapshot::restore`. A snapshot of an empty sequence holds no cell and cannot be read back. -/
def restore (m : Memory) (s : Snapshot) : Except String Memory := do
  require (!s.data.isEmpty) "snapshot restore failed"
  match { m with recr := s.data }.seqRm s.first with
  | none => .error "KV tail removal failed"
  | some m' => .ok m'

/-- `llama_memory_history_reserve` on a memory of one sequence. -/
def historyReserve (m : Memory) (capacity : Nat) : Bool × Memory :=
  if capacity = 0 ∨ 32 < capacity then (false, m)
  else if capacity ≤ m.history.capacity then (true, m)
  else if m.history.capacity ≠ 0 then (false, m)
  else (true, { m with history := { m.history with capacity := capacity } })

/-- `llama_memory_history_begin` for sequence 0. -/
def historyBegin (m : Memory) (first : Int) (tokens : Nat) : Bool × Memory :=
  let h := { m.history with valid := false, capturing := false }
  if first < 0 ∨ tokens = 0 ∨ m.history.capacity < tokens ∨ first ≠ m.recrPosMax + 1 then
    (false, { m with history := h })
  else (true, { m with history := { h with first := first, tokens := tokens, capturing := true } })

/-- `llama_memory_history_finish`. -/
def historyFinish (m : Memory) : Bool × Memory :=
  if m.history.capturing ∧ m.recrPosMax = m.history.first + m.history.tokens - 1 then
    (true, { m with history := { m.history with capturing := false, valid := true } })
  else (false, m)

/-- `llama_memory_history_commit`: restore the recurrent state after `k` verified tokens, then trim the attention
entries behind it. -/
def historyCommit (m : Memory) (k : Nat) : Bool × Memory :=
  let h := m.history
  if ¬ h.valid ∨ k = 0 ∨ h.tokens < k ∨ m.recrPosMax ≠ h.first + h.tokens - 1 ∨ m.recr = [] then (false, m)
  else
    let recr := if h.tokens = 1 then m.recr else h.rows.getD (k - 1) []
    let m' := { m with recr := recr, history := { h with valid := false } }
    (true, { m' with attn := m'.attn.filter (fun e => decide (e.pos < max (m'.recrPosMax + 1) 0)) })

/-- Both components hold exactly `l`. -/
def Holds (m : Memory) (l : List Entry) : Prop := m.attn = l ∧ m.recr = l

end Memory

/-! ## Consecutively numbered entries -/

theorem length_entries (w : Writer) : ∀ (first : Int) (ts : List Token), (entries w first ts).length = ts.length
  | _, [] => rfl
  | first, _ :: ts => by rw [entries, List.length_cons, length_entries w (first + 1) ts, List.length_cons]

theorem entries_append (w : Writer) : ∀ (first : Int) (a b : List Token),
    entries w first (a ++ b) = entries w first a ++ entries w (first + a.length) b
  | first, [], b => by simp [entries]
  | first, t :: a, b => by
    rw [List.cons_append, entries, entries_append w (first + 1) a b, entries, List.cons_append, List.length_cons]
    congr 3
    push_cast
    ring

theorem take_entries (w : Writer) : ∀ (first : Int) (ts : List Token) (k : Nat),
    (entries w first ts).take k = entries w first (ts.take k)
  | _, [], _ => by simp [entries]
  | _, _ :: _, 0 => by simp [entries]
  | first, t :: ts, k + 1 => by
    rw [entries, List.take_succ_cons, take_entries w (first + 1) ts k, List.take_succ_cons, entries]

theorem entries_ne_nil {w : Writer} {first : Int} {ts : List Token} (h : ts ≠ []) : entries w first ts ≠ [] := by
  intro he
  have hl := length_entries w first ts
  rw [he] at hl
  exact h (List.length_eq_zero_iff.mp hl.symm)

/-- The positions of `l` are `f`, `f + 1`, ... -/
def NumberedFrom : Int → List Entry → Prop
  | _, [] => True
  | f, e :: l => e.pos = f ∧ NumberedFrom (f + 1) l

theorem NumberedFrom.entries (w : Writer) : ∀ (first : Int) (ts : List Token), NumberedFrom first (entries w first ts)
  | _, [] => trivial
  | first, _ :: ts => ⟨rfl, NumberedFrom.entries w (first + 1) ts⟩

theorem numberedFrom_append : ∀ {f : Int} {a b : List Entry},
    NumberedFrom f (a ++ b) ↔ NumberedFrom f a ∧ NumberedFrom (f + a.length) b
  | f, [], b => by simp [NumberedFrom]
  | f, e :: a, b => by
    rw [List.cons_append, NumberedFrom, numberedFrom_append, NumberedFrom, List.length_cons, and_assoc]
    push_cast
    rw [show f + 1 + (a.length : Int) = f + (a.length + 1) by ring]

theorem NumberedFrom.pos_mem : ∀ {f : Int} {l : List Entry}, NumberedFrom f l →
    ∀ e ∈ l, f ≤ e.pos ∧ e.pos < f + l.length
  | f, e :: l, h, x, hx => by
    rw [List.length_cons]
    rcases List.mem_cons.mp hx with rfl | hx
    · have := h.1
      push_cast
      omega
    · have := h.2.pos_mem x hx
      push_cast
      omega

theorem NumberedFrom.filter_le {f k : Int} {l : List Entry} (h : NumberedFrom f l) (hk : f + l.length ≤ k) :
    l.filter (fun e => decide (e.pos < k)) = l := by
  rw [List.filter_eq_self]
  intro e he
  have := h.pos_mem e he
  simp only [decide_eq_true_eq]
  omega

/-- Trimming at the boundary of two consecutive blocks keeps the first. -/
theorem NumberedFrom.filter_append {f : Int} {a b : List Entry} (h : NumberedFrom f (a ++ b)) :
    (a ++ b).filter (fun e => decide (e.pos < f + a.length)) = a := by
  obtain ⟨ha, hb⟩ := numberedFrom_append.mp h
  rw [List.filter_append, ha.filter_le le_rfl]
  have hnone : b.filter (fun e => decide (e.pos < f + a.length)) = [] := by
    rw [List.filter_eq_nil_iff]
    intro e he
    have := hb.pos_mem e he
    simp only [decide_eq_true_eq]
    omega
  rw [hnone, List.append_nil]

theorem foldl_max_numbered : ∀ {f : Int} {l : List Entry} (p : Int), NumberedFrom f l → p < f → l ≠ [] →
    l.foldl (fun p e => max p e.pos) p = f + l.length - 1
  | f, [e], p, h, hp, _ => by
    have := h.1
    simp only [List.foldl_cons, List.foldl_nil, List.length_singleton]
    push_cast
    omega
  | f, e :: e' :: l, p, h, hp, _ => by
    have h1 := h.1
    rw [List.foldl_cons, foldl_max_numbered (max p e.pos) h.2 (by omega) (List.cons_ne_nil _ _)]
    simp only [List.length_cons]
    push_cast
    ring

theorem getLast?_numbered : ∀ {f : Int} {l : List Entry}, NumberedFrom f l → l ≠ [] →
    (l.getLast?.map Entry.pos).getD (-1) = f + l.length - 1
  | f, [e], h, _ => by
    have := h.1
    simp only [List.getLast?_singleton, Option.map_some, Option.getD_some, List.length_singleton]
    push_cast
    omega
  | f, e :: e' :: l, h, _ => by
    rw [List.getLast?_cons_cons, getLast?_numbered h.2 (List.cons_ne_nil _ _)]
    simp only [List.length_cons]
    push_cast
    ring

/-! ## The operations on a memory that holds one numbered list -/

namespace Memory

variable {m m' : Memory} {l : List Entry}

theorem Holds.recrPosMax (h : m.Holds l) (hn : NumberedFrom 0 l) : m.recrPosMax = l.length - 1 := by
  unfold Memory.recrPosMax
  rw [h.2]
  cases l with
  | nil => rfl
  | cons e l =>
      rw [getLast?_numbered hn (List.cons_ne_nil _ _)]
      ring

theorem Holds.seqPosMax (h : m.Holds l) (hn : NumberedFrom 0 l) : m.seqPosMax = l.length - 1 := by
  unfold Memory.seqPosMax
  rw [h.recrPosMax hn, attnPosMax, h.1]
  cases l with
  | nil => rfl
  | cons e l =>
      rw [foldl_max_numbered (-1) hn (by omega) (List.cons_ne_nil _ _)]
      omega

/-- A decode at the end of what the memory holds, when no capture is running or the batch is the announced one. -/
theorem Holds.decode (h : m.Holds l) (hn : NumberedFrom 0 l) (w : Writer) {ts : List Token} (hts : ts ≠ [])
    (hfit : m.captureFits ts l.length = true) (hroom : l.length + ts.length ≤ m.nCtx) :
    ∃ m', m.decode w ts l.length = .ok m' ∧ m'.Holds (l ++ entries w l.length ts) ∧ m'.nCtx = m.nCtx ∧
      m'.nUbatch = m.nUbatch ∧ m'.history = { m.history with rows := m.captureRows (entries w l.length ts) } := by
  have hpos := h.seqPosMax hn
  have hempty : ts.isEmpty = false := by simpa using hts
  have hstep : (decide (m.seqPosMax < 0) || ((l.length : Int) == m.seqPosMax + 1)) = true := by
    rw [hpos]
    simp
  have hcells : decide (m.attn.length + ts.length ≤ m.nCtx) = true := by
    rw [h.1]
    simpa using hroom
  let m' : Memory := { m with
    attn := m.attn ++ entries w l.length ts
    recr := m.recr ++ entries w l.length ts
    history := { m.history with rows := m.captureRows (entries w l.length ts) } }
  refine ⟨m', ?_, ⟨?_, ?_⟩, rfl, rfl, rfl⟩
  · unfold Memory.decode
    rw [hempty, hstep, hfit, hcells]
    rfl
  · exact congrArg (· ++ entries w l.length ts) h.1
  · exact congrArg (· ++ entries w l.length ts) h.2

theorem Holds.snapshot (h : m.Holds l) (hn : NumberedFrom 0 l) : m.snapshot = ⟨l.length, l⟩ := by
  unfold Memory.snapshot
  rw [h.seqPosMax hn, h.2]
  congr 1
  ring

/-- Restoring a snapshot of `l` on a memory whose attention part still starts with `l` gives back `l`. -/
theorem restore_prefix {b : List Entry} (hl : l ≠ []) (hn : NumberedFrom 0 (l ++ b)) (hattn : m.attn = l ++ b) :
    ∃ m', m.restore ⟨l.length, l⟩ = .ok m' ∧ m'.Holds l ∧ m'.nCtx = m.nCtx ∧ m'.nUbatch = m.nUbatch ∧
      m'.history = m.history := by
  have hnl := (numberedFrom_append.mp hn).1
  have hlen : 0 < l.length := List.length_pos_of_ne_nil hl
  have hrecr : ({ m with recr := l } : Memory).recrPosMax = l.length - 1 := by
    unfold Memory.recrPosMax
    rw [getLast?_numbered hnl hl]
    ring
  have hmax : max (l.length : Int) 0 = l.length := by omega
  refine ⟨{ m with recr := l, attn := l }, ?_, ⟨rfl, rfl⟩, rfl, rfl, rfl⟩
  unfold Memory.restore
  have hdata : (!l.isEmpty) = true := by simpa using hl
  simp only [hdata, Memory.seqRm, hrecr, hmax, require, if_true]
  rw [if_neg (by omega), if_neg (by omega)]
  have hfilter : ({ m with recr := l } : Memory).attn.filter (fun e => decide (e.pos < (l.length : Int))) = l := by
    rw [show ({ m with recr := l } : Memory).attn = l ++ b from hattn]
    simpa using hn.filter_append
  rw [hfilter]
  rfl

/-- The parts of a memory that no decode and no restore changes. -/
def SameSetup (m m' : Memory) : Prop :=
  m'.nCtx = m.nCtx ∧ m'.nUbatch = m.nUbatch ∧ m'.history.capacity = m.history.capacity

theorem getD_captureRows {new : List Entry} {k : Nat} (hcap : m.history.capturing = true)
    (htok : 1 < m.history.tokens) (hk : k < new.length) :
    (m.captureRows new).getD k [] = m.recr ++ new.take (k + 1) := by
  have hlen : k < ((List.range new.length).map fun i => m.recr ++ new.take (i + 1)).length := by simpa using hk
  simp only [captureRows, hcap, htok, decide_true, Bool.and_true, if_true]
  rw [List.getD_append _ _ _ _ hlen, List.getD_eq_getElem _ _ hlen]
  simp

/-- A commit that finds the state `l` in the history drops the attention entries behind `l`. -/
theorem historyCommit_eq {b : List Entry} {k : Nat} (hvalid : m.history.valid = true) (hk : 0 < k)
    (hkt : k ≤ m.history.tokens) (hpos : m.recrPosMax = m.history.first + m.history.tokens - 1) (hne : m.recr ≠ [])
    (hrow : (if m.history.tokens = 1 then m.recr else m.history.rows.getD (k - 1) []) = l) (hl : l ≠ [])
    (hattn : m.attn = l ++ b) (hn : NumberedFrom 0 (l ++ b)) :
    ∃ m', m.historyCommit k = (true, m') ∧ m'.Holds l ∧ m.SameSetup m' ∧
      m'.history.capturing = m.history.capturing := by
  have hlast : ({ m with recr := l, history := { m.history with valid := false } } : Memory).recrPosMax + 1 =
      l.length := by
    unfold Memory.recrPosMax
    rw [getLast?_numbered (numberedFrom_append.mp hn).1 hl]
    ring
  refine ⟨{ m with recr := l, attn := l, history := { m.history with valid := false } }, ?_, ⟨rfl, rfl⟩,
    ⟨rfl, rfl, rfl⟩, rfl⟩
  unfold historyCommit
  simp only [hrow, hlast]
  rw [if_neg (by rw [hvalid]; simp [hne, hpos]; omega), hattn, max_eq_left (by omega)]
  congr 2
  simpa using hn.filter_append

/-- **One verification batch**: begin, decode and finish succeed, and whatever part of the batch is then committed,
both components hold exactly that part behind `l`. -/
theorem Holds.verification (h : m.Holds l) (hn : NumberedFrom 0 l) {ts : List Token} (hts : ts ≠ [])
    (hcap : ts.length ≤ m.history.capacity) (hub : ts.length ≤ m.nUbatch) (hroom : l.length + ts.length ≤ m.nCtx) :
    ∃ m₁ m₂ m₃, m.historyBegin l.length ts.length = (true, m₁) ∧ m₁.recr = l ∧
      m₁.decode .target ts l.length = .ok m₂ ∧ m₂.attn = l ++ entries .target l.length ts ∧
      m₂.historyFinish = (true, m₃) ∧
      ∀ k, 0 < k → k ≤ ts.length → ∃ m₄, m₃.historyCommit k = (true, m₄) ∧
        m₄.Holds (l ++ entries .target l.length (ts.take k)) ∧ m.SameSetup m₄ ∧ m₄.history.capturing = false := by
  have htok : 0 < ts.length := List.length_pos_of_ne_nil hts
  have hpos := h.recrPosMax hn
  let m₁ : Memory := { m with
    history := { m.history with valid := false, capturing := true, first := l.length, tokens := ts.length } }
  have hbegin : m.historyBegin l.length ts.length = (true, m₁) := by
    unfold historyBegin
    rw [if_neg (by omega)]
  have h₁ : m₁.Holds l := h
  obtain ⟨m₂, hdec, hold, hctx, hu, hhist⟩ := h₁.decode hn .target hts
    (by simp [captureFits, m₁, hub]) hroom
  have hnum : NumberedFrom 0 (l ++ entries .target l.length ts) :=
    numberedFrom_append.mpr ⟨hn, by simpa using NumberedFrom.entries .target l.length ts⟩
  have hpos₂ : m₂.recrPosMax = l.length + ts.length - 1 := by
    rw [hold.recrPosMax hnum, List.length_append, length_entries]
    push_cast
    rfl
  let m₃ : Memory := { m₂ with history := { m₂.history with capturing := false, valid := true } }
  have hfinish : m₂.historyFinish = (true, m₃) := by
    unfold historyFinish
    rw [if_pos ⟨by rw [hhist], by rw [hpos₂, hhist]⟩]
  refine ⟨m₁, m₂, m₃, hbegin, h.2, hdec, hold.1, hfinish, ?_⟩
  intro k hk hkt
  have hne : ∀ {t : List Token}, t ≠ [] → l ++ entries .target l.length t ≠ [] := by
    intro t ht he
    exact entries_ne_nil ht (List.append_eq_nil_iff.mp he).2
  have htoks : m₃.history.tokens = ts.length := by
    change m₂.history.tokens = _
    rw [hhist]
  have hsplit : entries .target l.length ts =
      entries .target l.length (ts.take k) ++ entries .target (l.length + (ts.take k).length) (ts.drop k) := by
    rw [← entries_append, List.take_append_drop]
  have hrow : (if m₃.history.tokens = 1 then m₃.recr else m₃.history.rows.getD (k - 1) []) =
      l ++ entries .target l.length (ts.take k) := by
    rw [htoks]
    split
    · rw [List.take_of_length_le (by omega)]
      exact hold.2
    · change m₂.history.rows.getD (k - 1) [] = _
      rw [hhist]
      refine (getD_captureRows rfl (show 1 < ts.length by omega) (by rw [length_entries]; omega)).trans ?_
      rw [Nat.sub_add_cancel hk, take_entries]
      exact congrArg (· ++ _) h.2
  obtain ⟨m₄, hcommit, hold₄, ⟨hs₁, hs₂, hs₃⟩, hidle⟩ := historyCommit_eq (m := m₃) rfl hk (by rw [htoks]; exact hkt)
    (by rw [htoks]; exact hpos₂.trans (by change _ = m₂.history.first + _ - 1; rw [hhist]))
    (by change m₂.recr ≠ []; rw [hold.2]; exact hne hts) hrow (hne (by simp [hts]; omega))
    (by change m₂.attn = _; rw [hold.1, hsplit, List.append_assoc]) (by rw [List.append_assoc, ← hsplit]; exact hnum)
  exact ⟨m₄, hcommit, hold₄, ⟨hs₁.trans hctx, hs₂.trans hu, hs₃.trans (by change m₂.history.capacity = _; rw [hhist])⟩,
    hidle⟩

end Memory

end S2Moe.Next
