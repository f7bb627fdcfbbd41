import S2Moe.Lib.Spans
import S2Moe.Lib.Run

/-!
# `ggml_dyn_tallocr`

The allocator that plans addresses: chunks with lists of free blocks.

* `alloc` : the best fitting block that is not the last of its chunk, else a last block, else a new chunk;
* `freeTensor` : the block is merged with a neighbour, or with both of them, or put into the list;
* `Fault` : the ways in which a call can go wrong;
* `Heap` : the allocator with the allocations that are live, and all that were made; `step` : a call.
-/

namespace S2Moe.Alloc
open S2Moe.Lib

/-- A failed assertion, the abort, an access behind the array of the free blocks, a block that is smaller than what is taken
from it. -/
inductive Fault where
  | outOfFreeBlocks
  | noSpace
  | outOfBounds
  | wraps
deriving DecidableEq

/-- `capacity` is the size the chunk was made with, which the source does not keep. -/
structure Chunk where
  freeBlocks : List Span
  maxSize : Nat := 0
  capacity : Nat
deriving DecidableEq

structure DynTallocr where
  alignment : Nat
  maxChunkSize : Nat
  chunks : List Chunk := []
deriving DecidableEq

/-- `struct buffer_address`. -/
structure BufferAddress where
  chunk : Nat
  offset : Nat
deriving DecidableEq

/-- `SIZE_MAX`. -/
def sizeMax : Nat := 2 ^ 64 - 1

/-- `GGML_VBUFFER_MAX_CHUNKS`. -/
def maxChunks : Nat := 16

/-- `MAX_FREE_BLOCKS`. -/
def maxFreeBlocks : Nat := 256

def alignedOffset (offset alignment : Nat) : Nat := offset + (alignment - offset % alignment) % alignment

/-! ## The array of the free blocks -/

/-- `ggml_dyn_tallocr_insert_block`. -/
def insertBlock (bs : List Span) (offset size : Nat) : Except Fault (List Span) :=
  if bs.length < maxFreeBlocks then
    .ok (bs.takeWhile (fun b => b.offset < offset) ++ ⟨offset, size⟩ :: bs.dropWhile (fun b => b.offset < offset))
  else .error .outOfFreeBlocks

/-- `ggml_dyn_tallocr_remove_block` : the entry `i + 1` is read for each `i` from `idx` up to the last block. -/
def removeBlock (bs : List Span) (idx : Nat) : Except Fault (List Span) :=
  if ∀ i ∈ List.range' idx (bs.length - idx), i + 1 < maxFreeBlocks then .ok (bs.eraseIdx idx) else .error .outOfBounds

/-- The block ends or begins at the one that is freed. -/
def touches (offset size : Nat) (b : Span) : Bool := b.stop = offset ∨ offset + size = b.offset

/-- The loop of `ggml_dyn_tallocr_free_tensor` : the first block that touches the one that is freed grows, and takes in its
neighbour if it touches that. -/
def freeBlock (bs : List Span) (offset size : Nat) : Except Fault (List Span) :=
  let pre := bs.takeWhile (fun b => !touches offset size b)
  match bs.dropWhile (fun b => !touches offset size b) with
  | [] => insertBlock bs offset size
  | b :: post =>
    if b.stop = offset then
      match post with
      | [] => .ok (pre ++ [⟨b.offset, b.size + size⟩])
      | next :: rest =>
        if b.offset + (b.size + size) = next.offset then
          removeBlock (pre ++ ⟨b.offset, b.size + size + next.size⟩ :: next :: rest) (pre.length + 1)
        else .ok (pre ++ ⟨b.offset, b.size + size⟩ :: next :: rest)
    else
      match pre.getLast? with
      | none => .ok (pre ++ ⟨offset, b.size + size⟩ :: post)
      | some prev =>
        if prev.stop = offset then
          removeBlock (pre.dropLast ++ ⟨prev.offset, prev.size + (b.size + size)⟩ ::
            ⟨offset, b.size + size⟩ :: post) pre.length
        else .ok (pre ++ ⟨offset, b.size + size⟩ :: post)

/-! ## The search -/

/-- The index of the smallest block that is large enough, of equal ones the last. The last block of the list is left out. -/
def bestFit (size : Nat) : Nat → List Span → Option Nat → Nat → Option Nat
  | i, b :: c :: bs, best, bestSize =>
    if size ≤ b.size ∧ b.size ≤ bestSize then bestFit size (i + 1) (c :: bs) (some i) b.size
    else bestFit size (i + 1) (c :: bs) best bestSize
  | _, _, best, _ => best

/-- A block that is not the last one of its chunk; of several chunks the last. -/
def bestBlock (size : Nat) : Nat → List Chunk → Option (Nat × Nat) → Option (Nat × Nat)
  | _, [], best => best
  | c, chunk :: chunks, best =>
    bestBlock size (c + 1) chunks
      (match bestFit size 0 chunk.freeBlocks none sizeMax with
        | some i => some (c, i)
        | none => best)

/-- The last block of the first chunk where it is large enough. -/
def lastBlock (size : Nat) : Nat → List Chunk → Option (Nat × Nat)
  | _, [] => none
  | c, chunk :: chunks =>
    match chunk.freeBlocks.getLast? with
    | some b => if size ≤ b.size then some (c, chunk.freeBlocks.length - 1) else lastBlock size (c + 1) chunks
    | none => lastBlock size (c + 1) chunks

namespace DynTallocr

/-- `ggml_dyn_tallocr_new`. -/
def new (alignment maxBufferSize : Nat) : DynTallocr :=
    { alignment := alignment, maxChunkSize := min maxBufferSize (sizeMax / 2) }

def find (a : DynTallocr) (size : Nat) : Option (Nat × Nat) := bestBlock size 0 a.chunks none <|> lastBlock size 0 a.chunks

/-- `ggml_dyn_tallocr_new_chunk`; the last chunk has all memory there is. -/
def newChunk (a : DynTallocr) (minSize : Nat) : DynTallocr :=
  let size := if a.chunks.length = maxChunks - 1 then sizeMax / 2 else max minSize a.maxChunkSize
  { a with chunks := a.chunks ++ [{ freeBlocks := [⟨0, size⟩], capacity := size }] }

/-- The front of block `i` of chunk `c` is taken; an empty block is removed. -/
def take (a : DynTallocr) (size c i : Nat) : Except Fault (BufferAddress × DynTallocr) :=
  match a.chunks[c]? with
  | none => .error .outOfBounds
  | some chunk =>
    match chunk.freeBlocks[i]? with
    | none => .error .outOfBounds
    | some b => do
      if b.size < size then .error .wraps
      else
        let blocks := chunk.freeBlocks.set i ⟨b.offset + size, b.size - size⟩
        let blocks ← if b.size - size = 0 then removeBlock blocks i else .ok blocks
        .ok (⟨c, b.offset⟩, { a with
          chunks := a.chunks.set c { chunk with freeBlocks := blocks, maxSize := max chunk.maxSize (b.offset + size) } })

/-- `ggml_dyn_tallocr_alloc`. -/
def alloc (a : DynTallocr) (size : Nat) : Except Fault (BufferAddress × DynTallocr) :=
  let size := alignedOffset size a.alignment
  match a.find size with
  | some (c, i) => a.take size c i
  | none => if maxChunks ≤ a.chunks.length then .error .noSpace else (a.newChunk size).take size a.chunks.length 0

/-- `ggml_dyn_tallocr_free_tensor`. -/
def freeTensor (a : DynTallocr) (addr : BufferAddress) (size : Nat) : Except Fault DynTallocr :=
  match a.chunks[addr.chunk]? with
  | none => .error .outOfBounds
  | some chunk => do
    let blocks ← freeBlock chunk.freeBlocks addr.offset (alignedOffset size a.alignment)
    .ok { a with chunks := a.chunks.set addr.chunk { chunk with freeBlocks := blocks } }

end DynTallocr

/-! ## Calls -/

structure Allocation where
  addr : BufferAddress
  size : Nat
deriving DecidableEq

structure Heap where
  tallocr : DynTallocr
  live : List Allocation := []
  made : List Allocation := []
deriving DecidableEq

/-- A tensor is allocated, or one of the live allocations is freed. -/
inductive Op where
  | alloc (size : Nat)
  | free (k : Nat)

def step : Op → Heap → Except Fault Heap
  | .alloc size, h => do
    let r ← h.tallocr.alloc size
    .ok { tallocr := r.2, live := ⟨r.1, size⟩ :: h.live, made := ⟨r.1, size⟩ :: h.made }
  | .free k, h =>
    match h.live[k]? with
    | none => .ok h
    | some l => do
      let t ← h.tallocr.freeTensor l.addr l.size
      .ok { h with tallocr := t, live := h.live.eraseIdx k }

namespace Heap

def new (alignment maxBufferSize : Nat) : Heap := { tallocr := .new alignment maxBufferSize }

/-- The size of an allocation as the allocator rounds it. -/
def rounded (h : Heap) (size : Nat) : Nat := alignedOffset size h.tallocr.alignment

def span (h : Heap) (l : Allocation) : Span := ⟨l.addr.offset, h.rounded l.size⟩

/-- The allocations of a list that are in chunk `c`. -/
def spansIn (h : Heap) (ls : List Allocation) (c : Nat) : List Span := (ls.filter fun l => l.addr.chunk = c).map h.span

/-- All that was ever allocated. -/
def total (h : Heap) : Nat := (h.made.map fun l => h.rounded l.size).sum

end Heap

end S2Moe.Alloc
