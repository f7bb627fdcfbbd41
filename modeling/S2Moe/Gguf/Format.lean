import Mathlib.Data.Fin.VecNotation
import Mathlib.Data.List.TakeWhile
import S2Moe.Lib.Bytes

/-!
# GGUF files

A `gguf_context` is filled by setters, written to a buffer, and read back from a file.

* `Kv`, `Tensor`, `Info`, `Ctx` : the context; numbers of a key-value pair are kept as their bytes;
* `Ctx.setVal`, `Ctx.setArrData`, `Ctx.setArrStr`, `Ctx.setKv`, `Ctx.removeKey`, `Ctx.addTensor`, `Ctx.setTensorType` : the
  setters, `none` when an assertion stops the process;
* `Ctx.writeToBuf` : `gguf_write_to_buf` with an empty buffer;
* `initFromFile` : `gguf_init_from_file_impl` with the tensor data.

The table of the tensor types is a parameter.
-/

namespace S2Moe.Gguf
open S2Moe.Lib

abbrev Bytes := List UInt8

inductive GgufType where
  | uint8 | int8 | uint16 | int16 | uint32 | int32 | float32 | bool | string | array | uint64 | int64 | float64
deriving DecidableEq

/-- The numbers of the enumeration. -/
def GgufType.code : GgufType → Nat
  | .uint8 => 0 | .int8 => 1 | .uint16 => 2 | .int16 => 3 | .uint32 => 4 | .int32 => 5 | .float32 => 6 | .bool => 7
  | .string => 8 | .array => 9 | .uint64 => 10 | .int64 => 11 | .float64 => 12

def GgufType.ofCode : Int → Option GgufType
  | 0 => some .uint8 | 1 => some .int8 | 2 => some .uint16 | 3 => some .int16 | 4 => some .uint32 | 5 => some .int32
  | 6 => some .float32 | 7 => some .bool | 8 => some .string | 9 => some .array | 10 => some .uint64 | 11 => some .int64
  | 12 => some .float64 | _ => none

/-- `GGUF_TYPE_SIZE`. -/
def GgufType.size : GgufType → Nat
  | .uint8 => 1 | .int8 => 1 | .uint16 => 2 | .int16 => 2 | .uint32 => 4 | .int32 => 4 | .float32 => 4 | .bool => 1
  | .string => 0 | .array => 0 | .uint64 => 8 | .int64 => 8 | .float64 => 8

/-- A C string without its terminator. -/
structure CStr where
  bytes : Bytes
  noNul : 0 ∉ bytes
deriving DecidableEq

/-- `std::string::c_str`, read as a C string. -/
def CStr.of (s : Bytes) : CStr := ⟨s.takeWhile (· ≠ 0), fun h => by simpa using List.mem_takeWhile_imp h⟩

/-- `gguf_kv`. -/
structure Kv where
  key : Bytes
  isArray : Bool
  type : GgufType
  data : Bytes
  dataString : List Bytes
deriving DecidableEq

/-- `ggml_type_size` and `ggml_blck_size`. -/
structure Traits where
  typeSize : Nat → Nat
  blckSize : Nat → Nat

/-- The fields of a `ggml_tensor` that are read here. `data` are the bytes from its data pointer on. -/
structure Tensor where
  name : Bytes
  type : Nat
  ne : Fin 4 → Nat
  nb : Fin 4 → Nat
  data : Nat → UInt8

structure Info where
  t : Tensor
  offset : Nat

structure Ctx where
  version : Nat := 3
  kv : List Kv := []
  info : List Info := []
  alignment : Nat := 32
  offset : Nat := 0
  size : Nat := 0
  data : Option Bytes := none

/-- `gguf_init_empty`. -/
def Ctx.empty : Ctx := {}

/-- The bytes of an ASCII string. -/
def ascii (s : List Char) : Bytes := s.map fun ch => UInt8.ofNat ch.toNat

/-- `GGUF_KEY_GENERAL_ALIGNMENT`. -/
def alignmentKey : Bytes :=
  ascii ['g', 'e', 'n', 'e', 'r', 'a', 'l', '.', 'a', 'l', 'i', 'g', 'n', 'm', 'e', 'n', 't']

/-- `GGML_PAD` on 64 bits, for a power of two. -/
def pad (x n : Nat) : Nat := (x + n - 1) % 2 ^ 64 / n * n

section Tensors
variable (tr : Traits)

def Tensor.nbytes (t : Tensor) : Nat :=
  if ∃ i, t.ne i = 0 then 0
  else if tr.blckSize t.type = 1 then
    (tr.typeSize t.type + (t.ne 0 - 1) * t.nb 0 + (t.ne 1 - 1) * t.nb 1 + (t.ne 2 - 1) * t.nb 2 + (t.ne 3 - 1) * t.nb 3)
      % 2 ^ 64
  else
    (t.ne 0 * t.nb 0 % 2 ^ 64 / tr.blckSize t.type + (t.ne 1 - 1) * t.nb 1 + (t.ne 2 - 1) * t.nb 2 + (t.ne 3 - 1) * t.nb 3)
      % 2 ^ 64

/-- The bytes of the tensor. -/
def Tensor.bytes (t : Tensor) : Bytes := slice t.data 0 (t.nbytes tr)

/-- `ggml_is_contiguous`. -/
def Tensor.isContiguous (t : Tensor) : Bool :=
  let nextNb := tr.typeSize t.type
  if t.ne 0 ≠ tr.blckSize t.type ∧ t.nb 0 ≠ nextNb then false
  else
    let nextNb := nextNb * (t.ne 0 / tr.blckSize t.type) % 2 ^ 64
    let step := fun (acc : Bool × Nat) (i : Fin 4) =>
      if t.ne i ≠ 1 then (acc.1 && decide (t.nb i = acc.2), acc.2 * t.ne i % 2 ^ 64) else acc
    (([1, 2, 3] : List (Fin 4)).foldl step (true, nextNb)).1

/-- `ggml_n_dims`. -/
def Tensor.nDims (t : Tensor) : Nat := if 1 < t.ne 3 then 4 else if 1 < t.ne 2 then 3 else if 1 < t.ne 1 then 2 else 1

/-- The strides of a contiguous tensor. -/
def strides (type : Nat) (ne : Fin 4 → Nat) : Fin 4 → Nat :=
  let nb0 := tr.typeSize type
  let nb1 := nb0 * (ne 0 / tr.blckSize type) % 2 ^ 64
  let nb2 := nb1 * ne 1 % 2 ^ 64
  let nb3 := nb2 * ne 2 % 2 ^ 64
  ![nb0, nb1, nb2, nb3]

end Tensors

/-! ## The setters -/

/-- An argument of `gguf_set_val_*`. A float is given by its bits. -/
inductive Scalar where
  | u8 (v : UInt8)
  | i8 (v : Int8)
  | u16 (v : UInt16)
  | i16 (v : Int16)
  | u32 (v : UInt32)
  | i32 (v : Int32)
  | f32 (v : UInt32)
  | u64 (v : UInt64)
  | i64 (v : Int64)
  | f64 (v : UInt64)
  | bool (v : Bool)
  | str (v : CStr)

/-- The constructors of `gguf_kv` for one value. -/
def Scalar.kv (key : Bytes) : Scalar → Kv
  | .u8 v => ⟨key, false, .uint8, leBytes 1 v.toNat, []⟩
  | .i8 v => ⟨key, false, .int8, leBytes 1 v.toUInt8.toNat, []⟩
  | .u16 v => ⟨key, false, .uint16, leBytes 2 v.toNat, []⟩
  | .i16 v => ⟨key, false, .int16, leBytes 2 v.toUInt16.toNat, []⟩
  | .u32 v => ⟨key, false, .uint32, leBytes 4 v.toNat, []⟩
  | .i32 v => ⟨key, false, .int32, leBytes 4 v.toUInt32.toNat, []⟩
  | .f32 v => ⟨key, false, .float32, leBytes 4 v.toNat, []⟩
  | .u64 v => ⟨key, false, .uint64, leBytes 8 v.toNat, []⟩
  | .i64 v => ⟨key, false, .int64, leBytes 8 v.toUInt64.toNat, []⟩
  | .f64 v => ⟨key, false, .float64, leBytes 8 v.toNat, []⟩
  | .bool v => ⟨key, false, .bool, leBytes 1 v.toNat, []⟩
  | .str v => ⟨key, false, .string, [], [v.bytes]⟩

namespace Ctx

/-- `gguf_find_key`. -/
def findKey (c : Ctx) (key : CStr) : Option Kv := c.kv.find? fun kv => (CStr.of kv.key).bytes = key.bytes

/-- `gguf_remove_key`: the first pair with the key goes. -/
def removeKey (c : Ctx) (key : CStr) : Ctx := { c with kv := c.kv.eraseP fun kv => (CStr.of kv.key).bytes = key.bytes }

/-- A power of two. -/
def isPow2 (v : Nat) : Bool := decide (0 < v ∧ v &&& (v - 1) = 0)

/-- `gguf_check_reserved_keys` for one value: the alignment is a 32-bit power of two. -/
def checkReserved (key : CStr) : Scalar → Bool
  | .u32 v => decide (key.bytes = alignmentKey → isPow2 v.toNat)
  | _ => decide (key.bytes ≠ alignmentKey)

/-- The constructors of `gguf_kv` reject the empty key. -/
def emplace (c : Ctx) (kv : Kv) : Option Ctx := if kv.key = [] then none else some { c with kv := c.kv ++ [kv] }

/-- The body of `gguf_set_val_*`. -/
def setVal (c : Ctx) (key : CStr) (val : Scalar) : Option Ctx :=
  if checkReserved key val then (c.removeKey key).emplace (val.kv key.bytes) else none

def setValU8 (c : Ctx) (key : CStr) (val : UInt8) : Option Ctx := c.setVal key (.u8 val)
def setValI8 (c : Ctx) (key : CStr) (val : Int8) : Option Ctx := c.setVal key (.i8 val)
def setValU16 (c : Ctx) (key : CStr) (val : UInt16) : Option Ctx := c.setVal key (.u16 val)
def setValI16 (c : Ctx) (key : CStr) (val : Int16) : Option Ctx := c.setVal key (.i16 val)
def setValU32 (c : Ctx) (key : CStr) (val : UInt32) : Option Ctx := c.setVal key (.u32 val)
def setValI32 (c : Ctx) (key : CStr) (val : Int32) : Option Ctx := c.setVal key (.i32 val)
def setValF32 (c : Ctx) (key : CStr) (val : UInt32) : Option Ctx := c.setVal key (.f32 val)
def setValU64 (c : Ctx) (key : CStr) (val : UInt64) : Option Ctx := c.setVal key (.u64 val)
def setValI64 (c : Ctx) (key : CStr) (val : Int64) : Option Ctx := c.setVal key (.i64 val)
def setValF64 (c : Ctx) (key : CStr) (val : UInt64) : Option Ctx := c.setVal key (.f64 val)
def setValBool (c : Ctx) (key : CStr) (val : Bool) : Option Ctx := c.setVal key (.bool val)
def setValStr (c : Ctx) (key : CStr) (val : CStr) : Option Ctx := c.setVal key (.str val)

/-- `gguf_set_arr_data`: `n` elements from `data`. The cast to a type without a size divides by zero. -/
def setArrData (c : Ctx) (key : CStr) (type : GgufType) (data : Nat → UInt8) (n : Nat) : Option Ctx :=
  if key.bytes = alignmentKey ∨ type.size = 0 then none
  else (c.removeKey key).emplace ⟨key.bytes, true, type, slice data 0 (n * type.size), []⟩

/-- `gguf_set_arr_str`. -/
def setArrStr (c : Ctx) (key : CStr) (data : List CStr) : Option Ctx :=
  if key.bytes = alignmentKey then none
  else (c.removeKey key).emplace ⟨key.bytes, true, .string, [], data.map CStr.bytes⟩

end Ctx

/-- `get_ne`, `none` when it asserts. -/
def Kv.getNe (kv : Kv) : Option Nat :=
  if kv.type = .string then
    if kv.isArray ∨ kv.dataString.length = 1 then some kv.dataString.length else none
  else if kv.type.size = 0 ∨ kv.data.length % kv.type.size ≠ 0 then none
  else
    let ne := kv.data.length / kv.type.size
    if kv.isArray ∨ ne = 1 then some ne else none

/-- `get_val<T>(0)` for the type of the pair, as the argument of the setter. -/
def Kv.scalar (kv : Kv) : Option Scalar :=
  let v := ofLe (kv.data.take kv.type.size)
  if kv.type ≠ .string ∧ (kv.type.size = 0 ∨ kv.data.length % kv.type.size ≠ 0 ∨ kv.data.length < kv.type.size) then none
  else
    match kv.type with
    | .uint8 => some (.u8 (.ofNat v))
    | .int8 => some (.i8 (UInt8.ofNat v).toInt8)
    | .uint16 => some (.u16 (.ofNat v))
    | .int16 => some (.i16 (UInt16.ofNat v).toInt16)
    | .uint32 => some (.u32 (.ofNat v))
    | .int32 => some (.i32 (UInt32.ofNat v).toInt32)
    | .float32 => some (.f32 (.ofNat v))
    | .uint64 => some (.u64 (.ofNat v))
    | .int64 => some (.i64 (UInt64.ofNat v).toInt64)
    | .float64 => some (.f64 (.ofNat v))
    | .bool => some (.bool (decide (v ≠ 0)))
    | .string => kv.dataString.head?.map fun s => .str (CStr.of s)
    | .array => none

namespace Ctx

/-- The loop body of `gguf_set_kv`. -/
def setOne (c : Ctx) (kv : Kv) : Option Ctx :=
  if ¬ kv.isArray then kv.scalar.bind (c.setVal (CStr.of kv.key))
  else
    kv.getNe.bind fun ne =>
      if kv.type = .string then c.setArrStr (CStr.of kv.key) (kv.dataString.map CStr.of)
      else c.setArrData (CStr.of kv.key) kv.type (fun k => kv.data.getD k 0) ne

/-- `gguf_set_kv` with the pairs of another context. -/
def setKv (c : Ctx) : List Kv → Option Ctx
  | [] => some c
  | kv :: kvs => (c.setOne kv).bind fun c => c.setKv kvs

/-- `gguf_find_tensor`. -/
def findTensor (c : Ctx) (name : Bytes) : Option Nat := c.info.findIdx? fun i => i.t.name = name

variable (tr : Traits)

/-- Where the next tensor goes. -/
def nextOffset (c : Ctx) : Nat :=
  match c.info.getLast? with
  | none => 0
  | some i => (i.offset + pad (i.t.nbytes tr) c.alignment) % 2 ^ 64

def addTensor (c : Ctx) (t : Tensor) : Option Ctx :=
  if (c.findTensor t.name).isSome then none else some { c with info := c.info ++ [⟨t, c.nextOffset tr⟩] }

/-- The loop at the end of `gguf_set_tensor_type`: the offsets of `infos`, which follow `prev`. -/
def updateOffsets (alignment : Nat) : Info → List Info → List Info
  | _, [] => []
  | prev, i :: infos =>
    let i := { i with offset := (prev.offset + pad (prev.t.nbytes tr) alignment) % 2 ^ 64 }
    i :: updateOffsets alignment i infos

def setTensorType (c : Ctx) (name : Bytes) (type : Nat) : Option Ctx := do
  let id ← c.findTensor name
  let i ← c.info[id]?
  if tr.blckSize type = 0 ∨ i.t.ne 0 % tr.blckSize type ≠ 0 then none
  else
    let i := { i with t := { i.t with type := type, nb := strides tr type i.t.ne } }
    some { c with info := c.info.take id ++ i :: updateOffsets tr c.alignment i (c.info.drop (id + 1)) }

end Ctx

/-! ## The writer -/

def writeString (s : Bytes) : Bytes := leBytes 8 s.length ++ s

/-- An enumeration is written as an `int32_t`. -/
def writeType (t : GgufType) : Bytes := leBytes 4 t.code

def writeBool (b : UInt8) : UInt8 := if b ≠ 0 then 1 else 0

/-- `write(const gguf_kv &)`. -/
def Kv.write (kv : Kv) : Option Bytes := do
  let ne ← kv.getNe
  let head := writeString kv.key ++
    if kv.isArray then writeType .array ++ writeType kv.type ++ leBytes 8 ne else writeType kv.type
  match kv.type with
  | .array => none
  | .bool => some (head ++ kv.data.map writeBool)
  | .string => some (head ++ kv.dataString.flatMap writeString)
  | _ => some (head ++ kv.data)

/-- `write_tensor_meta`. -/
def Info.writeMeta (i : Info) : Bytes :=
  writeString i.t.name ++ leBytes 4 i.t.nDims ++
    (List.finRange 4).flatMap (fun j => if j.val < i.t.nDims then leBytes 8 (i.t.ne j) else []) ++
    leBytes 4 i.t.type ++ leBytes 8 i.offset

/-- The zeros of `pad(alignment)` behind `n` bytes. -/
def zeros (n alignment : Nat) : Bytes := List.replicate ((alignment - n % alignment) % alignment) 0

/-- The loop of `write_tensor_data`. -/
def writeData (tr : Traits) (alignment offsetData : Nat) : List Info → Bytes → Option Bytes
  | [], buf => some buf
  | i :: infos, buf =>
    if buf.length - offsetData ≠ i.offset ∨ i.t.isContiguous tr = false then none
    else
      let buf := buf ++ i.t.bytes tr
      writeData tr alignment offsetData infos (buf ++ zeros buf.length alignment)

def writeKvs : List Kv → Option Bytes
  | [] => some []
  | kv :: kvs => do
    let bs ← kv.write
    let rest ← writeKvs kvs
    some (bs ++ rest)

/-- `GGUF_MAGIC`. -/
def magic : Bytes := ascii ['G', 'G', 'U', 'F']

/-- `gguf_write_out`. -/
def Ctx.writeToBuf (tr : Traits) (c : Ctx) : Option Bytes := do
  let kvs ← writeKvs c.kv
  let buf := magic ++ leBytes 4 c.version ++ leBytes 8 c.info.length ++ leBytes 8 c.kv.length ++ kvs ++
    c.info.flatMap Info.writeMeta
  let buf := buf ++ zeros buf.length c.alignment
  writeData tr c.alignment buf.length c.info buf

/-! ## The reader -/

def readString : Read Unit Bytes := do
  let n ← Read.nat 8
  Read.bytes n

def readStrings : Nat → Read Unit (List Bytes)
  | 0 => return []
  | n + 1 => do
    let s ← readString
    let l ← readStrings n
    return s :: l

/-- The values of `gguf_read_emplace_helper`. -/
def readValues (type : GgufType) (n : Nat) : Read Unit (Bytes × List Bytes) :=
  match type with
  | .string => do return ([], ← readStrings n)
  | .bool => do return ((← Read.bytes n).map writeBool, [])
  | _ => do return (← Read.bytes (n * type.size), [])

/-- The type of a value, whether it is an array, and how many elements it has. -/
def readHead : Read Unit (Int × Bool × Nat) := do
  let type ← Read.int 4
  if type = GgufType.array.code then
    let type ← Read.int 4
    let n ← Read.nat 8
    return (type, true, n)
  else return (type, false, 1)

/-- One key-value pair; `kvs` are the pairs before. -/
def readKv (kvs : List Kv) : Read Unit Kv := do
  let key ← readString
  if kvs.any (·.key = key) then Read.fail .thrown
  else
    let (type, isArray, n) ← readHead
    match GgufType.ofCode type with
    | none => Read.fail .thrown
    | some .array => Read.fail .thrown
    | some type =>
      let (data, dataString) ← readValues type n
      if key = [] then Read.fail .aborted else return ⟨key, isArray, type, data, dataString⟩

def readKvs : Nat → List Kv → Read Unit (List Kv)
  | 0, kvs => return kvs
  | n + 1, kvs => do
    let kv ← readKv kvs
    readKvs n (kvs ++ [kv])

/-- `gguf_get_val_u32`. -/
def Kv.valU32 (kv : Kv) : Option Nat := if kv.getNe = some 1 ∧ kv.type = .uint32 then some (ofLe (kv.data.take 4)) else none

/-- The alignment of the file. -/
def readAlignment (kvs : List Kv) : Read Unit Nat :=
  match kvs.find? fun kv => (CStr.of kv.key).bytes = alignmentKey with
  | none => return 32
  | some kv =>
    match kv.valU32 with
    | none => Read.fail .aborted
    | some v => if Ctx.isPow2 v then return v else Read.fail .thrown

def readDim (nDims j : Nat) : Read Unit Nat := do
  if j < nDims then
    let ne ← Read.int 8
    if ne < 0 then Read.fail .thrown else return ne.toNat
  else return 1

/-- The number of elements is representable. A division by zero stops the process. -/
def checkElements (ne : Fin 4 → Nat) : Option Failure :=
  if ne 1 = 0 then some .aborted
  else if (2 ^ 63 - 1) / ne 1 ≤ ne 0 then some .thrown
  else if ne 2 = 0 then some .aborted
  else if (2 ^ 63 - 1) / ne 2 ≤ ne 0 * ne 1 then some .thrown
  else if ne 3 = 0 then some .aborted
  else if (2 ^ 63 - 1) / ne 3 ≤ ne 0 * ne 1 * ne 2 then some .thrown
  else none

/-- One tensor; `infos` are the tensors before. -/
def readInfo (tr : Traits) (infos : List Info) : Read Unit Info := do
  let name ← readString
  if 64 ≤ name.length ∨ infos.any (·.t.name = (CStr.of name).bytes) then Read.fail .thrown
  else
    let nDims ← Read.nat 4
    if 4 < nDims then Read.fail .thrown
    else
      let ne0 ← readDim nDims 0
      let ne1 ← readDim nDims 1
      let ne2 ← readDim nDims 2
      let ne3 ← readDim nDims 3
      let ne := ![ne0, ne1, ne2, ne3]
      match checkElements ne with
      | some e => Read.fail e
      | none =>
        let type ← Read.int 4
        if type < 0 ∨ 40 ≤ type then Read.fail .thrown
        else
          let type := type.toNat
          if tr.blckSize type = 0 ∨ ne 0 % tr.blckSize type ≠ 0 then Read.fail .thrown
          else
            let offset ← Read.nat 8
            return ⟨⟨(CStr.of name).bytes, type, ne, strides tr type ne, fun _ => 0⟩, offset⟩

def readInfos (tr : Traits) : Nat → List Info → Read Unit (List Info)
  | 0, infos => return infos
  | n + 1, infos => do
    let i ← readInfo tr infos
    readInfos tr n (infos ++ [i])

/-- `sizeof(gguf_tensor_info)` and `sizeof(gguf_kv)`. -/
def sizeofInfo : Nat := 344

def sizeofKv : Nat := 88

/-- The file in front of the data section. -/
def readMeta (tr : Traits) : Read Unit Ctx := do
  let m ← Read.bytes 4
  if m ≠ magic then Read.fail .thrown
  else
    let version ← Read.nat 4
    if version = 0 ∨ version % 2 ^ 16 = 0 ∨ version = 1 ∨ 3 < version then Read.fail .thrown
    else
      let nTensors ← Read.int 8
      if nTensors < 0 ∨ ((2 ^ 64 - 1) / sizeofInfo : Nat) < nTensors then Read.fail .thrown
      else
        let nKv ← Read.int 8
        if nKv < 0 ∨ ((2 ^ 64 - 1) / sizeofKv : Nat) < nKv then Read.fail .thrown
        else
          let kv ← readKvs nKv.toNat []
          let alignment ← readAlignment kv
          let info ← readInfos tr nTensors.toNat []
          return { version := version, kv := kv, info := info, alignment := alignment }

/-- The size of the data section; the offsets must be those of tensors that follow each other. -/
def dataSize (tr : Traits) (alignment : Nat) : List Info → Nat → Option Nat
  | [], size => some size
  | i :: infos, size =>
    if i.offset ≠ size then none
    else
      let padded := pad (i.t.nbytes tr) alignment
      if 2 ^ 64 - 1 - size < padded then none else dataSize tr alignment infos (size + padded)

/-- The context, and the tensors that point into its data. -/
structure Loaded where
  ctx : Ctx
  tensors : List Tensor

/-- `gguf_init_from_file_impl` with a context for the tensors and their data. -/
def initFromFile (tr : Traits) (file : Bytes) : Except Failure Loaded :=
  match readMeta tr ⟨file, ()⟩ with
  | .error e _ => .error e
  | .ok ctx s =>
    let offset := pad (file.length - s.bytes.length) ctx.alignment
    match dataSize tr ctx.alignment ctx.info 0 with
    | none => .error .thrown
    | some size =>
      let data := (file.drop offset).take size
      if data.length < size then .error .thrown
      else
        .ok {
          ctx := { ctx with offset := offset, size := size, data := some data }
          tensors := ctx.info.map fun i => { i.t with data := fun k => data.getD (i.offset + k) 0 } }

end S2Moe.Gguf
