import Redis.Lib.Bytes
import Redis.Lib.Machine
import Redis.Lib.Packed

/-! # HyperLogLog registers (`hyperloglog.c`)

The 16384 registers of an HLL are stored dense, six bits each, or sparse, as a sequence of opcodes:

* `00xxxxxx` (`ZERO`): up to 64 registers that are zero,
* `01xxxxxx yyyyyyyy` (`XZERO`): up to 16384 of them,
* `1vvvvvxx` (`VAL`): up to four registers with one value, up to 32.

`hllSparseSet` updates the opcodes in place and promotes the object to the dense form when a value is
too large for an opcode or the string would grow beyond `hll_sparse_max_bytes`. Pointers into the string
are offsets from the end of the header; `none` is an access outside of it or a failed assertion. -/

namespace Redis

def hllRegisters : Nat := 1 <<< 14

def hllBits : Nat := 6

def hllHdrSize : Nat := 16

def hllDenseSize : Nat := hllHdrSize + (hllRegisters * hllBits + 7) / 8

inductive HllEncoding
  | dense
  | sparse
deriving DecidableEq, Repr

/-- The string of an HLL: the fields of `struct hllhdr` that are read, and the bytes after the header with
the null term of the sds string. -/
structure HllObject where
  encoding : HllEncoding
  card : Vector UInt8 8
  registers : List UInt8
deriving DecidableEq

variable (o : HllObject)

def HllObject.sdslen : Nat := hllHdrSize + (o.registers.length - 1)

def hllInvalidateCache : HllObject := { o with card := o.card.set 7 (o.card[7] ||| 0x80) }

/-! ### The dense representation -/

def hllDenseGetRegister (p : List UInt8) (regnum : Nat) : Option Nat := packedGet hllBits p regnum

def hllDenseSetRegister (p : List UInt8) (regnum val : Nat) : Option (List UInt8) := packedSet hllBits p regnum val

def hllDenseSet (registers : List UInt8) (index count : Nat) : Option (List UInt8 × Int) := do
  let oldcount ← hllDenseGetRegister registers index
  if count > oldcount then
    let registers ← hllDenseSetRegister registers index count
    some (registers, 1)
  else some (registers, 0)

/-! ### Opcodes -/

def hllSparseIsZero (b : UInt8) : Bool := b &&& 0xc0 == 0

def hllSparseIsXzero (b : UInt8) : Bool := b &&& 0xc0 == 0x40

def hllSparseIsVal (b : UInt8) : Bool := b &&& 0x80 != 0

def hllSparseZeroLen (b : UInt8) : Nat := (b &&& 0x3f).toNat + 1

def hllSparseXzeroLen (b b1 : UInt8) : Nat := (((b &&& 0x3f).toNat <<< 8) ||| b1.toNat) + 1

def hllSparseValValue (b : UInt8) : Nat := ((b >>> 2) &&& 0x1f).toNat + 1

def hllSparseValLen (b : UInt8) : Nat := (b &&& 0x3).toNat + 1

def hllSparseValMaxValue : Nat := 32

def hllSparseValMaxLen : Nat := 4

def hllSparseZeroMaxLen : Nat := 64

def hllSparseXzeroMaxLen : Nat := 16384

def hllSparseValSet (val len : Nat) : List UInt8 := [UInt8.ofNat ((((val - 1) <<< 2) ||| (len - 1)) ||| 0x80)]

def hllSparseZeroSet (len : Nat) : List UInt8 := [UInt8.ofNat (len - 1)]

def hllSparseXzeroSet (len : Nat) : List UInt8 :=
  [UInt8.ofNat (((len - 1) >>> 8) ||| 0x40), UInt8.ofNat ((len - 1) &&& 0xff)]

/-! ### Promotion -/

def hllDenseFill (regval : Nat) : Nat → List UInt8 → Nat → Option (List UInt8)
  | 0, registers, _ => some registers
  | runlen + 1, registers, idx => do
    let registers ← hllDenseSetRegister registers idx regval
    hllDenseFill regval runlen registers (idx + 1)

def hllSparseToDenseLoop : List UInt8 → List UInt8 → Nat → Option (List UInt8 × Nat)
  | [], dense, idx => some (dense, idx)
  | b :: rest, dense, idx =>
    if hllSparseIsZero b then hllSparseToDenseLoop rest dense (idx + hllSparseZeroLen b)
    else if hllSparseIsXzero b then
      match rest with
      | [] => some (dense, idx + hllSparseXzeroLen b 0)
      | b1 :: rest => hllSparseToDenseLoop rest dense (idx + hllSparseXzeroLen b b1)
    else if hllSparseValLen b + idx > hllRegisters then some (dense, idx)
    else do
      let dense ← hllDenseFill (hllSparseValValue b) (hllSparseValLen b) dense idx
      hllSparseToDenseLoop rest dense (idx + hllSparseValLen b)

/-- `false` is `C_ERR`. -/
def hllSparseToDense : Option (HllObject × Bool) :=
  if o.encoding = .dense then some (o, true)
  else do
    let (dense, idx) ← hllSparseToDenseLoop o.registers.dropLast
      (List.replicate (hllDenseSize - hllHdrSize + 1) 0) 0
    if idx ≠ hllRegisters then some (o, false)
    else some ({ o with encoding := .dense, registers := dense }, true)

/-- What follows the label `promote` in `hllSparseSet`. -/
def hllPromote (index count : Nat) : Option (HllObject × Int) := do
  let (o, ok) ← hllSparseToDense o
  if ok = false then some (o, -1)
  else
    let (registers, denseRetval) ← hllDenseSet o.registers index count
    if denseRetval = 1 then some ({ o with registers := registers }, denseRetval) else none

/-! ### Updates of the sparse representation -/

/-- `p`, `first`, `span` and `prev` in `hllSparseSet`. -/
structure HllCursor where
  p : Nat
  first : Nat
  span : Nat
  prev : Option Nat
deriving DecidableEq, Repr

/-- Step 1 of `hllSparseSet`, on the bytes from `p` to `end`. -/
def hllSparseLocate (index : Nat) : List UInt8 → HllCursor → HllCursor
  | [], c => c
  | b :: rest, c =>
    let span :=
      if hllSparseIsZero b then hllSparseZeroLen b
      else if hllSparseIsVal b then hllSparseValLen b
      else hllSparseXzeroLen b (rest.headD 0)
    if index ≤ c.first + span - 1 then { c with span := span }
    else if hllSparseIsZero b || hllSparseIsVal b then
      hllSparseLocate index rest ⟨c.p + 1, c.first + span, span, some c.p⟩
    else
      match rest with
      | [] => ⟨c.p + 2, c.first + span, span, some c.p⟩
      | _ :: rest => hllSparseLocate index rest ⟨c.p + 2, c.first + span, span, some c.p⟩

/-- The opcode for `len` zeros in the new sequence. -/
def hllSparseZeros (len : Nat) : List UInt8 :=
  if len > hllSparseZeroMaxLen then hllSparseXzeroSet len else hllSparseZeroSet len

/-- Step 2 of `hllSparseSet`: the sequence `seq` in the place of the opcode `b`. -/
def hllSparseSeq (b : UInt8) (first last index count : Nat) : List UInt8 :=
  if hllSparseIsZero b || hllSparseIsXzero b then
    (if index ≠ first then hllSparseZeros (index - first) else []) ++ hllSparseValSet count 1 ++
      (if index ≠ last then hllSparseZeros (last - index) else [])
  else
    (if index ≠ first then hllSparseValSet (hllSparseValValue b) (index - first) else []) ++
      hllSparseValSet count 1 ++
      (if index ≠ last then hllSparseValSet (hllSparseValValue b) (last - index) else [])

/-- On the buffer of a string of length `len`. -/
def sdsIncrLen (buf : List UInt8) (len : Nat) (incr : Int) : Option (List UInt8) :=
  if 0 ≤ len + incr ∧ len + incr < buf.length then some (buf.set (len + incr).toNat 0) else none

/-- Step 3 of `hllSparseSet`: the opcode from `p` to `next` is replaced by `seq`. -/
def hllSparseReplace (buf : List UInt8) (p next end_ : Nat) (seq : List UInt8) : Option (List UInt8) := do
  let deltalen : Int := seq.length - (next - p : Nat)
  let buf ← (if deltalen ≠ 0 ∧ next < end_ then memmove buf (next + deltalen).toNat next (end_ - next)
    else some buf)
  let buf ← sdsIncrLen buf end_ deltalen
  memcpy buf p seq

/-- Step 4 of `hllSparseSet`: the scan over `scanlen` opcodes that merges `VAL` opcodes. -/
def hllSparseMerge : Nat → List UInt8 → Nat → Nat → Option (List UInt8 × Nat)
  | 0, buf, _, end_ => some (buf, end_)
  | scanlen + 1, buf, p, end_ =>
    if p < end_ then do
      let b ← buf[p]?
      if hllSparseIsXzero b then hllSparseMerge scanlen buf (p + 2) end_
      else if hllSparseIsZero b then hllSparseMerge scanlen buf (p + 1) end_
      else
        let b1 ← buf[p + 1]?
        let len := hllSparseValLen b + hllSparseValLen b1
        if p + 1 < end_ ∧ hllSparseIsVal b1 ∧ hllSparseValValue b = hllSparseValValue b1 ∧
            len ≤ hllSparseValMaxLen then
          let buf ← memcpy buf (p + 1) (hllSparseValSet (hllSparseValValue b) len)
          let buf ← memmove buf p (p + 1) (end_ - p)
          let buf ← sdsIncrLen buf end_ (-1)
          hllSparseMerge scanlen buf p (end_ - 1)
        else hllSparseMerge scanlen buf (p + 1) end_
    else some (buf, end_)

/-- What follows the label `updated` in `hllSparseSet`. -/
def hllSparseUpdated (buf : List UInt8) (prev : Option Nat) (end_ : Nat) : Option (HllObject × Int) := do
  let (buf, end_) ← hllSparseMerge 5 buf (prev.getD 0) end_
  some (hllInvalidateCache { o with registers := buf.take (end_ + 1) }, 1)

/-- Steps 2 to 4 of `hllSparseSet`, with the opcode found. -/
def hllSparseSetAt (maxBytes : Nat) (o : HllObject) (buf : List UInt8) (end_ : Nat) (c : HllCursor)
    (index count : Nat) : Option (HllObject × Int) := do
  let b ← buf[c.p]?
  if hllSparseIsVal b && decide (hllSparseValValue b ≥ count) then some (o, 0)
  else if hllSparseIsVal b && decide (hllSparseValLen b = 1) ||
      hllSparseIsZero b && decide (hllSparseZeroLen b = 1) then
    let buf ← memcpy buf c.p (hllSparseValSet count 1)
    hllSparseUpdated o buf c.prev end_
  else
    let seq := hllSparseSeq b c.first (c.first + c.span - 1) index count
    let oldlen := if hllSparseIsXzero b then 2 else 1
    if seq.length > oldlen ∧ o.sdslen + (seq.length - oldlen) > maxBytes then hllPromote o index count
    else
      let buf ← hllSparseReplace buf c.p (c.p + oldlen) end_ seq
      hllSparseUpdated o buf c.prev (end_ + seq.length - oldlen)

/-- `sdsMakeRoomFor` leaves `junk` in the new room. -/
def hllSparseSet (junk : Nat → UInt8) (maxBytes : Nat) (o : HllObject) (index count : Nat) : Option (HllObject × Int) :=
  if count > hllSparseValMaxValue then hllPromote o index count
  else
    let end_ := o.registers.length - 1
    let buf := realloc junk o.registers (o.registers.length + 3)
    let c := hllSparseLocate index (buf.take end_) ⟨0, 0, 0, none⟩
    if c.span = 0 then some (o, -1) else hllSparseSetAt maxBytes o buf end_ c index count

/-! ### Objects -/

def hllXzeros : Nat → Nat → List UInt8
  | 0, _ => []
  | n + 1, aux => hllSparseXzeroSet (min aux hllSparseXzeroMaxLen) ++ hllXzeros n (aux - min aux hllSparseXzeroMaxLen)

def createHLLObject : HllObject :=
  ⟨.sparse, Vector.replicate 8 0,
    hllXzeros ((hllRegisters + (hllSparseXzeroMaxLen - 1)) / hllSparseXzeroMaxLen) hllRegisters ++ [0]⟩

/-- A register update, by the encoding as in `hllAdd` and `pfmergeCommand`. -/
def hllSet (junk : Nat → UInt8) (maxBytes : Nat) (u : Nat × Nat) (o : HllObject) : Option (HllObject × Int) :=
  match o.encoding with
  | .dense => do
    let (registers, ret) ← hllDenseSet o.registers u.1 u.2
    some ({ o with registers := registers }, ret)
  | .sparse => hllSparseSet junk maxBytes o u.1 u.2

def hllMachine (junk : Nat → UInt8) (maxBytes : Nat) : Machine (Nat × Nat) HllObject Int :=
  ⟨createHLLObject, hllSet junk maxBytes⟩

def hllDenseMachine : Machine (Nat × Nat) (List UInt8) Int :=
  ⟨List.replicate (hllDenseSize - hllHdrSize + 1) 0, fun u registers => hllDenseSet registers u.1 u.2⟩

end Redis
