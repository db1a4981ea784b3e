import Redis.Lib.Bytes

/-! # Listpacks (`listpack.c`)

A listpack is one buffer: six bytes of header (total bytes, number of elements), the entries, and
the terminator `0xFF`. An entry is its encoded element followed by the length of that encoding,
written so that it can be read backwards. Pointers into the buffer are offsets; a function that
looks at the bytes from a pointer on gets them as a list, `lpDecodeBacklen` gets the bytes up to the
pointer in reverse.

The outer `Option` is a read or write outside the buffer. Where the C function can return `NULL` the
result carries a second one. -/

namespace Redis

def lpHdrSize : Nat := 6

def lpHdrNumeleUnknown : Nat := 65535

def lpEof : UInt8 := 0xFF

def uint32Max : Nat := 2 ^ 32 - 1

def uint64Max : Nat := 2 ^ 64 - 1

def lpGetTotalBytes : List UInt8 → Option Nat
  | b0 :: b1 :: b2 :: b3 :: _ => some (leVal [b0, b1, b2, b3])
  | _ => none

def lpGetNumElements : List UInt8 → Option Nat
  | _ :: _ :: _ :: _ :: b4 :: b5 :: _ => some (leVal [b4, b5])
  | _ => none

variable (lp : List UInt8)

def lpSetTotalBytes (v : Nat) : Option (List UInt8) := memcpy lp 0 (leBytes 4 v)

def lpSetNumElements (v : Nat) : Option (List UInt8) := memcpy lp 4 (leBytes 2 v)

def lpNew : List UInt8 := leBytes 4 (lpHdrSize + 1) ++ leBytes 2 0 ++ [lpEof]

/-! ### Integers as strings -/

def isDigit (c : UInt8) : Bool := decide (48 ≤ c.toNat ∧ c.toNat ≤ 57)

/-- The digit loop of `lpStringToInt64`, ending with `none` on an overflow or on bytes left over. -/
def lpDigits : List UInt8 → Nat → Option Nat
  | [], v => some v
  | c :: cs, v =>
    if isDigit c = true then
      if v > uint64Max / 10 then none
      else if v * 10 > uint64Max - (c.toNat - 48) then none
      else lpDigits cs (v * 10 + (c.toNat - 48))
    else none

/-- `lpStringToInt64` after the sign. -/
def lpUnsigned : List UInt8 → Option Nat
  | [] => none
  | d :: ds => if 49 ≤ d.toNat ∧ d.toNat ≤ 57 then lpDigits ds (d.toNat - 48) else none

def lpStringToInt64 (s : List UInt8) : Option Int :=
  if s = [48] then some 0
  else
    match s with
    | 45 :: ds =>
      match lpUnsigned ds with
      | none => none
      | some v => if v > 2 ^ 63 then none else some (-(v : Int))
    | _ =>
      match lpUnsigned s with
      | none => none
      | some v => if v > 2 ^ 63 - 1 then none else some (v : Int)

/-- The decimal digits of a number, with room for `fuel` of them. -/
def decDigits : Nat → Nat → List UInt8
  | 0, _ => []
  | fuel + 1, n =>
    if n < 10 then [UInt8.ofNat (48 + n)] else decDigits fuel (n / 10) ++ [UInt8.ofNat (48 + n % 10)]

def lltoa (v : Int) : List UInt8 :=
  if v < 0 then 45 :: decDigits 20 v.natAbs else decDigits 20 v.natAbs

/-! ### Encodings -/

/-- Two's complement in `w` bits, as `lpEncodeGetType` computes it. -/
def lpWrap (w : Nat) (v : Int) : Nat := (if v < 0 then 2 ^ w + v else v).toNat

/-- The bytes that `lpEncodeGetType` stores in `intenc`. -/
def lpEncodeInt (v : Int) : List UInt8 :=
  if 0 ≤ v ∧ v ≤ 127 then [UInt8.ofNat v.toNat]
  else if -4096 ≤ v ∧ v ≤ 4095 then
    [UInt8.ofNat ((lpWrap 13 v >>> 8) ||| 0xC0), UInt8.ofNat (lpWrap 13 v &&& 0xff)]
  else if -32768 ≤ v ∧ v ≤ 32767 then 0xF1 :: leBytes 2 (lpWrap 16 v)
  else if -8388608 ≤ v ∧ v ≤ 8388607 then 0xF2 :: leBytes 3 (lpWrap 24 v)
  else if -2147483648 ≤ v ∧ v ≤ 2147483647 then 0xF3 :: leBytes 4 (lpWrap 32 v)
  else 0xF4 :: leBytes 8 (lpWrap 64 v)

/-- `intenc` if there is an integer encoding, and `enclen`. The length `5+size` of
a long string is computed in 32 bits. -/
def lpEncodeGetType (ele : List UInt8) : Option (List UInt8) × Nat :=
  match lpStringToInt64 ele with
  | some v => (some (lpEncodeInt v), (lpEncodeInt v).length)
  | none =>
    (none,
      if ele.length < 64 then 1 + ele.length
      else if ele.length < 4096 then 2 + ele.length
      else (5 + ele.length) % 2 ^ 32)

def lpEncodeString (s : List UInt8) : List UInt8 :=
  if s.length < 64 then UInt8.ofNat (s.length ||| 0x80) :: s
  else if s.length < 4096 then
    UInt8.ofNat ((s.length >>> 8) ||| 0xE0) :: UInt8.ofNat (s.length &&& 0xff) :: s
  else 0xF0 :: (leBytes 4 s.length ++ s)

/-- Without a buffer only the number of bytes is used. -/
def lpEncodeBacklen (l : Nat) : List UInt8 :=
  if l ≤ 127 then [UInt8.ofNat l]
  else if l < 16383 then [UInt8.ofNat (l >>> 7), UInt8.ofNat ((l &&& 127) ||| 128)]
  else if l < 2097151 then
    [UInt8.ofNat (l >>> 14), UInt8.ofNat (((l >>> 7) &&& 127) ||| 128), UInt8.ofNat ((l &&& 127) ||| 128)]
  else if l < 268435455 then
    [UInt8.ofNat (l >>> 21), UInt8.ofNat (((l >>> 14) &&& 127) ||| 128),
      UInt8.ofNat (((l >>> 7) &&& 127) ||| 128), UInt8.ofNat ((l &&& 127) ||| 128)]
  else
    [UInt8.ofNat (l >>> 28), UInt8.ofNat (((l >>> 21) &&& 127) ||| 128),
      UInt8.ofNat (((l >>> 14) &&& 127) ||| 128), UInt8.ofNat (((l >>> 7) &&& 127) ||| 128),
      UInt8.ofNat ((l &&& 127) ||| 128)]

def lpDecodeBacklenLoop : List UInt8 → Nat → Nat → Option Nat
  | [], _, _ => none
  | b :: bs, shift, val =>
    let val := val ||| ((b &&& 127).toNat <<< shift)
    if b &&& 128 = 0 then some val
    else if shift + 7 > 28 then some uint64Max
    else lpDecodeBacklenLoop bs (shift + 7) val

/-- On the bytes up to the pointer in reverse. -/
def lpDecodeBacklen (rp : List UInt8) : Option Nat := lpDecodeBacklenLoop rp 0 0

/-- The encodings that the first byte of an entry tells apart. -/
inductive LpEncoding
  | uint7
  | str6
  | int13
  | int16
  | int24
  | int32
  | int64
  | str12
  | str32
  | eof
  | unknown
deriving DecidableEq, Repr

/-- The tests `LP_ENCODING_IS_…` in the order in which they are made. -/
def lpEncoding (b : UInt8) : LpEncoding :=
  if b &&& 0x80 = 0 then .uint7
  else if b &&& 0xC0 = 0x80 then .str6
  else if b &&& 0xE0 = 0xC0 then .int13
  else if b &&& 0xFF = 0xF1 then .int16
  else if b &&& 0xFF = 0xF2 then .int24
  else if b &&& 0xFF = 0xF3 then .int32
  else if b &&& 0xFF = 0xF4 then .int64
  else if b &&& 0xF0 = 0xE0 then .str12
  else if b &&& 0xFF = 0xF0 then .str32
  else if b = lpEof then .eof
  else .unknown

/-- On the bytes from the pointer on. -/
def lpCurrentEncodedSize : List UInt8 → Option Nat
  | [] => none
  | b :: rest =>
    match lpEncoding b, rest with
    | .uint7, _ => some 1
    | .str6, _ => some (1 + (b &&& 0x3F).toNat)
    | .int13, _ => some 2
    | .int16, _ => some 3
    | .int24, _ => some 4
    | .int32, _ => some 5
    | .int64, _ => some 9
    | .str12, b1 :: _ => some (2 + (((b &&& 0xF).toNat <<< 8) ||| b1.toNat))
    | .str12, [] => none
    | .str32, b1 :: b2 :: b3 :: b4 :: _ => some ((5 + leVal [b1, b2, b3, b4]) % 2 ^ 32)
    | .str32, _ => none
    | .eof, _ => some 1
    | .unknown, _ => some 0

/-- The string of `count` bytes at `p + hdr`. -/
def lpStr (p : List UInt8) (hdr count : Nat) : Option (List UInt8) :=
  if hdr + count ≤ p.length then some ((p.drop hdr).take count) else none

/-- The conversion at the end of `lpGet`, printed into `intbuf`. -/
def lpSigned (uval negstart negmax : Nat) : List UInt8 :=
  lltoa (if negstart ≤ uval then -((negmax - uval : Nat) : Int) - 1 else (uval : Int))

/-- The unsigned value in the `n` bytes after the first one. -/
def lpInt (rest : List UInt8) (n negstart negmax : Nat) : Option (List UInt8) :=
  if n ≤ rest.length then some (lpSigned (leVal (rest.take n)) negstart negmax) else none

/-- With an `intbuf`, on the bytes from the pointer on. -/
def lpGet : List UInt8 → Option (List UInt8)
  | [] => none
  | b :: rest =>
    match lpEncoding b, rest with
    | .uint7, _ => some (lpSigned (b &&& 0x7f).toNat uint64Max 0)
    | .str6, _ => lpStr (b :: rest) 1 (b &&& 0x3F).toNat
    | .int13, b1 :: _ => some (lpSigned (((b &&& 0x1f).toNat <<< 8) ||| b1.toNat) (2 ^ 12) 8191)
    | .int13, [] => none
    | .int16, _ => lpInt rest 2 (2 ^ 15) (2 ^ 16 - 1)
    | .int24, _ => lpInt rest 3 (2 ^ 23) (2 ^ 24 - 1)
    | .int32, _ => lpInt rest 4 (2 ^ 31) (2 ^ 32 - 1)
    | .int64, _ => lpInt rest 8 (2 ^ 63) uint64Max
    | .str12, b1 :: _ => lpStr (b :: rest) 2 (((b &&& 0xF).toNat <<< 8) ||| b1.toNat)
    | .str12, [] => none
    | .str32, b1 :: b2 :: b3 :: b4 :: _ => lpStr (b :: rest) 5 (leVal [b1, b2, b3, b4])
    | .str32, _ => none
    | _, _ => some (lpSigned (12345678900000000 + b.toNat) uint64Max 0)

/-! ### Walking -/

def lpSkip (p : Nat) : Option Nat :=
  match lpCurrentEncodedSize (lp.drop p) with
  | none => none
  | some n => some (p + (n + (lpEncodeBacklen n).length))

def lpNext (p : Nat) : Option (Option Nat) :=
  match lpSkip lp p with
  | none => none
  | some q => (lp[q]?).map fun b => if b = lpEof then none else some q

def lpPrev (p : Nat) : Option (Option Nat) :=
  if p = lpHdrSize then some none
  else
    match lpDecodeBacklen (lp.take p).reverse with
    | none => none
    | some l =>
      let prevlen := (l + (lpEncodeBacklen l).length) % 2 ^ 64
      if p < prevlen then none else some (some (p - prevlen))

def lpFirst : Option (Option Nat) :=
  (lp[lpHdrSize]?).map fun b => if b = lpEof then none else some lpHdrSize

def lpLast : Option (Option Nat) :=
  match lpGetTotalBytes lp with
  | none => none
  | some total => if total = 0 then none else lpPrev lp (total - 1)

def lpSeekForward (lp : List UInt8) : Nat → Option Nat → Option (Option Nat)
  | _, none => some none
  | 0, some p => some (some p)
  | n + 1, some p =>
    match lpNext lp p with
    | none => none
    | some q => lpSeekForward lp n q

def lpSeekBackward (lp : List UInt8) : Nat → Option Nat → Option (Option Nat)
  | _, none => some none
  | 0, some p => some (some p)
  | n + 1, some p =>
    match lpPrev lp p with
    | none => none
    | some q => lpSeekBackward lp n q

/-- The scan of `lpSeek`: to `index` from the head, or to `index < 0` from the tail. -/
def lpScan (forward : Bool) (index : Int) : Option (Option Nat) :=
  match if forward then lpFirst lp else lpLast lp with
  | none => none
  | some ele => if forward then lpSeekForward lp index.toNat ele else lpSeekBackward lp (-1 - index).toNat ele

def lpSeek (index : Int) : Option (Option Nat) :=
  match lpGetNumElements lp with
  | none => none
  | some numele =>
    if numele ≠ lpHdrNumeleUnknown then
      let index := if index < 0 then numele + index else index
      if index < 0 then some none
      else if index ≥ numele then some none
      else if index > (numele / 2 : Nat) then lpScan lp false (index - numele)
      else lpScan lp true index
    else lpScan lp (decide (0 ≤ index)) index

/-! ### Updates -/

inductive LpWhere
  | before
  | after
  | replace
deriving DecidableEq, Repr

section
variable (junk : Nat → UInt8) (lp : List UInt8)

/-- The room for `room` bytes in the place of `replaced` bytes at `poff`: the reallocation comes
before the `memmove` if the buffer grows and after it if it shrinks. -/
def lpMakeRoom (old new poff replaced room : Nat) : Option (List UInt8) :=
  let lp := if new > old then realloc junk lp new else lp
  match memmove lp (poff + room) (poff + replaced) (old - poff - replaced) with
  | none => none
  | some lp => some (if new < old then realloc junk lp new else lp)

/-- Store the entry: the element at `dst`, its back length `enclen` bytes further. -/
def lpStore (dst : Nat) (ele : Option (List UInt8)) : Option (List UInt8) :=
  match ele with
  | none => some lp
  | some ele =>
    let (intenc, enclen) := lpEncodeGetType ele
    match memcpy lp dst (intenc.getD (lpEncodeString ele)) with
    | none => none
    | some lp => memcpy lp (dst + enclen) (lpEncodeBacklen enclen)

def lpUpdateHeader (replace : Bool) (ele : Option (List UInt8)) (new : Nat) : Option (List UInt8) :=
  let counted := if replace = false ∨ ele = none then
      match lpGetNumElements lp with
      | none => none
      | some num =>
        if num ≠ lpHdrNumeleUnknown then
          lpSetNumElements lp (if ele.isSome then num + 1 else (num + 2 ^ 32 - 1) % 2 ^ 32)
        else some lp
    else some lp
  match counted with
  | none => none
  | some lp => lpSetTotalBytes lp new

/-- `enclen` in `lpInsert`; a deletion stores nothing. -/
def lpEnclen : Option (List UInt8) → Nat
  | none => 0
  | some ele => (lpEncodeGetType ele).2

/-- `lpInsert` once `LP_AFTER` is resolved: the new listpack and `*newp`, or `NULL`. -/
def lpInsertAt (ele : Option (List UInt8)) (poff : Nat) (replace : Bool) :
    Option (Option (List UInt8 × Option Nat)) :=
  let enclen := lpEnclen ele
  let backlenSize := if ele.isSome then (lpEncodeBacklen enclen).length else 0
  match lpGetTotalBytes lp, if replace then lpCurrentEncodedSize (lp.drop poff) else some 0 with
  | some old, some cur =>
    let replaced := if replace then (cur + (lpEncodeBacklen cur).length) % 2 ^ 32 else 0
    let new := (old + enclen + backlenSize + 2 ^ 64 - replaced) % 2 ^ 64
    if new > uint32Max then some none
    else
      match lpMakeRoom junk lp old new poff replaced (enclen + backlenSize) with
      | none => none
      | some lp =>
        match lp[poff]?, lpStore lp poff ele with
        | some b, some lp =>
          (lpUpdateHeader lp replace ele new).map fun lp =>
            some (lp, if ele = none ∧ b = lpEof then none else some poff)
        | _, _ => none
  | _, _ => none

/-- A missing element stands for `ele == NULL`. -/
def lpInsert (ele : Option (List UInt8)) (p : Nat) (where_ : LpWhere) :
    Option (Option (List UInt8 × Option Nat)) :=
  let where_ := if ele = none then .replace else where_
  if where_ = .after then
    match lpSkip lp p with
    | none => none
    | some p => lpInsertAt junk lp ele p false
  else lpInsertAt junk lp ele p (decide (where_ = .replace))

def lpAppend (ele : List UInt8) : Option (Option (List UInt8 × Option Nat)) :=
  match lpGetTotalBytes lp with
  | none => none
  | some total => if total = 0 then none else lpInsert junk lp (some ele) (total - 1) .before

def lpDelete (p : Nat) : Option (Option (List UInt8 × Option Nat)) :=
  lpInsert junk lp none p .replace

end

end Redis
