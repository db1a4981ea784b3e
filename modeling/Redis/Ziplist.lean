import Redis.ListpackEnc

/-! # Ziplists (`ziplist.c`)

A ziplist is modelled entry by entry. An entry keeps the width of its `prevlen` field and its
element, so that every length the C code computes is the length in bytes of the real blob: ten bytes
of header, the entries, one terminator. The `prevlen` fields hold the raw length of the entry before
them; only their widths are data here, since a field may be wider than its value needs. A pointer
into a ziplist is the number of entries before it, the terminator being the last position.

A blob whose length does not fit the 32-bit `zlbytes` field is a fault (`none`): the C code then
allocates the truncated length and writes behind the allocation. -/

namespace Redis
open List

/-- The digit loop of `string2ll`: the value and the bytes behind the digits, or `none` on an overflow. -/
def string2llDigits : List UInt8 → Nat → Option (Nat × List UInt8)
  | [], v => some (v, [])
  | c :: cs, v =>
    if isDigit c = true then
      if v > uint64Max / 10 then none
      else if v * 10 > uint64Max - (c.toNat - 48) then none
      else string2llDigits cs (v * 10 + (c.toNat - 48))
    else some (v, c :: cs)

def string2ll (s : List UInt8) : Option Int :=
  if s = [48] then some 0
  else
    let negative := decide (s.head? = some 45)
    match if negative then s.tail else s with
    | [] => none
    | d :: ds =>
      if 49 ≤ d.toNat ∧ d.toNat ≤ 57 then
        match string2llDigits ds (d.toNat - 48) with
        | some (v, []) =>
          if negative then if v > 2 ^ 63 then none else some (-(v : Int))
          else if v > 2 ^ 63 - 1 then none
          else some (v : Int)
        | _ => none
      else none

theorem lpDigits_eq (cs : List UInt8) (v : Nat) :
    lpDigits cs v = (string2llDigits cs v).bind fun r => if r.2 = [] then some r.1 else none := by
  induction cs generalizing v with
  | nil => rfl
  | cons c cs ih =>
    rw [lpDigits, string2llDigits]
    split
    · split
      · rfl
      · split
        · rfl
        · exact ih _
    · rfl

/-- The two parsers are the same function. -/
theorem string2ll_eq (s : List UInt8) : string2ll s = lpStringToInt64 s := by
  have hneg : ∀ ds : List UInt8, string2ll (45 :: ds) = lpStringToInt64 (45 :: ds) := by
    intro ds
    rcases ds with - | ⟨d, ds⟩
    · rfl
    simp only [string2ll, lpStringToInt64, lpUnsigned, lpDigits_eq, head?_cons, decide_true, if_true, tail_cons]
    split
    · rfl
    · split
      · rcases string2llDigits ds (d.toNat - 48) with _ | ⟨v, _ | _⟩ <;> rfl
      · rfl
  rcases s with - | ⟨d, ds⟩
  · rfl
  by_cases hd : d = 45
  · exact hd ▸ hneg ds
  have hsign : decide ((d :: ds).head? = some 45) = false := by simpa using hd
  have hpos : lpStringToInt64 (d :: ds) = if d :: ds = [48] then some 0
      else (lpUnsigned (d :: ds)).bind fun v => if v > 2 ^ 63 - 1 then none else some (v : Int) := by
    unfold lpStringToInt64
    split
    · rfl
    · split
      next h => exact absurd (cons.inj h).1 hd
      · cases lpUnsigned (d :: ds) <;> rfl
  rw [hpos, lpUnsigned, lpDigits_eq]
  simp only [string2ll, hsign, Bool.false_eq_true, if_false]
  split
  · rfl
  · split
    · rcases string2llDigits ds (d.toNat - 48) with _ | ⟨v, _ | _⟩ <;> rfl
    · rfl

/-- The element of an entry, as one of the string or one of the integer encodings. -/
inductive ZlValue
  | str (s : List UInt8)
  | int (v : Int)
  deriving DecidableEq

/-- An entry: the element and whether `prevlen` takes five bytes. -/
structure ZlEntry where
  large : Bool
  value : ZlValue
  deriving DecidableEq

/-- Without the choice among the integer widths. -/
def zipTryEncoding (entry : List UInt8) : Option Int :=
  if entry.length ≥ 32 ∨ entry.length = 0 then none else string2ll entry

/-- The element as `ziplistInsert` stores it. -/
def zipEncode (s : List UInt8) : ZlValue :=
  match zipTryEncoding s with
  | some v => .int v
  | none => .str s

/-- `zipIntSize` of the encoding that `zipTryEncoding` chooses. -/
def zipIntSize (v : Int) : Nat :=
  if 0 ≤ v ∧ v ≤ 12 then 0
  else if -128 ≤ v ∧ v ≤ 127 then 1
  else if -32768 ≤ v ∧ v ≤ 32767 then 2
  else if -8388608 ≤ v ∧ v ≤ 8388607 then 3
  else if -2147483648 ≤ v ∧ v ≤ 2147483647 then 4
  else 8

namespace ZlValue

/-- The bytes a client gets for the element; integers go through `ll2string`. -/
def bytes : ZlValue → List UInt8
  | str s => s
  | int v => lltoa v

/-- `zipStoreEntryEncoding` and the payload. -/
def size : ZlValue → Nat
  | str s => (if s.length ≤ 0x3f then 1 else if s.length ≤ 0x3fff then 2 else 5) + s.length
  | int v => 1 + zipIntSize v

end ZlValue

def prevLenLarge (len : Nat) : Bool := decide (254 ≤ len)

def ZlEntry.rawlen (e : ZlEntry) : Nat := (if e.large then 5 else 1) + e.value.size

variable (es : List ZlEntry)

def zlBytes : Nat := 11 + (es.map ZlEntry.rawlen).sum

/-- A ziplist. The length field saturates at 65535 and then stands for "unknown". -/
structure Ziplist where
  entries : List ZlEntry
  zllen : Nat
  zllen_eq : zllen = 65535 ∨ zllen < 65535 ∧ zllen = entries.length
  bytes_lt : zlBytes entries < 2 ^ 32
  deriving DecidableEq

def ziplistNew : Ziplist := ⟨[], 0, .inr ⟨by decide, rfl⟩, by decide⟩

variable (zl : Ziplist)

def ziplistBlobLen : Nat := zlBytes zl.entries

def ziplistLen : Nat := if zl.zllen < 65535 then zl.zllen else zl.entries.length

/-- Lay out entries in a blob, if `zlbytes` can hold its length. -/
def ziplistResize (zllen : Nat) (h : zllen = 65535 ∨ zllen < 65535 ∧ zllen = es.length) : Option Ziplist :=
  if hb : zlBytes es < 2 ^ 32 then some ⟨es, zllen, h, hb⟩ else none

/-- `__ziplistCascadeUpdate` on the entries after `cur`: a `prevlen` field that has become too narrow
makes its own entry longer, so the next field may be too narrow in turn. -/
def ziplistCascadeUpdate : ZlEntry → List ZlEntry → List ZlEntry
  | _, [] => []
  | cur, next :: rest =>
    if !next.large && prevLenLarge cur.rawlen then
      { next with large := true } :: ziplistCascadeUpdate { next with large := true } rest
    else next :: rest

/-- Store `prevlen` in the entry after a change, in as few bytes as it takes. -/
def zlStorePrevlen (prevlen : Nat) : List ZlEntry → List ZlEntry
  | [] => []
  | next :: rest =>
    if next.large = prevLenLarge prevlen then next :: rest
    else
      { next with large := prevLenLarge prevlen } ::
        ziplistCascadeUpdate { next with large := prevLenLarge prevlen } rest

def zlPrevlen (i : Nat) : Nat :=
  match (es.take i).getLast? with
  | none => 0
  | some e => e.rawlen

/-- The entries after an insertion at `i`. An entry of less than four bytes leaves the wide `prevlen`
field behind it alone (`forcelarge`). -/
def zlInsertEntries (i : Nat) (v : ZlValue) : List ZlEntry :=
  let e : ZlEntry := ⟨prevLenLarge (zlPrevlen es i), v⟩
  let rest := es.drop i
  es.take i ++ e ::
    if (rest.head?.map ZlEntry.large).getD false && decide (e.rawlen < 4) then rest
    else zlStorePrevlen e.rawlen rest

/-- The entries after the deletion of `num` entries from `i` on. -/
def zlDeleteEntries (i num : Nat) : List ZlEntry :=
  es.take i ++ zlStorePrevlen (zlPrevlen es i) ((es.drop i).drop num)

/-- The entries of a merge; the seam is repaired from the last entry of the first list on. -/
def zlMergeEntries (fst snd : List ZlEntry) : List ZlEntry :=
  fst ++
    match fst.getLast? with
    | none => snd
    | some cur => ziplistCascadeUpdate cur snd

theorem ziplistCascadeUpdate_length (cur : ZlEntry) (es : List ZlEntry) :
    (ziplistCascadeUpdate cur es).length = es.length := by
  induction es generalizing cur with
  | nil => rfl
  | cons next rest ih =>
    unfold ziplistCascadeUpdate
    split
    · simp [ih]
    · rfl

theorem zlStorePrevlen_length (prevlen : Nat) (es : List ZlEntry) : (zlStorePrevlen prevlen es).length = es.length := by
  rcases es with - | ⟨next, rest⟩
  · rfl
  unfold zlStorePrevlen
  dsimp only
  split
  · rfl
  · simp [ziplistCascadeUpdate_length]

theorem zlInsertEntries_length (i : Nat) (v : ZlValue) : (zlInsertEntries es i v).length = es.length + 1 := by
  unfold zlInsertEntries
  dsimp only
  split <;> simp [zlStorePrevlen_length] <;> omega

theorem zlDeleteEntries_length (i num : Nat) :
    (zlDeleteEntries es i num).length = es.length - min num (es.length - i) := by
  simp [zlDeleteEntries, zlStorePrevlen_length]; omega

theorem zlMergeEntries_length (fst snd : List ZlEntry) : (zlMergeEntries fst snd).length = fst.length + snd.length := by
  unfold zlMergeEntries
  split <;> simp [ziplistCascadeUpdate_length]

/-- `__ziplistInsert` at position `i`, of an element that has its encoding. -/
def ziplistInsertValue (i : Nat) (v : ZlValue) : Option Ziplist :=
  ziplistResize (zlInsertEntries zl.entries i v)
    (if zl.zllen < 65535 then zl.zllen + 1 else zl.zllen)
    (by rw [zlInsertEntries_length]; have := zl.zllen_eq; split <;> omega)

def ziplistInsert (i : Nat) (s : List UInt8) : Option Ziplist := ziplistInsertValue zl i (zipEncode s)

/-- `__ziplistDelete`. -/
def ziplistDeleteAt (i num : Nat) : Option Ziplist :=
  let deleted := min num (zl.entries.length - i)
  if deleted = 0 then some zl
  else
    ziplistResize (zlDeleteEntries zl.entries i num)
      (if zl.zllen < 65535 then zl.zllen - deleted else zl.zllen)
      (by rw [zlDeleteEntries_length]; have := zl.zllen_eq; split <;> omega)

/-- The pointer keeps its offset. -/
def ziplistDelete (p : Nat) : Option Ziplist := ziplistDeleteAt zl p 1

def ziplistIndex (index : Int) : Option Nat :=
  if index < 0 then
    if (-index).toNat ≤ zl.entries.length then some (zl.entries.length - (-index).toNat) else none
  else if index.toNat < zl.entries.length then some index.toNat else none

def ziplistNext (p : Nat) : Option Nat :=
  if p + 1 < zl.entries.length then some (p + 1) else none

def ziplistPrev (p : Nat) : Option Nat := if p = 0 then none else some (p - 1)

def ziplistGet (p : Nat) : Option ZlValue := (zl.entries[p]?).map ZlEntry.value

inductive ListEnd
  | head
  | tail
  deriving DecidableEq

def ziplistPushValue (v : ZlValue) (where_ : ListEnd) : Option Ziplist :=
  ziplistInsertValue zl (if where_ = .head then 0 else zl.entries.length) v

def ziplistPush (s : List UInt8) (where_ : ListEnd) : Option Ziplist := ziplistPushValue zl (zipEncode s) where_

def ziplistDeleteRange (index : Int) (num : Nat) : Option Ziplist :=
  match ziplistIndex zl index with
  | none => some zl
  | some p => ziplistDeleteAt zl p num

/-- The merged list, and whether it took the place of the first one. -/
def ziplistMerge (first second : Ziplist) : Option (Ziplist × Bool) :=
  (ziplistResize (zlMergeEntries first.entries second.entries)
      (if first.zllen + second.zllen < 65535 then first.zllen + second.zllen else 65535)
      (by
        rw [zlMergeEntries_length]
        have := first.zllen_eq
        have := second.zllen_eq
        split <;> omega)).map fun zl => (zl, decide (second.zllen ≤ first.zllen))

/-- The bytes a ziplist function takes of a value: its `size_t` length becomes an `unsigned int`. -/
def ziplistArg (v : List UInt8) : List UInt8 := v.take (v.length % 2 ^ 32)

/-- The loop of `ziplistFind` at position `p`. The integer the string may stand for is computed when the
first integer entry is met; `some none` is the encoding `UCHAR_MAX`. -/
def ziplistFindLoop (vstr : List UInt8) (skip : Nat) : List ZlEntry → Nat → Nat → Option (Option Int) → Option Nat
  | [], _, _, _ => none
  | _ :: es, p, skipcnt + 1, vencoding => ziplistFindLoop vstr skip es (p + 1) skipcnt vencoding
  | e :: es, p, 0, vencoding =>
    match e.value with
    | .str s => if s = vstr then some p else ziplistFindLoop vstr skip es (p + 1) skip vencoding
    | .int v =>
      let vll := vencoding.getD (zipTryEncoding vstr)
      if vll = some v then some p else ziplistFindLoop vstr skip es (p + 1) skip (some vll)

def ziplistFind (p : Nat) (vstr : List UInt8) (skip : Nat) : Option Nat :=
  ziplistFindLoop vstr skip (zl.entries.drop p) p 0 none

end Redis
