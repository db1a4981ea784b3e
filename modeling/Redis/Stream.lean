import Redis.ListpackOps

/-! # Streams

A stream is a radix tree of listpacks (`t_stream.c`). The tree is taken as the ordered map it refines
(`rax_refines_map`, `raxIterator_walks_keys`), a listpack as the sequence of its elements
(`listpack_refines_list`) with the number of bytes these take; a listpack that would outgrow its 32-bit
length is the null pointer in the source and a fault here. -/

namespace Redis

/-! ### IDs -/

structure StreamID where
  ms : UInt64
  seq : UInt64
  deriving DecidableEq

namespace StreamID

def toNat (a : StreamID) : Nat := a.ms.toNat * 2 ^ 64 + a.seq.toNat

instance : LT StreamID := ⟨fun a b => a.toNat < b.toNat⟩
instance : LE StreamID := ⟨fun a b => a.toNat ≤ b.toNat⟩
instance (a b : StreamID) : Decidable (a < b) := inferInstanceAs (Decidable (a.toNat < b.toNat))
instance (a b : StreamID) : Decidable (a ≤ b) := inferInstanceAs (Decidable (a.toNat ≤ b.toNat))

def zero : StreamID := ⟨0, 0⟩

def max : StreamID := ⟨UInt64.ofNat (2 ^ 64 - 1), UInt64.ofNat (2 ^ 64 - 1)⟩

end StreamID

def streamCompareID (a b : StreamID) : Int :=
  if a.ms > b.ms then 1
  else if a.ms < b.ms then -1
  else if a.seq > b.seq then 1
  else if a.seq < b.seq then -1
  else 0

/-- With the reading of the clock. -/
def streamNextID (mstime : UInt64) (last : StreamID) : StreamID :=
  if mstime > last.ms then ⟨mstime, 0⟩ else ⟨last.ms, last.seq + 1⟩

def asInt64 (x : UInt64) : Int := if x.toNat < 2 ^ 63 then x.toNat else (x.toNat : Int) - 2 ^ 64

def addInt64 (x : UInt64) (v : Int) : UInt64 := x + UInt64.ofNat (v % 2 ^ 64).toNat

/-! ### Listpacks as sequences -/

abbrev LpSeq := List (List UInt8)

namespace LpSeq

def bytes (lp : LpSeq) : Nat := 7 + (lp.map lpElementBytes).sum

def append (lp : LpSeq) (ele : List UInt8) : Option LpSeq :=
  if lp.bytes + lpElementBytes ele ≤ uint32Max then some (lp ++ [ele]) else none

def appendInteger (lp : LpSeq) (v : Int) : Option LpSeq := lp.append (lltoa v)

def appendAll (lp : LpSeq) : List (List UInt8) → Option LpSeq
  | [] => some lp
  | ele :: eles => do
    let lp ← lp.append ele
    appendAll lp eles

def get (lp : LpSeq) (p : Option Nat) : Option (List UInt8) := p.bind fun i => lp[i]?

def getInteger (lp : LpSeq) (p : Option Nat) : Option Int := (lp.get p).bind lpStringToInt64

/-- `lpReplaceInteger`; the cursor stays where it is. -/
def replaceInteger (lp : LpSeq) (p : Option Nat) (v : Int) : Option LpSeq := do
  let i ← p
  let old ← lp[i]?
  if lp.bytes - lpElementBytes old + lpElementBytes (lltoa v) ≤ uint32Max then some (lp.set i (lltoa v)) else none

def next (lp : LpSeq) (p : Option Nat) : Option (Option Nat) := do
  let i ← p
  if i + 1 < lp.length then some (some (i + 1)) else some none

def prev (p : Option Nat) : Option (Option Nat) := do
  let i ← p
  if i = 0 then some none else some (some (i - 1))

def nextTimes (lp : LpSeq) : Nat → Option Nat → Option (Option Nat)
  | 0, p => some p
  | n + 1, p => (lp.next p).bind (lp.nextTimes n)

def prevTimes : Nat → Option Nat → Option (Option Nat)
  | 0, p => some p
  | n + 1, p => (prev p).bind (prevTimes n)

def first (lp : LpSeq) : Option Nat := if lp.length = 0 then none else some 0

def last (lp : LpSeq) : Option Nat := if lp.length = 0 then none else some (lp.length - 1)

end LpSeq

/-! ### The stream -/

abbrev StreamRax := List (StreamID × LpSeq)

def raxPut : StreamRax → StreamID → LpSeq → StreamRax
  | [], key, lp => [(key, lp)]
  | (k, l) :: rax, key, lp =>
    if key < k then (key, lp) :: (k, l) :: rax
    else if k = key then (key, lp) :: rax
    else (k, l) :: raxPut rax key lp

def raxDel (rax : StreamRax) (key : StreamID) : StreamRax := rax.filter fun n => decide (n.1 ≠ key)

/-- The part of `struct stream` that holds entries. -/
structure Stream where
  rax : StreamRax
  length : UInt64
  lastId : StreamID

def streamNew : Stream := ⟨[], 0, .zero⟩

/-- `stream_node_max_bytes` and `stream_node_max_entries`. -/
structure StreamLimits where
  maxBytes : Nat
  maxEntries : Int

def itemFlagDeleted : Nat := 1

def itemFlagSamefields : Nat := 2

def hasFlag (flags : Int) (f : Nat) : Bool := decide (flags.toNat / f % 2 = 1)

/-! ### Appending -/

/-- The tail listpack of the tree, unless it is full. -/
def streamTail (limits : StreamLimits) (s : Stream) : Option (Option (StreamID × LpSeq)) :=
  match s.rax.getLast? with
  | none => some none
  | some (key, lp) =>
    if limits.maxBytes ≠ 0 ∧ lp.bytes > limits.maxBytes then some none
    else if limits.maxEntries ≠ 0 then do
      let count ← lp.getInteger lp.first
      if count > limits.maxEntries then some none else some (some (key, lp))
    else some (some (key, lp))

def streamMasterEntry (argv : List (List UInt8 × List UInt8)) : Option LpSeq := do
  let lp ← LpSeq.appendInteger [] 1
  let lp ← lp.appendInteger 0
  let lp ← lp.appendInteger argv.length
  let lp ← lp.appendAll (argv.map Prod.fst)
  lp.appendInteger 0

/-- The fields of the new entry are those of the master entry, from the cursor on. -/
def streamSameFields (lp : LpSeq) : List (List UInt8) → Option Nat → Option Bool
  | [], _ => some true
  | field :: fields, p => do
    let e ← lp.get p
    if e = field then do
      let p ← lp.next p
      streamSameFields lp fields p
    else some false

/-- One more entry in the listpack: the new listpack and the flags of the entry. -/
def streamReuseNode (lp : LpSeq) (argv : List (List UInt8 × List UInt8)) : Option (LpSeq × Nat) := do
  let p := lp.first
  let count ← lp.getInteger p
  let lp ← lp.replaceInteger p (count + 1)
  let p ← lp.next p
  let p ← lp.next p
  let masterFieldsCount ← lp.getInteger p
  let p ← lp.next p
  let same ← (if (argv.length : Int) = masterFieldsCount then streamSameFields lp (argv.map Prod.fst) p else some false)
  some (lp, if same then itemFlagSamefields else 0)

/-- The elements of an entry: flags, ID relative to the master, fields and values, number of elements. -/
def streamEntry (flags : Nat) (id master : StreamID) (argv : List (List UInt8 × List UInt8)) : List (List UInt8) :=
  let same := hasFlag flags itemFlagSamefields
  [lltoa flags, lltoa (asInt64 (id.ms - master.ms)), lltoa (asInt64 (id.seq - master.seq))] ++
    (if same then argv.map Prod.snd else lltoa argv.length :: argv.flatMap fun fv => [fv.1, fv.2]) ++
    [lltoa (argv.length + 3 + (if same then 0 else argv.length + 1) : Nat)]

/-- The inner `none` is `C_ERR`. -/
def streamAppendItem (limits : StreamLimits) (s : Stream) (argv : List (List UInt8 × List UInt8))
    (useId : Option StreamID) (mstime : UInt64) : Option (Option (Stream × StreamID)) :=
  if useId.any fun id => decide (streamCompareID id s.lastId ≤ 0) then some none
  else do
    let lpBytes := (s.rax.getLast?.map fun n => n.2.bytes).getD 0
    let id := useId.getD (streamNextID mstime s.lastId)
    let tail ← streamTail limits s
    -- the node that takes the entry: its key, its listpack and the flags of the entry
    let (master, lp, flags) ←
      (if tail.isNone || decide (lpBytes > limits.maxBytes) then
        (streamMasterEntry argv).map fun lp => (id, lp, itemFlagSamefields)
      else do
        let (key, lp) ← tail
        let (lp, flags) ← streamReuseNode lp argv
        some (key, lp, flags))
    let lp ← lp.appendAll (streamEntry flags id master argv)
    some (some (⟨raxPut s.rax master lp, s.length + 1, id⟩, id))

/-! ### Trimming -/

/-- The cursor behind the master entry, and the number of its fields, from the element `deleted` on. -/
def streamSkipMaster (lp : LpSeq) (p : Option Nat) : Option (Option Nat × Int) := do
  let p ← lp.next p
  let masterFieldsCount ← lp.getInteger p
  let p ← lp.next p
  let p ← lp.nextTimes masterFieldsCount.toNat p
  let p ← lp.next p
  some (p, masterFieldsCount)

/-- The loop of `streamTrimByLength` over the entries of one listpack. -/
def streamTrimEntries (masterFieldsCount : Int) (maxlen : UInt64) :
    Nat → LpSeq → Option Nat → UInt64 → Option (LpSeq × UInt64)
  | _, lp, none, length => some (lp, length)
  | 0, _, some _, _ => none
  | fuel + 1, lp, some p, length => do
    let flags ← lp.getInteger (some p)
    let live := !hasFlag flags itemFlagDeleted
    let lp ← (if live then lp.replaceInteger (some p) (flags + itemFlagDeleted) else some lp)
    let length := if live then length - 1 else length
    if live && decide (length ≤ maxlen) then some (lp, length)
    else do
      let q ← lp.nextTimes 3 (some p)
      let toSkip ← (if hasFlag flags itemFlagSamefields then some masterFieldsCount
        else (lp.getInteger q).map fun n => 1 + n * 2)
      let q ← lp.nextTimes toSkip.toNat q
      let q ← lp.next q
      streamTrimEntries masterFieldsCount maxlen fuel lp q length

/-- The loop of `streamTrimByLength` over the nodes: what is left of the tree and of the length. -/
def streamTrimNodes (maxlen : UInt64) (approx : Bool) : StreamRax → UInt64 → Option (StreamRax × UInt64)
  | [], length => some ([], length)
  | (key, lp) :: rax, length =>
    if length ≤ maxlen then some ((key, lp) :: rax, length)
    else do
      let entries ← lp.getInteger lp.first
      if addInt64 length (-entries) ≥ maxlen then streamTrimNodes maxlen approx rax (addInt64 length (-entries))
      else if approx then some ((key, lp) :: rax, length)
      else do
        let toDelete := asInt64 (length - maxlen)
        if toDelete < entries then do
          let p := lp.first
          let lp ← lp.replaceInteger p (entries - toDelete)
          let p ← lp.next p
          let markedDeleted ← lp.getInteger p
          let lp ← lp.replaceInteger p (markedDeleted + toDelete)
          let (p, masterFieldsCount) ← streamSkipMaster lp p
          let (lp, length) ← streamTrimEntries masterFieldsCount maxlen lp.length lp p length
          some ((key, lp) :: rax, length)
        else none

def streamTrimByLength (s : Stream) (maxlen : UInt64) (approx : Bool) : Option Stream := do
  let (rax, length) ← streamTrimNodes maxlen approx s.rax s.length
  some { s with rax := rax, length := length }

/-! ### Iterating -/

/-- `streamIterator`; `ri` holds the nodes that the iterator of the radix tree has yet to return. -/
structure StreamIterator where
  ri : StreamRax
  key : StreamID
  masterFieldsCount : Int
  masterFieldsStart : Option Nat
  masterFieldsPtr : Option Nat
  entryFlags : Int
  rev : Bool
  startKey : StreamID
  endKey : StreamID
  lp : Option LpSeq
  lpEle : Option Nat
  lpFlags : Option Nat

def streamIteratorStart (s : Stream) (start end_ : Option StreamID) (rev : Bool) : StreamIterator :=
  let startKey := start.getD .zero
  let endKey := end_.getD .max
  let upTo := fun key : StreamID => s.rax.filter fun n => decide (n.1 ≤ key)
  let ri :=
    if !rev then
      match start.filter (· ≠ .zero) with
      | some key =>
        match (upTo key).getLast? with
        | some n => n :: s.rax.filter fun n => decide (key < n.1)
        | none => s.rax
      | none => s.rax
    else
      match end_.filter (· ≠ .zero) with
      | some key => if upTo key = [] then s.rax.reverse else (upTo key).reverse
      | none => s.rax.reverse
  ⟨ri, .zero, 0, none, none, 0, rev, startKey, endKey, none, none, none⟩

inductive StreamScan
  | stop
  | item (id : StreamID) (numfields : Int)
  | ended

/-- The inner loop of `streamIteratorGetID`. -/
def streamScanNode (lp : LpSeq) : Nat → StreamIterator → Option (StreamIterator × StreamScan)
  | 0, _ => none
  | fuel + 1, si => do
    -- the flags of the next entry, if there is one
    let (si, more) ←
      (if !si.rev then do
        let p ← lp.next si.lpEle
        some ({ si with lpEle := p }, p.isSome)
      else do
        let lpCount ← lp.getInteger si.lpEle
        if lpCount = 0 then some ({ si with lp := none, lpEle := none }, false)
        else do
          let p ← LpSeq.prevTimes lpCount.toNat si.lpEle
          some ({ si with lpEle := p }, true))
    if !more then some (si, .ended)
    else do
      let flags ← lp.getInteger si.lpEle
      let si := { si with lpFlags := si.lpEle }
      let p ← lp.next si.lpEle
      let dms ← lp.getInteger p
      let p ← lp.next p
      let dseq ← lp.getInteger p
      let p ← lp.next p
      let id : StreamID := ⟨addInt64 si.key.ms dms, addInt64 si.key.seq dseq⟩
      let same := hasFlag flags itemFlagSamefields
      let (numfields, p) ← (if same then some (si.masterFieldsCount, p) else do
        let n ← lp.getInteger p
        let p ← lp.next p
        some (n, p))
      let si := { si with lpEle := p }
      let inside := if !si.rev then decide (si.startKey ≤ id) else decide (id ≤ si.endKey)
      let beyond := if !si.rev then decide (si.endKey < id) else decide (id < si.startKey)
      if inside && !hasFlag flags itemFlagDeleted then
        if beyond then some (si, .stop)
        else
          some ({ si with
            entryFlags := flags
            masterFieldsPtr := if same then si.masterFieldsStart else si.masterFieldsPtr }, .item id numfields)
      else do
        let p ← (if !si.rev then lp.nextTimes (if same then numfields else numfields * 2).toNat p
          else LpSeq.prevTimes (if same then 4 else 5) p)
        streamScanNode lp fuel { si with lpEle := p }

def streamEnterNode (si : StreamIterator) (key : StreamID) (lp : LpSeq) (ri : StreamRax) : Option StreamIterator := do
  let p ← lp.next lp.first
  let p ← lp.next p
  let masterFieldsCount ← lp.getInteger p
  let p ← lp.next p
  let q ← (if !si.rev then lp.nextTimes masterFieldsCount.toNat p else some lp.last)
  some { si with
    ri := ri, key := key, lp := some lp, lpEle := q, masterFieldsCount := masterFieldsCount, masterFieldsStart := p }

/-- The iterator before the scan of a listpack; none at the end of the tree. -/
def streamAdvance (si : StreamIterator) : Option (Option StreamIterator) :=
  if si.lp.isNone || si.lpEle.isNone then
    match si.ri with
    | [] => some none
    | (key, lp) :: ri => (streamEnterNode si key lp ri).map some
  else if si.rev then do
    -- the current entry was emitted: go back over it
    let lp ← si.lp
    let lpCount ← lp.getInteger si.lpEle
    let p ← LpSeq.prevTimes (lpCount.toNat + 1) si.lpEle
    some (some { si with lpEle := p })
  else some (some si)

/-- With a bound on the nodes it may enter; no ID at the end of the walk. -/
def streamIteratorGetID : Nat → StreamIterator → Option (StreamIterator × Option (StreamID × Int))
  | 0, _ => none
  | fuel + 1, si => do
    let next ← streamAdvance si
    match next with
    | none => some (si, none)
    | some si => do
      let lp ← si.lp
      let (si, r) ← streamScanNode lp (lp.length + 1) si
      match r with
      | .stop => some (si, none)
      | .item id numfields => some (si, some (id, numfields))
      | .ended => streamIteratorGetID fuel si

def streamIteratorGetField (si : StreamIterator) : Option (StreamIterator × List UInt8 × List UInt8) := do
  let lp ← si.lp
  let (si, field) ←
    (if hasFlag si.entryFlags itemFlagSamefields then do
      let field ← lp.get si.masterFieldsPtr
      let p ← lp.next si.masterFieldsPtr
      some ({ si with masterFieldsPtr := p }, field)
    else do
      let field ← lp.get si.lpEle
      let p ← lp.next si.lpEle
      some ({ si with lpEle := p }, field))
  let value ← lp.get si.lpEle
  let p ← lp.next si.lpEle
  some ({ si with lpEle := p }, field, value)

/-! ### Deleting -/

/-- Up to the new start of the iterator. -/
def streamIteratorRemoveEntry (s : Stream) (si : StreamIterator) : Option Stream := do
  let lp ← si.lp
  let flags ← lp.getInteger si.lpFlags
  let lp ← lp.replaceInteger si.lpFlags (if hasFlag flags itemFlagDeleted then flags else flags + itemFlagDeleted)
  let p := lp.first
  let aux ← lp.getInteger p
  let rax ←
    (if aux = 1 then some (raxDel s.rax si.key)
    else do
      let lp ← lp.replaceInteger p (aux - 1)
      let p ← lp.next p
      let aux ← lp.getInteger p
      let lp ← lp.replaceInteger p (aux + 1)
      some (raxPut s.rax si.key lp))
  some { s with rax := rax, length := s.length - 1 }

def streamDeleteItem (s : Stream) (id : StreamID) : Option (Stream × Bool) := do
  let si := streamIteratorStart s (some id) (some id) false
  let (si, r) ← streamIteratorGetID (s.rax.length + 1) si
  if r.isSome then do
    let s ← streamIteratorRemoveEntry s si
    some (s, true)
  else some (s, false)

end Redis
