import Redis.Lib.DList
import Redis.Lib.Machine
import Redis.Ziplist

/-! # Quicklists (`quicklist.c`)

A quicklist is a doubly linked list of nodes, each holding a ziplist that may be stored compressed.
Nodes live in memory under addresses; following a null or dangling pointer is a fault (`none`).

`zl` is the ziplist of a node whatever its encoding: `lzf_decompress` gives back what `lzf_compress`
was given. What the model keeps of the compression is when it happens. `lzf` stands for
`lzf_compress`: the length of the compressed form of a ziplist, 0 if it gives up. The theorems hold
for every such function. -/

namespace Redis

inductive QlEncoding
  | raw
  | lzf
  deriving DecidableEq

/-- `quicklistNode`, apart from its links. -/
structure QuicklistNode where
  zl : Ziplist
  sz : Nat
  count : Nat
  encoding : QlEncoding
  recompress : Bool
  deriving DecidableEq

/-- `quicklist`, with the memory its nodes live in and the next free address. -/
structure Quicklist where
  mem : DMem QuicklistNode
  fresh : Nat
  head : Option Nat
  tail : Option Nat
  count : Nat
  len : Nat
  fill : Int
  compress : Nat

structure QuicklistEntry where
  node : Option Nat
  zi : Option Nat
  offset : Int
  value : Option ZlValue

/-- `quicklistIter`; `AL_START_HEAD` is a walk from the head. -/
structure QuicklistIter where
  current : Option Nat
  zi : Option Nat
  offset : Int
  direction : ListEnd

/-! ### Machine arithmetic -/

def ulongSub (a b : Nat) : Nat := if b ≤ a then a - b else a + 2 ^ 64 - b

/-- The 16-bit field `count` of a node after adding `d`. -/
def nodeCountAdd (count : Nat) (d : Int) : Nat := ((count + d) % 65536).toNat

def toUInt32 (x : Int) : Nat := (x % 2 ^ 32).toNat

/-! ### Creation -/

variable (lzf : Ziplist → Nat) (q : Quicklist)

/-- The field is a signed one of 16 bits. -/
def quicklistSetFill (fill : Int) : Quicklist :=
  let fill := if fill > 2 ^ 15 then 2 ^ 15 else if fill < -5 then -5 else fill
  { q with fill := (fill + 2 ^ 15) % 2 ^ 16 - 2 ^ 15 }

/-- The field has 16 bits. -/
def quicklistSetCompressDepth (compress : Int) : Quicklist :=
  let compress := if compress > 2 ^ 16 then 2 ^ 16 else if compress < 0 then 0 else compress
  { q with compress := (compress % 2 ^ 16).toNat }

def quicklistCreate : Quicklist := ⟨fun _ => none, 0, none, none, 0, 0, -2, 0⟩

def quicklistNew (fill compress : Int) : Quicklist :=
  quicklistSetCompressDepth (quicklistSetFill quicklistCreate fill) compress

/-- Given its ziplist. -/
def quicklistCreateNode (zl : Ziplist) : QuicklistNode := ⟨zl, 0, 0, .raw, false⟩

namespace Quicklist

def deref : Option Nat → Option (DCell QuicklistNode)
  | none => none
  | some i => q.mem i

def peek : Option Nat → Option (Option QuicklistNode)
  | none => some none
  | some i => (q.mem i).map fun c => some c.data

def modify (i : Option Nat) (f : QuicklistNode → QuicklistNode) : Option Quicklist :=
  (q.mem.modify i fun c => { c with data := f c.data }).map fun m => { q with mem := m }

end Quicklist

/-! ### Compression -/

variable (n : QuicklistNode)

namespace QuicklistNode

/-- `quicklistNodeUpdateSz` with a new ziplist. -/
def setZl (zl : Ziplist) : QuicklistNode := { n with zl := zl, sz := ziplistBlobLen zl }

def incr : QuicklistNode := { n with count := nodeCountAdd n.count 1 }

def compressNode : QuicklistNode :=
  if n.encoding = .raw then
    if n.sz < 48 then n
    else if lzf n.zl = 0 ∨ lzf n.zl + 8 ≥ n.sz then n
    else { n with encoding := .lzf, recompress := false }
  else n

def decompressNode : QuicklistNode :=
  if n.encoding = .lzf then { n with encoding := .raw } else n

def decompressNodeForUse : QuicklistNode :=
  if n.encoding = .lzf then { n with encoding := .raw, recompress := true } else n

end QuicklistNode

/-- On a pointer that may be null. -/
def quicklistCompressNode : Option Nat → Option Quicklist
  | none => some q
  | some i => q.modify (some i) (QuicklistNode.compressNode lzf)

/-- On a pointer that may be null. -/
def quicklistDecompressNode : Option Nat → Option Quicklist
  | none => some q
  | some i => q.modify (some i) QuicklistNode.decompressNode

/-- The loop of `__quicklistCompress`: `forward`, `reverse` and `in_depth` when it reaches the depth,
nothing when the two pointers meet before. -/
def quicklistCompressLoop (node : Option Nat) : Nat → Quicklist → Option Nat → Option Nat → Bool →
      Option (Quicklist × Option (Option Nat × Option Nat × Bool))
  | 0, q, forward, reverse, inDepth => some (q, some (forward, reverse, inDepth))
  | depth + 1, q, forward, reverse, inDepth => do
    let q ← quicklistDecompressNode q forward
    let q ← quicklistDecompressNode q reverse
    if forward = reverse then some (q, none)
    else
      let cf ← q.deref forward
      let cr ← q.deref reverse
      quicklistCompressLoop node depth q cf.next cr.prev
        (inDepth || decide (forward = node) || decide (reverse = node))

def quicklistCompressDepth (node : Option Nat) : Option Quicklist :=
  if q.compress = 0 ∨ q.len < q.compress * 2 then some q
  else do
    let (q, reached) ← quicklistCompressLoop node q.compress q q.head q.tail false
    match reached with
    | none => some q
    | some (forward, reverse, inDepth) =>
      let q ← (if inDepth then some q else quicklistCompressNode lzf q node)
      -- `depth > 2` after the loop
      if 2 ≤ q.compress then
        let q ← quicklistCompressNode lzf q forward
        quicklistCompressNode lzf q reverse
      else some q

def quicklistCompress (node : Option Nat) : Option Quicklist := do
  let c ← q.deref node
  if c.data.recompress then quicklistCompressNode lzf q node else quicklistCompressDepth lzf q node

def quicklistRecompressOnly (node : Option Nat) : Option Quicklist := do
  let c ← q.deref node
  if c.data.recompress then quicklistCompressNode lzf q node else some q

/-! ### Links -/

/-- `__quicklistInsertNode`; the new node is allocated here. -/
def quicklistInsertNode (old : Option Nat) (new : QuicklistNode) (after : Bool) : Option Quicklist := do
  let j := q.fresh
  let m := q.mem.set j (some ⟨none, none, new⟩)
  let m ← (if after then m.linkAfter old j else m.linkBefore old j)
  let q := { q with
    mem := m
    fresh := j + 1
    tail := if after && decide (q.tail = old) then some j else q.tail
    head := if !after && decide (q.head = old) then some j else q.head }
  let q := if q.len = 0 then { q with head := some j, tail := some j } else q
  let q ← (if old = none then some q else quicklistCompress lzf q old)
  some { q with len := q.len + 1 }

def quicklistDelNode (i : Nat) : Option Quicklist := do
  let c ← q.mem i
  let m ← q.mem.unlink c
  let q := { q with
    mem := m
    tail := if q.tail = some i then c.prev else q.tail
    head := if q.head = some i then c.next else q.head }
  -- a node that was compressed may now lie within the depth
  let q ← quicklistCompressDepth lzf q none
  some { q with mem := q.mem.set i none, count := ulongSub q.count c.data.count, len := q.len - 1 }

/-! ### Sizes -/

def quicklistNodeSizeMeetsOptimizationRequirement (sz : Nat) (fill : Int) : Bool :=
  if 0 ≤ fill then false
  else
    match [4096, 8192, 16384, 32768, 65536][(-fill - 1).toNat]? with
    | some limit => decide (sz ≤ limit)
    | none => false

def sizeMeetsSafetyLimit (sz : Nat) : Bool := decide (sz ≤ 8192)

/-- The test shared by `_quicklistNodeAllowInsert` and `_quicklistNodeAllowMerge`. -/
def quicklistAllow (fill : Int) (sz : Nat) (room : Bool) : Bool :=
  if quicklistNodeSizeMeetsOptimizationRequirement sz fill then true
  else if !sizeMeetsSafetyLimit sz then false
  else room

/-- `ziplist_overhead` for an entry of `sz` bytes. -/
def ziplistOverhead (sz : Nat) : Nat :=
  (if sz < 254 then 1 else 5) + (if sz < 64 then 1 else if sz < 16384 then 2 else 5)

/-- `_quicklistNodeAllowInsert`; `new_sz` is an `unsigned int`. -/
def quicklistNodeAllowInsert (node : Option QuicklistNode) (fill : Int) (sz : Nat) : Bool :=
  match node with
  | none => false
  | some n =>
    quicklistAllow fill ((n.sz + sz + ziplistOverhead sz) % 2 ^ 32) (decide ((n.count : Int) < fill))

/-- `_quicklistNodeAllowMerge`; `merge_sz` is an `unsigned int`. -/
def quicklistNodeAllowMerge (a b : Option QuicklistNode) (fill : Int) : Bool :=
  match a, b with
  | some a, some b =>
    quicklistAllow fill (toUInt32 ((a.sz : Int) + b.sz - 11)) (decide ((a.count : Int) + b.count ≤ fill))
  | _, _ => false

/-! ### Pushing and deleting -/

/-- Push of `sz` bytes at one end: the node there takes the value if it has room. The reply says whether a
node was created. -/
def quicklistPushValue (sz : Nat) (v : ZlValue) (where_ : ListEnd) : Option (Quicklist × Bool) := do
  let endOf := fun q : Quicklist => if where_ = .head then q.head else q.tail
  let orig := endOf q
  let n ← q.peek orig
  let q ←
    (if quicklistNodeAllowInsert n q.fill sz then do
      let c ← q.deref orig
      let zl ← ziplistPushValue c.data.zl v where_
      q.modify orig fun n => n.setZl zl
    else do
      let zl ← ziplistPushValue ziplistNew v where_
      quicklistInsertNode lzf q orig ((quicklistCreateNode zl).setZl zl) (decide (where_ = .tail)))
  let q := { q with count := q.count + 1 }
  let q ← q.modify (endOf q) QuicklistNode.incr
  some (q, decide (orig ≠ endOf q))

def quicklistPush (v : List UInt8) (where_ : ListEnd) : Option (Quicklist × Bool) :=
  quicklistPushValue lzf q v.length (zipEncode (ziplistArg v)) where_

/-- The reply says whether the node is gone. -/
def quicklistDelIndex (node : Nat) (p : Nat) : Option (Quicklist × Bool) := do
  let c ← q.mem node
  let zl ← ziplistDelete c.data.zl p
  let count := nodeCountAdd c.data.count (-1)
  if count = 0 then do
    let q ← q.modify (some node) fun n => { n with zl := zl, count := count }
    let q ← quicklistDelNode lzf q node
    some ({ q with count := ulongSub q.count 1 }, true)
  else do
    let q ← q.modify (some node) fun n => { n.setZl zl with count := count }
    some ({ q with count := ulongSub q.count 1 }, false)

def quicklistPop (where_ : ListEnd) : Option (Quicklist × Option ZlValue) :=
  if q.count = 0 then some (q, none)
  else
    match if where_ = .head then q.head else q.tail with
    | none => some (q, none)
    | some i => do
      let c ← q.mem i
      match ziplistIndex c.data.zl (if where_ = .head then 0 else -1) with
      | none => some (q, none)
      | some p =>
        let v ← ziplistGet c.data.zl p
        let (q, _) ← quicklistDelIndex lzf q i p
        some (q, some v)

/-! ### Positions -/

/-- The loop of `quicklistIndex`: the node that holds the element and the elements passed over. -/
def quicklistSeek (q : Quicklist) (forward : Bool) (index : Nat) : Nat → Option Nat → Nat → Option (Option Nat × Nat)
  | 0, _, _ => none
  | _ + 1, none, accum => some (none, accum)
  | fuel + 1, some i, accum => do
    let c ← q.mem i
    if accum + c.data.count > index then some (some i, accum)
    else quicklistSeek q forward index fuel (if forward then c.next else c.prev) (accum + c.data.count)

def initEntry : QuicklistEntry := ⟨none, none, 123456789, none⟩

def quicklistIndex (idx : Int) : Option (Quicklist × QuicklistEntry × Bool) := do
  let forward := decide (0 ≤ idx)
  let index := if forward then idx.toNat else (-idx - 1).toNat
  if index ≥ q.count then some (q, initEntry, false)
  else
    let (n, accum) ← quicklistSeek q forward index (q.len + 1) (if forward then q.head else q.tail) 0
    match n with
    | none => some (q, initEntry, false)
    | some i =>
      let offset : Int := if forward then (index : Int) - accum else -(index : Int) - 1 + accum
      let q ← q.modify (some i) QuicklistNode.decompressNodeForUse
      let c ← q.mem i
      let zi := ziplistIndex c.data.zl offset
      some (q, ⟨some i, zi, offset, zi.bind (ziplistGet c.data.zl)⟩, true)

def quicklistReplaceAtIndex (idx : Int) (v : List UInt8) : Option (Quicklist × Bool) := do
  let (q, e, found) ← quicklistIndex q idx
  if found then do
    let zi ← e.zi
    let c ← q.deref e.node
    let zl ← ziplistDelete c.data.zl zi
    let zl ← ziplistInsert zl zi (ziplistArg v)
    let q ← q.modify e.node fun n => n.setZl zl
    let q ← quicklistCompress lzf q e.node
    some (q, true)
  else some (q, false)

/-! ### Insertion in the middle -/

/-- `_quicklistZiplistMerge`, with the address of the node that is kept. -/
def quicklistZiplistMerge (a b : Nat) : Option (Quicklist × Nat) := do
  let q ← quicklistDecompressNode q (some a)
  let q ← quicklistDecompressNode q (some b)
  let ca ← q.mem a
  let cb ← q.mem b
  let (zl, first) ← ziplistMerge ca.data.zl cb.data.zl
  let keep := if first then a else b
  let nokeep := if first then b else a
  let q ← q.modify (some keep) fun n => { n.setZl zl with count := nodeCountAdd 0 (ziplistLen zl) }
  let q ← q.modify (some nokeep) fun n => { n with count := 0 }
  let q ← quicklistDelNode lzf q nokeep
  let q ← quicklistCompress lzf q (some keep)
  some (q, keep)

/-- Merge two adjacent nodes if `_quicklistNodeAllowMerge` permits, with the node kept. -/
def quicklistTryMerge (a b : Option Nat) : Option (Quicklist × Option Nat) := do
  let na ← q.peek a
  let nb ← q.peek b
  if quicklistNodeAllowMerge na nb q.fill then do
    let i ← a
    let j ← b
    let (q, keep) ← quicklistZiplistMerge lzf q i j
    some (q, some keep)
  else some (q, none)

def Quicklist.prevOf : Option Nat → Option (Option Nat)
  | none => some none
  | some i => (q.mem i).map DCell.prev

def Quicklist.nextOf : Option Nat → Option (Option Nat)
  | none => some none
  | some i => (q.mem i).map DCell.next

def quicklistMergeNodes (center : Nat) : Option Quicklist := do
  let prev ← q.prevOf (some center)
  let prevPrev ← q.prevOf prev
  let next ← q.nextOf (some center)
  let nextNext ← q.nextOf next
  let (q, _) ← quicklistTryMerge lzf q prevPrev prev
  let (q, _) ← quicklistTryMerge lzf q next nextNext
  let prev ← q.prevOf (some center)
  let (q, keep) ← quicklistTryMerge lzf q prev (some center)
  let target := keep.getD center
  let next ← q.nextOf (some target)
  let (q, _) ← quicklistTryMerge lzf q (some target) next
  some q

/-- `_quicklistSplitNode`: the rest of the node and the new one. -/
def quicklistSplitNode (n : QuicklistNode) (offset : Int) (after : Bool) : Option (QuicklistNode × QuicklistNode) := do
  let origStart := if after then offset + 1 else 0
  let origExtent := if after then -1 else offset
  let newStart := if after then 0 else offset
  let newExtent := if after then offset + 1 else -1
  let zl ← ziplistDeleteRange n.zl origStart (toUInt32 origExtent)
  let zl' ← ziplistDeleteRange n.zl newStart (toUInt32 newExtent)
  some ({ n.setZl zl with count := nodeCountAdd 0 (ziplistLen zl) },
    { (quicklistCreateNode zl').setZl zl' with count := nodeCountAdd 0 (ziplistLen zl') })

/-- Put one more value into the ziplist of a node that is decompressed for it and recompressed. -/
def quicklistInsertInto (i : Nat) (insert : Ziplist → Option Ziplist) : Option Quicklist := do
  let q ← q.modify (some i) QuicklistNode.decompressNodeForUse
  let c ← q.mem i
  let zl ← insert c.data.zl
  let q ← q.modify (some i) fun n => (n.setZl zl).incr
  quicklistRecompressOnly lzf q (some i)

def quicklistInsertFirst (v : List UInt8) (after : Bool) : Option Quicklist := do
  let zl ← ziplistPush ziplistNew (ziplistArg v) .head
  let j := q.fresh
  let q ← quicklistInsertNode lzf q none (quicklistCreateNode zl) after
  let q ← q.modify (some j) QuicklistNode.incr
  some { q with count := q.count + 1 }

/-- `_quicklistInsert` on a full node: the last of its cases. -/
def quicklistInsertSplit (i : Nat) (offset : Int) (v : List UInt8) (after : Bool) : Option Quicklist := do
  let q ← q.modify (some i) QuicklistNode.decompressNodeForUse
  let c ← q.mem i
  let (rest, new) ← quicklistSplitNode c.data offset after
  let zl ← ziplistPush new.zl (ziplistArg v) (if after then .head else .tail)
  let q ← q.modify (some i) fun _ => rest
  let q ← quicklistInsertNode lzf q (some i) (new.setZl zl).incr after
  quicklistMergeNodes lzf q i

def quicklistInsert (e : QuicklistEntry) (v : List UInt8) (after : Bool) : Option Quicklist :=
  match e.node with
  | none => quicklistInsertFirst lzf q v after
  | some i => do
    let c ← q.mem i
    let full := !quicklistNodeAllowInsert (some c.data) q.fill v.length
    let atTail := after && decide (e.offset = c.data.count)
    let atHead := !after && decide (e.offset = 0)
    let nextNode ← q.peek c.next
    let prevNode ← q.peek c.prev
    let fullNext := atTail && !quicklistNodeAllowInsert nextNode q.fill v.length
    let fullPrev := atHead && !quicklistNodeAllowInsert prevNode q.fill v.length
    let q ←
      (if !full && after then do
        let zi ← e.zi
        quicklistInsertInto lzf q i fun zl =>
          match ziplistNext zl zi with
          | none => ziplistPush zl (ziplistArg v) .tail
          | some next => ziplistInsert zl next (ziplistArg v)
      else if !full && !after then do
        let zi ← e.zi
        quicklistInsertInto lzf q i fun zl => ziplistInsert zl zi (ziplistArg v)
      else if atTail && c.next.isSome && !fullNext && after then do
        let j ← c.next
        quicklistInsertInto lzf q j fun zl => ziplistPush zl (ziplistArg v) .head
      else if atHead && c.prev.isSome && !fullPrev && !after then do
        let j ← c.prev
        quicklistInsertInto lzf q j fun zl => ziplistPush zl (ziplistArg v) .tail
      else if (atTail && c.next.isSome && fullNext && after) ||
          (atHead && c.prev.isSome && fullPrev && !after) then do
        let zl ← ziplistPush ziplistNew (ziplistArg v) .head
        quicklistInsertNode lzf q (some i) ((quicklistCreateNode zl).setZl zl).incr after
      else quicklistInsertSplit lzf q i e.offset v after)
    some { q with count := q.count + 1 }

def quicklistInsertBefore (e : QuicklistEntry) (v : List UInt8) : Option Quicklist := quicklistInsert lzf q e v false

def quicklistInsertAfter (e : QuicklistEntry) (v : List UInt8) : Option Quicklist := quicklistInsert lzf q e v true

/-! ### Range deletion -/

/-- How much of a node the loop of `quicklistDelRange` deletes, and whether it is the whole node. -/
def quicklistDelCount (offset : Int) (extent count : Nat) : Nat × Bool :=
  if offset = 0 ∧ extent ≥ count then (count, true)
  else if offset ≥ 0 ∧ extent ≥ count then (((count : Int) - offset).toNat, false)
  else if offset < 0 then (min (-offset).toNat extent, false)
  else (extent, false)

/-- One node of the loop of `quicklistDelRange`. -/
def quicklistDelRangeNode (i : Nat) (del : Nat × Bool) (offset : Int) : Option Quicklist :=
  if del.2 then quicklistDelNode lzf q i
  else do
    let q ← q.modify (some i) QuicklistNode.decompressNodeForUse
    let c ← q.mem i
    let zl ← ziplistDeleteRange c.data.zl offset (toUInt32 del.1)
    let count := nodeCountAdd c.data.count (-del.1)
    let q ← q.modify (some i) fun n => { n.setZl zl with count := count }
    let q := { q with count := ulongSub q.count del.1 }
    if count = 0 then quicklistDelNode lzf q i else quicklistRecompressOnly lzf q (some i)

/-- The loop of `quicklistDelRange`, with a bound on the nodes it may visit. -/
def quicklistDelRangeLoop : Nat → Quicklist → Option Nat → Int → Nat → Option Quicklist
  | _, q, _, _, 0 => some q
  | 0, _, _, _, _ + 1 => none
  | fuel + 1, q, node, offset, extent => do
    let i ← node
    let c ← q.mem i
    let del := quicklistDelCount offset extent c.data.count
    let q ← quicklistDelRangeNode lzf q i del offset
    quicklistDelRangeLoop fuel q c.next 0 (extent - del.1)

/-- How many elements `quicklistDelRange` wants to delete. -/
def quicklistDelExtent (start count : Int) : Nat :=
  if 0 ≤ start ∧ count.toNat > ulongSub q.count start.toNat then ulongSub q.count start.toNat
  else if start < 0 ∧ count.toNat > (-start).toNat then (-start).toNat
  else count.toNat

def quicklistDelRange (start count : Int) : Option (Quicklist × Bool) :=
  if count ≤ 0 then some (q, false)
  else do
    let extent := quicklistDelExtent q start count
    let (q, e, found) ← quicklistIndex q start
    if found then do
      let q ← quicklistDelRangeLoop lzf (q.len + 1) q e.node e.offset extent
      some (q, true)
    else some (q, false)

/-! ### Iterators -/

def quicklistGetIterator (direction : ListEnd) : QuicklistIter :=
  if direction = .head then ⟨q.head, none, 0, direction⟩ else ⟨q.tail, none, -1, direction⟩

def quicklistGetIteratorAtIdx (direction : ListEnd) (idx : Int) : Option (Quicklist × Option QuicklistIter) := do
  let (q, e, found) ← quicklistIndex q idx
  if found then some (q, some ⟨e.node, none, e.offset, direction⟩) else some (q, none)

def quicklistReleaseIterator (it : QuicklistIter) : Option Quicklist :=
  if it.current = none then some q else quicklistCompress lzf q it.current

/-- The place in the current ziplist that `quicklistNext` looks at, and its offset. -/
def quicklistAdvance (zl : Ziplist) (it : QuicklistIter) : Option Nat × Int :=
  match it.zi with
  | none => (ziplistIndex zl it.offset, it.offset)
  | some p =>
    if it.direction = .head then (ziplistNext zl p, it.offset + 1) else (ziplistPrev p, it.offset - 1)

/-- The iterator at the near end of the node behind the one it leaves. -/
def quicklistEnter (it : QuicklistIter) (c : DCell QuicklistNode) : QuicklistIter :=
  if it.direction = .head then { it with current := c.next, zi := none, offset := 0 }
  else { it with current := c.prev, zi := none, offset := -1 }

/-- With a bound on the nodes it may pass; no entry at the end of the walk. -/
def quicklistNext : Nat → Quicklist → QuicklistIter → Option (Quicklist × QuicklistIter × Option QuicklistEntry)
  | 0, _, _ => none
  | fuel + 1, q, it =>
    match it.current with
    | none => some (q, it, none)
    | some i => do
      let q ← (if it.zi = none then q.modify (some i) QuicklistNode.decompressNodeForUse else some q)
      let c ← q.mem i
      let (zi, offset) := quicklistAdvance c.data.zl it
      match zi with
      | some p =>
        let v ← ziplistGet c.data.zl p
        some (q, { it with zi := some p, offset := offset }, some ⟨some i, some p, offset, some v⟩)
      | none =>
        let q ← quicklistCompress lzf q (some i)
        let c ← q.mem i
        quicklistNext fuel q (quicklistEnter it c)

def quicklistDelEntry (it : QuicklistIter) (e : QuicklistEntry) : Option (Quicklist × QuicklistIter) := do
  let i ← e.node
  let zi ← e.zi
  let c ← q.mem i
  let (q, gone) ← quicklistDelIndex lzf q i zi
  some (q, if gone then quicklistEnter it c else { it with zi := none })

/-- A walk: one call of `quicklistNext` for each flag, and `quicklistDelEntry` on the entry if the flag
is set. The walk stops when the iterator does. The result collects the elements seen. -/
def quicklistWalk : List Bool → Quicklist → QuicklistIter → Option (Quicklist × QuicklistIter × List ZlValue)
  | [], q, it => some (q, it, [])
  | del :: dels, q, it => do
    let (q, it, e) ← quicklistNext lzf (q.len + 2) q it
    match e with
    | none => some (q, it, [])
    | some e =>
      let v ← e.value
      let (q, it) ← (if del then quicklistDelEntry lzf q it e else some (q, it))
      let (q, it, vs) ← quicklistWalk dels q it
      some (q, it, v :: vs)

/-! ### Copies and rotation -/

def quicklistDupLoop (orig : Quicklist) : Nat → Quicklist → Option Nat → Option Quicklist
  | _, copy, none => some copy
  | 0, _, some _ => none
  | fuel + 1, copy, some i => do
    let c ← orig.mem i
    let copy := { copy with count := copy.count + c.data.count }
    let copy ← quicklistInsertNode lzf copy copy.tail { c.data with recompress := false } true
    quicklistDupLoop orig fuel copy c.next

def quicklistDup (orig : Quicklist) : Option Quicklist :=
  quicklistDupLoop lzf orig (orig.len + 1) (quicklistNew orig.fill orig.compress) orig.head

/-- The string that `quicklistRotate` pushes lies in the ziplist it is pushed to: `ziplistPush`
reallocates the ziplist and moves its entries before it copies the bytes of the string. -/
def quicklistRotateAliases (n : Option QuicklistNode) (v : ZlValue) : Bool :=
  decide (q.head = q.tail) && quicklistNodeAllowInsert n q.fill v.bytes.length &&
    match v with
    | .str s => decide (s ≠ [])
    | .int _ => false

/-- A string with the bytes of `stale` over its own. -/
def ZlValue.overwritten (stale : List UInt8) : ZlValue → ZlValue
  | .str s => .str (s.mapIdx fun i b => stale.getD i b)
  | .int v => .int v

/-- `stale` is what the memory of the pushed string holds when `ziplistPush` copies it, after the encoding was
chosen and the ziplist was moved. -/
def quicklistRotate (stale : List UInt8) : Option Quicklist :=
  if q.count ≤ 1 then some q
  else do
    let c ← q.deref q.tail
    let p ← ziplistIndex c.data.zl (-1)
    let v ← ziplistGet c.data.zl p
    let value := zipEncode (ziplistArg v.bytes)
    let pushed := if quicklistRotateAliases q (some c.data) v then value.overwritten stale else value
    let (q, _) ← quicklistPushValue lzf q v.bytes.length pushed .head
    let i ← q.tail
    let c ← q.mem i
    let p ← (if q.len = 1 then ziplistIndex c.data.zl (-1) else some p)
    let (q, _) ← quicklistDelIndex lzf q i p
    some q

/-! ### The quicklist as a machine -/

/-- The calls of the API. An insertion refers to the entry that `quicklistIndex` finds, or to no node
when the list is empty. A walk starts at one end or, counted from that end, at an index; it ends with
the release of the iterator or is left open. -/
inductive QuicklistOp
  | push (where_ : ListEnd) (v : List UInt8)
  | pop (where_ : ListEnd)
  | index (idx : Int)
  | replaceAtIndex (idx : Int) (v : List UInt8)
  | insert (idx : Int) (v : List UInt8) (after : Bool)
  | delRange (start count : Int)
  | walk (direction : ListEnd) (start : Option Nat) (dels : List Bool) (release : Bool)
  | rotate (stale : List UInt8)
  | dup

inductive QuicklistReply
  | done
  | bool (b : Bool)
  | value (v : Option (List UInt8))
  | values (vs : List (List UInt8))
  deriving DecidableEq

def quicklistStart (direction : ListEnd) : Option Nat → Option (Quicklist × Option QuicklistIter)
  | none => some (q, some (quicklistGetIterator q direction))
  | some k => quicklistGetIteratorAtIdx q direction (if direction = .head then k else -(k : Int) - 1)

def quicklistStep : QuicklistOp → Quicklist → Option (Quicklist × QuicklistReply)
  | .push where_ v, q => do
    let (q, _) ← quicklistPush lzf q v where_
    some (q, .done)
  | .pop where_, q => do
    let (q, v) ← quicklistPop lzf q where_
    some (q, .value (v.map ZlValue.bytes))
  | .index idx, q => do
    let (q, e, found) ← quicklistIndex q idx
    some (q, .value (if found then e.value.map ZlValue.bytes else none))
  | .replaceAtIndex idx v, q => do
    let (q, replaced) ← quicklistReplaceAtIndex lzf q idx v
    some (q, .bool replaced)
  | .insert idx v after, q => do
    let (q, e, found) ← quicklistIndex q idx
    if found || decide (q.len = 0) then do
      let q ← (if after then quicklistInsertAfter lzf q e v else quicklistInsertBefore lzf q e v)
      some (q, .bool true)
    else some (q, .bool false)
  | .delRange start count, q => do
    let (q, deleted) ← quicklistDelRange lzf q start count
    some (q, .bool deleted)
  | .walk direction start dels release, q => do
    let (q, it) ← quicklistStart q direction start
    match it with
    | none => some (q, .values [])
    | some it =>
      let (q, it, vs) ← quicklistWalk lzf dels q it
      let q ← (if release then quicklistReleaseIterator lzf q it else some q)
      some (q, .values (vs.map ZlValue.bytes))
  | .rotate stale, q => do
    let q ← quicklistRotate lzf q stale
    some (q, .done)
  | .dup, q => do
    let q ← quicklistDup lzf q
    some (q, .done)

def quicklistMachine (fill compress : Int) : Machine QuicklistOp Quicklist QuicklistReply where
  init := quicklistNew fill compress
  step := quicklistStep lzf

end Redis
