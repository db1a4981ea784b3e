import Mathlib.Algebra.Order.Ring.Int
import Redis.Lib.Machine

/-! # Radix trees (`rax.c`)

A node carries the edge characters of its children, or, compressed, the string of a chain of nodes
with one child each. The tree has no sharing, so a pointer to a node is its place: a stack of
`RaxFrame`s, innermost first, each a parent with the index of the child pointer that was followed
(`children+j`). `raxPlug` writes a node back through these links. Searching a parent for a child
pointer (`raxFindParentLink`, `raxRemoveChild`) finds that index.

Allocations succeed. `none` is a failed `assert` or a write outside a node. -/

namespace Redis

/-- The flags of a node and its value field; a `NULL` value is kept in `isnull` alone. -/
structure RaxHdr (V : Type) where
  iskey : Bool
  isnull : Bool
  data : Option V
deriving DecidableEq, Repr

inductive RaxNode (V : Type)
  | normal (hdr : RaxHdr V) (edges : List (UInt8 × RaxNode V))
  | compr (hdr : RaxHdr V) (chars : List UInt8) (child : RaxNode V)
deriving Repr

structure Rax (V : Type) where
  head : RaxNode V
  numele : Nat
  numnodes : Nat
deriving Repr

structure RaxFrame (V : Type) where
  node : RaxNode V
  idx : Nat
deriving Repr

def raxNodeMaxSize : Nat := 2 ^ 29 - 1

variable {V : Type}

def raxHdrNew : RaxHdr V := ⟨false, false, none⟩

def raxNewLeaf : RaxNode V := .normal raxHdrNew []

def raxNew : Rax V := ⟨raxNewLeaf, 0, 1⟩

namespace RaxNode

def hdr : RaxNode V → RaxHdr V
  | .normal hdr _ => hdr
  | .compr hdr _ _ => hdr

def withHdr : RaxNode V → RaxHdr V → RaxNode V
  | .normal _ es, hdr => .normal hdr es
  | .compr _ cs n, hdr => .compr hdr cs n

def iscompr : RaxNode V → Bool
  | .normal _ _ => false
  | .compr _ _ _ => true

def size : RaxNode V → Nat
  | .normal _ es => es.length
  | .compr _ cs _ => cs.length

def setChild : RaxNode V → Nat → RaxNode V → RaxNode V
  | .normal hdr es, j, n => .normal hdr (es.modify j fun e => (e.1, n))
  | .compr hdr cs _, _, n => .compr hdr cs n

end RaxNode

/-- Write a node through its parent link, and the parents that hold it. -/
def raxPlug : List (RaxFrame V) → RaxNode V → RaxNode V
  | [], n => n
  | f :: fs, n => raxPlug fs (f.node.setChild f.idx n)

def raxSetData (h : RaxHdr V) : Option V → RaxHdr V
  | some x => ⟨true, false, some x⟩
  | none => ⟨true, true, h.data⟩

def raxGetData (h : RaxHdr V) : Option V := if h.isnull then none else h.data

/-- How many characters of a compressed node match the key. -/
def raxMatch : List UInt8 → List UInt8 → Nat
  | v :: vs, s :: ss => if v = s then raxMatch vs ss + 1 else 0
  | _, _ => 0

/-- The result of `raxLowWalk`: the characters not walked, the node it stopped at, the split position
in it and the stack of parents. -/
structure RaxWalk (V : Type) where
  rest : List UInt8
  node : RaxNode V
  splitpos : Nat
  stack : List (RaxFrame V)

/-- The loop of `raxLowWalk`; every round takes a character of the key or more. -/
def raxLowWalkLoop : Nat → RaxNode V → List UInt8 → List (RaxFrame V) → RaxWalk V
  | _, h, [], ts => ⟨[], h, 0, ts⟩
  | 0, h, s, ts => ⟨s, h, 0, ts⟩
  | fuel + 1, .compr hdr cs child, s, ts =>
    let j := raxMatch cs s
    if j ≠ cs.length then ⟨s.drop j, .compr hdr cs child, j, ts⟩
    else raxLowWalkLoop fuel child (s.drop j) (⟨.compr hdr cs child, 0⟩ :: ts)
  | fuel + 1, .normal hdr es, c :: s, ts =>
    match es.findIdx? fun e => decide (e.1 = c) with
    | none => ⟨c :: s, .normal hdr es, 0, ts⟩
    | some j =>
      match es[j]? with
      | none => ⟨c :: s, .normal hdr es, 0, ts⟩
      | some e => raxLowWalkLoop fuel e.2 s (⟨.normal hdr es, j⟩ :: ts)

variable (r : Rax V) (s : List UInt8)

def raxLowWalk : RaxWalk V := raxLowWalkLoop s.length r.head s []

/-- `none` is `raxNotFound`. -/
def raxFind : Option (Option V) :=
  let w := raxLowWalk r s
  if w.rest ≠ [] ∨ (w.node.iscompr = true ∧ w.splitpos ≠ 0) ∨ w.node.hdr.iskey = false then none
  else some (raxGetData w.node.hdr)

/-! ### Insertion -/

/-- A node for the characters `cs` in front of `child`, compressed if there are two or more. -/
def raxChain (hdr : RaxHdr V) (cs : List UInt8) (child : RaxNode V) : RaxNode V :=
  match cs with
  | [c] => .normal hdr [(c, child)]
  | _ => .compr hdr cs child

/-- The node with a new leaf for `c`, and the position of the leaf. -/
def raxAddChild (n : RaxNode V) (c : UInt8) : Option (RaxNode V × Nat) :=
  match n with
  | .compr _ _ _ => none
  | .normal hdr es =>
    let pos := (es.findIdx? fun e => decide (c < e.1)).getD es.length
    some (.normal hdr (es.insertIdx pos (c, raxNewLeaf)), pos)

/-- The childless node with the characters `s` and a new leaf. -/
def raxCompressNode (n : RaxNode V) (s : List UInt8) : Option (RaxNode V) :=
  match n with
  | .normal hdr [] =>
    some (.compr (if hdr.iskey then raxSetData hdr (raxGetData hdr) else hdr) s raxNewLeaf)
  | _ => none

/-- The loop of `raxGenericInsert` that inserts the missing nodes: the last node, its links, and the
number of nodes. -/
def raxInsertLoop : Nat → RaxNode V → List UInt8 → List (RaxFrame V) → Nat →
    Option (RaxNode V × List (RaxFrame V) × Nat)
  | _, h, [], ts, numnodes => some (h, ts, numnodes)
  | 0, _, _, _, _ => none
  | fuel + 1, h, c :: s, ts, numnodes =>
    if h.size = 0 ∧ (c :: s).length > 1 then
      let comprsize := min (c :: s).length raxNodeMaxSize
      match raxCompressNode h ((c :: s).take comprsize) with
      | none => none
      | some newh =>
        raxInsertLoop fuel raxNewLeaf ((c :: s).drop comprsize) (⟨newh, 0⟩ :: ts) (numnodes + 1)
    else
      match raxAddChild h c with
      | none => none
      | some (newh, pos) => raxInsertLoop fuel raxNewLeaf s (⟨newh, pos⟩ :: ts) (numnodes + 1)

/-- The end of `raxGenericInsert`: insert the rest of the key below `h` and store the value. -/
def raxInsertRest (h : RaxNode V) (s : List UInt8) (ts : List (RaxFrame V)) (data : Option V) : Option (Rax V) :=
  match raxInsertLoop s.length h s ts r.numnodes with
  | none => none
  | some (h, ts, numnodes) =>
    some ⟨raxPlug ts (h.withHdr (raxSetData h.hdr data)),
      if h.hdr.iskey then r.numele else r.numele + 1, numnodes⟩

/-- Algorithm 1 of `raxGenericInsert`: split a compressed node at the mismatch `j`. The result is the
split node with its links and the number of nodes. -/
def raxSplit (hdr : RaxHdr V) (cs : List UInt8) (next : RaxNode V) (j : Nat) (ts : List (RaxFrame V))
    (numnodes : Nat) : Option (RaxNode V × List (RaxFrame V) × Nat) :=
  match cs[j]? with
  | none => none
  | some c =>
    let postlen := cs.length - j - 1
    let post := if postlen = 0 then next else raxChain raxHdrNew (cs.drop (j + 1)) next
    let splitHdr := if j = 0 ∧ hdr.iskey = true then raxSetData raxHdrNew (raxGetData hdr) else raxHdrNew
    let splitnode := .normal splitHdr [(c, post)]
    let trimHdr : RaxHdr V := ⟨hdr.iskey, hdr.isnull, none⟩
    let trimHdr := if hdr.iskey = true ∧ hdr.isnull = false then raxSetData trimHdr (raxGetData hdr)
      else trimHdr
    let numnodes := if postlen = 0 then numnodes else numnodes + 1
    if j = 0 then some (splitnode, ts, numnodes)
    else some (splitnode, ⟨raxChain trimHdr (cs.take j) splitnode, 0⟩ :: ts, numnodes + 1)

/-- Algorithm 2 of `raxGenericInsert`: cut a compressed node in two at `j`, the second part being the
new key. -/
def raxCut (hdr : RaxHdr V) (cs : List UInt8) (next : RaxNode V) (j : Nat) (data : Option V) : RaxNode V :=
  let post := raxChain (raxSetData raxHdrNew data) (cs.drop j) next
  let trimHdr := if hdr.iskey then raxSetData raxHdrNew (raxGetData hdr) else raxHdrNew
  raxChain trimHdr (cs.take j) post

/-- The tree, whether the key was inserted, and `*old` if it was there. -/
def raxGenericInsert (data : Option V) (overwrite : Bool) : Option (Rax V × Bool × Option (Option V)) :=
  let w := raxLowWalk r s
  let h := w.node
  if w.rest = [] ∧ (h.iscompr = false ∨ w.splitpos = 0) then
    if h.hdr.iskey then
      let h' := if overwrite then h.withHdr (raxSetData h.hdr data) else h
      some ({ r with head := raxPlug w.stack h' }, false, some (raxGetData h.hdr))
    else
      some ({ r with head := raxPlug w.stack (h.withHdr (raxSetData h.hdr data)), numele := r.numele + 1 },
        true, none)
  else
    match h with
    | .compr hdr cs next =>
      if w.rest ≠ [] then
        match raxSplit hdr cs next w.splitpos w.stack r.numnodes with
        | none => none
        | some (splitnode, ts, numnodes) =>
          (raxInsertRest { r with numnodes := numnodes } splitnode w.rest ts data).map fun r => (r, true, none)
      else
        some (⟨raxPlug w.stack (raxCut hdr cs next w.splitpos data), r.numele + 1, r.numnodes + 1⟩, true, none)
    | .normal _ _ => (raxInsertRest r h w.rest w.stack data).map fun r => (r, true, none)

def raxInsert (data : Option V) : Option (Rax V × Bool × Option (Option V)) :=
  raxGenericInsert r s data true

def raxTryInsert (data : Option V) : Option (Rax V × Bool × Option (Option V)) :=
  raxGenericInsert r s data false

/-! ### Removal -/

def raxRemoveChild (parent : RaxNode V) (idx : Nat) : RaxNode V :=
  match parent with
  | .compr hdr _ _ =>
    let cleared : RaxHdr V := ⟨hdr.iskey, false, hdr.data⟩
    .normal (if hdr.iskey then raxSetData cleared (raxGetData hdr) else cleared) []
  | .normal hdr es => .normal hdr (es.eraseIdx idx)

/-- A node that is a key or does not have exactly one child ends a chain. -/
def RaxNode.endsChain (n : RaxNode V) : Bool := n.hdr.iskey || (!n.iscompr && decide (n.size ≠ 1))

/-- The loop of `raxRemove` that frees the nodes above a removed leaf: the link to unlink, the links
above it, and the number of nodes. `f` is the link of the node freed next. -/
def raxUnlink (f : RaxFrame V) : List (RaxFrame V) → Nat → RaxFrame V × List (RaxFrame V) × Nat
  | [], numnodes => (f, [], numnodes - 1)
  | g :: gs, numnodes =>
    if f.node.endsChain then (f, g :: gs, numnodes - 1) else raxUnlink g gs (numnodes - 1)

/-- Go up to the node where a recompression starts; the rest of the stack is above its parent link. -/
def raxCompressStart (h : RaxNode V) : List (RaxFrame V) → RaxNode V × List (RaxFrame V)
  | [] => (h, [])
  | f :: fs => if f.node.endsChain then (h, f :: fs) else raxCompressStart (f.node.setChild f.idx h) fs

/-- The first scan of the chain from a node: the nodes that can be joined and their characters. The
start of a recompression has one child, so that the last child is the only one. -/
def raxScanSize : RaxNode V → Nat → Nat → Option (Nat × Nat)
  | .normal _ [], nodes, comprsize => some (nodes, comprsize)
  | .compr _ _ child, nodes, comprsize =>
    if child.endsChain ∨ comprsize + child.size > raxNodeMaxSize then some (nodes, comprsize)
    else raxScanSize child (nodes + 1) (comprsize + child.size)
  | .normal _ [(_, child)], nodes, comprsize =>
    if child.endsChain ∨ comprsize + child.size > raxNodeMaxSize then some (nodes, comprsize)
    else raxScanSize child (nodes + 1) (comprsize + child.size)
  | .normal _ (_ :: _ :: _), _, _ => none

/-- The second scan: the characters, the first node that stays, and the number of nodes freed. -/
def raxCollect : RaxNode V → Option (List UInt8 × RaxNode V × Nat)
  | .normal hdr [] => some ([], .normal hdr [], 0)
  | .compr _ cs child =>
    if child.endsChain then some (cs, child, 1)
    else (raxCollect child).map fun (ds, n, k) => (cs ++ ds, n, k + 1)
  | .normal _ [(c, child)] =>
    if child.endsChain then some ([c], child, 1)
    else (raxCollect child).map fun (ds, n, k) => (c :: ds, n, k + 1)
  | .normal _ (_ :: _ :: _) => none

/-- The recompression in `raxRemove`: the new head and the number of nodes. The second scan has no
bound of its own, it must end where the first one did. -/
def raxRecompress (h : RaxNode V) (ts : List (RaxFrame V)) (numnodes : Nat) : Option (RaxNode V × Nat) :=
  let (start, ts) := raxCompressStart h ts
  match raxScanSize start 1 start.size with
  | none => none
  | some (nodes, comprsize) =>
    if nodes > 1 then
      match raxCollect start with
      | none => none
      | some (cs, next, freed) =>
        if cs.length ≠ comprsize then none
        else some (raxPlug ts (.compr raxHdrNew cs next), numnodes + 1 - freed)
    else some (raxPlug ts start, numnodes)

/-- The part of `raxRemove` after the key is cleared: clean up and recompress. -/
def raxCleanup (h : RaxNode V) (ts : List (RaxFrame V)) (numnodes : Nat) : Option (RaxNode V × Nat) :=
  if h.size = 0 then
    match ts with
    | [] => some (h, numnodes)
    | f :: fs =>
      let (f, fs, numnodes) := raxUnlink f fs numnodes
      let new := raxRemoveChild f.node f.idx
      if new.size = 1 ∧ new.hdr.iskey = false then raxRecompress new fs numnodes
      else some (raxPlug fs new, numnodes)
  else if h.size = 1 then raxRecompress h ts numnodes
  else some (raxPlug ts h, numnodes)

/-- The node where the recompression of `raxCleanup` starts, if there is one. -/
def raxCleanupStart (h : RaxNode V) (ts : List (RaxFrame V)) (numnodes : Nat) : Option (RaxNode V) :=
  if h.size = 0 then
    match ts with
    | [] => none
    | f :: fs =>
      let (f, fs, _) := raxUnlink f fs numnodes
      let new := raxRemoveChild f.node f.idx
      if new.size = 1 ∧ new.hdr.iskey = false then some (raxCompressStart new fs).1 else none
  else if h.size = 1 then some (raxCompressStart h ts).1
  else none

/-- The tree and `*old`, or `none` if the key is not there. -/
def raxRemove : Option (Rax V × Option (Option V)) :=
  let w := raxLowWalk r s
  let hdr := w.node.hdr
  if w.rest ≠ [] ∨ (w.node.iscompr = true ∧ w.splitpos ≠ 0) ∨ hdr.iskey = false then some (r, none)
  else
    (raxCleanup (w.node.withHdr { hdr with iskey := false }) w.stack r.numnodes).map fun (head, numnodes) =>
      (⟨head, r.numele - 1, numnodes⟩, some (raxGetData hdr))

/-- The start of the recompression in `raxRemove`. -/
def raxRemoveStart : Option (RaxNode V) :=
  let w := raxLowWalk r s
  let hdr := w.node.hdr
  if w.rest ≠ [] ∨ (w.node.iscompr = true ∧ w.splitpos ≠ 0) ∨ hdr.iskey = false then none
  else raxCleanupStart (w.node.withHdr { hdr with iskey := false }) w.stack r.numnodes

mutual
/-- On the number of nodes. -/
def raxRecursiveFree : RaxNode V → Int → Int
  | .normal _ es, numnodes => raxRecursiveFreeEdges es numnodes - 1
  | .compr _ _ child, numnodes => raxRecursiveFree child numnodes - 1
def raxRecursiveFreeEdges : List (UInt8 × RaxNode V) → Int → Int
  | [], numnodes => numnodes
  | (_, child) :: es, numnodes => raxRecursiveFree child (raxRecursiveFreeEdges es numnodes)
end

/-- Up to its `assert`. -/
def raxFreeWithCallback : Option Unit :=
  if raxRecursiveFree r.head r.numnodes = 0 then some () else none

inductive RaxOp (V : Type)
  | insert (s : List UInt8) (data : Option V)
  | tryInsert (s : List UInt8) (data : Option V)
  | remove (s : List UInt8)
  | find (s : List UInt8)
deriving DecidableEq, Repr

def RaxOp.key : RaxOp V → List UInt8
  | .insert s _ | .tryInsert s _ | .remove s | .find s => s

/-- The replies: the return value with `*old`, or the value found. -/
inductive RaxReply (V : Type)
  | changed (res : Bool) (old : Option (Option V))
  | found (v : Option (Option V))
deriving DecidableEq, Repr

def raxStep : RaxOp V → Rax V → Option (Rax V × RaxReply V)
  | .insert s data, r => (raxInsert r s data).map fun (r, b, old) => (r, .changed b old)
  | .tryInsert s data, r => (raxTryInsert r s data).map fun (r, b, old) => (r, .changed b old)
  | .remove s, r => (raxRemove r s).map fun (r, old) => (r, .changed old.isSome old)
  | .find s, r => some (r, .found (raxFind r s))

def raxMachine : Machine (RaxOp V) (Rax V) (RaxReply V) := ⟨raxNew, raxStep⟩

end Redis
