import Redis.Lib.TwinIndex
import Redis.StreamGroups

/-! # The pending entries of a group and of its consumers agree

The tree of a group and the trees of its consumers are a `Twin` index of the records. Each command is
a sequence of writes to one consumer or to one record (`WroteConsumer`, `WroteNACK`); what such a
sequence does to the three maps of the index is all that the invariant depends on. -/

namespace Redis
open List Function Option AList

variable {consumer : List UInt8}

/-! ### Outcomes -/

/-- The outcome is a result with the property, or the server went down in the functions on the entries. -/
def Safe {α : Type} (P : α → Prop) : Except Crash α → Prop
  | .ok v => P v
  | .error e => e = .entries

section safe
variable {α β : Type} {P : α → Prop} {Q : β → Prop} {x : Except Crash α} {f : α → Except Crash β}

theorem Safe.bind (hx : Safe P x) (hf : ∀ v, P v → Safe Q (f v)) : Safe Q (x >>= f) := by
  cases x with
  | error e => exact hx
  | ok v => exact hf v hx

theorem Safe.imp {P' : α → Prop} (hx : Safe P x) (h : ∀ v, P v → P' v) : Safe P' x := by
  cases x with
  | error e => exact hx
  | ok v => exact h v hx

theorem Safe.of_toOption {v : α} (hx : Safe P x) (h : x.toOption = some v) : P v := by
  cases x with
  | error e => cases h
  | ok w =>
    cases h
    exact hx

theorem ok_bind (v : α) : (Except.ok v >>= f) = f v := rfl

theorem except_bind_ok {v : β} (h : (x >>= f) = .ok v) : ∃ a, x = .ok a ∧ f a = .ok v := by
  cases x with
  | error e => cases h
  | ok a => exact ⟨a, rfl, h⟩

theorem deref_bind (v : α) : (deref (some v) >>= f) = f v := rfl

theorem safe_ofEntries (x : Option α) : Safe (fun _ => True) (ofEntries x) := by
  cases x with
  | none => rfl
  | some v => trivial

end safe

structure Pending where
  owner : List UInt8
  time : Int
  count : UInt64
deriving DecidableEq

/-- What can be seen of a group: the last ID it was given, and its pending entries. -/
structure GroupMap where
  lastId : StreamID
  pending : StreamID → Option Pending

def laterID (a b : StreamID) : StreamID := if a < b then b else a

/-- A group while a command works on it, as far as it can be seen. -/
structure ReadMap where
  map : GroupMap
  propagateLastId : Bool
  propagated : List Propagated

/-- `XREADGROUP` for one entry. -/
def readEntry (noack : Bool) (consumer : List UInt8) (now : Int) (g : ReadMap) (id : StreamID) : ReadMap :=
  let last := laterID g.map.lastId id
  let newer := g.propagateLastId || decide (g.map.lastId < id)
  if noack then ⟨⟨last, g.map.pending⟩, newer, g.propagated ++ if newer then [.setid last] else []⟩
  else
    ⟨⟨last, Function.update g.map.pending id (some ⟨consumer, now, 1⟩)⟩, newer,
      g.propagated ++ [.xclaim consumer id now 1 last]⟩

namespace StreamCG

def nameOf (cg : StreamCG) (b : Nat) : Option (List UInt8) := (cg.consumerHeap.cell b).map StreamConsumer.name

def readNACK (cg : StreamCG) (n : Nat) : Option Pending := do
  let nack ← cg.nackHeap.cell n
  let b ← nack.consumer
  let name ← cg.nameOf b
  some ⟨name, nack.deliveryTime, nack.deliveryCount⟩

def pending (cg : StreamCG) (id : StreamID) : Option Pending := (cg.pel.lookup id).bind cg.readNACK

def map (cg : StreamCG) : GroupMap := ⟨cg.lastId, cg.pending⟩

end StreamCG

def GroupRead.view (g : GroupRead) : ReadMap := ⟨g.cg.map, g.propagateLastId, g.propagated⟩

namespace StreamCG

def ownerOf (cg : StreamCG) (n : Nat) : Option Nat := (cg.nackHeap.cell n).bind StreamNACK.consumer

def owns (cg : StreamCG) (b : Nat) (id : StreamID) : Option Nat :=
  (cg.consumerHeap.cell b).bind fun c => c.pel.lookup id

structure Inv (cg : StreamCG) : Prop where
  listed : ∀ name b, cg.consumers.lookup name = some b → ∃ c, cg.consumerHeap.cell b = some c ∧ c.name = name
  named : ∀ b c, cg.consumerHeap.cell b = some c → cg.consumers.lookup c.name = some b
  twin : Twin (fun id => cg.pel.lookup id) cg.ownerOf cg.owns

/-! ### Single writes -/

structure SameNames (cg cg' : StreamCG) : Prop where
  consumers : cg'.consumers = cg.consumers
  names : ∀ b, (cg'.consumerHeap.cell b).map StreamConsumer.name = (cg.consumerHeap.cell b).map StreamConsumer.name

structure WroteConsumer (cg cg' : StreamCG) (b : Nat) (c : StreamConsumer) : Prop where
  lastId : cg'.lastId = cg.lastId
  pel : cg'.pel = cg.pel
  consumers : cg'.consumers = cg.consumers
  nackHeap : cg'.nackHeap = cg.nackHeap
  cell : cg'.consumerHeap.cell = Function.update cg.consumerHeap.cell b (some c)

structure WroteNACK (cg cg' : StreamCG) (n : Nat) (x : Option StreamNACK) : Prop where
  lastId : cg'.lastId = cg.lastId
  pel : cg'.pel = cg.pel
  consumers : cg'.consumers = cg.consumers
  consumerHeap : cg'.consumerHeap = cg.consumerHeap
  cell : cg'.nackHeap.cell = Function.update cg.nackHeap.cell n x

variable {cg cg' cg'' : StreamCG} {b n : Nat} {id : StreamID} {c c' : StreamConsumer} {now : Int}
  {x : Option StreamNACK}
variable {nack : StreamNACK} {name : List UInt8} {g : GroupRead} {out : List StreamItem} {s : Stream}
variable {l : List (StreamID × Nat)}

theorem SameNames.refl (cg : StreamCG) : SameNames cg cg := ⟨rfl, fun _ => rfl⟩

theorem SameNames.trans (h : SameNames cg cg') (h' : SameNames cg' cg'') : SameNames cg cg'' :=
  ⟨h'.consumers.trans h.consumers, fun b => (h'.names b).trans (h.names b)⟩

theorem SameNames.exists_cell (h : SameNames cg cg') (hc : cg.consumerHeap.cell b = some c) :
    ∃ c', cg'.consumerHeap.cell b = some c' := by
  have hn := h.names b
  rw [hc, map_some, map_eq_some_iff] at hn
  exact hn.imp fun _ => And.left

theorem SameNames.nameOf (h : SameNames cg cg') : cg'.nameOf = cg.nameOf := funext h.names

theorem owns_update (cg : StreamCG) {x : Option StreamConsumer} (h : cg'.consumerHeap.cell = update cg.consumerHeap.cell b x) :
    cg'.owns = update cg.owns b fun id => x.bind fun c => c.pel.lookup id := by
  funext d
  unfold owns
  rw [h]
  exact apply_update (fun _ (y : Option StreamConsumer) id => y.bind fun c => c.pel.lookup id) ..

section
variable (h : WroteConsumer cg cg' b c')
include h

theorem WroteConsumer.sameNames (hc : cg.consumerHeap.cell b = some c) (hname : c'.name = c.name) : SameNames cg cg' := by
  refine ⟨h.consumers, fun d => ?_⟩
  rw [h.cell]
  by_cases hd : d = b
  · rw [hd, update_self, hc, map_some, map_some, hname]
  · rw [update_of_ne hd]

theorem WroteConsumer.owns : cg'.owns = update cg.owns b fun id => c'.pel.lookup id :=
  owns_update cg h.cell

theorem WroteConsumer.owns_erased (hpel : c'.pel.lookup id = none) {d : Nat} (hd : d ≠ b → cg.owns d id = none) :
    cg'.owns d id = none := by
  rw [h.owns]
  by_cases hdb : d = b
  · rw [hdb, update_self, hpel]
  · rw [update_of_ne hdb, hd hdb]

theorem WroteConsumer.ownerOf : cg'.ownerOf = cg.ownerOf := by
  funext n
  rw [StreamCG.ownerOf, h.nackHeap]
  rfl

end

section
variable (h : WroteNACK cg cg' n x)
include h

theorem WroteNACK.sameNames : SameNames cg cg' :=
  ⟨h.consumers, fun b => by rw [h.consumerHeap]⟩

theorem WroteNACK.owns : cg'.owns = cg.owns := by
  funext b id
  rw [StreamCG.owns, h.consumerHeap]
  rfl

theorem WroteNACK.ownerOf : cg'.ownerOf = update cg.ownerOf n (x.bind StreamNACK.consumer) := by
  funext m
  rw [StreamCG.ownerOf, h.cell]
  exact apply_update (fun _ (y : Option StreamNACK) => y.bind StreamNACK.consumer) ..

end

theorem putPel_spec (hc : cg.consumerHeap.cell b = some c) (id : StreamID) (n : Nat) :
    ∃ cg', cg.putPel b id n = .ok cg' ∧ WroteConsumer cg cg' b { c with pel := c.pel.insert id n } := by
  obtain ⟨heap, hm, hcell⟩ := Heap.modify_of_some hc
  exact ⟨{ cg with consumerHeap := heap }, by rw [putPel, hm]; rfl, rfl, rfl, rfl, rfl, hcell⟩

theorem delPel_spec (hc : cg.consumerHeap.cell b = some c) (id : StreamID) :
    ∃ cg', cg.delPel b id = .ok cg' ∧ WroteConsumer cg cg' b { c with pel := c.pel.erase id } := by
  obtain ⟨heap, hm, hcell⟩ := Heap.modify_of_some hc
  exact ⟨{ cg with consumerHeap := heap }, by rw [delPel, hm]; rfl, rfl, rfl, rfl, rfl, hcell⟩

theorem setNACK_spec (hn : cg.nackHeap.cell n = some nack) (f : StreamNACK → StreamNACK) :
    ∃ cg', cg.setNACK n f = .ok cg' ∧ WroteNACK cg cg' n (some (f nack)) := by
  obtain ⟨heap, hm, hcell⟩ := Heap.modify_of_some hn
  exact ⟨{ cg with nackHeap := heap }, by rw [setNACK, hm]; rfl, rfl, rfl, rfl, rfl, hcell⟩

theorem freeNACK_spec (hn : cg.nackHeap.cell n = some nack) :
    ∃ cg', cg.freeNACK n = .ok cg' ∧ WroteNACK cg cg' n none := by
  obtain ⟨heap, hm, hcell⟩ := Heap.free_of_some hn
  exact ⟨{ cg with nackHeap := heap }, by rw [freeNACK, hm]; rfl, rfl, rfl, rfl, rfl, hcell⟩

theorem createNACK_spec (cg : StreamCG) (consumer : Option Nat) (now : Int) :
    (cg.createNACK consumer now).2 = cg.nackHeap.next ∧
      WroteNACK cg (cg.createNACK consumer now).1 cg.nackHeap.next (some ⟨now, 1, consumer⟩) :=
  ⟨rfl, rfl, rfl, rfl, rfl, rfl⟩

/-! ### The invariant -/

theorem inv_iff : Inv cg ↔ (∀ name b, cg.consumers.lookup name = some b ↔ cg.nameOf b = some name) ∧
    Twin (fun id => cg.pel.lookup id) cg.ownerOf cg.owns := by
  constructor
  · refine fun h => ⟨fun name b => ⟨fun hb => map_eq_some_iff.2 (h.listed name b hb), fun hb => ?_⟩, h.twin⟩
    obtain ⟨c, hc, rfl⟩ := map_eq_some_iff.1 hb
    exact h.named b c hc
  · rintro ⟨hn, ht⟩
    exact ⟨fun name b hb => map_eq_some_iff.1 ((hn name b).1 hb),
      fun b c hc => (hn c.name b).2 (by rw [nameOf, hc, map_some]), ht⟩

theorem Inv.of_sameNames (h : Inv cg) (hs : SameNames cg cg')
    (ht : Twin (fun id => cg'.pel.lookup id) cg'.ownerOf cg'.owns) : Inv cg' := by
  rw [inv_iff, hs.consumers, hs.nameOf]
  exact ⟨(inv_iff.1 h).1, ht⟩

theorem Inv.record (h : Inv cg) (hn : cg.pel.lookup id = some n) :
    ∃ nack b c, cg.nackHeap.cell n = some nack ∧ nack.consumer = some b ∧ cg.consumerHeap.cell b = some c ∧
      cg.owns b id = some n := by
  obtain ⟨b, hb, hown⟩ := h.twin.down id n hn
  obtain ⟨nack, hnack, hcons⟩ := bind_eq_some_iff.1 hb
  obtain ⟨c, hc, -⟩ := bind_eq_some_iff.1 hown
  exact ⟨nack, b, c, hnack, hcons, hc, hown⟩

theorem Inv.ne_of_free (h : Inv cg) (hn : cg.nackHeap.cell n = none) (id : StreamID) : cg.pel.lookup id ≠ some n := by
  intro hid
  obtain ⟨nack, -, -, hnack, -⟩ := h.record hid
  rw [hn] at hnack
  cases hnack

theorem Inv.touch (h : Inv cg) {nack' : StreamNACK} (hw : WroteNACK cg cg' n (some nack'))
    (hn : cg.nackHeap.cell n = some nack) (hcons : nack'.consumer = nack.consumer) : Inv cg' := by
  refine h.of_sameNames hw.sameNames ?_
  have howner : cg'.ownerOf = cg.ownerOf := by
    rw [hw.ownerOf, update_eq_self_iff, ownerOf, hn]
    exact hcons
  rw [hw.pel, howner, hw.owns]
  exact h.twin

/-! ### Changes for one ID -/

/-- Only the entries for `id` changed, and records that no other ID has. -/
structure OnlyAt (id : StreamID) (cg cg' : StreamCG) : Prop where
  names : SameNames cg cg'
  lastId : cg'.lastId = cg.lastId
  pel : ∀ j, j ≠ id → cg'.pel.lookup j = cg.pel.lookup j
  cell : ∀ j m, j ≠ id → cg.pel.lookup j = some m → cg'.nackHeap.cell m = cg.nackHeap.cell m
  owns : ∀ d j, j ≠ id → cg'.owns d j = cg.owns d j

theorem OnlyAt.refl (id : StreamID) (cg : StreamCG) : OnlyAt id cg cg :=
  ⟨.refl cg, rfl, fun _ _ => rfl, fun _ _ _ _ => rfl, fun _ _ _ => rfl⟩

theorem OnlyAt.trans (h : OnlyAt id cg cg') (h' : OnlyAt id cg' cg'') : OnlyAt id cg cg'' := by
  refine ⟨h.names.trans h'.names, h'.lastId.trans h.lastId, fun j hj => (h'.pel j hj).trans (h.pel j hj),
    fun j m hj hm => ?_, fun d j hj => (h'.owns d j hj).trans (h.owns d j hj)⟩
  rw [h'.cell j m hj (by rw [h.pel j hj, hm]), h.cell j m hj hm]

theorem OnlyAt.owner (h : OnlyAt id cg cg') (j : StreamID) (m : Nat) (hj : j ≠ id) (hm : cg.pel.lookup j = some m) :
    cg'.ownerOf m = cg.ownerOf m := by
  rw [ownerOf, h.cell j m hj hm, ownerOf]

theorem OnlyAt.pending (h : OnlyAt id cg cg') {j : StreamID} (hj : j ≠ id) : cg'.pending j = cg.pending j := by
  rw [StreamCG.pending, h.pel j hj, StreamCG.pending]
  cases hm : cg.pel.lookup j with
  | none => rfl
  | some m => simp [readNACK, h.cell j m hj hm, h.names.nameOf]

theorem OnlyAt.map_eq (h : OnlyAt id cg cg') {p : Option Pending} (hp : cg'.pending id = p) :
    cg'.map = ⟨cg.lastId, update cg.pending id p⟩ := by
  have hpend : cg'.pending = update cg.pending id p := eq_update_iff.2 ⟨hp, fun j => h.pending⟩
  rw [map, h.lastId, hpend]

theorem pending_of_record (hpel : cg.pel.lookup id = some n) (hcell : cg.nackHeap.cell n = some nack)
    (hcons : nack.consumer = some b) (hb : cg.nameOf b = some name) :
    cg.pending id = some ⟨name, nack.deliveryTime, nack.deliveryCount⟩ := by
  simp [pending, hpel, readNACK, hcell, hcons, hb]

theorem pending_of_none (hpel : cg.pel.lookup id = none) : cg.pending id = none := by rw [pending, hpel, bind_none]

theorem Inv.pending_record (h : Inv cg) (hn : cg.pel.lookup id = some n) :
    ∃ nack b c, cg.nackHeap.cell n = some nack ∧ nack.consumer = some b ∧ cg.consumerHeap.cell b = some c ∧
      cg.owns b id = some n ∧ cg.consumers.lookup c.name = some b ∧
      cg.pending id = some ⟨c.name, nack.deliveryTime, nack.deliveryCount⟩ := by
  obtain ⟨nack, b, c, hnack, hcons, hc, hown⟩ := h.record hn
  exact ⟨nack, b, c, hnack, hcons, hc, hown, h.named b c hc,
    pending_of_record hn hnack hcons (by rw [nameOf, hc, map_some])⟩

theorem Inv.pending_eq_none (h : Inv cg) : cg.pending id = none ↔ cg.pel.lookup id = none := by
  refine ⟨fun hp => ?_, pending_of_none⟩
  rcases hid : cg.pel.lookup id with - | n
  · rfl
  obtain ⟨nack, b, c, -, -, -, -, -, hsome⟩ := h.pending_record hid
  rw [hp] at hsome
  cases hsome

theorem WroteNACK.onlyAt (h : WroteNACK cg cg' n x) (hn : ∀ j, j ≠ id → cg.pel.lookup j ≠ some n) :
    OnlyAt id cg cg' := by
  refine ⟨h.sameNames, h.lastId, fun j _ => by rw [h.pel], fun j m hj hm => ?_, fun d j _ => by rw [h.owns]⟩
  rw [h.cell, update_of_ne]
  rintro rfl
  exact hn j hj hm

theorem WroteConsumer.onlyAt (h : WroteConsumer cg cg' b c') (hc : cg.consumerHeap.cell b = some c)
    (hname : c'.name = c.name) (hpel : ∀ j, j ≠ id → c'.pel.lookup j = c.pel.lookup j) : OnlyAt id cg cg' := by
  refine ⟨h.sameNames hc hname, h.lastId, fun j _ => by rw [h.pel], fun j m _ _ => by rw [h.nackHeap], fun d j hj => ?_⟩
  rw [h.owns]
  by_cases hd : d = b
  · rw [hd, update_self, hpel j hj, StreamCG.owns, hc, bind_some]
  · rw [update_of_ne hd]

theorem onlyAt_putPel (hc : cg.consumerHeap.cell b = some c)
    (h : WroteConsumer cg cg' b { c with pel := c.pel.insert id n }) : OnlyAt id cg cg' :=
  h.onlyAt hc rfl fun _ hj => lookup_insert_ne hj

theorem onlyAt_delPel (hc : cg.consumerHeap.cell b = some c)
    (h : WroteConsumer cg cg' b { c with pel := c.pel.erase id }) : OnlyAt id cg cg' :=
  h.onlyAt hc rfl fun _ hj => lookup_erase_ne hj

theorem onlyAt_insert (cg : StreamCG) (id : StreamID) (n : Nat) :
    OnlyAt id cg { cg with pel := cg.pel.insert id n } :=
  ⟨⟨rfl, fun _ => rfl⟩, rfl, fun _ hj => lookup_insert_ne hj, fun _ _ _ _ => rfl, fun _ _ _ => rfl⟩

theorem onlyAt_erase (cg : StreamCG) (id : StreamID) : OnlyAt id cg { cg with pel := cg.pel.erase id } :=
  ⟨⟨rfl, fun _ => rfl⟩, rfl, fun _ hj => lookup_erase_ne hj, fun _ _ _ _ => rfl, fun _ _ _ => rfl⟩

section
variable (h : Inv cg)
include h

theorem Inv.assign (b : Nat) (ho : OnlyAt id cg cg') (hids : ∀ j, j ≠ id → cg.pel.lookup j ≠ some n)
    (hpel : cg'.pel.lookup id = some n) (howner : cg'.ownerOf n = some b) (howns : cg'.owns b id = some n)
    (hothers : ∀ d, d ≠ b → cg'.owns d id = none) : Inv cg' :=
  h.of_sameNames ho.names (h.twin.assign hids hpel ho.pel howner ho.owner howns hothers ho.owns)

theorem Inv.drop (ho : OnlyAt id cg cg') (hpel : cg'.pel.lookup id = none) (howns : ∀ d, cg'.owns d id = none) : Inv cg' :=
  h.of_sameNames ho.names (h.twin.drop hpel ho.pel ho.owner howns ho.owns)

theorem Inv.ne_of_ne (hn : cg.pel.lookup id = some n) : ∀ j, j ≠ id → cg.pel.lookup j ≠ some n :=
  fun j hj hjn => hj (h.twin.inj j id n hjn hn)

theorem Inv.owns_ne (hb : cg.owns b id = some n) {d : Nat} (hd : d ≠ b) : cg.owns d id = none := by
  cases ho : cg.owns d id with
  | none => rfl
  | some m => exact absurd (h.twin.unique ho hb) hd

theorem Inv.owns_none (hn : cg.pel.lookup id = none) (d : Nat) : cg.owns d id = none := by
  rcases ho : cg.owns d id with - | m
  · rfl
  have hm : cg.pel.lookup id = some m := (h.twin.up d id m ho).1
  rw [hn] at hm
  cases hm

theorem Inv.give {cg₁ cg₂ cg₃ : StreamCG} (ho : OnlyAt id cg cg₁) (hids : ∀ j, j ≠ id → cg.pel.lookup j ≠ some n)
    (hpel : cg₁.pel.lookup id = some n) (hothers : ∀ d, d ≠ b → cg₁.owns d id = none)
    (h₂ : WroteNACK cg₁ cg₂ n (some nack)) (hcons : nack.consumer = some b) (hc : cg₂.consumerHeap.cell b = some c)
    (h₃ : WroteConsumer cg₂ cg₃ b { c with pel := c.pel.insert id n }) :
    Inv cg₃ ∧ SameNames cg cg₃ ∧ cg₃.pel.lookup id = some n ∧ ∀ name, cg.nameOf b = some name →
      cg₃.map = ⟨cg.lastId, update cg.pending id (some ⟨name, nack.deliveryTime, nack.deliveryCount⟩)⟩ := by
  have ho₂ : OnlyAt id cg₁ cg₂ := h₂.onlyAt fun j hj => by
    rw [ho.pel j hj]
    exact hids j hj
  have ho₃ := (ho.trans ho₂).trans (onlyAt_putPel hc h₃)
  have hpel₃ : cg₃.pel.lookup id = some n := by rw [h₃.pel, h₂.pel, hpel]
  refine ⟨h.assign b ho₃ hids hpel₃ ?_ ?_ fun d hd => ?_, ho₃.names, hpel₃, fun name hb => ho₃.map_eq ?_⟩
  · rw [h₃.ownerOf, h₂.ownerOf, update_self, bind_some, hcons]
  · rw [h₃.owns, update_self]
    exact lookup_insert _
  · rw [h₃.owns, update_of_ne hd, h₂.owns, hothers d hd]
  · exact pending_of_record hpel₃ (by rw [h₃.nackHeap, h₂.cell, update_self]) hcons (by rw [ho₃.names.nameOf, hb])

/-! ### Delivery -/

theorem streamDeliver_spec (hb : cg.consumerHeap.cell b = some c) (id : StreamID) (now : Int) :
    ∃ cg' n, streamDeliver cg b id now = .ok (cg', n) ∧ Inv cg' ∧ SameNames cg cg' ∧ cg'.pel.lookup id = some n ∧
      ∀ name, cg.nameOf b = some name → cg'.map = ⟨cg.lastId, update cg.pending id (some ⟨name, now, 1⟩)⟩ := by
  obtain ⟨hn₀, hw₁⟩ := createNACK_spec cg (some b) now
  obtain ⟨⟨cg₁, n₀⟩, hcr⟩ : ∃ r, r = cg.createNACK (some b) now := ⟨_, rfl⟩
  rw [← hcr] at hn₀ hw₁
  subst hn₀
  have hfree : ∀ j, cg.pel.lookup j ≠ some cg.nackHeap.next := h.ne_of_free cg.nackHeap.cell_next
  have ho₁ : OnlyAt id cg cg₁ := hw₁.onlyAt fun j _ => hfree j
  unfold streamDeliver
  rw [← hcr]
  dsimp only
  rw [hw₁.pel]
  cases hid : cg.pel.lookup id with
  | none =>
    -- a new record, which the consumer cannot have had
    have hnone : c.pel.lookup id = none := by
      have := h.owns_none hid b
      rwa [owns, hb, bind_some] at this
    have hb₂ : ({ cg₁ with pel := cg.pel.insert id cg.nackHeap.next } : StreamCG).consumerHeap.cell b = some c := by
      rw [← hb, ← hw₁.consumerHeap]
    obtain ⟨cg₃, hput, hw₃⟩ := putPel_spec hb₂ id cg.nackHeap.next
    have hw₂ : WroteNACK { cg with pel := cg.pel.insert id cg.nackHeap.next }
        { cg₁ with pel := cg.pel.insert id cg.nackHeap.next } cg.nackHeap.next (some ⟨now, 1, some b⟩) :=
      ⟨hw₁.lastId, rfl, hw₁.consumers, hw₁.consumerHeap, hw₁.cell⟩
    refine ⟨cg₃, cg.nackHeap.next, ?_, h.give (onlyAt_insert ..) (fun j _ => hfree j) (lookup_insert _)
      (fun d _ => h.owns_none hid d) hw₂ rfl hb₂ hw₃⟩
    simp only [isNone_none, if_true]
    rw [hb₂, deref_bind, hnone, hput]
    rfl
  | some n =>
    -- the record changes hands; the new one was only tried
    simp only [isNone_some, Bool.false_eq_true, if_false]
    have hne : n ≠ cg.nackHeap.next := fun he => hfree id (he ▸ hid)
    obtain ⟨nack, o, co, hnack, hcons, hco, howns⟩ := h.record hid
    have hb₁ : cg₁.consumerHeap.cell b = some c := by rw [hw₁.consumerHeap, hb]
    obtain ⟨cg₂, htry, ho₂, hn₂, hpel₂, howns₂⟩ : ∃ cg₂, (if (c.pel.lookup id).isNone = true then
        cg₁.putPel b id cg.nackHeap.next else .ok cg₁) = .ok cg₂ ∧ OnlyAt id cg₁ cg₂ ∧
        cg₂.nackHeap = cg₁.nackHeap ∧ cg₂.pel = cg.pel ∧ ∀ d, d ≠ b → cg₂.owns d id = cg.owns d id := by
      split
      · obtain ⟨cg₂, hput, hw₂⟩ := putPel_spec hb₁ id cg.nackHeap.next
        refine ⟨cg₂, hput, onlyAt_putPel hb₁ hw₂, hw₂.nackHeap, hw₂.pel.trans hw₁.pel, fun d hd => ?_⟩
        rw [hw₂.owns, update_of_ne hd, hw₁.owns]
      · exact ⟨cg₁, rfl, .refl id cg₁, rfl, hw₁.pel, fun d _ => by rw [hw₁.owns]⟩
    have hn₁ : cg₂.nackHeap.cell cg.nackHeap.next = some ⟨now, 1, some b⟩ := by
      rw [hn₂, hw₁.cell, update_self]
    obtain ⟨cg₃, hfreed, hw₃⟩ := freeNACK_spec hn₁
    have hnack₃ : cg₃.nackHeap.cell n = some nack := by
      rw [hw₃.cell, update_of_ne hne, hn₂, hw₁.cell, update_of_ne hne, hnack]
    have ho₃ : OnlyAt id cg cg₃ :=
      (ho₁.trans ho₂).trans (hw₃.onlyAt fun j _ => by rw [hpel₂]; exact hfree j)
    have hpel₃ : cg₃.pel.lookup id = some n := by rw [hw₃.pel, hpel₂, hid]
    obtain ⟨co₃, hco₃⟩ := ho₃.names.exists_cell hco
    obtain ⟨cg₄, hdel, hw₄⟩ := delPel_spec hco₃ id
    have hothers : ∀ d, d ≠ b → cg₄.owns d id = none := by
      refine fun d hd => hw₄.owns_erased (lookup_erase ..) fun hdo => ?_
      rw [hw₃.owns, howns₂ d hd, h.owns_ne howns hdo]
    have hnack₄ : cg₄.nackHeap.cell n = some nack := by rw [hw₄.nackHeap, hnack₃]
    obtain ⟨cg₅, hset, hw₅⟩ := setNACK_spec hnack₄ fun _ => ⟨now, 1, some b⟩
    have ho₄ := ho₃.trans (onlyAt_delPel hco₃ hw₄)
    obtain ⟨c₅, hc₅⟩ := (ho₄.names.trans hw₅.sameNames).exists_cell hb
    obtain ⟨cg₆, hput, hw₆⟩ := putPel_spec hc₅ id n
    refine ⟨cg₆, n, ?_, h.give ho₄ (h.ne_of_ne hid) (by rw [hw₄.pel, hpel₃]) hothers hw₅ rfl hc₅ hw₆⟩
    rw [hb₁, deref_bind, htry, ok_bind, if_pos (by rfl), hfreed, ok_bind, hpel₃, deref_bind, hnack₃,
      deref_bind, hcons, deref_bind, hdel, ok_bind, hset, ok_bind, hput, ok_bind]

theorem Inv.setLastId (id : StreamID) : Inv { cg with lastId := id } := ⟨h.listed, h.named, h.twin⟩

theorem streamPropagateXCLAIM_spec (hn : cg.pel.lookup id = some n) : ∃ p, streamPropagateXCLAIM cg id n = .ok p := by
  obtain ⟨nack, b, c, hnack, hcons, hc, -⟩ := h.record hn
  rw [streamPropagateXCLAIM, hnack, deref_bind, hcons, deref_bind, hc]
  exact ⟨_, rfl⟩

end

def Serves (b : Nat) (cg : StreamCG) : Prop := Inv cg ∧ ∃ c, cg.consumerHeap.cell b = some c

theorem Serves.of_sameNames (h : Serves b cg) (h' : Inv cg') (hs : SameNames cg cg') : Serves b cg' := by
  obtain ⟨-, c, hc⟩ := h
  obtain ⟨c', hc'⟩ := hs.exists_cell hc
  exact ⟨h', c', hc'⟩

theorem streamPropagateXCLAIM_eq {p : Pending} (hn : cg.pel.lookup id = some n) (hp : cg.pending id = some p) :
    streamPropagateXCLAIM cg id n = .ok (.xclaim p.owner id p.time p.count cg.lastId) := by
  rw [pending, hn, bind_some] at hp
  obtain ⟨nack, hnack, hp⟩ := bind_eq_some_iff.1 hp
  obtain ⟨b, hcons, hp⟩ := bind_eq_some_iff.1 hp
  obtain ⟨name, hname, hp⟩ := bind_eq_some_iff.1 hp
  obtain ⟨c, hc, rfl⟩ := map_eq_some_iff.1 hname
  cases hp
  rw [streamPropagateXCLAIM, hnack, deref_bind, hcons, deref_bind, hc, deref_bind]

theorem groupEntry_spec (noack : Bool) (h : Serves b g.cg) (hb : g.cg.nameOf b = some name) (id : StreamID)
    (now : Int) : ∃ g', groupEntry noack b now id g = .ok g' ∧ (Serves b g'.cg ∧ g'.cg.nameOf b = some name) ∧
      g'.view = readEntry noack name now g.view id := by
  obtain ⟨g₁, hg₁, hs₁, hb₁, hmap, hflag, hprop⟩ : ∃ g₁, g₁ = (if streamCompareID id g.cg.lastId > 0 then
      { g with cg := { g.cg with lastId := id }, propagateLastId := true } else g) ∧ Serves b g₁.cg ∧
      g₁.cg.nameOf b = some name ∧ g₁.cg.map = ⟨laterID g.cg.lastId id, g.cg.pending⟩ ∧
      g₁.propagateLastId = (g.propagateLastId || decide (g.cg.lastId < id)) ∧ g₁.propagated = g.propagated := by
    refine ⟨_, rfl, ?_⟩
    by_cases hlt : g.cg.lastId < id
    · rw [if_pos (streamCompareID_pos.2 hlt), laterID, if_pos hlt, decide_eq_true hlt, Bool.or_true]
      exact ⟨⟨h.1.setLastId id, h.2⟩, hb, rfl, rfl, rfl⟩
    · rw [if_neg (mt streamCompareID_pos.1 hlt), laterID, if_neg hlt, decide_eq_false hlt, Bool.or_false]
      exact ⟨h, hb, rfl, rfl, rfl⟩
  have hlast : g₁.cg.lastId = laterID g.cg.lastId id := congrArg GroupMap.lastId hmap
  have hpend : g₁.cg.pending = g.cg.pending := congrArg GroupMap.pending hmap
  unfold groupEntry
  rw [← hg₁]
  cases noack with
  | false =>
    obtain ⟨c, hc⟩ := hs₁.2
    obtain ⟨cg', n, hdel, hI, hnames, hn, hmap'⟩ := streamDeliver_spec hs₁.1 hc id now
    replace hmap' := hmap' name hb₁
    have hown : cg'.pending id = some ⟨name, now, 1⟩ :=
      (congrFun (congrArg GroupMap.pending hmap') id).trans (update_self ..)
    have hlast' : cg'.lastId = laterID g.cg.lastId id := (congrArg GroupMap.lastId hmap').trans hlast
    refine ⟨⟨cg', g₁.propagateLastId, g₁.propagated ++ [.xclaim name id now 1 cg'.lastId]⟩, ?_,
      ⟨hs₁.of_sameNames hI hnames, by rw [hnames.nameOf, hb₁]⟩, ?_⟩
    · rw [Bool.not_false, if_pos rfl, hdel, ok_bind]
      dsimp only
      rw [streamPropagateXCLAIM_eq hn hown, ok_bind]
    · rw [GroupRead.view, hmap', hlast', hlast, hpend, hflag, hprop]
      rfl
  | true =>
    have hread : readEntry true name now g.view id = ⟨g₁.cg.map, g₁.propagateLastId,
        g₁.propagated ++ if g₁.propagateLastId then [.setid g₁.cg.lastId] else []⟩ := by
      rw [hmap, hflag, hlast, hprop]
      rfl
    rw [hread, if_neg (by decide)]
    split
    · exact ⟨_, rfl, ⟨hs₁, hb₁⟩, rfl⟩
    · exact ⟨g₁, rfl, ⟨hs₁, hb₁⟩, by rw [append_nil]; rfl⟩

theorem Serves.nameOf (h : Serves b cg) : ∃ name, cg.nameOf b = some name := by
  obtain ⟨-, c, hc⟩ := h
  exact ⟨c.name, by rw [StreamCG.nameOf, hc, map_some]⟩

theorem groupEntry_safe (noack : Bool) (h : Serves b g.cg) (id : StreamID) (now : Int) :
    Safe (fun g' => Serves b g'.cg) (groupEntry noack b now id g) := by
  obtain ⟨name, hb⟩ := h.nameOf
  obtain ⟨g', hg', h', -⟩ := groupEntry_spec noack h hb id now
  rw [hg']
  exact h'.1

theorem streamRangeLoop_safe {σ : Type} {f : StreamID → σ → Except Crash σ} {P : σ → Prop} {count fuel : Nat}
    {si : StreamIterator} {st : σ} {out : List Emitted} (hf : ∀ id st, P st → Safe P (f id st)) (hst : P st) :
    Safe (fun r => P r.1) (streamRangeLoop f count fuel si st out) := by
  induction fuel generalizing si st out with
  | zero => rfl
  | succ fuel ih =>
    refine (safe_ofEntries _).bind fun r _ => ?_
    obtain ⟨si, r⟩ := r
    rcases r with - | r
    · exact hst
    refine (safe_ofEntries _).bind fun r _ => (hf _ st hst).bind fun st hst => ?_
    dsimp only
    split
    · exact hst
    · exact ih hst

theorem streamEmitEntry_safe (s : Stream) (id : StreamID) : Safe (fun _ => True) (streamEmitEntry s id) := by
  refine (streamRangeLoop_safe (P := fun _ => True) (fun _ _ _ => ?_) trivial).bind fun _ _ => ?_
  · exact trivial
  · exact trivial

/-! ### History -/

theorem mem_walk {pel : Pel} {e : StreamID × Nat} : e ∈ pel.walk ↔ pel.lookup e.1 = some e.2 := by
  rw [Pel.walk, mem_insertionSort, ← mem_def, mem_lookup_iff]
  constructor
  · intro h
    obtain ⟨⟨k, v⟩, hm, rfl⟩ := mem_map.1 h
    exact hm
  · intro h
    exact mem_map.2 ⟨⟨e.1, e.2⟩, h, rfl⟩

theorem walk_keys_nodup (pel : Pel) : (pel.walk.map Prod.fst).Nodup := by
  have hperm : (pel.walk.map Prod.fst).Perm pel.keys := by
    rw [show pel.keys = (pel.entries.map fun e => (e.1, e.2)).map Prod.fst by
      rw [List.map_map]; rfl]
    exact (perm_insertionSort _ _).map _
  exact hperm.nodup_iff.2 pel.keys_nodup

theorem streamHistoryLoop_safe (h : Inv cg) (hl : ∀ e ∈ l, ∃ nack, cg.nackHeap.cell e.2 = some nack) :
    Safe (fun r => Inv r.1 ∧ SameNames cg r.1) (streamHistoryLoop s now l cg out) := by
  induction l generalizing cg out with
  | nil => exact ⟨h, .refl cg⟩
  | cons e l ih =>
    obtain ⟨id, n⟩ := e
    have hl' := fun e he => hl e (.tail _ he)
    refine (streamEmitEntry_safe s id).bind fun e _ => ?_
    rcases e with - | e
    · exact ih h hl'
    obtain ⟨nack, hn⟩ := hl (id, n) (.head _)
    obtain ⟨cg', hset, hw⟩ := setNACK_spec hn
      fun nack => { nack with deliveryTime := now, deliveryCount := nack.deliveryCount + 1 }
    dsimp only
    rw [hset]
    refine (ih (h.touch hw hn rfl) fun e he => ?_).imp fun r hr => ⟨hr.1, hw.sameNames.trans hr.2⟩
    rw [hw.cell]
    by_cases hen : e.2 = n
    · rw [hen, update_self]
      exact ⟨_, rfl⟩
    · rw [update_of_ne hen]
      exact hl' e he

theorem streamReplyWithRangeFromConsumerPEL_safe {start : StreamID} {count : Nat} (h : Serves b cg) :
    Safe (fun r => Inv r.1) (streamReplyWithRangeFromConsumerPEL s cg b start count now) := by
  obtain ⟨hI, c, hc⟩ := h
  rw [streamReplyWithRangeFromConsumerPEL, hc]
  refine (streamHistoryLoop_safe hI fun e he => ?_).imp fun r hr => hr.1
  have hmem : e ∈ c.pel.walk := by
    split at he
    · exact mem_of_mem_filter he
    · exact mem_of_mem_filter (mem_of_mem_take he)
  have hown : cg.owns b e.1 = some e.2 := by
    rw [owns, hc]
    exact mem_walk.1 hmem
  obtain ⟨nack, -, -, hnack, -⟩ := hI.record (hI.twin.up b e.1 e.2 hown).1
  exact ⟨nack, hnack⟩

/-! ### Consumers -/

theorem Inv.seen (h : Inv cg) (hc : cg.consumerHeap.cell b = some c) (hw : WroteConsumer cg cg' b c')
    (hname : c'.name = c.name) (hpel : c'.pel = c.pel) : Inv cg' := by
  refine h.of_sameNames (hw.sameNames hc hname) ?_
  have howns : cg'.owns = cg.owns := by
    rw [hw.owns, update_eq_self_iff, hpel]
    funext j
    rw [owns, hc, bind_some]
  rw [hw.pel, hw.ownerOf, howns]
  exact h.twin

theorem Inv.newConsumer (h : Inv cg) (hname : cg.consumers.lookup name = none) (now : Int) : Inv { cg with
      consumerHeap := (cg.consumerHeap.alloc ⟨now, name, ∅⟩).1
      consumers := cg.consumers.insert name cg.consumerHeap.next } := by
  obtain ⟨hn, ht⟩ := inv_iff.1 h
  refine inv_iff.2 ⟨fun name' d => ?_, ?_⟩
  · have hfree : cg.nameOf cg.consumerHeap.next = none := by
      rw [nameOf, Heap.cell_next]
      rfl
    rw [nameOf, Heap.alloc_cell]
    by_cases hd : d = cg.consumerHeap.next
    · rw [hd, update_self]
      by_cases hname' : name' = name
      · subst hname'
        simp
      · simp [lookup_insert_ne hname', hn, hfree, Ne.symm hname']
    · rw [update_of_ne hd]
      by_cases hname' : name' = name
      · subst hname'
        rw [lookup_insert, ← nameOf, ← hn, hname]
        simp [Ne.symm hd]
      · rw [lookup_insert_ne hname', hn, nameOf]
  · rw [owns_update cg (Heap.alloc_cell ..), update_eq_self_iff.2]
    · exact ht
    · funext j
      rw [owns, Heap.cell_next]
      rfl

theorem Inv.map_congr (h : Inv cg) (hlast : cg'.lastId = cg.lastId) (hpel : cg'.pel = cg.pel)
    (hheap : cg'.nackHeap = cg.nackHeap) (hname : ∀ d c, cg.consumerHeap.cell d = some c → cg'.nameOf d = cg.nameOf d) :
    cg'.map = cg.map := by
  have hpend : cg'.pending = cg.pending := by
    funext j
    rw [pending, pending, hpel]
    cases hj : cg.pel.lookup j with
    | none => rfl
    | some m =>
      obtain ⟨nack, d, c, hnack, hcons, hc, -⟩ := h.record hj
      simp [readNACK, hheap, hnack, hcons, hname d c hc]
  rw [map, hlast, hpend, map]

def consumerPel (cg : StreamCG) (name : List UInt8) : Pel :=
  ((cg.consumers.lookup name).bind cg.consumerHeap.cell).elim ∅ StreamConsumer.pel

theorem streamLookupConsumer_spec (h : Inv cg) (name : List UInt8) (create : Bool) (now : Int) :
    ∃ cg' r, streamLookupConsumer cg name create now = .ok (cg', r) ∧ Inv cg' ∧ cg'.map = cg.map ∧
      (r = none → create = false ∧ cg.consumers.lookup name = none) ∧
      ∀ b, r = some b → cg'.consumers.lookup name = some b ∧
        ∃ c, cg'.consumerHeap.cell b = some c ∧ c.name = name ∧ c.pel = cg.consumerPel name := by
  unfold streamLookupConsumer consumerPel
  cases hname : cg.consumers.lookup name with
  | none =>
    rcases create with - | -
    · exact ⟨cg, none, rfl, h, rfl, fun _ => ⟨rfl, rfl⟩, fun b hb => (by cases hb)⟩
    refine ⟨_, _, rfl, h.newConsumer hname now, h.map_congr rfl rfl rfl fun d c hc => ?_, fun hr => (by cases hr),
      fun b hb => ?_⟩
    · show ((update cg.consumerHeap.cell cg.consumerHeap.next _) d).map _ = _
      rw [update_of_ne (Heap.ne_next hc)]
      rfl
    · cases hb
      exact ⟨lookup_insert _, _, update_self .., rfl, rfl⟩
  | some b =>
    obtain ⟨c, hc, hcn⟩ := h.listed name b hname
    obtain ⟨heap, hm, hcell⟩ := Heap.modify_of_some hc
    dsimp only
    rw [hm]
    have hw : WroteConsumer cg { cg with consumerHeap := heap } b { c with seenTime := now } := ⟨rfl, rfl, rfl, rfl, hcell⟩
    refine ⟨_, _, rfl, h.seen hc hw rfl rfl, h.map_congr rfl rfl rfl fun d _ _ => (hw.sameNames hc rfl).names d,
      fun hr => (by cases hr), fun d hd => ?_⟩
    cases hd
    refine ⟨hname, { c with seenTime := now }, ?_, hcn, by rw [bind_some, hc]; rfl⟩
    exact (congrFun hcell b).trans (update_self ..)

theorem streamLookupConsumer_serves (h : Inv cg) (name : List UInt8) (now : Int) :
    ∃ cg' b, streamLookupConsumer cg name true now = .ok (cg', some b) ∧ Serves b cg' ∧ cg'.nameOf b = some name ∧
      cg'.map = cg.map ∧ ∃ c, cg'.consumerHeap.cell b = some c ∧ c.pel = cg.consumerPel name := by
  obtain ⟨cg', r, hres, hI, hmap, hnone, hr⟩ := streamLookupConsumer_spec h name true now
  cases r with
  | none => cases (hnone rfl).1
  | some b =>
    obtain ⟨-, c, hc, hcn, hpel⟩ := hr b rfl
    exact ⟨cg', b, hres, ⟨hI, c, hc⟩, by rw [nameOf, hc, map_some, hcn], hmap, c, hc, hpel⟩

theorem streamDelPending_spec (hnd : (l.map Prod.fst).Nodup)
    (hinj : ∀ i j m, cg.pel.lookup i = some m → cg.pel.lookup j = some m → i = j)
    (hl : ∀ e ∈ l, cg.pel.lookup e.1 = some e.2 ∧ ∃ nack, cg.nackHeap.cell e.2 = some nack) :
    ∃ cg', streamDelPending l cg = .ok cg' ∧ cg'.lastId = cg.lastId ∧ cg'.consumers = cg.consumers ∧
      cg'.consumerHeap = cg.consumerHeap ∧ (∀ j, j ∈ l.map Prod.fst → cg'.pel.lookup j = none) ∧
      (∀ j, j ∉ l.map Prod.fst → cg'.pel.lookup j = cg.pel.lookup j) ∧
      (∀ m, m ∉ l.map Prod.snd → cg'.nackHeap.cell m = cg.nackHeap.cell m) := by
  induction l generalizing cg with
  | nil => exact ⟨cg, rfl, rfl, rfl, rfl, by simp, fun _ _ => rfl, fun _ _ => rfl⟩
  | cons e l ih =>
    obtain ⟨id, n⟩ := e
    rw [map_cons, nodup_cons] at hnd
    obtain ⟨hid, nack, hnack⟩ := hl (id, n) (.head _)
    obtain ⟨cg₁, hfree, hw⟩ := freeNACK_spec (show ({ cg with pel := cg.pel.erase id } : StreamCG).nackHeap.cell n = _ from hnack)
    have hpel : ∀ j, j ≠ id → cg₁.pel.lookup j = cg.pel.lookup j := by
      intro j hj
      rw [hw.pel]
      exact lookup_erase_ne hj
    have hgone : cg₁.pel.lookup id = none := by
      rw [hw.pel]
      exact lookup_erase ..
    have hback : ∀ j m, cg₁.pel.lookup j = some m → cg.pel.lookup j = some m := by
      intro j m hj
      by_cases hji : j = id
      · rw [hji, hgone] at hj
        cases hj
      · rwa [hpel j hji] at hj
    have hl' : ∀ e ∈ l, cg₁.pel.lookup e.1 = some e.2 ∧ ∃ nack, cg₁.nackHeap.cell e.2 = some nack := by
      intro e he
      obtain ⟨hle, nack', hnack'⟩ := hl e (.tail _ he)
      have hne : e.1 ≠ id := fun heq => hnd.1 (mem_map.2 ⟨e, he, heq⟩)
      refine ⟨by rw [hpel e.1 hne, hle], nack', ?_⟩
      rw [hw.cell, update_of_ne]
      · exact hnack'
      · intro hen
        exact hne (hinj e.1 id n (hen ▸ hle) hid)
    obtain ⟨cg', hrest, hlast, hcons, hheap, hin, hout, hcell⟩ :=
      ih hnd.2 (fun i j m hi hj => hinj i j m (hback i m hi) (hback j m hj)) hl'
    refine ⟨cg', ?_, hlast.trans hw.lastId, hcons.trans hw.consumers, hheap.trans hw.consumerHeap, fun j hj => ?_,
      fun j hj => ?_, fun m hm => ?_⟩
    · rw [streamDelPending, hfree, ok_bind, hrest]
    · by_cases hjl : j ∈ l.map Prod.fst
      · exact hin j hjl
      · rcases mem_cons.1 hj with rfl | hj
        · rw [hout _ hjl, hgone]
        · exact absurd hj hjl
    · rw [map_cons, mem_cons, not_or] at hj
      rw [hout j hj.2, hpel j hj.1]
    · rw [map_cons, mem_cons, not_or] at hm
      rw [hcell m hm.2, hw.cell, update_of_ne hm.1]

theorem streamDelConsumer_spec (h : Inv cg) (name : List UInt8) (now : Int) :
    ∃ cg' k, streamDelConsumer cg name now = .ok (cg', k) ∧ Inv cg' ∧
      cg'.map = ⟨cg.lastId, fun j => (cg.pending j).filter fun p => decide (p.owner ≠ name)⟩ := by
  obtain ⟨cg₁, r, hlook, h₁, hmap, hnone, hr⟩ := streamLookupConsumer_spec h name false now
  have hlast₁ : cg₁.lastId = cg.lastId := congrArg GroupMap.lastId hmap
  have hpend₁ : cg₁.pending = cg.pending := congrArg GroupMap.pending hmap
  rw [streamDelConsumer, hlook, ok_bind]
  cases r with
  | none =>
    -- nobody has that name
    refine ⟨cg₁, 0, rfl, h₁, ?_⟩
    rw [map, hlast₁, hpend₁]
    refine congrArg (GroupMap.mk cg.lastId) (funext fun j => ?_)
    rcases hj : cg.pel.lookup j with - | m
    · rw [pending_of_none hj, filter_none]
    obtain ⟨nack, b, c, -, -, -, -, hlisted, hp⟩ := h.pending_record hj
    rw [hp, filter_some, if_pos]
    refine decide_eq_true fun (hcn : c.name = name) => ?_
    rw [hcn, (hnone rfl).2] at hlisted
    cases hlisted
  | some b =>
    obtain ⟨hname, c, hc, hcn, -⟩ := hr b rfl
    have hown : ∀ j, cg₁.owns b j = c.pel.lookup j := fun j => by rw [owns, hc, bind_some]
    have hl : ∀ e ∈ c.pel.walk, cg₁.pel.lookup e.1 = some e.2 ∧ cg₁.ownerOf e.2 = some b :=
      fun e he => h₁.twin.up b e.1 e.2 ((hown e.1).trans (mem_walk.1 he))
    obtain ⟨cg₂, hdel, hlast, hcons, hheap, hin, hout, hcell⟩ := streamDelPending_spec (walk_keys_nodup c.pel) h₁.twin.inj
      fun e he => by
        obtain ⟨nack, -, -, hnack, -⟩ := h₁.record (hl e he).1
        exact ⟨(hl e he).1, nack, hnack⟩
    obtain ⟨heap, hfree, hfcell⟩ := Heap.free_of_some (show cg₂.consumerHeap.cell b = some c by rw [hheap, hc])
    dsimp only
    rw [hc, deref_bind, hdel, ok_bind, hfree]
    rw [hheap] at hfcell
    have hkeys : ∀ j, j ∈ c.pel.walk.map Prod.fst ↔ (cg₁.owns b j).isSome = true := by
      intro j
      rw [hown, isSome_iff_exists]
      constructor
      · intro hj
        obtain ⟨e, he, rfl⟩ := mem_map.1 hj
        exact ⟨e.2, mem_walk.1 he⟩
      · rintro ⟨m, hm⟩
        exact mem_map.2 ⟨(j, m), mem_walk.2 hm, rfl⟩
    have hrec : ∀ m, cg₁.ownerOf m ≠ some b → cg₂.nackHeap.cell m = cg₁.nackHeap.cell m := by
      intro m hm
      refine hcell m fun hmem => ?_
      obtain ⟨e, he, rfl⟩ := mem_map.1 hmem
      exact hm (hl e he).2
    obtain ⟨hn₁, ht₁⟩ := inv_iff.1 h₁
    have hnameb : cg₁.nameOf b = some name := (hn₁ name b).1 hname
    refine ⟨_, _, rfl, inv_iff.2 ⟨fun name' d => ?_, ?_⟩, ?_⟩
    · rw [hcons, nameOf, hfcell]
      by_cases hd : d = b
      · rw [hd, update_self]
        by_cases hn : name' = name
        · subst hn
          simp
        · simp [lookup_erase_ne hn, hn₁, hnameb, Ne.symm hn]
      · rw [update_of_ne hd]
        by_cases hn : name' = name
        · subst hn
          rw [lookup_erase, ← nameOf, ← hn₁, hname]
          simp [Ne.symm hd]
        · rw [lookup_erase_ne hn, hn₁, nameOf]
    · rw [owns_update cg₁ hfcell]
      refine ht₁.dropOwner b (fun j hj => hin j ((hkeys j).2 hj)) (fun j hj => ?_) (fun m hm => ?_)
        (fun j => by rw [update_self]; rfl) fun d hd => update_of_ne hd ..
      · refine hout j fun hmem => ?_
        rw [hkeys, hj] at hmem
        cases hmem
      · change (cg₂.nackHeap.cell m).bind _ = _
        rw [hrec m hm]
        rfl
    · refine congr (congrArg GroupMap.mk (hlast.trans hlast₁)) (funext fun j => ?_)
      rw [← hpend₁]
      cases hj : cg₁.pel.lookup j with
      | none =>
        rw [pending_of_none hj]
        refine pending_of_none ((hout j fun hmem => ?_).trans hj)
        rw [hkeys, h₁.owns_none hj] at hmem
        cases hmem
      | some m =>
        obtain ⟨nack, d, c', hnack, hcons', hc', howns', hlisted, hp⟩ := h₁.pending_record hj
        have howner : cg₁.ownerOf m = some d := by rw [ownerOf, hnack, bind_some, hcons']
        rw [hp, filter_some]
        by_cases hdb : d = b
        · -- an entry of the consumer that goes
          subst hdb
          obtain rfl : c' = c := some.inj (hc'.symm.trans hc)
          rw [if_neg (by simp [hcn])]
          exact pending_of_none (hin j ((hkeys j).2 (by rw [howns']; rfl)))
        · have hne : c'.name ≠ name := fun hn => by
            rw [hn, hname] at hlisted
            exact hdb (some.inj hlisted).symm
          have hkey : j ∉ c.pel.walk.map Prod.fst := by
            rw [hkeys, h₁.owns_ne howns' (Ne.symm hdb)]
            simp
          rw [if_pos (decide_eq_true hne)]
          refine pending_of_record ((hout j hkey).trans hj) ((hrec m ?_).trans hnack) hcons' ?_
          · rw [howner]
            exact fun hd => hdb (some.inj hd)
          · change (heap.cell d).map _ = _
            rw [hfcell, update_of_ne hdb, hc', map_some]

/-! ### Acknowledgement -/

theorem ack_spec (h : Inv cg) (hid : cg.pel.lookup id = some n) :
    ∃ nack b cg₂ cg₃, cg.nackHeap.cell n = some nack ∧ nack.consumer = some b ∧
      delPel { cg with pel := cg.pel.erase id } b id = .ok cg₂ ∧ cg₂.freeNACK n = .ok cg₃ ∧ Inv cg₃ ∧
      cg₃.map = ⟨cg.lastId, update cg.pending id none⟩ := by
  obtain ⟨nack, b, c, hnack, hcons, hc, howns⟩ := h.record hid
  have hc₁ : ({ cg with pel := cg.pel.erase id } : StreamCG).consumerHeap.cell b = some c := hc
  obtain ⟨cg₂, hdel, hw₂⟩ := delPel_spec hc₁ id
  obtain ⟨cg₃, hfree, hw₃⟩ := freeNACK_spec (show cg₂.nackHeap.cell n = some nack by rw [hw₂.nackHeap]; exact hnack)
  have ho₂ := (onlyAt_erase cg id).trans (onlyAt_delPel hc₁ hw₂)
  have ho₃ : OnlyAt id cg cg₃ := ho₂.trans (hw₃.onlyAt fun j hj => by
    rw [ho₂.pel j hj]
    exact h.ne_of_ne hid j hj)
  have hgone : cg₃.pel.lookup id = none := by
    rw [hw₃.pel, hw₂.pel]
    exact lookup_erase ..
  refine ⟨nack, b, cg₂, cg₃, hnack, hcons, hdel, hfree, h.drop ho₃ hgone fun d => ?_, ho₃.map_eq (pending_of_none hgone)⟩
  rw [hw₃.owns]
  exact hw₂.owns_erased (lookup_erase ..) fun hd => h.owns_ne howns hd

theorem xackLoop_spec (h : Inv cg) (ids : List (Option StreamID)) (k : Nat) :
    ∃ cg' r, xackLoop ids cg k = .ok (cg', r) ∧ Inv cg' ∧ cg'.lastId = cg.lastId ∧
      ∀ j, cg'.pending j = if some j ∈ ids.takeWhile isSome then none else cg.pending j := by
  induction ids generalizing cg k with
  | nil => exact ⟨cg, _, rfl, h, rfl, fun j => by simp⟩
  | cons id ids ih =>
    rcases id with - | id
    · exact ⟨cg, _, rfl, h, rfl, fun j => by simp⟩
    rw [xackLoop]
    cases hid : cg.pel.lookup id with
    | none =>
      obtain ⟨cg', r, hrest, h', hlast, hp⟩ := ih h k
      refine ⟨cg', r, hrest, h', hlast, fun j => ?_⟩
      rw [hp j]
      by_cases hj : j = id
      · simp [hj, pending_of_none hid]
      · simp [hj]
    | some n =>
      obtain ⟨nack, b, cg₂, cg₃, hnack, hcons, hdel, hfree, h₃, hmap⟩ := ack_spec h hid
      obtain ⟨cg', r, hrest, h', hlast, hp⟩ := ih h₃ (k + 1)
      refine ⟨cg', r, ?_, h', hlast.trans (congrArg GroupMap.lastId hmap), fun j => ?_⟩
      · dsimp only
        rw [hnack, deref_bind, hcons, deref_bind, hdel, ok_bind, hfree, ok_bind, hrest]
      rw [hp j, show cg₃.pending = update cg.pending id none from congrArg GroupMap.pending hmap]
      by_cases hj : j = id
      · simp [hj]
      · simp [hj]

/-! ### Claims -/

/-- The record `n` of `id` in `cg'`: it was in the group `cg` already, or `FORCE` created it. -/
inductive Claimable (cg cg' : StreamCG) (id : StreamID) (n : Nat) : Prop
  | found : cg' = cg → cg.pel.lookup id = some n → Claimable cg cg' id n
  | forced {nack : StreamNACK} : OnlyAt id cg cg' → cg.pel.lookup id = none → (∀ j, cg.pel.lookup j ≠ some n) →
      cg'.pel.lookup id = some n → cg'.owns = cg.owns → cg'.nackHeap.cell n = some nack → nack.consumer = none →
      Claimable cg cg' id n

theorem xclaimFind_safe (h : Inv cg) (s : Stream) (force : Bool) (id : StreamID) (now : Int) :
    Safe (fun r => r = (cg, none) ∨ ∃ cg' n, r = (cg', some n) ∧ Claimable cg cg' id n)
      (xclaimFind s cg force id now) := by
  unfold xclaimFind
  cases hid : cg.pel.lookup id with
  | some n => exact .inr ⟨cg, n, rfl, .found rfl hid⟩
  | none =>
    dsimp only
    split
    · exact .inl rfl
    refine (safe_ofEntries _).bind fun r _ => ?_
    split
    · exact .inl rfl
    obtain ⟨-, hw⟩ := createNACK_spec cg none now
    have hfree : ∀ j, cg.pel.lookup j ≠ some cg.nackHeap.next := h.ne_of_free cg.nackHeap.cell_next
    refine .inr ⟨_, _, rfl, .forced ((hw.onlyAt fun j _ => hfree j).trans (onlyAt_insert ..)) hid hfree
      (lookup_insert _) hw.owns (update_self ..) rfl⟩

theorem Claimable.exists_cell (h : Inv cg) (hcl : Claimable cg cg' id n) :
    ∃ nack, cg'.nackHeap.cell n = some nack ∧ (cg' = cg ∨ nack.consumer = none) := by
  cases hcl with
  | found heq hid =>
    obtain ⟨nack, -, -, hnack, -⟩ := h.record hid
    exact ⟨nack, heq ▸ hnack, .inl heq⟩
  | forced _ _ _ _ _ hnack hcons => exact ⟨_, hnack, .inr hcons⟩

theorem xclaimTake_spec {cg₁ : StreamCG} (h : Serves b cg) (hcl : Claimable cg cg₁ id n) (opts : ClaimOptions)
    (deliverytime : Int) :
    ∃ cg' nack, cg₁.nackHeap.cell n = some nack ∧ xclaimTake cg₁ b n id opts deliverytime = .ok cg' ∧ Serves b cg' ∧
      SameNames cg cg' ∧ cg'.pel.lookup id = some n ∧ ∀ name, cg.nameOf b = some name → cg'.map = ⟨cg.lastId,
        update cg.pending id (some ⟨name, deliverytime, claimedCount opts nack.deliveryCount⟩)⟩ := by
  obtain ⟨hI, c, hc⟩ := h
  -- the group once nobody but `b` has the entry
  obtain ⟨nack, cg₂, hnack, hout, hnack₂, ho, hids, hpel, hothers⟩ : ∃ nack cg₂, cg₁.nackHeap.cell n = some nack ∧
      cg₁.leaveConsumer id nack.consumer = .ok cg₂ ∧ cg₂.nackHeap.cell n = some nack ∧ OnlyAt id cg cg₂ ∧
      (∀ j, j ≠ id → cg.pel.lookup j ≠ some n) ∧ cg₂.pel.lookup id = some n ∧ ∀ d, d ≠ b → cg₂.owns d id = none := by
    cases hcl with
    | found heq hid =>
      subst heq
      obtain ⟨nack, o, co, hnack, hcons, hco, howns⟩ := hI.record hid
      obtain ⟨cg₂, hdel, hw⟩ := delPel_spec hco id
      refine ⟨nack, cg₂, hnack, by rw [hcons]; exact hdel, by rw [hw.nackHeap, hnack], onlyAt_delPel hco hw,
        hI.ne_of_ne hid, by rw [hw.pel, hid], fun d _ => hw.owns_erased (lookup_erase ..) fun hd => hI.owns_ne howns hd⟩
    | forced ho hnone hfree hid howns hnack hcons =>
      rename_i nack
      refine ⟨nack, cg₁, hnack, by rw [hcons]; rfl, hnack, ho, fun j _ => hfree j, hid, fun d _ => ?_⟩
      rw [howns, hI.owns_none hnone d]
  obtain ⟨cg₃, hset, hw₃⟩ := setNACK_spec hnack₂
    fun nack => ⟨deliverytime, claimedCount opts nack.deliveryCount, some b⟩
  obtain ⟨c₃, hc₃⟩ := (ho.names.trans hw₃.sameNames).exists_cell hc
  obtain ⟨cg', hput, hw'⟩ := putPel_spec hc₃ id n
  obtain ⟨hI', hs, hn, hmap⟩ := hI.give ho hids hpel hothers hw₃ rfl hc₃ hw'
  refine ⟨cg', nack, hnack, ?_, Serves.of_sameNames ⟨hI, c, hc⟩ hI' hs, hs, hn, hmap⟩
  rw [xclaimTake, hnack, deref_bind, hout, ok_bind, hset, ok_bind, hput]

theorem claimReply_safe (s : Stream) (id : StreamID) (justid : Bool) :
    Safe (fun _ => True) (claimReply s id justid) := by
  unfold claimReply
  split
  · trivial
  · exact (streamEmitEntry_safe s id).bind fun _ _ => trivial

theorem xclaimLoop_safe {minidle deliverytime : Int} {opts : ClaimOptions} {ids : List StreamID} (h : Serves b g.cg) :
    Safe (fun r => Inv r.1.cg) (xclaimLoop s b minidle opts deliverytime now ids g out) := by
  induction ids generalizing g out with
  | nil => exact h.1
  | cons id ids ih =>
    refine (xclaimFind_safe h.1 s opts.force id now).bind fun r hr => ?_
    rcases hr with rfl | ⟨cg', n, rfl, hcl⟩
    · exact ih h
    obtain ⟨nack, hnack, hold⟩ := hcl.exists_cell h.1
    dsimp only
    rw [hnack, deref_bind]
    split
    · -- only a record that was there already can be too young
      rename_i hidle
      rcases hold with heq | hcons
      · exact ih (heq ▸ h)
      · rw [hcons] at hidle
        cases hidle
    · obtain ⟨cg'', -, -, htake, hs, -, hn, -⟩ := xclaimTake_spec h hcl opts deliverytime
      obtain ⟨p, hp⟩ := streamPropagateXCLAIM_spec hs.1 hn
      rw [htake]
      refine (claimReply_safe s id opts.justid).bind fun item _ => ?_
      rw [hp]
      exact ih hs

end StreamCG

/-! ### Commands -/

open StreamCG

variable {cg : StreamCG}

theorem xclaimCommand_safe {s : Stream} {minidle : Int} {ids : List StreamID} {opts : ClaimOptions}
    {now : Int} (h : Inv cg) : Safe (fun r => Inv r.1) (xclaimCommand s cg consumer minidle ids opts now) := by
  unfold xclaimCommand
  dsimp only
  have h₁ : Inv (if decide (streamCompareID opts.lastId cg.lastId > 0) = true then
      { cg with lastId := opts.lastId } else cg) := by
    split
    · exact h.setLastId _
    · exact h
  obtain ⟨cg', b, hlook, hs, -⟩ := streamLookupConsumer_serves h₁ consumer now
  rw [hlook]
  exact (xclaimLoop_safe hs).bind fun r hr => hr

theorem xreadgroupCommand_safe {s : Stream} {count : Nat} {noack : Bool} {id : StreamID} {now : Int}
    (h : Inv cg) : Safe (fun r => Inv r.1) (xreadgroupCommand s cg consumer count noack id now) := by
  obtain ⟨cg', b, hlook, hs, -⟩ := streamLookupConsumer_serves h consumer now
  unfold xreadgroupCommand
  rw [hlook]
  split
  · rw [ok_bind]
    dsimp only
    exact (streamReplyWithRangeFromConsumerPEL_safe hs).bind fun r hr => hr
  split
  · rw [ok_bind]
    dsimp only
    exact (streamRangeLoop_safe
      (fun id g hg => groupEntry_safe noack hg id now) hs).bind fun r hr => hr.1
  · exact h

namespace GroupedStream
variable {gs : GroupedStream} {limits : StreamLimits}

def Inv (gs : GroupedStream) : Prop := ∀ group cg, gs.cgroups.lookup group = some cg → cg.Inv

theorem Inv.insert (h : gs.Inv) (group : List UInt8) (hcg : cg.Inv) :
    Inv { gs with cgroups := gs.cgroups.insert group cg } := by
  intro group' cg' hl
  by_cases hg : group' = group
  · subst hg
    rw [lookup_insert] at hl
    cases hl
    exact hcg
  · rw [lookup_insert_ne hg] at hl
    exact h group' cg' hl

theorem Inv.erase (h : gs.Inv) (group : List UInt8) : Inv { gs with cgroups := gs.cgroups.erase group } := by
  intro group' cg' hl
  by_cases hg : group' = group
  · subst hg
    rw [lookup_erase] at hl
    cases hl
  · rw [lookup_erase_ne hg] at hl
    exact h group' cg' hl

theorem withGroup_safe (h : gs.Inv) {group : List UInt8} {missing : GroupReply}
    {f : StreamCG → Except Crash (StreamCG × GroupReply × List Propagated)}
    (hf : ∀ cg, cg.Inv → Safe (fun r => r.1.Inv) (f cg)) : Safe (fun r => Inv r.1) (gs.withGroup group missing f) := by
  unfold withGroup
  cases hl : gs.cgroups.lookup group with
  | none => exact h
  | some cg => exact (hf cg (h group cg hl)).bind fun r hr => h.insert group hr

theorem createCG_inv (id : StreamID) : (streamCreateCG id).Inv :=
  ⟨nofun, nofun, nofun, nofun, nofun⟩

theorem exec_safe (h : gs.Inv) (limits : StreamLimits) (cmd : GroupCmd) : Safe (fun r => Inv r.1) (gs.exec limits cmd) := by
  cases cmd with
  | entries cmd => exact (safe_ofEntries _).bind fun r _ => h
  | create group id =>
    rw [exec]
    cases hl : gs.cgroups.lookup group with
    | none => exact h.insert group (createCG_inv _)
    | some cg => exact h
  | setid group id => exact withGroup_safe h fun cg hcg => hcg.setLastId _
  | destroy group =>
    rw [exec]
    cases hl : gs.cgroups.lookup group with
    | none => exact h
    | some cg => exact h.erase group
  | delconsumer group consumer now =>
    refine withGroup_safe h fun cg hcg => ?_
    obtain ⟨cg', k, hdel, hI, -⟩ := streamDelConsumer_spec hcg consumer now
    rw [hdel]
    exact hI
  | xreadgroup group consumer count noack id now => exact withGroup_safe h fun cg hcg => xreadgroupCommand_safe hcg
  | xack group ids =>
    refine withGroup_safe h fun cg hcg => ?_
    obtain ⟨cg', r, hack, hI, -⟩ := xackLoop_spec hcg ids 0
    rw [hack]
    exact hI
  | xclaim group consumer minidle ids opts now => exact withGroup_safe h fun cg hcg => xclaimCommand_safe hcg

theorem reachable_inv (h : (machine limits).Reachable gs) : gs.Inv := by
  refine h.inv (fun _ _ hl => ?_) fun hI hs => (exec_safe hI limits _).of_toOption hs
  cases hl

end GroupedStream

namespace StreamCG

def consumerNamed (cg : StreamCG) (name : List UInt8) : Option StreamConsumer :=
  (cg.consumers.lookup name).bind cg.consumerHeap.cell

/-- The pending entries of a group and of its consumers: an ID is pending in the group if and only if
it is with exactly one consumer, the record is the same one, and it points back to that consumer. -/
structure PelsAgree (cg : StreamCG) : Prop where
  one : ∀ id, id ∈ cg.pel ↔ ∃! name, ∃ c, cg.consumerNamed name = some c ∧ id ∈ c.pel
  same : ∀ id name c n, cg.consumerNamed name = some c → c.pel.lookup id = some n →
    cg.pel.lookup id = some n ∧ ∃ nack, cg.nackHeap.cell n = some nack ∧ nack.consumer = cg.consumers.lookup name

theorem mem_pel_iff {pel : Pel} {id : StreamID} : id ∈ pel ↔ ∃ n, pel.lookup id = some n :=
  lookup_isSome.symm.trans isSome_iff_exists

theorem Inv.pelsAgree (h : Inv cg) : PelsAgree cg := by
  have hnamed : ∀ name c, cg.consumerNamed name = some c ↔
      ∃ b, cg.consumers.lookup name = some b ∧ cg.consumerHeap.cell b = some c :=
    fun name c => bind_eq_some_iff
  have hown : ∀ b c id n, cg.consumerHeap.cell b = some c → c.pel.lookup id = some n → cg.owns b id = some n := by
    intro b c id n hc hn
    rw [owns, hc, bind_some, hn]
  refine ⟨fun id => ⟨fun hid => ?_, fun hex => ?_⟩, fun id name c n hc hn => ?_⟩
  · obtain ⟨n, hn⟩ := mem_pel_iff.1 hid
    obtain ⟨-, b, c, -, -, hc, howns⟩ := h.record hn
    have hpel : c.pel.lookup id = some n := by rwa [owns, hc, bind_some] at howns
    refine ⟨c.name, ⟨c, (hnamed _ _).2 ⟨b, h.named b c hc, hc⟩, mem_pel_iff.2 ⟨n, hpel⟩⟩, ?_⟩
    rintro name ⟨c', hc', hmem⟩
    obtain ⟨b', hb', hc'⟩ := (hnamed _ _).1 hc'
    obtain ⟨n', hn'⟩ := mem_pel_iff.1 hmem
    obtain rfl := h.twin.unique (hown b' c' id n' hc' hn') howns
    obtain ⟨c'', hc'', hname⟩ := h.listed name b' hb'
    rw [hc] at hc''
    cases hc''
    exact hname.symm
  · obtain ⟨name, ⟨c, hc, hmem⟩, -⟩ := hex
    obtain ⟨b, -, hc⟩ := (hnamed _ _).1 hc
    obtain ⟨n, hn⟩ := mem_pel_iff.1 hmem
    exact mem_pel_iff.2 ⟨n, (h.twin.up b id n (hown b c id n hc hn)).1⟩
  · obtain ⟨b, hb, hc⟩ := (hnamed _ _).1 hc
    obtain ⟨hpel, howner⟩ := h.twin.up b id n (hown b c id n hc hn)
    obtain ⟨nack, hnack, hcons⟩ := bind_eq_some_iff.1 howner
    exact ⟨hpel, nack, hnack, hcons.trans hb.symm⟩

end StreamCG

/-- In every state that commands lead to, the pending lists of each group agree, and no command can
reach the panic or a bad pointer. -/
theorem group_pels_agree (limits : StreamLimits) (cmds : List GroupCmd) {gs : GroupedStream}
    {rs : List (GroupReply × List Propagated)}
    (h : (GroupedStream.machine limits).run cmds (GroupedStream.machine limits).init = some (gs, rs)) :
    (∀ group cg, gs.cgroups.lookup group = some cg → cg.PelsAgree) ∧
      ∀ cmd, gs.exec limits cmd ≠ .error .halfCreated ∧ gs.exec limits cmd ≠ .error .pointer := by
  have hI := GroupedStream.reachable_inv (Machine.Reachable.init.of_run h)
  refine ⟨fun group cg hl => (hI group cg hl).pelsAgree, fun cmd => ?_⟩
  have hsafe := GroupedStream.exec_safe hI limits cmd
  refine ⟨fun he => ?_, fun he => ?_⟩
  · rw [he] at hsafe
    cases hsafe
  · rw [he] at hsafe
    cases hsafe

/-- Two entries, delivered to one consumer and delivered again to another one after `SETID`, one of
them claimed back. -/
def redelivery : List GroupCmd :=
  [.entries (.xadd (some ⟨1, 0⟩) [([102], [118])] 0 none), .entries (.xadd (some ⟨2, 0⟩) [([102], [118])] 0 none),
    .create [103] (some .zero), .xreadgroup [103] [97] 0 false .max 5, .setid [103] (some .zero),
    .xreadgroup [103] [98] 0 false .max 6, .xclaim [103] [97] 0 [⟨1, 0⟩] {} 7]

theorem group_pels_agree_redelivery :
    ∃ gs rs, (GroupedStream.machine ⟨4096, 100⟩).run redelivery (GroupedStream.machine ⟨4096, 100⟩).init =
        some (gs, rs) ∧
      (∃ cg, gs.cgroups.lookup [103] = some cg ∧ cg.pel.keys = [⟨2, 0⟩, ⟨1, 0⟩]) ∧
      (∀ group cg, gs.cgroups.lookup group = some cg → cg.PelsAgree) ∧
      ∀ cmd, gs.exec ⟨4096, 100⟩ cmd ≠ .error .halfCreated ∧ gs.exec ⟨4096, 100⟩ cmd ≠ .error .pointer := by
  have hrun : (((GroupedStream.machine ⟨4096, 100⟩).run redelivery (GroupedStream.machine ⟨4096, 100⟩).init).bind
      fun r => r.1.cgroups.lookup [103]).map (fun cg => cg.pel.keys) = some [⟨2, 0⟩, ⟨1, 0⟩] := by decide
  obtain ⟨cg, hcg, hkeys⟩ := map_eq_some_iff.1 hrun
  obtain ⟨⟨gs, rs⟩, hgs, hl⟩ := bind_eq_some_iff.1 hcg
  exact ⟨gs, rs, hgs, ⟨cg, hl, hkeys⟩, group_pels_agree ⟨4096, 100⟩ redelivery hgs⟩

end Redis
