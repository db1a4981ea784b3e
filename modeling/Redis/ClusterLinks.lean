import Redis.ClusterOwners

/-! # Masters, replicas and the table of nodes

The rest of the invariant of the table: what the flags of a node can be (`Table`), that the `slaves` of a
master are the nodes whose `slaveof` it is (`Links`), that open slots name nodes of the table (`Opened`).
A node that changes its master is in no `slaves` for a moment; `LinksBut` describes that state. -/

namespace Redis.ClusterTable

open State

variable {s s' s'' : State} {a m n x : Nat} {j : Nat}
variable {f : ClusterNode → ClusterNode}

structure Table (s : State) : Prop where
  named : ∀ name a, s.nodes.lookup name = some a → (s.mem a).name = name
  bound : ∀ a, s.Live a → a < s.brk
  self : s.Live s.myself
  joined : ∀ a, s.Live a → (s.mem a).flags.handshake = false → (s.mem a).flags.master = !(s.mem a).flags.slave
  fresh : ∀ a, s.Live a → (s.mem a).flags.handshake = true →
    (s.mem a).flags.master = false ∧ (s.mem a).flags.slave = false
  selfJoined : (s.mem s.myself).flags.handshake = false
  myselfFlag : ∀ a, s.Live a → ((s.mem a).flags.myself = true ↔ a = s.myself)

structure Links (s : State) : Prop where
  nodup : ∀ m, s.Live m → (s.mem m).slaves.Nodup
  mem_iff : ∀ m x, s.Live m → (x ∈ (s.mem m).slaves ↔ s.Live x ∧ (s.mem x).slaveof = some m)
  live : ∀ x m, s.Live x → (s.mem x).slaveof = some m → s.Live m
  slave : ∀ x, s.Live x → (s.mem x).slaveof ≠ none → (s.mem x).flags.slave = true

structure Opened (s : State) : Prop where
  migrating : ∀ j a, s.migratingSlotsTo j = some a → j < clusterSlots ∧ s.Live a
  importing : ∀ j a, s.importingSlotsFrom j = some a → j < clusterSlots ∧ s.Live a

structure Inv (s : State) : Prop where
  table : Table s
  owners : Owners s
  links : Links s
  opened : Opened s

theorem Table.lookup_live (h : Table s) {name : Name} (ha : clusterLookupNode s name = some a) : s.Live a := by
  rw [Live, h.named name a ha]
  exact ha

theorem Table.ne_self (h : Table s) (hh : (s.mem a).flags.handshake = true) : a ≠ s.myself := by
  rintro rfl
  rw [h.selfJoined] at hh
  cases hh

/-! ### What the parts of the invariant depend on -/

theorem live_congr (hn : s'.nodes = s.nodes) (hm : (s'.mem a).name = (s.mem a).name) : s'.Live a ↔ s.Live a := by
  rw [Live, Live, hn, hm]

theorem Table.congr (h : Table s) (hn : ∀ name a, s'.nodes.lookup name = some a → (s'.mem a).name = name)
    (hl : ∀ a, s'.Live a ↔ s.Live a) (hb : s'.brk = s.brk) (hs : s'.myself = s.myself)
    (hmy : ∀ a, (s'.mem a).flags.myself = (s.mem a).flags.myself)
    (hm : ∀ a, (s'.mem a).flags.handshake = false ∧ (s'.mem a).flags.master = !(s'.mem a).flags.slave ∨
      (s'.mem a).flags.handshake = (s.mem a).flags.handshake ∧ (s'.mem a).flags.master = (s.mem a).flags.master ∧
        (s'.mem a).flags.slave = (s.mem a).flags.slave) : Table s' := by
  refine ⟨hn, fun a ha => ?_, ?_, fun a ha hh => ?_, fun a ha hh => ?_, ?_, fun a ha => ?_⟩
  · rw [hb]
    exact h.bound a ((hl a).1 ha)
  · rw [hs]
    exact (hl _).2 h.self
  · rcases hm a with ⟨-, hr⟩ | ⟨hsh, hr, hr'⟩
    · exact hr
    · rw [hr, hr']
      exact h.joined a ((hl a).1 ha) (hsh ▸ hh)
  · rcases hm a with ⟨hsh, -⟩ | ⟨hsh, hr, hr'⟩
    · rw [hsh] at hh
      cases hh
    · rw [hr, hr']
      exact h.fresh a ((hl a).1 ha) (hsh ▸ hh)
  · rw [hs]
    rcases hm s.myself with ⟨hsh, -⟩ | ⟨hsh, -⟩
    · exact hsh
    · exact hsh.trans h.selfJoined
  · rw [hmy, hs]
    exact h.myselfFlag a ((hl a).1 ha)

theorem Table.named_congr (h : Table s) (hn : s'.nodes = s.nodes) (hm : ∀ a, (s'.mem a).name = (s.mem a).name) :
    ∀ name a, s'.nodes.lookup name = some a → (s'.mem a).name = name := by
  intro name a ha
  rw [hm]
  exact h.named name a (hn ▸ ha)

theorem Links.congr (h : Links s) (hl : ∀ a, s'.Live a ↔ s.Live a)
    (hm : ∀ a, (s'.mem a).slaves = (s.mem a).slaves ∧ (s'.mem a).slaveof = (s.mem a).slaveof ∧
      (s'.mem a).flags.slave = (s.mem a).flags.slave) : Links s' := by
  refine ⟨fun m h' => ?_, fun m x h' => ?_, fun x m h' hx => ?_, fun x h' hx => ?_⟩
  · rw [(hm m).1]
    exact h.nodup m ((hl m).1 h')
  · rw [(hm m).1, hl, (hm x).2.1]
    exact h.mem_iff m x ((hl m).1 h')
  · rw [(hm x).2.1] at hx
    exact (hl m).2 (h.live x m ((hl x).1 h') hx)
  · rw [(hm x).2.1] at hx
    rw [(hm x).2.2]
    exact h.slave x ((hl x).1 h') hx

theorem Opened.congr (h : Opened s) (hl : ∀ a, s'.Live a ↔ s.Live a) (hmig : s'.migratingSlotsTo = s.migratingSlotsTo)
    (himp : s'.importingSlotsFrom = s.importingSlotsFrom) : Opened s' := by
  refine ⟨fun j a ha => ?_, fun j a ha => ?_⟩
  · rw [hmig] at ha
    exact ⟨(h.migrating j a ha).1, (hl a).2 (h.migrating j a ha).2⟩
  · rw [himp] at ha
    exact ⟨(h.importing j a ha).1, (hl a).2 (h.importing j a ha).2⟩

theorem Opened.closed (hmig : s'.migratingSlotsTo = fun _ => none) (himp : s'.importingSlotsFrom = fun _ => none) :
    Opened s' := by
  refine ⟨fun j a ha => ?_, fun j a ha => ?_⟩
  · rw [hmig] at ha
    cases ha
  · rw [himp] at ha
    cases ha

theorem Inv.of_slotFrame (h : Inv s) (hf : SlotFrame s s') (ho : Owners s') : Inv s' where
  table := h.table.congr (h.table.named_congr hf.nodes hf.name) hf.live hf.brk hf.myself hf.myselfFlag fun a =>
    .inr ⟨hf.handshake a, hf.master a, hf.slave a⟩
  owners := ho
  links := h.links.congr hf.live fun a => ⟨hf.slaves a, hf.slaveof a, hf.slave a⟩
  opened := h.opened.congr hf.live hf.migrating hf.importing

/-- The part of a node that the invariant speaks about. -/
def ClusterNode.core (n : ClusterNode) : ClusterNode :=
  { createClusterNode n.name
      { master := n.flags.master, slave := n.flags.slave, handshake := n.flags.handshake, myself := n.flags.myself } with
    slots := n.slots, numslots := n.numslots, slaves := n.slaves, slaveof := n.slaveof }

open ClusterNode

/-- Nothing that the invariant speaks about has changed. -/
structure CoreFrame (s s' : State) : Prop where
  nodes : s'.nodes = s.nodes
  brk : s'.brk = s.brk
  myself : s'.myself = s.myself
  slots : s'.slots = s.slots
  migrating : s'.migratingSlotsTo = s.migratingSlotsTo
  importing : s'.importingSlotsFrom = s.importingSlotsFrom
  node : ∀ a, (s'.mem a).core = (s.mem a).core

namespace CoreFrame

protected theorem refl (s : State) : CoreFrame s s := ⟨rfl, rfl, rfl, rfl, rfl, rfl, fun _ => rfl⟩

protected theorem trans (h : CoreFrame s s') (h' : CoreFrame s' s'') : CoreFrame s s'' :=
  ⟨h'.nodes.trans h.nodes, h'.brk.trans h.brk, h'.myself.trans h.myself, h'.slots.trans h.slots,
    h'.migrating.trans h.migrating, h'.importing.trans h.importing, fun a => (h'.node a).trans (h.node a)⟩

theorem modify (s : State) (a : Nat) (f : ClusterNode → ClusterNode) (hf : (f (s.mem a)).core = (s.mem a).core) :
    CoreFrame s (s.modify a f) :=
  ⟨rfl, rfl, rfl, rfl, rfl, rfl, modify_field core hf⟩

section
variable (h : CoreFrame s s')
include h

theorem name (a : Nat) : (s'.mem a).name = (s.mem a).name :=
  (congrArg ClusterNode.name (h.node a) :)
theorem slave (a : Nat) : (s'.mem a).flags.slave = (s.mem a).flags.slave :=
  (congrArg (·.flags.slave) (h.node a) :)
theorem master (a : Nat) : (s'.mem a).flags.master = (s.mem a).flags.master :=
  (congrArg (·.flags.master) (h.node a) :)
theorem handshake (a : Nat) : (s'.mem a).flags.handshake = (s.mem a).flags.handshake :=
  (congrArg (·.flags.handshake) (h.node a) :)
theorem slaveof (a : Nat) : (s'.mem a).slaveof = (s.mem a).slaveof :=
  (congrArg ClusterNode.slaveof (h.node a) :)
theorem numslots (a : Nat) : (s'.mem a).numslots = (s.mem a).numslots :=
  (congrArg ClusterNode.numslots (h.node a) :)

theorem live (a : Nat) : s'.Live a ↔ s.Live a := live_congr h.nodes (h.name a)

end

end CoreFrame

theorem Inv.of_coreFrame (h : Inv s) (hf : CoreFrame s s') : Inv s' where
  table := h.table.congr (h.table.named_congr hf.nodes hf.name) hf.live hf.brk hf.myself
    (fun a => (congrArg (·.flags.myself) (hf.node a) :)) fun a =>
      .inr ⟨hf.handshake a, hf.master a, hf.slave a⟩
  owners := h.owners.congr hf.live hf.slots fun a => ⟨(congrArg ClusterNode.slots (hf.node a) :), hf.numslots a⟩
  links := h.links.congr hf.live fun a => ⟨(congrArg slaves (hf.node a) :), hf.slaveof a, hf.slave a⟩
  opened := h.opened.congr hf.live hf.migrating hf.importing

/-! ### Link operations -/

def ClusterNode.unlinked (n : ClusterNode) : ClusterNode :=
  { n with
    slaves := []
    slaveof := none
    flags := { n.flags with master := false, slave := false, migrateTo := false } }

/-- Nothing but roles has changed, and open slots were closed at most. -/
structure LinkFrame (s s' : State) : Prop where
  rest : { s' with
    mem := s.mem, migratingSlotsTo := s.migratingSlotsTo, importingSlotsFrom := s.importingSlotsFrom } = s
  node : ∀ a, (s'.mem a).unlinked = (s.mem a).unlinked

namespace LinkFrame

protected theorem refl (s : State) : LinkFrame s s := ⟨rfl, fun _ => rfl⟩

protected theorem trans (h : LinkFrame s s') (h' : LinkFrame s' s'') : LinkFrame s s'' := by
  refine ⟨?_, fun a => (h'.node a).trans (h.node a)⟩
  have e := congrArg (fun t : State => { t with
    mem := s.mem, migratingSlotsTo := s.migratingSlotsTo, importingSlotsFrom := s.importingSlotsFrom }) h'.rest
  exact e.trans h.rest

section
variable (h : LinkFrame s s')
include h

theorem nodes : s'.nodes = s.nodes := (congrArg State.nodes h.rest :)
theorem brk : s'.brk = s.brk := (congrArg State.brk h.rest :)
theorem myself : s'.myself = s.myself := (congrArg State.myself h.rest :)
theorem slots : s'.slots = s.slots := (congrArg State.slots h.rest :)
theorem name (a : Nat) : (s'.mem a).name = (s.mem a).name :=
  (congrArg ClusterNode.name (h.node a) :)
theorem bitmap (a : Nat) : (s'.mem a).slots = (s.mem a).slots :=
  (congrArg ClusterNode.slots (h.node a) :)
theorem numslots (a : Nat) : (s'.mem a).numslots = (s.mem a).numslots :=
  (congrArg ClusterNode.numslots (h.node a) :)
theorem configEpoch (a : Nat) : (s'.mem a).configEpoch = (s.mem a).configEpoch :=
  (congrArg ClusterNode.configEpoch (h.node a) :)
theorem handshake (a : Nat) : (s'.mem a).flags.handshake = (s.mem a).flags.handshake :=
  (congrArg (·.flags.handshake) (h.node a) :)
theorem myselfFlag (a : Nat) : (s'.mem a).flags.myself = (s.mem a).flags.myself :=
  (congrArg (·.flags.myself) (h.node a) :)

theorem live (a : Nat) : s'.Live a ↔ s.Live a := live_congr h.nodes (h.name a)

theorem owners (ho : Owners s) : Owners s' :=
  ho.congr h.live h.slots fun a => ⟨h.bitmap a, h.numslots a⟩

end

theorem modify (s : State) (a : Nat) (f : ClusterNode → ClusterNode) (hf : (f (s.mem a)).unlinked = (s.mem a).unlinked) :
    LinkFrame s (s.modify a f) := ⟨rfl, modify_field unlinked hf⟩

theorem table (h : LinkFrame s s') (ht : Table s) (hj : (s.mem x).flags.handshake = false)
    (hx : (s'.mem x).flags.master = !(s'.mem x).flags.slave)
    (hne : ∀ a, a ≠ x → (s'.mem a).flags.master = (s.mem a).flags.master ∧
      (s'.mem a).flags.slave = (s.mem a).flags.slave) : Table s' := by
  refine ht.congr (ht.named_congr h.nodes h.name) h.live h.brk h.myself h.myselfFlag fun a => ?_
  rcases eq_or_ne a x with rfl | hax
  · exact .inl ⟨(h.handshake a).trans hj, hx⟩
  · exact .inr ⟨h.handshake a, hne a hax⟩

end LinkFrame

theorem modify_eq_self (h : f (s.mem a) = s.mem a) : s.modify a f = s := by
  rw [State.modify, h, Function.update_eq_self]

/-- `Links` for all nodes but `x`, which is nobody's replica. -/
structure LinksBut (x : Nat) (s : State) : Prop where
  nodup : ∀ m, s.Live m → (s.mem m).slaves.Nodup
  mem_iff : ∀ m y, s.Live m → (y ∈ (s.mem m).slaves ↔ y ≠ x ∧ s.Live y ∧ (s.mem y).slaveof = some m)
  live : ∀ y m, y ≠ x → s.Live y → (s.mem y).slaveof = some m → s.Live m
  slave : ∀ y, y ≠ x → s.Live y → (s.mem y).slaveof ≠ none → (s.mem y).flags.slave = true

theorem Links.but (h : Links s) (hx : (s.mem x).slaveof = none) : LinksBut x s := by
  refine ⟨h.nodup, fun m y hm => ?_, fun y m _ hy => h.live y m hy, fun y _ hy => h.slave y hy⟩
  rw [h.mem_iff m y hm]
  refine ⟨fun hy => ⟨?_, hy⟩, And.right⟩
  rintro rfl
  rw [hx] at hy
  cases hy.2

/-- The arrays `slaves` have changed, and no role. -/
structure Relinked (s s' : State) : Prop extends LinkFrame s s' where
  migrating : s'.migratingSlotsTo = s.migratingSlotsTo
  importing : s'.importingSlotsFrom = s.importingSlotsFrom
  master : ∀ a, (s'.mem a).flags.master = (s.mem a).flags.master
  slave : ∀ a, (s'.mem a).flags.slave = (s.mem a).flags.slave

namespace Relinked

protected theorem refl (s : State) : Relinked s s := ⟨.refl s, rfl, rfl, fun _ => rfl, fun _ => rfl⟩

protected theorem trans (h : Relinked s s') (h' : Relinked s' s'') : Relinked s s'' :=
  ⟨h.toLinkFrame.trans h'.toLinkFrame, h'.migrating.trans h.migrating, h'.importing.trans h.importing,
    fun a => (h'.master a).trans (h.master a), fun a => (h'.slave a).trans (h.slave a)⟩

theorem modify (s : State) (a : Nat) (f : ClusterNode → ClusterNode) (hf : (f (s.mem a)).unlinked = (s.mem a).unlinked)
    (hm : (f (s.mem a)).flags.master = (s.mem a).flags.master) (hs : (f (s.mem a)).flags.slave = (s.mem a).flags.slave) :
    Relinked s (s.modify a f) :=
  ⟨.modify s a f hf, rfl, rfl, modify_field (·.flags.master) hm, modify_field (·.flags.slave) hs⟩

theorem table (h : Relinked s s') (ht : Table s) : Table s' :=
  ht.congr (ht.named_congr h.nodes h.name) h.live h.brk h.myself h.myselfFlag fun a =>
    .inr ⟨h.handshake a, h.master a, h.slave a⟩

theorem opened (h : Relinked s s') (ho : Opened s) : Opened s' :=
  ho.congr h.live h.migrating h.importing

end Relinked

def setSlaves (s : State) (m : Nat) (l : List Nat) (b : Bool) : State :=
  s.modify m fun n => { n with slaves := l, flags := { n.flags with migrateTo := b } }

section
variable (s : State) (m : Nat) (l : List Nat) (b : Bool)

theorem setSlaves_relinked : Relinked s (setSlaves s m l b) :=
  .modify s m _ rfl rfl rfl

theorem setSlaves_slaves (k : Nat) : ((setSlaves s m l b).mem k).slaves = if k = m then l else (s.mem k).slaves := by
  rw [setSlaves]
  rcases eq_or_ne k m with rfl | hne
  · rw [modify_mem_self, if_pos rfl]
  · rw [modify_mem_of_ne _ _ hne, if_neg hne]

theorem setSlaves_slaveof (k : Nat) :
    ((setSlaves s m l b).mem k).slaveof = (s.mem k).slaveof := modify_field slaveof rfl k

end

theorem clusterNodeRemoveSlave_eq (s : State) (m x : Nat) :
    ∃ b, clusterNodeRemoveSlave s m x = setSlaves s m ((s.mem m).slaves.erase x) b := by
  rw [clusterNodeRemoveSlave]
  split
  · refine ⟨if ((s.mem m).slaves.erase x).isEmpty then false else (s.mem m).flags.migrateTo, ?_⟩
    rw [setSlaves, State.modify]
    split <;> rfl
  next h =>
    refine ⟨(s.mem m).flags.migrateTo, (modify_eq_self ?_).symm⟩
    rw [List.erase_of_not_mem (fun hx => h (List.contains_iff_mem.2 hx))]

theorem clusterNodeAddSlave_eq (h : x ∉ (s.mem m).slaves) :
    clusterNodeAddSlave s m x = setSlaves s m ((s.mem m).slaves ++ [x]) true := by
  rw [clusterNodeAddSlave, if_neg (fun hx => h (List.contains_iff_mem.1 hx))]
  rfl

theorem leaveMaster_eq (s : State) (x : Nat) : (s.mem x).slaveof = none ∧ leaveMaster s x = s ∨
      ∃ m b, (s.mem x).slaveof = some m ∧ leaveMaster s x = setSlaves s m ((s.mem m).slaves.erase x) b := by
  rw [leaveMaster]
  cases hx : (s.mem x).slaveof with
  | none => exact .inl ⟨rfl, rfl⟩
  | some m =>
    obtain ⟨b, hb⟩ := clusterNodeRemoveSlave_eq s m x
    exact .inr ⟨m, b, rfl, hb⟩

theorem leaveMaster_relinked (s : State) (x : Nat) : Relinked s (leaveMaster s x) := by
  rcases leaveMaster_eq s x with ⟨-, he⟩ | ⟨m, b, -, he⟩
  · rw [he]
    exact .refl s
  · rw [he]
    exact setSlaves_relinked ..

theorem leaveMaster_slaveof (s : State) (x y : Nat) : ((leaveMaster s x).mem y).slaveof = (s.mem y).slaveof := by
  rcases leaveMaster_eq s x with ⟨-, he⟩ | ⟨m, b, -, he⟩
  · rw [he]
  · rw [he, setSlaves_slaveof]

theorem leaveMaster_slaves (s : State) (x y : Nat) : ((leaveMaster s x).mem y).slaves =
      if (s.mem x).slaveof = some y then (s.mem y).slaves.erase x else (s.mem y).slaves := by
  rcases leaveMaster_eq s x with ⟨hx, he⟩ | ⟨m, b, hx, he⟩
  · rw [he, hx, if_neg (by simp)]
  rw [he, setSlaves_slaves, hx]
  rcases eq_or_ne y m with rfl | hne
  · rw [if_pos rfl, if_pos rfl]
  · rw [if_neg hne, if_neg (by simpa using hne.symm)]

theorem leaveMaster_spec (h : Links s) (x : Nat) : LinksBut x (leaveMaster s x) := by
  have hf := leaveMaster_relinked s x
  refine ⟨fun k hk => ?_, fun k y hk => ?_, fun y k _ hy hyk => ?_, fun y _ hy hyn => ?_⟩
  · have := h.nodup k ((hf.live k).1 hk)
    rw [leaveMaster_slaves]
    split
    · exact this.erase _
    · exact this
  · have hk' := (hf.live k).1 hk
    rw [hf.live, leaveMaster_slaveof, leaveMaster_slaves]
    split
    · exact (h.nodup k hk').mem_erase_iff.trans (and_congr_right fun _ => h.mem_iff k y hk')
    next hkm =>
      rw [h.mem_iff k y hk']
      refine ⟨fun hy => ⟨?_, hy⟩, And.right⟩
      rintro rfl
      exact hkm hy.2
  · rw [leaveMaster_slaveof] at hyk
    exact (hf.live k).2 (h.live y k ((hf.live y).1 hy) hyk)
  · rw [leaveMaster_slaveof] at hyn
    rw [hf.slave]
    exact h.slave y ((hf.live y).1 hy) hyn

theorem LinksBut.modify (h : LinksBut x s) (hn : (f (s.mem x)).name = (s.mem x).name)
    (hs : (f (s.mem x)).slaves = (s.mem x).slaves) : LinksBut x (s.modify x f) := by
  have hslaves := modify_field slaves hs
  have hl : ∀ a, (s.modify x f).Live a ↔ s.Live a := fun a => live_congr rfl (modify_field name hn a)
  refine ⟨fun m hm => ?_, fun m y hm => ?_, fun y m hyx hy hym => ?_, fun y hyx hy hyn => ?_⟩
  · rw [hslaves]
    exact h.nodup m ((hl m).1 hm)
  · rw [hslaves, h.mem_iff m y ((hl m).1 hm), hl]
    refine and_congr_right fun hyx => ?_
    rw [modify_mem_of_ne _ _ hyx]
  · rw [modify_mem_of_ne _ _ hyx] at hym
    exact (hl m).2 (h.live y m hyx ((hl y).1 hy) hym)
  · rw [modify_mem_of_ne _ _ hyx] at hyn ⊢
    exact h.slave y hyx ((hl y).1 hy) hyn

theorem LinksBut.detached (h : LinksBut x s) (hx : (s.mem x).slaveof = none) : Links s := by
  refine ⟨h.nodup, fun m y hm => ?_, fun y m hy hym => ?_, fun y hy hyn => ?_⟩
  · rw [h.mem_iff m y hm]
    refine ⟨And.right, fun hy => ⟨?_, hy⟩⟩
    rintro rfl
    rw [hx] at hy
    cases hy.2
  · refine h.live y m ?_ hy hym
    rintro rfl
    rw [hx] at hym
    cases hym
  · refine h.slave y ?_ hy hyn
    rintro rfl
    exact hyn hx

theorem LinksBut.addSlave (h : LinksBut x s) (hm : s.Live m) (hx : s.Live x) (ho : (s.mem x).slaveof = some m)
    (hs : (s.mem x).flags.slave = true) : Links (clusterNodeAddSlave s m x) ∧ Relinked s (clusterNodeAddSlave s m x) ∧
      ((clusterNodeAddSlave s m x).mem x).slaveof = some m := by
  have hnot : x ∉ (s.mem m).slaves := fun hmem => ((h.mem_iff m x hm).1 hmem).1 rfl
  rw [clusterNodeAddSlave_eq hnot]
  have hf := setSlaves_relinked s m ((s.mem m).slaves ++ [x]) true
  refine ⟨⟨fun k hk => ?_, fun k y hk => ?_, fun y k hy hyk => ?_, fun y hy hyn => ?_⟩, hf, ?_⟩
  · have := h.nodup k ((hf.live k).1 hk)
    rw [setSlaves_slaves]
    split
    next hkm =>
      exact List.nodup_append_comm.2 (List.nodup_cons.2 ⟨hnot, hkm ▸ this⟩)
    · exact this
  · have hk' := (hf.live k).1 hk
    rw [hf.live, setSlaves_slaveof, setSlaves_slaves]
    split
    next hkm =>
      subst hkm
      rw [List.mem_append, h.mem_iff k y hk', List.mem_singleton]
      constructor
      · rintro (hy | rfl)
        · exact hy.2
        · exact ⟨hx, ho⟩
      · intro hy
        by_cases hyx : y = x
        · exact .inr hyx
        · exact .inl ⟨hyx, hy⟩
    next hkm =>
      rw [h.mem_iff k y hk']
      refine ⟨And.right, fun hy => ⟨?_, hy⟩⟩
      rintro rfl
      exact hkm (Option.some.inj (hy.2.symm.trans ho))
  · rw [setSlaves_slaveof] at hyk
    rcases eq_or_ne y x with rfl | hyx
    · rw [← Option.some.inj (ho.symm.trans hyk)]
      exact (hf.live m).2 hm
    · exact (hf.live k).2 (h.live y k hyx ((hf.live y).1 hy) hyk)
  · rw [setSlaves_slaveof] at hyn
    rw [hf.slave]
    rcases eq_or_ne y x with rfl | hyx
    · exact hs
    · exact h.slave y hyx ((hf.live y).1 hy) hyn
  · rw [setSlaves_slaveof, ho]

end Redis.ClusterTable
