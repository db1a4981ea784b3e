import Mathlib.Data.Finset.Card
import Mathlib.Data.Finset.Range
import Redis.ClusterTable

/-! # Slots and their owners

The array `slots` and the bitmaps of the nodes in the table say the same (`Owners`), and `numslots`
counts the bits. The functions on single slots keep that and change nothing else (`SlotFrame`), and so
do the loops over all slots, each of which gives every slot its new owner independently of the others
(`forSlots_spec`). -/

namespace Redis.ClusterTable
open Function

variable {b : Bitmap} {f : Nat → Option Nat}

/-! ### Bitmaps -/

def bits (b : Bitmap) : Finset Nat := (Finset.range clusterSlots).filter fun j => bitmapTestBit b j = true

theorem lt_of_bitmapTestBit (h : bitmapTestBit b j = true) : j < clusterSlots :=
  BitVec.lt_of_getLsbD h

theorem mem_bits : j ∈ bits b ↔ bitmapTestBit b j = true := by
  rw [bits, Finset.mem_filter, Finset.mem_range, and_iff_right_iff_imp]
  exact lt_of_bitmapTestBit

theorem bitmapTestBit_bitmapSetBit {i : Nat} (hi : i < clusterSlots) (j : Nat) :
    bitmapTestBit (bitmapSetBit b i) j = (bitmapTestBit b j || decide (j = i)) := by
  rw [bitmapTestBit, bitmapSetBit, BitVec.getLsbD_or, bitmapTestBit]
  rcases eq_or_ne j i with rfl | hne
  · simp [hi]
  · simp [hne, hne.symm]

theorem bitmapTestBit_bitmapClearBit (b : Bitmap) (i j : Nat) :
    bitmapTestBit (bitmapClearBit b i) j = (bitmapTestBit b j && !decide (j = i)) := by
  rw [bitmapTestBit, bitmapClearBit, BitVec.getLsbD_and, BitVec.getLsbD_not, bitmapTestBit]
  rcases eq_or_ne j i with rfl | hne
  · simp
  · cases hj : b.getLsbD j with
    | false => simp
    | true => simp [hne, BitVec.lt_of_getLsbD hj]

theorem bits_bitmapSetBit {i : Nat} (hi : i < clusterSlots) : bits (bitmapSetBit b i) = insert i (bits b) := by
  ext j
  rw [mem_bits, bitmapTestBit_bitmapSetBit hi, Finset.mem_insert, mem_bits, Bool.or_eq_true, decide_eq_true_eq, or_comm]

theorem bits_bitmapClearBit (b : Bitmap) (i : Nat) : bits (bitmapClearBit b i) = (bits b).erase i := by
  ext j
  rw [mem_bits, bitmapTestBit_bitmapClearBit, Finset.mem_erase, mem_bits, and_comm]
  simp

theorem bitmapTestBit_zero (j : Nat) : bitmapTestBit 0 j = false := BitVec.getLsbD_zero

theorem bits_zero : bits 0 = ∅ := Finset.filter_false_of_mem fun j _ => by simp [bitmapTestBit]

/-! ### The invariant -/

variable {s s' s'' : State} {a n : Nat} {j : Nat}

namespace State

def Live (s : State) (a : Nat) : Prop := s.nodes.lookup (s.mem a).name = some a

@[simp] theorem modify_mem_self (s : State) (a : Nat) (f : ClusterNode → ClusterNode) :
    (s.modify a f).mem a = f (s.mem a) := update_self ..

theorem modify_mem_of_ne (s : State) {b : Nat} (f : ClusterNode → ClusterNode) (h : b ≠ a) :
    (s.modify a f).mem b = s.mem b := update_of_ne h ..

/-- What a change of one node keeps of this node, it keeps of all. -/
theorem modify_field {β : Type} {f : ClusterNode → ClusterNode} (g : ClusterNode → β) (h : g (f (s.mem a)) = g (s.mem a))
    (b : Nat) : g ((s.modify a f).mem b) = g (s.mem b) := by
  rcases eq_or_ne b a with rfl | hne
  · rw [modify_mem_self, h]
  · rw [modify_mem_of_ne _ _ hne]

theorem modify_modify (s : State) (a : Nat) (f g : ClusterNode → ClusterNode) :
    (s.modify a f).modify a g = s.modify a fun n => g (f n) := by
  rw [modify, modify, modify]
  simp

end State

open State

structure Owners (s : State) : Prop where
  owner : ∀ j a, s.slots j = some a ↔ s.Live a ∧ bitmapTestBit (s.mem a).slots j = true
  count : ∀ a, s.Live a → (s.mem a).numslots = ((bits (s.mem a).slots).card : Int)

theorem Owners.live (h : Owners s) (hj : s.slots j = some a) : s.Live a := ((h.owner j a).1 hj).1

theorem Owners.lt (h : Owners s) (hj : s.slots j = some a) : j < clusterSlots :=
  lt_of_bitmapTestBit ((h.owner j a).1 hj).2

theorem Owners.eq_none (h : Owners s) (hj : ¬j < clusterSlots) : s.slots j = none :=
  Option.eq_none_iff_forall_ne_some.2 fun _ ha => hj (h.lt ha)

theorem Owners.numslots_eq_zero (h : Owners s) (ha : s.Live a) : (s.mem a).numslots = 0 ↔ ∀ j, s.slots j ≠ some a := by
  rw [h.count a ha, Int.natCast_eq_zero, Finset.card_eq_zero, Finset.eq_empty_iff_forall_notMem]
  simp [mem_bits, h.owner, ha]

theorem Owners.congr (h : Owners s) (hl : ∀ a, s'.Live a ↔ s.Live a) (hs : s'.slots = s.slots)
    (hm : ∀ a, (s'.mem a).slots = (s.mem a).slots ∧ (s'.mem a).numslots = (s.mem a).numslots) : Owners s' := by
  refine ⟨fun j a => ?_, fun a ha => ?_⟩
  · rw [hs, hl, (hm a).1]
    exact h.owner j a
  · rw [(hm a).2, (hm a).1]
    exact h.count a ((hl a).1 ha)

/-! ### What slot operations leave alone -/

def ClusterNode.unslotted (n : ClusterNode) : ClusterNode :=
  { n with slots := 0, numslots := 0, flags := { n.flags with migrateTo := false } }

open ClusterNode

structure SlotFrame (s s' : State) : Prop where
  rest : { s' with mem := s.mem, slots := s.slots } = s
  node : ∀ a, (s'.mem a).unslotted = (s.mem a).unslotted

namespace SlotFrame

protected theorem refl (s : State) : SlotFrame s s := ⟨rfl, fun _ => rfl⟩

protected theorem trans (h : SlotFrame s s') (h' : SlotFrame s' s'') : SlotFrame s s'' := by
  refine ⟨?_, fun a => (h'.node a).trans (h.node a)⟩
  have e := congrArg (fun t : State => { t with mem := s.mem, slots := s.slots }) h'.rest
  exact e.trans h.rest

section
variable (h : SlotFrame s s')
include h

theorem nodes : s'.nodes = s.nodes := (congrArg State.nodes h.rest :)
theorem brk : s'.brk = s.brk := (congrArg State.brk h.rest :)
theorem myself : s'.myself = s.myself := (congrArg State.myself h.rest :)
theorem migrating : s'.migratingSlotsTo = s.migratingSlotsTo :=
  (congrArg migratingSlotsTo h.rest :)
theorem importing : s'.importingSlotsFrom = s.importingSlotsFrom :=
  (congrArg importingSlotsFrom h.rest :)
section
variable (a : Nat)

theorem name : (s'.mem a).name = (s.mem a).name := (congrArg ClusterNode.name (h.node a) :)
theorem slaves : (s'.mem a).slaves = (s.mem a).slaves :=
  (congrArg ClusterNode.slaves (h.node a) :)
theorem slaveof : (s'.mem a).slaveof = (s.mem a).slaveof :=
  (congrArg ClusterNode.slaveof (h.node a) :)
theorem configEpoch : (s'.mem a).configEpoch = (s.mem a).configEpoch :=
  (congrArg ClusterNode.configEpoch (h.node a) :)
theorem master : (s'.mem a).flags.master = (s.mem a).flags.master :=
  (congrArg (·.flags.master) (h.node a) :)
theorem slave : (s'.mem a).flags.slave = (s.mem a).flags.slave :=
  (congrArg (·.flags.slave) (h.node a) :)
theorem handshake : (s'.mem a).flags.handshake = (s.mem a).flags.handshake :=
  (congrArg (·.flags.handshake) (h.node a) :)
theorem myselfFlag : (s'.mem a).flags.myself = (s.mem a).flags.myself :=
  (congrArg (·.flags.myself) (h.node a) :)

theorem live : s'.Live a ↔ s.Live a := by rw [Live, Live, h.nodes, h.name]

end

end

end SlotFrame

structure Reassigned (s s' : State) (j : Nat) (o : Option Nat) : Prop where
  frame : SlotFrame s s'
  owners : Owners s'
  slots : s'.slots = Function.update s.slots j o

theorem Reassigned.modify {g : ClusterNode → ClusterNode} {o : Option Nat} (h : Owners s) (hn : s.Live n)
    (hg : (g (s.mem n)).unslotted = (s.mem n).unslotted) (ho : ∀ a, o = some a → a = n)
    (hother : ∀ a, s.slots j = some a → a = n)
    (hb : ∀ i, bitmapTestBit (g (s.mem n)).slots i = if i = j then decide (o = some n) else bitmapTestBit (s.mem n).slots i)
    (hc : (g (s.mem n)).numslots = ((bits (g (s.mem n)).slots).card : Int)) :
    Reassigned s ((s.modify n g).setOwner j o) j o := by
  have hf : SlotFrame s ((s.modify n g).setOwner j o) := ⟨rfl, modify_field unslotted hg⟩
  refine ⟨hf, ⟨fun i a => ?_, fun a ha => ?_⟩, rfl⟩
  · rw [hf.live]
    show update s.slots j o i = some a ↔ s.Live a ∧ bitmapTestBit ((s.modify n g).mem a).slots i = true
    rw [update_apply]
    rcases eq_or_ne a n with rfl | hne
    · rw [modify_mem_self, hb, and_iff_right hn]
      split
      · rw [decide_eq_true_eq]
      · rw [h.owner, and_iff_right hn]
    · rw [modify_mem_of_ne _ _ hne, ← h.owner]
      split
      next hij => exact ⟨fun he => absurd (ho a he) hne, fun he => absurd (hother a (hij ▸ he)) hne⟩
      · rfl
  · show ((s.modify n g).mem a).numslots = ((bits ((s.modify n g).mem a).slots).card : Int)
    rcases eq_or_ne a n with rfl | hne
    · rw [modify_mem_self, hc]
    · rw [modify_mem_of_ne _ _ hne]
      exact h.count a ((hf.live a).1 ha)

theorem clusterDelSlot_spec (h : Owners s) (j : Nat) :
    ∃ r, clusterDelSlot s j = .ok r ∧ r.1 = (s.slots j).isSome ∧ Reassigned s r.2 j none := by
  rcases hj : s.slots j with - | n
  · refine ⟨(false, s), by rw [clusterDelSlot, hj], rfl, .refl s, h, ?_⟩
    rw [← hj, update_eq_self]
  obtain ⟨hn, hbit⟩ := (h.owner j n).1 hj
  have hr : clusterDelSlot s j = .ok (true, (s.modify n (·.clearSlotBit j)).setOwner j none) := by
    rw [clusterDelSlot, hj]
    exact if_pos hbit
  refine ⟨_, hr, rfl, .modify h hn rfl (fun a h => nomatch h) (fun a ha => ?_) (fun i => ?_) ?_⟩
  · exact Option.some.inj (ha.symm.trans hj)
  · rw [clearSlotBit, bitmapTestBit_bitmapClearBit]
    by_cases hij : i = j <;> simp [hij]
  have hpos : 0 < (bits (s.mem n).slots).card := Finset.card_pos.2 ⟨j, mem_bits.2 hbit⟩
  simp only [clearSlotBit, hbit, ↓reduceIte]
  rw [bits_bitmapClearBit, Finset.card_erase_of_mem (mem_bits.2 hbit), h.count n hn]
  omega

theorem clusterDelSlot_map (h : Owners s) (j : Nat) :
    ∃ t, (clusterDelSlot s j).map (·.2) = .ok t ∧ Reassigned s t j none := by
  obtain ⟨r, hr, -, hd⟩ := clusterDelSlot_spec h j
  exact ⟨r.2, by rw [hr]; rfl, hd⟩

theorem clusterNodeSetSlotBit_spec (s : State) (n j : Nat) : ∃ m, (clusterNodeSetSlotBit s n j).2 =
      s.modify n fun x => { x.setSlotBit j with flags := { x.flags with migrateTo := m } } := by
  rw [clusterNodeSetSlotBit]
  split
  · refine ⟨true, ?_⟩
    rw [modifyFlags, modify_modify]
    rfl
  · exact ⟨(s.mem n).flags.migrateTo, rfl⟩

theorem clusterAddSlot_spec (h : Owners s) (hn : s.Live n) (hj : j < clusterSlots) (hfree : s.slots j = none) :
    (clusterAddSlot s n j).1 = true ∧ Reassigned s (clusterAddSlot s n j).2 j (some n) := by
  obtain ⟨m, hm⟩ := clusterNodeSetSlotBit_spec s n j
  have hbit : bitmapTestBit (s.mem n).slots j = false := by
    rw [Bool.eq_false_iff]
    intro hb
    exact absurd ((h.owner j n).2 ⟨hn, hb⟩) (by simp [hfree])
  have hr : clusterAddSlot s n j = (true, (clusterNodeSetSlotBit s n j).2.setOwner j (some n)) := by
    rw [clusterAddSlot, hfree]
    rfl
  rw [hr, hm]
  refine ⟨rfl, .modify h hn rfl (fun a ha => (Option.some.inj ha).symm) (fun a ha => ?_) (fun i => ?_) ?_⟩
  · rw [hfree] at ha
    cases ha
  · simp only [setSlotBit]
    rw [bitmapTestBit_bitmapSetBit hj]
    by_cases hij : i = j <;> simp [hij]
  have hni : j ∉ bits (s.mem n).slots := by
    rw [mem_bits, hbit]
    exact Bool.false_ne_true
  simp only [setSlotBit, hbit]
  rw [bits_bitmapSetBit hj, Finset.card_insert_of_notMem hni, h.count n hn]
  rfl

theorem Reassigned.trans {o o' : Option Nat} (h : Reassigned s s' j o) (h' : Reassigned s' s'' j o') :
    Reassigned s s'' j o' := by
  refine ⟨h.frame.trans h'.frame, h'.owners, ?_⟩
  rw [h'.slots, h.slots, update_idem]

theorem Reassigned.self (h : Owners s) (j : Nat) : Reassigned s s j (s.slots j) :=
  ⟨.refl s, h, (update_eq_self ..).symm⟩

theorem moveSlot_spec (h : Owners s) (hn : s.Live n) (hj : j < clusterSlots) :
    ∃ r, clusterDelSlot s j = .ok r ∧ SlotFrame s r.2 ∧ Reassigned s (clusterAddSlot r.2 n j).2 j (some n) := by
  obtain ⟨r, hr, -, hd⟩ := clusterDelSlot_spec h j
  have hfree : r.2.slots j = none := by rw [hd.slots, update_self]
  exact ⟨r, hr, hd.frame, hd.trans (clusterAddSlot_spec hd.owners ((hd.frame.live n).2 hn) hj hfree).2⟩

/-! ### Loops over all slots -/

theorem forSlots_rule {α : Type} (body : α → Nat → Except Fault α) (x : α) (I : Nat → α → Prop) (hx : I 0 x)
    (hbody : ∀ y j, j < clusterSlots → I j y → ∃ y', body y j = .ok y' ∧ I (j + 1) y') :
    ∃ y, forSlots body x = .ok y ∧ I clusterSlots y := by
  suffices hrounds : ∀ k ≤ clusterSlots, ∃ y, (List.range k).foldlM body x = .ok y ∧ I k y by
    unfold forSlots
    exact hrounds clusterSlots le_rfl
  intro k hk
  induction k with
  | zero => exact ⟨x, rfl, hx⟩
  | succ k ih =>
    obtain ⟨y, hy, hi⟩ := ih (by omega)
    obtain ⟨z, hz, hi'⟩ := hbody y k (by omega) hi
    refine ⟨z, ?_, hi'⟩
    rw [List.range_succ, List.foldlM_append, hy]
    show [k].foldlM body y = .ok z
    rw [List.foldlM_cons, hz]
    rfl

theorem forSlots_spec {α : Type} {body : α → Nat → Except Fault α} (st : α → State) {x : α} (hx : Owners (st x))
    (hbody : ∀ y j, j < clusterSlots → SlotFrame (st x) (st y) → Owners (st y) → (st y).slots j = (st x).slots j →
      ∃ y', body y j = .ok y' ∧ Reassigned (st y) (st y') j (f j)) :
    ∃ y, forSlots body x = .ok y ∧ SlotFrame (st x) (st y) ∧ Owners (st y) ∧
      ∀ j, (st y).slots j = if j < clusterSlots then f j else (st x).slots j := by
  -- after `k` rounds the first `k` slots have their new owners
  refine forSlots_rule body x (fun k y => SlotFrame (st x) (st y) ∧ Owners (st y) ∧
    ∀ j, (st y).slots j = if j < k then f j else (st x).slots j) ⟨.refl _, hx, fun j => by simp⟩ ?_
  rintro y k hk ⟨hf, ho, hs⟩
  obtain ⟨y', hy', hr⟩ := hbody y k hk hf ho (by rw [hs, if_neg (by omega)])
  refine ⟨y', hy', hf.trans hr.frame, hr.owners, fun j => ?_⟩
  rw [hr.slots]
  rcases eq_or_ne j k with rfl | hne
  · rw [update_self, if_pos (by omega)]
  rw [update_of_ne hne, hs]
  by_cases hjk : j < k
  · rw [if_pos hjk, if_pos (by omega)]
  · rw [if_neg hjk, if_neg (by omega)]

theorem forSlots_slots {body : State → Nat → Except Fault State} (h : Owners s)
    (hbody : ∀ t j, j < clusterSlots → SlotFrame s t → Owners t → t.slots j = s.slots j →
      ∃ t', body t j = .ok t' ∧ Reassigned t t' j (f j)) :
    ∃ s', forSlots body s = .ok s' ∧ SlotFrame s s' ∧ Owners s' ∧
      ∀ j, s'.slots j = if j < clusterSlots then f j else none := by
  obtain ⟨s', hs', hf, ho, hs⟩ := forSlots_spec id h hbody
  refine ⟨s', hs', hf, ho, fun j => (hs j).trans ?_⟩
  split
  · rfl
  next hlt => exact h.eq_none hlt

/-- A loop that gives the slots of the node `a` the new owner `o`. -/
theorem forSlots_owned (body : State → Nat → Except Fault State) {o : Option Nat} (h : Owners s) (ha : s.Live a)
    (hbody : ∀ t j, j < clusterSlots → SlotFrame s t → Owners t → ∃ t', body t j = .ok t' ∧ Reassigned t t' j o) :
    ∃ s', forSlots (fun t j => if bitmapTestBit (t.mem a).slots j then body t j else .ok t) s = .ok s' ∧ SlotFrame s s' ∧
      Owners s' ∧ ∀ j, s'.slots j = if s.slots j = some a then o else s.slots j := by
  have hstep : ∀ t j, j < clusterSlots → SlotFrame s t → Owners t → t.slots j = s.slots j →
      ∃ t', (if bitmapTestBit (t.mem a).slots j then body t j else .ok t) = .ok t' ∧
        Reassigned t t' j (if s.slots j = some a then o else s.slots j) := by
    intro t j hj hf ho ht
    have hbit : bitmapTestBit (t.mem a).slots j = true ↔ s.slots j = some a := by
      rw [← ht, ho.owner, and_iff_right ((hf.live a).2 ha)]
    by_cases hb : bitmapTestBit (t.mem a).slots j = true
    · rw [if_pos hb, if_pos (hbit.1 hb)]
      exact hbody t j hj hf ho
    · rw [if_neg hb, if_neg (fun he => hb (hbit.2 he)), ← ht]
      exact ⟨t, rfl, .self ho j⟩
  obtain ⟨s', hs', hf, ho, hs⟩ := forSlots_slots h hstep
  refine ⟨s', hs', hf, ho, fun j => ?_⟩
  rw [hs]
  by_cases hj : j < clusterSlots
  · rw [if_pos hj]
  · rw [if_neg hj, h.eq_none hj]
    rfl

theorem clusterDelNodeSlots_spec (h : Owners s) (ha : s.Live a) :
    ∃ s', clusterDelNodeSlots s a = .ok s' ∧ SlotFrame s s' ∧ Owners s' ∧
      ∀ j, s'.slots j = if s.slots j = some a then none else s.slots j :=
  forSlots_owned _ h ha fun _ j _ _ ho => clusterDelSlot_map ho j

end Redis.ClusterTable
