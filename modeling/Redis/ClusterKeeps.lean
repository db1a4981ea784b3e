import Redis.ClusterLinks
import Redis.ClusterPackets

/-! # The functions on nodes keep the table consistent

`clusterSetNodeAsMaster`, `clusterSetMaster` and the rest of the functions that change roles, nodes or
owners. That a replica owns no slots (`Idle`) is what `clusterSetMaster` asserts. -/

namespace Redis.ClusterTable
open Function AList

open State

variable {s s' : State} {a l m n x : Nat} {j : Nat}
variable {t : State} {f : Nat → Option Nat} {d : Nat} {newname : Name}

def Idle (s : State) : Prop := (s.mem s.myself).flags.slave = true → ∀ j, s.slots j ≠ some s.myself

theorem Idle.of_slots (h : Idle s) (hm : s'.myself = s.myself)
    (hf : (s'.mem s.myself).flags.slave = true → (s.mem s.myself).flags.slave = true)
    (hs : ∀ j, s'.slots j = some s.myself → s.slots j = some s.myself) : Idle s' := by
  intro hslave j hj
  rw [hm] at hslave hj
  exact h (hf hslave) j (hs j hj)

theorem Idle.of_coreFrame (h : Idle s) (hf : CoreFrame s s') : Idle s' :=
  h.of_slots hf.myself (fun hs => hf.slave _ ▸ hs) fun _ hj => hf.slots ▸ hj

/-! ### Roles -/

theorem clusterSetNodeAsMaster_spec (h : Inv s) (hn : s.Live n) (hj : (s.mem n).flags.handshake = false) :
    Inv (clusterSetNodeAsMaster s n) ∧ LinkFrame s (clusterSetNodeAsMaster s n) ∧
      (clusterSetNodeAsMaster s n).importingSlotsFrom = s.importingSlotsFrom ∧
      ((clusterSetNodeAsMaster s n).mem n).flags.master = true ∧
      ((clusterSetNodeAsMaster s n).mem n).flags.slave = false ∧ (Idle s → Idle (clusterSetNodeAsMaster s n)) := by
  have hrole := h.table.joined n hn hj
  rw [clusterSetNodeAsMaster]
  split
  next hm =>
    refine ⟨h, .refl s, rfl, hm, ?_, id⟩
    simpa [hm] using hrole
  -- the state in which `n` has left its master
  obtain ⟨t, ht, hbut, hf⟩ : ∃ t, t = (if (s.mem n).slaveof.isSome ∧ n ≠ s.myself then
        (leaveMaster s n).modifyFlags n fun f => { f with migrateTo := true }
      else leaveMaster s n) ∧ LinksBut n t ∧ Relinked s t := by
    have hbut := leaveMaster_spec h.links n
    have hf := leaveMaster_relinked s n
    refine ⟨_, rfl, ?_⟩
    split
    · exact ⟨hbut.modify rfl rfl, hf.trans (.modify _ _ _ rfl rfl rfl)⟩
    · exact ⟨hbut, hf⟩
  dsimp only
  rw [← ht]
  have hf' : LinkFrame s (t.modify n (·.asMaster)) := hf.toLinkFrame.trans (.modify _ _ _ rfl)
  have hlinks : Links (t.modify n (·.asMaster)) := (hbut.modify rfl rfl).detached (by rw [modify_mem_self]; rfl)
  have hrest : ∀ a, a ≠ n → ((t.modify n (·.asMaster)).mem a).flags.master = (s.mem a).flags.master ∧
      ((t.modify n (·.asMaster)).mem a).flags.slave = (s.mem a).flags.slave := by
    intro a hne
    rw [modify_mem_of_ne _ _ hne]
    exact ⟨hf.master a, hf.slave a⟩
  have hself : (t.modify n (·.asMaster)).mem n = (t.mem n).asMaster := modify_mem_self ..
  refine ⟨⟨hf'.table h.table hj (by rw [hself]; rfl) hrest, hf'.owners h.owners, hlinks,
    h.opened.congr hf'.live hf.migrating hf.importing⟩, hf', hf.importing, by rw [hself]; rfl, by rw [hself]; rfl,
    fun hidle => hidle.of_slots hf'.myself (fun hs => ?_) fun j hj => hf'.slots ▸ hj⟩
  rcases eq_or_ne s.myself n with rfl | hne
  · rw [hself] at hs
    cases hs
  · rwa [(hrest _ hne).2] at hs

section
variable (h : Inv s) (hx : s.Live x) (hj : (s.mem x).flags.handshake = false) (hm : (s.mem x).flags.master = true)
include h hx hj hm

theorem Inv.slaveof_master : (s.mem x).slaveof = none := by
  by_contra hno
  have hrole := h.table.joined x hx hj
  rw [h.links.slave x hx hno, hm] at hrole
  cases hrole

theorem asSlave_spec : Inv (s.modify x (·.asSlave)) ∧ LinkFrame s (s.modify x (·.asSlave)) := by
  have hno := h.slaveof_master hx hj hm
  have hf : LinkFrame s (s.modify x (·.asSlave)) := .modify _ _ _ rfl
  have hself : (s.modify x (·.asSlave)).mem x = (s.mem x).asSlave := modify_mem_self ..
  refine ⟨⟨hf.table h.table hj (by rw [hself]; rfl) fun a hne => ?_, hf.owners h.owners,
    ((h.links.but hno).modify rfl rfl).detached (by rw [hself]; exact hno), h.opened.congr hf.live rfl rfl⟩, hf⟩
  · rw [modify_mem_of_ne _ _ hne]
    exact ⟨rfl, rfl⟩

end

theorem replicaOf_spec (h : Inv s) (hn : s.Live n) (hbut : LinksBut s.myself t) (hf : LinkFrame s t) (hopen : Opened t)
    (hflags : ∀ a, a ≠ s.myself → (t.mem a).flags.master = (s.mem a).flags.master ∧ (t.mem a).flags.slave = (s.mem a).flags.slave)
    (hmaster : (t.mem s.myself).flags.master = false) (hslave : (t.mem s.myself).flags.slave = true) :
    ∀ s', s' = clusterNodeAddSlave (t.modify t.myself (·.withSlaveof (some n))) n t.myself →
      Inv s' ∧ LinkFrame s s' ∧ (s'.mem s.myself).slaveof = some n ∧ s'.importingSlotsFrom = t.importingSlotsFrom := by
  rintro _ rfl
  rw [hf.myself]
  have hf₁ : LinkFrame t (t.modify s.myself (·.withSlaveof (some n))) := .modify _ _ _ rfl
  have hself := (hf.live _).2 h.table.self
  have hmem : (t.modify s.myself (·.withSlaveof (some n))).mem s.myself = (t.mem s.myself).withSlaveof (some n) :=
    modify_mem_self ..
  obtain ⟨hlinks, hf₂, hso⟩ := LinksBut.addSlave (hbut.modify rfl rfl : LinksBut s.myself
    (t.modify s.myself (·.withSlaveof (some n)))) ((hf₁.live n).2 ((hf.live n).2 hn)) ((hf₁.live _).2 hself)
    (by rw [hmem]; rfl) (by rw [hmem]; exact hslave)
  have hfin := (hf.trans hf₁).trans hf₂.toLinkFrame
  refine ⟨⟨hfin.table h.table h.table.selfJoined ?_ fun a hne => ?_, hfin.owners h.owners, hlinks,
    hf₂.opened (hopen.congr hf₁.live rfl rfl)⟩, hfin, hso, hf₂.importing⟩
  · rw [hf₂.master, hf₂.slave, hmem]
    show (t.mem s.myself).flags.master = !(t.mem s.myself).flags.slave
    rw [hslave, hmaster]
    rfl
  · rw [hf₂.master, hf₂.slave, modify_mem_of_ne _ _ hne]
    exact hflags a hne

theorem clusterSetMaster_spec (h : Inv s) (hn : s.Live n) (hne : n ≠ s.myself) (hz : ∀ j, s.slots j ≠ some s.myself) :
    ∃ s', clusterSetMaster s n = .ok s' ∧ Inv s' ∧ LinkFrame s s' ∧ (s'.mem s.myself).slaveof = some n ∧
      (s'.importingSlotsFrom = s.importingSlotsFrom ∨ s'.importingSlotsFrom = fun _ => none) := by
  have hself := h.table.self
  have hrole := h.table.joined _ hself h.table.selfJoined
  have hzero : (s.mem s.myself).numslots = 0 := (h.owners.numslots_eq_zero hself).2 hz
  rw [clusterSetMaster, if_neg hne, if_neg (fun h => h hzero)]
  refine ⟨_, rfl, ?_⟩
  split
  next hm =>
    have hno := h.slaveof_master hself h.table.selfJoined hm
    have hb : LinksBut s.myself (s.modify s.myself (·.asSlave)) := (h.links.but hno).modify rfl rfl
    have hf : LinkFrame s (s.modify s.myself (·.asSlave)) := .modify _ _ _ rfl
    have hmem : (clusterCloseAllSlots (s.modify s.myself (·.asSlave))).mem s.myself = (s.mem s.myself).asSlave :=
      modify_mem_self ..
    have hflags : ∀ a, a ≠ s.myself → (clusterCloseAllSlots (s.modify s.myself (·.asSlave))).mem a = s.mem a :=
      fun a hne => modify_mem_of_ne _ _ hne
    obtain ⟨hinv, hfr, hso, himp⟩ := replicaOf_spec (t := clusterCloseAllSlots (s.modify s.myself (·.asSlave))) h hn
      ⟨hb.nodup, hb.mem_iff, hb.live, hb.slave⟩ ⟨rfl, hf.node⟩ (.closed rfl rfl)
      (fun a hne => by rw [hflags a hne]; exact ⟨rfl, rfl⟩) (by rw [hmem]; rfl) (by rw [hmem]; rfl) _ rfl
    exact ⟨hinv, hfr, hso, .inr himp⟩
  next hm =>
    rw [Bool.not_eq_true] at hm
    have hs : (s.mem s.myself).flags.slave = true := by simpa [hm] using hrole
    have hbut := leaveMaster_spec h.links s.myself
    have hf := leaveMaster_relinked s s.myself
    obtain ⟨hinv, hfr, hso, himp⟩ := replicaOf_spec h hn hbut hf.toLinkFrame (hf.opened h.opened)
      (fun a _ => ⟨hf.master a, hf.slave a⟩) ((hf.master _).trans hm) ((hf.slave _).trans hs) _ rfl
    exact ⟨hinv, hfr, hso, .inl (himp.trans hf.importing)⟩

theorem addSlave_modify_slaveof (s : State) (m x : Nat) (o : Option Nat) :
    (clusterNodeAddSlave s m x).modify x (·.withSlaveof o) =
      clusterNodeAddSlave (s.modify x (·.withSlaveof o)) m x := by
  rw [clusterNodeAddSlave, clusterNodeAddSlave, modify_field (f := (·.withSlaveof o)) ClusterNode.slaves rfl m]
  split
  · rfl
  rcases eq_or_ne m x with rfl | hne
  · rw [modify_modify, modify_modify]
    rfl
  · simp only [State.modify, update_of_ne hne, update_of_ne hne.symm]
    rw [update_comm hne]

theorem changeMaster_spec (h : Inv s) (hx : s.Live x) (hs : (s.mem x).flags.slave = true) {master : Option Nat}
    (hm : ∀ m, master = some m → s.Live m) : Inv (changeMaster s x master) ∧ Relinked s (changeMaster s x master) := by
  rcases master with - | m
  · exact ⟨h, .refl s⟩
  rw [changeMaster]
  split
  · exact ⟨h, .refl s⟩
  have hbut := leaveMaster_spec h.links x
  have hf := leaveMaster_relinked s x
  have hf₁ : Relinked s ((leaveMaster s x).modify x (·.withSlaveof (some m))) :=
    hf.trans (.modify _ _ _ rfl rfl rfl)
  have hmem : ((leaveMaster s x).modify x (·.withSlaveof (some m))).mem x =
      ((leaveMaster s x).mem x).withSlaveof (some m) := modify_mem_self ..
  obtain ⟨hlinks, hf₂, -⟩ := LinksBut.addSlave (hbut.modify rfl rfl : LinksBut x
    ((leaveMaster s x).modify x (·.withSlaveof (some m)))) ((hf₁.live m).2 (hm m rfl)) ((hf₁.live x).2 hx)
    (by rw [hmem]; rfl) ((hf₁.slave x).trans hs)
  have hfin := hf₁.trans hf₂
  rw [addSlave_modify_slaveof]
  exact ⟨⟨hfin.table h.table, hfin.owners h.owners, hlinks, hfin.opened h.opened⟩, hfin⟩

/-! ### Nodes that come and go -/

structure Blank (c : ClusterNode) : Prop where
  handshake : c.flags.handshake = true
  master : c.flags.master = false
  slave : c.flags.slave = false
  myself : c.flags.myself = false
  slots : c.slots = 0
  numslots : c.numslots = 0
  slaves : c.slaves = []
  slaveof : c.slaveof = none

theorem Inv.push (h : Inv s) {c : ClusterNode} {N : Prop} (hc : Blank c)
    (hmem : s'.mem = update s.mem s.brk c) (hbrk : s'.brk = s.brk + 1) (hmyself : s'.myself = s.myself)
    (hslots : s'.slots = s.slots) (hmig : s'.migratingSlotsTo = s.migratingSlotsTo)
    (himp : s'.importingSlotsFrom = s.importingSlotsFrom)
    (hlookup : ∀ name a, s'.nodes.lookup name = some a ↔ s.nodes.lookup name = some a ∨ a = s.brk ∧ name = c.name ∧ N) :
    Inv s' ∧ ∀ a, s.Live a → s'.Live a ∧ s'.mem a = s.mem a := by
  have hne : ∀ a, s.Live a → a ≠ s.brk := fun a ha => Nat.ne_of_lt (h.table.bound a ha)
  have hold : ∀ a, s.Live a → s'.mem a = s.mem a := fun a ha => by rw [hmem, update_of_ne (hne a ha)]
  have hnew : s'.mem s.brk = c := by rw [hmem, update_self]
  have hnot : ¬s.Live s.brk := fun h' => lt_irrefl _ (h.table.bound _ h')
  have hlive : ∀ a, s'.Live a ↔ s.Live a ∨ a = s.brk ∧ N := by
    intro a
    rw [Live, hlookup]
    rcases eq_or_ne a s.brk with rfl | hab
    · rw [hnew]
      refine or_congr ⟨fun ha => absurd rfl (hne _ (h.table.lookup_live ha)), fun ha => absurd ha hnot⟩ ?_
      simp
    · rw [hmem, update_of_ne hab, Live]
      simp [hab]
  -- what holds of the old nodes and of the new one holds of all
  have hall : ∀ {P : Nat → ClusterNode → Prop}, (∀ a, s.Live a → P a (s.mem a)) → P s.brk c →
      ∀ a, s'.Live a → P a (s'.mem a) := by
    intro P hP hPc a ha
    rcases (hlive a).1 ha with ha | ⟨rfl, -⟩
    · exact hold a ha ▸ hP a ha
    · exact hnew ▸ hPc
  refine ⟨⟨⟨fun name a ha => ?_, ?_, ?_, hall (P := fun _ n => n.flags.handshake = false → n.flags.master = !n.flags.slave)
      h.table.joined ?_, hall (P := fun _ n => n.flags.handshake = true → n.flags.master = false ∧ n.flags.slave = false)
      h.table.fresh fun _ => ⟨hc.master, hc.slave⟩, ?_, ?_⟩,
    ⟨fun j a => ?_, hall (P := fun _ n => n.numslots = ((bits n.slots).card : Int)) h.owners.count ?_⟩,
    ⟨hall (P := fun _ n => n.slaves.Nodup) h.links.nodup (hc.slaves ▸ List.nodup_nil), fun k y hk => ?_,
      fun y k hy => hall (P := fun _ n => n.slaveof = some k → s'.Live k) (fun y hy hyk => ?_) ?_ y hy,
      hall (P := fun _ n => n.slaveof ≠ none → n.flags.slave = true) h.links.slave fun hno => absurd hc.slaveof hno⟩,
    ⟨fun j a ha => ?_, fun j a ha => ?_⟩⟩, fun a ha => ⟨(hlive a).2 (.inl ha), hold a ha⟩⟩
  · rcases (hlookup name a).1 ha with ha | ⟨rfl, rfl, -⟩
    · rw [hold a (h.table.lookup_live ha)]
      exact h.table.named name a ha
    · rw [hnew]
  · refine hall (P := fun a _ => a < s'.brk) (fun a ha => ?_) (by omega)
    have := h.table.bound a ha
    omega
  · rw [hmyself]
    exact (hlive _).2 (.inl h.table.self)
  · intro hh
    rw [hc.handshake] at hh
    cases hh
  · rw [hmyself, hold _ h.table.self]
    exact h.table.selfJoined
  · rw [hmyself]
    refine hall (P := fun a n => n.flags.myself = true ↔ a = s.myself) h.table.myselfFlag ?_
    rw [hc.myself]
    exact ⟨fun h => (Bool.false_ne_true h).elim, fun he => absurd h.table.self (he ▸ hnot)⟩
  · rw [hslots, hlive]
    constructor
    · intro hj
      have ha := h.owners.live hj
      rw [hold a ha]
      exact ⟨.inl ha, ((h.owners.owner j a).1 hj).2⟩
    · rintro ⟨ha | ⟨rfl, -⟩, hb'⟩
      · rw [hold a ha] at hb'
        exact (h.owners.owner j a).2 ⟨ha, hb'⟩
      · rw [hnew, hc.slots, bitmapTestBit_zero] at hb'
        cases hb'
  · rw [hc.numslots, hc.slots, bits_zero]
    rfl
  · rcases (hlive k).1 hk with hk | ⟨rfl, -⟩
    · rw [hold k hk, h.links.mem_iff k y hk, hlive]
      constructor
      · rintro ⟨hy, hyk⟩
        rw [hold y hy]
        exact ⟨.inl hy, hyk⟩
      · rintro ⟨hy | ⟨rfl, -⟩, hyk⟩
        · rw [hold y hy] at hyk
          exact ⟨hy, hyk⟩
        · rw [hnew, hc.slaveof] at hyk
          cases hyk
    · rw [hnew, hc.slaves]
      refine ⟨fun h => (List.not_mem_nil h).elim, ?_⟩
      rintro ⟨hy, hyk⟩
      rcases (hlive y).1 hy with hy | ⟨rfl, -⟩
      · rw [hold y hy] at hyk
        exact absurd (h.links.live y _ hy hyk) hnot
      · rw [hnew, hc.slaveof] at hyk
        cases hyk
  · exact (hlive k).2 (.inl (h.links.live y k hy hyk))
  · intro hck
    rw [hc.slaveof] at hck
    cases hck
  · rw [hmig] at ha
    exact ⟨(h.opened.migrating j a ha).1, (hlive a).2 (.inl (h.opened.migrating j a ha).2)⟩
  · rw [himp] at ha
    exact ⟨(h.opened.importing j a ha).1, (hlive a).2 (.inl (h.opened.importing j a ha).2)⟩

theorem addNode_spec (h : Inv s) {c : ClusterNode} (hc : Blank c) :
    (Inv (addNode s c) ∧ ∀ a, s.Live a → (addNode s c).Live a ∧ (addNode s c).mem a = s.mem a) ∧
      (addNode s c).myself = s.myself ∧ (addNode s c).slots = s.slots := by
  cases hl : clusterLookupNode s c.name with
  | some b =>
    have e : addNode s c = { s with mem := update s.mem s.brk c, brk := s.brk + 1 } := by
      rw [addNode, hl]
      rfl
    rw [e]
    exact ⟨h.push (N := False) hc rfl rfl rfl rfl rfl rfl fun name a => by simp, rfl, rfl⟩
  | none =>
    have e : addNode s c = { s with
        mem := update s.mem s.brk c, brk := s.brk + 1, nodes := s.nodes.insert c.name s.brk } := by
      rw [addNode, hl]
      rfl
    rw [e]
    refine ⟨h.push (N := True) hc rfl rfl rfl rfl rfl rfl fun name a => ?_, rfl, rfl⟩
    rw [clusterLookupNode] at hl
    by_cases hn : name = c.name
    · rw [hn, lookup_insert, hl]
      simp [eq_comm]
    · simp [lookup_insert_ne hn, hn]

def cleared (f : Nat → Option Nat) (d k : Nat) : Nat → Option Nat :=
  fun j => if j < k ∧ f j = some d then none else f j

theorem clearIf_cleared (f : Nat → Option Nat) (d k : Nat) : clearIf (cleared f d k) d k = cleared f d (k + 1) := by
  funext j
  unfold clearIf
  split <;> grind [cleared, update_apply]

theorem cleared_zero (f : Nat → Option Nat) (d : Nat) : cleared f d 0 = f :=
  funext fun _ => if_neg fun h => Nat.not_lt_zero _ h.1

theorem cleared_eq_some {k : Nat} (h : cleared f d k j = some a) : f j = some a ∧ (j < k → a ≠ d) := by
  rw [cleared] at h
  split at h
  · cases h
  next hn => exact ⟨h, fun hj he => hn ⟨hj, he ▸ h⟩⟩

def closeFor (s : State) (d k : Nat) : State :=
  { s with
    migratingSlotsTo := cleared s.migratingSlotsTo d k
    importingSlotsFrom := cleared s.importingSlotsFrom d k }

theorem Inv.reopen (h : Inv s) {g : Nat → Option Nat} (hf : ∀ j a, f j = some a → j < clusterSlots ∧ s.Live a)
    (hg : ∀ j a, g j = some a → j < clusterSlots ∧ s.Live a) :
    Inv { s with migratingSlotsTo := f, importingSlotsFrom := g } where
  table := ⟨h.table.named, h.table.bound, h.table.self, h.table.joined, h.table.fresh, h.table.selfJoined,
    h.table.myselfFlag⟩
  owners := ⟨h.owners.owner, h.owners.count⟩
  links := ⟨h.links.nodup, h.links.mem_iff, h.links.live, h.links.slave⟩
  opened := ⟨hf, hg⟩

theorem closeFor_inv (h : Inv s) (d k : Nat) : Inv (closeFor s d k) :=
  h.reopen (fun j a ha => h.opened.migrating j a (cleared_eq_some ha).1)
    fun j a ha => h.opened.importing j a (cleared_eq_some ha).1

theorem delNodeSlot_spec {k : Nat} (hf : SlotFrame (closeFor s d k) t) (ho : Owners t) :
    ∃ t', delNodeSlot d t k = .ok t' ∧ SlotFrame (closeFor s d (k + 1)) t' ∧ Owners t' ∧
      t'.slots = clearIf t.slots d k := by
  have himp : clearIf t.importingSlotsFrom d k = cleared s.importingSlotsFrom d (k + 1) := by
    rw [hf.importing]
    exact clearIf_cleared ..
  have hmig : clearIf t.migratingSlotsTo d k = cleared s.migratingSlotsTo d (k + 1) := by
    rw [hf.migrating]
    exact clearIf_cleared ..
  have hf' : SlotFrame (closeFor s d (k + 1)) { t with
      importingSlotsFrom := cleared s.importingSlotsFrom d (k + 1)
      migratingSlotsTo := cleared s.migratingSlotsTo d (k + 1) } := by
    refine ⟨?_, hf.node⟩
    exact (congrArg (fun u : State => { u with
      importingSlotsFrom := cleared s.importingSlotsFrom d (k + 1)
      migratingSlotsTo := cleared s.migratingSlotsTo d (k + 1) }) hf.rest :)
  have ho' : Owners { t with
      importingSlotsFrom := cleared s.importingSlotsFrom d (k + 1)
      migratingSlotsTo := cleared s.migratingSlotsTo d (k + 1) } := ⟨ho.owner, ho.count⟩
  rw [delNodeSlot, himp, hmig]
  split
  next hk =>
    obtain ⟨r, hr, hd⟩ := clusterDelSlot_map ho' k
    rw [hr, clearIf, if_pos hk]
    exact ⟨r, rfl, hf'.trans hd.frame, hd.owners, hd.slots⟩
  next hk => exact ⟨_, rfl, hf', ho', (if_neg hk).symm⟩

theorem delNodeSlots_spec (h : Inv s) (d : Nat) :
    ∃ t, forSlots (delNodeSlot d) s = .ok t ∧ SlotFrame (closeFor s d clusterSlots) t ∧ Inv t ∧
      t.slots = cleared s.slots d clusterSlots := by
  have hstart : SlotFrame (closeFor s d 0) s := by
    exact .refl s
  obtain ⟨t, ht, hf, ho, hs⟩ := forSlots_rule (delNodeSlot d) s
    (fun k t => SlotFrame (closeFor s d k) t ∧ Owners t ∧ t.slots = cleared s.slots d k)
    ⟨hstart, h.owners, (cleared_zero ..).symm⟩ fun t k _ hk => by
      obtain ⟨hf, ho, hs⟩ := hk
      obtain ⟨t', ht', hf', ho', hs'⟩ := delNodeSlot_spec hf ho
      exact ⟨t', ht', hf', ho', by rw [hs', hs, clearIf_cleared]⟩
  exact ⟨t, ht, hf, (closeFor_inv h d clusterSlots).of_slotFrame hf ho, hs⟩

theorem foldl_withSlaveof (l : List Nat) (s : State) : l.foldl (fun s x => s.modify x (·.withSlaveof none)) s =
      { s with mem := fun y => if y ∈ l then (s.mem y).withSlaveof none else s.mem y } := by
  induction l generalizing s with
  | nil => simp
  | cons x l ih =>
    rw [List.foldl_cons, ih, State.modify]
    congr 1
    funext y
    dsimp only
    rcases eq_or_ne y x with rfl | hne
    · rw [update_self, if_pos (List.mem_cons_self ..)]
      split <;> rfl
    · simp [hne]

theorem orphanSlaves_mem (s : State) (d y : Nat) :
    (orphanSlaves s d).mem y = if y ∈ (s.mem d).slaves then (s.mem y).withSlaveof none else s.mem y := by
  rw [orphanSlaves, foldl_withSlaveof]

theorem orphanSlaves_relinked (s : State) (d : Nat) : Relinked s (orphanSlaves s d) := by
  rw [orphanSlaves, foldl_withSlaveof]
  refine ⟨⟨rfl, fun y => ?_⟩, rfl, rfl, fun y => ?_, fun y => ?_⟩ <;> dsimp only <;> split <;> rfl

/-- What is left of `t` when the node `d` is freed. -/
structure Freed (t v : State) (d : Nat) : Prop where
  nodes : v.nodes = t.nodes.erase (t.mem d).name
  relinked : Relinked t { v with nodes := t.nodes }
  slaveof : ∀ y, (v.mem y).slaveof = if y ∈ (t.mem d).slaves then none else (t.mem y).slaveof
  slaves : ∀ y, y ≠ d → (v.mem y).slaves =
    if (t.mem d).slaveof = some y then (t.mem y).slaves.erase d else (t.mem y).slaves

theorem freeClusterNode_spec (h : Inv t) (hd : t.Live d) : ∃ v, freeClusterNode t d = .ok v ∧ Freed t v d := by
  -- a node with a master has the flag of a replica
  obtain ⟨u, hu, hrel, hso, hsl⟩ : ∃ u, (if ((orphanSlaves t d).mem d).flags.slave then leaveMaster (orphanSlaves t d) d
        else orphanSlaves t d) = u ∧ Relinked t u ∧
      (∀ y, (u.mem y).slaveof = if y ∈ (t.mem d).slaves then none else (t.mem y).slaveof) ∧
      ∀ y, y ≠ d → (u.mem y).slaves =
        if (t.mem d).slaveof = some y then (t.mem y).slaves.erase d else (t.mem y).slaves := by
    have hrel := orphanSlaves_relinked t d
    have hso : ∀ y, ((orphanSlaves t d).mem y).slaveof =
        if y ∈ (t.mem d).slaves then none else (t.mem y).slaveof := by
      intro y
      rw [orphanSlaves_mem]
      split <;> rfl
    have hsl : ∀ y, ((orphanSlaves t d).mem y).slaves = (t.mem y).slaves := by
      intro y
      rw [orphanSlaves_mem]
      split <;> rfl
    refine ⟨_, rfl, ?_⟩
    rw [hrel.slave]
    split
    · refine ⟨hrel.trans (leaveMaster_relinked ..), fun y => ?_, fun y hy => ?_⟩
      · rw [leaveMaster_slaveof, hso]
      rw [leaveMaster_slaves, hso, hsl]
      by_cases hmem : d ∈ (t.mem d).slaves
      · have := (h.links.mem_iff d d hd).1 hmem
        rw [if_pos hmem, this.2, if_neg (by simp), if_neg (by simpa using hy.symm)]
      · rw [if_neg hmem]
    next hs =>
      have hno : (t.mem d).slaveof = none := by
        by_contra hne
        exact hs (h.links.slave d hd hne)
      refine ⟨hrel, hso, fun y _ => ?_⟩
      rw [hsl, hno, if_neg (by simp)]
  have hname : (u.mem d).name = (t.mem d).name := hrel.name d
  refine ⟨{ u with nodes := u.nodes.erase (u.mem d).name }, ?_, ?_, ⟨⟨?_, hrel.node⟩, hrel.migrating, hrel.importing,
    hrel.master, hrel.slave⟩, hso, hsl⟩
  · rw [freeClusterNode, hu, clusterLookupNode]
    rw [hrel.nodes, hname, hd]
    rfl
  · rw [← hname, ← hrel.nodes]
  · exact (congrArg (fun x : State => { x with nodes := t.nodes }) hrel.rest :)

theorem Freed.inv {v : State} (h : Inv t) (hf : Freed t v d) (hd : t.Live d) (hne : d ≠ t.myself)
    (hs : ∀ j, t.slots j ≠ some d) (hmig : ∀ j, t.migratingSlotsTo j ≠ some d)
    (himp : ∀ j, t.importingSlotsFrom j ≠ some d) : Inv v ∧ ∀ a, v.Live a ↔ t.Live a ∧ a ≠ d := by
  have hr := hf.relinked
  have hname : ∀ a, (v.mem a).name = (t.mem a).name := hr.name
  have hlive : ∀ a, v.Live a ↔ t.Live a ∧ a ≠ d := by
    intro a
    rw [Live, hf.nodes, hname]
    by_cases hn : (t.mem a).name = (t.mem d).name
    · rw [hn, lookup_erase]
      refine ⟨fun h => (by cases h), fun h' => absurd ?_ h'.2⟩
      have ha := h'.1
      rw [Live, hn, hd] at ha
      exact (Option.some.inj ha).symm
    · rw [lookup_erase_ne hn]
      refine ⟨fun ha => ⟨ha, ?_⟩, And.left⟩
      rintro rfl
      exact hn rfl
  -- but for the list of nodes, the state is one in which only the links have changed
  have hold : ∀ a, v.Live a → State.Live { v with nodes := t.nodes } a := fun a ha => (hr.live a).2 ((hlive a).1 ha).1
  have hkept : ∀ {a}, State.Live { v with nodes := t.nodes } a → a ≠ d → v.Live a := fun ha hne =>
    (hlive _).2 ⟨(hr.live _).1 ha, hne⟩
  have htab := hr.table h.table
  have hown := hr.owners h.owners
  have hopen := hr.opened h.opened
  refine ⟨⟨⟨fun name a ha => ?_, fun a ha => htab.bound a (hold a ha), hkept htab.self fun he => hne (he.symm.trans hr.myself),
      fun a ha => htab.joined a (hold a ha), fun a ha => htab.fresh a (hold a ha), htab.selfJoined,
      fun a ha => htab.myselfFlag a (hold a ha)⟩,
    ⟨fun j a => ⟨fun hj => ?_, fun ha => (hown.owner j a).2 ⟨hold a ha.1, ha.2⟩⟩, fun a ha => hown.count a (hold a ha)⟩,
    ⟨fun k hk => ?_, fun k y hk => ?_, fun y k hy hyk => ?_, fun y hy hyn => ?_⟩,
    ⟨fun j a ha => ⟨(hopen.migrating j a ha).1, hkept (hopen.migrating j a ha).2 ?_⟩,
      fun j a ha => ⟨(hopen.importing j a ha).1, hkept (hopen.importing j a ha).2 ?_⟩⟩⟩, hlive⟩
  · refine htab.named name a ?_
    rw [hf.nodes] at ha
    by_cases hn : name = (t.mem d).name
    · rw [hn, lookup_erase] at ha
      cases ha
    · rwa [lookup_erase_ne hn] at ha
  · obtain ⟨ha, hb⟩ := (hown.owner j a).1 hj
    refine ⟨hkept ha ?_, hb⟩
    rintro rfl
    exact hs j (hr.slots ▸ hj)
  · obtain ⟨hk, hkd⟩ := (hlive k).1 hk
    rw [hf.slaves k hkd]
    split
    · exact (h.links.nodup k hk).erase _
    · exact h.links.nodup k hk
  · obtain ⟨hk, hkd⟩ := (hlive k).1 hk
    -- the nodes that lose their master are the replicas of `d`
    have hso : (v.mem y).slaveof = some k ∧ t.Live y ↔ (t.mem y).slaveof = some k ∧ t.Live y := by
      rw [hf.slaveof]
      split
      next hy =>
        obtain ⟨-, hyd⟩ := (h.links.mem_iff d y hd).1 hy
        rw [hyd]
        simp [hkd.symm]
      · rfl
    rw [hf.slaves k hkd, hlive]
    split
    · rw [(h.links.nodup k hk).mem_erase_iff, h.links.mem_iff k y hk]
      tauto
    next hdk =>
      rw [h.links.mem_iff k y hk]
      constructor
      · rintro ⟨hy, hyk⟩
        refine ⟨⟨hy, ?_⟩, (hso.2 ⟨hyk, hy⟩).1⟩
        rintro rfl
        exact hdk hyk
      · rintro ⟨⟨hy, -⟩, hyk⟩
        exact ⟨hy, (hso.1 ⟨hyk, hy⟩).1⟩
  · obtain ⟨hy, -⟩ := (hlive y).1 hy
    rw [hf.slaveof] at hyk
    split at hyk
    · cases hyk
    next hyd =>
      refine (hlive k).2 ⟨h.links.live y k hy hyk, ?_⟩
      rintro rfl
      exact hyd ((h.links.mem_iff k y hd).2 ⟨hy, hyk⟩)
  · obtain ⟨hy, -⟩ := (hlive y).1 hy
    rw [(hr.slave y : (v.mem y).flags.slave = _)]
    refine h.links.slave y hy fun hno => hyn ?_
    rw [hf.slaveof, hno, ite_self]
  · rintro rfl
    exact hmig j (hr.migrating ▸ ha)
  · rintro rfl
    exact himp j (hr.importing ▸ ha)

theorem clusterDelNode_spec (h : Inv s) (hd : s.Live d) (hne : d ≠ s.myself) :
    ∃ v, clusterDelNode s d = .ok v ∧ Inv v ∧ v.myself = s.myself ∧ (∀ a, v.Live a ↔ s.Live a ∧ a ≠ d) ∧
      (∀ a, (v.mem a).flags.slave = (s.mem a).flags.slave) ∧ (∀ j a, v.slots j = some a → s.slots j = some a) := by
  obtain ⟨t, ht, hft, hit, hst⟩ := delNodeSlots_spec h d
  have hlt : ∀ a, t.Live a ↔ s.Live a := hft.live
  have hclosed : ∀ {f : Nat → Option Nat}, (∀ j a, f j = some a → j < clusterSlots) →
      ∀ j, cleared f d clusterSlots j ≠ some d := by
    intro f hf j hj
    obtain ⟨h₁, h₂⟩ := cleared_eq_some hj
    exact h₂ (hf j d h₁) rfl
  obtain ⟨v, hv, hfv⟩ := freeClusterNode_spec hit ((hlt d).2 hd)
  obtain ⟨hiv, hlv⟩ := hfv.inv hit ((hlt d).2 hd) (hft.myself ▸ hne)
    (by rw [hst]; exact hclosed fun j a hj => h.owners.lt hj)
    (by rw [hft.migrating]; exact hclosed fun j a hj => (h.opened.migrating j a hj).1)
    (by rw [hft.importing]; exact hclosed fun j a hj => (h.opened.importing j a hj).1)
  refine ⟨v, ?_, hiv, hfv.relinked.myself.trans hft.myself, fun a => (hlv a).trans (and_congr_left' (hlt a)),
    fun a => (hfv.relinked.slave a).trans (hft.slave a), fun j a hj => ?_⟩
  · rw [clusterDelNode, ht]
    exact hv
  · rw [(hfv.relinked.slots : v.slots = t.slots), hst] at hj
    exact (cleared_eq_some hj).1

def renamed (s : State) (n : Nat) (newname : Name) : State :=
  { s.modify n (fun m => { m with name := newname }) with
    nodes := (s.nodes.erase (s.mem n).name).insert newname n }

theorem renamed_mem_self (s : State) (n : Nat) (newname : Name) :
    (renamed s n newname).mem n = { s.mem n with name := newname } := update_self ..

theorem renamed_mem_of_ne (s : State) (newname : Name) (h : a ≠ n) :
    (renamed s n newname).mem a = s.mem a := update_of_ne h ..

theorem renamed_live (hn : s.Live n) (hnew : ∀ b, s.nodes.lookup newname = some b → b = n) (a : Nat) :
    (renamed s n newname).Live a ↔ s.Live a := by
  rcases eq_or_ne a n with rfl | hne
  · rw [iff_true_right hn, Live, renamed_mem_self]
    exact lookup_insert ..
  rw [Live, Live, renamed_mem_of_ne _ _ hne, renamed]
  by_cases hname : (s.mem a).name = newname
  · rw [hname, lookup_insert]
    exact ⟨fun ha => absurd (Option.some.inj ha).symm hne, fun ha => absurd (hnew a ha) hne⟩
  rw [lookup_insert_ne hname]
  by_cases hold : (s.mem a).name = (s.mem n).name
  · rw [hold, lookup_erase, hn]
    exact ⟨fun ha => (by cases ha), fun ha => absurd (Option.some.inj ha).symm hne⟩
  · rw [lookup_erase_ne hold]

theorem renamed_inv (h : Inv s) (hn : s.Live n) (hnew : ∀ b, s.nodes.lookup newname = some b → b = n) :
    Inv (renamed s n newname) := by
  have hlive := renamed_live hn hnew
  have hfield : ∀ {β : Type} (g : ClusterNode → β), (∀ c, g { c with name := newname } = g c) →
      ∀ a, g ((renamed s n newname).mem a) = g (s.mem a) := fun g hg =>
    modify_field (s := s) (a := n) (f := fun m => { m with name := newname }) g (hg _)
  have hflags := hfield (·.flags) fun _ => rfl
  refine ⟨h.table.congr (fun name a ha => ?_) hlive rfl rfl (fun a => by rw [hflags])
      fun a => .inr (by rw [hflags]; exact ⟨rfl, rfl, rfl⟩),
    h.owners.congr hlive rfl fun a => ⟨hfield (·.slots) (fun _ => rfl) a, hfield (·.numslots) (fun _ => rfl) a⟩,
    h.links.congr hlive fun a => ⟨hfield (·.slaves) (fun _ => rfl) a, hfield (·.slaveof) (fun _ => rfl) a,
      by rw [hflags]⟩, h.opened.congr hlive rfl rfl⟩
  rw [renamed] at ha
  by_cases hname : name = newname
  · rw [hname, lookup_insert] at ha
    rw [← Option.some.inj ha, renamed_mem_self, hname]
  rw [lookup_insert_ne hname] at ha
  by_cases hold : name = (s.mem n).name
  · rw [hold, lookup_erase] at ha
    cases ha
  · rw [lookup_erase_ne hold] at ha
    have he := h.table.named name a ha
    rw [renamed_mem_of_ne _ _ fun hne => hold (hne ▸ he).symm, he]

theorem clusterRenameNode_spec (h : Table s) (hn : s.Live n) (hnew : ∀ b, s.nodes.lookup newname = some b → b = n) :
    clusterRenameNode s n newname = .ok (renamed s n newname) := by
  have hfree : (s.nodes.erase (s.mem n).name).lookup newname = none := by
    by_cases hold : newname = (s.mem n).name
    · rw [hold, lookup_erase]
    rw [lookup_erase_ne hold]
    cases hl : s.nodes.lookup newname with
    | none => rfl
    | some b => exact absurd (hnew b hl ▸ h.named newname b hl).symm hold
  rw [clusterRenameNode, clusterLookupNode, hn]
  simp [clusterLookupNode, State.modify, hfree, renamed]

theorem join_inv (h : Inv s) (hl : s.Live l) (hh : (s.mem l).flags.handshake = true) (role : Role) :
    Inv (s.modifyFlags l fun f =>
      { f with handshake := false, master := f.master || role == .master, slave := f.slave || role == .slave }) := by
  rw [modifyFlags]
  obtain ⟨f, hf⟩ : ∃ f : ClusterNode → ClusterNode, f = fun n => { n with flags :=
    { n.flags with handshake := false, master := n.flags.master || role == .master
                   slave := n.flags.slave || role == .slave } } := ⟨_, rfl⟩
  rw [← hf]
  obtain ⟨hm, hs⟩ := h.table.fresh l hl hh
  have hno : (s.mem l).slaveof = none := by
    by_contra hno
    rw [h.links.slave l hl hno] at hs
    cases hs
  have hself : (s.modify l f).mem l = f (s.mem l) := modify_mem_self ..
  have hname : ∀ a, ((s.modify l f).mem a).name = (s.mem a).name := modify_field ClusterNode.name (by rw [hf])
  have hlive : ∀ a, (s.modify l f).Live a ↔ s.Live a := fun a => live_congr rfl (hname a)
  refine ⟨h.table.congr (h.table.named_congr rfl hname) hlive rfl rfl (modify_field (·.flags.myself) (by rw [hf]))
      fun a => ?_, h.owners.congr hlive rfl fun a => ?_, ?_, h.opened.congr hlive rfl rfl⟩
  · rcases eq_or_ne a l with rfl | hal
    · rw [hself, hf]
      dsimp only
      rw [hm, hs]
      cases role <;> exact .inl ⟨rfl, rfl⟩
    · rw [modify_mem_of_ne _ _ hal]
      exact .inr ⟨rfl, rfl, rfl⟩
  · exact ⟨modify_field ClusterNode.slots (by rw [hf]) a, modify_field ClusterNode.numslots (by rw [hf]) a⟩
  · refine ((h.links.but hno).modify ?_ ?_).detached ?_
    · rw [hf]
    · rw [hf]
    · rw [hself, hf]
      exact hno

end Redis.ClusterTable
