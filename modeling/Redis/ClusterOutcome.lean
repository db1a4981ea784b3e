import Redis.ClusterKeeps

/-! # What packets do to the table

A packet leaves a consistent table, or the process dies in one of two ways (`Outcome`): it has no master
to look at, or it owns slots as a replica and is given another master. -/

namespace Redis.ClusterTable

open State

variable {s s' s'' : State} {a l m n x sender : Nat} {j : Nat} {epoch : UInt64} {slots : Bitmap}
variable {curmaster : Option Nat}

/-! ### Outcomes -/

/-- A consistent state with `P`, or one of the two faults that the invariant does not exclude. -/
def Outcome (s : State) (P : State → Prop) : Except Fault State → Prop
  | .ok s' => Inv s' ∧ (Idle s → Idle s') ∧ P s'
  | .error f => f = .nullMaster ∨ f = .setMasterSlots ∧ ¬Idle s

/-- An outcome of which nothing more is asked. -/
abbrev Stays (s : State) (r : Except Fault State) : Prop := Outcome s (fun _ => True) r

namespace Outcome
variable {P Q : State → Prop} {r : Except Fault State} {f : State → Except Fault State}

theorem imp (h : Outcome s P r) (hPQ : ∀ s', P s' → Q s') : Outcome s Q r := by
  cases r with
  | error e => exact h
  | ok s' => exact ⟨h.1, h.2.1, hPQ s' h.2.2⟩

theorem stays (h : Outcome s P r) : Stays s r := h.imp fun _ _ => trivial

theorem after (h : Outcome s' P r) (hidle : Idle s → Idle s') : Outcome s P r := by
  cases r with
  | error e => exact h.imp_right fun he => ⟨he.1, fun h => he.2 (hidle h)⟩
  | ok s'' => exact ⟨h.1, fun h' => h.2.1 (hidle h'), h.2.2⟩

theorem after_core (h : Outcome s' P r) (hf : CoreFrame s s') : Outcome s P r :=
  h.after fun hidle => hidle.of_coreFrame hf

theorem bind (h : Outcome s P r) (hf : ∀ s', Inv s' → P s' → Outcome s' Q (f s')) : Outcome s Q (r.bind f) := by
  cases r with
  | error e => exact h
  | ok s' => exact (hf s' h.1 h.2.2).after h.2.1

end Outcome

theorem Inv.outcome_core (h : Inv s) (hf : CoreFrame s s') : Stays s (.ok s') :=
  ⟨h.of_coreFrame hf, fun hi => hi.of_coreFrame hf, trivial⟩

theorem Inv.kept (h : Inv s) : Stays s (.ok s) := h.outcome_core (.refl s)

/-! ### Claims of other nodes -/

def Takes (s : State) (sender : Nat) (epoch : UInt64) (slots : Bitmap) (j : Nat) : Prop :=
  bitmapTestBit slots j = true ∧ s.slots j ≠ some sender ∧ s.importingSlotsFrom j = none ∧ isOlder s epoch j = true

instance : Decidable (Takes s sender epoch slots j) := inferInstanceAs (Decidable (_ ∧ _ ∧ _ ∧ _))

theorem isOlder_congr (hs : s'.slots j = s.slots j) (he : ∀ a, (s'.mem a).configEpoch = (s.mem a).configEpoch) :
    isOlder s' epoch j = isOlder s epoch j := by
  rw [isOlder, isOlder, hs]
  cases s.slots j with
  | none => rfl
  | some o => simp [he]

theorem updateSlot_spec {r : SlotScan} (ho : Owners r.state) (hs : r.state.Live sender) (hj : j < clusterSlots) :
    ∃ r', updateSlot sender epoch slots curmaster r j = .ok r' ∧ Reassigned r.state r'.state j
      (if Takes r.state sender epoch slots j then some sender else r.state.slots j) := by
  rw [updateSlot]
  split
  next hc =>
    refine ⟨r, rfl, ?_⟩
    rw [if_neg]
    · exact .self ho j
    rintro ⟨h₁, h₂, h₃, -⟩
    rcases hc with hc | hc | hc
    · rw [h₁] at hc
      cases hc
    · exact h₂ hc
    · rw [h₃] at hc
      cases hc
  next hc =>
    rw [not_or, not_or, Bool.not_eq_false, Bool.not_eq_true, Option.isSome_eq_false_iff, Option.isNone_iff_eq_none] at hc
    split
    next hold =>
      obtain ⟨d, hd, -, hre⟩ := moveSlot_spec ho hs hj
      have ht : Takes r.state sender epoch slots j := ⟨hc.1, hc.2.1, hc.2.2, hold⟩
      rw [hd, if_pos ht]
      exact ⟨_, rfl, hre⟩
    next hold =>
      refine ⟨r, rfl, ?_⟩
      rw [if_neg fun ht => hold ht.2.2.2]
      exact .self ho j

theorem updateSlots_spec (h : Owners s) (hs : s.Live sender) (epoch : UInt64) (slots : Bitmap) (curmaster : Option Nat) :
    ∃ r, forSlots (updateSlot sender epoch slots curmaster) ⟨s, false, []⟩ = .ok r ∧ SlotFrame s r.state ∧
      Owners r.state ∧ (∀ j, r.state.slots j = if Takes s sender epoch slots j then some sender else s.slots j) := by
  have hstep : ∀ y j, j < clusterSlots → SlotFrame s y.state → Owners y.state → y.state.slots j = s.slots j →
      ∃ y', updateSlot sender epoch slots curmaster y j = .ok y' ∧ Reassigned y.state y'.state j
        (if Takes s sender epoch slots j then some sender else s.slots j) := by
    intro y j hj hf ho hy
    obtain ⟨y', hy', hre⟩ := updateSlot_spec ho ((hf.live sender).2 hs) hj
    -- the loop has left alone what the decision about slot `j` depends on
    have htakes : Takes y.state sender epoch slots j ↔ Takes s sender epoch slots j := by
      rw [Takes, Takes, hy, hf.importing, isOlder_congr hy hf.configEpoch]
    rw [if_congr htakes rfl hy] at hre
    exact ⟨y', hy', hre⟩
  obtain ⟨r, hr, hf, ho, hsl⟩ := forSlots_spec SlotScan.state (x := ⟨s, false, []⟩) h hstep
  refine ⟨r, hr, hf, ho, fun j => (hsl j).trans ?_⟩
  split
  · rfl
  next hj => rw [if_neg fun ht => hj (lt_of_bitmapTestBit ht.1)]

theorem foldl_delKeysInSlot (l : List Nat) (s : State) :
    ∃ keys size, l.foldl delKeysInSlot s = { s with keys := keys, dbSize := size } := by
  induction l generalizing s with
  | nil => exact ⟨s.keys, s.dbSize, rfl⟩
  | cons j l ih =>
    obtain ⟨keys, size, h⟩ := ih (delKeysInSlot s j)
    exact ⟨keys, size, h⟩

/-- What a packet leaves alone, whatever its sender claims. -/
structure Steady (s s' : State) : Prop where
  nodes : s'.nodes = s.nodes
  myself : s'.myself = s.myself
  name : ∀ a, (s'.mem a).name = (s.mem a).name
  handshake : ∀ a, (s'.mem a).flags.handshake = (s.mem a).flags.handshake
  configEpoch : ∀ a, (s'.mem a).configEpoch = (s.mem a).configEpoch
  importing : s'.importingSlotsFrom = s.importingSlotsFrom ∨ s'.importingSlotsFrom = fun _ => none

namespace Steady

protected theorem refl (s : State) : Steady s s := ⟨rfl, rfl, fun _ => rfl, fun _ => rfl, fun _ => rfl, .inl rfl⟩

protected theorem trans (h : Steady s s') (h' : Steady s' s'') : Steady s s'' := by
  refine ⟨h'.nodes.trans h.nodes, h'.myself.trans h.myself, fun a => (h'.name a).trans (h.name a),
    fun a => (h'.handshake a).trans (h.handshake a), fun a => (h'.configEpoch a).trans (h.configEpoch a), ?_⟩
  rcases h'.importing with he | he
  · rw [he]
    exact h.importing
  · exact .inr he

theorem live (h : Steady s s') (a : Nat) : s'.Live a ↔ s.Live a := live_congr h.nodes (h.name a)

end Steady

theorem SlotFrame.steady (h : SlotFrame s s') : Steady s s' :=
  ⟨h.nodes, h.myself, h.name, h.handshake, h.configEpoch, .inl h.importing⟩

theorem LinkFrame.steady (h : LinkFrame s s')
    (hi : s'.importingSlotsFrom = s.importingSlotsFrom ∨ s'.importingSlotsFrom = fun _ => none) : Steady s s' :=
  ⟨h.nodes, h.myself, h.name, h.handshake, h.configEpoch, hi⟩

theorem clusterSetMaster_outcome (h : Inv s) (hn : s.Live n) (hne : n ≠ s.myself)
    (hz : (s.mem s.myself).flags.slave = true ∨ (s.mem s.myself).numslots = 0) :
    Outcome s (fun s' => Steady s s' ∧ s'.slots = s.slots ∧ (s'.mem s.myself).slaveof = some n) (clusterSetMaster s n) := by
  by_cases hown : ∀ j, s.slots j ≠ some s.myself
  · obtain ⟨s', hs', hi, hf, hso, himp⟩ := clusterSetMaster_spec h hn hne hown
    rw [hs']
    refine ⟨hi, fun _ _ j hj => ?_, hf.steady himp, hf.slots, hso⟩
    rw [hf.slots, hf.myself] at hj
    exact hown j hj
  · have hnz : (s.mem s.myself).numslots ≠ 0 := fun hz =>
      hown ((h.owners.numslots_eq_zero h.table.self).1 hz)
    rw [clusterSetMaster, if_neg hne, if_pos hnz]
    exact .inr ⟨rfl, fun hidle => hown (hidle (hz.resolve_right hnz))⟩

/-- The claimed slots are taken, and perhaps this node has a new master. -/
structure Claimed (s : State) (sender : Nat) (epoch : UInt64) (slots : Bitmap) (s' : State) : Prop where
  steady : Steady s s'
  slots : sender ≠ s.myself → ∀ j, s'.slots j = if Takes s sender epoch slots j then some sender else s.slots j
  slaveof : (s'.mem s.myself).slaveof = (s.mem s.myself).slaveof ∨ (s'.mem s.myself).slaveof = some sender

theorem reconfigureMyself_outcome {r : SlotScan} (h : Inv r.state) (hs : r.state.Live sender)
    (hne : sender ≠ r.state.myself)
    (hcm : curmaster = some r.state.myself ∨ (r.state.mem r.state.myself).flags.slave = true) :
    Outcome r.state (fun s' => Steady r.state s' ∧ s'.slots = r.state.slots ∧
      ((s'.mem r.state.myself).slaveof = (r.state.mem r.state.myself).slaveof ∨
        (s'.mem r.state.myself).slaveof = some sender)) (reconfigureMyself sender curmaster r) := by
  obtain ⟨keys, size, hk⟩ := foldl_delKeysInSlot r.dirtySlots r.state
  have hc : CoreFrame r.state { r.state with keys := keys, dbSize := size } :=
    ⟨rfl, rfl, rfl, rfl, rfl, rfl, fun _ => rfl⟩
  have hst : Steady r.state { r.state with keys := keys, dbSize := size } :=
    ⟨rfl, rfl, fun _ => rfl, fun _ => rfl, fun _ => rfl, .inl rfl⟩
  unfold reconfigureMyself
  dsimp only
  rw [hk]
  split
  · exact ⟨h, id, .refl _, rfl, .inl rfl⟩
  split
  · split
    · exact .inl rfl
    split
    next hz =>
      have hz' := hcm.symm.imp_right fun he => Option.some.inj he ▸ hz
      exact (clusterSetMaster_outcome h hs hne hz').imp fun s' hs' => ⟨hs'.1, hs'.2.1, .inr hs'.2.2⟩
    · exact ⟨h.of_coreFrame hc, fun h' => h'.of_coreFrame hc, hst, rfl, .inl rfl⟩
  · exact ⟨h.of_coreFrame hc, fun h' => h'.of_coreFrame hc, hst, rfl, .inl rfl⟩

theorem clusterUpdateSlotsConfigWith_outcome (h : Inv s) (hs : s.Live sender) :
    Outcome s (Claimed s sender epoch slots) (clusterUpdateSlotsConfigWith s sender epoch slots) := by
  rw [clusterUpdateSlotsConfigWith]
  by_cases hne : sender = s.myself
  · rw [if_pos hne]
    exact ⟨h, id, .refl s, fun h => absurd hne h, .inl rfl⟩
  rw [if_neg hne]
  obtain ⟨cm, hcm⟩ : ∃ cm, (if (s.mem s.myself).flags.master then some s.myself else (s.mem s.myself).slaveof) = cm :=
    ⟨_, rfl⟩
  rw [hcm]
  obtain ⟨r, hr, hf, ho, hsl⟩ := updateSlots_spec h.owners hs epoch slots cm
  have hi := h.of_slotFrame hf ho
  have hidle : Idle s → Idle r.state := by
    refine fun hi => hi.of_slots hf.myself (fun h' => hf.slave _ ▸ h') fun j hj => ?_
    rw [hsl] at hj
    split at hj
    · exact absurd (Option.some.inj hj) hne
    · exact hj
  have hmaster : cm = some r.state.myself ∨ (r.state.mem r.state.myself).flags.slave = true := by
    rw [hf.myself, hf.slave, ← hcm]
    split
    · exact .inl rfl
    next hm =>
      exact .inr (by simpa [hm] using h.table.joined _ h.table.self h.table.selfJoined)
  have hafter := reconfigureMyself_outcome hi ((hf.live _).2 hs) (by rw [hf.myself]; exact hne) hmaster
  rw [hr]
  refine (hafter.imp ?_).after hidle
  rintro s' ⟨hst, hs', hso⟩
  refine ⟨hf.steady.trans hst, fun _ j => by rw [hs', hsl], ?_⟩
  rwa [hf.myself, hf.slaveof] at hso

/-! ### Packets -/

section
variable (s : State)

theorem seeEpoch_core (e : UInt64) : CoreFrame s (seeEpoch s e) := by
  rw [seeEpoch]
  split
  · exact ⟨rfl, rfl, rfl, rfl, rfl, rfl, fun _ => rfl⟩
  · exact .refl s

theorem updateEpochs_core (sender : Option Nat) (hdr : Header) : CoreFrame s (updateEpochs s sender hdr) := by
  rcases sender with - | a
  · exact .refl s
  rw [updateEpochs]
  split
  · exact .refl s
  split
  · exact (seeEpoch_core ..).trans (.modify _ _ _ rfl)
  · exact seeEpoch_core ..

theorem setAddress_core (n : Nat) (ip : List UInt8) (port cport : Int) :
    CoreFrame s (setAddress s n ip port cport) := .modify _ _ _ rfl

theorem nodeUpdateAddressIfNeeded_core (n : Nat) (link : Option Nat) (hdr : Header) :
    CoreFrame s (nodeUpdateAddressIfNeeded s n link hdr) := by
  rw [nodeUpdateAddressIfNeeded]
  split
  · exact .refl s
  split
  · exact .refl s
  · exact setAddress_core ..

theorem pongReceived_core (link : Option Nat) (p : Ping) : CoreFrame s (pongReceived s link p) := by
  rcases link with - | l
  · exact .refl s
  rw [pongReceived]
  split
  · have h₁ : CoreFrame s (s.modify l fun n => { n with pongReceived := p.now, pingSent := 0 }) := .modify _ _ _ rfl
    dsimp only
    split
    · exact h₁.trans (.modify _ _ _ rfl)
    split
    · split
      · exact h₁.trans (.modify _ _ _ rfl)
      · exact h₁
    · exact h₁
  · exact .refl s

theorem takeNewEpoch_core : CoreFrame s (takeNewEpoch s) := by
  have h : CoreFrame s { s with currentEpoch := s.currentEpoch + 1 } := ⟨rfl, rfl, rfl, rfl, rfl, rfl, fun _ => rfl⟩
  exact h.trans (CoreFrame.modify { s with currentEpoch := s.currentEpoch + 1 } s.myself _ rfl)

theorem bumpConfigEpoch_core : CoreFrame s (clusterBumpConfigEpochWithoutConsensus s).2 := by
  rw [clusterBumpConfigEpochWithoutConsensus]
  split
  · exact takeNewEpoch_core s
  · exact .refl s

theorem configEpochCollision_core (sender : Nat) : CoreFrame s (clusterHandleConfigEpochCollision s sender) := by
  rw [clusterHandleConfigEpochCollision]
  split
  · exact .refl s
  split
  · exact .refl s
  · exact takeNewEpoch_core s

theorem setMyIp_core (p : Ping) : CoreFrame s (setMyIp s p) := by
  rw [setMyIp]
  split
  · exact .refl s
  split
  · exact .modify _ _ _ rfl
  · exact .refl s

end

theorem addNode_outcome (h : Inv s) {c : ClusterNode} (hc : Blank c) :
    Outcome s (fun s' => ∀ a, s.Live a → s'.Live a ∧ (s'.mem a).core = (s.mem a).core) (.ok (addNode s c)) := by
  obtain ⟨⟨hi, hold⟩, hmy, hsl⟩ := addNode_spec h hc
  refine ⟨hi, fun hidle => hidle.of_slots hmy (fun hs => ?_) fun j hj => hsl ▸ hj, fun a ha => ?_⟩
  · rwa [(hold _ h.table.self).2] at hs
  · exact ⟨(hold a ha).1, by rw [(hold a ha).2]⟩

theorem answerPing_outcome (h : Inv s) (sender : Option Nat) (p : Ping) :
    Outcome s (fun s' => ∀ a, s.Live a → s'.Live a ∧ (s'.mem a).core = (s.mem a).core) (.ok (answerPing s sender p)) := by
  have hc := setMyIp_core s p
  rw [answerPing]
  split
  · exact ⟨h, id, fun a ha => ⟨ha, rfl⟩⟩
  split
  · refine ((addNode_outcome (h.of_coreFrame hc) ⟨rfl, rfl, rfl, rfl, rfl, rfl, rfl, rfl⟩).imp
      fun s' hs' a ha => ?_).after_core hc
    obtain ⟨hl, hm⟩ := hs' a ((hc.live a).2 ha)
    exact ⟨hl, hm.trans (hc.node a)⟩
  · exact ⟨h.of_coreFrame hc, fun hidle => hidle.of_coreFrame hc, fun a ha => ⟨(hc.live a).2 ha, hc.node a⟩⟩

theorem roleSwitch_outcome (h : Inv s) (ha : s.Live a) (hj : (s.mem a).flags.handshake = false) (hdr : Header) :
    Outcome s (fun s' => Steady s s' ∧ (hdr.slaveof = none → s'.slots = s.slots ∧ (s'.mem a).flags.master = true))
      (roleSwitch s a hdr) := by
  rw [roleSwitch]
  rcases hdr.slaveof with - | name
  · obtain ⟨hi, hf, himp, hmas, -, hidle⟩ := clusterSetNodeAsMaster_spec h ha hj
    exact ⟨hi, hidle, hf.steady (.inl himp), fun _ => ⟨hf.slots, hmas⟩⟩
  have hlook : ∀ m, clusterLookupNode s name = some m → s.Live m := fun m hm => h.table.lookup_live hm
  dsimp only
  split
  next hmas =>
    obtain ⟨t, ht, hft, hot, hst⟩ := clusterDelNodeSlots_spec h.owners ha
    obtain ⟨hiu, hfu⟩ := asSlave_spec (h.of_slotFrame hft hot) ((hft.live a).2 ha) ((hft.handshake a).trans hj)
      ((hft.master a).trans hmas)
    obtain ⟨hiv, hfv⟩ := changeMaster_spec hiu ((hfu.live a).2 ((hft.live a).2 ha)) (by rw [modify_mem_self]; rfl)
      fun m hm => (hfu.live m).2 ((hft.live m).2 (hlook m hm))
    have hslots := hfv.slots.trans hfu.slots
    have hmy := hfv.myself.trans (hfu.myself.trans hft.myself)
    rw [ht]
    refine ⟨hiv, fun hidle hs j hj => ?_, ?_, fun hno => nomatch hno⟩
    · rw [hslots, hst, hmy] at hj
      split at hj
      · cases hj
      next hown =>
        have hne : s.myself ≠ a := fun he => hown (he ▸ hj)
        rw [hmy, hfv.slave, modify_mem_of_ne _ _ hne, hft.slave] at hs
        exact hidle hs j hj
    · exact (hft.steady.trans (hfu.steady (.inl rfl))).trans (hfv.steady (.inl hfv.importing))
  next hmas =>
    obtain ⟨hi, hf⟩ := changeMaster_spec h ha (by simpa [hmas] using h.table.joined a ha hj) hlook
    exact ⟨hi, fun hidle => hidle.of_slots hf.myself (fun hs => hf.slave _ ▸ hs) fun j hj => hf.slots ▸ hj,
      hf.steady (.inl hf.importing), fun hno => nomatch hno⟩

theorem claimedSlots_outcome (h : Inv s) (ha : s.Live a) (hdr : Header) :
    Outcome s (Steady s) (claimedSlots s a epoch hdr) := by
  rw [claimedSlots]
  split
  · exact (clusterUpdateSlotsConfigWith_outcome h ha).imp fun s' hs' => hs'.steady
  · exact ⟨h, id, .refl s⟩

theorem processConfig_core (s : State) (a : Nat) (link : Option Nat) (p : Ping) : CoreFrame s (pongReceived
      (if p.type = .ping ∧
          ((s.modifyFlags a fun f => { f with nofailover := p.hdr.nofailover }).mem a).flags.handshake = false then
        nodeUpdateAddressIfNeeded (s.modifyFlags a fun f => { f with nofailover := p.hdr.nofailover }) a link p.hdr
      else s.modifyFlags a fun f => { f with nofailover := p.hdr.nofailover }) link p) := by
  have h₁ : CoreFrame s (s.modifyFlags a fun f => { f with nofailover := p.hdr.nofailover }) := .modify _ _ _ rfl
  split
  · exact (h₁.trans (nodeUpdateAddressIfNeeded_core ..)).trans (pongReceived_core ..)
  · exact h₁.trans (pongReceived_core ..)

theorem processConfig_outcome (h : Inv s) {sender : Option Nat}
    (hs : ∀ a, sender = some a → s.Live a ∧ (s.mem a).flags.handshake = false) (link : Option Nat) (p : Ping) :
    Stays s (processConfig s sender link epoch p) := by
  rcases sender with - | a
  · exact h.outcome_core (pongReceived_core ..)
  obtain ⟨ha, hj⟩ := hs a rfl
  have hc := processConfig_core s a link p
  refine Outcome.after_core ?_ hc
  have ht := h.of_coreFrame hc
  refine (roleSwitch_outcome ht ((hc.live a).2 ha) ((hc.handshake a).trans hj) p.hdr).bind fun u hu hru => ?_
  refine (claimedSlots_outcome hu ((hru.1.live a).2 ((hc.live a).2 ha)) p.hdr).bind fun v hv _ => ?_
  split
  · exact hv.outcome_core (configEpochCollision_core ..)
  · exact hv.kept

theorem finishHandshake_outcome (h : Inv s) (hl : s.Live l) (hh : (s.mem l).flags.handshake = true) {hdr : Header}
    (hnew : s.nodes.lookup hdr.sender = none) : Stays s (finishHandshake s l hdr) := by
  have hfree : ∀ b, s.nodes.lookup hdr.sender = some b → b = l := fun b hb => by
    rw [hnew] at hb
    cases hb
  rw [finishHandshake, clusterRenameNode_spec h.table hl hfree]
  have hr := renamed_inv h hl hfree
  have hh' : ((renamed s l hdr.sender).mem l).flags.handshake = true := by
    rw [renamed_mem_self]
    exact hh
  refine ⟨join_inv hr ((renamed_live hl hfree l).2 hl) hh' hdr.role, fun hidle => hidle.of_slots rfl (fun hs => ?_)
    fun j hj => hj, trivial⟩
  have hne := (h.table.ne_self hh).symm
  have hmem : ∀ f, ((renamed s l hdr.sender).modifyFlags l f).mem s.myself = s.mem s.myself :=
    fun f => (modify_mem_of_ne _ _ hne).trans (renamed_mem_of_ne _ _ hne)
  exact (congrArg (fun n : ClusterNode => n.flags.slave) (hmem _)).symm.trans hs

theorem clusterDelNode_outcome {d : Nat} (h : Inv s) (hd : s.Live d) (hne : d ≠ s.myself) :
    Outcome s (fun s' => s'.myself = s.myself ∧ ∀ a, s'.Live a ↔ s.Live a ∧ a ≠ d) (clusterDelNode s d) := by
  obtain ⟨v, hv, hi, hmy, hlive, hsl, hslots⟩ := clusterDelNode_spec h hd hne
  rw [hv]
  exact ⟨hi, fun hidle => hidle.of_slots hmy (fun hs => hsl _ ▸ hs) fun j hj => hslots j _ hj, hmy, hlive⟩

theorem addNode_lookup (s : State) {c : ClusterNode} {name : Name} (hne : name ≠ c.name) :
    (addNode s c).nodes.lookup name = s.nodes.lookup name := by
  rw [addNode]
  split
  · rfl
  · exact AList.lookup_insert_ne hne

theorem answerPing_lookup (s : State) (sender : Option Nat) {p : Ping} {name : Name} (hne : name ≠ p.tempName) :
    (answerPing s sender p).nodes.lookup name = s.nodes.lookup name := by
  have hn : (setMyIp s p).nodes = s.nodes := (setMyIp_core s p).nodes
  rw [answerPing]
  split
  · rfl
  split
  · rw [addNode_lookup _ hne, hn]
  · rw [hn]

theorem processPing_outcome (h : Inv s) {p : Ping}
    (hs : ∀ a, clusterLookupNode s p.hdr.sender = some a → (s.mem a).flags.handshake = false)
    (hne : p.hdr.sender ≠ p.tempName) : Stays s (processPing s p) := by
  obtain ⟨sender, hsender⟩ : ∃ o, clusterLookupNode s p.hdr.sender = o := ⟨_, rfl⟩
  obtain ⟨link, hlink⟩ : ∃ o, p.link.bind (clusterLookupNode s) = o := ⟨_, rfl⟩
  obtain ⟨t, ht⟩ : ∃ t, answerPing (updateEpochs s sender p.hdr) sender p = t := ⟨_, rfl⟩
  have hc := updateEpochs_core s sender p.hdr
  obtain ⟨hi, hidle, hkeep⟩ := answerPing_outcome (h.of_coreFrame hc) sender p
  rw [processPing, hsender, hlink]
  rw [ht] at hi hidle hkeep ⊢
  refine Outcome.after ?_ fun hi => hidle (hi.of_coreFrame hc)
  have hold : ∀ b, s.Live b → t.Live b ∧ (t.mem b).core = (s.mem b).core := by
    intro b hb
    obtain ⟨h₁, h₂⟩ := hkeep b ((hc.live b).2 hb)
    exact ⟨h₁, h₂.trans (hc.node b)⟩
  have hknown : ∀ a, sender = some a → t.Live a ∧ (t.mem a).flags.handshake = false := by
    rintro a rfl
    obtain ⟨h₁, h₂⟩ := hold a (h.table.lookup_live hsender)
    exact ⟨h₁, (congrArg (fun n : ClusterNode => n.flags.handshake) h₂ :).trans (hs a hsender)⟩
  have hnone : sender = none → t.nodes.lookup p.hdr.sender = none := by
    rintro rfl
    rw [← ht, answerPing_lookup _ _ hne]
    exact hsender
  split
  · exact processConfig_outcome hi hknown none p
  next l =>
    obtain ⟨name, -, hl⟩ := Option.bind_eq_some_iff.1 hlink
    obtain ⟨hl, -⟩ := hold l (h.table.lookup_live hl)
    split
    next hh =>
      have hself := hi.table.ne_self hh
      split
      next a =>
        have hn := nodeUpdateAddressIfNeeded_core t a (some l) p.hdr
        refine Outcome.after_core ?_ hn
        exact (clusterDelNode_outcome (hi.of_coreFrame hn) ((hn.live l).2 hl) (hn.myself ▸ hself)).stays
      · exact (finishHandshake_outcome hi hl hh (hnone rfl)).bind fun u hu _ =>
          processConfig_outcome hu (by simp) (some l) p
    · split
      · exact hi.outcome_core (.modify _ _ _ rfl)
      · exact processConfig_outcome hi hknown (some l) p

theorem processUpdate_outcome (h : Inv s) (hdr : Header) (nodename : Name) (epoch : UInt64) (slots : Bitmap) :
    Stays s (processUpdate s hdr nodename epoch slots) := by
  have hc := updateEpochs_core s (clusterLookupNode s hdr.sender) hdr
  have hi := h.of_coreFrame hc
  rw [processUpdate]
  refine Outcome.after_core ?_ hc
  split
  next a n _ hn =>
    have hl := hi.table.lookup_live hn
    split
    · exact hi.kept
    obtain ⟨t, ht⟩ : ∃ t, updateEpochs s (clusterLookupNode s hdr.sender) hdr = t := ⟨_, rfl⟩
    rw [ht] at hi hl ⊢
    have hmaster : ∀ u, Inv u → u.Live n → Stays u
        (clusterUpdateSlotsConfigWith (u.modify n fun m => { m with configEpoch := epoch }) n epoch slots) := by
      intro u hu hn
      have hcu : CoreFrame u (u.modify n fun m => { m with configEpoch := epoch }) := .modify _ _ _ rfl
      exact (clusterUpdateSlotsConfigWith_outcome (hu.of_coreFrame hcu) ((hcu.live n).2 hn)).stays.after_core hcu
    split
    next hsl =>
      have hj : (t.mem n).flags.handshake = false := by
        by_contra hh
        rw [Bool.not_eq_false] at hh
        rw [(hi.table.fresh n hl hh).2] at hsl
        cases hsl
      obtain ⟨hiu, hfu, -, -, -, hidle⟩ := clusterSetNodeAsMaster_spec hi hl hj
      exact (hmaster _ hiu ((hfu.live n).2 hl)).after hidle
    · exact hmaster t hi hl
  · exact hi.kept

theorem processFail_core (s : State) (hdr : Header) (about : Name) : CoreFrame s (processFail s hdr about) := by
  have hc := updateEpochs_core s (clusterLookupNode s hdr.sender) hdr
  rw [processFail]
  split
  · split
    · exact hc
    · exact hc.trans (.modify _ _ _ rfl)
  · exact hc

theorem sendFailoverAuth_core (s : State) (node : Nat) (hdr : Header) (forceAck late : Bool) :
    CoreFrame s (clusterSendFailoverAuthIfNeeded s node hdr forceAck late) := by
  rw [clusterSendFailoverAuthIfNeeded]
  iterate 5
    split
    · exact .refl s
  exact ⟨rfl, rfl, rfl, rfl, rfl, rfl, fun _ => rfl⟩

theorem processAuthRequest_core (s : State) (hdr : Header) (forceAck late : Bool) :
    CoreFrame s (processAuthRequest s hdr forceAck late) := by
  have hc := updateEpochs_core s (clusterLookupNode s hdr.sender) hdr
  rw [processAuthRequest]
  split
  · exact hc
  · exact hc.trans (sendFailoverAuth_core ..)

end Redis.ClusterTable
