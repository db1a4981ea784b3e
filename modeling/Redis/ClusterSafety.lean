import Redis.ClusterOutcome

/-! # The table of the cluster stays consistent

Failovers, commands and whole runs. The table is consistent in every state of a run, and the asserts of
`cluster.c` hold, as long as no slot is given to this node while it is a replica. -/

namespace Redis.ClusterTable
open List Function AList

open State

variable {s s' : State} {a m n : Nat} {j : Nat}
variable {del : Bool} {count : Nat → Nat}

/-! ### Failover -/

theorem replaceYourMaster_outcome (h : Inv s) : Stays s (clusterFailoverReplaceYourMaster s) := by
  rw [clusterFailoverReplaceYourMaster]
  split
  · exact h.kept
  rename_i old hold
  split
  · exact h.kept
  obtain ⟨hi, hf, -, -, hsl, -⟩ := clusterSetNodeAsMaster_spec h h.table.self h.table.selfJoined
  obtain ⟨u, hu⟩ : ∃ u, clusterSetNodeAsMaster s s.myself = u := ⟨_, rfl⟩
  rw [hu] at hi hf hsl ⊢
  have hlive : u.Live old := (hf.live old).2 (h.links.live _ old h.table.self hold)
  obtain ⟨v, hv, hfv, hov, -⟩ := forSlots_owned
    (fun t j => (clusterDelSlot t j).map fun d => (clusterAddSlot d.2 d.2.myself j).2) hi.owners hlive fun t j hj hft ho => by
      obtain ⟨r, hr, hfr, hre⟩ := moveSlot_spec ho ((hft.live _).2 hi.table.self) hj
      rw [hr]
      refine ⟨_, rfl, ?_⟩
      show Reassigned t (clusterAddSlot r.2 r.2.myself j).2 j (some u.myself)
      rw [hfr.myself, hft.myself]
      exact hre
  rw [hv]
  refine ⟨hi.of_slotFrame hfv hov, fun _ hs => ?_, trivial⟩
  rw [hfv.myself, hfv.slave, hf.myself, hsl] at hs
  cases hs

theorem winElection_outcome (h : Inv s) (manual noFailover : Bool) : Stays s (winElection s manual noFailover) := by
  rw [winElection]
  split
  · exact h.kept
  split
  · exact h.kept
  have hc : CoreFrame s (s.modify s.myself fun n => { n with
      configEpoch := if n.configEpoch < s.failoverAuthEpoch then s.failoverAuthEpoch else n.configEpoch }) :=
    .modify _ _ _ rfl
  exact (replaceYourMaster_outcome (h.of_coreFrame hc)).after_core hc

theorem migrateTo_outcome (h : Inv s) (hn : s.Live n) : Stays s (migrateTo s n) := by
  rw [migrateTo]
  split
  · exact h.kept
  rename_i hself
  rw [not_or, Bool.not_eq_false] at hself
  split
  · exact h.kept
  rename_i htarget
  have hne : n ≠ s.myself := by
    rintro rfl
    exact htarget (.inl hself.1)
  exact (clusterSetMaster_outcome h hn hne (.inl hself.1)).stays

/-! ### Commands -/

theorem Outcome.reply {P : State → Prop} {r : Except Fault State} (h : Outcome s P r) (x : Reply) :
    Outcome s P ((r.map fun s => (s, x)).map Prod.fst) := by
  cases r with
  | error e | ok s' => exact h

theorem update_opened {f : Nat → Option Nat} {i : Nat} {o : Option Nat}
    (hf : ∀ j a, f j = some a → j < clusterSlots ∧ s.Live a) (ho : ∀ a, o = some a → i < clusterSlots ∧ s.Live a) :
    ∀ j a, update f i o j = some a → j < clusterSlots ∧ s.Live a := by
  intro j a ha
  rcases eq_or_ne j i with rfl | hne
  · rw [update_self] at ha
    exact ho a ha
  · rw [update_of_ne hne] at ha
    exact hf j a ha

theorem checkSlots_spec {args : List Nat} {count' : Nat → Nat} (h : checkSlots s del args count = .ok count')
    (hc : ∀ j, count j ≠ 0 → j < clusterSlots ∧ (s.slots j).isSome = del) :
    ∀ j, count' j ≠ 0 → j < clusterSlots ∧ (s.slots j).isSome = del := by
  induction args generalizing count with
  | nil =>
    cases h
    exact hc
  | cons slot args ih =>
    rw [checkSlots] at h
    split at h
    · cases h
    split at h
    · cases h
    rename_i hdel
    split at h
    · cases h
    rename_i hadd
    split at h
    · cases h
    refine ih h fun j hj => ?_
    rcases eq_or_ne j slot with rfl | hne
    · refine ⟨by omega, ?_⟩
      cases del with
      | false => simpa using hadd
      | true => simpa [Option.isSome_iff_ne_none] using hdel
    · rw [update_of_ne hne] at hj
      exact hc j hj

theorem assignSlot_spec (h : Inv s) (hj : j < clusterSlots) (hd : (s.slots j).isSome = del) :
    ∃ s', assignSlot del s j = .ok s' ∧ Inv s' ∧ s'.myself = s.myself ∧
      (∀ a, (s'.mem a).flags.slave = (s.mem a).flags.slave) ∧
      s'.slots = update s.slots j (if del then none else some s.myself) := by
  have hi := h.reopen h.opened.migrating (update_opened (i := j) (o := none) h.opened.importing (by simp))
  rw [assignSlot]
  cases del with
  | true =>
    obtain ⟨r, hr, hok, hre⟩ := clusterDelSlot_spec hi.owners j
    have hok' : r.1 = true := hok.trans hd
    refine ⟨r.2, ?_, hi.of_slotFrame hre.frame hre.owners, hre.frame.myself, hre.frame.slave, hre.slots⟩
    simp only [↓reduceIte, hr]
    exact if_pos hok'
  | false =>
    obtain ⟨hok, hre⟩ := clusterAddSlot_spec hi.owners hi.table.self hj
      (Option.isNone_iff_eq_none.1 (Option.isSome_eq_false_iff.1 hd))
    exact ⟨_, if_pos hok, hi.of_slotFrame hre.frame hre.owners, hre.frame.myself, hre.frame.slave, hre.slots⟩

theorem assignLoop_spec (h : Inv s) (hc : ∀ j, count j ≠ 0 → j < clusterSlots ∧ (s.slots j).isSome = del) :
    ∃ s', forSlots (fun s j => if count j = 0 then .ok s else assignSlot del s j) s = .ok s' ∧ Inv s' ∧
      s'.myself = s.myself ∧ (∀ a, (s'.mem a).flags.slave = (s.mem a).flags.slave) ∧
      ∀ j, s'.slots j = if count j ≠ 0 then (if del then none else some s.myself) else s.slots j := by
  obtain ⟨s', hs', hi, hmy, hsl, hslots⟩ := forSlots_rule
    (fun s j => if count j = 0 then .ok s else assignSlot del s j) s
    (fun k t => Inv t ∧ t.myself = s.myself ∧ (∀ a, (t.mem a).flags.slave = (s.mem a).flags.slave) ∧
      ∀ j, t.slots j = if j < k ∧ count j ≠ 0 then (if del then none else some s.myself) else s.slots j)
    ⟨h, rfl, fun _ => rfl, fun j => (if_neg fun hj => Nat.not_lt_zero j hj.1).symm⟩ fun t k hk ht => by
      obtain ⟨hi, hmy, hsl, hslots⟩ := ht
      by_cases hz : count k = 0
      · refine ⟨t, if_pos hz, hi, hmy, hsl, fun j => (hslots j).trans (if_congr ?_ rfl rfl)⟩
        refine and_congr_left fun hj => ⟨Nat.lt_succ_of_lt, fun hlt => ?_⟩
        have hjk : j ≠ k := fun he => hj (he ▸ hz)
        omega
      · have hfree : t.slots k = s.slots k := (hslots k).trans (if_neg fun hlt => lt_irrefl k hlt.1)
        obtain ⟨t', ht', hi', hmy', hsl', hslots'⟩ := assignSlot_spec hi hk (hfree ▸ (hc k hz).2)
        refine ⟨t', (if_neg hz).trans ht', hi', hmy'.trans hmy, fun a => (hsl' a).trans (hsl a), fun j => ?_⟩
        rw [hslots']
        rcases eq_or_ne j k with rfl | hne
        · rw [update_self, hmy]
          exact (if_pos ⟨Nat.lt_succ_self j, hz⟩).symm
        · rw [update_of_ne hne, hslots]
          refine if_congr (and_congr_left fun _ => ?_) rfl rfl
          omega
  refine ⟨s', hs', hi, hmy, hsl, fun j => (hslots j).trans (if_congr ?_ rfl rfl)⟩
  exact ⟨And.right, fun hj => ⟨(hc j hj).1, hj⟩⟩

theorem addSlots_spec (h : Inv s) (args : List Nat) :
    ∃ s' r, assignSlots s false args = .ok (s', r) ∧ Inv s' ∧ s'.myself = s.myself ∧
      ∀ a, (s'.mem a).flags.slave = (s.mem a).flags.slave := by
  rw [assignSlots]
  split
  · exact ⟨s, _, rfl, h, rfl, fun _ => rfl⟩
  rename_i count hcount
  obtain ⟨s', hs', hi, hmy, hsl, -⟩ := assignLoop_spec h (checkSlots_spec hcount fun j hj => absurd rfl hj)
  rw [hs']
  exact ⟨s', .ok, rfl, hi, hmy, hsl⟩

theorem delSlots_outcome (h : Inv s) (args : List Nat) : Stays s ((assignSlots s true args).map Prod.fst) := by
  rw [assignSlots]
  split
  · exact h.kept
  rename_i count hcount
  obtain ⟨s', hs', hi, hmy, hsl, hslots⟩ := assignLoop_spec h (checkSlots_spec hcount fun j hj => absurd rfl hj)
  rw [hs']
  refine ⟨hi, fun hidle => hidle.of_slots hmy (fun hs => hsl _ ▸ hs) fun j hj => ?_, trivial⟩
  rw [hslots] at hj
  split at hj
  · cases hj
  · exact hj

theorem delNodeSlots_outcome (h : Inv s) (hn : s.Live n) : Stays s (clusterDelNodeSlots s n) := by
  obtain ⟨s', hs', hf, ho, hslots⟩ := clusterDelNodeSlots_spec h.owners hn
  rw [hs']
  refine ⟨h.of_slotFrame hf ho, fun hidle => hidle.of_slots hf.myself (fun hs => hf.slave _ ▸ hs) fun j hj => ?_, trivial⟩
  rw [hslots] at hj
  split at hj
  · cases hj
  · exact hj

theorem flushSlots_outcome (h : Inv s) : Stays s ((flushSlots s).map Prod.fst) := by
  rw [flushSlots]
  split
  · exact h.kept
  · exact (delNodeSlots_outcome h h.table.self).reply .ok

theorem Inv.outcome_master (h : Inv s') (hs : (s'.mem s'.myself).flags.slave = false) : Stays s (.ok s') := by
  refine ⟨h, fun _ hs' => ?_, trivial⟩
  rw [hs] at hs'
  cases hs'

theorem setSlotNode_outcome (h : Inv s) (hs : (s.mem s.myself).flags.slave = false) {slot : Nat}
    (hlt : slot < clusterSlots) (name : Name) : Stays s ((setSlotNode s slot name).map Prod.fst) := by
  rw [setSlotNode]
  split
  · exact h.kept
  rename_i n hn
  split
  · exact h.kept
  have hl := h.table.lookup_live hn
  -- the slot is closed first, which leaves a consistent table
  obtain ⟨t, ht, hi, hmy, hst, hlt'⟩ : ∃ t, (if s.keys slot = 0 then
        { s with migratingSlotsTo := update s.migratingSlotsTo slot none } else s) = t ∧ Inv t ∧
      t.myself = s.myself ∧ (t.mem t.myself).flags.slave = false ∧ t.Live n := by
    refine ⟨_, rfl, ?_⟩
    split
    · exact ⟨h.reopen (update_opened h.opened.migrating fun a ha => (nomatch ha)) h.opened.importing, rfl, hs, hl⟩
    · exact ⟨h, rfl, hs, hl⟩
  obtain ⟨u, hu, hiu, hsu, hlu⟩ : ∃ u, (if n = t.myself ∧ (t.importingSlotsFrom slot).isSome then
        { (clusterBumpConfigEpochWithoutConsensus t).2 with
          importingSlotsFrom := update (clusterBumpConfigEpochWithoutConsensus t).2.importingSlotsFrom slot none }
        else t) = u ∧
      Inv u ∧ (u.mem u.myself).flags.slave = false ∧ u.Live n := by
    refine ⟨_, rfl, ?_⟩
    split
    · have hc := bumpConfigEpoch_core t
      have hb := hi.of_coreFrame hc
      exact ⟨hb.reopen hb.opened.migrating (update_opened hb.opened.importing fun a ha => (nomatch ha)),
        (hc.slave _).trans (by rw [hc.myself]; exact hst), (hc.live n).2 hlt'⟩
    · exact ⟨hi, hst, hlt'⟩
  obtain ⟨r, hr, -, hre⟩ := moveSlot_spec hiu.owners hlu hlt
  dsimp only
  rw [ht, hu, hr]
  refine (hiu.of_slotFrame hre.frame hre.owners).outcome_master ?_
  rw [hre.frame.myself, hre.frame.slave]
  exact hsu

theorem setSlot_outcome (h : Inv s) (slot : Nat) (action : SetSlot) :
    Stays s ((setSlot s slot action).map Prod.fst) := by
  unfold setSlot
  split
  · exact h.kept
  rename_i hs
  rw [Bool.not_eq_true] at hs
  split
  · exact h.kept
  rename_i hlt
  rw [not_le] at hlt
  cases action with
  | migrating name =>
    dsimp only
    split
    · exact h.kept
    split
    · exact h.kept
    rename_i n hn
    refine (h.reopen (update_opened h.opened.migrating fun a ha => ?_) h.opened.importing).outcome_master hs
    exact Option.some.inj ha ▸ ⟨hlt, h.table.lookup_live hn⟩
  | importing name =>
    dsimp only
    split
    · exact h.kept
    split
    · exact h.kept
    rename_i n hn
    refine (h.reopen h.opened.migrating (update_opened h.opened.importing fun a ha => ?_)).outcome_master hs
    exact Option.some.inj ha ▸ ⟨hlt, h.table.lookup_live hn⟩
  | stable =>
    exact (h.reopen (update_opened h.opened.migrating (by simp))
      (update_opened h.opened.importing (by simp))).outcome_master hs
  | node name => exact setSlotNode_outcome h hs hlt name

theorem forget_outcome (h : Inv s) (name : Name) : Stays s ((forget s name).map Prod.fst) := by
  rw [forget]
  split
  · exact h.kept
  rename_i n hn
  split
  · exact h.kept
  rename_i hne
  split
  · exact h.kept
  exact (clusterDelNode_outcome h (h.table.lookup_live hn) hne).stays.reply .ok

theorem replicate_outcome (h : Inv s) (name : Name) : Stays s ((replicate s name).map Prod.fst) := by
  rw [replicate]
  split
  · exact h.kept
  rename_i n hn
  split
  · exact h.kept
  rename_i hne
  split
  · exact h.kept
  split
  · exact h.kept
  rename_i hempty
  have hz : (s.mem s.myself).flags.slave = true ∨ (s.mem s.myself).numslots = 0 := by
    have hrole := h.table.joined _ h.table.self h.table.selfJoined
    rcases hm : (s.mem s.myself).flags.master with - | -
    · rw [hm] at hrole
      exact .inl (by simpa using hrole.symm)
    refine .inr ?_
    by_contra hz
    exact hempty ⟨hm, .inl hz⟩
  exact (clusterSetMaster_outcome h (h.table.lookup_live hn) hne hz).stays.reply .ok

theorem takeover_outcome (h : Inv s) : Stays s ((takeover s).map Prod.fst) := by
  rw [takeover]
  split
  · exact h.kept
  split
  · exact h.kept
  have hc := bumpConfigEpoch_core s
  exact ((replaceYourMaster_outcome (h.of_coreFrame hc)).after_core hc).reply .ok

theorem setConfigEpoch_core (s : State) (epoch : UInt64) : CoreFrame s (setConfigEpoch s epoch).1 := by
  rw [setConfigEpoch]
  split
  · exact .refl s
  split
  · exact .refl s
  have hc : CoreFrame s (s.modify s.myself fun n => { n with configEpoch := epoch }) := .modify _ _ _ rfl
  dsimp only
  split
  · exact hc.trans ⟨rfl, rfl, rfl, rfl, rfl, rfl, fun _ => rfl⟩
  · exact hc

theorem deleteNodes_spec (l : List Nat) (h : Inv s) (hs : (s.mem s.myself).flags.slave = false) (hl : l.Nodup)
    (hlive : ∀ a ∈ l, s.Live a) :
    ∃ s', l.foldlM (fun s a => if a = s.myself then .ok s else clusterDelNode s a) s = .ok s' ∧ Inv s' ∧
      s'.myself = s.myself ∧ (s'.mem s'.myself).flags.slave = false ∧
      ∀ a, s'.Live a → s.Live a ∧ (a ∈ l → a = s.myself) := by
  induction l generalizing s with
  | nil => exact ⟨s, rfl, h, rfl, hs, fun a ha => ⟨ha, fun hm => (not_mem_nil hm).elim⟩⟩
  | cons d l ih =>
    obtain ⟨hd, hl'⟩ := nodup_cons.1 hl
    rw [foldlM_cons]
    by_cases hself : d = s.myself
    · rw [if_pos hself]
      obtain ⟨s', hs', hi, hmy, hsl, hres⟩ := ih h hs hl' fun a ha => hlive a (.tail _ ha)
      refine ⟨s', hs', hi, hmy, hsl, fun a ha => ⟨(hres a ha).1, fun hm => ?_⟩⟩
      rcases mem_cons.1 hm with rfl | hm
      · exact hself
      · exact (hres a ha).2 hm
    · obtain ⟨t, ht, hi, hmy, hlt, hslt, -⟩ := clusterDelNode_spec h (hlive d (.head _)) hself
      obtain ⟨s', hs', hi', hmy', hsl', hres⟩ := ih hi (by rw [hmy, hslt]; exact hs) hl' fun a ha =>
        (hlt a).2 ⟨hlive a (.tail _ ha), fun he => hd (he ▸ ha)⟩
      refine ⟨s', ?_, hi', hmy'.trans hmy, hsl', fun a ha => ?_⟩
      · rw [if_neg hself, ht]
        exact hs'
      obtain ⟨ha', hm'⟩ := hres a ha
      refine ⟨((hlt a).1 ha').1, fun hm => ?_⟩
      rcases mem_cons.1 hm with rfl | hm
      · exact absurd rfl ((hlt a).1 ha').2
      · exact (hm' hm).trans hmy

theorem renewMyself_spec (h : Inv s) (honly : ∀ a, s.Live a → a = s.myself) (newname : Name) :
    Inv (renewMyself s newname) ∧ (renewMyself s newname).myself = s.myself ∧
      ((renewMyself s newname).mem s.myself).flags = (s.mem s.myself).flags := by
  have hfree : ∀ b, s.nodes.lookup newname = some b → b = s.myself := fun b hb => honly b (h.table.lookup_live hb)
  have hr := renamed_inv h h.table.self hfree
  have hmem : (renewMyself s newname).mem s.myself = { s.mem s.myself with configEpoch := 0, name := newname } :=
    update_self ..
  have hc : CoreFrame (renamed s s.myself newname) (renewMyself s newname) := by
    refine ⟨rfl, rfl, rfl, rfl, rfl, rfl, fun a => ?_⟩
    rcases eq_or_ne a s.myself with rfl | hne
    · rw [hmem, renamed_mem_self]
      rfl
    · rw [renamed_mem_of_ne _ _ hne]
      exact congrArg ClusterNode.core (update_of_ne hne ..)
  exact ⟨hr.of_coreFrame hc, rfl, by rw [hmem]⟩

theorem Table.entries_live (h : Table s) {e : Sigma fun _ : Name => Nat} (he : e ∈ s.nodes.entries) : s.Live e.2 := by
  have hl : clusterLookupNode s e.1 = some e.2 := mem_lookup_iff.2 he
  exact h.lookup_live hl

theorem Table.entries_nodup (h : Table s) : (s.nodes.entries.map Sigma.snd).Nodup := by
  have hkeys : (s.nodes.entries.map Sigma.fst).Nodup := s.nodes.nodupKeys
  have hname : s.nodes.entries.map Sigma.fst = (s.nodes.entries.map Sigma.snd).map fun a => (s.mem a).name := by
    rw [map_map]
    refine map_congr_left fun e he => ?_
    exact (h.named e.1 e.2 (mem_lookup_iff.2 he)).symm
  rw [hname] at hkeys
  exact Nodup.of_map _ hkeys

theorem reset_outcome (h : Inv s) (hard : Option Name) : Stays s ((reset s hard).map Prod.fst) := by
  rw [reset]
  split
  · exact h.kept
  refine Outcome.reply ?_ .ok
  rw [clusterReset]
  obtain ⟨t, ht, hit, hst⟩ : ∃ t, (if (s.mem s.myself).flags.slave then
      { clusterSetNodeAsMaster s s.myself with keys := fun _ => 0, dbSize := 0 } else s) = t ∧ Inv t ∧
      (t.mem t.myself).flags.slave = false := by
    refine ⟨_, rfl, ?_⟩
    split
    · obtain ⟨hi, hf, -, -, hsl, -⟩ := clusterSetNodeAsMaster_spec h h.table.self h.table.selfJoined
      refine ⟨hi.of_coreFrame ⟨rfl, rfl, rfl, rfl, rfl, rfl, fun _ => rfl⟩, ?_⟩
      rw [hf.myself]
      exact hsl
    next hs => exact ⟨h, by simpa using hs⟩
  have hic : Inv (clusterCloseAllSlots t) := hit.reopen (fun _ _ ha => (nomatch ha)) fun _ _ ha => (nomatch ha)
  obtain ⟨u, hu, hfu, hou, -⟩ := forSlots_slots hic.owners fun v j _ _ ho _ => clusterDelSlot_map ho j
  have hiu := hic.of_slotFrame hfu hou
  have hsu : (u.mem u.myself).flags.slave = false := by
    rw [hfu.myself, hfu.slave]
    exact hst
  obtain ⟨v, hv, hiv, hmv, hsv, hres⟩ := deleteNodes_spec (u.nodes.entries.map Sigma.snd) hiu hsu hiu.table.entries_nodup
    fun a ha => by
      obtain ⟨e, he, rfl⟩ := mem_map.1 ha
      exact hiu.table.entries_live he
  rw [foldlM_map] at hv
  have hin : ∀ a, u.Live a → a ∈ u.nodes.entries.map Sigma.snd := fun a ha =>
    mem_map.2 ⟨⟨(u.mem a).name, a⟩, mem_lookup_iff.1 ha, rfl⟩
  have honly : ∀ a, v.Live a → a = v.myself := fun a ha =>
    ((hres a ha).2 (hin a (hres a ha).1)).trans hmv.symm
  rw [ht, hu]
  show Outcome s _ (Except.bind (u.nodes.entries.foldlM _ u) _)
  rw [hv]
  rcases hard with - | newname
  · exact hiv.outcome_master hsv
  obtain ⟨hi, hmy, hfl⟩ := renewMyself_spec hiv honly newname
  refine hi.outcome_master ?_
  rw [hmy, hfl]
  exact hsv

/-! ### Runs -/

theorem withNode_outcome (h : Inv s) {name : Name} {f : Nat → Except Fault State} (hf : ∀ n, s.Live n → Stays s (f n)) :
    Stays s ((withNode s name f).map Prod.fst) := by
  rw [withNode]
  split
  · exact h.kept
  next n hn => exact (hf n (h.table.lookup_live hn)).reply .none

/-- A random name is nobody's: the sender of a packet is not a node in handshake, which goes by a name drawn
here, and does not have the name that is drawn for it now. -/
def Op.named (s : State) : Op → Bool
  | .ping p =>
    (clusterLookupNode s p.hdr.sender).all (fun a => !(s.mem a).flags.handshake) && p.hdr.sender != p.tempName
  | _ => true

/-- No slot is given to this node while it is a replica. -/
def Op.toMaster (s : State) : Op → Bool
  | .addSlot node _ => clusterLookupNode s node != some s.myself || !(s.mem s.myself).flags.slave
  | .addSlots _ => !(s.mem s.myself).flags.slave
  | _ => true

theorem addSlot_spec (h : Inv s) (hn : s.Live n) (slot : Nat) :
    ∃ s', (if slot < clusterSlots then (clusterAddSlot s n slot).2 else s) = s' ∧ Inv s' ∧ SlotFrame s s' ∧
      ∀ j b, s'.slots j = some b → s.slots j = some b ∨ b = n := by
  refine ⟨_, rfl, ?_⟩
  split
  next hlt =>
    cases hslot : s.slots slot with
    | some b =>
      rw [clusterAddSlot, hslot]
      exact ⟨h, .refl s, fun j b hb => .inl hb⟩
    | none =>
      obtain ⟨-, hre⟩ := clusterAddSlot_spec h.owners hn hlt hslot
      refine ⟨h.of_slotFrame hre.frame hre.owners, hre.frame, fun j b hb => ?_⟩
      rw [hre.slots] at hb
      rcases eq_or_ne j slot with rfl | hne
      · rw [update_self] at hb
        exact .inr (Option.some.inj hb).symm
      · rw [update_of_ne hne] at hb
        exact .inl hb
  · exact ⟨h, .refl s, fun j b hb => .inl hb⟩

theorem startHandshake_outcome (h : Inv s) (tempName : Name) (ip : Option Ip) (port cport : Int) :
    Stays s (.ok (clusterStartHandshake s tempName ip port cport).2) := by
  rcases ip with - | ip
  · exact h.kept
  rw [clusterStartHandshake]
  split
  · exact h.kept
  split
  · exact h.kept
  · exact (addNode_outcome h ⟨rfl, rfl, rfl, rfl, rfl, rfl, rfl, rfl⟩).stays

theorem exec_outcome {op : Op} (h : Inv s) (hn : op.named s = true) (hm : op.toMaster s = true) :
    Stays s ((exec s op).map Prod.fst) := by
  cases op with
  | addSlot node slot =>
    rw [exec, withNode]
    split
    · exact h.kept
    rename_i n hl
    obtain ⟨s', hs', hi, hf, hslots⟩ := addSlot_spec h (h.table.lookup_live hl) slot
    rw [hs']
    refine ⟨hi, fun hidle hs j hj => ?_, trivial⟩
    rw [hf.myself, hf.slave] at hs
    rw [hf.myself] at hj
    rcases hslots j _ hj with hj | rfl
    · exact hidle hs j hj
    · simp [Op.toMaster, hl, hs] at hm
  | delSlot slot =>
    obtain ⟨r, hr, -, hre⟩ := clusterDelSlot_spec h.owners slot
    rw [exec, hr]
    refine ⟨h.of_slotFrame hre.frame hre.owners, fun hidle => hidle.of_slots hre.frame.myself
      (fun hs => hre.frame.slave _ ▸ hs) fun j hj => ?_, trivial⟩
    have hj' : update s.slots slot none j = some s.myself := hre.slots ▸ hj
    rcases eq_or_ne j slot with rfl | hne
    · rw [update_self] at hj'
      cases hj'
    · rwa [update_of_ne hne] at hj'
  | delNodeSlots node =>
    exact withNode_outcome h fun n hl => delNodeSlots_outcome h hl
  | addSlots args =>
    obtain ⟨s', r, hs', hi, hmy, hsl⟩ := addSlots_spec h args
    rw [exec, hs']
    refine hi.outcome_master ?_
    rw [hmy, hsl]
    simpa [Op.toMaster] using hm
  | delSlots args => exact delSlots_outcome h args
  | flushSlots => exact flushSlots_outcome h
  | setSlot slot action => exact setSlot_outcome h slot action
  | ping p =>
    obtain ⟨hs, hne⟩ := Bool.and_eq_true_iff.1 hn
    refine (processPing_outcome h (fun a ha => ?_) (by simpa using hne)).reply .none
    simpa [ha] using hs
  | update hdr nodename epoch slots => exact (processUpdate_outcome h hdr nodename epoch slots).reply .none
  | fail hdr about => exact h.outcome_core (processFail_core ..)
  | authRequest hdr forceAck late => exact h.outcome_core (processAuthRequest_core ..)
  | otherPacket hdr => exact h.outcome_core (updateEpochs_core ..)
  | startHandshake tempName ip port cport => exact startHandshake_outcome h tempName ip port cport
  | handshakeTimeout node =>
    refine withNode_outcome h fun n hl => ?_
    split
    · exact h.kept
    next hc =>
      rw [not_or, not_or, Bool.not_eq_false] at hc
      exact (clusterDelNode_outcome h hl (h.table.ne_self hc.2.2)).stays
  | forget node => exact forget_outcome h node
  | replicate node => exact replicate_outcome h node
  | startElection =>
    rw [exec]
    split
    · exact h.kept
    · exact h.outcome_core ⟨rfl, rfl, rfl, rfl, rfl, rfl, fun _ => rfl⟩
  | winElection manual noFailover => exact (winElection_outcome h manual noFailover).reply .none
  | takeover => exact takeover_outcome h
  | migrateTo target => exact withNode_outcome h fun n hl => migrateTo_outcome h hl
  | bumpEpoch => exact h.outcome_core (bumpConfigEpoch_core s)
  | setConfigEpoch epoch => exact h.outcome_core (setConfigEpoch_core s epoch)
  | reset hard => exact reset_outcome h hard
  | markPfail node | markFail node =>
    refine withNode_outcome h fun n hl => ?_
    split
    · exact h.kept
    · exact h.outcome_core (.modify _ _ _ rfl)
  | gossipAddress node ip port cport =>
    refine withNode_outcome h fun n hl => ?_
    split
    · exact h.outcome_core (setAddress_core ..)
    · exact h.kept
  | linkState node link pingSent pongReceived =>
    exact withNode_outcome h fun n hl => h.outcome_core (.modify _ _ _ rfl)
  | keyspace keys dbSize => exact h.outcome_core ⟨rfl, rfl, rfl, rfl, rfl, rfl, fun _ => rfl⟩

theorem clusterInit_inv (name : Name) (port : UInt16) (noRedirection : Bool) :
    Inv (clusterInit name port noRedirection) ∧ Idle (clusterInit name port noRedirection) := by
  have hlookup : ∀ name' a, (clusterInit name port noRedirection).nodes.lookup name' = some a → name = name' ∧ a = 0 := by
    intro name' a ha
    have he : (⟨name', a⟩ : Sigma fun _ : Name => Nat) ∈ [⟨name, 0⟩] := mem_lookup_iff.1 ha
    cases mem_singleton.1 he
    exact ⟨rfl, rfl⟩
  have hself : (clusterInit name port noRedirection).Live 0 := mem_lookup_iff.2 (mem_singleton_self _)
  have hlive : ∀ a, (clusterInit name port noRedirection).Live a → a = 0 := fun a ha => (hlookup _ a ha).2
  have hnoslots : ((clusterInit name port noRedirection).mem 0).slots = 0 := rfl
  refine ⟨⟨⟨fun name' a ha => (hlookup name' a ha).1, fun a ha => ?_, hself, fun _ _ _ => rfl, fun _ _ hh => (nomatch hh),
    rfl, fun a ha => ?_⟩, ⟨fun j a => ?_, fun a ha => ?_⟩, ⟨fun m _ => nodup_nil, fun m x _ => ?_,
    fun x m _ hx => (nomatch hx), fun x _ hx => absurd rfl hx⟩, ⟨fun j a ha => (nomatch ha), fun j a ha => (nomatch ha)⟩⟩,
    fun hs => (nomatch hs)⟩
  · rw [hlive a ha]
    exact Nat.one_pos
  · rw [hlive a ha]
    exact ⟨fun _ => rfl, fun _ => rfl⟩
  · refine ⟨fun hj => (nomatch hj), fun hj => ?_⟩
    rw [hlive a hj.1, hnoslots, bitmapTestBit_zero] at hj
    cases hj.2
  · rw [hlive a ha, hnoslots, bits_zero]
    rfl
  · exact ⟨fun hx => (not_mem_nil hx).elim, fun hx => (nomatch hx.2)⟩

theorem exec_of_step {name : Name} {port : UInt16} {noRedirection : Bool} {op : Op} {r : Reply}
    (h : (machine name port noRedirection).step op s = some (s', r)) : exec s op = .ok (s', r) := by
  have h' : (exec s op).toOption = some (s', r) := h
  cases hx : exec s op with
  | error f =>
    rw [hx] at h'
    cases h'
  | ok x =>
    rw [hx] at h'
    rw [Option.some.inj h']

/-- Ownership and replication are stored twice, and both copies agree. -/
structure Consistent (s : State) : Prop where
  owner : ∀ j n, s.slots j = some n ↔ s.Live n ∧ bitmapTestBit (s.mem n).slots j = true
  numslots : ∀ n, s.Live n → (s.mem n).numslots =
    (((Finset.range clusterSlots).filter fun j => bitmapTestBit (s.mem n).slots j = true).card : Int)
  slaves : ∀ m, s.Live m → (s.mem m).slaves.Nodup ∧
    ∀ x, x ∈ (s.mem m).slaves ↔ s.Live x ∧ (s.mem x).slaveof = some m
  slaveof : ∀ x m, s.Live x → (s.mem x).slaveof = some m → s.Live m

theorem Inv.consistent (h : Inv s) : Consistent s :=
  ⟨h.owners.owner, h.owners.count, fun m hm => ⟨h.links.nodup m hm, fun x => h.links.mem_iff m x hm⟩, h.links.live⟩

/-- In a run that gives no slot to this node while it is a replica, the table is consistent in every state,
and no operation fails an assert: the one way to die is to have no master where the code expects one. -/
theorem table_consistent (name : Name) (port : UInt16) (noRedirection : Bool) (ops : List Op) (op : Op)
    {s : State} {rs : List Reply}
    (hg : (machine name port noRedirection).Guarded (fun op s => op.named s = true ∧ op.toMaster s = true)
      (ops ++ [op]) (machine name port noRedirection).init)
    (hrun : (machine name port noRedirection).run ops (machine name port noRedirection).init = some (s, rs)) :
    Consistent s ∧ ∀ f, exec s op = .error f → f = .nullMaster := by
  obtain ⟨hops, hlast⟩ := hg.append
  have hinv : Inv s ∧ Idle s := by
    refine hops.inv (I := fun s => Inv s ∧ Idle s) (clusterInit_inv name port noRedirection) ?_ hrun
    rintro t t' op r ⟨hi, hidle⟩ ⟨hn, hm⟩ hstep
    have hout := exec_outcome hi hn hm
    rw [exec_of_step hstep] at hout
    exact ⟨hout.1, hout.2.1 hidle⟩
  refine ⟨hinv.1.consistent, fun f hf => ?_⟩
  obtain ⟨⟨hn, hm⟩, -⟩ := hlast s rs hrun
  have hout := exec_outcome hinv.1 hn hm
  rw [hf] at hout
  exact hout.resolve_right fun h => h.2 hinv.2

def Name.repeated (c : UInt8) (h : isHexChar c = true) : Name :=
  ⟨List.replicate 40 c, List.length_replicate, fun _ hd => List.eq_of_mem_replicate hd ▸ h⟩

def sampleIp : Ip := ⟨[49, 48, 46, 48, 46, 48, 46, 49], by decide, List.all_eq_true.1 rfl⟩

/-- A node `aa…` that has met the master `bb…`. -/
def meeting : List Op :=
  [.startHandshake (.repeated 99 rfl) (some sampleIp) 7001 17001,
    .ping { type := .pong, link := some (.repeated 99 rfl), tempName := .repeated 100 rfl, hdr :=
      { sender := .repeated 98 rfl, role := .master, ip := sampleIp, port := 7001, cport := 17001 } }]

theorem table_consistent_after_meeting :
    ∃ s rs, (machine (.repeated 97 rfl) 7000 false).run (meeting ++ [.setSlot 5 (.node (.repeated 97 rfl))])
        (machine (.repeated 97 rfl) 7000 false).init = some (s, rs) ∧ Consistent s ∧
      ∀ f, exec s (.replicate (.repeated 98 rfl)) = .error f → f = .nullMaster :=
  ⟨_, _, rfl, table_consistent (.repeated 97 rfl) 7000 false (meeting ++ [.setSlot 5 (.node (.repeated 97 rfl))])
    (.replicate (.repeated 98 rfl)) (Machine.guarded_of_check (by decide +kernel)) rfl⟩

def faultOf {α : Type} : Except Fault α → Option Fault
  | .ok _ => none
  | .error f => some f

/-- A replica takes slots from `CLUSTER ADDSLOTS`, and then dies when it is given a master again. -/
theorem addSlots_on_replica_fatal :
    (((machine (.repeated 97 rfl) 7000 false).run (meeting ++ [.replicate (.repeated 98 rfl), .addSlots [0]])
      (machine (.repeated 97 rfl) 7000 false).init).bind fun r => faultOf (exec r.1 (.replicate (.repeated 98 rfl)))) =
        some .setMasterSlots := by
  decide +kernel

end Redis.ClusterTable
