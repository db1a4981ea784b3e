import Redis.StreamReads

/-! # Groups as maps of pending entries

What can be seen of a group from outside: its last delivered ID, and for each pending entry its consumer, the time and
the number of its deliveries. Every function on a group is given by what it does to this map. -/

namespace Redis

namespace StreamCG
variable {cg : StreamCG} {id : StreamID}

theorem xclaimFind_pending (h : Inv cg) (s : Stream) (force : Bool) (now : Int) {p : Pending} (hp : cg.pending id = some p) :
    ∃ n nack, xclaimFind s cg force id now = .ok (cg, some n) ∧ Claimable cg cg id n ∧ cg.nackHeap.cell n = some nack ∧
      nack.consumer.isSome = true ∧ nack.deliveryTime = p.time ∧ nack.deliveryCount = p.count := by
  obtain ⟨n, hn, -⟩ := Option.bind_eq_some_iff.1 hp
  obtain ⟨nack, b, c, hnack, hcons, -, -, -, hp'⟩ := h.pending_record hn
  obtain rfl := Option.some.inj (hp'.symm.trans hp)
  exact ⟨n, nack, by rw [xclaimFind, hn], .found rfl hn, hnack, by rw [hcons]; rfl, rfl, rfl⟩

theorem xclaimFind_forced (h : Inv cg) {s : Stream} (now : Int) (hp : cg.pending id = none)
    {si : StreamIterator} {r : StreamID × Int}
    (hget : streamIteratorGetID (s.rax.length + 1) (streamIteratorStart s (some id) (some id) false) = some (si, some r)) :
    ∃ cg₁ n, xclaimFind s cg true id now = .ok (cg₁, some n) ∧ Claimable cg cg₁ id n ∧
      cg₁.nackHeap.cell n = some ⟨now, 1, none⟩ := by
  have hid := h.pending_eq_none.1 hp
  obtain ⟨-, hw⟩ := createNACK_spec cg none now
  have hfree : ∀ j, cg.pel.lookup j ≠ some cg.nackHeap.next := h.ne_of_free cg.nackHeap.cell_next
  refine ⟨_, _, ?_, .forced ((hw.onlyAt fun j _ => hfree j).trans (onlyAt_insert ..)) hid hfree (AList.lookup_insert _)
    hw.owns (Function.update_self ..) rfl, Function.update_self ..⟩
  rw [xclaimFind, hid]
  simp only [Bool.not_true, Bool.false_eq_true, if_false, hget, ofEntries, ok_bind, Option.isNone_some]
  rfl

end StreamCG

/-! ### The loop of `XCLAIM` -/

/-- The number of deliveries after a claim, none if the entry is not claimed. -/
def claimCount (live : Bool) (opts : ClaimOptions) (minidle now : Int) : Option Pending → Option UInt64
  | some p => if minidle ≠ 0 ∧ now - p.time < minidle then none else some (claimedCount opts p.count)
  | none => if opts.force && live then some (claimedCount opts 1) else none

def StreamMap.live (m : StreamMap) (id : StreamID) : Bool := decide (∃ e ∈ m.entries, e.1 = id)

section claim
variable {m : StreamMap} {s : Stream} {b : Nat} {name : List UInt8} {minidle now : Int} {opts : ClaimOptions}
  {id : StreamID} {g : GroupRead}

theorem StreamMap.Is.find (h : m.Is s) (id : StreamID) :
    ∃ si r, streamIteratorGetID (s.rax.length + 1) (streamIteratorStart s (some id) (some id) false) = some (si, r) ∧
      r.isSome = m.live id := by
  obtain ⟨-, nodes, hholds, hentries⟩ := h
  obtain ⟨si, r, hget, hr⟩ := hholds.find id
  refine ⟨si, r, hget, ?_⟩
  rw [StreamMap.live, ← hentries]
  rcases hr with ⟨rfl, habsent⟩ | ⟨n, ri, pre, it, post, k, rfl, -, -, hit, hid⟩
  · symm
    refine decide_eq_false ?_
    rintro ⟨e, he, hid⟩
    obtain ⟨it, hit, rfl⟩ := List.mem_map.1 he
    exact habsent it hit hid
  · symm
    exact decide_eq_true ⟨it.emitted, List.mem_map_of_mem hit, hid⟩

theorem StreamMap.Is.emitEntry (h : m.Is s) (id : StreamID) : ∃ e, streamEmitEntry s id = .ok e := by
  obtain ⟨u, hrange⟩ := h.rangeWith (fun _ u => ⟨u, rfl⟩) () (some id) (some id) 1 false
  rw [streamEmitEntry, hrange]
  exact ⟨_, rfl⟩

theorem xclaimLoop_skip (h : m.Is s) (hI : g.cg.Inv) (hc : claimCount (m.live id) opts minidle now (g.cg.pending id) = none)
    (deliverytime : Int) (ids : List StreamID) (out : List StreamItem) :
    xclaimLoop s b minidle opts deliverytime now (id :: ids) g out =
      xclaimLoop s b minidle opts deliverytime now ids g out := by
  rw [xclaimLoop]
  cases hp : g.cg.pending id with
  | some p =>
    rw [hp, claimCount] at hc
    split at hc
    next hidle =>
      obtain ⟨n, nack, hfind, -, hnack, hsome, htime, -⟩ := StreamCG.xclaimFind_pending hI s opts.force now hp
      rw [hfind, ok_bind]
      dsimp only
      rw [hnack, deref_bind, if_pos (by simp [hsome, htime, hidle])]
    · cases hc
  | none =>
    rw [hp, claimCount] at hc
    split at hc
    · cases hc
    next hforce =>
      have hid := hI.pending_eq_none.1 hp
      obtain ⟨si, r, hget, hr⟩ := h.find id
      rw [xclaimFind, hid]
      dsimp only
      split
      · rfl
      next hf =>
        rw [hget]
        have hnone : r.isNone = true := by
          cases hopt : opts.force with
          | false =>
            rw [hopt] at hf
            exact absurd rfl hf
          | true =>
            rw [hopt, ← hr] at hforce
            simpa using hforce
        simp only [ofEntries, ok_bind, hnone, if_true]

theorem xclaimLoop_claim (h : m.Is s) (hs : StreamCG.Serves b g.cg) (hb : g.cg.nameOf b = some name) {count : UInt64}
    (hc : claimCount (m.live id) opts minidle now (g.cg.pending id) = some count) (deliverytime : Int) (ids : List StreamID)
    (out : List StreamItem) : ∃ cg' item, xclaimLoop s b minidle opts deliverytime now (id :: ids) g out =
        xclaimLoop s b minidle opts deliverytime now ids
          ⟨cg', false, g.propagated ++ [.xclaim name id deliverytime count g.cg.lastId]⟩ (out ++ [item]) ∧
      StreamCG.Serves b cg' ∧ cg'.nameOf b = some name ∧
      cg'.map = ⟨g.cg.lastId, Function.update g.cg.pending id (some ⟨name, deliverytime, count⟩)⟩ := by
  -- the record, which is old enough or was just created
  obtain ⟨cg₁, n, nack, hfind, hcl, hnack, hold, hcount⟩ : ∃ cg₁ n nack, xclaimFind s g.cg opts.force id now = .ok (cg₁, some n) ∧
      StreamCG.Claimable g.cg cg₁ id n ∧ cg₁.nackHeap.cell n = some nack ∧
      ¬(nack.consumer.isSome && decide (minidle ≠ 0) && decide (now - nack.deliveryTime < minidle)) = true ∧
      claimedCount opts nack.deliveryCount = count := by
    cases hp : g.cg.pending id with
    | some p =>
      rw [hp, claimCount] at hc
      split at hc
      · cases hc
      next hidle =>
        obtain ⟨n, nack, hfind, hcl, hnack, hsome, htime, hcnt⟩ := StreamCG.xclaimFind_pending hs.1 s opts.force now hp
        refine ⟨g.cg, n, nack, hfind, hcl, hnack, ?_, by rw [hcnt]; exact Option.some.inj hc⟩
        simpa [hsome, htime] using hidle
    | none =>
      rw [hp, claimCount] at hc
      split at hc
      next hforce =>
        obtain ⟨hforce, hlive⟩ := Bool.and_eq_true_iff.1 hforce
        obtain ⟨si, r, hget, hr⟩ := h.find id
        rw [hlive] at hr
        obtain ⟨r, rfl⟩ := Option.isSome_iff_exists.1 hr
        obtain ⟨cg₁, n, hfind, hcl, hnack⟩ := StreamCG.xclaimFind_forced hs.1 now hp hget
        rw [hforce]
        exact ⟨cg₁, n, _, hfind, hcl, hnack, by simp, Option.some.inj hc⟩
      · cases hc
  obtain ⟨cg', nack', hnack', htake, hs', hnames, hn, hmap⟩ := StreamCG.xclaimTake_spec hs hcl opts deliverytime
  obtain rfl := Option.some.inj (hnack.symm.trans hnack')
  replace hmap := hmap name hb
  rw [hcount] at hmap
  obtain ⟨item, hitem⟩ : ∃ item, claimReply s id opts.justid = .ok item := by
    unfold claimReply
    split
    · exact ⟨_, rfl⟩
    · obtain ⟨e, he⟩ := h.emitEntry id
      rw [he]
      exact ⟨_, rfl⟩
  have hpend : cg'.pending id = some ⟨name, deliverytime, count⟩ := by
    exact (congrFun (congrArg GroupMap.pending hmap) id).trans (Function.update_self ..)
  have hlast : cg'.lastId = g.cg.lastId := congrArg GroupMap.lastId hmap
  refine ⟨cg', item, ?_, hs', by rw [hnames.nameOf, hb], hmap⟩
  rw [xclaimLoop, hfind, ok_bind]
  dsimp only
  rw [hnack, deref_bind, if_neg hold, htake, ok_bind, hitem, ok_bind,
    StreamCG.streamPropagateXCLAIM_eq hn hpend, ok_bind, hlast]

end claim

/-! ### Commands on the map -/

def claimEntry (live : StreamID → Bool) (consumer : List UInt8) (minidle : Int) (opts : ClaimOptions) (deliverytime now : Int)
    (g : ReadMap) (id : StreamID) : ReadMap :=
  match claimCount (live id) opts minidle now (g.map.pending id) with
  | none => g
  | some count =>
    ⟨⟨g.map.lastId, Function.update g.map.pending id (some ⟨consumer, deliverytime, count⟩)⟩, false,
      g.propagated ++ [.xclaim consumer id deliverytime count g.map.lastId]⟩

/-- The delivery time that `XCLAIM` gives. -/
def claimTime (time now : Int) : Int := if time < 0 ∨ time > now then now else time

section commands
variable {m : StreamMap} {s : Stream} {cg : StreamCG} {b : Nat} {name consumer : List UInt8} {minidle deliverytime now : Int}
  {opts : ClaimOptions} {ids : List StreamID} {g : GroupRead} {out : List StreamItem}

theorem xclaimLoop_spec (h : m.Is s) (hs : StreamCG.Serves b g.cg) (hb : g.cg.nameOf b = some name) :
    ∃ g' out', xclaimLoop s b minidle opts deliverytime now ids g out = .ok (g', out') ∧ g'.cg.Inv ∧
      g'.view = ids.foldl (claimEntry m.live name minidle opts deliverytime now) g.view := by
  induction ids generalizing g out with
  | nil => exact ⟨g, out, rfl, hs.1, rfl⟩
  | cons id ids ih =>
    rw [List.foldl_cons]
    cases hc : claimCount (m.live id) opts minidle now (g.cg.pending id) with
    | none =>
      obtain ⟨g', out', hloop, hI, hview⟩ := @ih g out hs hb
      have hentry : claimEntry m.live name minidle opts deliverytime now g.view id = g.view := by
        unfold claimEntry
        rw [show g.view.map.pending id = g.cg.pending id from rfl, hc]
      rw [hentry]
      exact ⟨g', out', (xclaimLoop_skip h hs.1 hc deliverytime ids out).trans hloop, hI, hview⟩
    | some count =>
      obtain ⟨cg', item, hstep, hs', hb', hmap⟩ := xclaimLoop_claim h hs hb hc deliverytime ids out
      obtain ⟨g', out', hloop, hI, hview⟩ := @ih ⟨cg', false, _⟩ (out ++ [item]) hs' hb'
      have hentry : claimEntry m.live name minidle opts deliverytime now g.view id =
          GroupRead.view ⟨cg', false, g.propagated ++ [.xclaim name id deliverytime count g.cg.lastId]⟩ := by
        unfold claimEntry
        rw [show g.view.map.pending id = g.cg.pending id from rfl, hc]
        exact congrArg (fun map => ReadMap.mk map false _) hmap.symm
      rw [hentry]
      exact ⟨g', out', hstep.trans hloop, hI, hview⟩

def GroupMap.claim (live : StreamID → Bool) (consumer : List UInt8) (minidle : Int) (ids : List StreamID) (opts : ClaimOptions)
    (now : Int) (g : GroupMap) : ReadMap :=
  ids.foldl (claimEntry live consumer (if minidle < 0 then 0 else minidle) opts (claimTime opts.deliverytime now) now)
    ⟨⟨laterID g.lastId opts.lastId, g.pending⟩, decide (g.lastId < opts.lastId), []⟩

def ReadMap.all (g : ReadMap) : List Propagated :=
  if g.propagateLastId then g.propagated ++ [.setid g.map.lastId] else g.propagated

theorem xclaimCommand_spec (h : m.Is s) (hI : cg.Inv) (consumer : List UInt8) (minidle : Int) (ids : List StreamID)
    (opts : ClaimOptions) (now : Int) : ∃ cg' r, xclaimCommand s cg consumer minidle ids opts now =
        .ok (cg', r, (cg.map.claim m.live consumer minidle ids opts now).all) ∧ cg'.Inv ∧
      cg'.map = (cg.map.claim m.live consumer minidle ids opts now).map := by
  have hnewer : decide (streamCompareID opts.lastId cg.lastId > 0) = decide (cg.lastId < opts.lastId) :=
    decide_eq_decide.2 streamCompareID_pos
  obtain ⟨cg₁, hcg₁, hI₁, hmap₁⟩ : ∃ cg₁, cg₁ = (if decide (cg.lastId < opts.lastId) = true then
      { cg with lastId := opts.lastId } else cg) ∧ cg₁.Inv ∧ cg₁.map = ⟨laterID cg.lastId opts.lastId, cg.pending⟩ := by
    refine ⟨_, rfl, ?_, ?_⟩
    · split
      · exact hI.setLastId _
      · exact hI
    · unfold laterID
      simp only [decide_eq_true_eq]
      split <;> rfl
  obtain ⟨cg₂, b, hlook, hs, hb, hmap₂, -⟩ := StreamCG.streamLookupConsumer_serves hI₁ consumer now
  obtain ⟨g', out', hloop, hI', hview⟩ := @xclaimLoop_spec m s b consumer (if minidle < 0 then 0 else minidle)
    (claimTime opts.deliverytime now) now opts ids ⟨cg₂, decide (cg.lastId < opts.lastId), []⟩ [] h hs hb
  have hstart : GroupRead.view ⟨cg₂, decide (cg.lastId < opts.lastId), []⟩ =
      ⟨⟨laterID cg.lastId opts.lastId, cg.pending⟩, decide (cg.lastId < opts.lastId), []⟩ := by
    rw [GroupRead.view, hmap₂, hmap₁]
  rw [hstart] at hview
  have hres : g'.view = cg.map.claim m.live consumer minidle ids opts now := hview
  refine ⟨g'.cg, .items out', ?_, hI', by rw [← hres]; rfl⟩
  unfold xclaimCommand
  dsimp only
  rw [hnewer, ← hcg₁, hlook]
  change (xclaimLoop s b (if minidle < 0 then 0 else minidle) opts (claimTime opts.deliverytime now) now ids _ [] >>= _) = _
  rw [hloop, ← hres]
  rfl

/-! ### The history of a consumer -/

/-- The pending entries that `XREADGROUP` visits when it reads the history of a consumer. -/
def StreamCG.history (cg : StreamCG) (consumer : List UInt8) (id : StreamID) (count : Nat) : List StreamID :=
  let from_ := (cg.consumerPel consumer).walk.filter fun e => decide (({ id with seq := id.seq + 1 } : StreamID) ≤ e.1)
  (if count = 0 then from_ else from_.take count).map Prod.fst

theorem streamHistoryLoop_deleted {l : List (StreamID × Nat)} (h : ∀ id ∈ l.map Prod.fst, streamEmitEntry s id = .ok none)
    (out : List StreamItem) : ∃ out', streamHistoryLoop s now l cg out = .ok (cg, out') := by
  induction l generalizing out with
  | nil => exact ⟨out, rfl⟩
  | cons e l ih =>
    rw [streamHistoryLoop, h e.1 (.head _)]
    exact ih (fun id hid => h id (.tail _ hid)) _

theorem xreadgroup_history_spec (hI : cg.Inv) {id : StreamID} (hid : id ≠ .max) {count : Nat}
    (h : ∀ j ∈ cg.history consumer id count, streamEmitEntry s j = .ok none) (noack : Bool) (now : Int) :
    ∃ cg' r, xreadgroupCommand s cg consumer count noack id now = .ok (cg', r, []) ∧ cg'.Inv ∧ cg'.map = cg.map := by
  obtain ⟨cg₁, b, hlook, hs, -, hmap, c, hc, hpel⟩ := StreamCG.streamLookupConsumer_serves hI consumer now
  unfold StreamCG.history at h
  rw [← hpel] at h
  obtain ⟨out, hloop⟩ := @streamHistoryLoop_deleted s cg₁ now _ h []
  refine ⟨cg₁, .items out, ?_, hs.1, hmap⟩
  unfold xreadgroupCommand
  rw [if_pos hid, hlook, ok_bind]
  dsimp only
  rw [deref_bind, streamReplyWithRangeFromConsumerPEL, hc, deref_bind]
  rw [hloop, ok_bind]

end commands

end Redis
