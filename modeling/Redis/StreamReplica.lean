import Redis.GroupPending
import Redis.StreamArgv

/-! # A master and its replica

The commands on streams with what they send to a replica. The commands on the entries and `XGROUP` are sent as they are,
with the ID that was made up and the length that was left in place of an approximate one; `XREADGROUP` and `XCLAIM` are
sent as one `XCLAIM` or `XGROUP SETID` for each entry that changes hands. -/

namespace Redis
open List AList Option

/-- A command on a key, with its arguments parsed: `XGROUP CREATE` with `MKSTREAM` apart, and a command whose arguments
do not parse. -/
inductive KeyCmd
  | on (cmd : GroupCmd)
  | mkstream (group : Arg) (id : Option StreamID)
  | malformed

/-! ### What is sent -/

/-- The length is sent as a signed number, and a negative one is refused. -/
def streamRewriteApproxMaxlen (s : Stream) (cmd : UInt64 → StreamCmd) : KeyCmd :=
  if asInt64 s.length < 0 then .malformed else .on (.entries (cmd s.length))

/-- What a command on the entries sends, with the stream that it leaves. -/
def StreamCmd.sends (s : Stream) : StreamCmd → StreamReply → List KeyCmd
  | .xadd _ argv mstime (some (_, true)), .added id =>
    [streamRewriteApproxMaxlen s fun maxlen => .xadd (some id) argv mstime (some (maxlen, false))]
  | .xadd _ argv mstime maxlen, .added id => [.on (.entries (.xadd (some id) argv mstime maxlen))]
  | .xdel ids, .number deleted => if deleted ≠ 0 then [.on (.entries (.xdel ids))] else []
  | .xtrim maxlen approx, .number deleted =>
    if deleted = 0 then []
    else if approx then [streamRewriteApproxMaxlen s fun maxlen => .xtrim maxlen false]
    else [.on (.entries (.xtrim maxlen approx))]
  | .xsetid id, .ok => [.on (.entries (.xsetid id))]
  | _, _ => []

/-- What `streamPropagateXCLAIM` and `streamPropagateGroupID` send, as it is read with the clock at `now`. -/
def Propagated.cmd (group : Arg) (now : Int) : Propagated → GroupCmd
  | .xclaim consumer id time retrycount lastId =>
    .xclaim group consumer 0 [id] ⟨true, true, time, asInt64 retrycount, lastId⟩ now
  | .setid lastId => .setid group (some lastId)

/-- How often the loop of `xackCommand` counts a change. -/
def xackDirty : List (Option StreamID) → Pel → Nat
  | [], _ => 0
  | none :: _, _ => 0
  | some id :: ids, pel => if (pel.lookup id).isSome then xackDirty ids (pel.erase id) + 1 else xackDirty ids pel

/-- What a command sends, with the stream before and after it. -/
def GroupCmd.sends (gs gs' : GroupedStream) (r : GroupReply) (p : List Propagated) : GroupCmd → List KeyCmd
  | .entries cmd =>
    match r with
    | .entries r => cmd.sends gs'.stream r
    | _ => []
  | .create group id => if r = .ok then [.on (.create group id)] else []
  | .setid group id => if r = .ok then [.on (.setid group id)] else []
  | .destroy group => if r = .number 0 then [] else [.on (.destroy group)]
  | .delconsumer group consumer now =>
    match r with
    | .number _ => [.on (.delconsumer group consumer now)]
    | _ => []
  | .xack group ids =>
    match gs.cgroups.lookup group with
    | none => []
    | some cg => if xackDirty ids cg.pel = 0 then [] else [.on (.xack group ids)]
  | .xreadgroup group _ _ _ _ now => p.map fun p => .on (p.cmd group now)
  | .xclaim group _ _ _ _ now => p.map fun p => .on (p.cmd group now)

open GroupCmd

/-! ### The keyspace -/

/-- The reply to a command on a key that does not exist, which `XADD` creates. -/
def GroupCmd.missing : GroupCmd → GroupReply
  | .entries (.xsetid _) => .error "-ERR no such key"
  | .entries _ => .entries (.number 0)
  | .create .. | .setid .. | .destroy .. | .delconsumer .. =>
    .error ("The XGROUP subcommand requires the key to exist. Note that for CREATE you may want to use " ++
      "the MKSTREAM option to create an empty stream automatically.")
  | .xreadgroup .. => noGroupXREADGROUP
  | .xack .. => .number 0
  | .xclaim .. => noGroupXCLAIM

def GroupCmd.isXadd : GroupCmd → Bool
  | .entries (.xadd ..) => true
  | _ => false

variable (limits : StreamLimits)

namespace StreamDb

def execAt (db : StreamDb) (key : Arg) (gs : GroupedStream) (cmd : GroupCmd) :
    Except Crash (StreamDb × GroupReply × List KeyCmd) := do
  let (gs', r, p) ← gs.exec limits cmd
  .ok (db.insert key (.stream gs'), r, cmd.sends gs gs' r p)

/-- A command, its reply and what is sent to the replica. -/
def exec (db : StreamDb) (key : Arg) : KeyCmd → Except Crash (StreamDb × GroupReply × List KeyCmd)
  | .on cmd =>
    match db.lookup key with
    | some .other => .ok (db, wrongType, [])
    | some (.stream gs) => db.execAt limits key gs cmd
    | none => if cmd.isXadd then db.execAt limits key ⟨streamNew, ∅⟩ cmd else .ok (db, cmd.missing, [])
  | .mkstream group id =>
    match streamTypeLookupWriteOrCreate db key with
    | none => .ok (db, wrongType, [])
    | some (db, gs) => do
      let (gs', r, _) ← gs.exec limits (.create group id)
      .ok (db.insert key (.stream gs'), r, if r = .ok then [.mkstream group id] else [])
  | .malformed => .ok (db, .error notAnInteger, [])

def replay (limits : StreamLimits) (key : Arg) : List KeyCmd → StreamDb → Except Crash StreamDb
  | [], db => .ok db
  | cmd :: cmds, db => do
    let (db, _) ← db.exec limits key cmd
    replay limits key cmds db

end StreamDb

/-- A master and a replica, with a command of a client in each step. -/
def replication : Machine (Arg × KeyCmd) (StreamDb × StreamDb) GroupReply where
  init := (∅, ∅)
  step op st := do
    let (master, r, sent) ← (st.1.exec limits op.1 op.2).toOption
    let replica ← (StreamDb.replay limits op.1 sent st.2).toOption
    some ((master, replica), r)

/-! ### What is to be the same -/

/-- What can be seen of a stream: its entries, its last ID, and its groups. -/
structure StreamView where
  map : StreamMap
  groups : Arg → Option GroupMap

open StreamView

structure StreamView.Is (v : StreamView) (gs : GroupedStream) : Prop where
  map : v.map.Is gs.stream
  inv : gs.Inv
  groups : ∀ group, (gs.cgroups.lookup group).map StreamCG.map = v.groups group

def StreamKey.Alike : Option StreamKey → Option StreamKey → Prop
  | none, none => True
  | some .other, some .other => True
  | some (.stream gs), some (.stream gs') => ∃ v : StreamView, v.Is gs ∧ v.Is gs'
  | _, _ => False

def StreamDb.Alike (db db' : StreamDb) : Prop := ∀ key, StreamKey.Alike (db.lookup key) (db'.lookup key)

open StreamDb

/-! ### Groups that are sent -/

/-- What a replica does to the group for one command that it is sent. -/
def GroupMap.apply (live : StreamID → Bool) (now : Int) (g : GroupMap) : Propagated → GroupMap
  | .xclaim consumer id time retrycount lastId =>
    (g.claim live consumer 0 [id] ⟨true, true, time, asInt64 retrycount, lastId⟩ now).map
  | .setid lastId => ⟨lastId, g.pending⟩

open GroupMap

section sent
variable {live : StreamID → Bool} {now : Int} {g : GroupMap} {consumer : Arg} {id : StreamID}
variable {count : UInt64} {time minidle : Int} {r : ReadMap} {ids : List StreamID} {opts : ClaimOptions}

theorem laterID_self_left (a b : StreamID) : laterID a (laterID a b) = laterID a b := by
  unfold laterID
  by_cases h : a < b
  · rw [if_pos h, if_pos h]
  · rw [if_neg h, if_neg (StreamID.lt_irrefl a)]

theorem claimTime_idem (time now : Int) : claimTime (claimTime time now) now = claimTime time now := by
  unfold claimTime
  split
  · split <;> rfl
  · rfl

theorem claimTime_self (now : Int) : claimTime now now = now := by
  unfold claimTime
  split <;> rfl

theorem claimedCount_sent {c : UInt64} (h : count.toNat < 2 ^ 63 ∨ c = count) (time : Int) (lastId : StreamID) :
    claimedCount ⟨true, true, time, asInt64 count, lastId⟩ c = count := by
  unfold claimedCount asInt64
  by_cases hlt : count.toNat < 2 ^ 63
  · rw [if_pos hlt]
    exact UInt64.ofNat_toNat ..
  have hneg : ¬((count.toNat : Int) - 2 ^ 64 ≥ 0) := by
    have := count.toNat_lt
    omega
  rw [if_neg hlt, if_neg hneg]
  exact h.resolve_left hlt

theorem apply_xclaim {lastId : StreamID} (htime : claimTime time now = time)
    (hlive : g.pending id = none → live id = true)
    (hcount : count.toNat < 2 ^ 63 ∨ ∃ p, g.pending id = some p ∧ p.count = count) :
    g.apply live now (.xclaim consumer id time count lastId) =
      ⟨laterID g.lastId lastId, Function.update g.pending id (some ⟨consumer, time, count⟩)⟩ := by
  have hclaimed : claimCount (live id) ⟨true, true, time, asInt64 count, lastId⟩ 0 now (g.pending id) = some count := by
    cases hp : g.pending id with
    | none =>
      rw [claimCount, hlive hp]
      refine (if_pos rfl).trans (congrArg some (claimedCount_sent (hcount.imp_right ?_) ..))
      rintro ⟨p, hp', -⟩
      rw [hp] at hp'
      cases hp'
    | some p =>
      refine congrArg some (claimedCount_sent (hcount.imp_right ?_) ..)
      rintro ⟨q, hq, rfl⟩
      rw [hp] at hq
      cases hq
      rfl
  unfold apply claim
  dsimp only
  rw [foldl_cons, foldl_nil, if_neg (by decide), htime]
  unfold claimEntry
  rw [hclaimed]

theorem readEntry_replay (h : r.propagated.foldl (apply live now) g = r.map) (noack : Bool) (hlive : live id = true) :
    (readEntry noack consumer now r id).propagated.foldl (apply live now) g = (readEntry noack consumer now r id).map := by
  unfold readEntry
  rcases noack with - | -
  · rw [if_neg (by decide), foldl_append, h, foldl_cons, foldl_nil,
      apply_xclaim (claimTime_self now) (fun _ => hlive) (.inl (by decide)), laterID_self_left]
  rw [if_pos rfl, foldl_append, h]
  split
  · rfl
  next hold =>
    rw [Bool.or_eq_true, not_or, decide_eq_true_eq] at hold
    rw [laterID, if_neg hold.2]
    rfl

theorem read_replay (noack : Bool) (hlive : ∀ id ∈ ids, live id = true) :
    (g.read noack consumer now ids).propagated.foldl (apply live now) g = (g.read noack consumer now ids).map := by
  refine foldlRecOn ids _ (motive := fun r : ReadMap => r.propagated.foldl (apply live now) g = r.map) rfl ?_
  intro r hr id hid
  exact readEntry_replay hr noack (hlive id hid)

/-- `XCLAIM` does not count up to a number that is negative when it is sent. -/
def ClaimOptions.Counts (opts : ClaimOptions) (ids : List StreamID) (g : GroupMap) : Prop :=
  opts.retrycount < 2 ^ 63 ∧
    (opts.retrycount < 0 → opts.justid = false → ∀ id ∈ ids, ((g.pending id).elim 1 Pending.count).toNat + ids.length < 2 ^ 63)

/-- What was sent so far of an `XCLAIM` that started with the group `g`: the last ID may be missing. -/
structure ClaimSent (live : StreamID → Bool) (now : Int) (g : GroupMap) (r : ReadMap) : Prop where
  pending : (r.propagated.foldl (GroupMap.apply live now) g).pending = r.map.pending
  later : laterID (r.propagated.foldl (GroupMap.apply live now) g).lastId r.map.lastId = r.map.lastId
  last : r.propagateLastId = false → (r.propagated.foldl (GroupMap.apply live now) g).lastId = r.map.lastId

theorem claimCount_le {p : Option Pending} {isLive : Bool} {k : Nat}
    (h : claimCount isLive opts minidle now p = some count) (hopt : opts.retrycount < 2 ^ 63)
    (hk : opts.retrycount < 0 → opts.justid = false → (p.elim 1 Pending.count).toNat + (k + 1) < 2 ^ 63) :
    (p = none → isLive = true) ∧ (count.toNat < 2 ^ 63 ∨ ∃ q, p = some q ∧ q.count = count) ∧
      (opts.retrycount < 0 → opts.justid = false → count.toNat + k < 2 ^ 63) := by
  have hclaimed : count = claimedCount opts (p.elim 1 Pending.count) ∧ (p = none → isLive = true) := by
    cases p with
    | none =>
      rw [claimCount] at h
      split at h
      next hf => exact ⟨(some.inj h).symm, fun _ => (Bool.and_eq_true_iff.1 hf).2⟩
      · cases h
    | some q =>
      rw [claimCount] at h
      split at h
      · cases h
      · exact ⟨(some.inj h).symm, fun hn => by cases hn⟩
  obtain ⟨rfl, hlive⟩ := hclaimed
  refine ⟨hlive, ?_⟩
  unfold claimedCount
  by_cases hgiven : opts.retrycount ≥ 0
  · rw [if_pos hgiven]
    rw [UInt64.toNat_ofNat']
    omega
  rw [if_neg hgiven]
  cases hj : opts.justid with
  | true =>
    refine ⟨?_, fun _ hf => by cases hf⟩
    cases p with
    | none => exact .inl (by decide)
    | some q => exact .inr ⟨q, rfl, rfl⟩
  | false =>
    have hlt := hk (Int.not_le.1 hgiven) hj
    have hadd : ((p.elim 1 Pending.count) + 1).toNat = (p.elim 1 Pending.count).toNat + 1 := by
      rw [UInt64.toNat_add]
      exact Nat.mod_eq_of_lt (by simp only [UInt64.reduceToNat]; omega)
    rw [Bool.not_false, if_pos rfl]
    exact ⟨.inl (by omega), fun _ _ => by omega⟩

theorem claimEntry_sent (h : ClaimSent live now g r) (htime : claimTime time now = time)
    (hcounts : opts.Counts (id :: ids) r.map) :
    ClaimSent live now g (claimEntry live consumer minidle opts time now r id) ∧
      opts.Counts ids (claimEntry live consumer minidle opts time now r id).map := by
  obtain ⟨hopt, hbound⟩ := hcounts
  rw [length_cons] at hbound
  unfold claimEntry
  cases hc : claimCount (live id) opts minidle now (r.map.pending id) with
  | none =>
    refine ⟨h, hopt, fun hneg hj j hmem => ?_⟩
    have := hbound hneg hj j (.tail _ hmem)
    dsimp only
    omega
  | some count =>
    obtain ⟨hlive, hcount, hle⟩ := claimCount_le hc hopt fun hneg hj => hbound hneg hj id (.head _)
    have happly : (r.propagated ++ [Propagated.xclaim consumer id time count r.map.lastId]).foldl (apply live now) g =
        ⟨r.map.lastId, Function.update r.map.pending id (some ⟨consumer, time, count⟩)⟩ := by
      rw [foldl_append, foldl_cons, foldl_nil, apply_xclaim htime (by rwa [h.pending]) (by rwa [h.pending]),
        h.later, h.pending]
    refine ⟨⟨by rw [happly], ?_, fun _ => by rw [happly]⟩, hopt, fun hneg hj j hmem => ?_⟩
    · rw [happly]
      unfold laterID
      rw [if_neg (StreamID.lt_irrefl _)]
    have hj' := hbound hneg hj j (.tail _ hmem)
    by_cases heq : j = id
    · subst heq
      dsimp only
      rw [Function.update_self]
      exact hle hneg hj
    · dsimp only
      rw [Function.update_of_ne heq]
      omega

theorem claimSent_start (g : GroupMap) {last later : StreamID} {newer : Bool} (hlater : later = laterID g.lastId last)
    (hnewer : newer = decide (g.lastId < last)) : ClaimSent live now g ⟨⟨later, g.pending⟩, newer, []⟩ := by
  refine ⟨rfl, ?_, fun hold => ?_⟩
  · simp only [foldl_nil]
    rw [hlater, laterID_self_left]
  · simp only [foldl_nil]
    rw [hnewer] at hold
    rw [hlater, laterID, if_neg (of_decide_eq_false hold)]

theorem claimSent_loop (htime : claimTime time now = time) (minidle : Int) (h : ClaimSent live now g r)
    (hcounts : opts.Counts ids r.map) :
    ClaimSent live now g (ids.foldl (claimEntry live consumer minidle opts time now) r) := by
  induction ids generalizing r with
  | nil => exact h
  | cons id ids ih =>
    obtain ⟨h', hcounts'⟩ := claimEntry_sent h htime hcounts
    exact ih h' hcounts'

theorem ClaimSent.replay_all (h : ClaimSent live now g r) : r.all.foldl (apply live now) g = r.map := by
  unfold ReadMap.all
  split
  · rw [foldl_append, foldl_cons, foldl_nil, apply, h.pending]
  next hlast =>
    have hl := h.last (by simpa using hlast)
    have hp := h.pending
    generalize r.propagated.foldl (apply live now) g = g' at hl hp
    obtain ⟨l, p⟩ := g'
    cases hl
    cases hp
    rfl

theorem claim_replay (hcounts : opts.Counts ids g) :
    (g.claim live consumer minidle ids opts now).all.foldl (apply live now) g =
      (g.claim live consumer minidle ids opts now).map := by
  refine ClaimSent.replay_all ?_
  exact claimSent_loop (claimTime_idem ..) _ (claimSent_start g rfl rfl) ⟨hcounts.1, hcounts.2⟩

end sent

/-! ### Commands on the view -/

/-- The commands that are sent as they are, if at all. -/
def GroupCmd.Plain : GroupCmd → Prop
  | .create .. | .setid .. | .destroy .. | .delconsumer .. | .xack .. => True
  | _ => False

namespace StreamView
variable {v v' : StreamView} {gs gs' : GroupedStream} {limits : StreamLimits} {group : Arg} {cg : StreamCG}

def set (v : StreamView) (group : Arg) (g : Option GroupMap) : StreamView := ⟨v.map, Function.update v.groups group g⟩

theorem set_self {g : Option GroupMap} (h : v.groups group = g) : v.set group g = v := by
  unfold set
  rw [← h, Function.update_eq_self]

@[simp] theorem set_groups_self (v : StreamView) (group : Arg) (g : Option GroupMap) : (v.set group g).groups group = g :=
  Function.update_self ..

theorem set_groups_of_ne (v : StreamView) {group' : Arg} (h : group' ≠ group) (g : Option GroupMap) :
    (v.set group g).groups group' = v.groups group' := Function.update_of_ne h ..

theorem set_set (v : StreamView) (group : Arg) (g g' : Option GroupMap) : (v.set group g).set group g' = v.set group g' := by
  unfold set
  rw [Function.update_idem]

def apply (v : StreamView) : GroupCmd → StreamView
  | .create group id =>
    match v.groups group with
    | some _ => v
    | none => v.set group (some ⟨id.getD v.map.last, fun _ => none⟩)
  | .setid group id => v.set group ((v.groups group).map fun g => ⟨id.getD v.map.last, g.pending⟩)
  | .destroy group => v.set group none
  | .delconsumer group consumer _ => v.set group ((v.groups group).map fun g =>
      ⟨g.lastId, fun j => (g.pending j).filter fun p => decide (p.owner ≠ consumer)⟩)
  | .xack group ids => v.set group ((v.groups group).map fun g =>
      ⟨g.lastId, fun j => if some j ∈ ids.takeWhile Option.isSome then none else g.pending j⟩)
  | .xclaim group consumer minidle ids opts now => v.set group ((v.groups group).map fun g =>
      (g.claim v.map.live consumer minidle ids opts now).map)
  | .entries _ => v
  | .xreadgroup .. => v

section
variable (h : v.Is gs)
include h

theorem Is.insert (hI : cg.Inv) (group : Arg) :
    (v.set group (some cg.map)).Is { gs with cgroups := gs.cgroups.insert group cg } := by
  refine ⟨h.map, h.inv.insert group hI, fun group' => ?_⟩
  by_cases hg : group' = group
  · subst hg
    rw [lookup_insert, set_groups_self, map_some]
  · rw [lookup_insert_ne hg, h.groups, set_groups_of_ne v hg]

theorem Is.erase (group : Arg) : (v.set group none).Is { gs with cgroups := gs.cgroups.erase group } := by
  refine ⟨h.map, h.inv.erase group, fun group' => ?_⟩
  by_cases hg : group' = group
  · subst hg
    rw [lookup_erase, set_groups_self, map_none]
  · rw [lookup_erase_ne hg, h.groups, set_groups_of_ne v hg]

theorem Is.group_none (hl : gs.cgroups.lookup group = none) : v.groups group = none := by
  rw [← h.groups, hl, map_none]

theorem Is.group_some (hl : gs.cgroups.lookup group = some cg) : v.groups group = some cg.map := by
  rw [← h.groups, hl, map_some]

theorem Is.withGroup (group : Arg) (missing : GroupReply)
    {f : StreamCG → Except Crash (StreamCG × GroupReply × List Propagated)} {F : GroupMap → GroupMap}
    {R : GroupMap → GroupReply → List Propagated → Prop} (hf : ∀ cg, gs.cgroups.lookup group = some cg →
      ∃ cg' r p, f cg = .ok (cg', r, p) ∧ cg'.Inv ∧ cg'.map = F cg.map ∧ R cg.map r p) :
    ∃ gs' r p, gs.withGroup group missing f = .ok (gs', r, p) ∧ (v.set group ((v.groups group).map F)).Is gs' ∧
      ((gs.cgroups.lookup group = none ∧ v.groups group = none ∧ r = missing ∧ p = []) ∨
        ∃ cg, gs.cgroups.lookup group = some cg ∧ v.groups group = some cg.map ∧ R cg.map r p) := by
  unfold GroupedStream.withGroup
  cases hl : gs.cgroups.lookup group with
  | none =>
    have hnone := h.group_none hl
    rw [hnone, map_none, set_self hnone]
    exact ⟨gs, missing, [], rfl, h, .inl ⟨rfl, rfl, rfl, rfl⟩⟩
  | some cg =>
    obtain ⟨cg', r, p, hres, hI, hmap, hR⟩ := hf cg hl
    have hsome := h.group_some hl
    dsimp only
    rw [hres, hsome, map_some, ← hmap]
    exact ⟨_, r, p, rfl, h.insert hI group, .inr ⟨cg, rfl, rfl, hR⟩⟩

theorem Is.groupID (id : Option StreamID) : gs.groupID id = id.getD v.map.last := by
  unfold GroupedStream.groupID
  rw [h.map.1]

theorem Is.create (limits : StreamLimits) (group : Arg) (id : Option StreamID) :
    ∃ gs' r, gs.exec limits (.create group id) = .ok (gs', r, []) ∧ (v.apply (.create group id)).Is gs' ∧
      (r = .ok ∨ (r ≠ .ok ∧ v.apply (.create group id) = v ∧ v.groups group ≠ none)) := by
  rw [GroupedStream.exec, apply]
  cases hl : gs.cgroups.lookup group with
  | some cg =>
    rw [h.group_some hl]
    exact ⟨gs, _, rfl, h, .inr ⟨by simp, rfl, by simp⟩⟩
  | none =>
    have hnew := h.insert (GroupedStream.createCG_inv (gs.groupID id)) group
    rw [h.group_none hl, ← h.groupID id]
    exact ⟨_, .ok, rfl, hnew, .inl rfl⟩

end

theorem xackDirty_eq_zero {ids : List (Option StreamID)} {pel : Pel} (h : xackDirty ids pel = 0) {j : StreamID}
    (hj : some j ∈ ids.takeWhile isSome) : pel.lookup j = none := by
  induction ids with
  | nil => cases hj
  | cons id ids ih =>
    rcases id with - | id
    · cases hj
    rw [xackDirty] at h
    split at h
    · cases h
    next hnone =>
      rcases mem_cons.1 hj with heq | hj
      · cases heq
        simpa using hnone
      · exact ih h hj

/-- A command goes through, and it is sent as it is unless it leaves the view alone. -/
def SendsItself (limits : StreamLimits) (v : StreamView) (gs : GroupedStream) (cmd : GroupCmd) : Prop :=
  ∃ gs' r p, gs.exec limits cmd = .ok (gs', r, p) ∧ (v.apply cmd).Is gs' ∧
    (cmd.sends gs gs' r p = [.on cmd] ∨ (cmd.sends gs gs' r p = [] ∧ v.apply cmd = v))

section
variable (h : v.Is gs) (limits : StreamLimits)
include h

theorem Is.setid (group : Arg) (id : Option StreamID) : SendsItself limits v gs (.setid group id) := by
  obtain ⟨gs', r, p, hexec, his, hcases⟩ := h.withGroup group noGroupXGROUP
    (f := fun cg => .ok ({ cg with lastId := gs.groupID id }, .ok, [])) (F := fun g => ⟨id.getD v.map.last, g.pending⟩)
    (R := fun _ r _ => r = .ok) fun cg hl =>
      ⟨_, _, _, rfl, (h.inv group cg hl).setLastId _, by rw [h.groupID]; rfl, rfl⟩
  refine ⟨gs', r, p, hexec, his, ?_⟩
  rw [sends]
  rcases hcases with ⟨-, hnone, rfl, -⟩ | ⟨cg, -, -, hr⟩
  · exact .inr ⟨if_neg (by simp [noGroupXGROUP]), by rw [apply, hnone]; exact set_self hnone⟩
  · exact .inl (if_pos hr)

theorem Is.destroy (group : Arg) : SendsItself limits v gs (.destroy group) := by
  rw [SendsItself, GroupedStream.exec, apply]
  cases hl : gs.cgroups.lookup group with
  | some cg => exact ⟨_, _, _, rfl, h.erase group, .inl (by simp [sends])⟩
  | none =>
    rw [set_self (h.group_none hl)]
    exact ⟨gs, _, _, rfl, h, .inr ⟨by simp [sends], rfl⟩⟩

theorem Is.delconsumer (group consumer : Arg) (now : Int) :
    SendsItself limits v gs (.delconsumer group consumer now) := by
  obtain ⟨gs', r, p, hexec, his, hcases⟩ := h.withGroup group noGroupXGROUP
    (f := fun cg => streamDelConsumer cg consumer now >>= fun r => .ok (r.1, .number r.2, []))
    (F := fun g => ⟨g.lastId, fun j => (g.pending j).filter fun p => decide (p.owner ≠ consumer)⟩)
    (R := fun _ r _ => ∃ n, r = .number n) fun cg hl => by
      obtain ⟨cg', k, hdel, hI, hmap⟩ := StreamCG.streamDelConsumer_spec (h.inv group cg hl) consumer now
      exact ⟨cg', _, _, by rw [hdel, ok_bind], hI, hmap, k, rfl⟩
  refine ⟨gs', r, p, hexec, his, ?_⟩
  rcases hcases with ⟨-, hnone, rfl, -⟩ | ⟨cg, -, -, n, rfl⟩
  · exact .inr ⟨rfl, by rw [apply, hnone]; exact set_self hnone⟩
  · exact .inl rfl

theorem Is.xack (group : Arg) (ids : List (Option StreamID)) : SendsItself limits v gs (.xack group ids) := by
  obtain ⟨gs', r, p, hexec, his, -⟩ := h.withGroup group (.number 0)
    (f := fun cg => xackLoop ids cg 0 >>= fun r => .ok (r.1, r.2, []))
    (F := fun g => ⟨g.lastId, fun j => if some j ∈ ids.takeWhile isSome then none else g.pending j⟩)
    (R := fun _ _ _ => True) fun cg hl => by
      obtain ⟨cg', r, hack, hI, hlast, hpend⟩ := StreamCG.xackLoop_spec (h.inv group cg hl) ids 0
      refine ⟨cg', r, _, by rw [hack, ok_bind], hI, ?_, trivial⟩
      rw [StreamCG.map, hlast, funext hpend]
      rfl
  refine ⟨gs', r, p, hexec, his, ?_⟩
  rw [sends, apply]
  rcases hl : gs.cgroups.lookup group with - | cg
  · rw [h.group_none hl]
    exact .inr ⟨rfl, set_self (h.group_none hl)⟩
  by_cases hzero : xackDirty ids cg.pel = 0
  · have hsame : (fun j => if some j ∈ ids.takeWhile isSome then none else cg.map.pending j) = cg.map.pending := by
      funext j
      split
      next hj => exact ((h.inv group cg hl).pending_eq_none.2 (xackDirty_eq_zero hzero hj)).symm
      · rfl
    rw [h.group_some hl, map_some, hsame]
    exact .inr ⟨if_pos hzero, set_self (h.group_some hl)⟩
  · exact .inl (if_neg hzero)

variable {cmd : GroupCmd}

theorem Is.plain (hcmd : cmd.Plain) : SendsItself limits v gs cmd := by
  cases cmd with
  | create group id =>
    obtain ⟨gs', r, hexec, his, hr⟩ := h.create limits group id
    refine ⟨gs', r, [], hexec, his, ?_⟩
    rw [sends]
    rcases hr with rfl | ⟨hr, hv, -⟩
    · exact .inl (if_pos rfl)
    · exact .inr ⟨if_neg hr, hv⟩
  | setid group id => exact h.setid limits group id
  | destroy group => exact h.destroy limits group
  | delconsumer group consumer now => exact h.delconsumer limits group consumer now
  | xack group ids => exact h.xack limits group ids
  | entries cmd | xreadgroup group consumer count noack id now => cases hcmd
  | xclaim group consumer minidle ids opts now => cases hcmd

theorem Is.xclaim (group consumer : Arg) (minidle : Int) (ids : List StreamID) (opts : ClaimOptions) (now : Int) :
    ∃ gs' r p, gs.exec limits (.xclaim group consumer minidle ids opts now) = .ok (gs', r, p) ∧
      (v.apply (.xclaim group consumer minidle ids opts now)).Is gs' ∧ ((v.groups group = none ∧ p = []) ∨
        ∃ cg, gs.cgroups.lookup group = some cg ∧ v.groups group = some cg.map ∧
          p = (cg.map.claim v.map.live consumer minidle ids opts now).all) := by
  obtain ⟨gs', r, p, hexec, his, hcases⟩ := h.withGroup group noGroupXCLAIM
    (F := fun g => (g.claim v.map.live consumer minidle ids opts now).map)
    (R := fun g _ p => p = (g.claim v.map.live consumer minidle ids opts now).all) fun cg hl => by
      obtain ⟨cg', r, hclaim, hI, hmap⟩ := xclaimCommand_spec h.map (h.inv group cg hl) consumer minidle ids opts now
      exact ⟨cg', r, _, hclaim, hI, hmap, rfl⟩
  refine ⟨gs', r, p, hexec, his, ?_⟩
  rcases hcases with ⟨-, hnone, -, hp⟩ | hcg
  · exact .inl ⟨hnone, hp⟩
  · exact .inr hcg

theorem Is.xreadgroup (group consumer : Arg) (count : Nat) (noack : Bool)
    (id : StreamID) (now : Int) (hhistory : id ≠ .max → ∀ cg, gs.cgroups.lookup group = some cg →
      ∀ j ∈ cg.history consumer id count, streamEmitEntry gs.stream j = .ok none) :
    ∃ gs' r p v', gs.exec limits (.xreadgroup group consumer count noack id now) = .ok (gs', r, p) ∧ v'.Is gs' ∧
      ((v' = v ∧ p = []) ∨ ∃ g ids, v.groups group = some g ∧ (∀ id ∈ ids, v.map.live id = true) ∧
        p = (g.read noack consumer now ids).propagated ∧ v' = v.set group (some (g.read noack consumer now ids).map)) := by
  rw [GroupedStream.exec, GroupedStream.withGroup]
  rcases hl : gs.cgroups.lookup group with - | cg
  · exact ⟨gs, _, _, v, rfl, h, .inl ⟨rfl, rfl⟩⟩
  have hI := h.inv group cg hl
  dsimp only
  by_cases hid : id = .max
  · subst hid
    obtain ⟨cg', r, ids, hread, hI', hmap, hlive, -⟩ := xreadgroup_new_spec h.map hI consumer count noack now
    rw [hread]
    exact ⟨_, _, _, _, rfl, h.insert hI' group, .inr ⟨cg.map, ids, h.group_some hl,
      fun id hid => decide_eq_true (hlive id hid), rfl, by rw [hmap]⟩⟩
  · obtain ⟨cg', r, hread, hI', hmap⟩ := xreadgroup_history_spec hI hid (hhistory hid cg hl) noack now
    rw [hread]
    have his := h.insert hI' group
    rw [hmap, set_self (h.group_some hl)] at his
    exact ⟨_, _, _, v, rfl, his, .inl ⟨rfl, rfl⟩⟩

end

end StreamView

/-! ### Commands on the entries -/

section entries
variable {m m' : StreamMap} {s : Stream} {r : StreamReply}
variable {k : Nat} {maxlen : Option (UInt64 × Bool)} {id : Option StreamID} {mstime : UInt64}

theorem streamRewriteApproxMaxlen_eq (h : m.Is s) (hlen : m.entries.length < 2 ^ 63) (cmd : UInt64 → StreamCmd) :
    streamRewriteApproxMaxlen s cmd = .on (.entries (cmd s.length)) := by
  have hlt : s.length.toNat < 2 ^ 63 := h.length ▸ hlen
  unfold streamRewriteApproxMaxlen asInt64
  rw [if_neg (by omega)]

theorem Drops.le {n : Nat} (h : Drops n maxlen k) : k ≤ n := by
  cases maxlen with
  | none => exact (show k = 0 from h) ▸ Nat.zero_le n
  | some x => exact h.1.trans (Nat.sub_le ..)

/-- A command that has the same effect where it is sent. -/
def StreamCmd.SentAs (cmd cmd' : StreamCmd) (m m' : StreamMap) : Prop :=
  (GroupCmd.entries cmd').isXadd = (GroupCmd.entries cmd).isXadd ∧ (∀ s, cmd.Fits s → cmd'.Fits s) ∧
    ∀ r m₂, streamCmdSpec cmd' m r m₂ → m₂ = m'

theorem xadd_sentAs {new : StreamID} {argv : Argv} {maxlen' : Option (UInt64 × Bool)} (hnew : m.last < new)
    (hsome : maxlen' ≠ none → maxlen ≠ none) (hk : ∀ k', Drops (m.entries.length + 1) maxlen' k' → k' = k) :
    StreamCmd.SentAs (.xadd id argv mstime maxlen) (.xadd (some new) argv mstime maxlen') m
      ⟨new, (m.entries ++ [(new, argv)]).drop k⟩ := by
  refine ⟨rfl, ?_, ?_⟩
  · rintro s ⟨hlen, hbytes, -, hroom⟩
    refine ⟨hlen, hbytes, ?_, fun hn => hroom (hsome hn)⟩
    intro hn
    cases hn
  · intro r m₂ hspec
    rw [streamCmdSpec, if_pos] at hspec
    · obtain ⟨k', hk', -, rfl⟩ := hspec
      rw [hk k' hk']
      rfl
    · intro u hu
      cases hu
      exact hnew

theorem xadd_sends {new : StreamID} {argv : Argv} (hnew : m.last < new) (hk : Drops (m.entries.length + 1) maxlen k)
    (his : StreamMap.Is ⟨new, (m.entries ++ [(new, argv)]).drop k⟩ s) (hlen : m.entries.length + 1 < 2 ^ 63) :
    ∃ cmd', StreamCmd.sends s (.xadd id argv mstime maxlen) (.added new) = [.on (.entries cmd')] ∧
      StreamCmd.SentAs (.xadd id argv mstime maxlen) cmd' m ⟨new, (m.entries ++ [(new, argv)]).drop k⟩ := by
  rcases maxlen with - | x
  · exact ⟨_, rfl, xadd_sentAs hnew (fun h => h) fun k' hk' => hk'.trans hk.symm⟩
  obtain ⟨maxlen, approx⟩ := x
  rcases approx with - | -
  · exact ⟨_, rfl, xadd_sentAs hnew (fun h => h) fun k' hk' => (hk'.2 rfl).trans (hk.2 rfl).symm⟩
  -- the length that is left drops as many again
  have hleft : s.length.toNat = m.entries.length + 1 - k := by
    rw [his.length, length_drop, length_append, length_singleton]
  have hrewrite := streamRewriteApproxMaxlen_eq his
    (by rw [length_drop, length_append, length_singleton]; omega)
    fun maxlen => .xadd (some new) argv mstime (some (maxlen, false))
  refine ⟨_, congrArg (fun c => [c]) hrewrite, xadd_sentAs hnew (fun _ => by simp) fun k' hk' => ?_⟩
  have hle := hk.le
  have := hk'.2 rfl
  omega

theorem xtrim_sends {maxlen : UInt64} {approx : Bool} (hk : Drops m.entries.length (some (maxlen, approx)) k)
    (his : StreamMap.Is ⟨m.last, m.entries.drop k⟩ s) (hlen : m.entries.length + 1 < 2 ^ 63) (hpos : k ≠ 0) :
    ∃ cmd', StreamCmd.sends s (.xtrim maxlen approx) (.number (asInt64 (UInt64.ofNat k))) = [.on (.entries cmd')] ∧
      StreamCmd.SentAs (.xtrim maxlen approx) cmd' m ⟨m.last, m.entries.drop k⟩ := by
  have hle := hk.le
  have hne : asInt64 (UInt64.ofNat k) ≠ 0 := by
    have hof : (UInt64.ofNat k).toNat = k := by rw [UInt64.toNat_ofNat', Nat.mod_eq_of_lt (by omega)]
    unfold asInt64
    omega
  rw [StreamCmd.sends, if_neg hne]
  cases approx with
  | false =>
    refine ⟨_, rfl, rfl, fun _ h => h, fun r m₂ hspec => ?_⟩
    obtain ⟨k', hk', -, rfl⟩ := hspec
    rw [(hk'.2 rfl).trans (hk.2 rfl).symm]
  | true =>
    have hleft : s.length.toNat = m.entries.length - k := by rw [his.length, length_drop]
    have hrewrite := streamRewriteApproxMaxlen_eq his (by rw [length_drop]; omega) fun maxlen => .xtrim maxlen false
    refine ⟨_, congrArg (fun c => [c]) hrewrite, rfl, fun _ h => h, fun r m₂ hspec => ?_⟩
    obtain ⟨k', hk', -, rfl⟩ := hspec
    have hsame : k' = k := by
      have := hk'.2 rfl
      omega
    rw [hsame]

variable {cmd : StreamCmd}

theorem sends_spec {s₀ : Stream} (h : m.Is s₀) (hfits : cmd.Fits s₀) (hspec : streamCmdSpec cmd m r m')
    (his : m'.Is s) (hlen : m.entries.length + 1 < 2 ^ 63) :
    (cmd.sends s r = [] ∧ m' = m ∧ ∀ id argv mstime maxlen, cmd = .xadd id argv mstime maxlen → ∃ u ∈ id, ¬m.last < u) ∨
      ∃ cmd', cmd.sends s r = [.on (.entries cmd')] ∧ cmd.SentAs cmd' m m' := by
  cases cmd with
  | xadd id argv mstime maxlen =>
    rw [streamCmdSpec] at hspec
    by_cases hid : ∀ u ∈ id, m.last < u
    · rw [if_pos hid] at hspec
      obtain ⟨k, hk, rfl, rfl⟩ := hspec
      have hnew : m.last < id.getD (streamNextID mstime m.last) := by
        cases id with
        | none => exact streamNextID_lt (h.1 ▸ hfits.2.2.1 rfl)
        | some u => exact hid u rfl
      exact .inr (xadd_sends hnew hk his hlen)
    · rw [if_neg hid] at hspec
      obtain ⟨rfl, rfl⟩ := hspec
      refine .inl ⟨by simp [StreamCmd.sends], rfl, fun id' argv' mstime' maxlen' heq => ?_⟩
      cases heq
      simpa using hid
  | xdel ids =>
    obtain ⟨rfl, rfl⟩ := hspec
    by_cases hzero : m.entries.countP (fun e => decide (e.1 ∈ ids)) = 0
    · refine .inl ⟨by rw [hzero]; rfl, ?_, fun _ _ _ _ heq => by cases heq⟩
      have hall : (m.entries.filter fun e => decide (e.1 ∉ ids)) = m.entries :=
        filter_eq_self.2 fun e he => by simpa using countP_eq_zero.1 hzero e he
      rw [hall]
    · refine .inr ⟨.xdel ids, ?_, rfl, fun _ h => h, fun r m₂ hspec => hspec.2⟩
      rw [StreamCmd.sends, if_pos (by simpa using hzero)]
  | xtrim maxlen approx =>
    obtain ⟨k, hk, rfl, rfl⟩ := hspec
    by_cases hzero : k = 0
    · subst hzero
      exact .inl ⟨by rw [StreamCmd.sends, if_pos (by decide)], rfl, fun _ _ _ _ heq => by cases heq⟩
    · exact .inr (xtrim_sends hk his hlen hzero)
  | xsetid id =>
    rw [streamCmdSpec] at hspec
    by_cases hle : ∀ e ∈ m.entries, e.1 ≤ id
    · rw [if_pos hle] at hspec
      obtain ⟨rfl, rfl⟩ := hspec
      refine .inr ⟨.xsetid id, rfl, rfl, fun _ h => h, fun r m₂ hspec => ?_⟩
      rw [streamCmdSpec, if_pos hle] at hspec
      exact hspec.2
    · rw [if_neg hle] at hspec
      obtain ⟨rfl, rfl⟩ := hspec
      exact .inl ⟨rfl, rfl, fun _ _ _ _ heq => by cases heq⟩

end entries

/-! ### Replay -/

section replay
variable {limits : StreamLimits} {key group : Arg} {db db' : StreamDb} {v v' v'' : StreamView} {gs gs' : GroupedStream}

/-- The keyspace has a stream at the key that shows the view. -/
def StreamDb.Shows (db : StreamDb) (key : Arg) (v : StreamView) : Prop :=
  ∃ gs, db.lookup key = some (.stream gs) ∧ v.Is gs

/-- The keyspace after a command that shows the view at its key and has left the other keys alone. -/
def StreamDb.Turned (db : StreamDb) (key : Arg) (v : StreamView) (db' : StreamDb) : Prop :=
  db'.Shows key v ∧ ∀ key' ≠ key, db'.lookup key' = db.lookup key'

theorem StreamDb.Turned.insert (db : StreamDb) (key : Arg) (his : v.Is gs) : db.Turned key v (db.insert key (.stream gs)) :=
  ⟨⟨gs, lookup_insert _, his⟩, fun _ hne => lookup_insert_ne hne⟩

/-- The replay of the commands takes a stream from one view to the other, and leaves the other keys alone. -/
def Carries (limits : StreamLimits) (key : Arg) (cmds : List KeyCmd) (v v' : StreamView) : Prop :=
  ∀ db : StreamDb, db.Shows key v → ∃ db', StreamDb.replay limits key cmds db = .ok db' ∧ db.Turned key v' db'

theorem Carries.nil (limits : StreamLimits) (key : Arg) (v : StreamView) : Carries limits key [] v v :=
  fun db h => ⟨db, rfl, h, fun _ _ => rfl⟩

section
variable {cmd : GroupCmd} {r : GroupReply} {p : List Propagated}
  (hat : db.exec limits key (.on cmd) = db.execAt limits key gs cmd) (hexec : gs.exec limits cmd = .ok (gs', r, p))
include hat hexec

theorem exec_execAt : db.exec limits key (.on cmd) = .ok (db.insert key (.stream gs'), r, cmd.sends gs gs' r p) := by
  rw [hat, execAt, hexec]
  rfl

theorem replay_execAt (his : v'.Is gs') : ∃ db', replay limits key [.on cmd] db = .ok db' ∧ db.Turned key v' db' := by
  refine ⟨db.insert key (.stream gs'), ?_, .insert db key his⟩
  rw [replay, exec_execAt hat hexec]
  rfl

end

theorem exec_on_stream (hl : db.lookup key = some (.stream gs)) (cmd : GroupCmd) :
    db.exec limits key (.on cmd) = db.execAt limits key gs cmd := by
  rw [exec, hl]

theorem carries_one (hcmd : ∀ gs, v.Is gs → ∃ gs' r p, gs.exec limits cmd = .ok (gs', r, p) ∧ v'.Is gs') :
    Carries limits key [.on cmd] v v' := by
  rintro db ⟨gs, hl, his⟩
  obtain ⟨gs', r, p, hexec, his'⟩ := hcmd gs his
  exact replay_execAt (exec_on_stream hl cmd) hexec his'

theorem Carries.cons {cmd : KeyCmd} {cmds : List KeyCmd} (h : Carries limits key [cmd] v v')
    (h' : Carries limits key cmds v' v'') : Carries limits key (cmd :: cmds) v v'' := by
  intro db hdb
  obtain ⟨db₁, hrun₁, hshows₁, hframe₁⟩ := h db hdb
  obtain ⟨db₂, hrun₂, hshows₂, hframe₂⟩ := h' db₁ hshows₁
  refine ⟨db₂, ?_, hshows₂, fun key' hne => (hframe₂ key' hne).trans (hframe₁ key' hne)⟩
  obtain ⟨⟨db₁', r, sent⟩, hexec, hnil⟩ := except_bind_ok hrun₁
  cases hnil
  rw [replay, hexec]
  exact hrun₂

theorem carries_propagated (limits : StreamLimits) (key : Arg) {g : GroupMap} (hg : v.groups group = some g) (now : Int)
    (ps : List Propagated) :
    Carries limits key (ps.map fun p => .on (p.cmd group now)) v
      (v.set group (some (ps.foldl (apply v.map.live now) g))) := by
  induction ps generalizing v g with
  | nil =>
    rw [foldl_nil, set_self hg]
    exact Carries.nil limits key v
  | cons p ps ih =>
    have hone : Carries limits key [.on (p.cmd group now)] v (v.set group (some (g.apply v.map.live now p))) := by
      refine carries_one fun gs his => ?_
      cases p with
      | xclaim consumer id time retrycount lastId =>
        obtain ⟨gs', r, p, hexec, his', -⟩ :=
          his.xclaim limits group consumer 0 [id] ⟨true, true, time, asInt64 retrycount, lastId⟩ now
        rw [StreamView.apply, hg] at his'
        exact ⟨gs', r, p, hexec, his'⟩
      | setid lastId =>
        obtain ⟨gs', r, p, hexec, his', -⟩ := his.setid limits group (some lastId)
        rw [StreamView.apply, hg] at his'
        exact ⟨gs', r, p, hexec, his'⟩
    have hrest := ih (v := v.set group (some (g.apply v.map.live now p))) (set_groups_self ..)
    rw [StreamView.set_set] at hrest
    exact hone.cons hrest

/-- Reads of the history come upon no entry that still exists, and no claim counts up to 2^63. -/
def GroupCmd.Replicates (gs : GroupedStream) : GroupCmd → Prop
  | .xreadgroup group consumer count _ id _ => id ≠ .max → ∀ cg ∈ gs.cgroups.lookup group,
      ∀ j ∈ cg.history consumer id count, streamEmitEntry gs.stream j = .ok none
  | .xclaim group _ _ ids opts _ => ∀ cg ∈ gs.cgroups.lookup group, opts.Counts ids cg.map
  | _ => True

theorem sends_carries (his : v.Is gs) (limits : StreamLimits) (key : Arg) (hcmd : ∀ c, cmd ≠ .entries c)
    (hok : cmd.Replicates gs) :
    ∃ gs' r p v', gs.exec limits cmd = .ok (gs', r, p) ∧ v'.Is gs' ∧ Carries limits key (cmd.sends gs gs' r p) v v' := by
  have hplain : cmd.Plain → ∃ gs' r p v', gs.exec limits cmd = .ok (gs', r, p) ∧ v'.Is gs' ∧
      Carries limits key (cmd.sends gs gs' r p) v v' := by
    intro hp
    obtain ⟨gs', r, p, hexec, his', hsends⟩ := his.plain limits hp
    refine ⟨gs', r, p, _, hexec, his', ?_⟩
    rcases hsends with hsends | ⟨hsends, hv⟩
    · rw [hsends]
      refine carries_one fun gs₂ his₂ => ?_
      obtain ⟨gs₂', r₂, p₂, hexec₂, his₂', -⟩ := his₂.plain limits hp
      exact ⟨gs₂', r₂, p₂, hexec₂, his₂'⟩
    · rw [hsends, hv]
      exact Carries.nil limits key v
  cases cmd with
  | entries c => exact absurd rfl (hcmd c)
  | create group id | setid group id | destroy group | delconsumer group consumer now => exact hplain trivial
  | xack group ids => exact hplain trivial
  | xclaim group consumer minidle ids opts now =>
    obtain ⟨gs', r, p, hexec, his', hp⟩ := his.xclaim limits group consumer minidle ids opts now
    refine ⟨gs', r, p, _, hexec, his', ?_⟩
    rw [StreamView.apply]
    rcases hp with ⟨hnone, rfl⟩ | ⟨cg, hl, hg, rfl⟩
    · rw [hnone, map_none, set_self hnone]
      exact Carries.nil limits key v
    have hsent := carries_propagated limits key hg now (cg.map.claim v.map.live consumer minidle ids opts now).all
    rw [claim_replay (hok cg hl)] at hsent
    rw [hg]
    exact hsent
  | xreadgroup group consumer count noack id now =>
    obtain ⟨gs', r, p, v', hexec, his', hp⟩ := his.xreadgroup limits group consumer count noack id now hok
    refine ⟨gs', r, p, v', hexec, his', ?_⟩
    rcases hp with ⟨rfl, rfl⟩ | ⟨g, ids, hg, hlive, rfl, rfl⟩
    · exact Carries.nil limits key v'
    · have hsent := carries_propagated limits key hg now (g.read noack consumer now ids).propagated
      rwa [read_replay noack hlive] at hsent

theorem entries_carries {gs₂ : GroupedStream} (his : v.Is gs) (his₂ : v.Is gs₂) (limits : StreamLimits)
    (hfits : cmd.Fits gs.stream) (hfits₂ : cmd.Fits gs₂.stream) (hlen : gs.stream.length.toNat + 1 < 2 ^ 63) :
    ∃ gs' r p v', gs.exec limits (.entries cmd) = .ok (gs', r, p) ∧ v'.Is gs' ∧
      (((entries cmd).sends gs gs' r p = [] ∧ v' = v ∧
          ∀ id argv mstime maxlen, cmd = .xadd id argv mstime maxlen → ∃ u ∈ id, ¬v.map.last < u) ∨
        ∃ cmd' gs₂' r₂ p₂, (entries cmd).sends gs gs' r p = [.on (.entries cmd')] ∧
          (entries cmd').isXadd = (entries cmd).isXadd ∧
          gs₂.exec limits (.entries cmd') = .ok (gs₂', r₂, p₂) ∧ v'.Is gs₂') := by
  have hexec : ∀ {gs : GroupedStream} {c : StreamCmd} {s' : Stream} {r : StreamReply},
      streamCmdStep limits c gs.stream = some (s', r) →
        gs.exec limits (.entries c) = .ok ({ gs with stream := s' }, .entries r, []) := by
    intro gs c s' r hstep
    rw [GroupedStream.exec, hstep]
    rfl
  have hset : ∀ {gs : GroupedStream} {s' : Stream} {m' : StreamMap}, v.Is gs → m'.Is s' →
      StreamView.Is ⟨m', v.groups⟩ { gs with stream := s' } := fun his hm => ⟨hm, his.inv, his.groups⟩
  obtain ⟨s', r, m', hstep, hspec, hm⟩ := streamCmdStep_simulates limits cmd gs.stream v.map his.map hfits
  refine ⟨_, _, _, ⟨m', v.groups⟩, hexec hstep, hset his hm, ?_⟩
  rcases sends_spec his.map hfits hspec hm (by rw [← his.map.length]; exact hlen) with
    ⟨hnil, rfl, hid⟩ | ⟨cmd', hsends, hxadd, hfits', hsame⟩
  · exact .inl ⟨hnil, rfl, hid⟩
  · obtain ⟨s₂', r₂, m₂, hstep₂, hspec₂, hm₂⟩ := streamCmdStep_simulates limits cmd' gs₂.stream v.map his₂.map (hfits' _ hfits₂)
    rw [hsame r₂ m₂ hspec₂] at hm₂
    exact .inr ⟨cmd', _, _, _, hsends, hxadd, hexec hstep₂, hset his₂ hm₂⟩

end replay

/-! ### Master and replica -/

section alike
variable {limits : StreamLimits} {key : Arg} {db db' db₂ db₂' : StreamDb} {v : StreamView}
variable {op : Arg × KeyCmd} {st : StreamDb × StreamDb} {gs gs₂ : GroupedStream}

theorem StreamDb.Alike.turned (h : db.Alike db₂) (ht : db.Turned key v db') (ht₂ : db₂.Turned key v db₂') : db'.Alike db₂' := by
  intro key'
  by_cases hk : key' = key
  · subst hk
    obtain ⟨⟨gs, hl, his⟩, -⟩ := ht
    obtain ⟨⟨gs₂, hl₂, his₂⟩, -⟩ := ht₂
    rw [hl, hl₂]
    exact ⟨v, his, his₂⟩
  · rw [ht.2 key' hk, ht₂.2 key' hk]
    exact h key'

theorem StreamDb.Alike.cases (h : db.Alike db₂) (key : Arg) :
    (db.lookup key = none ∧ db₂.lookup key = none) ∨ (db.lookup key = some .other ∧ db₂.lookup key = some .other) ∨
      ∃ (v : StreamView) (gs gs₂ : GroupedStream), db.lookup key = some (.stream gs) ∧
        db₂.lookup key = some (.stream gs₂) ∧ v.Is gs ∧ v.Is gs₂ := by
  have hk := h key
  rcases hl : db.lookup key with _ | gs | _ <;> rcases hl₂ : db₂.lookup key with _ | gs₂ | _ <;> rw [hl, hl₂] at hk
  case none.none => exact .inl ⟨rfl, rfl⟩
  case some.stream.some.stream =>
    obtain ⟨v, his, his₂⟩ := hk
    exact .inr (.inr ⟨v, gs, gs₂, rfl, rfl, his, his₂⟩)
  case some.other.some.other => exact .inr (.inl ⟨rfl, rfl⟩)
  all_goals cases hk

def StreamDb.streamAt (db : StreamDb) (key : Arg) : GroupedStream :=
  match db.lookup key with
  | some (.stream gs) => gs
  | _ => ⟨streamNew, ∅⟩

def StreamCmd.asked : StreamCmd → Option StreamID
  | .xadd id .. => id
  | _ => none

/-- The commands that a replica can follow: an entry finds room on both sides, `XADD` does not ask for the ID `0-0` where
the key does not exist, a read of the history comes upon no entry that still exists, and no claim counts up to 2^63. -/
def KeyCmd.Replicates (key : Arg) (master replica : StreamDb) : KeyCmd → Prop
  | .on (.entries cmd) => cmd.Fits (master.streamAt key).stream ∧ cmd.Fits (replica.streamAt key).stream ∧
      (master.streamAt key).stream.length.toNat + 1 < 2 ^ 63 ∧ (master.lookup key = none → cmd.asked ≠ some .zero)
  | .on cmd => cmd.Replicates (master.streamAt key)
  | _ => True

def StreamView.new : StreamView := ⟨⟨.zero, []⟩, fun _ => none⟩

theorem StreamView.new_is : new.Is ⟨streamNew, ∅⟩ := by
  refine ⟨⟨rfl, [], holds_new, rfl⟩, fun group cg hl => ?_, fun _ => rfl⟩
  cases hl

theorem step_of {r : GroupReply} {sent : List KeyCmd} (hexec : st.1.exec limits op.1 op.2 = .ok (db', r, sent))
    (hreplay : replay limits op.1 sent st.2 = .ok db₂') : (replication limits).step op st = some ((db', db₂'), r) := by
  change ((st.1.exec limits op.1 op.2).toOption >>= _) = _
  rw [hexec]
  change ((replay limits op.1 sent st.2).toOption >>= _) = _
  rw [hreplay]
  rfl

/-- A step goes through, and leaves the replica with the streams of the master. -/
def Follows (limits : StreamLimits) (op : Arg × KeyCmd) (st : StreamDb × StreamDb) : Prop :=
  ∃ st' r, (replication limits).step op st = some (st', r) ∧ st'.1.Alike st'.2

theorem step_unchanged {r : GroupReply} (h : st.1.Alike st.2) (hexec : st.1.exec limits op.1 op.2 = .ok (st.1, r, [])) :
    Follows limits op st :=
  ⟨_, r, step_of hexec rfl, h⟩

theorem step_entries (h : db.Alike db₂) (his : v.Is gs) (his₂ : v.Is gs₂)
    (hat : db.exec limits key (.on (.entries cmd)) = db.execAt limits key gs (.entries cmd))
    (hat₂ : ∀ cmd', (entries cmd').isXadd = (entries cmd).isXadd →
      db₂.exec limits key (.on (.entries cmd')) = db₂.execAt limits key gs₂ (.entries cmd'))
    (hfits : cmd.Fits gs.stream) (hfits₂ : cmd.Fits gs₂.stream) (hlen : gs.stream.length.toNat + 1 < 2 ^ 63)
    (hnil : (∀ id argv mstime maxlen, cmd = .xadd id argv mstime maxlen → ∃ u ∈ id, ¬v.map.last < u) → db₂.Shows key v) :
    Follows limits (key, .on (.entries cmd)) (db, db₂) := by
  obtain ⟨gs', r, p, v', hexec, his', hcases⟩ := entries_carries his his₂ limits hfits hfits₂ hlen
  have hmaster := exec_execAt hat hexec
  have hturned := StreamDb.Turned.insert db key his'
  rcases hcases with ⟨hsends, rfl, hid⟩ | ⟨cmd', gs₂', r₂, p₂, hsends, hxadd, hexec₂, his₂'⟩
  · rw [hsends] at hmaster
    exact ⟨_, r, step_of hmaster rfl, h.turned hturned ⟨hnil hid, fun _ _ => rfl⟩⟩
  · rw [hsends] at hmaster
    obtain ⟨db₂', hreplay, hturned₂⟩ := replay_execAt (hat₂ cmd' hxadd) hexec₂ his₂'
    exact ⟨_, r, step_of hmaster hreplay, h.turned hturned hturned₂⟩

theorem exec_mkstream (hat : streamTypeLookupWriteOrCreate db key = some (db', gs))
    (hframe : ∀ key' ≠ key, db'.lookup key' = db.lookup key') (his : v.Is gs) (limits : StreamLimits) (group : Arg)
    (id : Option StreamID) :
    ∃ db'' r, db.exec limits key (.mkstream group id) = .ok (db'', r, if r = .ok then [.mkstream group id] else []) ∧
      db.Turned key (v.apply (.create group id)) db'' ∧
      (r ≠ .ok → v.apply (.create group id) = v ∧ v.groups group ≠ none) := by
  obtain ⟨gs', r, hexec, his', hr⟩ := his.create limits group id
  obtain ⟨hshows, hframe'⟩ := StreamDb.Turned.insert db' key his'
  refine ⟨_, r, ?_, ⟨hshows, fun key' hne => (hframe' key' hne).trans (hframe key' hne)⟩, fun hne => ?_⟩
  · rw [exec, hat]
    dsimp only
    rw [hexec]
    rfl
  · exact (hr.resolve_left hne).2

theorem step_mkstream (h : db.Alike db₂) (hat : streamTypeLookupWriteOrCreate db key = some (db', gs))
    (hat₂ : streamTypeLookupWriteOrCreate db₂ key = some (db₂', gs₂))
    (hframe : ∀ key' ≠ key, db'.lookup key' = db.lookup key')
    (hframe₂ : ∀ key' ≠ key, db₂'.lookup key' = db₂.lookup key') (his : v.Is gs) (his₂ : v.Is gs₂)
    (limits : StreamLimits) (group : Arg) (id : Option StreamID) (hnil : v.groups group ≠ none → db₂.Shows key v) :
    Follows limits (key, .mkstream group id) (db, db₂) := by
  obtain ⟨m', r, hexec, hturned, hr⟩ := exec_mkstream hat hframe his limits group id
  obtain ⟨m₂', r₂, hexec₂, hturned₂, -⟩ := exec_mkstream hat₂ hframe₂ his₂ limits group id
  by_cases hok : r = .ok
  · rw [if_pos hok] at hexec
    have hreplay : replay limits key [.mkstream group id] db₂ = .ok m₂' := by
      rw [replay, hexec₂]
      rfl
    exact ⟨_, r, step_of hexec hreplay, h.turned hturned hturned₂⟩
  · obtain ⟨hsame, hsome⟩ := hr hok
    rw [if_neg hok] at hexec
    rw [hsame] at hturned
    exact ⟨_, r, step_of hexec rfl, h.turned hturned ⟨hnil hsome, fun _ _ => rfl⟩⟩

theorem step_on (h : db.Alike db₂) (hl : db.lookup key = some (.stream gs))
    (hl₂ : db₂.lookup key = some (.stream gs₂)) (his : v.Is gs) (his₂ : v.Is gs₂)
    (hok : (KeyCmd.on cmd).Replicates key db db₂) : Follows limits (key, .on cmd) (db, db₂) := by
  have hstream : db.streamAt key = gs := by rw [streamAt, hl]
  have hstream₂ : db₂.streamAt key = gs₂ := by rw [streamAt, hl₂]
  by_cases hcmd : ∃ c, cmd = .entries c
  · obtain ⟨c, rfl⟩ := hcmd
    obtain ⟨hfits, hfits₂, hlen, -⟩ := hok
    rw [hstream] at hfits hlen
    rw [hstream₂] at hfits₂
    exact step_entries h his his₂ (exec_on_stream hl _) (fun _ _ => exec_on_stream hl₂ _) hfits hfits₂ hlen
      fun _ => ⟨gs₂, hl₂, his₂⟩
  · have hgroups : cmd.Replicates gs := by
      cases cmd with
      | entries c => exact absurd ⟨c, rfl⟩ hcmd
      | _ => exact hstream ▸ hok
    obtain ⟨gs', r, p, v', hexec, his', hcarries⟩ := sends_carries his limits key (fun c hc => hcmd ⟨c, hc⟩) hgroups
    obtain ⟨db₂', hreplay, hturned₂⟩ := hcarries db₂ ⟨gs₂, hl₂, his₂⟩
    exact ⟨_, r, step_of (exec_execAt (exec_on_stream hl _) hexec) hreplay, h.turned (.insert db key his') hturned₂⟩

theorem step_on_missing (h : db.Alike db₂) (hl : db.lookup key = none) (hl₂ : db₂.lookup key = none)
    (hok : (KeyCmd.on cmd).Replicates key db db₂) : Follows limits (key, .on cmd) (db, db₂) := by
  cases hx : cmd.isXadd with
  | false =>
    refine step_unchanged h (r := cmd.missing) ?_
    rw [exec, hl]
    rw [hx, if_neg (by decide)]
  | true =>
    have hnew : ∀ {d : StreamDb} {c : GroupCmd}, d.lookup key = none → c.isXadd = true →
        d.exec limits key (.on c) = d.execAt limits key ⟨streamNew, ∅⟩ c := by
      intro d c hd hc
      rw [exec, hd]
      exact if_pos hc
    cases cmd with
    | entries c =>
      obtain ⟨hfits, hfits₂, hlen, hasked⟩ := hok
      have hstream : ∀ {d : StreamDb}, d.lookup key = none → d.streamAt key = ⟨streamNew, ∅⟩ := fun hd => by
        rw [streamAt, hd]
      rw [hstream hl] at hfits hlen
      rw [hstream hl₂] at hfits₂
      refine step_entries h new_is new_is (hnew hl hx) (fun c' hc' => hnew hl₂ (hc'.trans hx)) hfits
        hfits₂ hlen fun hrefused => ?_
      cases c with
      | xadd id argv mstime maxlen =>
        -- the only ID that a new stream refuses
        obtain ⟨u, hu, hle⟩ := hrefused id argv mstime maxlen rfl
        have hzero : u = .zero := StreamID.toNat_inj (Nat.le_antisymm (Nat.not_lt.1 hle) (Nat.zero_le _))
        exact absurd (hzero ▸ hu) (hasked hl)
      | _ => cases hx
    | _ => cases hx

theorem replication_step (h : st.1.Alike st.2) (hok : op.2.Replicates op.1 st.1 st.2) : Follows limits op st := by
  obtain ⟨key, cmd⟩ := op
  cases cmd with
  | malformed => exact step_unchanged h rfl
  | on cmd =>
    rcases h.cases key with ⟨hl, hl₂⟩ | ⟨hl, -⟩ | ⟨v, gs, gs₂, hl, hl₂, his, his₂⟩
    · exact step_on_missing h hl hl₂ hok
    · refine step_unchanged h (r := wrongType) ?_
      rw [exec, hl]
    · exact step_on h hl hl₂ his his₂ hok
  | mkstream group id =>
    have hframe : ∀ (d : StreamDb) (gs : GroupedStream), ∀ key' ≠ key, (d.insert key (.stream gs)).lookup key' = d.lookup key' :=
      fun d gs key' hne => lookup_insert_ne hne
    rcases h.cases key with ⟨hl, hl₂⟩ | ⟨hl, -⟩ | ⟨v, gs, gs₂, hl, hl₂, his, his₂⟩
    · have hat : ∀ {d : StreamDb}, d.lookup key = none → streamTypeLookupWriteOrCreate d key =
          some (d.insert key (.stream ⟨streamNew, ∅⟩), ⟨streamNew, ∅⟩) := fun hd => by
        rw [streamTypeLookupWriteOrCreate, hd]
      exact step_mkstream h (hat hl) (hat hl₂) (hframe _ _) (hframe _ _) new_is new_is limits group id
        fun hne => absurd rfl hne
    · refine step_unchanged h (r := wrongType) ?_
      rw [exec, streamTypeLookupWriteOrCreate, hl]
    · have hat : ∀ {d : StreamDb} {gs : GroupedStream}, d.lookup key = some (.stream gs) →
          streamTypeLookupWriteOrCreate d key = some (d, gs) := fun hd => by
        rw [streamTypeLookupWriteOrCreate, hd]
      exact step_mkstream h (hat hl) (hat hl₂) (fun _ _ => rfl) (fun _ _ => rfl) his his₂ limits group id
        fun _ => ⟨gs₂, hl₂, his₂⟩

end alike

/-- A replica that starts with the same streams has the same streams after every run of commands that it can follow. -/
theorem replica_follows_master (limits : StreamLimits) (ops : List (Arg × KeyCmd)) (master replica : StreamDb)
    (halike : master.Alike replica)
    (hok : (replication limits).Guarded (fun op st => op.2.Replicates op.1 st.1 st.2) ops (master, replica)) :
    ∃ st rs, (replication limits).run ops (master, replica) = some (st, rs) ∧ st.1.Alike st.2 :=
  hok.total (I := fun st => st.1.Alike st.2) halike replication_step

instance ClaimOptions.decidableCounts (opts : ClaimOptions) (ids : List StreamID) (g : GroupMap) :
    Decidable (opts.Counts ids g) :=
  inferInstanceAs (Decidable (_ ∧ (_ → _ → ∀ id ∈ ids, _)))

instance decidableEmitsNone (s : Stream) (id : StreamID) : Decidable (streamEmitEntry s id = .ok none) :=
  match streamEmitEntry s id with
  | .ok none => isTrue rfl
  | .ok (some _) => isFalse (by simp)
  | .error _ => isFalse (by simp)

instance GroupCmd.decidableReplicates (gs : GroupedStream) (cmd : GroupCmd) : Decidable (cmd.Replicates gs) :=
  match cmd with
  | .xreadgroup group consumer count _ id _ =>
    have : Decidable (∀ cg ∈ gs.cgroups.lookup group, ∀ j ∈ cg.history consumer id count,
        streamEmitEntry gs.stream j = .ok none) := decidableForallMem _
    inferInstanceAs (Decidable (_ → _))
  | .xclaim group _ _ _ _ _ => decidableForallMem (gs.cgroups.lookup group)
  | .entries _ | .create .. | .setid .. | .destroy .. | .delconsumer .. | .xack .. => inferInstanceAs (Decidable True)

instance KeyCmd.decidableReplicates (key : Arg) (master replica : StreamDb) (cmd : KeyCmd) :
    Decidable (cmd.Replicates key master replica) :=
  match cmd with
  | .on (.entries _) =>
    have : Decidable (master.lookup key = none) := decidable_of_iff ((master.lookup key).isNone = true) isNone_iff_eq_none
    inferInstanceAs (Decidable (_ ∧ _ ∧ _ ∧ (_ → _)))
  | .on (.create ..) | .on (.setid ..) | .on (.destroy ..) | .on (.delconsumer ..) | .on (.xack ..) =>
    inferInstanceAs (Decidable True)
  | .on (.xreadgroup a b c d e f) => GroupCmd.decidableReplicates (master.streamAt key) (.xreadgroup a b c d e f)
  | .on (.xclaim a b c d e f) => GroupCmd.decidableReplicates (master.streamAt key) (.xclaim a b c d e f)
  | .mkstream .. | .malformed => inferInstanceAs (Decidable True)

/-- One entry, given to a consumer of a group and claimed by another. -/
def deliverAndClaim : List (Arg × KeyCmd) :=
  [([107], .on (.entries (.xadd (some ⟨1, 1⟩) [([102], [118])] 0 (some (5, true))))), ([107], .on (.create [103] (some .zero))),
    ([107], .on (.xreadgroup [103] [97] 0 false .max 5)), ([107], .on (.xclaim [103] [98] 0 [⟨1, 1⟩] {} 9))]

theorem replica_follows_master_claim :
    ∃ st rs, (replication ⟨4096, 100⟩).run deliverAndClaim (∅, ∅) = some (st, rs) ∧ st.1.Alike st.2 :=
  replica_follows_master ⟨4096, 100⟩ deliverAndClaim ∅ ∅ (fun _ => trivial) (Machine.guarded_of_check (by decide))

def readHistory : List (Arg × KeyCmd) :=
  [([107], .on (.entries (.xadd (some ⟨1, 1⟩) [([102], [118])] 0 none))), ([107], .on (.create [103] (some .zero))),
    ([107], .on (.xreadgroup [103] [97] 0 false .max 5)), ([107], .on (.xreadgroup [103] [97] 0 false .zero 9))]

/-- A refused `XADD` leaves an empty stream on the master alone, and a read of the history changes the time and the count
of a pending entry on the master alone. -/
theorem replica_differs :
    (∃ st rs, (replication ⟨4096, 100⟩).run [([107], .on (.entries (.xadd (some .zero) [([102], [118])] 0 none)))] (∅, ∅) =
        some (st, rs) ∧ ¬st.1.Alike st.2) ∧
      ∃ st rs, (replication ⟨4096, 100⟩).run readHistory (∅, ∅) = some (st, rs) ∧ ¬st.1.Alike st.2 := by
  refine ⟨⟨_, _, rfl, fun h => h [107]⟩, _, _, rfl, fun h => ?_⟩
  obtain ⟨v, his, his₂⟩ := h [107]
  have hg := (his.groups [103]).trans (his₂.groups [103]).symm
  have hp := congrFun (congrArg GroupMap.pending (Option.some.inj hg)) ⟨1, 1⟩
  exact absurd hp (by decide)

end Redis
