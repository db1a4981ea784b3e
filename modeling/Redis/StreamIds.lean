import Mathlib.Data.List.Induction
import Redis.Lib.Machine
import Redis.Stream

/-! # The IDs of a stream only grow

XADD takes an ID that is greater than the last one, or makes one from the clock and the last one. The
commands that can break the order are an automatic ID at the end of the sequence numbers of a
millisecond and an XSETID below an ID whose entry was deleted. -/

namespace Redis
open Option

/-! ### Commands -/

/-- The commands on one stream, with their arguments parsed; `maxlen` is a bound and whether it is
approximate. -/
inductive StreamCmd
  | xadd (id : Option StreamID) (argv : List (List UInt8 × List UInt8)) (mstime : UInt64)
      (maxlen : Option (UInt64 × Bool))
  | xdel (ids : List StreamID)
  | xtrim (maxlen : UInt64) (approx : Bool)
  | xsetid (id : StreamID)

inductive StreamReply
  | added (id : StreamID)
  | number (n : Int)
  | ok
  | error (msg : String)
  deriving DecidableEq

variable (limits : StreamLimits)

def xaddCommand (s : Stream) (id : Option StreamID) (argv : List (List UInt8 × List UInt8))
    (mstime : UInt64) (maxlen : Option (UInt64 × Bool)) : Option (Stream × StreamReply) := do
  let r ← streamAppendItem limits s argv id mstime
  match r with
  | none => some (s, .error "The ID specified in XADD is equal or smaller than the target stream top item")
  | some (s, id) =>
    match maxlen with
    | none => some (s, .added id)
    | some (maxlen, approx) => do
      let s ← streamTrimByLength s maxlen approx
      some (s, .added id)

def xdelLoop : List StreamID → Stream → Int → Option (Stream × Int)
  | [], s, deleted => some (s, deleted)
  | id :: ids, s, deleted => do
    let (s, gone) ← streamDeleteItem s id
    xdelLoop ids s (if gone then deleted + 1 else deleted)

def xdelCommand (s : Stream) (ids : List StreamID) : Option (Stream × StreamReply) := do
  let (s, deleted) ← xdelLoop ids s 0
  some (s, .number deleted)

def xtrimCommand (s : Stream) (maxlen : UInt64) (approx : Bool) : Option (Stream × StreamReply) := do
  let t ← streamTrimByLength s maxlen approx
  some (t, .number (asInt64 (s.length - t.length)))

/-- Without an entry there is no ID to compare with, which is a fault if `length` tells
otherwise. -/
def xsetidCommand (s : Stream) (id : StreamID) : Option (Stream × StreamReply) :=
  if s.length > 0 then do
    let (_, r) ← streamIteratorGetID (s.rax.length + 1) (streamIteratorStart s none none true)
    let (maxid, _) ← r
    if streamCompareID id maxid < 0 then
      some (s, .error "The ID specified in XSETID is smaller than the target stream top item")
    else some ({ s with lastId := id }, .ok)
  else some ({ s with lastId := id }, .ok)

def streamCmdStep : StreamCmd → Stream → Option (Stream × StreamReply)
  | .xadd id argv mstime maxlen, s => xaddCommand limits s id argv mstime maxlen
  | .xdel ids, s => xdelCommand s ids
  | .xtrim maxlen approx, s => xtrimCommand s maxlen approx
  | .xsetid id, s => xsetidCommand s id

def streamMachine : Machine StreamCmd Stream StreamReply := ⟨streamNew, streamCmdStep limits⟩

/-! ### The order of IDs -/

section order
variable {a b last : StreamID}

theorem StreamID.toNat_lt (a : StreamID) : a.toNat < 2 ^ 128 := by
  have := a.ms.toNat_lt
  have := a.seq.toNat_lt
  unfold StreamID.toNat
  omega

theorem streamCompareID_pos : 0 < streamCompareID a b ↔ b < a := by
  show _ ↔ b.toNat < a.toNat
  have h1 := a.seq.toNat_lt
  have h2 := b.seq.toNat_lt
  unfold streamCompareID StreamID.toNat
  simp only [gt_iff_lt, UInt64.lt_iff_toNat_lt]
  all_goals omega

theorem streamNextID_lt {mstime : UInt64} (h : mstime > last.ms ∨ last.seq ≠ UInt64.ofNat (2 ^ 64 - 1)) :
    last < streamNextID mstime last := by
  have h1 := last.seq.toNat_lt
  unfold streamNextID
  split
  next hc =>
    rw [gt_iff_lt, UInt64.lt_iff_toNat_lt] at hc
    show _ < mstime.toNat * 2 ^ 64 + 0
    unfold StreamID.toNat
    omega
  next hc =>
    have hseq := h.resolve_left hc
    have hne : last.seq.toNat ≠ 2 ^ 64 - 1 := fun he => hseq (UInt64.toNat_inj.1 (he.trans (by decide)))
    have hadd : (last.seq + 1).toNat = last.seq.toNat + 1 := by
      rw [UInt64.toNat_add]
      exact Nat.mod_eq_of_lt (by simp only [UInt64.reduceToNat]; omega)
    show _ < last.ms.toNat * 2 ^ 64 + (last.seq + 1).toNat
    unfold StreamID.toNat
    omega

end order

/-! ### Single commands -/

section commands
variable {limits : StreamLimits} {s s' : Stream}
variable {argv : List (List UInt8 × List UInt8)} {mstime : UInt64}

theorem streamTrimByLength_lastId {maxlen : UInt64} {approx : Bool} (h : streamTrimByLength s maxlen approx = some s') :
    s'.lastId = s.lastId := by
  obtain ⟨⟨rax, length⟩, -, h⟩ := bind_eq_some_iff.1 h
  cases h
  rfl

theorem streamDeleteItem_lastId {id : StreamID} {gone : Bool} (h : streamDeleteItem s id = some (s', gone)) :
    s'.lastId = s.lastId := by
  obtain ⟨⟨si, r⟩, -, h⟩ := bind_eq_some_iff.1 h
  dsimp only at h
  split at h
  · obtain ⟨t, ht, h⟩ := bind_eq_some_iff.1 h
    cases h
    obtain ⟨lp, -, ht⟩ := bind_eq_some_iff.1 ht
    obtain ⟨flags, -, ht⟩ := bind_eq_some_iff.1 ht
    obtain ⟨lp, -, ht⟩ := bind_eq_some_iff.1 ht
    obtain ⟨aux, -, ht⟩ := bind_eq_some_iff.1 ht
    obtain ⟨rax, -, ht⟩ := bind_eq_some_iff.1 ht
    cases ht
    rfl
  · cases h
    rfl

theorem xdelLoop_lastId {ids : List StreamID} {deleted n : Int} (h : xdelLoop ids s deleted = some (s', n)) :
    s'.lastId = s.lastId := by
  induction ids generalizing s deleted with
  | nil => cases h; rfl
  | cons id ids ih =>
    obtain ⟨⟨t, gone⟩, ht, h⟩ := bind_eq_some_iff.1 h
    exact (ih h).trans (streamDeleteItem_lastId ht)

theorem streamAppendItem_lastId {useId : Option StreamID} {id : StreamID}
    (h : streamAppendItem limits s argv useId mstime = some (some (s', id))) :
    s'.lastId = id ∧ id = useId.getD (streamNextID mstime s.lastId) ∧ ∀ u, useId = some u → s.lastId < u := by
  unfold streamAppendItem at h
  split at h
  · cases h
  next hcmp =>
    obtain ⟨tail, -, h⟩ := bind_eq_some_iff.1 h
    obtain ⟨⟨master, lp, flags⟩, -, h⟩ := bind_eq_some_iff.1 h
    obtain ⟨lp', -, h⟩ := bind_eq_some_iff.1 h
    cases h
    refine ⟨rfl, rfl, ?_⟩
    rintro u rfl
    rw [← streamCompareID_pos]
    simpa using hcmp

theorem xadd_lastId {id : Option StreamID} {maxlen : Option (UInt64 × Bool)} {r : StreamReply}
    (h : xaddCommand limits s id argv mstime maxlen = some (s', r)) : (s' = s ∧ ∃ msg, r = .error msg) ∨
      r = .added s'.lastId ∧ s'.lastId = id.getD (streamNextID mstime s.lastId) ∧ ∀ u, id = some u → s.lastId < u := by
  obtain ⟨a, ha, h⟩ := bind_eq_some_iff.1 h
  rcases a with - | ⟨t, new⟩
  · cases h
    exact .inl ⟨rfl, _, rfl⟩
  right
  obtain ⟨h1, h2, h3⟩ := streamAppendItem_lastId ha
  rcases maxlen with - | ⟨maxlen, approx⟩
  · cases h
    exact ⟨by rw [h1], h1.trans h2, h3⟩
  obtain ⟨u, hu, h⟩ := bind_eq_some_iff.1 h
  cases h
  have hlast := streamTrimByLength_lastId hu
  rw [hlast, h1]
  exact ⟨rfl, h2, h3⟩

end commands

/-! ### Runs -/

def addedIds (rs : List StreamReply) : List StreamID :=
  rs.filterMap fun
    | .added id => some id
    | _ => none

/-- The command cannot lead to an ID that was passed before: an automatic ID does not wrap the sequence
number, and an XSETID that is accepted goes no further back than the IDs given out so far. -/
def StreamCmd.Forward (added : List StreamID) (s : Stream) : StreamCmd → Prop
  | .xadd none _ mstime _ => mstime > s.lastId.ms ∨ s.lastId.seq ≠ UInt64.ofNat (2 ^ 64 - 1)
  | .xsetid id => (∃ s', xsetidCommand s id = some (s', .ok)) → ∀ a ∈ added, a ≤ id
  | _ => True

/-- Every command of the run goes forward in the state it is applied to. -/
def StreamRunForward (cmds : List StreamCmd) : Prop :=
  ∀ pre cmd post, cmds = pre ++ cmd :: post → ∀ s rs, (streamMachine limits).run pre streamNew = some (s, rs) →
    cmd.Forward (addedIds rs) s

section runs
variable {limits : StreamLimits} {s s' : Stream}

theorem addedIds_concat (rs : List StreamReply) (r : StreamReply) : addedIds (rs ++ [r]) = addedIds rs ++ addedIds [r] :=
  List.filterMap_append ..

theorem streamCmdStep_forward {added : List StreamID} {cmd : StreamCmd} {r : StreamReply}
    (hadded : ∀ a ∈ added, a ≤ s.lastId) (hf : cmd.Forward added s) (hs : streamCmdStep limits cmd s = some (s', r)) :
    (∀ a ∈ added ++ addedIds [r], a ≤ s'.lastId) ∧ ∀ id, r = .added id → s.lastId < id ∧ ∀ a ∈ added, a < id := by
  have hkeep : s'.lastId = s.lastId → addedIds [r] = [] → (∀ id, r ≠ .added id) →
      (∀ a ∈ added ++ addedIds [r], a ≤ s'.lastId) ∧ ∀ id, r = .added id → s.lastId < id ∧ ∀ a ∈ added, a < id := by
    intro hlast hnil hne
    rw [hlast, hnil, List.append_nil]
    exact ⟨hadded, fun id hid => absurd hid (hne id)⟩
  cases cmd with
  | xadd id argv mstime maxlen =>
    rcases xadd_lastId hs with ⟨rfl, msg, rfl⟩ | ⟨rfl, hid, huse⟩
    · exact hkeep rfl rfl (fun _ h => by cases h)
    have hlt : s.lastId < s'.lastId := by
      rw [hid]
      cases id with
      | none => exact streamNextID_lt hf
      | some u => exact huse u rfl
    have hall : ∀ a ∈ added, a < s'.lastId := fun a ha => Nat.lt_of_le_of_lt (hadded a ha) hlt
    refine ⟨fun a ha => ?_, fun id hr => ?_⟩
    · rcases List.mem_append.1 ha with ha | ha
      · exact Nat.le_of_lt (hall a ha)
      · obtain rfl : a = s'.lastId := List.mem_singleton.1 ha
        exact Nat.le_refl _
    · obtain rfl : s'.lastId = id := by cases hr; rfl
      exact ⟨hlt, hall⟩
  | xdel ids =>
    obtain ⟨⟨t, n⟩, ht, h⟩ := bind_eq_some_iff.1 hs
    cases h
    exact hkeep (xdelLoop_lastId ht) rfl (fun _ h => by cases h)
  | xtrim maxlen approx =>
    obtain ⟨t, ht, h⟩ := bind_eq_some_iff.1 hs
    cases h
    exact hkeep (streamTrimByLength_lastId ht) rfl (fun _ h => by cases h)
  | xsetid id =>
    have hset : (s' = s ∧ ∃ msg, r = .error msg) ∨ s' = { s with lastId := id } ∧ r = .ok := by
      have hs' : xsetidCommand s id = some (s', r) := hs
      unfold xsetidCommand at hs'
      split at hs'
      · obtain ⟨⟨si, r'⟩, -, hs'⟩ := bind_eq_some_iff.1 hs'
        obtain ⟨⟨maxid, n⟩, -, hs'⟩ := bind_eq_some_iff.1 hs'
        dsimp only at hs'
        split at hs'
        · cases hs'
          exact .inl ⟨rfl, _, rfl⟩
        · cases hs'
          exact .inr ⟨rfl, rfl⟩
      · cases hs'
        exact .inr ⟨rfl, rfl⟩
    rcases hset with ⟨rfl, msg, rfl⟩ | ⟨rfl, rfl⟩
    · exact hkeep rfl rfl (fun _ h => by cases h)
    · refine ⟨fun a ha => ?_, fun id h => by cases h⟩
      exact hf ⟨_, hs⟩ a (by simpa [addedIds] using ha)

theorem streamRun_lastId (cmds : List StreamCmd) (hf : StreamRunForward limits cmds) {rs : List StreamReply}
    (hr : (streamMachine limits).run cmds streamNew = some (s, rs)) : ∀ a ∈ addedIds rs, a ≤ s.lastId := by
  induction cmds using List.reverseRecOn generalizing s rs with
  | nil => cases hr; simp [addedIds]
  | append_singleton cmds cmd ih =>
    obtain ⟨t, rs₁, r, ht, hs, rfl⟩ := Machine.run_concat hr
    have hpre : StreamRunForward limits cmds := fun pre c post he => hf pre c (post ++ [cmd]) (by simp [he])
    rw [addedIds_concat]
    exact (streamCmdStep_forward (ih hpre ht) (hf cmds cmd [] rfl t rs₁ ht) hs).1

end runs

/-- In a run that goes forward each XADD gives an ID above `last_id` and above all IDs given before. -/
theorem xadd_ids_increase (limits : StreamLimits) (cmds : List StreamCmd) (hf : StreamRunForward limits cmds)
    (pre : List StreamCmd) (cmd : StreamCmd) (post : List StreamCmd) (hcmds : cmds = pre ++ cmd :: post)
    {s s' : Stream} {rs : List StreamReply} {id : StreamID}
    (hrun : (streamMachine limits).run pre streamNew = some (s, rs))
    (hstep : (streamMachine limits).step cmd s = some (s', .added id)) :
    s.lastId < id ∧ ∀ a ∈ addedIds rs, a < id := by
  have hpre : StreamRunForward limits pre := fun p c q he => hf p c (q ++ cmd :: post) (by simp [hcmds, he])
  have hadded := streamRun_lastId pre hpre hrun
  exact (streamCmdStep_forward hadded (hf pre cmd post hcmds s rs hrun) hstep).2 id rfl

def streamNodeDefaults : StreamLimits := ⟨4096, 100⟩

/-- The second ID is automatic and falls into the millisecond of the first. -/
theorem xadd_ids_increase_same_ms :
    let cmds : List StreamCmd := [.xadd (some ⟨5, 7⟩) [([102], [118])] 0 none, .xadd none [([102], [118])] 5 none]
    StreamRunForward streamNodeDefaults cmds ∧
      ∃ s s' rs, (streamMachine streamNodeDefaults).run (cmds.take 1) streamNew = some (s, rs) ∧
        (streamMachine streamNodeDefaults).step (.xadd none [([102], [118])] 5 none) s = some (s', .added ⟨5, 8⟩) ∧
        s.lastId < ⟨5, 8⟩ ∧ ∀ a ∈ addedIds rs, a < (⟨5, 8⟩ : StreamID) := by
  intro cmds
  have hf : StreamRunForward streamNodeDefaults cmds := by
    intro pre cmd post he s rs hr
    rcases pre with - | ⟨c, - | ⟨d, pre⟩⟩
    · obtain ⟨rfl, -⟩ := List.cons.inj he
      trivial
    · obtain ⟨rfl, hrest⟩ := List.cons.inj he
      obtain ⟨rfl, -⟩ := List.cons.inj hrest
      obtain ⟨rfl, -⟩ : _ = s ∧ _ = rs := by simpa using Option.some.inj hr
      right
      decide
    · simp [cmds] at he
  exact ⟨hf, _, _, _, rfl, rfl, xadd_ids_increase streamNodeDefaults cmds hf (cmds.take 1) _ [] rfl rfl rfl⟩

/-- After the last sequence number of a millisecond an automatic ID starts again at zero. -/
theorem xadd_id_wraps :
    ∃ s s' rs, (streamMachine streamNodeDefaults).run [.xadd (some ⟨5, UInt64.ofNat (2 ^ 64 - 1)⟩) [([102], [118])] 0 none]
        streamNew = some (s, rs) ∧
      (streamMachine streamNodeDefaults).step (.xadd none [([102], [118])] 5 none) s = some (s', .added ⟨5, 0⟩) ∧
      ¬ s.lastId < ⟨5, 0⟩ ∧ ∃ a ∈ addedIds rs, ¬ a < (⟨5, 0⟩ : StreamID) := by
  refine ⟨_, _, _, rfl, rfl, ?_, ?_⟩
  · decide
  · decide

end Redis
