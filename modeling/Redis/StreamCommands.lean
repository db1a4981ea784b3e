import Redis.GroupPel
import Redis.StreamRefines

/-! # Commands on the ordered map

The commands that change the entries of a stream, as steps of the ordered map that the stream refines, and a stream
with its groups along the runs whose commands find room. -/

namespace Redis
open List Option

/-- The listpacks have room for what the command may add to them, and an ID that is made up does not start again at
sequence number zero. -/
def StreamCmd.Fits (s : Stream) : StreamCmd → Prop
  | .xadd id argv mstime maxlen =>
    s.length.toNat + 1 < 2 ^ 64 ∧ (s.rax.getLast?.elim 7 fun n => n.2.bytes) + argvBytes argv + 68 ≤ uint32Max ∧
      (id = none → mstime > s.lastId.ms ∨ s.lastId.seq ≠ UInt64.ofNat (2 ^ 64 - 1)) ∧
      (maxlen ≠ none → ∀ n ∈ s.rax, n.2.bytes + 4 ≤ uint32Max)
  | .xdel ids => ∀ n ∈ s.rax, n.2.bytes + 4 * ids.length ≤ uint32Max
  | .xtrim .. => ∀ n ∈ s.rax, n.2.bytes + 4 ≤ uint32Max
  | .xsetid _ => True

instance StreamCmd.decidableFits (s : Stream) (cmd : StreamCmd) : Decidable (cmd.Fits s) :=
  match cmd with
  | .xadd .. => inferInstanceAs (Decidable (_ ∧ _ ∧ (_ → _) ∧ (_ → ∀ n ∈ s.rax, _)))
  | .xdel _ => inferInstanceAs (Decidable (∀ n ∈ s.rax, _))
  | .xtrim .. => inferInstanceAs (Decidable (∀ n ∈ s.rax, _))
  | .xsetid _ => inferInstanceAs (Decidable True)

def Drops (n : Nat) : Option (UInt64 × Bool) → Nat → Prop
  | none, k => k = 0
  | some (maxlen, approx), k => k ≤ n - maxlen.toNat ∧ (approx = false → k = n - maxlen.toNat)

def streamCmdSpec : Spec StreamCmd StreamMap StreamReply
  | .xadd id argv mstime maxlen, m, r, m' =>
    let new := id.getD (streamNextID mstime m.last)
    if ∀ u ∈ id, m.last < u then
      ∃ k, Drops (m.entries.length + 1) maxlen k ∧ r = .added new ∧ m' = ⟨new, (m.entries ++ [(new, argv)]).drop k⟩
    else r = .error "The ID specified in XADD is equal or smaller than the target stream top item" ∧ m' = m
  | .xdel ids, m, r, m' =>
    r = .number (m.entries.countP fun e => decide (e.1 ∈ ids)) ∧
      m' = ⟨m.last, m.entries.filter fun e => decide (e.1 ∉ ids)⟩
  | .xtrim maxlen approx, m, r, m' =>
    ∃ k, Drops m.entries.length (some (maxlen, approx)) k ∧ r = .number (asInt64 (UInt64.ofNat k)) ∧
      m' = ⟨m.last, m.entries.drop k⟩
  | .xsetid id, m, r, m' =>
    if ∀ e ∈ m.entries, e.1 ≤ id then r = .ok ∧ m' = ⟨id, m.entries⟩
    else r = .error "The ID specified in XSETID is smaller than the target stream top item" ∧ m' = m

section commands
variable (limits : StreamLimits) {s : Stream} {m : StreamMap}

theorem xadd_simulates (h : m.Is s) {id : Option StreamID} {argv : Argv} {mstime : UInt64} {maxlen : Option (UInt64 × Bool)}
    (hfits : (StreamCmd.xadd id argv mstime maxlen).Fits s) :
    ∃ s' r m', xaddCommand limits s id argv mstime maxlen = some (s', r) ∧
      streamCmdSpec (.xadd id argv mstime maxlen) m r m' ∧ m'.Is s' := by
  obtain ⟨hlen, htail, hforward, hroom⟩ := hfits
  have hop : (StreamOp.append argv id mstime).Fits s := ⟨hlen, by omega, hforward⟩
  obtain ⟨s₁, r₁, m₁, hstep, hspec, his, hbytes⟩ := append_simulates limits h hop
  obtain ⟨x, hx, hr⟩ := map_eq_some_iff.1 hstep
  rw [streamOpSpec] at hspec
  unfold xaddCommand
  rw [hx]
  by_cases hid : ∀ u ∈ id, m.last < u
  · rw [if_pos hid] at hspec
    obtain ⟨rfl, rfl⟩ := hspec
    rcases x with - | x
    · cases hr
    obtain ⟨s₂, new⟩ := x
    obtain ⟨rfl, hnew⟩ := Prod.mk.inj hr
    obtain rfl : new = _ := StreamOpReply.added.inj hnew
    cases maxlen with
    | none =>
      refine ⟨s₂, _, _, rfl, ?_, his⟩
      rw [streamCmdSpec, if_pos hid]
      exact ⟨0, rfl, rfl, rfl⟩
    | some maxlen =>
      have hroom' : ∀ n ∈ s₂.rax, n.2.bytes + 4 ≤ uint32Max := fun n hn => by
        rcases hbytes n hn with hn | hn
        · exact hroom (by simp) n hn
        · omega
      obtain ⟨s₃, k, htrim, hk, his', -⟩ := his.trim maxlen.1 maxlen.2 hroom'
      change streamTrimByLength s₂ maxlen.1 maxlen.2 = some s₃ at htrim
      refine ⟨s₃, .added (id.getD (streamNextID mstime m.last)), _, ?_, ?_, his'⟩
      · simp [htrim]
      · rw [streamCmdSpec, if_pos hid]
        refine ⟨k, ?_, rfl, rfl⟩
        rwa [length_append, length_singleton] at hk
  · rw [if_neg hid] at hspec
    obtain ⟨rfl, rfl⟩ := hspec
    cases x with
    | none =>
      obtain ⟨rfl, -⟩ := Prod.mk.inj hr
      refine ⟨s, _, m₁, rfl, ?_, his⟩
      rw [streamCmdSpec, if_neg hid]
      exact ⟨rfl, rfl⟩
    | some x => cases (Prod.mk.inj hr).2

theorem countP_mem_cons {entries : List Emitted} (h : entries.Pairwise fun a b => a.1 < b.1) (id : StreamID)
    (ids : List StreamID) :
    entries.countP (fun e => decide (e.1 ∈ id :: ids)) = (if ∃ e ∈ entries, e.1 = id then 1 else 0) +
      (entries.filter fun e => decide (e.1 ≠ id)).countP fun e => decide (e.1 ∈ ids) := by
  induction entries with
  | nil => simp
  | cons e entries ih =>
    obtain ⟨hlt, hrest⟩ := pairwise_cons.1 h
    by_cases he : e.1 = id
    · have hother : ∀ x ∈ entries, x.1 ≠ id := fun x hx heq => by
        have := hlt x hx
        rw [he, heq] at this
        exact StreamID.lt_irrefl _ this
      have hfilter : (entries.filter fun e => decide (e.1 ≠ id)) = entries :=
        filter_eq_self.2 fun x hx => decide_eq_true (hother x hx)
      have hcount : entries.countP (fun e => decide (e.1 ∈ id :: ids)) = entries.countP fun e => decide (e.1 ∈ ids) :=
        countP_congr fun x hx => by simp [hother x hx]
      have hfirst : decide (e.1 ∈ id :: ids) = true := by simp [he]
      have hexists : ∃ x ∈ e :: entries, x.1 = id := ⟨e, mem_cons_self .., he⟩
      rw [countP_cons_of_pos (p := fun e : Emitted => decide (e.1 ∈ id :: ids)) hfirst,
        filter_cons_of_neg (by simp [he]), hfilter, if_pos hexists, hcount, add_comm]
    · have hexists : (∃ x ∈ e :: entries, x.1 = id) ↔ ∃ x ∈ entries, x.1 = id := by simp [he]
      rw [countP_cons, ih hrest, filter_cons_of_pos (by simp [he]), countP_cons, if_congr hexists rfl rfl]
      simp [he]
      omega

theorem xdelLoop_simulates (h : m.Is s) {ids : List StreamID} (hroom : ∀ n ∈ s.rax, n.2.bytes + 4 * ids.length ≤ uint32Max)
    (deleted : Int) : ∃ s', xdelLoop ids s deleted = some (s', deleted + m.entries.countP fun e => decide (e.1 ∈ ids)) ∧
      StreamMap.Is ⟨m.last, m.entries.filter fun e => decide (e.1 ∉ ids)⟩ s' := by
  induction ids generalizing s m deleted with
  | nil =>
    refine ⟨s, by simp [xdelLoop], ?_⟩
    simpa using h
  | cons id ids ih =>
    have hsorted := h.sorted
    rw [length_cons] at hroom
    obtain ⟨s₁, hdel, hgrow, his⟩ := h.delete id fun n hn => by
      have := hroom n hn
      omega
    have hroom₁ : ∀ n ∈ s₁.rax, n.2.bytes + 4 * ids.length ≤ uint32Max := fun n hn => by
      obtain ⟨n₀, hn₀, hle⟩ := hgrow n hn
      have := hroom n₀ hn₀
      omega
    obtain ⟨s₂, hloop, his₂⟩ := ih his hroom₁ (if decide (∃ e ∈ m.entries, e.1 = id) then deleted + 1 else deleted)
    refine ⟨s₂, ?_, ?_⟩
    · rw [xdelLoop, hdel, some_bind]
      dsimp only
      rw [hloop, countP_mem_cons hsorted id ids]
      by_cases hid : ∃ e ∈ m.entries, e.1 = id
      · rw [if_pos (decide_eq_true hid), if_pos hid]
        push_cast
        rw [Int.add_assoc]
      · rw [if_neg (by rwa [decide_eq_true_eq]), if_neg hid, zero_add]
    · have hfilter : (m.entries.filter fun e => decide (e.1 ∉ id :: ids)) =
          (m.entries.filter fun e => decide (e.1 ≠ id)).filter fun e => decide (e.1 ∉ ids) := by
        rw [List.filter_filter]
        simp [Bool.and_comm]
      rw [hfilter]
      exact his₂

theorem streamCmdStep_simulates :
    (streamMachine limits).Simulates streamCmdSpec (fun cmd s => cmd.Fits s) fun s m => m.Is s := by
  intro cmd s m h hfits
  cases cmd with
  | xadd id argv mstime maxlen => exact xadd_simulates limits h hfits
  | xdel ids =>
    obtain ⟨s', hloop, his⟩ := xdelLoop_simulates h hfits 0
    refine ⟨s', _, _, ?_, ⟨rfl, rfl⟩, his⟩
    show xdelCommand s ids = _
    rw [xdelCommand, hloop]
    simp
  | xtrim maxlen approx =>
    obtain ⟨s', k, htrim, hk, his, hlen⟩ := h.trim maxlen approx hfits
    refine ⟨s', _, _, ?_, ⟨k, hk, rfl, rfl⟩, his⟩
    have hsub : s.length - s'.length = UInt64.ofNat k := by
      have hlt := s.length.toNat_lt
      refine UInt64.toNat_inj.1 ?_
      rw [UInt64.toNat_sub_of_le _ _ (UInt64.le_iff_toNat_le.2 (by omega)), UInt64.toNat_ofNat']
      omega
    show xtrimCommand s maxlen approx = _
    rw [xtrimCommand, htrim, some_bind, hsub]
  | xsetid id =>
    obtain ⟨hcmd, hset⟩ := h.xsetid id
    show ∃ s' r m', xsetidCommand s id = some (s', r) ∧ _
    rw [hcmd]
    by_cases hle : ∀ e ∈ m.entries, e.1 ≤ id
    · refine ⟨_, _, ⟨id, m.entries⟩, by rw [if_pos hle], ?_, hset hle⟩
      rw [streamCmdSpec, if_pos hle]
      exact ⟨rfl, rfl⟩
    · refine ⟨s, _, m, by rw [if_neg hle], ?_, h⟩
      rw [streamCmdSpec, if_neg hle]
      exact ⟨rfl, rfl⟩

/-- The commands answer as the ordered map does, `XLEN` counts its entries and `XRANGE` and `XREVRANGE` return them. -/
theorem stream_commands_refine_map (cmds : List StreamCmd)
    (hfits : (streamMachine limits).Guarded (fun cmd s => cmd.Fits s) cmds streamNew) :
    ∃ s rs m, (streamMachine limits).run cmds streamNew = some (s, rs) ∧ streamCmdSpec.Run cmds ⟨.zero, []⟩ rs m ∧
      s.length.toNat = m.entries.length ∧ (m.entries.Pairwise fun a b => a.1 < b.1) ∧ ∀ start end_ rev,
        streamReplyWithRange (fun _ u => .ok u) s start end_ 0 rev () = .ok ((), m.between start end_ rev) := by
  obtain ⟨s, rs, m, hrun, hspec, his⟩ :=
    (streamCmdStep_simulates limits).run (a := ⟨.zero, []⟩) ⟨rfl, [], holds_new, rfl⟩ hfits
  exact ⟨s, rs, m, hrun, hspec, his.length, his.sorted, his.range⟩

end commands

/-- `MAXLEN` drops the first entry, the second one is deleted, and the last ID is moved on. -/
def addTrimmed : List StreamCmd :=
  [.xadd (some ⟨1, 0⟩) [([102], [117])] 0 none, .xadd (some ⟨2, 0⟩) [([102], [118])] 0 none,
    .xadd none [([102], [119])] 5 (some (2, false)), .xdel [⟨2, 0⟩], .xsetid ⟨9, 0⟩]

theorem stream_commands_refine_map_trimmed :
    ∃ s m, (streamMachine ⟨4096, 100⟩).run addTrimmed streamNew =
        some (s, [.added ⟨1, 0⟩, .added ⟨2, 0⟩, .added ⟨5, 0⟩, .number 1, .ok]) ∧
      streamCmdSpec.Run addTrimmed ⟨.zero, []⟩ [.added ⟨1, 0⟩, .added ⟨2, 0⟩, .added ⟨5, 0⟩, .number 1, .ok] m ∧
      s.length.toNat = m.entries.length ∧ m.between none none false = [(⟨5, 0⟩, [([102], [119])])] := by
  obtain ⟨s, rs, m, hrun, hspec, hlen, -, hrange⟩ := stream_commands_refine_map ⟨4096, 100⟩ addTrimmed
    (Machine.guarded_of_check (by decide))
  have hall : streamReplyWithRange (fun _ u => .ok u) s none none 0 false () = .ok ((), m.between none none false) :=
    hrange none none false
  obtain ⟨rfl, rfl⟩ : _ = s ∧ _ = rs := Prod.mk.inj (some.inj hrun)
  refine ⟨_, m, rfl, hspec, hlen, ?_⟩
  exact (Prod.mk.inj (Except.ok.inj (hall.symm.trans rfl))).2

end Redis
