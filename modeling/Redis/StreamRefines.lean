import Redis.StreamTrim

/-! # Streams are ordered maps

The tree of listpacks under `streamAppendItem`, `streamDeleteItem`, `streamTrimByLength` and `XSETID` is a list of
entries in the order of their IDs, which the two directions of the iterator return. -/

namespace Redis
open List StreamNode StreamWalk

variable {m : StreamMap}

/-- The functions that change a stream, with their arguments. -/
inductive StreamOp
  | append (argv : Argv) (useId : Option StreamID) (mstime : UInt64)
  | delete (id : StreamID)
  | trim (maxlen : UInt64) (approx : Bool)
  | setid (id : StreamID)

inductive StreamOpReply
  | added (id : StreamID)
  | failed
  | deleted (found : Bool)
  | trimmed (n : Nat)
  | ok
deriving DecidableEq

variable (limits : StreamLimits)

def streamOpStep : StreamOp → Stream → Option (Stream × StreamOpReply)
  | .append argv useId mstime, s =>
    (streamAppendItem limits s argv useId mstime).map fun r => (r.elim s Prod.fst, r.elim .failed fun r => .added r.2)
  | .delete id, s => (streamDeleteItem s id).map fun r => (r.1, .deleted r.2)
  | .trim maxlen approx, s =>
    (streamTrimByLength s maxlen approx).map fun s' => (s', .trimmed (s.length.toNat - s'.length.toNat))
  | .setid id, s => (xsetidCommand s id).map fun r => (r.1, if r.2 = .ok then .ok else .failed)

def streamOpMachine : Machine StreamOp Stream StreamOpReply := ⟨streamNew, streamOpStep limits⟩

/-! ### The ordered map -/

/-- The entries of a stream in the order of their IDs, and `last_id`. -/
structure StreamMap where
  last : StreamID
  entries : List Emitted

def streamOpSpec : Spec StreamOp StreamMap StreamOpReply
  | .append argv useId mstime, m, r, m' =>
    let id := useId.getD (streamNextID mstime m.last)
    if ∀ u ∈ useId, m.last < u then r = .added id ∧ m' = ⟨id, m.entries ++ [(id, argv)]⟩ else r = .failed ∧ m' = m
  | .delete id, m, r, m' =>
    r = .deleted (decide (∃ e ∈ m.entries, e.1 = id)) ∧ m' = ⟨m.last, m.entries.filter fun e => decide (e.1 ≠ id)⟩
  | .trim maxlen approx, m, r, m' =>
    ∃ k, k ≤ m.entries.length - maxlen.toNat ∧ (approx = false → k = m.entries.length - maxlen.toNat) ∧
      r = .trimmed k ∧ m' = ⟨m.last, m.entries.drop k⟩
  | .setid id, m, r, m' =>
    if ∀ e ∈ m.entries, e.1 ≤ id then r = .ok ∧ m' = ⟨id, m.entries⟩ else r = .failed ∧ m' = m

def argvBytes (argv : Argv) : Nat := (argv.map fun fv => lpElementBytes fv.1 + lpElementBytes fv.2).sum

/-- The listpack to be changed has room for it, `length` can count the entry, and an ID that is made up does not
start again at sequence number zero. -/
def StreamOp.Fits (s : Stream) : StreamOp → Prop
  | .append argv useId mstime =>
    s.length.toNat + 1 < 2 ^ 64 ∧ (s.rax.getLast?.elim 7 fun n => n.2.bytes) + argvBytes argv + 64 ≤ uint32Max ∧
      (useId = none → mstime > s.lastId.ms ∨ s.lastId.seq ≠ UInt64.ofNat (2 ^ 64 - 1))
  | .setid _ => True
  | _ => ∀ n ∈ s.rax, n.2.bytes + 4 ≤ uint32Max

def StreamMap.Is (m : StreamMap) (s : Stream) : Prop :=
  s.lastId = m.last ∧ ∃ nodes, Holds nodes s ∧ (liveItems nodes).map Item.emitted = m.entries

/-! ### Room for an entry -/

theorem argv_length_le (argv : Argv) : 4 * argv.length ≤ argvBytes argv := by
  unfold argvBytes
  induction argv with
  | nil => simp
  | cons fv argv ih =>
    have h1 := LpSeq.two_le_lpElementBytes fv.1
    have h2 := LpSeq.two_le_lpElementBytes fv.2
    rw [map_cons, sum_cons, length_cons]
    omega

theorem lpElementBytes_lltoa_le {v : Int} (h1 : -2 ^ 63 ≤ v) (h2 : v < 2 ^ 63) : lpElementBytes (lltoa v) ≤ 10 := by
  rw [lpElementBytes_lltoa h1 h2]
  split_ifs <;> omega

theorem lpElementBytes_nat_le {n : Nat} (h : n < 2 ^ 31) : lpElementBytes (lltoa n) ≤ 6 := by
  rw [lpElementBytes_lltoa (by omega) (by omega)]
  split_ifs <;> omega

theorem sum_fields_values (argv : Argv) :
    ((argv.map Prod.fst).map lpElementBytes).sum + ((argv.map Prod.snd).map lpElementBytes).sum = argvBytes argv ∧
      ((argv.flatMap fun fv => [fv.1, fv.2]).map lpElementBytes).sum = argvBytes argv := by
  unfold argvBytes
  induction argv with
  | nil => exact ⟨rfl, rfl⟩
  | cons fv argv ih =>
    obtain ⟨h1, h2⟩ := ih
    constructor
    · simp only [map_cons, sum_cons] at h1 ⊢
      omega
    · rw [flatMap_cons, map_append, sum_append, h2]
      simp

section
variable (flags : Nat) (hflags : flags ≤ 3) (id master : StreamID) (argv : Argv) (hlen : argv.length < 2 ^ 30 - 2)
include hflags hlen

theorem streamEntry_bytes_le : ((streamEntry flags id master argv).map lpElementBytes).sum ≤
      (if hasFlag flags itemFlagSamefields then ((argv.map Prod.snd).map lpElementBytes).sum else argvBytes argv) + 38 := by
  have hms := asInt64_range (id.ms - master.ms)
  have hseq := asInt64_range (id.seq - master.seq)
  have h1 := lpElementBytes_lltoa_le hms.1 hms.2
  have h2 := lpElementBytes_lltoa_le hseq.1 hseq.2
  have h3 : lpElementBytes (lltoa flags) ≤ 6 := lpElementBytes_nat_le (by omega)
  have h4 : lpElementBytes (lltoa argv.length) ≤ 6 := lpElementBytes_nat_le (by omega)
  have h6 := (sum_fields_values argv).2
  unfold streamEntry
  simp only [map_append, map_cons, map_nil, sum_append, sum_cons, sum_nil]
  split
  · have h7 := lpElementBytes_nat_le (n := argv.length + 3 + 0) (by omega)
    omega
  · have h7 := lpElementBytes_nat_le (n := argv.length + 3 + (argv.length + 1)) (by omega)
    rw [map_cons, sum_cons]
    omega

theorem streamEntry_bytes_le_argv :
    ((streamEntry flags id master argv).map lpElementBytes).sum ≤ argvBytes argv + 38 := by
  have h1 := streamEntry_bytes_le flags hflags id master argv hlen
  have h2 := (sum_fields_values argv).1
  split at h1 <;> omega

end

theorem fresh_bytes_le (id : StreamID) (argv : Argv) (hlen : argv.length < 2 ^ 30 - 2) :
    (fresh id argv).encode.bytes ≤ argvBytes argv + 64 := by
  have h1 : lpElementBytes (lltoa 1) = 2 := by decide
  have h2 : lpElementBytes (lltoa 0) = 2 := by decide
  have h3 : lpElementBytes (lltoa argv.length) ≤ 6 := lpElementBytes_nat_le (by omega)
  have h4 := streamEntry_bytes_le itemFlagSamefields (by decide) id id argv hlen
  have h5 := (sum_fields_values argv).1
  rw [if_pos (by decide)] at h4
  rw [encode_fresh]
  simp only [LpSeq.bytes, map_append, map_cons, map_nil, sum_append, sum_cons, sum_nil]
  omega

theorem push_bytes_le {n : StreamNode} (hwf : n.WF) (id : StreamID) (argv : Argv) (hlen : argv.length < 2 ^ 30 - 2) :
    (n.push id argv).encode.bytes ≤ n.encode.bytes + argvBytes argv + 64 := by
  have hlive := hwf.length_live
  have h1 : lpElementBytes (lltoa (n.live.length + 1 : Nat)) ≤ 6 := lpElementBytes_nat_le (by omega)
  have h2 := streamEntry_bytes_le_argv (if argv.map Prod.fst = n.fields then itemFlagSamefields else 0)
    (by split <;> decide) id n.key argv hlen
  have hgap : n.gap [] n.items = lltoa 0 :: n.elements n.items := rfl
  rw [n.encode_push, hgap]
  simp only [encode, LpSeq.bytes, map_append, map_cons, sum_append, sum_cons]
  omega

theorem target_bytes_le {last : Option StreamNode} (hwf : ∀ n ∈ last, n.WF) (id : StreamID)
    (argv : Argv) (hlen : argv.length < 2 ^ 30 - 2) :
    (target limits last id argv).encode.bytes ≤ (last.elim 7 fun n => n.encode.bytes) + argvBytes argv + 64 := by
  have hfresh := fresh_bytes_le id argv hlen
  rcases last with - | n
  · show (fresh id argv).encode.bytes ≤ 7 + argvBytes argv + 64
    omega
  unfold target
  dsimp only
  split
  · omega
  · exact push_bytes_le (hwf n rfl) id argv hlen

/-! ### Every step -/

section steps
variable (limits : StreamLimits) {s : Stream} {m : StreamMap}

theorem append_simulates (h : m.Is s) {argv : Argv} {useId : Option StreamID} {mstime : UInt64}
    (hfits : (StreamOp.append argv useId mstime).Fits s) :
    ∃ s' r m', streamOpStep limits (.append argv useId mstime) s = some (s', r) ∧
      streamOpSpec (.append argv useId mstime) m r m' ∧ m'.Is s' ∧
      ∀ e ∈ s'.rax, e ∈ s.rax ∨ e.2.bytes ≤ (s.rax.getLast?.elim 7 fun n => n.2.bytes) + argvBytes argv + 64 := by
  obtain ⟨hlast, nodes, hholds, hentries⟩ := h
  obtain ⟨hlen, hroom, hforward⟩ := hfits
  by_cases hid : ∀ u ∈ useId, m.last < u
  · obtain ⟨id, hidef⟩ : ∃ id, id = useId.getD (streamNextID mstime s.lastId) := ⟨_, rfl⟩
    have hlt : s.lastId < id := by
      cases useId with
      | none => exact hidef ▸ streamNextID_lt (hforward rfl)
      | some u =>
        rw [hlast]
        exact hidef ▸ hid u rfl
    have hwf : ∀ n ∈ nodes.getLast?, n.WF := fun n hn => hholds.wf n (mem_of_getLast? hn)
    have htail : s.rax.getLast? = nodes.getLast?.map entry := hholds.tree ▸ getLast?_map ..
    have hbytes : (target limits nodes.getLast? id argv).encode.bytes ≤
        (s.rax.getLast?.elim 7 fun n => n.2.bytes) + argvBytes argv + 64 := by
      have hargv := argv_length_le argv
      have hmax : uint32Max = 2 ^ 32 - 1 := rfl
      have hbytes := target_bytes_le limits hwf id argv (by omega)
      have htailBytes : (s.rax.getLast?.elim 7 fun n => n.2.bytes) = nodes.getLast?.elim 7 fun n => n.encode.bytes := by
        rw [htail]
        cases nodes.getLast? <;> rfl
      omega
    have hfit := le_trans hbytes hroom
    have happend := streamAppendItem_eq limits htail hwf argv useId mstime (hlast ▸ hid)
    obtain ⟨nodes', it, hholds', hlive, hit⟩ := hholds.append hlt hlen hfit
    rw [← hidef, if_pos hfit] at happend
    refine ⟨_, .added id, ⟨id, m.entries ++ [(id, argv)]⟩, ?_, ?_, ⟨rfl, nodes', hholds', ?_⟩, fun e he => ?_⟩
    · rw [streamOpStep, happend]
      rfl
    · rw [streamOpSpec, if_pos hid, ← hlast, ← hidef]
      exact ⟨rfl, rfl⟩
    · rw [hlive, map_append, hentries, map_singleton, hit]
    · rcases mem_raxPut he with he | rfl
      · exact .inl he
      · exact .inr hbytes
  · refine ⟨s, .failed, m, ?_, ?_, ⟨hlast, nodes, hholds, hentries⟩, fun e he => .inl he⟩
    · have hcmp : (useId.any fun id => decide (streamCompareID id s.lastId ≤ 0)) = true := by
        rcases useId with - | u
        · simp at hid
        have : ¬m.last < u := by simpa using hid
        have := mt streamCompareID_pos.1 (hlast ▸ this)
        simpa using this
      rw [streamOpStep, streamAppendItem, hcmp]
      rfl
    · rw [streamOpSpec, if_neg hid]
      exact ⟨rfl, rfl⟩

theorem StreamMap.Is.length (h : m.Is s) : s.length.toNat = m.entries.length := by
  obtain ⟨-, nodes, hholds, hentries⟩ := h
  rw [hholds.length, ← hentries, length_map]

theorem StreamMap.Is.delete (h : m.Is s) (id : StreamID) (hroom : ∀ n ∈ s.rax, n.2.bytes + 4 ≤ uint32Max) :
    ∃ s', streamDeleteItem s id = some (s', decide (∃ e ∈ m.entries, e.1 = id)) ∧
      (∀ n ∈ s'.rax, ∃ n₀ ∈ s.rax, n.2.bytes ≤ n₀.2.bytes + 4) ∧
      StreamMap.Is ⟨m.last, m.entries.filter fun e => decide (e.1 ≠ id)⟩ s' := by
  obtain ⟨hlast, nodes, hholds, hentries⟩ := h
  obtain ⟨s', nodes', hdel, hholds', hlast', hgrow, hlive⟩ := hholds.delete id fun n hn =>
    hroom n.entry (hholds.tree ▸ mem_map_of_mem hn)
  refine ⟨s', ?_, hgrow, hlast' ▸ hlast, nodes', hholds', ?_⟩
  · have : (∃ e ∈ m.entries, e.1 = id) ↔ ∃ it ∈ liveItems nodes, it.id = id := by
      rw [← hentries]
      simp [Item.emitted]
    simp [hdel, this]
  · rw [hlive, ← hentries, filter_map]
    rfl

theorem StreamMap.Is.trim (h : m.Is s) (maxlen : UInt64) (approx : Bool) (hroom : ∀ n ∈ s.rax, n.2.bytes + 4 ≤ uint32Max) :
    ∃ s' k, streamTrimByLength s maxlen approx = some s' ∧
      (k ≤ m.entries.length - maxlen.toNat ∧ (approx = false → k = m.entries.length - maxlen.toNat)) ∧
      StreamMap.Is ⟨m.last, m.entries.drop k⟩ s' ∧ s'.length.toNat + k = s.length.toNat := by
  have hlength := h.length
  obtain ⟨hlast, nodes, hholds, hentries⟩ := h
  obtain ⟨s', nodes', k, htrim, hholds', hlast', hlive, hk, hexact⟩ := hholds.trim maxlen approx fun n hn =>
    hroom n.entry (hholds.tree ▸ mem_map_of_mem hn)
  refine ⟨s', k, htrim, hlength ▸ ⟨hk, hexact⟩, ⟨hlast' ▸ hlast, nodes', hholds', ?_⟩, ?_⟩
  · rw [hlive, map_drop, hentries]
  · rw [hholds'.length, hlive, length_drop, ← hholds.length]
    omega

theorem inRange_all {rev : Bool} (it : Item) : inRange ⟨rev, .zero, .max⟩ it = true := by
  have hmax : StreamID.max.toNat = 2 ^ 128 - 1 := by decide
  have hlt := it.id.toNat_lt
  have h1 : StreamID.zero ≤ it.id := Nat.zero_le _
  have h2 : it.id ≤ StreamID.max := show it.id.toNat ≤ StreamID.max.toNat by omega
  simp [inRange, h1, h2]

theorem streamCompareID_neg {a b : StreamID} : streamCompareID a b < 0 ↔ a < b := by
  show _ ↔ a.toNat < b.toNat
  have h1 := a.seq.toNat_lt
  have h2 := b.seq.toNat_lt
  unfold streamCompareID StreamID.toNat
  simp only [gt_iff_lt, UInt64.lt_iff_toNat_lt]
  all_goals omega

theorem Holds.getLast {nodes : List StreamNode} (h : Holds nodes s) (hne : liveItems nodes ≠ []) :
    ∃ si it n, streamIteratorGetID (s.rax.length + 1) (streamIteratorStart s none none true) = some (si, some (it.id, n)) ∧
      (liveItems nodes).getLast? = some it := by
  obtain ⟨A, B, hAB, hout, hno⟩ := streamIteratorStart_spec h.tree h.order none none true
  change StreamWalk.Outside ⟨true, .zero, .max⟩ nodes A.reverse _ at hout
  have hfuel : A.reverse.length < s.rax.length + 1 := by
    rw [h.tree, hAB, length_map, length_append, length_reverse]
    omega
  obtain ⟨⟨si, r⟩, hget, hok⟩ := streamIteratorGetID_outside h.wf hout hfuel
  have hemits := emits_rest (w := ⟨true, .zero, .max⟩) (hAB ▸ h.order) hno
  rw [← hAB] at hemits
  have hall : (liveItems nodes).filter (inRange ⟨true, .zero, .max⟩) = liveItems nodes :=
    filter_eq_self.2 fun it _ => inRange_all it
  rw [hall] at hemits
  change emits ⟨true, .zero, .max⟩ (rest ⟨true, .zero, .max⟩ A.reverse) =
    (liveItems nodes).reverse at hemits
  have hrev : (liveItems nodes).reverse ≠ [] := by simpa using hne
  generalize rest ⟨true, .zero, .max⟩ A.reverse = todo at hok hemits
  cases hok with
  | finished hskip => exact absurd (hemits.symm.trans (emits_of_skips hskip)) hrev
  | stop hskip h1 h2 => exact absurd (hemits.symm.trans (by rw [emits_cons hskip h1, if_pos h2])) hrev
  | @item skipped pre post it si n ri hskip h1 h2 hload =>
    rw [emits_cons hskip h1, if_neg (by simp [h2])] at hemits
    exact ⟨si, it, _, hget, by rw [getLast?_eq_head?_reverse, ← hemits]; rfl⟩

theorem StreamMap.Is.xsetid (h : m.Is s) (id : StreamID) :
    xsetidCommand s id = some (if ∀ e ∈ m.entries, e.1 ≤ id then ({ s with lastId := id }, .ok)
      else (s, .error "The ID specified in XSETID is smaller than the target stream top item")) ∧
    ((∀ e ∈ m.entries, e.1 ≤ id) → StreamMap.Is ⟨id, m.entries⟩ { s with lastId := id }) := by
  obtain ⟨hlast, nodes, hholds, hentries⟩ := h
  have hiff : (∀ e ∈ m.entries, e.1 ≤ id) ↔ ∀ it ∈ liveItems nodes, it.id ≤ id := by
    rw [← hentries]
    simp [Item.emitted]
  have hpos : s.length > 0 ↔ liveItems nodes ≠ [] := by
    rw [gt_iff_lt, UInt64.lt_iff_toNat_lt, hholds.length]
    exact length_pos_iff
  refine ⟨?_, fun hle =>
    ⟨rfl, nodes, ⟨hholds.tree, hholds.wf, hholds.order, hiff.1 hle, hholds.length⟩, hentries⟩⟩
  by_cases hne : liveItems nodes = []
  · have hle : ∀ it ∈ liveItems nodes, it.id ≤ id := by simp [hne]
    rw [xsetidCommand, if_neg (mt hpos.1 (not_not.2 hne)), if_pos (hiff.2 hle)]
  obtain ⟨si, it, n, hget, hit⟩ := hholds.getLast hne
  have hmax : (∀ x ∈ liveItems nodes, x.id ≤ id) ↔ it.id ≤ id := by
    refine ⟨fun hall => hall it (mem_of_getLast? hit), fun hle x hx => ?_⟩
    obtain ⟨init, hinit⟩ := getLast?_eq_some_iff.1 hit
    have hsorted := hholds.order.liveItems
    rw [hinit] at hx hsorted
    rcases mem_append.1 hx with hx | hx
    · have hlt := (pairwise_append.1 hsorted).2.2 x hx it (by simp)
      exact Nat.le_trans (Nat.le_of_lt hlt) hle
    · rwa [mem_singleton.1 hx]
  have hcmp : streamCompareID id it.id < 0 ↔ ¬it.id ≤ id := streamCompareID_neg.trans Nat.not_le.symm
  rw [xsetidCommand, if_pos (hpos.2 hne), hget]
  by_cases hle : it.id ≤ id
  · rw [if_pos (hiff.2 (hmax.2 hle))]
    simp [mt hcmp.1 (not_not.2 hle)]
  · rw [if_neg (mt hiff.1 (mt hmax.1 hle))]
    simp [hcmp.2 hle]

theorem setid_simulates (h : m.Is s) (id : StreamID) :
    ∃ s' r m', streamOpStep limits (.setid id) s = some (s', r) ∧ streamOpSpec (.setid id) m r m' ∧ m'.Is s' := by
  obtain ⟨hcmd, hset⟩ := h.xsetid id
  rw [streamOpStep, hcmd]
  by_cases hle : ∀ e ∈ m.entries, e.1 ≤ id
  · refine ⟨_, .ok, ⟨id, m.entries⟩, by rw [if_pos hle]; rfl, ?_, hset hle⟩
    rw [streamOpSpec, if_pos hle]
    exact ⟨rfl, rfl⟩
  · refine ⟨s, .failed, m, by rw [if_neg hle]; rfl, ?_, h⟩
    rw [streamOpSpec, if_neg hle]
    exact ⟨rfl, rfl⟩

theorem stream_simulates (limits : StreamLimits) :
    (streamOpMachine limits).Simulates streamOpSpec (fun op s => op.Fits s) fun s m => m.Is s := by
  intro op s m h hfits
  cases op with
  | append argv useId mstime =>
    obtain ⟨s', r, m', hstep, hspec, his, -⟩ := append_simulates limits h hfits
    exact ⟨s', r, m', hstep, hspec, his⟩
  | delete id =>
    obtain ⟨s', hdel, -, his⟩ := h.delete id hfits
    exact ⟨s', _, _, congrArg (Option.map _) hdel, ⟨rfl, rfl⟩, his⟩
  | trim maxlen approx =>
    obtain ⟨s', k, htrim, ⟨hk, hexact⟩, his, hlen⟩ := h.trim maxlen approx hfits
    refine ⟨s', .trimmed k, _, ?_, ⟨k, hk, hexact, rfl, rfl⟩, his⟩
    have hcount : s.length.toNat - s'.length.toNat = k := by omega
    show streamOpStep limits (.trim maxlen approx) s = _
    rw [streamOpStep, htrim, Option.map_some, hcount]
  | setid id => exact setid_simulates limits h id

end steps

/-! ### Runs -/

def StreamMap.between (m : StreamMap) (start end_ : Option StreamID) (rev : Bool) : List Emitted :=
  let l := m.entries.filter fun e => decide (start.getD .zero ≤ e.1) && decide (e.1 ≤ end_.getD .max)
  if rev then l.reverse else l

theorem Holds.itemsBetween {nodes : List StreamNode} (hm : (liveItems nodes).map Item.emitted = m.entries)
    (start end_ : Option StreamID) (rev : Bool) :
    (itemsBetween nodes start end_ rev).map Item.emitted = m.between start end_ rev := by
  unfold Redis.itemsBetween StreamMap.between StreamWalk.order
  rw [← hm, filter_map]
  cases rev with
  | false => rfl
  | true =>
    rw [if_pos rfl, map_reverse]
    rfl

theorem StreamMap.Is.range {s : Stream} (h : m.Is s) (start end_ : Option StreamID) (rev : Bool) :
    streamReplyWithRange (fun _ u => .ok u) s start end_ 0 rev () = .ok ((), m.between start end_ rev) := by
  obtain ⟨-, nodes, hholds, hentries⟩ := h
  have hfold : ∀ l : List Item, l.foldlM (fun (st : Unit) _ => (.ok st : Except Crash Unit)) () = .ok () := by
    intro l
    induction l with
    | nil => rfl
    | cons it l ih => exact ih
  rw [streamReplyWithRange_spec _ hholds.tree hholds.wf hholds.order, hfold, ← Holds.itemsBetween hentries]
  rfl

theorem StreamMap.Is.sorted {s : Stream} (h : m.Is s) : m.entries.Pairwise fun a b => a.1 < b.1 := by
  obtain ⟨-, nodes, hholds, hentries⟩ := h
  rw [← hentries]
  exact pairwise_map.2 hholds.order.liveItems

theorem getInteger_dead {n : StreamNode} (h : n.WF) : n.encode.getInteger (some 1) = some n.dead.length := by
  have hlen := h.length_dead
  exact lpStringToInt64_lltoa (by omega) (by omega)

/-- In every run whose calls have room the tree of listpacks is an ordered map, which the iterator returns in both
directions; `length` and the headers of the listpacks count the entries, and no listpack is without one. -/
theorem stream_refines_map (limits : StreamLimits) (ops : List StreamOp)
    (hfits : (streamOpMachine limits).Guarded (fun op s => op.Fits s) ops streamNew) :
    ∃ s rs m, (streamOpMachine limits).run ops streamNew = some (s, rs) ∧ streamOpSpec.Run ops ⟨.zero, []⟩ rs m ∧
      (m.entries.Pairwise fun a b => a.1 < b.1) ∧
      (∀ start end_ rev, streamReplyWithRange (fun _ u => .ok u) s start end_ 0 rev () =
        .ok ((), m.between start end_ rev)) ∧
      s.length.toNat = m.entries.length ∧
      ∃ nodes : List StreamNode, s.rax = nodes.map StreamNode.entry ∧ (liveItems nodes).map Item.emitted = m.entries ∧
        ∀ n ∈ nodes, n.encode.getInteger (some 0) = some n.live.length ∧
          n.encode.getInteger (some 1) = some n.dead.length ∧ n.live ≠ [] := by
  obtain ⟨s, rs, m, hrun, hspec, his⟩ := (stream_simulates limits).run (a := ⟨.zero, []⟩) ⟨rfl, [], holds_new, rfl⟩ hfits
  obtain ⟨-, nodes, hholds, hentries⟩ := id his
  refine ⟨s, rs, m, hrun, hspec, his.sorted, his.range, his.length, nodes, hholds.tree, hentries, fun n hn => ?_⟩
  exact ⟨(hholds.wf n hn).getInteger_first, getInteger_dead (hholds.wf n hn), hholds.order.live n hn⟩

instance StreamOp.decidableFits (s : Stream) (op : StreamOp) : Decidable (op.Fits s) :=
  match op with
  | .append .. => inferInstanceAs (Decidable (_ ∧ _ ∧ (_ → _)))
  | .delete _ | .trim .. => inferInstanceAs (Decidable (∀ n ∈ s.rax, n.2.bytes + 4 ≤ uint32Max))
  | .setid _ => inferInstanceAs (Decidable True)

/-- Entries with and without the fields of the first one, of which one is deleted and one is trimmed. -/
def threeEntries : List StreamOp :=
  [.append [([102], [118])] (some ⟨1, 0⟩) 0, .append [([102], [119])] (some ⟨1, 5⟩) 0,
    .append [([103], [118]), ([102], [])] (some ⟨2, 0⟩) 0, .delete ⟨1, 5⟩, .trim 1 false]

theorem stream_refines_map_three :
    (streamOpMachine ⟨4096, 100⟩).Guarded (fun op s => op.Fits s) threeEntries streamNew ∧
    ∃ s rs, (streamOpMachine ⟨4096, 100⟩).run threeEntries streamNew = some (s, rs) ∧ s.length = 1 := by
  have hfits : (streamOpMachine ⟨4096, 100⟩).Guarded (fun op s => op.Fits s) threeEntries streamNew :=
    Machine.guarded_of_check (by decide)
  obtain ⟨s, rs, m, hrun, -⟩ := stream_refines_map ⟨4096, 100⟩ threeEntries hfits
  refine ⟨hfits, s, rs, hrun, ?_⟩
  have hsome : ((streamOpMachine ⟨4096, 100⟩).run threeEntries streamNew).map (fun r => r.1.length) = some 1 := by decide
  rw [hrun] at hsome
  exact Option.some.inj hsome

theorem length_le_lpElementBytes {v : List UInt8} (h : lpStringToInt64 v = none) : v.length ≤ lpElementBytes v := by
  have hlen := lpEncodeString_length v
  unfold lpElementBytes lpElement
  rw [h]
  dsimp only
  split_ifs at hlen <;> omega

theorem fresh_bytes_ge (id : StreamID) (f v : List UInt8) :
    lpElementBytes v + 23 ≤ (fresh id [(f, v)]).encode.bytes := by
  have h2 := LpSeq.two_le_lpElementBytes
  have hparts : (fresh id [(f, v)]).encode = [lltoa 1, lltoa 0, lltoa 1, f, lltoa 0] ++
      [lltoa 2, lltoa (asInt64 (id.ms - id.ms)), lltoa (asInt64 (id.seq - id.seq)), v, lltoa 4] := by
    simp [encode_fresh, streamEntry, itemFlagSamefields, hasFlag]
  have := h2 (lltoa 1)
  have := h2 (lltoa 0)
  have := h2 f
  have := h2 (lltoa 2)
  have := h2 (lltoa (asInt64 (id.ms - id.ms)))
  have := h2 (lltoa (asInt64 (id.seq - id.seq)))
  rw [hparts, LpSeq.bytes, map_append, sum_append]
  simp only [map_cons, map_nil, sum_cons, sum_nil]
  omega

theorem streamAppendItem_huge (limits : StreamLimits) {n : Nat} (h : 2 ^ 32 - 10 ≤ n) :
    streamAppendItem limits streamNew [([102], replicate n 0)] (some ⟨1, 0⟩) 0 = none := by
  obtain ⟨k, rfl⟩ : ∃ k, n = k + 1 := ⟨n - 1, by omega⟩
  have hstr : lpStringToInt64 (replicate (k + 1) 0) = none := by
    rfl
  have hlong := length_le_lpElementBytes hstr
  rw [length_replicate] at hlong
  have hge := fresh_bytes_ge ⟨1, 0⟩ [102] (replicate (k + 1) 0)
  have hmax : uint32Max = 2 ^ 32 - 1 := rfl
  have hnot : ¬(target limits none ⟨1, 0⟩ [([102], replicate (k + 1) 0)]).encode.bytes ≤ uint32Max := by
    show ¬(fresh ⟨1, 0⟩ _).encode.bytes ≤ uint32Max
    omega
  rw [@streamAppendItem_eq streamNew limits none rfl (by simp) _ _ _ (by decide)]
  exact if_neg hnot

theorem run_append_huge (limits : StreamLimits) {n : Nat} (h : 2 ^ 32 - 10 ≤ n) :
    (streamOpMachine limits).run [.append [([102], replicate n 0)] (some ⟨1, 0⟩) 0] streamNew = none := by
  have happend := streamAppendItem_huge limits h
  simp [Machine.run, streamOpMachine, streamOpStep, happend]

/-- A value that does not fit into a listpack brings the server down: the result of `lpAppend` is not checked. -/
theorem stream_value_too_long :
    (streamOpMachine ⟨4096, 100⟩).run [.append [([102], List.replicate (2 ^ 32 - 10) 0)] (some ⟨1, 0⟩) 0] streamNew =
      none :=
  run_append_huge ⟨4096, 100⟩ (Nat.le_refl (2 ^ 32 - 10))

end Redis
