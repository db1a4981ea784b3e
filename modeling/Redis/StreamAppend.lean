import Redis.StreamNodes

/-! # Appending to a stream

An entry goes to the last node of the tree or starts a new one. `streamAppendItem_eq` gives the node it ends up
in, and from it follows what the limits of a node come to. -/

namespace Redis
open List Option StreamNode

variable {limits : StreamLimits} {s : Stream}
variable {r : Option StreamID}

namespace LpSeq
variable {lp r pre : LpSeq} {x : List UInt8}

theorem bytes_le_append (lp r : LpSeq) : lp.bytes ≤ bytes (lp ++ r) := by
  rw [bytes_append]
  omega

theorem appendAll_append (lp r r' : LpSeq) : lp.appendAll (r ++ r') = (lp.appendAll r).bind fun lp => lp.appendAll r' := by
  induction r generalizing lp with
  | nil => rfl
  | cons x r ih =>
    rw [cons_append, appendAll, appendAll]
    cases lp.append x with
    | none => rfl
    | some lp' => exact ih lp'

theorem appendInteger_eq (lp : LpSeq) (v : Int) : lp.appendInteger v = lp.appendAll [lltoa v] := by
  rw [appendInteger, appendAll]
  cases lp.append (lltoa v) <;> rfl

theorem appendAll_ite (h : lp.bytes ≤ uint32Max) :
    lp.appendAll r = if bytes (lp ++ r) ≤ uint32Max then some (lp ++ r) else none := by
  induction r generalizing lp with
  | nil => rw [append_nil, if_pos h, appendAll]
  | cons x r ih =>
    have hassoc : lp ++ x :: r = lp ++ [x] ++ r := by simp
    have hx : lp.bytes + lpElementBytes x = bytes (lp ++ [x]) := by simp [bytes_append]
    rw [appendAll, append, hassoc, hx]
    split
    next hfit => exact ih hfit
    next hfit =>
      have := bytes_le_append (lp ++ [x]) r
      rw [if_neg (by omega)]
      rfl

theorem replaceInteger_ite (pre r : LpSeq) (x : List UInt8) (v : Int) :
    replaceInteger (pre ++ x :: r) (some pre.length) v =
      if bytes (pre ++ lltoa v :: r) ≤ uint32Max then some (pre ++ lltoa v :: r) else none := by
  have hbytes : bytes (pre ++ x :: r) - lpElementBytes x + lpElementBytes (lltoa v) = bytes (pre ++ lltoa v :: r) := by
    simp [bytes_append]
    omega
  rw [replaceInteger]
  simp only [some_bind, getElem?_append_right le_rfl, Nat.sub_self,
    getElem?_cons_zero, hbytes]
  simp

end LpSeq

namespace StreamNode

def fresh (id : StreamID) (argv : Argv) : StreamNode := ⟨id, argv.map Prod.fst, [⟨false, true, id, argv⟩]⟩

def push (n : StreamNode) (id : StreamID) (argv : Argv) : StreamNode :=
  { n with items := n.items ++ [⟨false, decide (argv.map Prod.fst = n.fields), id, argv⟩] }

def full (limits : StreamLimits) (n : StreamNode) : Prop :=
  n.encode.bytes > limits.maxBytes ∨ limits.maxEntries ≠ 0 ∧ (n.live.length : Int) > limits.maxEntries

instance (limits : StreamLimits) (n : StreamNode) : Decidable (n.full limits) := inferInstanceAs (Decidable (_ ∨ _))

/-- The node that takes an entry, for the last node of the tree. -/
def target (limits : StreamLimits) (last : Option StreamNode) (id : StreamID) (argv : Argv) : StreamNode :=
  match last with
  | none => fresh id argv
  | some n => if n.full limits then fresh id argv else n.push id argv

variable {n : StreamNode} {id : StreamID} {argv : Argv}

theorem encode_fresh (id : StreamID) (argv : Argv) : (fresh id argv).encode =
    [lltoa 1, lltoa 0, lltoa argv.length] ++ argv.map Prod.fst ++ [lltoa 0] ++ streamEntry itemFlagSamefields id id argv := by
  simp [fresh, encode, live, dead, elements, Item.encode, Item.flags]

theorem streamMasterEntry_append (id : StreamID) (argv : Argv) :
    ((streamMasterEntry argv).bind fun lp => lp.appendAll (streamEntry itemFlagSamefields id id argv)) =
      if (fresh id argv).encode.bytes ≤ uint32Max then some (fresh id argv).encode else none := by
  have hmaster : streamMasterEntry argv =
      LpSeq.appendAll [] ([lltoa 1, lltoa 0, lltoa argv.length] ++ argv.map Prod.fst ++ [lltoa 0]) := by
    rw [show [lltoa 1, lltoa 0, lltoa (argv.length : Int)] = [lltoa 1] ++ [lltoa 0] ++ [lltoa (argv.length : Int)] from rfl]
    simp only [LpSeq.appendAll_append, ← LpSeq.appendInteger_eq, bind_assoc]
    rfl
  rw [hmaster, ← LpSeq.appendAll_append, encode_fresh, LpSeq.appendAll_ite (by decide), nil_append]

theorem streamSameFields_eq {lp r : LpSeq} (fs gs : List (List UInt8)) (hlen : fs.length = gs.length)
    (h : gs ++ r <:+ lp) : streamSameFields lp fs (lp.cursor (gs ++ r)) = some (decide (fs = gs)) := by
  induction fs generalizing gs with
  | nil =>
    obtain rfl := length_eq_zero_iff.1 hlen.symm
    rfl
  | cons f fs ih =>
    rcases gs with - | ⟨g, gs⟩
    · cases hlen
    have hsuf : g :: (gs ++ r) <:+ lp := h
    rw [streamSameFields, cons_append, LpSeq.get_cursor hsuf]
    simp only [some_bind, LpSeq.next_cursor hsuf]
    by_cases hg : g = f
    · subst hg
      rw [ih gs (Nat.succ.inj hlen) ((suffix_cons ..).trans hsuf)]
      simp
    · rw [if_neg hg]
      simp [Ne.symm hg]

theorem encode_push (n : StreamNode) (id : StreamID) (argv : Argv) :
    (n.push id argv).encode = lltoa (n.live.length + 1 : Nat) :: lltoa n.dead.length :: lltoa n.fields.length ::
      (n.fields ++ n.gap [] n.items) ++
        streamEntry (if argv.map Prod.fst = n.fields then itemFlagSamefields else 0) id n.key argv := by
  simp [push, encode, live, dead, gap, mark, elements, Item.encode, Item.flags]

theorem streamReuseNode_append (hwf : n.WF) (id : StreamID) (argv : Argv) :
    ((streamReuseNode n.encode argv).bind fun r => (r.1.appendAll (streamEntry r.2 id n.key argv))) =
      if (n.push id argv).encode.bytes ≤ uint32Max then some (n.push id argv).encode else none := by
  have hfields := hwf.length_fields
  obtain ⟨rest, hrest⟩ : ∃ r : LpSeq, r = lltoa n.dead.length :: lltoa n.fields.length :: (n.fields ++ n.gap [] n.items) :=
    ⟨_, rfl⟩
  obtain ⟨lp, hlp⟩ : ∃ lp : LpSeq, lp = lltoa (n.live.length + 1 : Nat) :: rest := ⟨_, rfl⟩
  have henc : n.encode = lltoa n.live.length :: rest := by
    rw [hrest]
    rfl
  have hpush : (n.push id argv).encode =
      lp ++ streamEntry (if argv.map Prod.fst = n.fields then itemFlagSamefields else 0) id n.key argv := by
    rw [hlp, hrest, encode_push]
  have hfirst : n.encode.first = lp.cursor lp := by
    rw [← LpSeq.first_eq_cursor, hlp]
    rfl
  have hreplace : n.encode.replaceInteger n.encode.first (n.live.length + 1) =
      if lp.bytes ≤ uint32Max then some lp else none := by
    rw [henc, hlp]
    exact LpSeq.replaceInteger_ite [] rest _ _
  unfold streamReuseNode
  simp only [hwf.getInteger_first, hreplace, bind_eq_bind, bind_some]
  split
  next hfit =>
    have h1 : rest <:+ lp := hlp ▸ suffix_cons ..
    have h2 : lltoa n.fields.length :: (n.fields ++ n.gap [] n.items) <:+ lp := (hrest ▸ suffix_cons ..).trans h1
    have h3 := (suffix_cons ..).trans h2
    have hnext : lp.next (lp.cursor lp) = some (lp.cursor rest) := by
      have h : lltoa (n.live.length + 1 : Nat) :: rest <:+ lp := hlp ▸ suffix_rfl
      nth_rewrite 3 [hlp]
      exact LpSeq.next_cursor h
    have hnext' : lp.next (lp.cursor rest) = some (lp.cursor (lltoa n.fields.length :: (n.fields ++ n.gap [] n.items))) := by
      rw [hrest] at h1 ⊢
      exact LpSeq.next_cursor h1
    have hsame : (if (argv.length : Int) = (n.fields.length : Int) then
        streamSameFields lp (argv.map Prod.fst) (lp.cursor (n.fields ++ n.gap [] n.items)) else some false) =
        some (decide (argv.map Prod.fst = n.fields)) := by
      split
      next hlen => exact streamSameFields_eq _ _ (by rw [length_map]; omega) h3
      next hlen =>
        have : argv.map Prod.fst ≠ n.fields := fun h => hlen (by rw [← h, length_map])
        simp [this]
    rw [hfirst]
    simp only [bind_some, hnext, hnext', LpSeq.getInteger_cursor (show -2 ^ 63 ≤ (n.fields.length : Int) by omega)
      (by omega) h2, LpSeq.next_cursor h2, hsame, LpSeq.appendAll_ite hfit, hpush, decide_eq_true_eq]
  next hfit =>
    have := LpSeq.bytes_le_append lp
      (streamEntry (if argv.map Prod.fst = n.fields then itemFlagSamefields else 0) id n.key argv)
    rw [if_neg (by rw [hpush]; omega)]
    rfl

end StreamNode

/-! ### The tree -/

theorem streamTail_eq (limits : StreamLimits) {n : StreamNode} (hlast : s.rax.getLast? = some n.entry) (hwf : n.WF) :
    ∃ tail, streamTail limits s = some tail ∧
      (tail = none ∨ tail = some n.entry) ∧ (n.full limits ↔ tail = none ∨ n.encode.bytes > limits.maxBytes) := by
  unfold streamTail full
  rw [hlast]
  dsimp only [entry]
  split
  next hbytes => exact ⟨none, rfl, .inl rfl, by simp [hbytes.2]⟩
  · split
    next hentries =>
      rw [hwf.getInteger_first]
      simp only [some_bind]
      split
      next hmany => exact ⟨none, rfl, .inl rfl, by simp [hentries, hmany]⟩
      next hmany => exact ⟨_, rfl, .inr rfl, by simp [hmany]⟩
    next hentries => exact ⟨_, rfl, .inr rfl, by simp [hentries]⟩

open StreamNode in
theorem streamAppendItem_eq (limits : StreamLimits) {last : Option StreamNode} (hlast : s.rax.getLast? = last.map entry)
    (hwf : ∀ n ∈ last, n.WF) (argv : Argv) (useId : Option StreamID) (mstime : UInt64)
    (hid : ∀ id ∈ useId, s.lastId < id) : streamAppendItem limits s argv useId mstime =
      let id := useId.getD (streamNextID mstime s.lastId)
      let n := target limits last id argv
      if n.encode.bytes ≤ uint32Max then some (some (⟨raxPut s.rax n.key n.encode, s.length + 1, id⟩, id)) else none := by
  have hcmp : (useId.any fun id => decide (streamCompareID id s.lastId ≤ 0)) = false := by
    cases useId with
    | none => rfl
    | some id =>
      have := streamCompareID_pos.2 (hid id rfl)
      simpa using this
  unfold streamAppendItem
  rw [hcmp, if_neg (by simp), hlast]
  dsimp only
  generalize useId.getD (streamNextID mstime s.lastId) = id
  -- the result for a node of its own
  have hnew : (((streamMasterEntry argv).map fun lp => (id, lp, itemFlagSamefields)).bind fun x =>
      (x.2.1.appendAll (streamEntry x.2.2 id x.1 argv)).bind fun lp =>
        some (some ((⟨raxPut s.rax x.1 lp, s.length + 1, id⟩ : Stream), id))) =
      if (fresh id argv).encode.bytes ≤ uint32Max then
        some (some (⟨raxPut s.rax id (fresh id argv).encode, s.length + 1, id⟩, id)) else none := by
    rw [bind_map]
    dsimp only [Function.comp_def]
    rw [← bind_assoc, streamMasterEntry_append]
    split <;> rfl
  cases last with
  | none =>
    have htail : streamTail limits s = some none := by
      rw [streamTail, hlast]
      rfl
    rw [htail]
    simp only [bind_eq_bind, bind_some, isNone_none, Bool.true_or, if_true]
    exact hnew
  | some n =>
    have hn := hwf n rfl
    obtain ⟨tail, htail, hcase, hfull⟩ := streamTail_eq limits hlast hn
    rw [htail]
    simp only [bind_eq_bind, bind_some, map_some, getD_some]
    by_cases hcond : tail = none ∨ n.encode.bytes > limits.maxBytes
    · have htarget : target limits (some n) id argv = fresh id argv := if_pos (hfull.2 hcond)
      rw [htarget, if_pos (by simpa [entry] using hcond)]
      exact hnew
    have htarget : target limits (some n) id argv = n.push id argv := if_neg (mt hfull.1 hcond)
    rw [htarget, if_neg (by simpa [entry] using hcond), hcase.resolve_left fun h => hcond (.inl h)]
    simp only [bind_some, entry, bind_assoc]
    have hreuse : ((streamReuseNode n.encode argv).bind fun r => (r.1.appendAll (streamEntry r.2 id n.key argv)).bind
        fun lp => some (some ((⟨raxPut s.rax n.key lp, s.length + 1, id⟩ : Stream), id))) =
        if (n.push id argv).encode.bytes ≤ uint32Max then
          some (some (⟨raxPut s.rax n.key (n.push id argv).encode, s.length + 1, id⟩, id)) else none := by
      rw [← bind_assoc, streamReuseNode_append hn]
      split <;> rfl
    exact hreuse

/-! ### The limits of a node -/

/-- A call of `streamAppendItem`. -/
structure AppendCall where
  argv : Argv
  useId : Option StreamID
  mstime : UInt64

def appendMachine (limits : StreamLimits) : Machine AppendCall Stream (Option StreamID) where
  init := streamNew
  step c s := (streamAppendItem limits s c.argv c.useId c.mstime).map fun r => (r.elim s Prod.fst, r.map Prod.snd)

/-- The last node is none that the two tests get wrong: if there is no limit on the bytes, a node may have one
entry, and otherwise it does not have just as many entries as it may have. -/
def TailFair (limits : StreamLimits) (s : Stream) : Prop :=
  ∀ n ∈ s.rax.getLast?, (limits.maxBytes = 0 → limits.maxEntries = 1) ∧
    (limits.maxBytes ≠ 0 → 0 < limits.maxEntries → n.2.getInteger n.2.first = some limits.maxEntries →
      n.2.bytes > limits.maxBytes)

instance (limits : StreamLimits) (s : Stream) : Decidable (TailFair limits s) := by
  unfold TailFair
  infer_instance

/-- Every listpack of the tree is a node that has entries, and no more than it may have. -/
def WithinLimits (limits : StreamLimits) (s : Stream) : Prop :=
  ∀ e ∈ s.rax, ∃ n : StreamNode, n.entry = e ∧ n.WF ∧ 0 < n.live.length ∧
    (0 < limits.maxEntries → (n.live.length : Int) ≤ limits.maxEntries)

theorem mem_raxPut {rax : StreamRax} {key : StreamID} {lp : LpSeq} {e : StreamID × LpSeq} (h : e ∈ raxPut rax key lp) :
    e ∈ rax ∨ e = (key, lp) := by
  induction rax with
  | nil => exact .inr (mem_singleton.1 h)
  | cons x rax ih =>
    rw [raxPut] at h
    split at h
    · rcases mem_cons.1 h with h | h
      · exact .inr h
      · exact .inl h
    split at h
    · rcases mem_cons.1 h with h | h
      · exact .inr h
      · exact .inl (.tail _ h)
    · rcases mem_cons.1 h with h | h
      · exact .inl (h ▸ mem_cons_self ..)
      · exact (ih h).imp (mem_cons_of_mem _) id

namespace StreamNode

theorem fresh_wf {id : StreamID} {argv : Argv} (h : (fresh id argv).encode.bytes ≤ uint32Max) : (fresh id argv).WF := by
  refine ⟨fun it hit _ => ?_, h⟩
  obtain rfl := mem_singleton.1 hit
  rfl

theorem push_wf {n : StreamNode} (hn : n.WF) {id : StreamID} {argv : Argv}
    (h : (n.push id argv).encode.bytes ≤ uint32Max) : (n.push id argv).WF := by
  refine ⟨fun it hit hsame => ?_, h⟩
  rcases mem_append.1 hit with hit | hit
  · exact hn.fields it hit hsame
  · obtain rfl := mem_singleton.1 hit
    exact of_decide_eq_true hsame

theorem live_push (n : StreamNode) (id : StreamID) (argv : Argv) :
    (n.push id argv).live = n.live ++ [⟨false, decide (argv.map Prod.fst = n.fields), id, argv⟩] := by
  simp [live, push]

end StreamNode

theorem WithinLimits.last (h : WithinLimits limits s) :
    ∃ last : Option StreamNode, s.rax.getLast? = last.map entry ∧ ∀ n ∈ last, n.WF ∧ 0 < n.live.length ∧
      (0 < limits.maxEntries → (n.live.length : Int) ≤ limits.maxEntries) := by
  rcases hlast : s.rax.getLast? with - | e
  · exact ⟨none, rfl, by simp⟩
  obtain ⟨n, he, hn⟩ := h e (mem_of_getLast? hlast)
  refine ⟨some n, congrArg some he.symm, fun m hm => ?_⟩
  obtain rfl := Option.some.inj hm
  exact hn

theorem appendMachine_cases {last : Option StreamNode} (hlast : s.rax.getLast? = last.map entry)
    (hwf : ∀ n ∈ last, n.WF) {c : AppendCall} {s' : Stream} (hstep : (appendMachine limits).step c s = some (s', r)) :
    s' = s ∨ ∃ id, (target limits last id c.argv).encode.bytes ≤ uint32Max ∧
      s'.rax = raxPut s.rax (target limits last id c.argv).key (target limits last id c.argv).encode := by
  obtain ⟨a, ha, he⟩ := map_eq_some_iff.1 hstep
  by_cases hid : ∀ id ∈ c.useId, s.lastId < id
  · rw [streamAppendItem_eq limits hlast hwf c.argv c.useId c.mstime hid] at ha
    dsimp only at ha
    split at ha
    next hfit =>
      cases ha
      cases he
      exact .inr ⟨_, hfit, rfl⟩
    · cases ha
  · left
    have hany : (c.useId.any fun id => decide (streamCompareID id s.lastId ≤ 0)) = true := by
      push Not at hid
      obtain ⟨id, hmem, hle⟩ := hid
      rw [mem_def] at hmem
      rw [← streamCompareID_pos] at hle
      simpa [hmem] using hle
    rw [streamAppendItem, if_pos hany] at ha
    cases ha
    cases he
    rfl

theorem streamAppendItem_withinLimits {c : AppendCall} {s' : Stream} (h : WithinLimits limits s)
    (hfair : TailFair limits s) (hstep : (appendMachine limits).step c s = some (s', r)) : WithinLimits limits s' := by
  obtain ⟨last, hlast, hn⟩ := h.last
  rcases appendMachine_cases hlast (fun n hm => (hn n hm).1) hstep with rfl | ⟨id, hfit, hrax⟩
  · exact h
  intro e he
  rw [hrax] at he
  rcases mem_raxPut he with he | rfl
  · exact h e he
  refine ⟨_, rfl, ?_⟩
  have hfresh : ∀ (id : StreamID) (argv : Argv), 0 < (fresh id argv).live.length ∧
      (0 < limits.maxEntries → ((fresh id argv).live.length : Int) ≤ limits.maxEntries) := fun id argv => by
    rw [show (fresh id argv).live.length = 1 from rfl]
    omega
  rcases last with - | n
  · exact ⟨fresh_wf hfit, hfresh _ _⟩
  obtain ⟨hwf, hlive, hle⟩ := hn n rfl
  by_cases hfull : n.full limits
  · have htarget : target limits (some n) id c.argv = fresh id c.argv := if_pos hfull
    rw [htarget] at hfit ⊢
    exact ⟨fresh_wf hfit, hfresh _ _⟩
  have htarget : target limits (some n) id c.argv = n.push id c.argv := if_neg hfull
  rw [htarget] at hfit ⊢
  rw [live_push, length_append, length_singleton]
  refine ⟨push_wf hwf hfit, Nat.succ_pos _, fun hpos => ?_⟩
  -- the node is not full, and by the condition it has not just reached the limit
  have hbytes : ¬n.encode.bytes > limits.maxBytes := fun hb => hfull (.inl hb)
  have hmax : limits.maxBytes ≠ 0 := by
    unfold LpSeq.bytes at hbytes
    omega
  have hne : (n.live.length : Int) ≠ limits.maxEntries := fun heq =>
    hbytes ((hfair _ hlast).2 hmax hpos (heq ▸ hwf.getInteger_first))
  omega

/-- In every run that finds fair tails no node has more entries than it may have, and without a limit on the bytes
a node is started only behind one that is full. -/
theorem stream_node_limits (limits : StreamLimits) (calls : List AppendCall) (s : Stream) (rs : List (Option StreamID))
    (hfair : (appendMachine limits).Guarded (fun _ s => TailFair limits s) calls streamNew)
    (hrun : (appendMachine limits).run calls streamNew = some (s, rs)) :
    (0 < limits.maxEntries → ∀ e ∈ s.rax, ∃ n : StreamNode, n.entry = e ∧ n.WF ∧
      (n.live.length : Int) ≤ limits.maxEntries) ∧
    ∀ c s' r, TailFair limits s → (appendMachine limits).step c s = some (s', r) → limits.maxBytes = 0 → s.rax ≠ [] →
      s.rax.length < s'.rax.length → 0 < limits.maxEntries ∧
        ∃ n : StreamNode, s.rax.getLast? = some n.entry ∧ n.WF ∧ limits.maxEntries ≤ n.live.length := by
  have hwithin : WithinLimits limits s :=
    hfair.inv (fun e he => by cases he) (fun h hf hs => streamAppendItem_withinLimits h hf hs) hrun
  refine ⟨fun hpos e he => ?_, fun c s' r hf _ hzero hne _ => ?_⟩
  · obtain ⟨n, hn, hwf, -, hle⟩ := hwithin e he
    exact ⟨n, hn, hwf, hle hpos⟩
  obtain ⟨last, hlast, hn⟩ := hwithin.last
  rcases last with - | n
  · exact absurd (getLast?_eq_none_iff.1 hlast) hne
  obtain ⟨hwf, hlive, -⟩ := hn n rfl
  have hone := (hf _ hlast).1 hzero
  exact ⟨by omega, n, hlast, hwf, by omega⟩

def twoCalls : List AppendCall := [⟨[([102], [118])], some ⟨1, 0⟩, 0⟩, ⟨[([102], [119])], some ⟨2, 0⟩, 0⟩]

theorem stream_node_limits_two : (appendMachine ⟨4096, 100⟩).Guarded (fun _ s => TailFair ⟨4096, 100⟩ s) twoCalls streamNew ∧
    ∃ s rs, (appendMachine ⟨4096, 100⟩).run twoCalls streamNew = some (s, rs) ∧
      ∀ e ∈ s.rax, ∃ n : StreamNode, n.entry = e ∧ n.WF ∧ (n.live.length : Int) ≤ 100 := by
  have hfair : (appendMachine ⟨4096, 100⟩).Guarded (fun _ s => TailFair ⟨4096, 100⟩ s) twoCalls streamNew :=
    Machine.guarded_of_check (by decide)
  exact ⟨hfair, _, _, rfl, (stream_node_limits ⟨4096, 100⟩ twoCalls _ _ hfair rfl).1 (by decide)⟩

/-- With a limit of one entry a node takes two, and without a limit on the bytes every entry starts a node, whatever
the number of entries a node may have. -/
theorem stream_node_limits_missed :
    (∃ s rs, (appendMachine ⟨4096, 1⟩).run twoCalls streamNew = some (s, rs) ∧
      s.rax.map (fun n => n.2.getInteger n.2.first) = [some 2]) ∧
    ∃ s rs, (appendMachine ⟨0, 100⟩).run twoCalls streamNew = some (s, rs) ∧
      s.rax.map (fun n => n.2.getInteger n.2.first) = [some 1, some 1] :=
  ⟨⟨_, _, rfl, by decide⟩, _, _, rfl, by decide⟩

end Redis
