import Redis.ReplBacklog

/-! # The backlog refines the replication stream

The abstract state is everything fed so far; `start` is the place where the current buffer was created
or resized. Byte number `base + k + 1` of the replication stream is the element at position `k`. -/

namespace Redis
open List Option

/-- The replication stream of a master, since it had the offset `base`. -/
structure ReplLog where
  stream : List UInt8
  start : Option Nat
  size : Nat

namespace ReplLog
variable (a : ReplLog)

def fed (t : Nat) : List UInt8 := a.stream.drop t

/-- How many bytes a buffer started at `t` still has. -/
def kept (t : Nat) : Nat := min (a.fed t).length a.size

def bytesFrom (base offset : Int) : List UInt8 := a.stream.drop (offset - base - 1).toNat

/-- The bytes from number `offset` on are in the buffer, or they are the next to come. -/
def available (base : Int) (t : Nat) (offset : Int) : Prop :=
  base + a.stream.length - a.kept t < offset ∧ offset ≤ base + a.stream.length + 1

instance (base : Int) (t : Nat) (offset : Int) : Decidable (a.available base t offset) :=
  inferInstanceAs (Decidable (_ ∧ _))

end ReplLog

/-- What a call may do to the stream, and its reply. A partial resynchronization is accepted exactly if the
replica knows a valid ID and what it asks for is available; it then gets all bytes from there on. -/
def replSpec (s₀ : ReplServer) : Spec ReplOp ReplLog (Option PsyncReply)
  | .feed p, a, r, b => r = none ∧ b = if a.start.isSome then { a with stream := a.stream ++ p } else a
  | .create _, a, r, b => r = none ∧ b = if a.start.isSome then a else { a with start := some a.stream.length }
  | .resize newsize _, a, r, b =>
    let size := max newsize.toNat configReplBacklogMinSize
    r = none ∧ b = if a.size = size then a else ⟨a.stream, a.start.map fun _ => a.stream.length, size⟩
  | .free, a, r, b => r = none ∧ b = { a with start := none }
  | .psync masterReplid psyncOffset psync2 wrote, a, r, b => b = a ∧ ∃ reply, r = some reply ∧
    ((∃ t offset, a.start = some t ∧ psyncOffset = some offset ∧ replidMatches s₀ masterReplid offset = true ∧
        a.available s₀.masterReplOffset t offset ∧
        reply = if wrote then .continue (continueHeader s₀ psync2) (a.bytesFrom s₀.masterReplOffset offset)
          (a.bytesFrom s₀.masterReplOffset offset).length else .closed) ∨
      ((∀ t offset, a.start = some t → psyncOffset = some offset → replidMatches s₀ masterReplid offset = true →
        ¬ a.available s₀.masterReplOffset t offset) ∧ reply = .fullResync))

def backlogContents (s : ReplServer) (buf : List UInt8) : List (Option UInt8) :=
  (List.range s.replBacklogHistlen).map fun k =>
    buf[(s.replBacklogIdx + (s.replBacklogSize - s.replBacklogHistlen) + k) % s.replBacklogSize]?

/-- The state of a backlog whose buffer was started at position `t`. -/
structure BacklogAt (s : ReplServer) (a : ReplLog) (t : Nat) (buf : List UInt8) : Prop where
  length : buf.length = s.replBacklogSize
  start : t ≤ a.stream.length
  ring : Ring buf (a.fed t)
  idx : s.replBacklogIdx = (a.fed t).length % s.replBacklogSize
  histlen : s.replBacklogHistlen = a.kept t
  off : s.replBacklogOff + s.replBacklogHistlen = s.masterReplOffset + 1

/-- The server in the state `s` has fed the stream `a`. -/
structure ReplInv (s₀ s : ReplServer) (a : ReplLog) : Prop where
  size : s.replBacklogSize = a.size
  pos : 0 < a.size
  offset : s.masterReplOffset = s₀.masterReplOffset + a.stream.length
  ids : s.replid = s₀.replid ∧ s.replid2 = s₀.replid2 ∧ s.secondReplidOffset = s₀.secondReplidOffset
  absent : a.start = none → s.replBacklog = none
  present : ∀ t, a.start = some t → ∃ buf, s.replBacklog = some buf ∧ BacklogAt s a t buf

section feed
variable {s₀ s : ReplServer} {a : ReplLog} {buf hist p : List UInt8} {t histlen size : Nat}

theorem feedLoop_spec (fuel : Nat) : ∀ {p buf hist : List UInt8} (histlen : Nat), p.length ≤ fuel →
    Ring buf hist → buf.length = size → ∃ buf', feedLoop size fuel p buf (hist.length % size) histlen =
        some (buf', (hist ++ p).length % size, histlen + p.length) ∧ buf'.length = size ∧ Ring buf' (hist ++ p) := by
  induction fuel with
  | zero =>
    intro p buf hist histlen hp hr hb
    obtain rfl : p = [] := length_eq_zero_iff.1 (Nat.le_zero.1 hp)
    exact ⟨buf, by simp [feedLoop], hb, by simpa using hr⟩
  | succ fuel ih =>
    intro p buf hist histlen hp hr hb
    rcases p with - | ⟨b, p⟩
    · exact ⟨buf, by simp [feedLoop], hb, by simpa using hr⟩
    have hpos : 0 < size := hb ▸ hr.pos
    have hlt := Nat.mod_lt hist.length hpos
    obtain ⟨n, hn⟩ : ∃ n, n = if size - hist.length % size > (b :: p).length then (b :: p).length
      else size - hist.length % size := ⟨_, rfl⟩
    have hn' : 0 < n ∧ n ≤ (b :: p).length ∧ hist.length % size + n ≤ size := by
      rw [hn, length_cons]
      split <;> omega
    have htake : ((b :: p).take n).length = n := by rw [length_take]; omega
    obtain ⟨buf₁, hbuf₁, hlen₁, hr₁⟩ := hr.blit (d := (b :: p).take n) (by rw [hb, htake]; exact hn'.2.2)
    have hidx : (if hist.length % size + n = size then 0 else hist.length % size + n) =
        (hist ++ (b :: p).take n).length % size := by
      rw [length_append, htake, ← Nat.mod_add_mod]
      split
      next he => rw [he, Nat.mod_self]
      · exact (Nat.mod_eq_of_lt (by omega)).symm
    have hrest : ((b :: p).drop n).length ≤ fuel := by
      rw [length_drop]
      omega
    obtain ⟨buf₂, hloop, hlen₂, hr₂⟩ := ih (histlen + n) hrest hr₁ (hlen₁.trans hb)
    have happ : hist ++ (b :: p).take n ++ (b :: p).drop n = hist ++ (b :: p) := by
      rw [append_assoc, take_append_drop]
    rw [happ] at hloop hr₂
    refine ⟨buf₂, ?_, hlen₂, hr₂⟩
    rw [hb] at hbuf₁
    simp only [feedLoop, ← hn, hbuf₁, hidx, some_bind, hloop, length_drop]
    congr 3
    omega

theorem feedReplicationBacklog_spec (h : ReplInv s₀ s a) (ht : a.start = some t) (p : List UInt8) :
    ∃ s', feedReplicationBacklog s p = some s' ∧ ReplInv s₀ s' { a with stream := a.stream ++ p } := by
  obtain ⟨buf, hbuf, hat⟩ := h.present t ht
  have hr := hat.ring
  obtain ⟨buf', hloop, hlen', hr'⟩ :=
    feedLoop_spec p.length s.replBacklogHistlen le_rfl hr hat.length
  have hfed : ReplLog.fed { a with stream := a.stream ++ p } t = a.fed t ++ p :=
    drop_append_of_le_length hat.start
  rw [← hat.idx] at hloop
  unfold feedReplicationBacklog
  simp only [hbuf, hloop, some_bind]
  refine ⟨_, rfl, ⟨h.size, h.pos, ?_, h.ids, ?_, ?_⟩⟩
  · show s.masterReplOffset + p.length = s₀.masterReplOffset + ((a.stream ++ p).length : Nat)
    rw [h.offset, length_append]
    omega
  · intro hn
    rw [show a.start = none from hn] at ht
    cases ht
  intro t' ht'
  obtain rfl : t = t' := some.inj (ht.symm.trans ht')
  refine ⟨buf', rfl, ⟨hlen', ?_, ?_, ?_, ?_, ?_⟩⟩
  · rw [length_append]
    exact Nat.le_add_right_of_le hat.start
  · rw [hfed]
    exact hr'
  · rw [hfed]
  · have hk := hat.histlen
    have hsz := h.size
    unfold ReplLog.kept at hk ⊢
    rw [hfed, length_append]
    show (if s.replBacklogHistlen + p.length > s.replBacklogSize then s.replBacklogSize
      else s.replBacklogHistlen + p.length) = min ((a.fed t).length + p.length) a.size
    split <;> omega
  · dsimp only
    omega

end feed

/-! ### Reading the buffer -/

section read
variable {s₀ s : ReplServer} {a : ReplLog} {buf hist : List UInt8} {t p size fuel : Nat}

theorem addReplyBacklogLoop_part (fuel : Nat) (h : Ring buf hist) (hb : buf.length = size) (hold : hist.length ≤ p + size)
    (hp : p < hist.length) : addReplyBacklogLoop buf size (fuel + 1) (p % size : Nat) ((hist.length - p : Nat) : Int) =
      (addReplyBacklogLoop buf size fuel 0
        ((hist.length - p - min (size - p % size) (hist.length - p) : Nat) : Int)).map
          ((hist.drop p).take (min (size - p % size) (hist.length - p)) ++ ·) := by
  have hlt := Nat.mod_lt p (hb ▸ h.pos)
  obtain ⟨n, hn⟩ : ∃ n, n = min (size - p % size) (hist.length - p) := ⟨_, rfl⟩
  have hthis : (if (size : Int) - (p % size : Nat) < ((hist.length - p : Nat) : Int) then (size : Int) - (p % size : Nat)
      else ((hist.length - p : Nat) : Int)) = n := by
    split <;> omega
  have hslice := h.slice (n := n) (hb.symm ▸ hold) (by omega) (by rw [hb]; omega)
  rw [hb] at hslice
  rw [addReplyBacklogLoop]
  simp only [hthis]
  rw [if_neg (by omega), Int.toNat_natCast, Int.toNat_natCast, hslice, ← hn]
  have hsub : ((hist.length - p : Nat) : Int) - n = ((hist.length - p - n : Nat) : Int) := by omega
  rw [hsub]
  cases addReplyBacklogLoop buf size fuel 0 ((hist.length - p - n : Nat) : Int) <;> rfl

theorem addReplyBacklogLoop_zero (j : Int) : addReplyBacklogLoop buf size fuel j 0 = some [] := by
  cases fuel <;> simp [addReplyBacklogLoop]

theorem addReplyBacklogLoop_spec (h : Ring buf hist) (hb : buf.length = size) (hold : hist.length ≤ p + size)
    (hp : p ≤ hist.length) :
    addReplyBacklogLoop buf size 2 (p % size : Nat) ((hist.length - p : Nat) : Int) = some (hist.drop p) := by
  rcases Nat.lt_or_eq_of_le hp with hp | rfl
  · have hlt := Nat.mod_lt p (hb ▸ h.pos)
    rw [addReplyBacklogLoop_part 1 h hb hold hp]
    rcases le_total (hist.length - p) (size - p % size) with hle | hle
    · rw [min_eq_right hle, Nat.sub_self, Int.natCast_zero, addReplyBacklogLoop_zero, map_some,
        append_nil, take_of_length_le (by simp)]
    -- the second part starts at the front of the buffer
    rw [min_eq_left hle]
    obtain ⟨p', hp'⟩ : ∃ p', p' = p + (size - p % size) := ⟨_, rfl⟩
    have hmod : p' % size = 0 := by
      rw [hp', ← Nat.mod_add_mod, Nat.add_sub_cancel' hlt.le, Nat.mod_self]
    have hsub : hist.length - p - (size - p % size) = hist.length - p' := by omega
    rw [hsub]
    have hrest : addReplyBacklogLoop buf size 1 0 ((hist.length - p' : Nat) : Int) = some (hist.drop p') := by
      rcases lt_or_ge p' hist.length with hlt' | hge
      · have hpart := addReplyBacklogLoop_part 0 h hb (by omega) hlt'
        rw [hmod, Int.natCast_zero] at hpart
        rw [hpart, min_eq_right (by omega), Nat.sub_self, Int.natCast_zero, addReplyBacklogLoop_zero,
          map_some, append_nil, take_of_length_le (by simp)]
      · rw [Nat.sub_eq_zero_of_le hge, Int.natCast_zero, addReplyBacklogLoop_zero, drop_eq_nil_of_le hge]
    rw [hrest, map_some, hp', ← drop_drop, take_append_drop]
  · rw [Nat.sub_self, Int.natCast_zero, addReplyBacklogLoop_zero, drop_length]

theorem backlog_index {T n h k : Nat} (hT : h ≤ T) (hn : h ≤ n) : ((T % n + (n - h)) % n + k) % n = (T - h + k) % n := by
  have hshift : T + (n - h) + k = T - h + k + n := by omega
  rw [Nat.mod_add_mod, add_assoc, Nat.mod_add_mod, ← add_assoc, hshift, Nat.add_mod_right]

theorem BacklogAt.contents (hat : BacklogAt s a t buf) (hsize : s.replBacklogSize = a.size) :
    backlogContents s buf = ((a.fed t).drop ((a.fed t).length - s.replBacklogHistlen)).map some := by
  have hk : s.replBacklogHistlen = min (a.fed t).length s.replBacklogSize := hsize ▸ hat.histlen
  refine ext_getElem? fun k => ?_
  unfold backlogContents
  rw [getElem?_map, getElem?_map, getElem?_drop]
  by_cases hlt : k < s.replBacklogHistlen
  · rw [getElem?_range hlt, map_some, hat.idx, ← Nat.mod_add_mod,
      backlog_index (by omega) (by omega), ← hat.length, hat.ring.cell _ (by omega) (by rw [hat.length]; omega)]
    rw [getElem?_eq_getElem (by omega)]
    rfl
  · rw [getElem?_eq_none (by simpa using hlt), getElem?_eq_none (by omega)]
    rfl

theorem addReplyReplicationBacklog_spec (h : ReplInv s₀ s a) (ht : a.start = some t) {offset : Int}
    (hav : a.available s₀.masterReplOffset t offset) :
    addReplyReplicationBacklog s offset = some (a.bytesFrom s₀.masterReplOffset offset,
      ((a.bytesFrom s₀.masterReplOffset offset).length : Int)) := by
  obtain ⟨buf, hbuf, hat⟩ := h.present t ht
  obtain ⟨hlo, hhi⟩ := hav
  have hk : s.replBacklogHistlen = min (a.fed t).length s.replBacklogSize := h.size ▸ hat.histlen
  have hoff := hat.off
  have hm := h.offset
  have hstart := hat.start
  have hfed : (a.fed t).length = a.stream.length - t := length_drop ..
  rw [← hat.histlen] at hlo
  obtain ⟨k, hk'⟩ : ∃ k : Nat, offset = s.replBacklogOff + k := ⟨(offset - s.replBacklogOff).toNat, by omega⟩
  have hbytes : a.bytesFrom s₀.masterReplOffset offset =
      (a.fed t).drop ((a.fed t).length - s.replBacklogHistlen + k) := by
    unfold ReplLog.bytesFrom ReplLog.fed
    rw [drop_drop]
    congr 1
    rw [length_drop]
    omega
  have hlen : ((a.fed t).drop ((a.fed t).length - s.replBacklogHistlen + k)).length = s.replBacklogHistlen - k := by
    rw [length_drop]
    omega
  rw [hbytes, hlen]
  unfold addReplyReplicationBacklog
  split
  next hz =>
    have hnil : (a.fed t).drop ((a.fed t).length - s.replBacklogHistlen + k) = [] :=
      eq_nil_of_length_eq_zero (by omega)
    have hk0 : k = 0 := by omega
    rw [hnil, hz, hk0]
    rfl
  · have hskip : offset - s.replBacklogOff = k := by omega
    have hj : (((s.replBacklogIdx : Int) + ((s.replBacklogSize : Int) - s.replBacklogHistlen)).tmod s.replBacklogSize
        + k).tmod s.replBacklogSize =
        (((a.fed t).length - s.replBacklogHistlen + k) % s.replBacklogSize : Nat) := by
      have hsum : (s.replBacklogIdx : Int) + ((s.replBacklogSize : Int) - s.replBacklogHistlen) =
          ((s.replBacklogIdx + (s.replBacklogSize - s.replBacklogHistlen) : Nat) : Int) := by omega
      rw [hsum, ← Int.ofNat_tmod, ← Int.natCast_add, ← Int.ofNat_tmod, hat.idx, backlog_index (by omega) (by omega)]
    have hrest : (s.replBacklogHistlen : Int) - k =
        (((a.fed t).length - ((a.fed t).length - s.replBacklogHistlen + k) : Nat) : Int) := by omega
    have hread := addReplyBacklogLoop_spec (p := (a.fed t).length - s.replBacklogHistlen + k) hat.ring hat.length
      (by omega) (by omega)
    simp only [hbuf, hskip, some_bind, hj]
    rw [hrest, hread, some_bind]
    congr 2
    omega

end read

/-! ### The other calls -/

section steps
variable {s₀ s : ReplServer} {a : ReplLog}

theorem zmalloc_length (junk : Nat → UInt8) (n : Nat) : (zmalloc junk n).length = n := by simp [zmalloc]

theorem ReplInv.emptyBacklog (hsize : s.replBacklogSize = a.size) (hpos : 0 < a.size)
    (hoff : s.masterReplOffset = s₀.masterReplOffset + a.stream.length)
    (hids : s.replid = s₀.replid ∧ s.replid2 = s₀.replid2 ∧ s.secondReplidOffset = s₀.secondReplidOffset)
    (junk : Nat → UInt8) : ReplInv s₀ (s.emptyBacklog junk) { a with start := some a.stream.length } := by
  refine ⟨hsize, hpos, hoff, hids, fun hn => (by cases hn), ?_⟩
  intro t ht
  obtain rfl : a.stream.length = t := some.inj ht
  have hfed : ReplLog.fed { a with start := some a.stream.length } a.stream.length = [] := drop_length
  refine ⟨zmalloc junk s.replBacklogSize, rfl, ⟨zmalloc_length _ _, le_rfl, ?_, ?_, ?_, ?_⟩⟩
  · rw [hfed]
    exact .nil (by rw [zmalloc_length, hsize]; exact hpos)
  · rw [hfed]
    exact (Nat.zero_mod _).symm
  · unfold ReplLog.kept
    rw [hfed]
    exact (Nat.zero_min _).symm
  · show s.masterReplOffset + 1 + ((0 : Nat) : Int) = s.masterReplOffset + 1
    omega

theorem ReplInv.isSome (h : ReplInv s₀ s a) : s.replBacklog.isSome = a.start.isSome := by
  rcases hs : a.start with - | t
  · rw [h.absent hs]; rfl
  obtain ⟨buf, hbuf, -⟩ := h.present t hs
  rw [hbuf]
  rfl

theorem ReplInv.available_iff (h : ReplInv s₀ s a) {t : Nat} (ht : a.start = some t) (offset : Int) :
    a.available s₀.masterReplOffset t offset ↔
      s.replBacklogOff ≤ offset ∧ offset ≤ s.replBacklogOff + s.replBacklogHistlen := by
  obtain ⟨buf, -, hat⟩ := h.present t ht
  have hoff := hat.off
  have hm := h.offset
  unfold ReplLog.available
  rw [← hat.histlen]
  omega

theorem ReplInv.replidMatches_eq (h : ReplInv s₀ s a) (id : List UInt8) (offset : Int) :
    replidMatches s id offset = replidMatches s₀ id offset := by
  unfold replidMatches
  rw [h.ids.1, h.ids.2.1, h.ids.2.2]

theorem psync_spec (h : ReplInv s₀ s a) (id : List UInt8) (psyncOffset : Option Int) (psync2 wrote : Bool) :
    ∃ r, masterTryPartialResynchronization s id psyncOffset psync2 wrote = some r ∧
      replSpec s₀ (.psync id psyncOffset psync2 wrote) a (some r) a := by
  have hrefuse : ∀ (hno : ∀ t offset, a.start = some t → psyncOffset = some offset →
      replidMatches s₀ id offset = true → ¬ a.available s₀.masterReplOffset t offset),
      replSpec s₀ (.psync id psyncOffset psync2 wrote) a (some .fullResync) a :=
    fun hno => ⟨rfl, .fullResync, rfl, .inr ⟨hno, rfl⟩⟩
  unfold masterTryPartialResynchronization
  rcases psyncOffset with - | offset
  · exact ⟨_, rfl, hrefuse fun t offset _ ho => (by cases ho)⟩
  dsimp only
  rw [h.replidMatches_eq]
  split
  next hid =>
    refine ⟨_, rfl, hrefuse fun t o _ ho hm => ?_⟩
    cases ho
    rw [hm] at hid
    cases hid
  next hid =>
    split
    next hout =>
      refine ⟨_, rfl, hrefuse fun t o ht ho _ hav => ?_⟩
      cases ho
      obtain ⟨hlo, hhi⟩ := (h.available_iff ht offset).1 hav
      obtain ⟨buf, hbuf, -⟩ := h.present t ht
      simp [hbuf] at hout
      omega
    next hin =>
      simp only [Bool.or_eq_true, decide_eq_true_eq, not_or, isNone_iff_eq_none] at hin
      obtain ⟨⟨hne, hlo⟩, hhi⟩ := hin
      obtain ⟨t, ht⟩ : ∃ t, a.start = some t := by
        cases hs : a.start with
        | none => exact absurd (h.absent hs) hne
        | some t => exact ⟨t, rfl⟩
      have hav : a.available s₀.masterReplOffset t offset := (h.available_iff ht offset).2 ⟨by omega, by omega⟩
      have hmatch : replidMatches s₀ id offset = true := by simpa using hid
      rcases wrote with - | -
      · exact ⟨_, rfl, rfl, _, rfl, .inl ⟨t, offset, ht, rfl, hmatch, hav, rfl⟩⟩
      have hread := addReplyReplicationBacklog_spec h ht hav
      have hhead : continueHeader s psync2 = continueHeader s₀ psync2 := by
        unfold continueHeader
        rw [h.ids.1]
      simp only [Bool.not_true, Bool.false_eq_true, if_false, hread, some_bind, hhead]
      exact ⟨_, rfl, rfl, _, rfl, .inl ⟨t, offset, ht, rfl, hmatch, hav, rfl⟩⟩

theorem replMachine_simulates (s₀ : ReplServer) :
    (replMachine s₀).Simulates (replSpec s₀) (fun _ _ => True) (ReplInv s₀) := by
  intro op s a h _
  cases op with
  | feed p =>
    rcases hs : a.start with - | t
    · exact ⟨s, none, a, if_neg (by rw [h.isSome, hs]; simp), ⟨rfl, by rw [hs]; rfl⟩, h⟩
    obtain ⟨s', hs', h'⟩ := feedReplicationBacklog_spec h hs p
    refine ⟨s', none, _, ?_, ⟨rfl, rfl⟩, ?_⟩
    · show (if s.replBacklog.isSome then (feedReplicationBacklog s p).map (·, none) else some (s, none)) = _
      rw [h.isSome, hs, hs']
      rfl
    · rw [if_pos (by rw [hs]; rfl)]
      exact h'
  | create junk =>
    cases hs : a.start with
    | some t =>
      refine ⟨s, none, a, if_neg ?_, ⟨rfl, by rw [hs]; rfl⟩, h⟩
      obtain ⟨buf, hbuf, -⟩ := h.present t hs
      rw [hbuf]
      simp
    | none =>
      refine ⟨s.emptyBacklog junk, none, _, ?_, ⟨rfl, rfl⟩, ?_⟩
      · show (if s.replBacklog.isNone then (createReplicationBacklog s junk).map (·, none) else some (s, none)) = _
        unfold createReplicationBacklog
        rw [h.absent hs]
        rfl
      · rw [hs]
        exact .emptyBacklog h.size h.pos h.offset h.ids junk
  | resize newsize junk =>
    refine ⟨_, none, _, rfl, ⟨rfl, rfl⟩, ?_⟩
    have hnew : (if newsize < configReplBacklogMinSize then configReplBacklogMinSize else newsize.toNat) =
        max newsize.toNat configReplBacklogMinSize := by
      split <;> omega
    have hpos : 0 < max newsize.toNat configReplBacklogMinSize := by
      unfold configReplBacklogMinSize
      omega
    unfold resizeReplicationBacklog
    dsimp only
    rw [hnew, h.size]
    split
    · exact h
    rw [h.isSome]
    cases hs : a.start with
    | none => exact ⟨rfl, hpos, h.offset, h.ids, fun _ => h.absent hs, fun t ht => (by cases ht)⟩
    | some t =>
      exact ReplInv.emptyBacklog (s := { s with replBacklogSize := max newsize.toNat configReplBacklogMinSize })
        (a := { a with size := max newsize.toNat configReplBacklogMinSize }) rfl hpos h.offset h.ids junk
  | free =>
    exact ⟨_, none, _, rfl, ⟨rfl, rfl⟩, ⟨h.size, h.pos, h.offset, h.ids, fun _ => rfl, fun t ht => (by cases ht)⟩⟩
  | psync id psyncOffset psync2 wrote =>
    obtain ⟨r, hr, hspec⟩ := psync_spec h id psyncOffset psync2 wrote
    refine ⟨s, some r, a, ?_, hspec, h⟩
    show (masterTryPartialResynchronization s id psyncOffset psync2 wrote).map _ = _
    rw [hr]
    rfl

end steps

/-- Every run of the calls returns with the replies of the specification, and the backlog then holds the
last bytes fed since it was created or resized. -/
theorem backlog_refines_stream (masterReplOffset : Int) (replid replid2 : List UInt8) (secondReplidOffset : Int)
    (ops : List ReplOp) :
    let s₀ := replInit masterReplOffset replid replid2 secondReplidOffset
    ∃ s rs a, (replMachine s₀).run ops s₀ = some (s, rs) ∧
      (replSpec s₀).Run ops ⟨[], none, configDefaultReplBacklogSize⟩ rs a ∧
      s.masterReplOffset = masterReplOffset + a.stream.length ∧ (s.replBacklog.isSome = a.start.isSome) ∧
      ∀ t buf, a.start = some t → s.replBacklog = some buf →
        buf.length = s.replBacklogSize ∧ s.replBacklogHistlen ≤ s.replBacklogSize ∧
        s.replBacklogOff + s.replBacklogHistlen = s.masterReplOffset + 1 ∧
        backlogContents s buf = ((a.fed t).drop ((a.fed t).length - s.replBacklogHistlen)).map some := by
  intro s₀
  have hinit : ReplInv s₀ s₀ ⟨[], none, configDefaultReplBacklogSize⟩ := by
    refine ⟨rfl, by decide, ?_, ⟨rfl, rfl, rfl⟩, fun _ => rfl, fun t ht => (by cases ht)⟩
    exact (Int.add_zero _).symm
  have hg : (replMachine s₀).Guarded (fun _ _ => True) ops s₀ :=
    Machine.guarded_of_forall_mem (fun _ _ _ => trivial) s₀
  obtain ⟨s, rs, a, hrun, hspec, h⟩ := (replMachine_simulates s₀).run hinit hg
  refine ⟨s, rs, a, hrun, hspec, h.offset, h.isSome, fun t buf ht hbuf => ?_⟩
  obtain ⟨buf', hbuf', hat⟩ := h.present t ht
  obtain rfl : buf' = buf := some.inj (hbuf'.symm.trans hbuf)
  refine ⟨hat.length, ?_, hat.off, hat.contents h.size⟩
  rw [hat.histlen, h.size]
  exact Nat.min_le_right _ _

end Redis
