import Redis.StreamParse
import Redis.StreamReads

/-! # Stream commands on their argument vectors

`XADD`, `XDEL`, `XACK` and `XCLAIM` from the arguments a client sends to the keyspace they leave. A command that replies
with an error leaves the keyspace as it was, but for two cases: `XADD` creates the key before it compares the ID, and
`XACK` reads each ID only when its turn has come. -/

namespace Redis

abbrev Arg := List UInt8

/-- The value at a key, as far as the stream commands look at it. -/
inductive StreamKey
  | stream (gs : GroupedStream)
  | other

abbrev StreamDb := AList fun _ : Arg => StreamKey

/-! ### Errors -/

def wrongType : GroupReply := .error "-WRONGTYPE Operation against a key holding the wrong kind of value"
def wrongArity : GroupReply := .error "wrong number of arguments for '%s' command"
def notAnInteger : String := "value is not an integer or out of range"
def invalidStreamID : String := "Invalid stream ID specified as stream command argument"

/-! ### `XADD` -/

/-- The arguments of `XADD` behind the key: `maxlen` is `-1` if it is not given, and `fields` is none if there is no ID. -/
structure XaddArgs where
  maxlen : Int
  approxMaxlen : Bool
  id : Option StreamID
  fields : Option (List Arg)

/-- The fields and their values, if there are some and each field has a value. -/
def XaddArgs.checked (a : XaddArgs) : Option (List Arg) :=
  a.fields.filter fun fields => decide (fields.length ≥ 2 ∧ fields.length % 2 = 0)

def xaddMaxlen (count : Arg) : Except String Int :=
  match string2ll count with
  | none => .error notAnInteger
  | some maxlen => if maxlen < 0 then .error "The MAXLEN argument must be >= 0." else .ok maxlen

/-- The ID of `XADD`, or the end of the options. -/
def xaddID (maxlen : Int) (approxMaxlen : Bool) (opt : Arg) (rest : List Arg) : Except String XaddArgs :=
  if Input.cstr opt = [42] then .ok ⟨maxlen, approxMaxlen, none, some rest⟩
  else
    match streamParseStrictIDOrReply opt 0 with
    | none => .error invalidStreamID
    | some id => .ok ⟨maxlen, approxMaxlen, some id, some rest⟩

def isMaxlen (opt : Arg) : Bool := Input.strcaseeq opt [109, 97, 120, 108, 101, 110]

def xaddOptions : List Arg → Int → Bool → Except String XaddArgs
  | [], maxlen, approxMaxlen => .ok ⟨maxlen, approxMaxlen, none, none⟩
  | [opt], maxlen, approxMaxlen => xaddID maxlen approxMaxlen opt []
  | [opt, count], maxlen, approxMaxlen =>
    if Input.cstr opt ≠ [42] ∧ isMaxlen opt then (xaddMaxlen count).bind fun maxlen => xaddOptions [] maxlen false
    else xaddID maxlen approxMaxlen opt [count]
  | opt :: next :: count :: rest, maxlen, approxMaxlen =>
    if Input.cstr opt ≠ [42] ∧ isMaxlen opt then
      if Input.cstr next = [126] then (xaddMaxlen count).bind fun maxlen => xaddOptions rest maxlen true
      else if Input.cstr next = [61] then (xaddMaxlen count).bind fun maxlen => xaddOptions rest maxlen false
      else (xaddMaxlen next).bind fun maxlen => xaddOptions (count :: rest) maxlen false
    else xaddID maxlen approxMaxlen opt (next :: count :: rest)

def pairUp : List Arg → Argv
  | field :: value :: rest => (field, value) :: pairUp rest
  | _ => []

/-- The keyspace with the stream in it, none for a value of another type. -/
def streamTypeLookupWriteOrCreate (db : StreamDb) (key : Arg) : Option (StreamDb × GroupedStream) :=
  match db.lookup key with
  | none => some (db.insert key (.stream ⟨streamNew, ∅⟩), ⟨streamNew, ∅⟩)
  | some (.stream gs) => some (db, gs)
  | some .other => none

def xaddArgs (limits : StreamLimits) (db : StreamDb) (key : Arg) (args : List Arg) (mstime : UInt64) :
    Except Crash (StreamDb × GroupReply) :=
  match xaddOptions args (-1) false with
  | .error e => .ok (db, .error e)
  | .ok a =>
    match a.checked with
    | none => .ok (db, .error "wrong number of arguments for XADD")
    | some fields =>
      match streamTypeLookupWriteOrCreate db key with
      | none => .ok (db, wrongType)
      | some (db, gs) => do
        let maxlen := if a.maxlen ≥ 0 then some (UInt64.ofNat a.maxlen.toNat, a.approxMaxlen) else none
        let (s, r) ← ofEntries (xaddCommand limits gs.stream a.id (pairUp fields) mstime maxlen)
        .ok (db.insert key (.stream { gs with stream := s }), .entries r)

/-! ### `XDEL` and `XACK` -/

def xdelArgs (db : StreamDb) (key : Arg) (args : List Arg) : Except Crash (StreamDb × GroupReply) :=
  match db.lookup key with
  | none => .ok (db, .number 0)
  | some .other => .ok (db, wrongType)
  | some (.stream gs) =>
    match args.mapM fun arg => streamParseStrictIDOrReply arg 0 with
    | none => .ok (db, .error invalidStreamID)
    | some ids => do
      let (s, r) ← ofEntries (xdelCommand gs.stream ids)
      .ok (db.insert key (.stream { gs with stream := s }), .entries r)

def xackArgs (db : StreamDb) (key group : Arg) (args : List Arg) : Except Crash (StreamDb × GroupReply) :=
  match db.lookup key with
  | none => .ok (db, .number 0)
  | some .other => .ok (db, wrongType)
  | some (.stream gs) =>
    match gs.cgroups.lookup group with
    | none => .ok (db, .number 0)
    | some cg => do
      let (cg, r) ← xackLoop (args.map fun arg => streamParseStrictIDOrReply arg 0) cg 0
      .ok (db.insert key (.stream { gs with cgroups := gs.cgroups.insert group cg }), r)

/-! ### `XCLAIM` -/

def xclaimOptions (now : Int) : List Arg → ClaimOptions → Except String ClaimOptions
  | [], o => .ok o
  | opt :: rest, o =>
    -- FORCE and JUSTID
    if Input.strcaseeq opt [70, 79, 82, 67, 69] then xclaimOptions now rest { o with force := true }
    else if Input.strcaseeq opt [74, 85, 83, 84, 73, 68] then xclaimOptions now rest { o with justid := true }
    else
      match rest with
      | [] => .error "Unrecognized XCLAIM option '%s'"
      | arg :: rest =>
        -- IDLE, TIME, RETRYCOUNT and LASTID
        if Input.strcaseeq opt [73, 68, 76, 69] then
          match string2ll arg with
          | none => .error "Invalid IDLE option argument for XCLAIM"
          | some idle => xclaimOptions now rest { o with deliverytime := now - idle }
        else if Input.strcaseeq opt [84, 73, 77, 69] then
          match string2ll arg with
          | none => .error "Invalid TIME option argument for XCLAIM"
          | some time => xclaimOptions now rest { o with deliverytime := time }
        else if Input.strcaseeq opt [82, 69, 84, 82, 89, 67, 79, 85, 78, 84] then
          match string2ll arg with
          | none => .error "Invalid RETRYCOUNT option argument for XCLAIM"
          | some count => xclaimOptions now rest { o with retrycount := count }
        else if Input.strcaseeq opt [76, 65, 83, 84, 73, 68] then
          match streamParseStrictIDOrReply arg 0 with
          | none => .error invalidStreamID
          | some id => xclaimOptions now rest { o with lastId := id }
        else .error "Unrecognized XCLAIM option '%s'"

/-- The arguments of `XCLAIM` up to the first one that is no ID. -/
def claimIDs (args : List Arg) : List StreamID :=
  (args.takeWhile fun arg => (streamParseStrictIDOrReply arg 0).isSome).filterMap fun arg => streamParseStrictIDOrReply arg 0

def xclaimArgs (db : StreamDb) (key group consumer minidle : Arg) (args : List Arg) (now : Int) :
    Except Crash (StreamDb × GroupReply) :=
  match db.lookup key with
  | none => .ok (db, noGroupXCLAIM)
  | some .other => .ok (db, wrongType)
  | some (.stream gs) =>
    match gs.cgroups.lookup group with
    | none => .ok (db, noGroupXCLAIM)
    | some cg =>
      match string2ll minidle with
      | none => .ok (db, .error "Invalid min-idle-time argument for XCLAIM")
      | some minidle =>
        match xclaimOptions now (args.dropWhile fun arg => (streamParseStrictIDOrReply arg 0).isSome) {} with
        | .error e => .ok (db, .error e)
        | .ok opts => do
          let (cg, r, _) ← xclaimCommand gs.stream cg consumer minidle (claimIDs args) opts now
          .ok (db.insert key (.stream { gs with cgroups := gs.cgroups.insert group cg }), r)

/-! ### Calls -/

inductive StreamCall
  | xadd
  | xdel
  | xack
  | xclaim

/-- A call with its argument vector, which has as many arguments as the command table asks for. -/
def streamCall (limits : StreamLimits) (mstime : UInt64) (now : Int) (db : StreamDb) :
    StreamCall → List Arg → Except Crash (StreamDb × GroupReply)
  | .xadd, _ :: key :: x :: y :: z :: args => xaddArgs limits db key (x :: y :: z :: args) mstime
  | .xdel, _ :: key :: x :: args => xdelArgs db key (x :: args)
  | .xack, _ :: key :: group :: x :: args => xackArgs db key group (x :: args)
  | .xclaim, _ :: key :: group :: consumer :: minidle :: x :: args =>
    xclaimArgs db key group consumer minidle (x :: args) now
  | _, _ => .ok (db, wrongArity)

def GroupReply.IsError : GroupReply → Prop
  | .error _ => True
  | .entries (.error _) => True
  | _ => False

def StreamKey.Same : Option StreamKey → Option StreamKey → Prop
  | none, none => True
  | some .other, some .other => True
  | some (.stream gs), some (.stream gs') => gs.stream = gs'.stream ∧ ∀ group, gs.cgroups.lookup group = gs'.cgroups.lookup group
  | _, _ => False

/-- Two keyspaces with the same keys and the same values. -/
def StreamDb.Same (db db' : StreamDb) : Prop := ∀ key, StreamKey.Same (db.lookup key) (db'.lookup key)

/-- `XADD` to a key that does not exist does not ask for the ID `0-0` with arguments that are otherwise right, and no
malformed ID of `XACK` comes behind one that is pending. -/
def StreamCall.Clean (db : StreamDb) : StreamCall → List Arg → Prop
  | .xadd, _ :: key :: x :: y :: z :: args =>
    db.lookup key = none → ∀ a, xaddOptions (x :: y :: z :: args) (-1) false = .ok a → a.checked.isSome → a.id ≠ some .zero
  | .xack, _ :: key :: group :: x :: args =>
    ∀ gs cg, db.lookup key = some (.stream gs) → gs.cgroups.lookup group = some cg →
      none ∈ (x :: args).map (fun arg => streamParseStrictIDOrReply arg 0) →
      ∀ id, some id ∈ ((x :: args).map fun arg => streamParseStrictIDOrReply arg 0).takeWhile Option.isSome →
        cg.pel.lookup id = none
  | _, _ => True

/-! ### What an error leaves -/

section errors
variable {limits : StreamLimits} {db db' : StreamDb} {key group : Arg} {gs : GroupedStream} {cg cg' : StreamCG} {r : GroupReply}
variable {mstime : UInt64} {args : List Arg}

theorem StreamKey.Same.refl (v : Option StreamKey) : StreamKey.Same v v := by
  match v with
  | none => trivial
  | some .other => trivial
  | some (.stream gs) => exact ⟨rfl, fun _ => rfl⟩

theorem StreamDb.Same.refl (db : StreamDb) : db.Same db := fun _ => .refl _

theorem StreamDb.Same.insert (h : db.lookup key = some (.stream gs)) {gs' : GroupedStream} (hs : gs.stream = gs'.stream)
    (hg : ∀ group, gs.cgroups.lookup group = gs'.cgroups.lookup group) : db.Same (db.insert key (.stream gs')) := by
  intro key'
  by_cases hk : key' = key
  · subst hk
    rw [AList.lookup_insert, h]
    exact ⟨hs, hg⟩
  · rw [AList.lookup_insert_ne hk]
    exact .refl _

theorem lookup_insert_self (h : gs.cgroups.lookup group = some cg) (group' : Arg) :
    gs.cgroups.lookup group' = (gs.cgroups.insert group cg).lookup group' := by
  by_cases hg : group' = group
  · subst hg
    rw [AList.lookup_insert, h]
  · rw [AList.lookup_insert_ne hg]

theorem xaddCommand_error {s s' : Stream} {id : Option StreamID} {argv : Argv} {maxlen : Option (UInt64 × Bool)}
    {e : String} (h : xaddCommand limits s id argv mstime maxlen = some (s', .error e)) :
    s' = s ∧ ∃ u ∈ id, ¬s.lastId < u := by
  obtain ⟨x, hx, h⟩ := Option.bind_eq_some_iff.1 h
  cases x with
  | none =>
    cases h
    refine ⟨rfl, ?_⟩
    unfold streamAppendItem at hx
    split at hx
    next hany =>
      cases id with
      | none => cases hany
      | some u =>
        have hle : streamCompareID u s.lastId ≤ 0 := of_decide_eq_true hany
        exact ⟨u, rfl, fun hlt => absurd (streamCompareID_pos.2 hlt) (Int.not_lt.2 hle)⟩
    · obtain ⟨tail, -, hx⟩ := Option.bind_eq_some_iff.1 hx
      obtain ⟨node, -, hx⟩ := Option.bind_eq_some_iff.1 hx
      obtain ⟨lp, -, hx⟩ := Option.bind_eq_some_iff.1 hx
      cases hx
  | some x =>
    cases maxlen with
    | none => cases h
    | some maxlen =>
      obtain ⟨s₂, -, h⟩ := Option.bind_eq_some_iff.1 h
      cases h

theorem ofEntries_bind {α β : Type} {x : Option α} {f : α → Except Crash β} {v : β} (h : (ofEntries x >>= f) = .ok v) :
    ∃ a, x = some a ∧ f a = .ok v := by
  cases x with
  | none => cases h
  | some a => exact ⟨a, rfl, h⟩

theorem xaddArgs_error_iff (h : xaddArgs limits db key args mstime = .ok (db', r)) :
    (r.IsError → db.Same db') ↔
      (db.lookup key = none → ∀ a, xaddOptions args (-1) false = .ok a → a.checked.isSome → a.id ≠ some .zero) := by
  unfold xaddArgs at h
  cases ha : xaddOptions args (-1) false with
  | error e =>
    rw [ha] at h
    cases h
    exact ⟨fun _ _ a ha' => (by cases ha'), fun _ _ => .refl _⟩
  | ok a =>
    rw [ha] at h
    dsimp only at h
    split at h
    next hnone =>
      cases h
      refine ⟨fun _ _ a' ha' hsome => ?_, fun _ _ => .refl _⟩
      cases ha'
      rw [hnone] at hsome
      cases hsome
    next fields hfields =>
      cases hk : db.lookup key with
      | none =>
        -- the new stream takes every ID but the smallest one
        rw [streamTypeLookupWriteOrCreate, hk] at h
        obtain ⟨⟨s, x⟩, hx, h⟩ := ofEntries_bind h
        cases h
        constructor
        · intro hsame _ a' ha' _ hzero
          cases ha'
          rw [hzero] at hx
          cases hx
          have habsent := hsame trivial key
          rw [hk, AList.lookup_insert] at habsent
          exact habsent
        · intro hclean he
          cases x with
          | error e =>
            obtain ⟨-, u, hu, hle⟩ := xaddCommand_error hx
            have hzero : u = .zero := StreamID.toNat_inj (Nat.le_antisymm (Nat.not_lt.1 hle) (Nat.zero_le _))
            exact absurd (hzero ▸ hu) (hclean rfl a rfl (by rw [hfields]; rfl))
          | added id | number n | ok => cases he
      | some v =>
        refine ⟨fun _ hnone => absurd hnone (Option.some_ne_none v), fun _ he => ?_⟩
        rw [streamTypeLookupWriteOrCreate, hk] at h
        cases v with
        | other =>
          cases h
          exact .refl _
        | stream gs =>
          obtain ⟨⟨s, x⟩, hx, h⟩ := ofEntries_bind h
          cases h
          cases x with
          | error e =>
            obtain ⟨rfl, -⟩ := xaddCommand_error hx
            exact .insert hk rfl fun _ => rfl
          | added id | number n | ok => cases he

theorem xdelArgs_error (h : xdelArgs db key args = .ok (db', r)) (he : r.IsError) : db.Same db' := by
  unfold xdelArgs at h
  split at h
  · cases h
    exact .refl _
  · cases h
    exact .refl _
  split at h
  · cases h
    exact .refl _
  obtain ⟨⟨s, x⟩, hx, h⟩ := ofEntries_bind h
  cases h
  obtain ⟨y, -, hx⟩ := Option.bind_eq_some_iff.1 hx
  cases hx
  cases he

/-- The loop fails at a malformed ID, and the entries before it are no longer pending. -/
theorem xackLoop_ok {ids : List (Option StreamID)} {k : Nat} (h : xackLoop ids cg k = .ok (cg', r)) :
    (r.IsError ↔ none ∈ ids) ∧ ((∀ id, some id ∈ ids.takeWhile Option.isSome → cg.pel.lookup id = none) → cg' = cg) ∧
      ∀ id, cg'.pel.lookup id = none ↔ some id ∈ ids.takeWhile Option.isSome ∨ cg.pel.lookup id = none := by
  induction ids generalizing cg k with
  | nil =>
    cases h
    exact ⟨⟨False.elim, fun h => (by cases h)⟩, fun _ => rfl, fun id => by simp⟩
  | cons x ids ih =>
    rcases x with - | id
    · cases h
      exact ⟨⟨fun _ => .head _, fun _ => trivial⟩, fun _ => rfl, fun id => by simp⟩
    rw [xackLoop] at h
    cases hid : cg.pel.lookup id with
    | none =>
      rw [hid] at h
      obtain ⟨herr, hsame, hpel⟩ := ih h
      refine ⟨by simpa using herr, fun hclean => hsame fun j hj => hclean j (.tail _ hj), fun j => ?_⟩
      rw [hpel j]
      by_cases hj : j = id
      · subst hj
        simp [hid]
      · simp [hj]
    | some n =>
      rw [hid] at h
      obtain ⟨nack, -, h⟩ := except_bind_ok h
      obtain ⟨owner, -, h⟩ := except_bind_ok h
      obtain ⟨cg₁, hdel, h⟩ := except_bind_ok h
      obtain ⟨cg₂, hfree, h⟩ := except_bind_ok h
      obtain ⟨consumerHeap, -, hdel⟩ := except_bind_ok hdel
      obtain ⟨nackHeap, -, hfree⟩ := except_bind_ok hfree
      cases hdel
      cases hfree
      obtain ⟨herr, -, hpel⟩ := ih h
      refine ⟨by simpa using herr, fun hclean => ?_, fun j => ?_⟩
      · rw [hclean id (.head _)] at hid
        cases hid
      · rw [hpel j]
        by_cases hj : j = id
        · subst hj
          simp [AList.lookup_erase]
        · simp [hj, AList.lookup_erase_ne hj]

theorem xackArgs_error_iff (h : xackArgs db key group args = .ok (db', r)) :
    (r.IsError → db.Same db') ↔
      ∀ gs cg, db.lookup key = some (.stream gs) → gs.cgroups.lookup group = some cg →
        none ∈ args.map (fun arg => streamParseStrictIDOrReply arg 0) →
        ∀ id, some id ∈ (args.map fun arg => streamParseStrictIDOrReply arg 0).takeWhile Option.isSome →
          cg.pel.lookup id = none := by
  unfold xackArgs at h
  split at h
  next hk =>
    cases h
    exact ⟨fun _ gs cg hgs => (by rw [hk] at hgs; cases hgs), fun _ _ => .refl _⟩
  next hk =>
    cases h
    exact ⟨fun _ gs cg hgs => (by rw [hk] at hgs; cases hgs), fun _ _ => .refl _⟩
  next gs hk =>
    split at h
    next hcg =>
      cases h
      refine ⟨fun _ gs' cg hgs hcg' => ?_, fun _ _ => .refl _⟩
      rw [hk] at hgs
      cases hgs
      rw [hcg] at hcg'
      cases hcg'
    next cg hcg =>
      obtain ⟨⟨cg', r'⟩, hloop, h⟩ := except_bind_ok h
      cases h
      obtain ⟨herr, hsame, hpel⟩ := xackLoop_ok hloop
      constructor
      · intro hkeep gs' cg₁ hgs hcg₁ hnone id hid
        rw [hk] at hgs
        cases hgs
        -- the group has to be the same, and in it the entry is no longer pending
        have hgroup := hkeep (herr.2 hnone) key
        rw [hk, AList.lookup_insert] at hgroup
        have hcg' := hgroup.2 group
        rw [hcg₁, AList.lookup_insert] at hcg'
        cases hcg'
        exact (hpel id).2 (.inl hid)
      · intro hclean he
        rw [hsame (hclean gs cg hk hcg (herr.1 he))]
        exact .insert hk rfl (lookup_insert_self hcg)

theorem xclaimArgs_error {consumer minidle : Arg} {now : Int}
    (h : xclaimArgs db key group consumer minidle args now = .ok (db', r)) (he : r.IsError) : db.Same db' := by
  unfold xclaimArgs at h
  split at h
  · cases h
    exact .refl _
  · cases h
    exact .refl _
  iterate 3
    split at h
    · cases h
      exact .refl _
  -- from here on the reply is an array
  obtain ⟨⟨cg', r', p⟩, hclaim, h⟩ := except_bind_ok h
  cases h
  obtain ⟨⟨cg₁, b⟩, -, hclaim⟩ := except_bind_ok hclaim
  obtain ⟨b', -, hclaim⟩ := except_bind_ok hclaim
  obtain ⟨g, -, hclaim⟩ := except_bind_ok hclaim
  cases hclaim
  cases he

/-- A call that replies with an error leaves the keyspace as it was, if it is clean and in no other case. -/
theorem failed_call_keeps_keyspace (limits : StreamLimits) (mstime : UInt64) (now : Int) (db db' : StreamDb) (call : StreamCall)
    (argv : List Arg) (r : GroupReply) (h : streamCall limits mstime now db call argv = .ok (db', r)) :
    (r.IsError → db.Same db') ↔ call.Clean db argv := by
  unfold streamCall at h
  split at h
  · exact xaddArgs_error_iff h
  · exact ⟨fun _ => trivial, fun _ he => xdelArgs_error h he⟩
  · exact xackArgs_error_iff h
  · exact ⟨fun _ => trivial, fun _ he => xclaimArgs_error h he⟩
  next hadd _ hack _ =>
    cases h
    refine ⟨fun _ => ?_, fun _ _ => .refl _⟩
    unfold StreamCall.Clean
    split
    · exact absurd rfl (hadd _ _ _ _ _ _ rfl)
    · exact absurd rfl (hack _ _ _ _ _ rfl)
    · trivial

end errors

def xaddZero : List Arg := [[120, 97, 100, 100], [107], [48, 45, 48], [102], [118]]

/-- An entry `1-1`, delivered to the consumer `c` of the group `g`. -/
def onePending : List GroupCmd :=
  [.entries (.xadd (some ⟨1, 1⟩) [([102], [118])] 0 none), .create [103] (some .zero),
    .xreadgroup [103] [99] 0 false .max 1000]

def xackBad : List Arg := [[120, 97, 99, 107], [107], [103], [49, 45, 49], [120]]

theorem failed_call_keeps_keyspace_existing :
    ∃ gs rs, (GroupedStream.machine ⟨4096, 100⟩).run onePending ⟨streamNew, ∅⟩ = some (gs, rs) ∧
      ∃ db' r, streamCall ⟨4096, 100⟩ 0 0 (AList.insert [107] (.stream gs) ∅) .xadd xaddZero = .ok (db', r) ∧ r.IsError ∧
        StreamDb.Same (AList.insert [107] (.stream gs) ∅) db' :=
  ⟨_, _, rfl, _, _, rfl, trivial,
    (failed_call_keeps_keyspace ⟨4096, 100⟩ 0 0 _ _ .xadd xaddZero _ rfl).2 (fun h => by cases h) (by trivial)⟩

/-- `XADD` fails and leaves an empty stream; `XACK` fails and has acknowledged an entry. -/
theorem failed_calls_change_keyspace :
    (∃ db' r, streamCall ⟨4096, 100⟩ 0 0 ∅ .xadd xaddZero = .ok (db', r) ∧ r.IsError ∧ ¬StreamDb.Same ∅ db') ∧
    ∃ gs rs, (GroupedStream.machine ⟨4096, 100⟩).run onePending ⟨streamNew, ∅⟩ = some (gs, rs) ∧
      ∃ db' r, streamCall ⟨4096, 100⟩ 0 0 (AList.insert [107] (.stream gs) ∅) .xack xackBad = .ok (db', r) ∧ r.IsError ∧
        ¬StreamDb.Same (AList.insert [107] (.stream gs) ∅) db' := by
  refine ⟨⟨_, _, rfl, trivial, fun h => h [107]⟩, _, _, rfl, _, _, rfl, trivial, fun h => ?_⟩
  have hgroup := (h [107]).2 [103]
  exact absurd (congrArg (Option.map fun cg => (cg.pel.lookup ⟨1, 1⟩).isSome) hgroup) (by decide)

end Redis
