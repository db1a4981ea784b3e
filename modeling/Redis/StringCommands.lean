import Redis.Bitops

/-! # Numbers, times and offsets of string commands (`t_string.c`, `expire.c`, `blocked.c`)

A command gives its error reply and writes nothing, or the key as it leaves it and the reply. -/

namespace Redis.Strings
open List

inductive StringObject where
  | int (v : Int64)
  | raw (s : List UInt8)
  deriving DecidableEq

/-- The value of a key; the types that are no strings are only refused. -/
inductive Value where
  | string (o : StringObject)
  | other
  deriving DecidableEq

inductive Reply where
  | error (msg : String)
  | integer (v : Int64)
  | ok
  | nil
  deriving DecidableEq

def wrongtypeerr : Reply := .error "-WRONGTYPE Operation against a key holding the wrong kind of value"

def getLongLongFromObject : Option StringObject → Option Int64
  | none => some 0
  | some (.int v) => some v
  | some (.raw s) => (string2ll s).map Int64.ofInt

def getLongLongFromObjectOrReply (o : Option StringObject) (msg : Option String) : Except Reply Int64 :=
  (getLongLongFromObject o).elim (.error (.error (msg.getD "value is not an integer or out of range"))) .ok

theorem ok_bind {α β : Type} (a : α) (f : α → Except Reply β) : (Except.ok a >>= f) = f a := rfl

theorem read_ok {o : Option StringObject} {v : Int64} (h : getLongLongFromObject o = some v) (msg : Option String) :
    getLongLongFromObjectOrReply o msg = .ok v := by
  rw [getLongLongFromObjectOrReply, h]; rfl

/-- For `OBJ_STRING`. -/
def checkType : Option Value → Except Reply (Option StringObject)
  | none => .ok none
  | some (.string o) => .ok (some o)
  | some .other => .error wrongtypeerr

/-! ### Increments -/

variable (o : Option Value)

/-- The number a string key holds, 0 for a missing key. -/
def numberAt : Except Reply Int64 := do
  getLongLongFromObjectOrReply (← checkType o) none

def incrDecrCommand (incr : Int64) : Except Reply (Option Value × Reply) := do
  let oldvalue ← numberAt o
  if incr < 0 ∧ oldvalue < 0 ∧ incr < Int64.minValue - oldvalue ∨
      incr > 0 ∧ oldvalue > 0 ∧ incr > Int64.maxValue - oldvalue then
    .error (.error "increment or decrement would overflow")
  else .ok (some (.string (.int (oldvalue + incr))), .integer (oldvalue + incr))

def incrbyCommand (arg : StringObject) : Except Reply (Option Value × Reply) := do
  incrDecrCommand o (← getLongLongFromObjectOrReply (some arg) none)

def decrbyCommand (arg : StringObject) : Except Reply (Option Value × Reply) := do
  incrDecrCommand o (-(← getLongLongFromObjectOrReply (some arg) none))

/-- The key and the reply are `n`, or `n` has more than 64 bits and there is an error. -/
def Exact (n : Int) (r : Except Reply (Option Value × Reply)) : Prop :=
  if -2 ^ 63 ≤ n ∧ n < 2 ^ 63 then r = .ok (some (.string (.int (.ofInt n))), .integer (.ofInt n))
  else ∃ msg, r = .error (.error msg)

theorem overflow_iff (v d : Int64) : (d < 0 ∧ v < 0 ∧ d < Int64.minValue - v ∨ d > 0 ∧ v > 0 ∧ d > Int64.maxValue - v) ↔
    ¬(-2 ^ 63 ≤ v.toInt + d.toInt ∧ v.toInt + d.toInt < 2 ^ 63) := by
  have hv := v.le_toInt
  have hv' := v.toInt_lt
  have hd := d.le_toInt
  have hd' := d.toInt_lt
  simp only [gt_iff_lt, Int64.lt_iff_toInt_lt, Int64.toInt_sub, Int64.toInt_minValue, Int64.toInt_maxValue, Int64.toInt_zero]
  -- the differences are only reached where they do not wrap
  rcases lt_trichotomy v.toInt 0 with h | h | h
  · rw [Int.bmod_eq_of_le (by omega) (by omega)]
    omega
  · omega
  · rw [@Int.bmod_eq_of_le (2 ^ 63 - 1 - v.toInt) _ (by omega) (by omega)]
    omega

theorem neg_exact {d : Int64} (h : d ≠ Int64.minValue) : (-d).toInt = -d.toInt := by
  have := d.le_toInt
  have := d.toInt_lt
  have : d.toInt ≠ -2 ^ 63 := fun he => h (Int64.toInt_inj.1 he)
  rw [Int64.toInt_neg, Int.bmod_eq_of_le (by omega) (by omega)]

section
variable {o : Option Value} {arg : StringObject} {v d : Int64}

theorem incrDecr_exact (hv : numberAt o = .ok v) (d : Int64) : Exact (v.toInt + d.toInt) (incrDecrCommand o d) := by
  have hsum : Int64.ofInt (v.toInt + d.toInt) = v + d := by simp
  simp only [incrDecrCommand, hv, ok_bind, overflow_iff, Exact, hsum]
  split
  · rfl
  · exact ⟨_, rfl⟩

/-- `DECRBY` adds the negated argument, which `LLONG_MIN` does not have. -/
theorem incrby_decrby_exact (hv : numberAt o = .ok v) (hd : getLongLongFromObject (some arg) = some d) :
    Exact (v.toInt + d.toInt) (incrbyCommand o arg) ∧
      (Exact (v.toInt - d.toInt) (decrbyCommand o arg) ↔ d ≠ Int64.minValue) := by
  rw [incrbyCommand, decrbyCommand, read_ok hd]
  have hdecr := incrDecr_exact hv (-d)
  refine ⟨incrDecr_exact hv d, fun hexact hmin => ?_, fun hmin => ?_⟩
  · -- the code subtracts where it should add: one of the two results is an error
    have := v.le_toInt
    have := v.toInt_lt
    subst hmin
    rw [show -Int64.minValue = Int64.minValue from rfl, Int64.toInt_minValue] at hdecr
    rw [Int64.toInt_minValue] at hexact
    unfold Exact at hdecr hexact
    simp only [ok_bind] at hdecr hexact
    split at hdecr <;> split at hexact
    · omega
    · obtain ⟨msg, herr⟩ := hexact
      cases hdecr.symm.trans herr
    · obtain ⟨msg, herr⟩ := hdecr
      cases hexact.symm.trans herr
    · omega
  · rw [sub_eq_add_neg, ← neg_exact hmin]
    exact hdecr

end

theorem incrby_decrby_exact_one : Exact (0 + 1) (incrbyCommand none (.raw [49])) ∧
    (Exact (0 - 1) (decrbyCommand none (.raw [49])) ↔ 1 ≠ Int64.minValue) :=
  incrby_decrby_exact (v := 0) (d := 1) rfl (by decide)

/-- `DECRBY` of `LLONG_MIN` stores `0 - 2 ^ 63` where `0 + 2 ^ 63` does not fit. -/
theorem decrby_wraps : ¬Exact (0 - -2 ^ 63) (decrbyCommand none (.raw (intText (-2 ^ 63)))) := by
  have hrun : decrbyCommand none (.raw (intText (-2 ^ 63))) =
      .ok (some (.string (.int Int64.minValue)), .integer Int64.minValue) := by decide +kernel
  rw [hrun, Exact, if_neg (by decide)]
  simp

/-! ### Deadlines -/

inductive TimeUnit where
  | seconds
  | milliseconds
  deriving DecidableEq

/-- An argument in milliseconds, as the code computes it. -/
def TimeUnit.wrapped (unit : TimeUnit) (t : Int64) : Int64 := if unit = .seconds then t * 1000 else t

/-- An argument in milliseconds. -/
def TimeUnit.exact (unit : TimeUnit) (t : Int64) : Int := if unit = .seconds then t.toInt * 1000 else t.toInt

/-- A key with its value and its expire. -/
abbrev Entry := Value × Option Int64

/-- `now` is the second reading of the clock, `basetime` the first one or 0. -/
def expireGenericCommand (now basetime : Int64) (unit : TimeUnit) (loading masterhost : Bool) (e : Option Entry)
    (param : StringObject) : Except Reply (Option Entry × Reply) := do
  let when := unit.wrapped (← getLongLongFromObjectOrReply (some param) none) + basetime
  match e with
  | none => .ok (none, .integer 0)
  | some (v, _) =>
    if when ≤ now ∧ loading = false ∧ masterhost = false then .ok (none, .integer 1)
    else .ok (some (v, some when), .integer 1)

def setGenericCommand (name : String) (now : Int64) (nx xx : Bool) (e : Option Entry) (val : StringObject)
    (expire : Option StringObject) (unit : TimeUnit) (ok_reply abort_reply : Option Reply) :
    Except Reply (Option Entry × Reply) := do
  let milliseconds ← expire.elim (.ok none) fun expire => do
    let t ← getLongLongFromObjectOrReply (some expire) none
    if t ≤ 0 then .error (.error s!"invalid expire time in {name}") else .ok (some (unit.wrapped t))
  if nx = true ∧ e ≠ none ∨ xx = true ∧ e = none then .ok (e, abort_reply.getD .nil)
  else .ok (some (.string val, milliseconds.map (now + ·)), ok_reply.getD .ok)

/-- 0 stands for no timeout. -/
def getTimeoutFromObjectOrReply (now : Int64) (unit : TimeUnit) (object : StringObject) : Except Reply Int64 := do
  let tval ← getLongLongFromObjectOrReply (some object) (some "timeout is not an integer or out of range")
  if tval < 0 then .error (.error "timeout is negative")
  else .ok (if tval > 0 then unit.wrapped tval + now else tval)

/-- The exact deadline. -/
def TimeUnit.deadline (unit : TimeUnit) (base t : Int64) : Int := base.toInt + unit.exact t

theorem toInt_wrapped (unit : TimeUnit) (base t : Int64) :
    (unit.wrapped t + base).toInt = (unit.deadline base t).bmod (2 ^ 64) := by
  rw [TimeUnit.wrapped, TimeUnit.deadline, TimeUnit.exact, Int64.toInt_add, Int.add_comm base.toInt]
  split
  · rw [Int64.toInt_mul, Int.bmod_add_bmod, show Int64.toInt 1000 = 1000 from rfl]
  · rfl

theorem toInt_wrapped_iff {unit : TimeUnit} {base t : Int64} : (unit.wrapped t + base).toInt = unit.deadline base t ↔
    -2 ^ 63 ≤ unit.deadline base t ∧ unit.deadline base t < 2 ^ 63 := by
  refine ⟨fun h => ?_, fun h => ?_⟩
  · rw [← h]
    exact ⟨Int64.le_toInt _, Int64.toInt_lt _⟩
  · rw [toInt_wrapped, Int.bmod_eq_of_le (by omega) (by omega)]

/-- What `EXPIRE` has to do with a key at the deadline `w`: delete it, if `here` and the time has come, or store `w`. -/
def ExpireExact (w now : Int) (here : Prop) [Decidable here] (v : Value) (r : Except Reply (Option Entry × Reply)) : Prop :=
  ∃ e, r = .ok (e, .integer 1) ∧
    if w ≤ now ∧ here then e = none else ∃ when : Int64, e = some (v, some when) ∧ when.toInt = w

/-- `SET`, where it is accepted, stores `w` unless it is called off. -/
def SetExact (w : Int) (off : Prop) (val : StringObject) (r : Except Reply (Option Entry × Reply)) : Prop :=
  ∀ e reply, r = .ok (e, reply) → off ∨ ∃ when : Int64, e = some (.string val, some when) ∧ when.toInt = w

section
variable {unit : TimeUnit} {arg : StringObject} {t base : Int64} (ht : getLongLongFromObject (some arg) = some t)
variable {w : Int} (hw : w = unit.deadline base t)
include ht hw

theorem expire_exact (now : Int64) (loading masterhost : Bool) (v : Value) (old : Option Int64) :
    ExpireExact w now.toInt (loading = false ∧ masterhost = false) v
      (expireGenericCommand now base unit loading masterhost (some (v, old)) arg) ↔
    -2 ^ 63 ≤ w ∧ w < 2 ^ 63 ∨ w < -2 ^ 63 ∧ w.bmod (2 ^ 64) ≤ now.toInt ∧ loading = false ∧ masterhost = false := by
  have hfit := @toInt_wrapped_iff unit base t
  have hmod := toInt_wrapped unit base t
  rw [← hw] at hfit hmod
  have hnow := now.le_toInt
  have hnow' := now.toInt_lt
  have hrun : expireGenericCommand now base unit loading masterhost (some (v, old)) arg =
      .ok (if w.bmod (2 ^ 64) ≤ now.toInt ∧ loading = false ∧ masterhost = false then none
        else some (v, some (unit.wrapped t + base)), .integer 1) := by
    simp only [expireGenericCommand, read_ok ht, ok_bind, Int64.le_iff_toInt_le, hmod]
    split <;> rfl
  simp only [ExpireExact, hrun, Except.ok.injEq, Prod.mk.injEq, and_true, exists_eq_left']
  rw [hmod] at hfit
  generalize w.bmod (2 ^ 64) = m at hmod hfit ⊢
  by_cases hm : loading = false ∧ masterhost = false
  · simp only [hm, and_self, and_true]
    -- what the code goes by, and what it should go by
    by_cases hdel : m ≤ now.toInt <;> by_cases hdel' : w ≤ now.toInt
    · simp [hdel, hdel']
      omega
    · simp [hdel, hdel']
      omega
    · simp [hdel, hdel']
      omega
    · simpa [hdel, hdel', hmod] using hfit
  · simpa [hm, hmod] using hfit

omit ht in
/-- A positive argument gives a deadline that is not too low. -/
theorem positive_exact (hpos : 0 < t) :
    base.toInt < w ∧ ((unit.wrapped t + base).toInt = w ↔ w < 2 ^ 63) := by
  have hlow := base.le_toInt
  have hlt : base.toInt < w := by
    rw [Int64.lt_iff_toInt_lt, Int64.toInt_zero] at hpos
    rw [hw, TimeUnit.deadline, TimeUnit.exact]
    split <;> omega
  refine ⟨hlt, ?_⟩
  rw [hw, toInt_wrapped_iff, ← hw]
  omega

theorem set_exact (name : String) (nx xx : Bool) (e : Option Entry) (val : StringObject) (ok abort : Option Reply) :
    SetExact w (nx = true ∧ e ≠ none ∨ xx = true ∧ e = none) val
      (setGenericCommand name base nx xx e val (some arg) unit ok abort) ↔
    (0 < t → ¬(nx = true ∧ e ≠ none ∨ xx = true ∧ e = none) → w < 2 ^ 63) := by
  unfold SetExact
  by_cases hpos : 0 < t
  · have hfit := (positive_exact hw hpos).2
    simp only [setGenericCommand, Option.elim, read_ok ht, ok_bind, Int64.not_le.2 hpos, if_false, hpos, true_imp_iff]
    split
    next hab => simp [hab]
    next hab =>
      rw [Int64.add_comm] at hfit
      simpa [hab] using hfit
  · simp only [setGenericCommand, Option.elim, read_ok ht, ok_bind, Int64.not_lt.1 hpos, if_true, hpos, false_imp_iff,
      iff_true]
    exact fun _ _ h => nomatch h

theorem timeout_exact :
    (∀ timeout, getTimeoutFromObjectOrReply base unit arg = .ok timeout → t ≠ 0 → timeout.toInt = w) ↔
      (0 < t → w < 2 ^ 63) := by
  simp only [getTimeoutFromObjectOrReply, read_ok ht, ok_bind]
  by_cases hpos : 0 < t
  · have hfit := (positive_exact hw hpos).2
    have hne : t ≠ 0 := fun h => absurd (h ▸ hpos) (by decide)
    simpa [hpos, Int64.not_lt.2 (Int64.le_of_lt hpos), hne] using hfit
  by_cases hneg : t < 0
  · simp [hneg, hpos]
  · simp [Int64.le_antisymm (Int64.not_lt.1 hpos) (Int64.not_lt.1 hneg)]

end

def tooLong : Reply := .error "string exceeds maximum allowed size (512MB)"

def checkStringLength (size : Int) : Except Reply Unit :=
  if size > 512 * 1024 * 1024 then .error tooLong else .ok ()

def sdsgrowzero (s : List UInt8) (len : Nat) : List UInt8 := s ++ replicate (len - s.length) 0

/-- The bytes of a string key, none for a missing one. -/
def bytes : Option StringObject → List UInt8
  | none => []
  | some (.int v) => intText v.toInt
  | some (.raw s) => s

/-- `offset+sdslen(value)`, a `size_t`. -/
def setrangeEnd (offset : Int64) (value : List UInt8) : Nat := (offset.toInt.toNat + value.length) % 2 ^ 64

def written (s : List UInt8) : Option Value × Reply := (some (.string (.raw s)), .integer (.ofNat s.length))

/-- Where memory is found for every length; `none` for a copy outside the string. -/
def setrangeCommand (arg : StringObject) (value : List UInt8) : Except Reply (Option (Option Value × Reply)) := do
  let offset ← getLongLongFromObjectOrReply (some arg) none
  if offset < 0 then .error (.error "offset is out of range")
  else
    let s := bytes (← checkType o)
    if value = [] then .ok (some (o, .integer (.ofNat s.length)))
    else
      -- the end is a `long long` where it is checked
      checkStringLength ((setrangeEnd offset value : Int).bmod (2 ^ 64))
      .ok ((memcpy (sdsgrowzero s (setrangeEnd offset value)) offset.toInt.toNat value).map written)

/-- `s` with zeros up to the end of `value`, and `value` in its place. -/
def overlay (s : List UInt8) (offset : Nat) (value : List UInt8) : List UInt8 :=
  let grown := s ++ replicate (offset + value.length - s.length) 0
  grown.take offset ++ (value ++ grown.drop (offset + value.length))

section
variable {o : Option Value} {so : Option StringObject} {arg : StringObject} {offset : Int64} {value : List UInt8}

theorem setrange_run (ho : checkType o = .ok so) (harg : getLongLongFromObject (some arg) = some offset) (hoff : 0 ≤ offset)
    (hv : value ≠ []) (hend : setrangeEnd offset value = offset.toInt.toNat + value.length) : setrangeCommand o arg value =
      if ((offset.toInt.toNat + value.length : Nat) : Int).bmod (2 ^ 64) > 512 * 1024 * 1024 then .error tooLong
      else .ok (some (written (overlay (bytes so) offset.toInt.toNat value))) := by
  have hcopy : memcpy (sdsgrowzero (bytes so) (offset.toInt.toNat + value.length)) offset.toInt.toNat value =
      some (overlay (bytes so) offset.toInt.toNat value) := by
    rw [memcpy, sdsgrowzero, if_pos (by rw [length_append, length_replicate]; omega), overlay]
  rw [setrangeCommand, read_ok harg, ho, ok_bind, if_neg (Int64.not_lt.2 hoff), ok_bind, if_neg hv, hend, hcopy,
    checkStringLength]
  split
  · rfl
  · rfl

/-- `SETRANGE` is right iff the sum of offset and length, of a value in memory, is not negative as a `long long`. -/
theorem setrange_exact (ho : checkType o = .ok so) (harg : getLongLongFromObject (some arg) = some offset)
    (hoff : 0 ≤ offset) (hlen : value.length < 2 ^ 63) :
    setrangeCommand o arg value =
      (if value = [] then .ok (some (o, .integer (.ofNat (bytes so).length)))
      else if offset.toInt.toNat + value.length > 512 * 1024 * 1024 then .error tooLong
      else .ok (some (written (overlay (bytes so) offset.toInt.toNat value)))) ↔
    offset.toInt.toNat + value.length < 2 ^ 63 := by
  have hlt := offset.toInt_lt
  split
  next hv =>
    refine iff_of_true ?_ (by rw [hv, length_nil]; omega)
    rw [setrangeCommand, read_ok harg, ho]
    simp only [ok_bind, if_neg (Int64.not_lt.2 hoff), if_pos hv]
  next hv =>
    rw [setrange_run ho harg hoff hv (Nat.mod_eq_of_lt (by omega))]
    by_cases hfit : offset.toInt.toNat + value.length < 2 ^ 63
    · rw [Int.bmod_eq_of_le (by omega) (by omega)]
      have : ((offset.toInt.toNat + value.length : Nat) : Int) > 512 * 1024 * 1024 ↔
        offset.toInt.toNat + value.length > 512 * 1024 * 1024 := by omega
      simp only [this, hfit]
    · -- the end is negative
      have hneg : ((offset.toInt.toNat + value.length : Nat) : Int).bmod (2 ^ 64) < 0 := by
        rw [Int.bmod_def]
        omega
      rw [if_neg (by omega), if_pos (by omega)]
      exact iff_of_false nofun hfit

end

theorem setrange_exact_one : setrangeCommand none (.raw [49]) [97] = .ok (some (some (.string (.raw [0, 97])), .integer 2)) :=
  (@setrange_exact none none (.raw [49]) 1 [97] rfl (by decide) (by decide) (by decide)).2 (by decide)

/-- One byte at the offset `2 ^ 63 - 1`: the end is negative as a `long long` and passes the check. -/
theorem setrange_wraps : ∃ r, setrangeCommand none (.raw (intText (2 ^ 63 - 1))) [97] = .ok (some r) := by
  refine ⟨_, (setrange_run rfl (show _ = some Int64.maxValue by decide +kernel) (by decide) (by decide) (by decide)).trans
    (if_neg (by decide))⟩

end Redis.Strings
