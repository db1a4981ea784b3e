import Redis.AofCut

/-! # Writing the append only file (`aof.c`)

`flushAppendOnlyFile` up to its `fsync`, which does not change the file. What the kernel answers is an
argument: the results of `write` in turn, an error behind the last one, and whether `ftruncate` succeeds.
A short write that is not taken back stays in the file and leaves the buffer, so the file and the buffer
behind it are always what was fed, and a server that dies at any byte leaves a cut file for the loader. -/

namespace Redis.Aof
open List

inductive FsyncPolicy
  | no
  | always
  | everysec
  deriving DecidableEq

inductive WriteResult
  | eintr
  | error
  | wrote (n : Nat)

structure FlushEnv where
  unixtime : Int
  syncInProgress : Bool
  writes : List WriteResult
  ftruncate : Bool

/-- The `aof_` fields of the server, and the bytes of the file. -/
structure Writer where
  file : List UInt8
  buf : List UInt8
  currentSize : Nat
  lastWriteOk : Bool
  flushPostponedStart : Int

/-- The last argument is `totwritten`; the file is opened for appending. -/
def aofWrite : List WriteResult → List UInt8 → List UInt8 → Nat → List UInt8 × Int
  | _, file, [], tot => (file, tot)
  | [], file, _, tot | .error :: _, file, _, tot => (file, if tot = 0 then -1 else tot)
  | .eintr :: rs, file, buf, tot => aofWrite rs file buf tot
  | .wrote n :: rs, file, buf, tot => aofWrite rs (file ++ buf.take n) (buf.drop n) (tot + min n buf.length)

variable (policy : FsyncPolicy) (env : FlushEnv) (w : Writer)

/-- The branch of a write that is not whole; `none` is `exit(1)`. -/
def writeError (nwritten : Int) : Option Writer :=
  if policy = .always then none
  else if nwritten = -1 then some { w with lastWriteOk := false }
  else if env.ftruncate then some { w with file := w.file.take w.currentSize, lastWriteOk := false }
  else some { w with
    lastWriteOk := false, currentSize := w.currentSize + nwritten.toNat, buf := w.buf.drop nwritten.toNat }

def flushAppendOnlyFile (force : Bool) : Option Writer :=
  let wait := policy = .everysec ∧ !force ∧ env.syncInProgress
  if w.buf = [] then some w
  else if wait ∧ w.flushPostponedStart = 0 then some { w with flushPostponedStart := env.unixtime }
  else if wait ∧ env.unixtime - w.flushPostponedStart < 2 then some w
  else
    let (file, nwritten) := aofWrite env.writes w.file w.buf 0
    let w := { w with file, flushPostponedStart := 0 }
    if nwritten ≠ w.buf.length then writeError policy env w nwritten
    else some { w with lastWriteOk := true, currentSize := w.currentSize + w.buf.length, buf := [] }

inductive WriterOp
  /-- `feedAppendOnlyFile` with the command or the transaction that was executed. -/
  | feed (e : Entry)
  | flush (env : FlushEnv) (force : Bool)

def WriterOp.fed : WriterOp → List Entry
  | feed e => [e]
  | flush .. => []

def writerStep (w : Writer) : WriterOp → Option Writer
  | .feed e => some { w with buf := w.buf ++ e.bytes }
  | .flush env force => flushAppendOnlyFile policy env w force

/-- The calls of a server that starts with the file `pre`. -/
def writerRun (pre : List UInt8) (ops : List WriterOp) : Option Writer :=
  ops.foldlM (writerStep policy) ⟨pre, [], pre.length, true, 0⟩

structure Writer.Holds (log : List UInt8) : Prop where
  log : w.file ++ w.buf = log
  size : w.currentSize = w.file.length

/-- The server goes on with everything it was fed, or exits because writes have to be on the disk at once. -/
def Keeps (log : List UInt8) : Option Writer → Prop
  | none => policy = .always
  | some w => w.Holds log

variable {policy env w} {log pre : List UInt8} {es : List Entry}

theorem aofWrite_spec (rs : List WriteResult) (file buf : List UInt8) (tot : Nat) :
    ∃ k ≤ buf.length, (aofWrite rs file buf tot).1 = file ++ buf.take k ∧
      ((aofWrite rs file buf tot).2 = ↑(tot + k) ∨ tot + k = 0 ∧ (aofWrite rs file buf tot).2 = -1) := by
  fun_induction aofWrite rs file buf tot with
  | case1 => exact ⟨0, by simp⟩
  | case2 | case3 => exact ⟨0, by simp; omega⟩
  | case4 _ _ _ _ _ ih => exact ih
  | case5 n rs file buf tot _ ih =>
    obtain ⟨k, hk, hfile, hn⟩ := ih
    rw [length_drop] at hk
    refine ⟨min n buf.length + k, by omega, ?_, by rwa [← Nat.add_assoc]⟩
    rw [hfile, append_assoc, take_add, ← take_eq_take_min, ← drop_eq_drop_min]

/-- The write stopped behind `k` bytes of the buffer. -/
theorem writeError_keeps {file : List UInt8} {k : Nat} {n : Int} (hlog : file ++ w.buf = log)
    (hsize : w.currentSize = file.length) (hfile : w.file = file ++ w.buf.take k) (hk : k ≤ w.buf.length)
    (hn : n = k ∨ k = 0 ∧ n = -1) : Keeps policy log (writeError policy env w n) := by
  unfold writeError
  split_ifs with hpolicy hnone
  · exact hpolicy
  · obtain rfl : k = 0 := by omega
    exact ⟨by simp [hfile, hlog], by simp [hfile, hsize]⟩
  · exact ⟨by simp [hfile, hlog, hsize], by simp [hfile, hsize]⟩
  · obtain rfl : n = k := by omega
    exact ⟨by simp [hfile, hlog], by simp [hfile, hsize, hk]⟩

theorem flushAppendOnlyFile_keeps (force : Bool) (h : w.Holds log) :
    Keeps policy log (flushAppendOnlyFile policy env w force) := by
  obtain ⟨k, hk, hfile, hn⟩ := aofWrite_spec env.writes w.file w.buf 0
  rw [Nat.zero_add] at hn
  unfold flushAppendOnlyFile
  dsimp only
  split_ifs with _ _ _ hlen
  · exact h
  · exact ⟨h.log, h.size⟩
  · exact h
  · exact writeError_keeps h.log h.size hfile hk hn
  · obtain rfl : k = w.buf.length := by omega
    exact ⟨by simp [hfile, h.log], by simp [hfile, h.size]⟩

theorem writerStep_keeps (op : WriterOp) (h : w.Holds (pre ++ fileOf es)) :
    Keeps policy (pre ++ fileOf (es ++ op.fed)) (writerStep policy w op) := by
  cases op with
  | feed e => exact ⟨by simp [fileOf, WriterOp.fed, ← append_assoc, h.log], h.size⟩
  | flush env force =>
    rw [WriterOp.fed, append_nil]
    exact flushAppendOnlyFile_keeps force h

theorem foldlM_keeps (pre : List UInt8) (es : List Entry) (ops : List WriterOp) (h : w.Holds (pre ++ fileOf es)) :
    Keeps policy (pre ++ fileOf (es ++ ops.flatMap WriterOp.fed)) (ops.foldlM (writerStep policy) w) := by
  induction ops generalizing w es with
  | nil =>
    rw [flatMap_nil, append_nil]
    exact h
  | cons op ops ih =>
    rw [foldlM_cons, flatMap_cons, ← append_assoc]
    have hstep : Keeps policy _ _ := writerStep_keeps op h
    cases hs : writerStep policy w op with
    | none =>
      rw [hs] at hstep
      exact hstep
    | some v =>
      rw [hs] at hstep
      exact ih _ hstep

/-- Whatever the kernel answers, the file with the buffer behind it is what the server was fed. -/
theorem writerRun_keeps (policy : FsyncPolicy) (pre : List UInt8) (ops : List WriterOp) :
    Keeps policy (pre ++ fileOf (ops.flatMap WriterOp.fed)) (writerRun policy pre ops) :=
  foldlM_keeps pre [] ops ⟨rfl, rfl⟩

/-- A server that is killed after any call, or in a `write` after `k` bytes: the loader finds the dataset of the
entries that are whole in the file, all of them if the buffer was written. -/
theorem writerRun_recovers {σ : Type} (srv : Server σ) (htr : srv.aofLoadTruncated = true) (pre : List UInt8) (d : σ)
    (hpre : Preamble srv pre d) (policy : FsyncPolicy) (ops : List WriterOp) (es : List Entry)
    (hes : ops.flatMap WriterOp.fed = es) (hok : ∀ e ∈ es, e.Ok srv) (w : Writer)
    (hrun : writerRun policy pre ops = some w) (k n : Nat) (hn : pre.length + n = w.file.length + k)
    (hcut : cutOk (!pre.isEmpty) es n = true) :
    (∃ ret, loadAppendOnlyFile srv (w.file ++ w.buf.take k) =
      some (ret, (whole es n).foldl (Entry.apply srv) d, pre ++ fileOf (whole es n))) ∧
    (w.buf.length ≤ k → whole es n = es) := by
  have h : Keeps policy _ (writerRun policy pre ops) := foldlM_keeps pre [] ops ⟨rfl, rfl⟩
  rw [hrun, nil_append, hes] at h
  have hfile : w.file ++ w.buf.take k = pre ++ (fileOf es).take n := by
    rw [← take_length_add_append, h.log, ← hn, take_length_add_append]
  rw [hfile]
  refine ⟨loadAppendOnlyFile_cutOk hpre htr hok hcut, fun hk => whole_of_le ?_⟩
  have hlen := congrArg length h.log
  rw [length_append, length_append] at hlen
  omega

/-- Of a transaction and a command, 43 bytes are written and cannot be taken back, and the server is killed two
bytes later, inside the command: the transaction is found. -/
theorem writerRun_recovers_short :
    let es := [Entry.transaction multiName [[[120]]] execName, .command [[121]]]
    ∃ w, writerRun .everysec [] (es.map .feed ++ [.flush ⟨0, false, [.wrote 43], false⟩ false]) = some w ∧
      w.file.length = 43 ∧ w.buf.length = 8 ∧
      ∃ ret, loadAppendOnlyFile logServer (w.file ++ w.buf.take 2) = some (ret, [[[120]]], fileOf (es.take 1)) := by
  intro es
  have hplain : ∀ b : UInt8, PlainCmd logServer [[b]] := fun b =>
    ⟨cmdOk_name (by simp), by simp [lookupCommand, logServer]⟩
  have hok : ∀ e ∈ es, e.Ok logServer :=
    forall_mem_cons.2 ⟨⟨rfl, fun cmd h => mem_singleton.1 h ▸ hplain 120, rfl⟩, forall_mem_singleton.2 (hplain 121)⟩
  refine ⟨_, rfl, rfl, rfl, (writerRun_recovers logServer rfl [] [] .none .everysec
    (es.map .feed ++ [.flush ⟨0, false, [.wrote 43], false⟩ false]) es rfl hok _ rfl 2 45 rfl ?_).1⟩
  decide

end Redis.Aof
