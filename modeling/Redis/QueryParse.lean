import Redis.QueryBuffer

/-! # Requests survive every cutting of the stream

The bytes a client sends are the RESP form of its requests. What `querybuf` holds from `qb_pos` on,
followed by what is still in the socket, is at every moment the RESP form of what is not parsed
yet: the invariant `Pending` says so for each position the parser can stop at. -/

namespace Redis.Input

open List

variable {l rest rest' tail : List UInt8} {cmd : List (List UInt8)} {flags : Flags}

def header (tag : UInt8) (n : Nat) : List UInt8 := tag :: lltoa n

def crlf : List UInt8 := [13, 10]

def respArg (a : List UInt8) : List UInt8 := header 36 a.length ++ crlf ++ (a ++ crlf)

def respRequest (cmd : List (List UInt8)) : List UInt8 := header 42 cmd.length ++ crlf ++ cmd.flatMap respArg

def respStream (cmds : List (List (List UInt8))) : List UInt8 := cmds.flatMap respRequest

theorem respStream_cons (cmd : List (List UInt8)) (cmds : List (List (List UInt8))) :
    respStream (cmd :: cmds) = header 42 cmd.length ++ crlf ++ (cmd.flatMap respArg ++ respStream cmds) := by
  rw [respStream, flatMap_cons, respRequest, append_assoc]
  rfl

/-- A request that respects the limits of the protocol. -/
structure RequestOk (cfg : Config) (cmd : List (List UInt8)) : Prop where
  nonempty : cmd ≠ []
  count : cmd.length ≤ 1024 * 1024
  bulk : ∀ a ∈ cmd, a.length ≤ cfg.protoMaxBulkLen

/-! ### Header lines -/

theorem header_eq (tag : UInt8) (n : Nat) : header tag n = tag :: decDigits 20 n := by
  rw [header, lltoa, if_neg (by omega), Int.natAbs_natCast]

theorem header_length (tag : UInt8) (n : Nat) : 0 < (header tag n).length ∧ (header tag n).length ≤ 21 := by
  have := decDigits_length_le 20 n
  rw [header_eq, length_cons]
  omega

theorem not_mem_header {tag b : UInt8} (n : Nat) (htag : tag ≠ b) (hb : b.toNat < 48) : b ∉ header tag n := by
  rw [header_eq, mem_cons, not_or]
  refine ⟨Ne.symm htag, fun hmem => ?_⟩
  have := isDigit_of_mem_decDigits hmem
  omega

theorem unparsed_advance (c : Client) (n : Nat) {u : List UInt8} (h : c.unparsed = l ++ u) (hl : l.length = n) :
    c.querybuf.drop (c.qbPos + n) = u := by
  rw [← drop_drop]
  change c.unparsed.drop n = u
  rw [h, ← hl, drop_left]

/-- A header line is whole in the buffer, and its number is read, or the parser waits for more. -/
theorem findLine_header (c : Client) {tag : UInt8} {n : Nat} (htag : tag ≠ 13 ∧ tag ≠ 0) (hn : n < 2 ^ 63)
    (h : c.unparsed ++ rest = header tag n ++ crlf ++ tail) :
    (∃ k, findLine c.unparsed = .found k ∧ c.unparsed.head? = some tag ∧ lineNumber c.unparsed k = some (n : Int) ∧
        c.querybuf.drop (c.qbPos + k + 2) ++ rest = tail) ∨ (findLine c.unparsed = .wait ∧ rest ≠ []) := by
  have hcr : (13 : UInt8) ∉ header tag n := not_mem_header n htag.1 (by decide)
  have hnul : (0 : UInt8) ∉ header tag n := not_mem_header n htag.2 (by decide)
  have hlen := header_length tag n
  rcases Nat.lt_or_ge c.unparsed.length ((header tag n).length + 2) with hlt | hge
  · -- the line is cut: before its CR, or between CR and LF
    have hcut : c.unparsed <+: header tag n ++ [13] :=
      prefix_of_prefix_length_le ⟨rest, h⟩ ⟨10 :: tail, by simp [crlf]⟩ (by simp; omega)
    refine .inr ⟨?_, ?_⟩
    · rcases prefix_concat_iff.1 hcut with hu | hu
      · rw [hu, findLine, strchr_append _ hcr hnul]
        exact if_pos (by simp; omega)
      · have := hu.length_le
        rw [findLine, strchr_eq_none fun hmem => hcr (hu.subset hmem)]
        exact if_neg (by rw [protoInlineMaxSize]; omega)
    · rintro rfl
      have := congrArg length h
      simp only [crlf, length_append, length_cons, length_nil] at this
      omega
  · obtain ⟨u, hu⟩ : header tag n ++ crlf <+: c.unparsed :=
      prefix_of_prefix_length_le ⟨tail, h.symm⟩ ⟨rest, rfl⟩ (by simpa [crlf] using hge)
    have hline : c.unparsed = header tag n ++ 13 :: 10 :: u := by rw [← hu, append_assoc]; rfl
    refine .inl ⟨(header tag n).length, ?_, ?_, ?_, ?_⟩
    · rw [hline, findLine, strchr_append _ hcr hnul]
      exact if_neg (by simp; omega)
    · rw [hline]
      rfl
    · rw [hline, lineNumber, take_left, header_eq, drop_one, string2ll_eq]
      exact lpStringToInt64_decDigits hn
    · rw [add_assoc, unparsed_advance c _ hu.symm (by simp [crlf])]
      exact append_cancel_left ((append_assoc ..).symm.trans (hu ▸ h))

/-! ### Where the parser stops -/

structure Kept (c c' : Client) : Prop where
  flags : c'.flags = c.flags
  errors : c'.errors = c.errors
  handed : c'.handed = c.handed
  freed : c'.freed = c.freed

theorem Kept.refl (c : Client) : Kept c c := ⟨rfl, rfl, rfl, rfl⟩

theorem Kept.trans {c'' : Client} (h : Kept c c') (h' : Kept c' c'') : Kept c c'' :=
  ⟨h'.flags.trans h.flags, h'.errors.trans h.errors, h'.handed.trans h.handed, h'.freed.trans h.freed⟩

/-- Within a request, in front of the length of its next argument; `tail` follows the request. -/
structure AtLen (c : Client) (rest : List UInt8) (done todo : List (List UInt8)) (tail : List UInt8) : Prop where
  reqtype : c.reqtype = .multibulk
  argv : c.argv = done
  left : c.multibulklen = todo.length
  bulklen : c.bulklen = -1
  bytes : c.unparsed ++ rest = todo.flatMap respArg ++ tail

/-- Within a request, in front of the argument `a`. -/
structure AtArg (c : Client) (rest : List UInt8) (done : List (List UInt8)) (a : List UInt8)
    (todo : List (List UInt8)) (tail : List UInt8) : Prop where
  reqtype : c.reqtype = .multibulk
  argv : c.argv = done
  left : c.multibulklen = todo.length + 1
  bulklen : c.bulklen = a.length
  bytes : c.unparsed ++ rest = a ++ crlf ++ (todo.flatMap respArg ++ tail)

inductive Inside (c : Client) (rest : List UInt8) (done : List (List UInt8)) :
    List (List UInt8) → List UInt8 → Prop
  | atLen {todo : List (List UInt8)} {tail : List UInt8} : AtLen c rest done todo tail → Inside c rest done todo tail
  | atArg {a : List UInt8} {todo : List (List UInt8)} {tail : List UInt8} :
      AtArg c rest done a todo tail → Inside c rest done (a :: todo) tail

structure Between (c : Client) (rest : List UInt8) (cmds : List (List (List UInt8))) : Prop where
  reqtype : c.reqtype ≠ .inline
  argv : c.argv = []
  left : c.multibulklen = 0
  bulklen : c.bulklen = -1
  bytes : c.unparsed ++ rest = respStream cmds

/-- The requests `cmds` are not handed over yet, and `rest` is not read yet. -/
inductive Pending (c : Client) (rest : List UInt8) : List (List (List UInt8)) → Prop
  | between {cmds : List (List (List UInt8))} : Between c rest cmds → Pending c rest cmds
  | inside {done todo : List (List UInt8)} {cmds : List (List (List UInt8))} : todo ≠ [] →
      Inside c rest done todo (respStream cmds) → Pending c rest ((done ++ todo) :: cmds)
  | ended : c.unparsed ++ rest = [] → Pending c rest []

variable {cfg : Config} {c c' : Client} {a : List UInt8} {done todo : List (List UInt8)}
  {cmds : List (List (List UInt8))}

theorem Pending.moved (h : Pending c rest cmds) (hreq : c'.reqtype = c.reqtype) (hargv : c'.argv = c.argv)
    (hleft : c'.multibulklen = c.multibulklen) (hlen : c'.bulklen = c.bulklen)
    (hbytes : c'.unparsed ++ rest' = c.unparsed ++ rest) : Pending c' rest' cmds := by
  cases h with
  | between h =>
    exact .between ⟨hreq ▸ h.reqtype, hargv ▸ h.argv, hleft ▸ h.left, hlen ▸ h.bulklen, hbytes ▸ h.bytes⟩
  | inside htodo h =>
    refine .inside htodo ?_
    cases h with
    | atLen h => exact .atLen ⟨hreq ▸ h.reqtype, hargv ▸ h.argv, hleft ▸ h.left, hlen ▸ h.bulklen, hbytes ▸ h.bytes⟩
    | atArg h => exact .atArg ⟨hreq ▸ h.reqtype, hargv ▸ h.argv, hleft ▸ h.left, hlen ▸ h.bulklen, hbytes ▸ h.bytes⟩
  | ended h => exact .ended (hbytes ▸ h)

/-! ### One argument -/

theorem readBulkLen_spec (h : AtLen c rest done (a :: todo) tail) (ha : a.length ≤ cfg.protoMaxBulkLen) :
    (∃ c', readBulkLen cfg c = (.go, c') ∧ AtArg c' rest done a todo tail ∧ Kept c c') ∨
      (readBulkLen cfg c = (.err, c) ∧ rest ≠ []) := by
  have hbytes : c.unparsed ++ rest = header 36 a.length ++ crlf ++ (a ++ crlf ++ (todo.flatMap respArg ++ tail)) := by
    rw [h.bytes, flatMap_cons, respArg]
    simp
  unfold readBulkLen
  rw [if_neg (by simp [h.bulklen])]
  rcases findLine_header c (by decide) (ha.trans_lt cfg.bulkLen_lt) hbytes with
    ⟨k, hfound, hhead, hnum, hrest⟩ | ⟨hwait, hrest⟩
  · rw [hfound]
    dsimp only
    rw [if_neg (by simp [hhead]), hnum]
    dsimp only
    rw [if_neg (by omega)]
    refine .inl ⟨_, rfl, ?_, ?_⟩
    · split <;> exact ⟨h.reqtype, h.argv, h.left, rfl, hrest⟩
    · split <;> exact ⟨rfl, rfl, rfl, rfl⟩
  · rw [hwait]
    exact .inr ⟨rfl, hrest⟩

theorem readBulkArg_spec (h : AtArg c rest done a todo tail) :
    (∃ c', readBulkArg c = (.go, c') ∧ AtLen c' rest (done ++ [a]) todo tail ∧ Kept c c') ∨
      (readBulkArg c = (.err, c) ∧ rest ≠ []) := by
  have hlen := congrArg length h.bytes
  simp only [length_append, crlf, length_cons, length_nil] at hlen
  unfold readBulkArg
  split
  next hshort =>
    rw [h.bulklen] at hshort
    refine .inr ⟨rfl, ?_⟩
    rintro rfl
    simp only [length_nil] at hlen
    omega
  next hlong =>
    rw [h.bulklen] at hlong
    -- the argument and its CRLF are in the buffer
    obtain ⟨u', hu⟩ : a ++ crlf <+: c.unparsed :=
      prefix_of_prefix_length_le ⟨_, h.bytes.symm⟩ ⟨rest, rfl⟩ (by simp [crlf]; omega)
    have hrest : u' ++ rest = todo.flatMap respArg ++ tail :=
      append_cancel_left ((append_assoc ..).symm.trans (hu ▸ h.bytes))
    refine .inl ?_
    split
    next hbig =>
      obtain ⟨hpos, -, hall⟩ := hbig
      rw [h.bulklen] at hall
      have hbuf : c.querybuf = a ++ crlf ++ u' := by rw [hu, Client.unparsed, hpos, drop_zero]
      have hnil : u' = [] := by
        have := congrArg length hbuf
        simp only [length_append, crlf, length_cons, length_nil] at this
        exact eq_nil_of_length_eq_zero (by omega)
      refine ⟨_, rfl, ⟨h.reqtype, ?_, ?_, rfl, ?_⟩, ⟨rfl, rfl, rfl, rfl⟩⟩
      · have htake : c.querybuf.take (c.querybuf.length - 2) = a := by
          rw [show c.querybuf.length - 2 = a.length by omega, hbuf, append_assoc, take_left]
        exact congrArg₂ _ h.argv (congrArg (· :: []) htake)
      · exact Nat.sub_eq_of_eq_add h.left
      · rw [← hrest, hnil]
        simp [Client.unparsed]
    · refine ⟨_, rfl, ⟨h.reqtype, ?_, ?_, rfl, ?_⟩, ⟨rfl, rfl, rfl, rfl⟩⟩
      · have htake : c.unparsed.take c.bulklen.toNat = a := by
          rw [h.bulklen, Int.toNat_natCast, ← hu, append_assoc, take_left]
        exact congrArg₂ _ h.argv (congrArg (· :: []) htake)
      · exact Nat.sub_eq_of_eq_add h.left
      · rw [← hrest]
        refine congrArg (· ++ rest) ?_
        rw [h.bulklen, add_assoc]
        exact unparsed_advance c _ hu.symm (by simp [crlf])

/-! ### One request -/

theorem readBulkLen_inside (h : Inside c rest done (a :: todo) tail) (ha : a.length ≤ cfg.protoMaxBulkLen) :
    (∃ c', readBulkLen cfg c = (.go, c') ∧ AtArg c' rest done a todo tail ∧ Kept c c') ∨
      (readBulkLen cfg c = (.err, c) ∧ rest ≠ []) := by
  cases h with
  | atLen h => exact readBulkLen_spec h ha
  | atArg h => exact .inl ⟨c, if_pos (by rw [h.bulklen]; omega), h, .refl c⟩

theorem readArgs_spec (h : Inside c rest done todo tail) (hok : ∀ a ∈ todo, a.length ≤ cfg.protoMaxBulkLen) :
    (∃ c', readArgs cfg todo.length c = (.ok, c') ∧ AtLen c' rest (done ++ todo) [] tail ∧ Kept c c') ∨
      (∃ c' done' todo', readArgs cfg todo.length c = (.err, c') ∧ done' ++ todo' = done ++ todo ∧ todo' ≠ [] ∧
        Inside c' rest done' todo' tail ∧ Kept c c' ∧ rest ≠ []) := by
  induction todo generalizing c done with
  | nil =>
    cases h with
    | atLen h => exact .inl ⟨c, rfl, by rwa [append_nil], .refl c⟩
  | cons a todo ih =>
    rw [length_cons, readArgs]
    rcases readBulkLen_inside h (hok a (.head _)) with ⟨c₁, hlen, h₁, hk₁⟩ | ⟨hlen, hrest⟩
    · rw [hlen]
      dsimp only
      rcases readBulkArg_spec h₁ with ⟨c₂, harg, h₂, hk₂⟩ | ⟨harg, hrest⟩
      · rw [harg]
        have hih := ih (.atLen h₂) fun b hb => hok b (.tail _ hb)
        rw [append_assoc] at hih
        rcases hih with ⟨c', hres, h', hk⟩ | ⟨c', done', todo', hres, hsplit, hne, h', hk, hrest⟩
        · exact .inl ⟨c', hres, h', (hk₁.trans hk₂).trans hk⟩
        · exact .inr ⟨c', done', todo', hres, hsplit, hne, h', (hk₁.trans hk₂).trans hk, hrest⟩
      · rw [harg]
        exact .inr ⟨c₁, done, a :: todo, rfl, rfl, cons_ne_nil _ _, .atArg h₁, hk₁, hrest⟩
    · rw [hlen]
      exact .inr ⟨c, done, a :: todo, rfl, rfl, cons_ne_nil _ _, h, .refl c, hrest⟩

theorem readMultibulkLen_spec (hreq : c.reqtype = .multibulk) (h : Between c rest (cmd :: cmds))
    (hok : RequestOk cfg cmd) :
    (∃ c', readMultibulkLen c = some (.go, c') ∧ AtLen c' rest [] cmd (respStream cmds) ∧ Kept c c') ∨
      (readMultibulkLen c = some (.err, c) ∧ rest ≠ []) := by
  have hpos := length_pos_iff.2 hok.nonempty
  have hcount := hok.count
  have hbytes : c.unparsed ++ rest = header 42 cmd.length ++ crlf ++ (cmd.flatMap respArg ++ respStream cmds) := by
    rw [h.bytes, respStream_cons]
  unfold readMultibulkLen
  rw [if_neg (by simp [h.argv])]
  rcases findLine_header c (by decide) (by omega) hbytes with ⟨k, hfound, hhead, hnum, hrest⟩ | ⟨hwait, hrest⟩
  · rw [hfound]
    dsimp only
    rw [if_neg (by simp [hhead]), hnum]
    dsimp only
    rw [if_neg (by omega), if_neg (by omega)]
    exact .inl ⟨_, rfl, ⟨hreq, h.argv, Int.toNat_natCast _, h.bulklen, hrest⟩, ⟨rfl, rfl, rfl, rfl⟩⟩
  · rw [hwait]
    exact .inr ⟨rfl, hrest⟩

theorem setReqType_of_multibulk (h : c.reqtype = .multibulk) : c.setReqType = c := if_neg (by simp [h])

theorem Inside.reqtype (h : Inside c rest done todo tail) : c.reqtype = .multibulk := by
  cases h with
  | atLen h | atArg h => exact h.reqtype

theorem Inside.left (h : Inside c rest done todo tail) : c.multibulklen = todo.length := by
  cases h with
  | atLen h | atArg h => exact h.left

theorem Between.setReqType (h : Between c rest (cmd :: cmds)) (hu : c.unparsed ≠ []) :
    Between c.setReqType rest (cmd :: cmds) ∧ c.setReqType.reqtype = .multibulk ∧ Kept c c.setReqType := by
  have hhead : c.unparsed.head? = some 42 := by
    have hbytes := h.bytes
    cases hcu : c.unparsed with
    | nil => exact absurd hcu hu
    | cons b u =>
      rw [hcu, respStream_cons] at hbytes
      exact congrArg some (cons.inj hbytes).1
  unfold Client.setReqType
  split
  · exact ⟨⟨by simp, h.argv, h.left, h.bulklen, h.bytes⟩, rfl, ⟨rfl, rfl, rfl, rfl⟩⟩
  next hknown =>
    refine ⟨h, ?_, .refl c⟩
    cases hr : c.reqtype with
    | unknown => exact absurd hr hknown
    | inline => exact absurd hr h.reqtype
    | multibulk => rfl

theorem processRequest_spec (h : Pending c rest cmds) (hu : c.unparsed ≠ []) (hok : ∀ cmd ∈ cmds, RequestOk cfg cmd) :
    (∃ cmd cmds' c', cmds = cmd :: cmds' ∧ processRequest cfg c.setReqType = some (.ok, c') ∧
        AtLen c' rest cmd [] (respStream cmds') ∧ Kept c c') ∨
      (∃ c', processRequest cfg c.setReqType = some (.err, c') ∧ Pending c' rest cmds ∧ Kept c c' ∧ rest ≠ []) := by
  cases h with
  | ended h => exact absurd (append_eq_nil_iff.1 h).1 hu
  | inside htodo h =>
    rename_i done todo cmds
    have hmb : c.multibulklen ≠ 0 := by rw [h.left]; exact fun h0 => htodo (eq_nil_of_length_eq_zero h0)
    rw [setReqType_of_multibulk h.reqtype, processRequest, if_neg (by simp [h.reqtype]), processMultibulkBuffer,
      if_neg hmb, h.left]
    have hbulk : ∀ a ∈ todo, a.length ≤ cfg.protoMaxBulkLen :=
      fun a ha => (hok _ (.head _)).bulk a (mem_append_right _ ha)
    rcases readArgs_spec h hbulk with ⟨c', hres, h', hk⟩ | ⟨c', done', todo', hres, hsplit, hne, h', hk, hrest⟩
    · exact .inl ⟨_, cmds, c', rfl, congrArg some hres, h', hk⟩
    · exact .inr ⟨c', congrArg some hres, hsplit ▸ .inside hne h', hk, hrest⟩
  | between h =>
    rcases cmds with - | ⟨cmd, cmds⟩
    · exact absurd (append_eq_nil_iff.1 h.bytes).1 hu
    have hcmd := hok _ (.head _)
    obtain ⟨hb, hreq, hk₀⟩ := h.setReqType hu
    rw [processRequest, if_neg (by simp [hreq]), processMultibulkBuffer, if_pos hb.left]
    rcases readMultibulkLen_spec hreq hb hcmd with ⟨c₁, hlen, h₁, hk₁⟩ | ⟨hlen, hrest⟩
    · rw [hlen]
      dsimp only
      rw [h₁.left]
      rcases readArgs_spec (.atLen h₁) hcmd.bulk with
        ⟨c', hres, h', hk⟩ | ⟨c', done', todo', hres, hsplit, hne, h', hk, hrest⟩
      · exact .inl ⟨cmd, cmds, c', rfl, congrArg some hres, h', (hk₀.trans hk₁).trans hk⟩
      · refine .inr ⟨c', congrArg some hres, ?_, (hk₀.trans hk₁).trans hk, hrest⟩
        have hp := Pending.inside hne h'
        rwa [hsplit] at hp
    · rw [hlen]
      exact .inr ⟨_, rfl, .between hb, hk₀, hrest⟩

theorem Pending.longer (h : Pending c rest (cmd :: cmds)) : (respStream cmds).length < (c.unparsed ++ rest).length := by
  have hcr : crlf.length = 2 := rfl
  cases h with
  | between h =>
    rw [h.bytes, respStream_cons]
    simp [hcr]
    omega
  | inside htodo h =>
    rename_i done todo
    cases h with
    | atLen h =>
      rcases todo with - | ⟨a, todo⟩
      · exact absurd rfl htodo
      rw [h.bytes, flatMap_cons, respArg]
      simp [hcr]
      omega
    | atArg h =>
      rw [h.bytes]
      simp [hcr]
      omega

/-! ### The loop over requests -/

/-- No request frees the client, and after every request but the last the loop goes on: none is
`QUIT`, blocks the client, pauses it or has it closed. -/
def Proceeds (cfg : Config) : Flags → List (List (List UInt8)) → List (List (List UInt8)) → Prop
  | _, _, [] => True
  | f, handed, cmd :: cmds => f.stops = false ∧
      (strcaseeq (cmd.headD []) quitName = true → cmds = []) ∧
      (strcaseeq (cmd.headD []) quitName = false →
        ∃ f', cfg.call handed cmd f = some f' ∧ Proceeds cfg f' (handed ++ [cmd]) cmds)

theorem setReploff_kept (c : Client) : Kept c c.setReploff ∧ c.setReploff.unparsed = c.unparsed := by
  unfold Client.setReploff
  split <;> exact ⟨⟨rfl, rfl, rfl, rfl⟩, rfl⟩

theorem afterCommand_kept (c : Client) : Kept c (afterCommand c) ∧ (afterCommand c).unparsed = c.unparsed := by
  have h := setReploff_kept c
  unfold afterCommand
  split
  · exact ⟨h.1.trans ⟨rfl, rfl, rfl, rfl⟩, h.2⟩
  · exact h

theorem stops_of_blocked {f : Flags} (h : f.blocked = true) : f.stops = true := by simp [Flags.stops, h]

theorem afterCommand_pending (hproc : Proceeds cfg c.flags c.handed cmds)
    (hbytes : c.unparsed ++ rest = respStream cmds) : Pending (afterCommand c) rest cmds := by
  have hb : (afterCommand c).unparsed ++ rest = respStream cmds := by rw [(afterCommand_kept c).2, hbytes]
  by_cases hblock : c.flags.blocked = true
  · cases cmds with
    | nil => exact .ended hb
    | cons cmd cmds => exact absurd (stops_of_blocked hblock) (by rw [hproc.1]; simp)
  · have hreset : afterCommand c = c.setReploff.resetClient := if_pos (by simp [hblock])
    rw [hreset] at hb ⊢
    exact .between ⟨by simp [Client.resetClient], rfl, rfl, rfl, hb⟩

theorem processCommand_spec (hargv : c.argv = cmd) (hproc : Proceeds cfg c.flags c.handed (cmd :: cmds))
    (hbytes : c.unparsed ++ rest = respStream cmds) :
    ∃ c', (processCommand cfg c = (.err, c') ∨ ∃ c₁, processCommand cfg c = (.ok, c₁) ∧ c' = afterCommand c₁) ∧
      c'.unparsed = c.unparsed ∧ c'.handed = c.handed ++ [cmd] ∧ c'.errors = c.errors ∧ c'.freed = c.freed ∧
      Pending c' rest cmds ∧ Proceeds cfg c'.flags c'.handed cmds := by
  subst hargv
  unfold processCommand
  by_cases hquit : strcaseeq (c.argv.headD []) quitName = true
  · rw [if_pos hquit]
    obtain rfl := hproc.2.1 hquit
    exact ⟨_, .inl rfl, rfl, rfl, rfl, rfl, .ended hbytes, trivial⟩
  obtain ⟨f', hcall, hproc'⟩ := hproc.2.2 (by simpa using hquit)
  rw [if_neg hquit, hcall]
  have hk := afterCommand_kept { c with handed := c.handed ++ [c.argv], flags := f' }
  refine ⟨_, .inr ⟨_, rfl, rfl⟩, hk.2, hk.1.handed, hk.1.errors, hk.1.freed, afterCommand_pending hproc' hbytes, ?_⟩
  rw [hk.1.flags, hk.1.handed]
  exact hproc'

/-- The client has handed over all of the requests `all` but `later`, and can go on with them. -/
structure Carries (cfg : Config) (all : List (List (List UInt8))) (c : Client) (rest : List UInt8)
    (later : List (List (List UInt8))) : Prop where
  split : all = c.handed ++ later
  errors : c.errors = []
  freed : c.freed = false
  pending : Pending c rest later
  proceeds : Proceeds cfg c.flags c.handed later

variable {all later : List (List (List UInt8))}

theorem Carries.kept (h : Carries cfg all c rest later) (hk : Kept c c') (hp : Pending c' rest' later) :
    Carries cfg all c' rest' later :=
  ⟨hk.handed ▸ h.split, hk.errors.trans h.errors, hk.freed.trans h.freed, hp, by
    rw [hk.flags, hk.handed]
    exact h.proceeds⟩

theorem processInputLoop_spec {fuel : Nat} (hfuel : c.unparsed.length < fuel) (h : Carries cfg all c rest later)
    (hok : ∀ cmd ∈ all, RequestOk cfg cmd) :
    ∃ c' later', processInputLoop cfg fuel c = some c' ∧ Carries cfg all c' rest later' ∧ (rest = [] → later' = []) := by
  induction fuel generalizing c later with
  | zero => omega
  | succ fuel ih =>
    have hlater : ∀ cmd ∈ later, RequestOk cfg cmd := fun cmd hc => hok cmd (h.split ▸ mem_append_right _ hc)
    rw [processInputLoop]
    split
    next hall =>
      refine ⟨c, later, rfl, h, fun hrest => ?_⟩
      rcases later with - | ⟨cmd, cmds⟩
      · rfl
      have hlong := h.pending.longer
      rw [hrest, Client.unparsed, drop_eq_nil_of_le hall] at hlong
      simp at hlong
    next hmore =>
      have hu : c.unparsed ≠ [] := by
        intro hnil
        rw [Client.unparsed, drop_eq_nil_iff] at hnil
        exact hmore hnil
      split
      next hs =>
        refine ⟨c, later, rfl, h, fun _ => ?_⟩
        cases later with
        | nil => rfl
        | cons cmd cmds => rw [h.proceeds.1] at hs; cases hs
      · rcases processRequest_spec h.pending hu hlater with
          ⟨cmd, cmds, c₁, rfl, hres, h₁, hk₁⟩ | ⟨c₁, hres, h₁, hk₁, hrest⟩
        · rw [hres]
          dsimp only
          have hcmd : c₁.argv ≠ [] := by rw [h₁.argv]; exact (hlater _ (.head _)).nonempty
          have hbytes : c₁.unparsed ++ rest = respStream cmds := h₁.bytes
          have hlt : c₁.unparsed.length < fuel := by
            have hlong := h.pending.longer
            rw [← hbytes, length_append, length_append] at hlong
            omega
          rw [if_neg hcmd]
          obtain ⟨c₂, hnext, hu₂, hhand, herr, hfree, h₂, hproc⟩ :=
            processCommand_spec h₁.argv (by rw [hk₁.flags, hk₁.handed]; exact h.proceeds) hbytes
          have hcarry : Carries cfg all c₂ rest cmds := by
            refine ⟨?_, herr.trans (hk₁.errors.trans h.errors), hfree.trans (hk₁.freed.trans h.freed), h₂, hproc⟩
            rw [h.split, hhand, hk₁.handed, append_assoc, singleton_append]
          obtain ⟨c', later', hloop, hres'⟩ := ih (by rw [hu₂]; exact hlt) hcarry
          refine ⟨c', later', ?_, hres'⟩
          rcases hnext with hnext | ⟨c₃, hnext, rfl⟩
          · rw [hnext]
            dsimp only
            rw [if_neg (by simp [hcarry.freed]), hloop]
          · rw [hnext]
            exact hloop
        · rw [hres]
          exact ⟨c₁, later, rfl, h.kept hk₁ h₁, fun h0 => absurd h0 hrest⟩

/-! ### Reads -/

/-- The invariant of a connection that carries the requests `all`. -/
structure Inv (cfg : Config) (all : List (List (List UInt8))) (s : State) : Prop where
  qbPos : s.client.qbPos = 0
  carries : ∃ later, Carries cfg all s.client s.socket later ∧ (s.socket = [] → later = [])

/-- The read does not take the query buffer over its limit. -/
def UnderLimit (cfg : Config) : Op → State → Prop
  | .data n, s => s.client.querybuf.length + (s.chunk n).length ≤ cfg.clientMaxQuerybufLen
  | _, _ => True

instance (cfg : Config) : (op : Op) → (s : State) → Decidable (UnderLimit cfg op s)
  | .data _, _ => inferInstanceAs (Decidable (_ ≤ _))
  | .again, _ => inferInstanceAs (Decidable True)
  | .error, _ => inferInstanceAs (Decidable True)
  | .closed, _ => inferInstanceAs (Decidable True)

theorem trim_unparsed (c : Client) : c.trim.unparsed = c.unparsed := drop_zero

section
variable (h : Carries cfg all c rest later) (hok : ∀ cmd ∈ all, RequestOk cfg cmd)
include h hok

theorem processInputBuffer_spec :
    ∃ c' later', processInputBuffer cfg c = some c' ∧ Carries cfg all c' rest later' ∧ (rest = [] → later' = []) ∧
      c'.qbPos = 0 := by
  obtain ⟨c', later', hloop, h', hend⟩ := processInputLoop_spec (Nat.lt_succ_self _) h hok
  have hres : processInputBuffer cfg c = some c'.trim := by
    rw [processInputBuffer, hloop, Option.map_some, h'.freed]
    rfl
  refine ⟨c'.trim, later', hres, h'.kept ⟨rfl, rfl, rfl, rfl⟩ ?_, hend, rfl⟩
  exact h'.pending.moved rfl rfl rfl rfl (by rw [trim_unparsed])

theorem processInputBufferAndReplicate_spec :
    ∃ c' later', processInputBufferAndReplicate cfg c = some c' ∧ Carries cfg all c' rest later' ∧
      (rest = [] → later' = []) ∧ c'.qbPos = 0 := by
  obtain ⟨c', later', hres, h', hend, hpos⟩ := processInputBuffer_spec h hok
  unfold processInputBufferAndReplicate
  split
  · rw [hres]
    exact ⟨_, later', rfl, h'.kept ⟨rfl, rfl, rfl, rfl⟩ (h'.pending.moved rfl rfl rfl rfl rfl), hend, hpos⟩
  · exact ⟨c', later', hres, h', hend, hpos⟩

end

theorem readlen_pos (c : Client) : 0 < readlen c := by
  unfold readlen
  split
  · dsimp only
    split
    · omega
    · decide
  · decide

theorem append_unparsed (c : Client) (bytes : List UInt8) (hpos : c.qbPos = 0) :
    (c.append bytes).unparsed = c.unparsed ++ bytes := by
  simp [Client.append, Client.unparsed, hpos]

theorem readQueryFromClient_spec {s : State} {n : Nat} (hI : Inv cfg all s) (hok : ∀ cmd ∈ all, RequestOk cfg cmd)
    (hn : 0 < n) (hlimit : UnderLimit cfg (.data n) s) :
    ∃ s', readQueryFromClient cfg s (.data n) = some s' ∧ Inv cfg all s' ∧ s'.socket.length ≤ s.socket.length - 1 := by
  obtain ⟨later, h, -⟩ := hI.carries
  rw [readQueryFromClient]
  split
  next hnone =>
    refine ⟨s, rfl, hI, ?_⟩
    rcases take_eq_nil_iff.1 hnone with h0 | h0
    · have := readlen_pos s.client
      omega
    · simp [h0]
  next hsome =>
    have hlen := length_pos_iff.2 hsome
    have hsplit : s.chunk n ++ s.socket.drop (s.chunk n).length = s.socket := by
      have hpre : s.chunk n = s.socket.take (s.chunk n).length := by simp [State.chunk]
      conv_lhs => rw [hpre, length_take, min_eq_left (by simp [State.chunk])]
      exact take_append_drop ..
    have hp : Pending (s.client.append (s.chunk n)) (s.socket.drop (s.chunk n).length) later :=
      h.pending.moved rfl rfl rfl rfl (by rw [append_unparsed _ _ hI.qbPos, append_assoc, hsplit])
    have hkept : Kept s.client (s.client.append (s.chunk n)) := ⟨rfl, rfl, rfl, rfl⟩
    rw [if_neg (by simp only [UnderLimit] at hlimit; simp only [Client.append, length_append]; omega)]
    obtain ⟨c', later', hres, h', hend, hpos⟩ :=
      processInputBufferAndReplicate_spec (h.kept hkept hp) hok
    rw [hres]
    refine ⟨_, rfl, ⟨hpos, later', h', hend⟩, ?_⟩
    simp
    omega

theorem init_inv (hproc : Proceeds cfg flags [] all) : Inv cfg all (machine cfg flags (respStream all)).init := by
  have hp : Pending (machine cfg flags (respStream all)).init.client (respStream all) all :=
    .between ⟨by simp [machine], rfl, rfl, rfl, rfl⟩
  refine ⟨rfl, all, ⟨rfl, rfl, rfl, hp, hproc⟩, fun hnil => ?_⟩
  cases all with
  | nil => rfl
  | cons cmd cmds =>
    cases hnil

theorem Inv.finished {s : State} (h : Inv cfg all s) (hs : s.socket = []) :
    s.client.handed = all ∧ s.client.querybuf = [] := by
  obtain ⟨later, hc, hend⟩ := h.carries
  obtain rfl := hend hs
  refine ⟨by rw [hc.split, append_nil], ?_⟩
  have hnil : s.client.unparsed = [] := by
    cases hc.pending with
    | between hb => exact (append_eq_nil_iff.1 hb.bytes).1
    | ended hb => exact (append_eq_nil_iff.1 hb).1
  rwa [Client.unparsed, h.qbPos, drop_zero] at hnil

theorem machine_simulates {input : List UInt8} (hok : ∀ cmd ∈ cmds, RequestOk cfg cmd) :
    (machine cfg flags input).Simulates (fun _ left _ left' => left' = left - 1)
      (fun op s => (∃ n, 0 < n ∧ op = .data n) ∧ UnderLimit cfg op s)
      (fun s left => Inv cfg cmds s ∧ s.socket.length ≤ left) := by
  rintro op s left ⟨hI, hleft⟩ ⟨⟨n, hn, rfl⟩, hlimit⟩
  obtain ⟨s', hread, hI', hlen⟩ := readQueryFromClient_spec hI hok hn hlimit
  refine ⟨s', (), left - 1, ?_, rfl, hI', by omega⟩
  obtain ⟨_, hc, -⟩ := hI.carries
  simp [machine, hc.freed, hread]

theorem left_of_run {ops : List Op} {rs : List Unit} {left left' : Nat}
    (h : Spec.Run (fun (_ : Op) (l : Nat) (_ : Unit) (l' : Nat) => l' = l - 1) ops left rs left') :
    left' = left - ops.length := by
  induction h with
  | nil => rfl
  | cons hs _ ih =>
    rw [ih, length_cons]
    omega

/-- However the stream is cut into reads, the requests are handed over in order, each once, without a
protocol error; once the stream is read all of them are, and the buffer is empty. -/
theorem respStream_delivered (cfg : Config) (flags : Flags) (cmds : List (List (List UInt8)))
    (hok : ∀ cmd ∈ cmds, RequestOk cfg cmd) (hproc : Proceeds cfg flags [] cmds) (ns : List Nat)
    (hns : ∀ n ∈ ns, 0 < n)
    (hlimit : (machine cfg flags (respStream cmds)).Guarded (UnderLimit cfg) (ns.map .data)
      (machine cfg flags (respStream cmds)).init) :
    ∃ s rs, (machine cfg flags (respStream cmds)).run (ns.map .data)
        (machine cfg flags (respStream cmds)).init = some (s, rs) ∧
      s.client.errors = [] ∧ s.client.handed <+: cmds ∧
      (s.socket = [] → s.client.handed = cmds ∧ s.client.querybuf = []) ∧
      ((respStream cmds).length ≤ ns.length → s.socket = []) := by
  have hdata : ∀ op ∈ ns.map Op.data, ∃ n, 0 < n ∧ op = Op.data n := by
    intro op hop
    obtain ⟨n, hn, rfl⟩ := mem_map.1 hop
    exact ⟨n, hns n hn, rfl⟩
  obtain ⟨s, rs, left, hrun, hleft, hI, hlen⟩ :=
    (machine_simulates hok).run ⟨init_inv hproc, le_rfl⟩ (hlimit.and_mem hdata)
  obtain ⟨later, hc, -⟩ := hI.carries
  refine ⟨s, rs, hrun, hc.errors, ⟨later, hc.split.symm⟩, hI.finished, fun hmany => ?_⟩
  have hzero := left_of_run hleft
  rw [length_map] at hzero
  have hinit : (machine cfg flags (respStream cmds)).init.socket = respStream cmds := rfl
  rw [hinit] at hzero
  exact eq_nil_of_length_eq_zero (by omega)

def plainConfig : Config where
  protoMaxBulkLen := 512 * 1024 * 1024
  clientMaxQuerybufLen := 1024 * 1024 * 1024
  call _ _ f := some f
  bulkLen_lt := by decide

def pingName : List UInt8 := [112, 105, 110, 103]

theorem respStream_delivered_cut :
    ∃ s rs, (machine plainConfig {} (respStream [[pingName, [13, 10]], [quitName]])).run ([2, 1, 5, 14, 100].map .data)
        (machine plainConfig {} (respStream [[pingName, [13, 10]], [quitName]])).init = some (s, rs) ∧
      s.client.errors = [] ∧ s.client.handed <+: [[pingName, [13, 10]], [quitName]] ∧
      (s.socket = [] → s.client.handed = [[pingName, [13, 10]], [quitName]] ∧ s.client.querybuf = []) ∧
      ((respStream [[pingName, [13, 10]], [quitName]]).length ≤ 5 → s.socket = []) := by
  refine respStream_delivered plainConfig {} [[pingName, [13, 10]], [quitName]] ?_ ?_ [2, 1, 5, 14, 100] (by decide)
    (Machine.guarded_of_check (by decide))
  · simp only [forall_mem_cons]
    exact ⟨⟨by decide, by decide, by decide⟩, ⟨by decide, by decide, by decide⟩, by simp⟩
  · exact ⟨rfl, by decide, fun _ => ⟨_, rfl, rfl, fun _ => rfl, fun h => absurd h (by decide)⟩⟩

/-- After `QUIT` the rest of the stream stays in the buffer. -/
theorem respStream_after_quit :
    ((machine plainConfig {} (respStream [[quitName], [pingName]])).run [.data 100]
      (machine plainConfig {} (respStream [[quitName], [pingName]])).init).map
        (fun r => (r.1.socket, r.1.client.handed, r.1.client.querybuf)) =
      some ([], [[quitName]], respStream [[pingName]]) := by
  decide

end Redis.Input
