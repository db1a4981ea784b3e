import Redis.AofLoad

/-! # Append only files that end anywhere

The file a server writes is an optional RDB preamble and the entries behind it, single commands and
transactions. When it is cut, the loader finds the whole entries and drops the rest, except that it
forgets the preamble when the cut is in the first entry behind it, and that it leaves the start of a
transaction in the file when the cut is inside one of its commands. -/

namespace Redis.Aof
open List

variable {p s a rest buf : List UInt8} {n : Nat} {f : File}

open Input (header crlf respArg respRequest respStream)

/-! ### Reading a line -/

theorem cut_append {r b : List UInt8} (h : p ++ r = a ++ b) :
    (∃ s, s ≠ [] ∧ p ++ s = a) ∨ ∃ q, p = a ++ q ∧ q ++ r = b := by
  rcases append_eq_append_iff.1 h with ⟨s, ha, hr⟩ | ⟨q, hp, hb⟩
  · by_cases hs : s = []
    · subst hs
      exact .inr ⟨[], by simpa using ha.symm, by simpa using hr⟩
    · exact .inl ⟨s, hs, ha.symm⟩
  · exact .inr ⟨q, hp, hb.symm⟩

theorem line_lf {xs : List UInt8} (hxs : 10 ∉ xs) (hn : xs.length < n) (rest : List UInt8) :
    line n (xs ++ 10 :: rest) = xs ++ [10] := by
  induction xs generalizing n with
  | nil =>
    obtain ⟨n, rfl⟩ := Nat.exists_eq_add_one.2 hn
    rfl
  | cons x xs ih =>
    obtain ⟨n, rfl⟩ := Nat.exists_eq_add_one.2 (Nat.zero_lt_of_lt hn)
    rw [mem_cons, not_or] at hxs
    rw [length_cons] at hn
    rw [cons_append, line, if_neg (Ne.symm hxs.1), ih hxs.2 (by omega), cons_append]

theorem line_all {xs : List UInt8} (hxs : 10 ∉ xs) (hn : xs.length ≤ n) : line n xs = xs := by
  induction xs generalizing n with
  | nil => cases n <;> rfl
  | cons x xs ih =>
    rw [length_cons] at hn
    obtain ⟨n, rfl⟩ := Nat.exists_eq_succ_of_ne_zero (show n ≠ 0 by omega)
    rw [mem_cons, not_or] at hxs
    rw [line, if_neg (Ne.symm hxs.1), ih hxs.2 (by omega)]

section Header

variable {tag : UInt8} {e : Bool}

theorem not_mem_header_cr (htag : tag ≠ 10) (n : Nat) : 10 ∉ header tag n ++ [13] := by
  rw [mem_append, not_or]
  exact ⟨Input.not_mem_header n htag (by decide), by decide⟩

theorem fgets_header (htag : tag ≠ 10) (n : Nat) (rest : List UInt8) :
    fgets ⟨header tag n ++ crlf ++ rest, e⟩ = (some (header tag n ++ crlf), ⟨rest, e⟩) := by
  have hlen := Input.header_length tag n
  have hline : line 127 (header tag n ++ crlf ++ rest) = header tag n ++ crlf := by
    have h := line_lf (not_mem_header_cr htag n) (show _ < 127 by simp; omega) rest
    simpa [crlf] using h
  have hne : header tag n ++ crlf ≠ [] := by simp [crlf]
  simp only [fgets, hline, if_neg hne, drop_left]
  simp [crlf]

theorem fgets_header_cut (htag : tag ≠ 10) {n : Nat} (hp : p ≠ []) (hs : s ≠ [])
    (h : p ++ s = header tag n ++ crlf) : fgets ⟨p, e⟩ = (some p, ⟨[], true⟩) := by
  have hlen := Input.header_length tag n
  have hcr : p <+: header tag n ++ [13] := by
    rcases prefix_concat_iff.1 (⟨s, by simpa [crlf] using h⟩ : p <+: header tag n ++ [13] ++ [10]) with rfl | hcr
    · exact absurd (by simpa [crlf] using h) hs
    · exact hcr
  have hmem : 10 ∉ p := fun hmem => not_mem_header_cr htag n (hcr.subset hmem)
  have hplen : p.length < 127 := hcr.length_le.trans_lt (by simp; omega)
  have hlast : p.getLast? ≠ some 10 := fun hl => hmem (mem_of_getLast? hl)
  simp [fgets, line_all hmem hplen.le, hp, hplen, hlast]

end Header

theorem strtoll_decDigits (hn : n < 2 ^ 63) (hrest : ∀ c ∈ rest.head?, isDigit c = false) :
    (strtoll (decDigits 20 n ++ rest)).1 = n := by
  have hval : digitsVal (decDigits 20 n) = n := digitsVal_decDigits (by decide) (by omega)
  rw [strtoll_digits (decDigits_ne_nil n) (fun d hd => isDigit_of_mem_decDigits hd) hrest (by omega), hval]

/-! ### Reading a command -/

def Short {α : Type} (r : Parsed α) : Prop := ∃ f, r = .readerr f ∧ f.eof = true

theorem Short.bind {α β : Type} {r : Parsed α} (h : Short r) (g : α → File → Parsed β) : Short (r.bind g) := by
  obtain ⟨f, rfl, hf⟩ := h
  exact ⟨f, rfl, hf⟩

theorem fread_left (a rest : List UInt8) (e : Bool) : fread a.length ⟨a ++ rest, e⟩ = (some a, ⟨rest, e⟩) := by
  simp [fread]

theorem fread_short {len : Nat} (h : f.rest.length < len) : fread len f = (none, ⟨[], true⟩) :=
  if_neg (by omega)

def readBulk (len : Nat) (f : File) : Parsed (List UInt8) :=
  match if len = 0 then (some [], f) else fread len f with
  | (none, f) => .readerr f
  | (some arg, f) =>
    match fread 2 f with
    | (none, f) => .readerr f
    | (some _, f) => .value arg f

theorem readArg_eq {f' : File} (h : fgets f = (some buf, f')) (htag : buf.head? = some 36) :
    readArg f = readBulk ((strtoll (buf.drop 1)).1 % 2 ^ 64).toNat f' := by
  unfold readArg
  rw [h]
  simp only [htag, ne_eq, not_true_eq_false, if_false]
  rfl

theorem readBulk_left (a rest : List UInt8) (e : Bool) :
    readBulk a.length ⟨a ++ (crlf ++ rest), e⟩ = .value a ⟨rest, e⟩ := by
  have hfirst : (if a.length = 0 then (some [], ⟨a ++ (crlf ++ rest), e⟩)
      else fread a.length ⟨a ++ (crlf ++ rest), e⟩) = (some a, (⟨crlf ++ rest, e⟩ : File)) := by
    split
    next h0 =>
      rw [length_eq_zero_iff.1 h0]
      rfl
    · exact fread_left ..
  unfold readBulk
  rw [hfirst]
  simp only [show fread 2 ⟨crlf ++ rest, e⟩ = _ from fread_left crlf rest e]

theorem readBulk_short {len : Nat} (h : f.rest.length < len + 2) : Short (readBulk len f) := by
  unfold readBulk
  by_cases h0 : len = 0
  · subst h0
    simp only [if_true, fread_short (show f.rest.length < 2 by omega)]
    exact ⟨_, rfl, rfl⟩
  simp only [if_neg h0]
  by_cases hlt : f.rest.length < len
  · simp only [fread_short hlt]
    exact ⟨_, rfl, rfl⟩
  · simp only [fread, if_pos (show len ≤ f.rest.length by omega), length_drop,
      if_neg (show ¬ 2 ≤ f.rest.length - len by omega)]
    exact ⟨_, rfl, rfl⟩

theorem bulkLen_header {tag : UInt8} (hn : n < 2 ^ 63) :
    ((strtoll ((header tag n ++ crlf).drop 1)).1 % 2 ^ 64).toNat = n := by
  have hval : (strtoll (decDigits 20 n ++ crlf)).1 = n := strtoll_decDigits hn (by simp [crlf]; decide)
  rw [Input.header_eq, cons_append, drop_one, tail_cons]
  omega

theorem readArg_left (ha : a.length < 2 ^ 63) (rest : List UInt8) (e : Bool) :
    readArg ⟨respArg a ++ rest, e⟩ = .value a ⟨rest, e⟩ := by
  rw [respArg, append_assoc _ (a ++ crlf), append_assoc a]
  rw [readArg_eq (fgets_header (by decide) a.length _) rfl, bulkLen_header ha]
  exact readBulk_left ..

theorem readArg_nil (e : Bool) : Short (readArg ⟨[], e⟩) := ⟨_, rfl, rfl⟩

theorem readArg_cut (ha : a.length < 2 ^ 63) (hs : s ≠ []) (h : p ++ s = respArg a) (e : Bool) :
    Short (readArg ⟨p, e⟩) := by
  by_cases hp : p = []
  · rw [hp]
    exact readArg_nil e
  rcases cut_append h with ⟨r, hr, hpr⟩ | ⟨q, rfl, hq⟩
  · have htag : p.head? = some 36 := by
      have hh := congrArg head? hpr
      rwa [head?_append_of_ne_nil _ hp, Input.header_eq] at hh
    rw [readArg_eq (fgets_header_cut (by decide) hp hr hpr) htag]
    exact readBulk_short (by simp)
  · rw [readArg_eq (fgets_header (by decide) a.length q) rfl, bulkLen_header ha]
    have hlen := congrArg length hq
    have := length_pos_iff.2 hs
    simp only [length_append, crlf, length_cons, length_nil] at hlen
    exact readBulk_short (show q.length < a.length + 2 by omega)

variable {cmd : Cmd}

theorem readArgs_left (h : ∀ a ∈ cmd, a.length < 2 ^ 63) (rest : List UInt8) (e : Bool) :
    readArgs cmd.length ⟨cmd.flatMap respArg ++ rest, e⟩ = .value cmd ⟨rest, e⟩ := by
  induction cmd with
  | nil => rfl
  | cons a cmd ih =>
    rw [length_cons, readArgs, flatMap_cons, append_assoc, readArg_left (h a (by simp))]
    simp only [Parsed.bind, ih fun b hb => h b (by simp [hb])]

theorem readArgs_cut (h : ∀ a ∈ cmd, a.length < 2 ^ 63) (hs : s ≠ [])
    (hp : p ++ s = cmd.flatMap respArg) (e : Bool) : Short (readArgs cmd.length ⟨p, e⟩) := by
  induction cmd generalizing p with
  | nil => exact absurd (append_eq_nil_iff.1 hp).2 hs
  | cons a cmd ih =>
    rw [length_cons, readArgs]
    rcases cut_append hp with ⟨r, hr, hpr⟩ | ⟨q, rfl, hq⟩
    · exact (readArg_cut (h a (by simp)) hr hpr e).bind _
    · rw [readArg_left (h a (by simp))]
      exact (ih (fun b hb => h b (by simp [hb])) hq).bind _

/-- What the loader can read back: counts and lengths within the types of the C library's conversions. -/
structure CmdOk (cmd : Cmd) : Prop where
  ne_nil : cmd ≠ []
  argc : cmd.length < 2 ^ 31
  args : ∀ a ∈ cmd, a.length < 2 ^ 63

theorem readCommand_eq {f' : File} (h : fgets f = (some buf, f')) (htag : buf.head? = some 42)
    (hnul : (buf.drop 1).headD 0 ≠ 0) (hn : (strtoll (buf.drop 1)).1 = n) (h1 : 1 ≤ n) (hlt : n < 2 ^ 31) :
    readCommand f = (readArgs n f').bind fun argv f => .value (some argv) f := by
  have hargc : atoi (buf.drop 1) = n := by
    rw [atoi]
    omega
  unfold readCommand
  rw [h]
  simp only [htag, ne_eq, not_true_eq_false, if_false, if_neg hnul, hargc, Int.toNat_natCast]
  rw [if_neg (by omega)]

theorem digits_head_ne {ds : List UInt8} (hne : ds ≠ []) (hd : ∀ d ∈ ds, 48 ≤ d.toNat ∧ d.toNat ≤ 57) :
    (ds ++ rest).headD 0 ≠ 0 := by
  obtain ⟨d, ds, rfl⟩ := exists_cons_of_ne_nil hne
  rintro (rfl : d = 0)
  have := (hd 0 (by simp)).1
  exact absurd this (by decide)

section Command

variable {cmd : Cmd} (hok : CmdOk cmd)

include hok

theorem readCommand_header (rest : List UInt8) (e : Bool) : readCommand ⟨header 42 cmd.length ++ crlf ++ rest, e⟩ =
      (readArgs cmd.length ⟨rest, e⟩).bind fun argv f => .value (some argv) f := by
  have hpos := length_pos_iff.2 hok.ne_nil
  have hlt := hok.argc
  refine readCommand_eq (fgets_header (by decide) _ rest) rfl ?_ ?_ hpos hlt
  · exact digits_head_ne (decDigits_ne_nil _) fun d hd => isDigit_of_mem_decDigits hd
  · exact strtoll_decDigits (by omega) (by simp [crlf]; decide)

theorem readCommand_left (rest : List UInt8) (e : Bool) :
    readCommand ⟨respRequest cmd ++ rest, e⟩ = .value (some cmd) ⟨rest, e⟩ := by
  rw [respRequest, append_assoc, readCommand_header hok, readArgs_left hok.args]
  rfl

theorem readCommand_header_cut (hp : p ≠ []) (hs : s ≠ []) (h : p ++ s = header 42 cmd.length ++ crlf)
    (e : Bool) : Short (readCommand ⟨p, e⟩) := by
  have hpos := length_pos_iff.2 hok.ne_nil
  have hlt := hok.argc
  have hf := fgets_header_cut (e := e) (by decide) hp hs h
  obtain ⟨b, q, rfl⟩ := exists_cons_of_ne_nil hp
  rw [Input.header_eq, cons_append, cons_append, cons.injEq] at h
  obtain ⟨rfl, h⟩ := h
  by_cases hq : q = []
  · subst hq
    unfold readCommand
    rw [hf]
    exact ⟨_, rfl, rfl⟩
  -- The digits that are there, and what is behind them.
  obtain ⟨ds, rest, rfl, hpre, hne, hrest⟩ : ∃ ds rest, q = ds ++ rest ∧ ds <+: decDigits 20 cmd.length ∧ ds ≠ [] ∧
      ∀ c ∈ rest.head?, isDigit c = false := by
    rcases cut_append h with ⟨r, _, hqr⟩ | ⟨rest, rfl, hr⟩
    · exact ⟨q, [], by simp, ⟨r, hqr⟩, hq, by simp⟩
    refine ⟨_, rest, rfl, prefix_rfl, decDigits_ne_nil _, fun c hc => ?_⟩
    rcases rest with - | ⟨d, rest⟩
    · exact absurd hc (by simp)
    obtain rfl : d = 13 := (cons.inj hr).1
    cases hc
    decide
  have hd : ∀ d ∈ ds, 48 ≤ d.toNat ∧ d.toNat ≤ 57 := fun d hd => isDigit_of_mem_decDigits (hpre.subset hd)
  have hval := digitsVal_of_isPrefix (by omega) hpos hpre hne
  have hnum := strtoll_digits hne hd hrest (by omega)
  rw [readCommand_eq hf rfl (digits_head_ne hne hd) (by simpa using congrArg Prod.fst hnum) hval.1 (by omega)]
  obtain ⟨k, hk⟩ := Nat.exists_eq_add_one.2 hval.1
  rw [hk]
  exact ((readArg_nil true).bind _).bind _

theorem readCommand_cut (hp : p ≠ []) (hs : s ≠ []) (h : p ++ s = respRequest cmd) (e : Bool) :
    Short (readCommand ⟨p, e⟩) := by
  rcases cut_append h with ⟨r, hr, hpr⟩ | ⟨q, rfl, hq⟩
  · exact readCommand_header_cut hok hp hr hpr e
  · rw [readCommand_header hok]
    exact (readArgs_cut hok.args hs hq e).bind _

end Command

/-! ### The loop -/

section Loop

variable {σ : Type} (srv : Server σ)

/-- With fuel for every byte that is left, the load ends with `out`. -/
def Ends (file : List UInt8) (l : Loader σ) (out : Option (Ret × σ × List UInt8)) : Prop :=
  ∀ fuel, l.file.rest.length < fuel → afterLoop srv file (loadLoop srv file.length fuel l) = out

/-- A command of its own or in a transaction: known, and neither `MULTI` nor `EXEC`. -/
structure PlainCmd (srv : Server σ) (cmd : Cmd) : Prop where
  ok : CmdOk cmd
  proc : lookupCommand srv (cmd.headD []) = some .other

/-- What a server appends: a command, or a transaction with the names of `MULTI` and `EXEC` as written. -/
inductive Entry
  | command (cmd : Cmd)
  | transaction (multi : List UInt8) (cmds : List Cmd) (exec : List UInt8)

def Entry.cmds : Entry → List Cmd
  | .command cmd => [cmd]
  | .transaction multi cmds exec => [multi] :: (cmds ++ [[exec]])

def Entry.bytes (e : Entry) : List UInt8 := respStream e.cmds

def Entry.apply (srv : Server σ) (d : σ) : Entry → σ
  | .command cmd => srv.call d cmd
  | .transaction _ cmds _ => cmds.foldl srv.call d

def Entry.Ok (srv : Server σ) : Entry → Prop
  | .command cmd => PlainCmd srv cmd
  | .transaction multi cmds exec => lookupCommand srv multi = some .multi ∧ (∀ cmd ∈ cmds, PlainCmd srv cmd) ∧
      lookupCommand srv exec = some .exec

def fileOf (es : List Entry) : List UInt8 := es.flatMap Entry.bytes

/-- The entries that are whole in the first `n` bytes. -/
def whole : List Entry → Nat → List Entry
  | [], _ => []
  | e :: es, n => if e.bytes.length ≤ n then e :: whole es (n - e.bytes.length) else []

/-- No command is cut at byte `n`. -/
def betweenCmds : List Cmd → Nat → Bool
  | _, 0 => true
  | [], _ + 1 => false
  | cmd :: cmds, n + 1 =>
    decide ((respRequest cmd).length ≤ n + 1) && betweenCmds cmds (n + 1 - (respRequest cmd).length)

/-- A cut of the entry at byte `n` is not inside a command behind `MULTI`. -/
def Entry.cutOk (e : Entry) (n : Nat) : Bool :=
  match e with
  | .command _ => true
  | .transaction multi _ _ => decide (n < (respRequest [multi]).length) || betweenCmds e.cmds n

/-- The cut after `n` bytes is not inside a command behind `MULTI`, nor in the first entry when there is a preamble. -/
def cutOk (preamble : Bool) : List Entry → Nat → Bool
  | [], _ => true
  | e :: es, n =>
    if e.bytes.length ≤ n then cutOk false es (n - e.bytes.length) else n = 0 || (!preamble && e.cutOk n)

variable {srv}
variable {file rest name : List UInt8} {v w n : Nat} {out : Option (Ret × σ × List UInt8)} {es : List Entry}
variable {preamble : Bool} {d : σ}

theorem fileOf_cons (e : Entry) (es : List Entry) : fileOf (e :: es) = e.bytes ++ fileOf es := flatMap_cons ..

theorem lookup_name_length {proc : Proc} (h : lookupCommand srv name = some proc) (hne : proc ≠ .other) :
    name.length < 2 ^ 63 := by
  have hlen : ∀ l, name.map Input.tolower = l → name.length = l.length := fun l hl => by rw [← hl, length_map]
  unfold lookupCommand at h
  split at h
  next hname => simp [hlen _ hname]
  · split at h
    next hname => simp [hlen _ hname]
    · split at h <;> simp_all

theorem cmdOk_name (h : name.length < 2 ^ 63) : CmdOk [name] :=
  ⟨by simp, by simp, by simpa using h⟩

theorem betweenCmds_take {cmds : List Cmd} {n : Nat} (h : betweenCmds cmds n = true) :
    ∃ k, (respStream cmds).take n = respStream (cmds.take k) := by
  fun_induction betweenCmds cmds n with
  | case1 => exact ⟨0, rfl⟩
  | case2 => cases h
  | case3 cmd cmds n ih =>
    rw [Bool.and_eq_true, decide_eq_true_eq] at h
    obtain ⟨k, hk⟩ := ih h.2
    refine ⟨k + 1, ?_⟩
    rw [take_succ_cons, respStream, respStream, flatMap_cons, take_append,
      take_of_length_le h.1]
    exact congrArg _ hk

/-- The command that is cut, if one is. -/
theorem not_betweenCmds {cmds : List Cmd} {n : Nat} (h : betweenCmds cmds n = false) (hn : n ≤ (respStream cmds).length) :
    ∃ front cmd back m, cmds = front ++ cmd :: back ∧ 0 < m ∧ m < (respRequest cmd).length ∧
      (respStream cmds).take n = respStream front ++ (respRequest cmd).take m := by
  fun_induction betweenCmds cmds n with
  | case1 => cases h
  | case2 => simp [respStream] at hn
  | case3 cmd cmds n ih =>
    rw [respStream, flatMap_cons] at hn ⊢
    by_cases hle : (respRequest cmd).length ≤ n + 1
    · rw [decide_eq_true hle, Bool.true_and] at h
      rw [length_append] at hn
      obtain ⟨front, cmd', back, m, rfl, hm, hlt, htake⟩ := ih h (by rw [respStream]; omega)
      refine ⟨cmd :: front, cmd', back, m, rfl, hm, hlt, ?_⟩
      rw [take_append, take_of_length_le hle, respStream, flatMap_cons, append_assoc]
      exact congrArg _ htake
    · exact ⟨[], cmd, cmds, n + 1, rfl, by omega, by omega, take_append_of_le_length (by omega)⟩

theorem ends_eof {c : Client σ} : Ends srv file ⟨c, ⟨[], false⟩, v, w⟩
      (if c.multi then unexpectedEof srv file ⟨c, ⟨[], true⟩, v, w⟩ w else some (.ok, c.data, file)) := by
  intro fuel hfuel
  obtain ⟨fuel, rfl⟩ := Nat.exists_eq_add_one.2 hfuel
  rfl

section

variable (htr : srv.aofLoadTruncated = true)

include htr

theorem ends_command {c : Client σ} {proc : Proc} (hok : CmdOk cmd) (hproc : lookupCommand srv (cmd.headD []) = some proc)
    (h : Ends srv file ⟨runCommand srv c proc cmd, ⟨rest, false⟩, file.length - rest.length,
      if proc = .multi then v else w⟩ out) :
    Ends srv file ⟨c, ⟨respRequest cmd ++ rest, false⟩, v, w⟩ out := by
  intro fuel hfuel
  obtain ⟨fuel, rfl⟩ := Nat.exists_eq_add_one.2 (Nat.zero_lt_of_lt hfuel)
  have hpos : 0 < (respRequest cmd).length := Nat.succ_pos _
  simp only [length_append] at hfuel
  rw [← h fuel (show rest.length < fuel by omega), loadLoop]
  simp only [readCommand_left hok, hproc, htr, if_true]

theorem ends_short {l : Loader σ} (h : Short (readCommand l.file)) :
    Ends srv file l (some (.ok, l.client.data, file.take l.validUpTo)) := by
  intro fuel hfuel
  obtain ⟨fuel, rfl⟩ := Nat.exists_eq_add_one.2 (Nat.zero_lt_of_lt hfuel)
  obtain ⟨f, hread, hf⟩ := h
  rw [loadLoop, hread]
  simp [afterLoop, unexpectedEof, hf, htr]

theorem ends_queue {cmds q : List Cmd} (hcmds : ∀ cmd ∈ cmds, PlainCmd srv cmd)
    (h : Ends srv file ⟨⟨d, true, q ++ cmds⟩, ⟨rest, false⟩, file.length - rest.length, w⟩ out) :
    Ends srv file ⟨⟨d, true, q⟩, ⟨respStream cmds ++ rest, false⟩, file.length - (respStream cmds ++ rest).length, w⟩ out := by
  induction cmds generalizing q with
  | nil => simpa [respStream] using h
  | cons cmd cmds ih =>
    have hcmd := hcmds cmd (by simp)
    rw [respStream, flatMap_cons, append_assoc]
    refine ends_command htr hcmd.ok hcmd.proc (ih (fun cmd' h' => hcmds cmd' (by simp [h'])) ?_)
    rw [append_assoc]
    exact h

theorem ends_multi {multi : List UInt8} (hmulti : lookupCommand srv multi = some .multi)
    (h : Ends srv file ⟨⟨d, true, []⟩, ⟨rest, false⟩, file.length - rest.length, v⟩ out) :
    Ends srv file ⟨⟨d, false, []⟩, ⟨respRequest [multi] ++ rest, false⟩, v, w⟩ out :=
  ends_command htr (cmdOk_name (lookup_name_length hmulti (by decide))) hmulti h

theorem ends_exec {exec : List UInt8} {q : List Cmd} (hexec : lookupCommand srv exec = some .exec)
    (h : Ends srv file ⟨⟨q.foldl srv.call d, false, []⟩, ⟨rest, false⟩, file.length - rest.length, w⟩ out) :
    Ends srv file ⟨⟨d, true, q⟩, ⟨respRequest [exec] ++ rest, false⟩, v, w⟩ out :=
  ends_command htr (cmdOk_name (lookup_name_length hexec (by decide))) hexec h

theorem ends_entry {e : Entry} (hok : e.Ok srv)
    (h : ∀ w, Ends srv file ⟨⟨e.apply srv d, false, []⟩, ⟨rest, false⟩, file.length - rest.length, w⟩ out) :
    Ends srv file ⟨⟨d, false, []⟩, ⟨e.bytes ++ rest, false⟩, v, w⟩ out := by
  cases e with
  | command cmd =>
    rw [Entry.bytes, Entry.cmds, respStream, flatMap_singleton]
    exact ends_command htr hok.ok hok.proc (h w)
  | transaction multi cmds exec =>
    obtain ⟨hmulti, hcmds, hexec⟩ := hok
    rw [Entry.bytes, Entry.cmds, respStream, flatMap_cons, flatMap_append, flatMap_singleton,
      append_assoc, append_assoc]
    exact ends_multi htr hmulti (ends_queue htr hcmds (ends_exec htr hexec (h v)))

theorem ends_open {q : List Cmd} : Ends srv file ⟨⟨d, true, q⟩, ⟨[], false⟩, v, w⟩ (some (.ok, d, file.take w)) := by
  have h : Ends srv file ⟨⟨d, true, q⟩, ⟨[], false⟩, v, w⟩ _ := ends_eof
  simpa only [unexpectedEof, htr, if_true] using h

theorem ends_cut_command {c : Client σ} (hok : CmdOk cmd) (hn : 0 < n) (hlt : n < (respRequest cmd).length) :
    Ends srv file ⟨c, ⟨(respRequest cmd).take n, false⟩, v, w⟩ (some (.ok, c.data, file.take v)) := by
  have hp : (respRequest cmd).take n ≠ [] := by
    rw [← length_pos_iff, length_take]
    omega
  have hs : (respRequest cmd).drop n ≠ [] := by
    rw [← length_pos_iff, length_drop]
    omega
  exact ends_short htr (readCommand_cut hok hp hs (take_append_drop ..) false)

theorem ends_cut_entry {e : Entry} (hok : e.Ok srv) (hn : 0 < n) (hlt : n < e.bytes.length) (hcut : e.cutOk n = true) :
    Ends srv file ⟨⟨d, false, []⟩, ⟨e.bytes.take n, false⟩, v, w⟩ (some (.ok, d, file.take v)) := by
  cases e with
  | command cmd =>
    rw [Entry.bytes, Entry.cmds, respStream, flatMap_singleton] at hlt ⊢
    exact ends_cut_command htr hok.ok hn hlt
  | transaction multi cmds exec =>
    obtain ⟨hmulti, hcmds, hexec⟩ := hok
    by_cases hm : n < (respRequest [multi]).length
    · rw [Entry.bytes, Entry.cmds, respStream, flatMap_cons, take_append_of_le_length hm.le]
      exact ends_cut_command htr (cmdOk_name (lookup_name_length hmulti (by decide))) hn hm
    have hbetween : betweenCmds ([multi] :: (cmds ++ [[exec]])) n = true := by
      simpa [Entry.cutOk, Entry.cmds, hm] using hcut
    obtain ⟨k, hk⟩ := betweenCmds_take hbetween
    rw [Entry.bytes, Entry.cmds] at hlt ⊢
    rw [hk]
    have hlen := congrArg length hk
    rw [length_take, min_eq_left hlt.le] at hlen
    -- `MULTI` is read, and `EXEC` is not.
    rcases k with _ | k
    · exact absurd hlen (Nat.ne_of_gt hn)
    rw [take_succ_cons] at hlen ⊢
    have hkle : k ≤ cmds.length := by
      by_contra hgt
      rw [take_of_length_le (by rw [length_append, length_singleton]; omega)] at hlen
      omega
    rw [take_append_of_le_length hkle, respStream, flatMap_cons]
    rw [← append_nil (flatMap _ (cmds.take k))]
    exact ends_multi htr hmulti (ends_queue htr (fun cmd h => hcmds cmd (mem_of_mem_take h)) (ends_open htr))

/-- A cut inside a command behind `MULTI` leaves more than what stands before the transaction. -/
theorem ends_cut_inside {e : Entry} {front : List UInt8} (hok : e.Ok srv) (hlt : n < e.bytes.length)
    (hcut : e.cutOk n = false) (hfile : file = front ++ e.bytes.take n) :
    ∃ u, front.length < u ∧ u ≤ file.length ∧
      ∀ w, Ends srv file ⟨⟨d, false, []⟩, ⟨e.bytes.take n, false⟩, v, w⟩ (some (.ok, d, file.take u)) := by
  cases e with
  | command cmd => cases hcut
  | transaction multi cmds exec =>
    obtain ⟨hmulti, hcmds, hexec⟩ := hok
    rw [Entry.cutOk, Bool.or_eq_false_iff, decide_eq_false_iff_not, Nat.not_lt] at hcut
    obtain ⟨hle, hcut⟩ := hcut
    have hpos : 0 < (respRequest [multi]).length := Nat.succ_pos _
    obtain ⟨n, rfl⟩ := Nat.exists_eq_add_of_le' (hpos.trans_le hle)
    rw [Entry.cmds, betweenCmds, decide_eq_true hle, Bool.true_and] at hcut
    rw [Entry.bytes, Entry.cmds, respStream, flatMap_cons, length_append] at hlt
    rw [Entry.bytes, Entry.cmds, respStream, flatMap_cons, take_append, take_of_length_le hle] at hfile ⊢
    obtain ⟨ready, cmd, back, m, happ, hm, hlt', htake⟩ := not_betweenCmds hcut (by rw [respStream]; omega)
    rw [respStream] at htake
    rw [htake] at hfile ⊢
    -- the cut command is one of the queue or `EXEC`
    have hready : ∀ cmd ∈ ready, cmd ∈ cmds := by
      intro c hc
      have hlen := congrArg length happ
      simp only [length_append, length_cons, length_nil] at hlen
      have htake := congrArg (List.take ready.length) happ
      rw [take_append_of_le_length (by omega), take_left] at htake
      exact mem_of_mem_take (htake ▸ hc)
    have hcmd : CmdOk cmd := by
      have hmem : cmd ∈ cmds ++ [[exec]] := happ ▸ mem_append_right _ (.head _)
      rcases mem_append.1 hmem with h | h
      · exact (hcmds cmd h).ok
      · rw [mem_singleton.1 h]
        exact cmdOk_name (lookup_name_length hexec (by decide))
    refine ⟨file.length - ((respRequest cmd).take m).length, ?_, Nat.sub_le .., fun w => ?_⟩
    · rw [hfile]
      simp only [length_append]
      omega
    · exact ends_multi htr hmulti (ends_queue htr (fun c hc => hcmds c (hready c hc)) (ends_cut_command htr hcmd hm hlt'))

/-- The dataset is that of the whole entries wherever the cut is; that these are left in the file depends on it. -/
theorem ends_entries {front : List UInt8} (hok : ∀ e ∈ es, e.Ok srv) (hfile : file = front ++ (fileOf es).take n)
    (hv : v = if preamble then 0 else front.length) (hfront : preamble = true → front ≠ []) :
    ∃ left, (∀ w, Ends srv file ⟨⟨d, false, []⟩, ⟨(fileOf es).take n, false⟩, v, w⟩
        (some (.ok, (whole es n).foldl (Entry.apply srv) d, left))) ∧
      (left = front ++ fileOf (whole es n) ↔ cutOk preamble es n = true) := by
  induction es generalizing front n v d preamble with
  | nil =>
    obtain rfl : file = front := by simpa [fileOf] using hfile
    have h : ∀ w, Ends srv file ⟨⟨d, false, []⟩, ⟨[], false⟩, v, w⟩ _ := fun _ => ends_eof
    exact ⟨file, by simpa [fileOf, whole] using h, by simp [fileOf, whole, cutOk]⟩
  | cons e es ih =>
    rw [fileOf_cons] at hfile ⊢
    rw [cutOk, whole]
    by_cases hle : e.bytes.length ≤ n
    · rw [if_pos hle, if_pos hle, fileOf_cons, ← append_assoc]
      rw [take_append, take_of_length_le hle] at hfile ⊢
      rw [← append_assoc] at hfile
      have hsize : file.length - ((fileOf es).take (n - e.bytes.length)).length =
          if false = true then 0 else (front ++ e.bytes).length := by
        rw [hfile, length_append, Nat.add_sub_cancel]
        rfl
      obtain ⟨left, hends, hleft⟩ := ih (fun e' h => hok e' (by simp [h])) hfile hsize fun h => by cases h
      exact ⟨left, fun w => ends_entry htr (hok e (by simp)) hends, hleft⟩
    · rw [if_neg hle, if_neg hle, show fileOf [] = [] from rfl, append_nil]
      rw [take_append_of_le_length (by omega)] at hfile ⊢
      rcases Nat.eq_zero_or_pos n with rfl | hn
      · obtain rfl : file = front := by simpa using hfile
        have h : ∀ w, Ends srv file ⟨⟨d, false, []⟩, ⟨[], false⟩, v, w⟩ _ := fun _ => ends_eof
        exact ⟨file, by simpa using h, by simp⟩
      rw [decide_eq_false (by omega), Bool.false_or, Bool.and_eq_true]
      have hfrontle : front.length ≤ file.length := by
        rw [hfile, length_append]
        omega
      by_cases hcut : e.cutOk n = true
      · refine ⟨_, fun w => ends_cut_entry htr (hok e (by simp)) hn (by omega) hcut, ?_⟩
        cases preamble with
        | false =>
          rw [hv, hfile]
          simp [hcut]
        | true =>
          rw [hv]
          simpa using (hfront rfl).symm
      · obtain ⟨u, hgt, hu, hends⟩ := ends_cut_inside htr (hok e (by simp)) (by omega) (eq_false_of_ne_true hcut) hfile
        refine ⟨_, hends, iff_of_false (fun h => ?_) fun h => hcut h.2⟩
        have := congrArg length h
        rw [length_take] at this
        omega

end

theorem cutOk_of_le (h : (fileOf es).length ≤ n) : cutOk preamble es n = true := by
  induction es generalizing preamble n with
  | nil => rfl
  | cons e es ih =>
    rw [fileOf_cons, length_append] at h
    rw [cutOk, if_pos (by omega)]
    exact ih (by omega)

theorem whole_of_le (h : (fileOf es).length ≤ n) : whole es n = es := by
  induction es generalizing n with
  | nil => rfl
  | cons e es ih =>
    rw [fileOf_cons, length_append] at h
    rw [whole, if_pos (by omega), ih (by omega)]

theorem whole_subset : ∀ e ∈ whole es n, e ∈ es := by
  induction es generalizing n with
  | nil => exact fun e h => h
  | cons e' es ih =>
    intro e h
    rw [whole] at h
    split at h
    · rcases mem_cons.1 h with rfl | h
      · exact mem_cons_self ..
      · exact mem_cons_of_mem _ (ih e h)
    · cases h

/-- The start of the file: nothing, or an RDB that the loader reads as `d`, whatever is behind it. -/
inductive Preamble (srv : Server σ) : List UInt8 → σ → Prop
  | none : Preamble srv [] srv.init
  | rdb (bytes : List UInt8) (d : σ) (sig : bytes.take 5 = [82, 69, 68, 73, 83])
      (load : ∀ tail, srv.rdbLoadRio (bytes ++ tail) = some (d, bytes.length)) : Preamble srv bytes d

theorem bytes_eq_cons (e : Entry) : ∃ bs, e.bytes = 42 :: bs := by
  cases e <;> exact ⟨_, rfl⟩

theorem fileOf_take_eq_nil (h : (fileOf es).take n = []) : whole es n = [] ∧ cutOk preamble es n = true := by
  rcases es with - | ⟨e, es⟩
  · exact ⟨rfl, rfl⟩
  obtain ⟨bs, hbs⟩ := bytes_eq_cons e
  rw [fileOf, flatMap_cons, hbs] at h
  rcases n with _ | n
  · rw [whole, cutOk, if_neg (by simp [hbs]), if_neg (by simp [hbs])]
    exact ⟨rfl, rfl⟩
  · cases h

theorem fileOf_take_ne_sig (es : List Entry) (n : Nat) : ((fileOf es).take n).take 5 ≠ [82, 69, 68, 73, 83] := by
  rcases es with - | ⟨e, es⟩
  · simp [fileOf]
  obtain ⟨bs, hbs⟩ := bytes_eq_cons e
  rw [fileOf, flatMap_cons, hbs]
  intro h
  rcases n with _ | n
  · cases h
  · cases h

theorem loadAppendOnlyFile_left {pre : List UInt8} {d : σ} (hpre : Preamble srv pre d)
    (htr : srv.aofLoadTruncated = true) (hok : ∀ e ∈ es, e.Ok srv) :
    ∃ ret left, loadAppendOnlyFile srv (pre ++ (fileOf es).take n) =
        some (ret, (whole es n).foldl (Entry.apply srv) d, left) ∧
      (left = pre ++ fileOf (whole es n) ↔ cutOk (!pre.isEmpty) es n = true) := by
  unfold loadAppendOnlyFile
  cases hpre with
  | none =>
    by_cases hnil : (fileOf es).take n = []
    · obtain ⟨hwhole, hcut⟩ := fileOf_take_eq_nil hnil
      rw [hwhole, nil_append, hnil]
      exact ⟨.err, [], rfl, iff_of_true rfl hcut⟩
    · rw [nil_append, if_neg hnil, if_neg (fileOf_take_ne_sig es n)]
      obtain ⟨left, hends, hleft⟩ := ends_entries htr hok (nil_append _).symm
        (show 0 = if (!([] : List UInt8).isEmpty) = true then 0 else ([] : List UInt8).length from rfl) fun h => by cases h
      exact ⟨.ok, left, hends 0 _ (Nat.lt_succ_self _), hleft⟩
  | rdb _ _ sig load =>
    have hlen : 5 ≤ pre.length := by
      have := congrArg length sig
      simp only [length_take, length_cons, length_nil] at this
      omega
    have hne : pre ≠ [] := ne_nil_of_length_pos (by omega)
    rw [if_neg (append_ne_nil_of_left_ne_nil hne _), take_append_of_le_length hlen, if_pos sig, load]
    dsimp only
    rw [drop_left]
    obtain ⟨left, hends, hleft⟩ := ends_entries htr hok rfl
      (show 0 = if (!pre.isEmpty) = true then 0 else pre.length by simp [hne]) fun _ => hne
    exact ⟨.ok, left, hends 0 _ (by simp only [length_append]; omega), hleft⟩

theorem loadAppendOnlyFile_cutOk {pre : List UInt8} {d : σ} (hpre : Preamble srv pre d)
    (htr : srv.aofLoadTruncated = true) (hok : ∀ e ∈ es, e.Ok srv) (hcut : cutOk (!pre.isEmpty) es n = true) :
    ∃ ret, loadAppendOnlyFile srv (pre ++ (fileOf es).take n) =
      some (ret, (whole es n).foldl (Entry.apply srv) d, pre ++ fileOf (whole es n)) := by
  obtain ⟨ret, left, h, hleft⟩ := loadAppendOnlyFile_left hpre htr hok
  exact ⟨ret, hleft.2 hcut ▸ h⟩

/-- The loader rebuilds the dataset of the whole entries, leaves exactly these in the file, and finds the dataset of a
server that went on from there when it loads the file again: if the file is cut between two entries, inside a single
command or the `MULTI` of a transaction, or between two commands of a transaction, and not in the first entry behind a
preamble, and in no other case. -/
theorem loadAppendOnlyFile_cut (srv : Server σ) (htr : srv.aofLoadTruncated = true) (pre : List UInt8) (d : σ)
    (hpre : Preamble srv pre d) (es : List Entry) (hok : ∀ e ∈ es, e.Ok srv) (n : Nat) (later : List Entry)
    (hlater : ∀ e ∈ later, e.Ok srv) :
    (∃ data file, (∃ ret, loadAppendOnlyFile srv (pre ++ (fileOf es).take n) = some (ret, data, file)) ∧
      data = (whole es n).foldl (Entry.apply srv) d ∧ file = pre ++ fileOf (whole es n) ∧
      ∃ ret, loadAppendOnlyFile srv (file ++ fileOf later) =
        some (ret, later.foldl (Entry.apply srv) data, file ++ fileOf later)) ↔
      cutOk (!pre.isEmpty) es n = true := by
  obtain ⟨ret, left, hload, hleft⟩ := loadAppendOnlyFile_left hpre htr hok
  constructor
  · rintro ⟨data, file, ⟨ret', h⟩, -, hfile, -⟩
    rw [hload] at h
    cases h
    exact hleft.1 hfile
  intro hcut
  refine ⟨_, _, ⟨ret, hleft.2 hcut ▸ hload⟩, rfl, rfl, ?_⟩
  have happ : pre ++ fileOf (whole es n) ++ fileOf later = pre ++ fileOf (whole es n ++ later) := by
    rw [fileOf, fileOf, fileOf, flatMap_append, append_assoc]
  have hok' : ∀ e ∈ whole es n ++ later, e.Ok srv := by
    intro e he
    rcases mem_append.1 he with he | he
    · exact hok e (whole_subset e he)
    · exact hlater e he
  have h := loadAppendOnlyFile_cutOk hpre htr hok' (cutOk_of_le le_rfl)
  rw [take_length, whole_of_le le_rfl, foldl_append] at h
  rw [happ]
  exact h

end Loop

/-- A server whose dataset is the list of the commands it ran, and whose RDB is the signature alone. -/
def logServer : Server (List Cmd) where
  init := []
  known _ := true
  call d cmd := d ++ [cmd]
  rdbLoadRio _ := some ([], 5)
  aofLoadTruncated := true

def multiName : List UInt8 := [77, 85, 76, 84, 73]

def execName : List UInt8 := [101, 120, 101, 99]

/-- Cut in the middle of the second transaction, between two commands. -/
theorem loadAppendOnlyFile_cut_log :
    ∃ data file, (∃ ret, loadAppendOnlyFile logServer ([] ++ (fileOf [.transaction multiName [[[120]]] execName,
        .transaction multiName [[[120]]] execName]).take 51) = some (ret, data, file)) ∧
      data = (whole [.transaction multiName [[[120]]] execName, .transaction multiName [[[120]]] execName] 51).foldl
        (Entry.apply logServer) [] ∧
      file = [] ++ fileOf (whole [.transaction multiName [[[120]]] execName,
        .transaction multiName [[[120]]] execName] 51) ∧
      ∃ ret, loadAppendOnlyFile logServer (file ++ fileOf [.command [[121]]]) =
        some (ret, [Entry.command [[121]]].foldl (Entry.apply logServer) data, file ++ fileOf [.command [[121]]]) := by
  have hplain : ∀ b : UInt8, PlainCmd logServer [[b]] := fun b =>
    ⟨cmdOk_name (by simp), by simp [lookupCommand, logServer]⟩
  have htrans : Entry.Ok logServer (.transaction multiName [[[120]]] execName) :=
    ⟨rfl, fun cmd h => mem_singleton.1 h ▸ hplain 120, rfl⟩
  refine (loadAppendOnlyFile_cut logServer rfl [] [] .none _ ?_ 51 _ ?_).2 (by decide)
  · simpa using htrans
  · simpa [Entry.Ok] using hplain 121

/-- A transaction cut in the command behind `MULTI` leaves `MULTI` in the file, and what is appended behind it is lost;
a command cut behind a preamble empties the file. -/
theorem loadAppendOnlyFile_loses :
    loadAppendOnlyFile logServer ((fileOf [.transaction multiName [[[120]]] execName]).take 16) =
        some (.ok, [], respRequest [multiName]) ∧
      loadAppendOnlyFile logServer (respRequest [multiName] ++ fileOf [.command [[121]]]) = some (.ok, [], []) ∧
      loadAppendOnlyFile logServer ([82, 69, 68, 73, 83] ++ (fileOf [.command [[121]]]).take 1) = some (.ok, [], []) := by
  refine ⟨?_, ?_, ?_⟩ <;> rfl

end Redis.Aof
