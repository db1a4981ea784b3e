import Redis.QueryParse

/-! # Arguments as text

`sdscatrepr` writes a byte string between quotes and `sdssplitargs` reads a line of arguments. What the one
writes the other reads back; on any line it fails exactly when the quotes are not closed as `balanced` says.
An inline request is read by `sdssplitargs`, and loses its empty arguments after that. -/

namespace Redis.Input

open List

def isprint (c : UInt8) : Bool := decide (32 ≤ c.toNat ∧ c.toNat ≤ 126)

/-- One digit of `%02x`. -/
def hexDigit (n : Nat) : UInt8 := UInt8.ofNat (if n < 10 then 48 + n else 87 + n)

/-- The `switch` of `sdscatrepr`. -/
def reprByte (c : UInt8) : List UInt8 :=
  if c = 92 ∨ c = 34 then [92, c]
  else if c = 10 then [92, 110]
  else if c = 13 then [92, 114]
  else if c = 9 then [92, 116]
  else if c = 7 then [92, 97]
  else if c = 8 then [92, 98]
  else if isprint c then [c]
  else [92, 120, hexDigit (c.toNat / 16), hexDigit (c.toNat % 16)]

def sdscatrepr (s p : List UInt8) : List UInt8 := s ++ 34 :: (p.flatMap reprByte ++ [34])

/-- The quotations of the arguments, joined by single spaces. -/
def quoteArgs : List (List UInt8) → List UInt8
  | [] => []
  | [a] => sdscatrepr [] a
  | a :: b :: args => sdscatrepr [] a ++ 32 :: quoteArgs (b :: args)

/-- Every quote that is opened is closed, in front of a space or the end of the line. -/
def balanced : Quote → List UInt8 → Bool
  | .plain, [] => true
  | .plain, b :: p =>
    if b = 34 then balanced .double p else if b = 39 then balanced .single p else balanced .plain p
  | .double, 92 :: _ :: p => balanced .double p
  | .double, 34 :: p => closesToken p && balanced .plain p
  | .double, [] => false
  | .double, _ :: p => balanced .double p
  | .single, 92 :: 39 :: p => balanced .single p
  | .single, 39 :: p => closesToken p && balanced .plain p
  | .single, [] => false
  | .single, _ :: p => balanced .single p

/-- The line is blanks and the texts of the tokens, one after the other, to its end. -/
inductive Splits : List UInt8 → List (List UInt8) → Prop
  | blank {sp : List UInt8} : (∀ b ∈ sp, isspace b = true) → Splits sp []
  | token {sp text rest token : List UInt8} {tokens : List (List UInt8)} : (∀ b ∈ sp, isspace b = true) →
      text ≠ [] → splitToken .plain [] (text ++ rest) = some (token, rest) → Splits rest tokens →
      Splits (sp ++ (text ++ rest)) (token :: tokens)

variable {q : Quote} {b : UInt8} {current p line rest token : List UInt8} {args : List (List UInt8)}

/-! ### Reading a line -/

theorem balanced_plain_space (h : isspace b = true) (p : List UInt8) : balanced .plain (b :: p) = balanced .plain p := by
  rw [balanced, if_neg, if_neg]
  · rintro rfl
    exact absurd h (by decide)
  · rintro rfl
    exact absurd h (by decide)

theorem balanced_double_hex (h : isHexDigit b = true) (p : List UInt8) :
    balanced .double (b :: p) = balanced .double p := by
  rw [balanced]
  · rintro _ _ rfl
    exact absurd h (by decide)
  · rintro rfl
    exact absurd h (by decide)

theorem balanced_eq_splitToken (q : Quote) (current p : List UInt8) :
    balanced q p = ((splitToken q current p).map fun r => balanced .plain r.2).getD false := by
  fun_induction splitToken q current p
  case case1 current a b p h ih =>
    rw [Bool.and_eq_true] at h
    rw [balanced, balanced_double_hex h.1, balanced_double_hex h.2, ih]
  case case7 current b p hhex hesc hquote ih =>
    rw [balanced, ih]
    · exact hesc
    · exact hquote
  case case12 current b p hesc hquote ih =>
    rw [balanced, ih]
    · exact hesc
    · exact hquote
  case case14 current b p h =>
    refine balanced_plain_space ?_ p
    rcases h with rfl | rfl | rfl | rfl <;> rfl
  all_goals simp_all [balanced]

/-- A token takes at least one byte of a line that is not empty. -/
theorem splitToken_suffix (h : splitToken q current p = some (token, rest)) : rest <:+ p.tail := by
  have hcons : ∀ {b : UInt8} {l : List UInt8}, rest <:+ l → rest <:+ b :: l := fun h => h.trans (suffix_cons _ _)
  have htail : ∀ {l : List UInt8}, rest <:+ l.tail → rest <:+ l := fun h => h.trans (tail_suffix _)
  fun_induction splitToken q current p
  case case1 ih => exact hcons (hcons (hcons (htail (ih h))))
  all_goals simp_all

theorem balanced_dropWhile (line : List UInt8) : balanced .plain (line.dropWhile isspace) = balanced .plain line := by
  induction line with
  | nil => rfl
  | cons b line ih =>
    rw [dropWhile_cons]
    split
    next hb => rw [ih, balanced_plain_space hb]
    · rfl

theorem splitArgs_spec {fuel : Nat} (hfuel : line.length < fuel) :
    (∃ tokens, splitArgs fuel line = some tokens ∧ Splits line tokens ∧ balanced .plain line = true) ∨
      (splitArgs fuel line = none ∧ balanced .plain line = false) := by
  induction fuel generalizing line with
  | zero => omega
  | succ fuel ih =>
    have hblank : ∀ b ∈ line.takeWhile isspace, isspace b = true := all_eq_true.1 all_takeWhile
    have hline := takeWhile_append_dropWhile (p := isspace) (l := line)
    rw [splitArgs, ← balanced_dropWhile]
    rcases hp : line.dropWhile isspace with - | ⟨b, p⟩
    · rw [hp, append_nil] at hline
      exact .inl ⟨[], rfl, .blank (hline ▸ hblank), rfl⟩
    dsimp only
    rw [balanced_eq_splitToken _ []]
    rcases ht : splitToken .plain [] (b :: p) with - | r
    · exact .inr ⟨rfl, rfl⟩
    obtain ⟨token, rest⟩ := r
    obtain ⟨text, rfl⟩ : rest <:+ p := splitToken_suffix ht
    rw [hp, ← cons_append] at hline
    have hlt : rest.length < fuel := by
      have := congrArg length hline
      simp only [length_append, length_cons] at this
      omega
    rcases ih hlt with ⟨tokens, hres, hsplit, hbal⟩ | ⟨hres, hbal⟩
    · have htok := Splits.token hblank (cons_ne_nil b text) ht hsplit
      exact .inl ⟨token :: tokens, congrArg (Option.map _) hres, hline ▸ htok, hbal⟩
    · exact .inr ⟨congrArg (Option.map _) hres, hbal⟩

/-! ### Reading what was quoted -/

theorem hexDigit_spec : ∀ n < 16, isHexDigit (hexDigit n) = true ∧ hexDigitToInt (hexDigit n) = n ∧
    32 ≤ (hexDigit n).toNat := by decide

theorem splitToken_reprByte (current : List UInt8) (c : UInt8) (p : List UInt8) :
    splitToken .double current (reprByte c ++ p) = splitToken .double (current ++ [c]) p := by
  unfold reprByte
  split
  next h => rcases h with rfl | rfl <;> simp [splitToken, unescape]
  next h =>
    iterate 5
      split
      · subst c; simp [splitToken, unescape]
    split
    · simp [splitToken, not_or.1 h]
    have hlt := c.toNat_lt
    obtain ⟨hhi, hhi', -⟩ := hexDigit_spec (c.toNat / 16) (by omega)
    obtain ⟨hlo, hlo', -⟩ := hexDigit_spec (c.toNat % 16) (by omega)
    simp [splitToken, hhi, hhi', hlo, hlo', Nat.div_add_mod']

theorem splitToken_repr (current a rest : List UInt8) : splitToken .double current (a.flatMap reprByte ++ 34 :: rest) =
      if closesToken rest then some (current ++ a, rest) else none := by
  induction a generalizing current with
  | nil => simp [splitToken]
  | cons c a ih => rw [flatMap_cons, append_assoc, splitToken_reprByte, ih, append_assoc, singleton_append]

theorem quoteArgs_cons (a : List UInt8) (args : List (List UInt8)) :
    ∃ rest, quoteArgs (a :: args) = 34 :: (a.flatMap reprByte ++ 34 :: rest) ∧ closesToken rest = true ∧
      rest.dropWhile isspace = quoteArgs args ∧ rest ⊆ 32 :: quoteArgs args := by
  rcases args with - | ⟨b, args⟩
  · exact ⟨[], rfl, rfl, rfl, nil_subset _⟩
  refine ⟨32 :: quoteArgs (b :: args), ?_, rfl, ?_, Subset.refl _⟩
  · simp [quoteArgs, sdscatrepr]
  · cases args <;> rfl

theorem splitArgs_quoteArgs {fuel : Nat} (hfuel : args.length < fuel) (h : line.dropWhile isspace = quoteArgs args) :
    splitArgs fuel line = some args := by
  induction args generalizing fuel line with
  | nil =>
    obtain ⟨fuel, rfl⟩ := Nat.exists_eq_add_one_of_ne_zero (Nat.ne_zero_of_lt hfuel)
    rw [splitArgs, h]
    rfl
  | cons a args ih =>
    obtain ⟨fuel, rfl⟩ := Nat.exists_eq_add_one_of_ne_zero (Nat.ne_zero_of_lt hfuel)
    obtain ⟨rest, hquote, hclose, hrest, -⟩ := quoteArgs_cons a args
    have htoken : splitToken .plain [] (34 :: (a.flatMap reprByte ++ 34 :: rest)) = some (a, rest) := by
      rw [splitToken, if_neg (by decide), if_pos rfl, splitToken_repr, if_pos hclose, nil_append]
    rw [splitArgs, h, hquote]
    dsimp only
    rw [htoken]
    exact congrArg (Option.map _) (ih (Nat.lt_of_succ_lt_succ hfuel) hrest)

theorem le_of_mem_reprByte {c : UInt8} (h : b ∈ reprByte c) : 32 ≤ b.toNat := by
  have hlt := c.toNat_lt
  unfold reprByte at h
  split_ifs at h with hc _ _ _ _ _ hprint <;> simp only [mem_cons, not_mem_nil, or_false] at h
  · rcases hc with rfl | rfl <;> rcases h with rfl | rfl <;> decide
  iterate 5
    · rcases h with rfl | rfl <;> decide
  · exact h ▸ (of_decide_eq_true hprint).1
  rcases h with rfl | rfl | rfl | rfl
  · decide
  · decide
  · exact (hexDigit_spec (c.toNat / 16) (by omega)).2.2
  · exact (hexDigit_spec (c.toNat % 16) (by omega)).2.2

theorem le_of_mem_quoteArgs (h : b ∈ quoteArgs args) : 32 ≤ b.toNat := by
  induction args with
  | nil => cases h
  | cons a args ih =>
    obtain ⟨rest, hquote, -, -, hsub⟩ := quoteArgs_cons a args
    rw [hquote, mem_cons, mem_append, mem_cons, mem_flatMap] at h
    rcases h with rfl | ⟨c, -, hb⟩ | rfl | hb
    · decide
    · exact le_of_mem_reprByte hb
    · decide
    · rcases mem_cons.1 (hsub hb) with rfl | hb
      · decide
      · exact ih hb

theorem not_mem_quoteArgs (h : b.toNat < 32) : b ∉ quoteArgs args := fun hb => h.not_ge (le_of_mem_quoteArgs hb)

theorem length_le_quoteArgs (args : List (List UInt8)) : args.length ≤ (quoteArgs args).length := by
  induction args with
  | nil => exact le_rfl
  | cons a args ih =>
    obtain ⟨rest, hquote, -, hrest, -⟩ := quoteArgs_cons a args
    have hle : (rest.dropWhile isspace).length ≤ rest.length := (dropWhile_sublist _).length_le
    rw [hrest] at hle
    rw [hquote]
    simp
    omega

theorem sdssplitargs_quoteArgs (args : List (List UInt8)) : sdssplitargs (quoteArgs args) = some args := by
  have hcstr : cstr (quoteArgs args ++ []) = quoteArgs args ++ [] := by
    refine takeWhile_append_of_pos fun b hb => decide_eq_true ?_
    rintro rfl
    exact not_mem_quoteArgs (by decide) hb
  rw [append_nil] at hcstr
  rw [sdssplitargs, hcstr]
  refine splitArgs_quoteArgs (Nat.lt_succ_of_le (length_le_quoteArgs args)) ?_
  rcases args with - | ⟨a, args⟩
  · rfl
  obtain ⟨rest, hquote, -⟩ := quoteArgs_cons a args
  rw [hquote]
  rfl

/-- The quotations of byte strings, joined by single spaces, are read back as these strings; and a line is read to its
end into tokens, or refused when its quotes are not balanced. -/
theorem sdssplitargs_reads (args : List (List UInt8)) (line : List UInt8) :
    sdssplitargs (quoteArgs args) = some args ∧
      ((∃ tokens, sdssplitargs line = some tokens ∧ Splits (cstr line) tokens ∧ balanced .plain (cstr line) = true) ∨
        (sdssplitargs line = none ∧ balanced .plain (cstr line) = false)) :=
  ⟨sdssplitargs_quoteArgs args, splitArgs_spec (Nat.lt_succ_self _)⟩

/-! ### Inline requests -/

/-- A client between two requests, when `bytes` has come. -/
def Client.received (c : Client) (bytes : List UInt8) : Client :=
  Client.setReqType { c.resetClient with querybuf := bytes, qbPos := 0 }

theorem received_unparsed (c : Client) (bytes : List UInt8) : (c.received bytes).unparsed = bytes := by
  unfold Client.received Client.setReqType
  split <;> exact drop_zero

theorem processInlineBuffer_quoteArgs (c : Client) (args : List (List UInt8)) {eol : List UInt8}
    (heol : eol = [10] ∨ eol = crlf) :
    ∃ c', processInlineBuffer (c.received (quoteArgs args ++ eol)) = (.ok, c') ∧ c'.argv = args.filter (· ≠ []) := by
  have hlf : (10 : UInt8) ∉ quoteArgs args := not_mem_quoteArgs (by decide)
  have hcr : (13 : UInt8) ∉ quoteArgs args := not_mem_quoteArgs (by decide)
  have hnul : (0 : UInt8) ∉ quoteArgs args := not_mem_quoteArgs (by decide)
  -- the line ends before its CR, if there is one
  obtain ⟨k, hk, hlen⟩ : ∃ k, strchr 10 (quoteArgs args ++ eol) = some k ∧ (if decide (k ≠ 0 ∧
      (quoteArgs args ++ eol)[k - 1]? = some 13) then k - 1 else k) = (quoteArgs args).length := by
    rcases heol with rfl | rfl
    · refine ⟨_, strchr_append [] hlf hnul, if_neg fun h => ?_⟩
      obtain ⟨h0, h13⟩ := of_decide_eq_true h
      rw [getElem?_append_left (by omega)] at h13
      exact hcr (mem_of_getElem? h13)
    · have hline : quoteArgs args ++ crlf = (quoteArgs args ++ [13]) ++ 10 :: [] := by simp [crlf]
      refine ⟨(quoteArgs args).length + 1, ?_, if_pos (by simp [crlf])⟩
      rw [hline, strchr_append [] (by simp [hlf]) (by simp [hnul]), length_append]
      rfl
  unfold processInlineBuffer
  rw [received_unparsed, hk]
  dsimp only
  rw [hlen, take_left, sdssplitargs_quoteArgs]
  exact ⟨_, rfl, rfl⟩

theorem processMultibulkBuffer_respRequest (cfg : Config) (c : Client) (hok : RequestOk cfg args) :
    ∃ c', processMultibulkBuffer cfg (c.received (respRequest args)) = some (.ok, c') ∧ c'.argv = args := by
  have hbytes : respStream [args] = respRequest args := flatMap_singleton ..
  have hp : Pending { c.resetClient with querybuf := respRequest args, qbPos := 0 } [] [args] :=
    .between ⟨ReqType.noConfusion, rfl, rfl, rfl, by rw [append_nil, hbytes]; exact drop_zero⟩
  rcases processRequest_spec hp (cons_ne_nil _ _) (forall_mem_singleton.2 hok) with
    ⟨cmd, cmds, c', heq, hres, h', -⟩ | ⟨c', -, -, -, h0⟩
  · cases heq
    exact ⟨c', hres, h'.argv⟩
  · exact absurd rfl h0

/-- An inline request gives the argument vector that the RESP form of its arguments gives iff none of them is
empty, when the configured limit lets each of them through. -/
theorem inline_same_argv (cfg : Config) (c : Client) {args : List (List UInt8)} (hne : args ≠ []) {eol : List UInt8}
    (heol : eol = [10] ∨ eol = crlf) (hsize : (quoteArgs args ++ eol).length < protoInlineMaxSize)
    (hmax : ∀ a ∈ args, a.length ≤ cfg.protoMaxBulkLen) :
    (∃ c₁ c₂, processInlineBuffer (c.received (quoteArgs args ++ eol)) = (.ok, c₁) ∧
      processMultibulkBuffer cfg (c.received (respRequest args)) = some (.ok, c₂) ∧ c₁.argv = args ∧ c₂.argv = args) ↔
      ∀ a ∈ args, a ≠ [] := by
  have hcount : args.length ≤ 1024 * 1024 := by
    have hlen := length_le_quoteArgs args
    rw [length_append, protoInlineMaxSize] at hsize
    omega
  obtain ⟨c₁, h₁, hargv₁⟩ := processInlineBuffer_quoteArgs c args heol
  obtain ⟨c₂, h₂, hargv₂⟩ := processMultibulkBuffer_respRequest cfg c ⟨hne, hcount, hmax⟩
  have hfilter : args.filter (· ≠ []) = args ↔ ∀ a ∈ args, a ≠ [] := by simp
  rw [← hfilter, ← hargv₁]
  constructor
  · rintro ⟨c₁', -, h₁', -, hargv, -⟩
    cases h₁.symm.trans h₁'
    exact hargv
  · exact fun hargv => ⟨c₁, c₂, h₁, h₂, hargv, hargv₂⟩

theorem inline_same_argv_ping :
    ∃ c₁ c₂, processInlineBuffer (Client.received {} (quoteArgs [pingName, [0, 34, 255]] ++ crlf)) = (.ok, c₁) ∧
      processMultibulkBuffer plainConfig (Client.received {} (respRequest [pingName, [0, 34, 255]])) = some (.ok, c₂) ∧
      c₁.argv = [pingName, [0, 34, 255]] ∧ c₂.argv = [pingName, [0, 34, 255]] :=
  (inline_same_argv plainConfig {} (by decide) (.inr rfl) (by decide) (by decide)).2 (by decide)

/-- `SET k ""`: the empty value is there in RESP, and is dropped from the inline request. -/
theorem inline_drops_empty :
    (processInlineBuffer (Client.received {} (quoteArgs [[115, 101, 116], [107], []] ++ crlf))).2.argv =
        [[115, 101, 116], [107]] ∧
      (processMultibulkBuffer plainConfig (Client.received {} (respRequest [[115, 101, 116], [107], []]))).map
        (fun r => r.2.argv) = some [[115, 101, 116], [107], []] := by
  decide

end Redis.Input
