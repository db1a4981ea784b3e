import Mathlib.Data.List.DropRight
import Mathlib.Data.List.Infix
import Redis.Lib.Machine

/-! # Glob patterns (`stringmatchlen`, `util.c`)

A pointer into the pattern is the list of the bytes from there on, and `patternLen` is its length. The
terminator behind the pattern may be read; a read further on is a fault. -/

namespace Redis.Glob
open List

/-- `pattern[i]`. -/
def readAt (p : List UInt8) (i : Nat) : Option UInt8 := if i = p.length then some 0 else p[i]?

def tolower (c : Int) : Int := if 65 ≤ c ∧ c ≤ 90 then c + 32 else c

section
variable (ch : UInt8 → Int) (nocase : Bool)

def sameChar (a c : UInt8) : Bool := if nocase then tolower (ch a) = tolower (ch c) else a = c

def inClassRange (a b c : UInt8) : Bool :=
  let start := if ch a > ch b then ch b else ch a
  let stop := if ch a > ch b then ch a else ch b
  if nocase then tolower start ≤ tolower (ch c) ∧ tolower (ch c) ≤ tolower stop else start ≤ ch c ∧ ch c ≤ stop

/-- The loop over a class. At the end of the pattern it steps back to the byte `prev` in front of the pointer. -/
def classLoop (c : UInt8) : Nat → UInt8 → List UInt8 → Bool → Option (Bool × List UInt8)
  | 0, _, _, _ => none
  | fuel + 1, prev, p, found => do
    let p0 ← readAt p 0
    if p0 = 92 ∧ p.length ≥ 2 then do
      let p1 ← readAt p 1
      classLoop c fuel p1 (p.drop 2) (found || p1 == c)
    else if p0 = 93 then some (found, p)
    else if p.length = 0 then some (found, prev :: p)
    else do
      let p1 ← readAt p 1
      if p1 = 45 ∧ p.length ≥ 3 then do
        let p2 ← readAt p 2
        classLoop c fuel p2 (p.drop 3) (found || inClassRange ch nocase p0 p2 c)
      else classLoop c fuel p0 (p.drop 1) (found || sameChar ch nocase p0 c)

/-- One byte of the string against the pattern, without `*`: the pattern that is left, if they match. -/
def matchOne (p : List UInt8) (c : UInt8) : Option (Option (List UInt8)) := do
  let p0 ← readAt p 0
  if p0 = 63 then some (some (p.drop 1))
  else if p0 = 91 then do
    let p1 ← readAt p 1
    let negate := p1 == 94
    let p := if negate then p.drop 2 else p.drop 1
    let (found, p) ← classLoop ch nocase c (p.length + 1) (if negate then p1 else p0) p false
    some (if found != negate then some (p.drop 1) else none)
  else do
    let p := if p0 = 92 ∧ p.length ≥ 2 then p.drop 1 else p
    let p0 ← readAt p 0
    some (if sameChar ch nocase p0 c then some (p.drop 1) else none)

/-- The loop over the string behind a `*`. -/
def starLoop (f : List UInt8 → Option Bool) : List UInt8 → Option Bool
  | [] => some false
  | c :: s => do if ← f (c :: s) then some true else starLoop f s

def matchLoop : Nat → List UInt8 → List UInt8 → Option Bool
  | 0, _, _ => none
  | fuel + 1, p, s =>
    if p = [] ∨ s = [] then some (p = [] ∧ s = [])
    else do
      let p0 ← readAt p 0
      if p0 = 42 then
        let p := (p.drop 1).dropWhile (· == 42)
        if p = [] then some true else starLoop (matchLoop fuel p) s
      else do
        let c ← s.head?
        match ← matchOne ch nocase p c with
        | none => some false
        | some p => if s.drop 1 = [] then some (p.dropWhile (· == 42) = []) else matchLoop fuel p (s.drop 1)

/-- Every round of its loops and every recursive call moves the pattern on. -/
def stringmatchlen (p s : List UInt8) : Option Bool := matchLoop ch nocase (p.length + 1) p s

end

/-! ### The language of a pattern -/

inductive Member
  | byte (b : UInt8)
  | quoted (b : UInt8)
  | range (a b : UInt8)

/-- A class at the front of the pattern, its members, and the pattern behind it. -/
inductive ReadsClass : List UInt8 → List Member → List UInt8 → Prop
  | stop : ReadsClass [] [] []
  | close (p : List UInt8) : ReadsClass (93 :: p) [] p
  | quoted {p ms r} (b : UInt8) : ReadsClass p ms r → ReadsClass (92 :: b :: p) (.quoted b :: ms) r
  | range {p ms r} (a b : UInt8) : a ≠ 92 → a ≠ 93 → ReadsClass p ms r →
      ReadsClass (a :: 45 :: b :: p) (.range a b :: ms) r
  | byte {p ms r} (a : UInt8) : (a = 92 → p = []) → a ≠ 93 → (∀ b q, p ≠ 45 :: b :: q) → ReadsClass p ms r →
      ReadsClass (a :: p) (.byte a :: ms) r

section
variable (ch : UInt8 → Int) (nocase : Bool)

def fold (n : Int) : Int := if nocase then tolower n else n

/-- Without regard to case, if this is asked for. -/
def Same (a c : UInt8) : Prop := if nocase then tolower (ch a) = tolower (ch c) else a = c

/-- A quoted byte of a class stands for itself in any case. -/
def Member.Accepts (c : UInt8) : Member → Prop
  | .byte b => Same ch nocase b c
  | .quoted b => b = c
  | .range a b => fold nocase (min (ch a) (ch b)) ≤ fold nocase (ch c) ∧
      fold nocase (ch c) ≤ fold nocase (max (ch a) (ch b))

/-- The class at the front of `p` lets `c` through, and `q` is the pattern behind it. -/
def Admits (c : UInt8) (negate : Bool) (p q : List UInt8) : Prop :=
  ∃ ms, ReadsClass p ms q ∧ ((∃ m ∈ ms, m.Accepts ch nocase c) ↔ negate = false)

/-- The element at the front of the pattern, not a `*`, takes the byte and leaves the rest of the pattern. -/
inductive Takes : List UInt8 → UInt8 → List UInt8 → Prop
  | any {p} (c : UInt8) : Takes (63 :: p) c p
  | cls {p q} (c : UInt8) : p.head? ≠ some 94 → Admits ch nocase c false p q → Takes (91 :: p) c q
  | notCls {p q} (c : UInt8) : Admits ch nocase c true p q → Takes (91 :: 94 :: p) c q
  | quoted {p c} (b : UInt8) : Same ch nocase b c → Takes (92 :: b :: p) c p
  | byte {p c} (b : UInt8) : b ≠ 42 → b ≠ 63 → b ≠ 91 → (b = 92 → p = []) → Same ch nocase b c → Takes (b :: p) c p

/-- The string is in the language of the pattern. -/
inductive Matches : List UInt8 → List UInt8 → Prop
  | nil : Matches [] []
  | star {p s t} : t <:+ s → Matches p t → Matches (42 :: p) s
  | take {p q c s} : Takes ch nocase p c q → Matches q s → Matches p (c :: s)

end

@[simp] theorem readAt_zero (a : UInt8) (p : List UInt8) : readAt (a :: p) 0 = some a := rfl

@[simp] theorem readAt_succ (a : UInt8) (p : List UInt8) (i : Nat) : readAt (a :: p) (i + 1) = readAt p i := by
  simp [readAt]

theorem readAt_one (a : UInt8) (p : List UInt8) : ∃ b, readAt (a :: p) 1 = some b ∧ ∀ c ≠ 0, b = c ↔ ∃ q, p = c :: q := by
  cases p with
  | nil => exact ⟨0, rfl, fun c hc => by simp [hc.symm]⟩
  | cons b p => exact ⟨b, rfl, fun c _ => by simp⟩

theorem readsClass_total : ∀ p : List UInt8, ∃ ms r, ReadsClass p ms r
  | [] => ⟨_, _, .stop⟩
  | a :: p => by
    by_cases hclose : a = 93
    · subst hclose
      exact ⟨_, _, .close p⟩
    by_cases hquote : a = 92
    · rcases p with - | ⟨b, p⟩
      · exact ⟨_, _, .byte a (fun _ => rfl) hclose (by simp) .stop⟩
      · obtain ⟨ms, r, h⟩ := readsClass_total p
        subst hquote
        exact ⟨_, _, .quoted b h⟩
    by_cases hrange : ∃ b q, p = 45 :: b :: q
    · obtain ⟨b, q, rfl⟩ := hrange
      obtain ⟨ms, r, h⟩ := readsClass_total q
      exact ⟨_, _, .range a b hquote hclose h⟩
    · obtain ⟨ms, r, h⟩ := readsClass_total p
      exact ⟨_, _, .byte a (fun h => absurd h hquote) hclose (fun b q h => hrange ⟨b, q, h⟩) h⟩

variable {ch : UInt8 → Int} {nocase : Bool} {c : UInt8} {p q s : List UInt8} {fuel : Nat}

theorem inClassRange_iff (a b : UInt8) :
    inClassRange ch nocase a b c = true ↔ (Member.range a b).Accepts ch nocase c := by
  have hmin : (if ch a > ch b then ch b else ch a) = min (ch a) (ch b) := by
    split <;> omega
  have hmax : (if ch a > ch b then ch a else ch b) = max (ch a) (ch b) := by
    split <;> omega
  simp only [inClassRange, Member.Accepts, hmin, hmax, fold]
  cases nocase <;> simp

theorem sameChar_iff {a : UInt8} : sameChar ch nocase a c = true ↔ Same ch nocase a c := by
  simp [sameChar, Same]

theorem classLoop_spec (ch : UInt8 → Int) {ms : List Member} {r : List UInt8} (h : ReadsClass p ms r)
    (hfuel : p.length < fuel) (prev : UInt8)
    (found : Bool) : ∃ b x, classLoop ch nocase c fuel prev p found = some (b, x) ∧ x.drop 1 = r ∧
      (b = true ↔ found = true ∨ ∃ m ∈ ms, m.Accepts ch nocase c) := by
  induction h generalizing fuel prev found with
  | stop =>
    obtain ⟨fuel, rfl⟩ := Nat.exists_eq_add_one_of_ne_zero (Nat.ne_zero_of_lt hfuel)
    exact ⟨found, [prev], rfl, rfl, by simp⟩
  | close p =>
    obtain ⟨fuel, rfl⟩ := Nat.exists_eq_add_one_of_ne_zero (Nat.ne_zero_of_lt hfuel)
    exact ⟨found, 93 :: p, rfl, rfl, by simp⟩
  | quoted b h ih =>
    obtain ⟨fuel, rfl⟩ := Nat.exists_eq_add_one_of_ne_zero (Nat.ne_zero_of_lt hfuel)
    obtain ⟨b', x, hx, hr, hb⟩ := ih (show _ < fuel by simp at hfuel; omega) b (found || b == c)
    refine ⟨b', x, ?_, hr, by simp [hb, or_assoc, Member.Accepts]⟩
    simpa [classLoop] using hx
  | range a b hquote hclose h ih =>
    obtain ⟨fuel, rfl⟩ := Nat.exists_eq_add_one_of_ne_zero (Nat.ne_zero_of_lt hfuel)
    obtain ⟨b', x, hx, hr, hb⟩ := ih (show _ < fuel by simp at hfuel; omega) b (found || inClassRange ch nocase a b c)
    refine ⟨b', x, ?_, hr, by simp [hb, or_assoc, inClassRange_iff]⟩
    simpa [classLoop, hquote, hclose] using hx
  | @byte p ms r a hquote hclose hrange h ih =>
    obtain ⟨fuel, rfl⟩ := Nat.exists_eq_add_one_of_ne_zero (Nat.ne_zero_of_lt hfuel)
    obtain ⟨b', x, hx, hr, hb⟩ := ih (show _ < fuel by simp at hfuel; omega) a (found || sameChar ch nocase a c)
    refine ⟨b', x, ?_, hr, by simp [hb, or_assoc, sameChar_iff, Member.Accepts]⟩
    obtain ⟨p1, hp1, hiff⟩ := readAt_one a p
    have hno : ¬(p1 = 45 ∧ (a :: p).length ≥ 3) := by
      rintro ⟨h45, hlen⟩
      obtain ⟨_ | ⟨b, q⟩, rfl⟩ := (hiff 45 (by decide)).1 h45
      · exact absurd hlen (by simp)
      · exact hrange b q rfl
    have hesc : ¬(a = 92 ∧ (a :: p).length ≥ 2) := by
      rintro ⟨h92, hlen⟩
      rw [hquote h92] at hlen
      exact absurd hlen (by simp)
    rw [classLoop, readAt_zero, some_bind, if_neg hesc, if_neg hclose, hp1, some_bind, if_neg hno]
    exact hx

theorem ReadsClass.length_le {ms : List Member} {r : List UInt8} (h : ReadsClass p ms r) : r.length ≤ p.length := by
  induction h with
  | stop => exact Nat.le_refl _
  | close p => exact Nat.le_succ _
  | quoted _ _ ih => exact ih.trans (Nat.le_add_right _ 2)
  | range _ _ _ _ _ ih => exact ih.trans (Nat.le_add_right _ 3)
  | byte _ _ _ _ _ ih => exact ih.trans (Nat.le_succ _)

theorem Takes.length_lt (h : Takes ch nocase p c q) : q.length < p.length := by
  cases h with
  | any => exact Nat.lt_succ_self _
  | cls _ _ h =>
    obtain ⟨ms, h, -⟩ := h
    exact Nat.lt_succ_of_le h.length_le
  | notCls _ h =>
    obtain ⟨ms, h, -⟩ := h
    exact Nat.lt_succ_of_le (h.length_le.trans (Nat.le_succ _))
  | quoted => exact Nat.lt_succ_of_lt (Nat.lt_succ_self _)
  | byte => exact Nat.lt_succ_self _

theorem classLoop_admits (ch : UInt8 → Int) (prev : UInt8) (negate : Bool) :
    ∃ b x, classLoop ch nocase c (p.length + 1) prev p false = some (b, x) ∧
    ∀ q, Admits ch nocase c negate p q ↔ (if b != negate then some (x.drop 1) else none) = some q := by
  obtain ⟨ms, r, h⟩ := readsClass_total p
  obtain ⟨b, x, hx, rfl, hb⟩ := classLoop_spec ch h (Nat.lt_succ_self _) prev false
  refine ⟨b, x, hx, fun q => ?_⟩
  -- the loop's result does not depend on which reading of the class is taken
  have hread : ∀ {ms' r'}, ReadsClass p ms' r' → x.drop 1 = r' ∧
      (((∃ m ∈ ms', m.Accepts ch nocase c) ↔ negate = false) ↔ (b != negate) = true) := by
    intro ms' r' h'
    obtain ⟨b', x', hx', hr', hb'⟩ := classLoop_spec ch h' (Nat.lt_succ_self _) prev false
    rw [hx] at hx'
    cases hx'
    refine ⟨hr', ?_⟩
    rw [Bool.false_eq_true, false_or] at hb'
    rw [← hb']
    cases b <;> cases negate <;> simp
  constructor
  · rintro ⟨ms', h', hms'⟩
    rw [if_pos ((hread h').2.1 hms'), (hread h').1]
  intro hq
  split at hq
  next hb => cases hq; exact ⟨ms, h, (hread h).2.2 hb⟩
  · cases hq

theorem takes_class (h : p.head? ≠ some 94) : Takes ch nocase (91 :: p) c q ↔ Admits ch nocase c false p q := by
  constructor
  · intro ht
    cases ht with
    | cls _ _ hadm => exact hadm
    | notCls => exact absurd rfl h
    | byte _ _ _ h91 => exact absurd rfl h91
  · exact .cls c h

theorem takes_notClass : Takes ch nocase (91 :: 94 :: p) c q ↔ Admits ch nocase c true p q := by
  constructor
  · intro ht
    cases ht with
    | cls _ hhead => exact absurd rfl hhead
    | notCls _ hadm => exact hadm
    | byte _ _ _ h91 => exact absurd rfl h91
  · exact .notCls c

/-- A step of the matcher takes the byte exactly when the element at the front does. -/
theorem matchOne_spec (ch : UInt8 → Int) {b : UInt8} (hstar : b ≠ 42) :
    ∃ o, matchOne ch nocase (b :: p) c = some o ∧ ∀ q, Takes ch nocase (b :: p) c q ↔ o = some q := by
  by_cases hany : b = 63
  · subst hany
    refine ⟨some p, rfl, fun q => ⟨fun h => ?_, fun h => ?_⟩⟩
    · cases h with
      | any => rfl
      | byte _ _ h63 => exact absurd rfl h63
    · cases h
      exact .any c
  by_cases hcls : b = 91
  · subst hcls
    obtain ⟨p1, hp1, hiff⟩ := readAt_one 91 p
    by_cases hneg : p1 = 94
    · obtain ⟨p, rfl⟩ := (hiff 94 (by decide)).1 hneg
      obtain ⟨b, x, hx, hb⟩ := classLoop_admits ch 94 true
      exact ⟨_, (congrArg (· >>= _) hx).trans rfl, fun q => takes_notClass.trans (hb q)⟩
    obtain ⟨b, x, hx, hb⟩ := classLoop_admits ch 91 false
    refine ⟨if b != false then some (x.drop 1) else none, ?_, fun q => (takes_class fun h => ?_).trans (hb q)⟩
    · have hp1' : (p1 == 94) = false := by simpa using hneg
      rw [matchOne, readAt_zero, some_bind, hp1, some_bind, hp1']
      exact (congrArg (· >>= _) hx).trans rfl
    · exact hneg ((hiff 94 (by decide)).2 (head?_eq_some_iff.1 h))
  by_cases hquote : b = 92 ∧ p ≠ []
  · obtain ⟨rfl, hp⟩ := hquote
    obtain ⟨a, p, rfl⟩ := exists_cons_of_ne_nil hp
    refine ⟨if sameChar ch nocase a c then some p else none, by simp [matchOne], fun q => ⟨fun h => ?_, fun h => ?_⟩⟩
    · cases h with
      | quoted _ hac => exact if_pos (sameChar_iff.2 hac)
      | byte _ _ _ _ h92 => cases h92 rfl
    · split at h
      next hac =>
        cases h
        exact .quoted a (sameChar_iff.1 hac)
      · cases h
  · have hesc : ¬(b = 92 ∧ (b :: p).length ≥ 2) := fun h => hquote ⟨h.1, fun hp => by simp [hp] at h⟩
    refine ⟨if sameChar ch nocase b c then some p else none, ?_, fun q => ⟨fun h => ?_, fun h => ?_⟩⟩
    · rw [matchOne, readAt_zero, some_bind, if_neg hany, if_neg hcls]
      simp only [hesc, if_false]
      simp
    · cases h with
      | any => exact absurd rfl hany
      | cls | notCls => exact absurd rfl hcls
      | quoted => exact absurd ⟨rfl, cons_ne_nil _ _⟩ hquote
      | byte _ _ _ _ _ hbc => exact if_pos (sameChar_iff.2 hbc)
    · split at h
      next hbc =>
        cases h
        have hlast : b = 92 → p = [] := fun h92 => not_not.1 fun hp => hquote ⟨h92, hp⟩
        exact .byte b hstar hany hcls hlast (sameChar_iff.1 hbc)
      · cases h

theorem matches_star : Matches ch nocase (42 :: p) s ↔ ∃ t, t <:+ s ∧ Matches ch nocase p t := by
  constructor
  · intro h
    cases h with
    | star hsuf h => exact ⟨_, hsuf, h⟩
    | take ht =>
      cases ht with
      | byte _ h42 => exact absurd rfl h42
  · rintro ⟨t, hsuf, h⟩
    exact .star hsuf h

theorem matches_stars : Matches ch nocase (42 :: p) s ↔ ∃ t, t <:+ s ∧ Matches ch nocase (p.dropWhile (· == 42)) t := by
  induction p generalizing s with
  | nil => exact matches_star
  | cons b p ih =>
    by_cases hb : b = 42
    · subst hb
      rw [matches_star]
      constructor
      · rintro ⟨t, hts, ht⟩
        obtain ⟨u, hut, hu⟩ := ih.1 ht
        exact ⟨u, hut.trans hts, hu⟩
      · rintro ⟨t, hts, ht⟩
        exact ⟨s, suffix_refl s, ih.2 ⟨t, hts, ht⟩⟩
    · rw [matches_star, dropWhile_cons_of_neg (by simpa using hb)]

theorem matches_empty : Matches ch nocase p [] ↔ p.dropWhile (· == 42) = [] := by
  induction p with
  | nil => exact ⟨fun _ => rfl, fun _ => .nil⟩
  | cons b p ih =>
    by_cases hb : b = 42
    · subst hb
      rw [matches_star, dropWhile_cons_of_pos (by decide), ← ih]
      simp
    rw [dropWhile_cons_of_neg (by simpa using hb)]
    constructor
    · intro h
      cases h with
      | star => exact absurd rfl hb
    · intro h
      cases h

theorem starLoop_spec {f : List UInt8 → Option Bool} {P : List UInt8 → Prop}
    (hf : ∀ t, t ≠ [] → ∃ b, f t = some b ∧ (b = true ↔ P t)) (s : List UInt8) :
    ∃ b, starLoop f s = some b ∧ (b = true ↔ ∃ t, t <:+ s ∧ t ≠ [] ∧ P t) := by
  induction s with
  | nil => exact ⟨false, rfl, by simp⟩
  | cons c s ih =>
    obtain ⟨b, hb, hP⟩ := hf (c :: s) (cons_ne_nil _ _)
    obtain ⟨b', hb', hP'⟩ := ih
    have hcons : (∃ t, t <:+ c :: s ∧ t ≠ [] ∧ P t) ↔ b = true ∨ b' = true := by
      simp [suffix_cons_iff, or_and_right, exists_or, cons_ne_nil, hP, hP']
    rw [starLoop, hb, hcons]
    cases b with
    | true => exact ⟨true, rfl, by simp⟩
    | false => exact ⟨b', hb', by simp⟩

theorem matchLoop_spec (ch : UInt8 → Int) (hfuel : p.length < fuel) (hs : s ≠ []) :
    ∃ b, matchLoop ch nocase fuel p s = some b ∧ (b = true ↔ Matches ch nocase p s) := by
  induction fuel generalizing p s with
  | zero => exact absurd hfuel (Nat.not_lt_zero _)
  | succ fuel ih =>
    rcases p with - | ⟨b, p⟩
    · refine ⟨false, by simp [matchLoop, hs], ?_⟩
      rw [Bool.false_eq_true, false_iff]
      intro h
      cases h with
      | nil => exact hs rfl
      | take ht => cases ht
    have hlen : p.length < fuel := by simpa using hfuel
    rw [matchLoop, if_neg (by simp [hs]), readAt_zero, some_bind]
    split
    next hstar =>
      subst hstar
      rw [matches_stars, drop_one, tail_cons]
      generalize hrest : p.dropWhile (· == 42) = q
      dsimp only
      split
      next hnil =>
        subst hnil
        exact ⟨true, rfl, by simpa using ⟨[], nil_suffix, .nil⟩⟩
      next hne =>
        have hqlen : q.length < fuel := (hrest ▸ (dropWhile_suffix _).length_le).trans_lt hlen
        obtain ⟨b, hb, hiff⟩ := starLoop_spec (fun t ht => ih hqlen ht) s
        refine ⟨b, hb, hiff.trans ⟨?_, ?_⟩⟩
        · rintro ⟨t, hts, -, ht⟩
          exact ⟨t, hts, ht⟩
        rintro ⟨t, hts, ht⟩
        refine ⟨t, hts, ?_, ht⟩
        rintro rfl
        rw [matches_empty, ← hrest, dropWhile_idempotent, hrest] at ht
        exact hne ht
    next hstar =>
      obtain ⟨c, s, rfl⟩ := exists_cons_of_ne_nil hs
      obtain ⟨o, ho, htakes⟩ := matchOne_spec ch hstar
      have hiff : Matches ch nocase (b :: p) (c :: s) ↔ ∃ q, o = some q ∧ Matches ch nocase q s := by
        constructor
        · intro h
          cases h with
          | star => exact absurd rfl hstar
          | take ht h => exact ⟨_, (htakes _).1 ht, h⟩
        · rintro ⟨q, hq, h⟩
          exact .take ((htakes q).2 hq) h
      rw [head?_cons, some_bind, ho, hiff, drop_one, tail_cons]
      rcases o with - | q
      · exact ⟨false, rfl, by simp⟩
      simp only [Option.some.injEq, exists_eq_left']
      split
      next hnil => exact ⟨_, rfl, by rw [hnil, matches_empty, decide_eq_true_eq]⟩
      next hne => exact ih (Nat.lt_of_lt_of_le ((htakes q).2 rfl).length_lt hlen) hne

/-- On a string that is not empty, the matcher decides the language of the pattern. -/
theorem stringmatchlen_iff (ch : UInt8 → Int) (p : List UInt8) {s : List UInt8} (hs : s ≠ []) :
    ∃ b, stringmatchlen ch false p s = some b ∧ (b = true ↔ Matches ch false p s) := by
  exact matchLoop_spec ch (Nat.lt_succ_self _) hs

theorem stringmatchlen_iff_class : [255] ≠ ([] : List UInt8) ∧ ∃ b,
    stringmatchlen (fun c => c.toInt8.toInt) false [91, 94, 97, 45, 200] [255] = some b ∧
      (b = true ↔ Matches (fun c => c.toInt8.toInt) false [91, 94, 97, 45, 200] [255]) :=
  ⟨by decide, stringmatchlen_iff _ _ (by decide)⟩

/-! ### The star -/

theorem stringmatchlen_nil (ch : UInt8 → Int) (nocase : Bool) (p : List UInt8) :
    stringmatchlen ch nocase p [] = some (decide (p = [])) := by
  simp [stringmatchlen, matchLoop]

theorem stringmatchlen_true_iff (hs : s ≠ []) : stringmatchlen ch nocase p s = some true ↔ Matches ch nocase p s := by
  obtain ⟨b, hb, hiff⟩ := matchLoop_spec ch (Nat.lt_succ_self p.length) hs
  rw [stringmatchlen, hb, Option.some.injEq, hiff]

/-- A star in front of a pattern skips a part of the string, unless both the pattern behind it and the
string are empty. -/
theorem stringmatchlen_star_iff (ch : UInt8 → Int) (nocase : Bool) {p s : List UInt8} (h : p ≠ [] ∨ s ≠ []) :
    stringmatchlen ch nocase (42 :: p) s = some true ↔ ∃ t, t <:+ s ∧ stringmatchlen ch nocase p t = some true := by
  by_cases hs : s = []
  · subst hs
    simpa [stringmatchlen_nil] using h
  rw [stringmatchlen_true_iff hs, matches_star]
  constructor
  · rintro ⟨t, hts, ht⟩
    by_cases hnil : t = []
    · subst hnil
      rcases p with - | ⟨b, p⟩
      · exact ⟨[], hts, rfl⟩
      -- the pattern is a run of stars, which takes the whole string
      refine ⟨s, suffix_refl s, (stringmatchlen_true_iff hs).2 ?_⟩
      cases ht with
      | star hsuf ht => exact .star hts (suffix_nil.1 hsuf ▸ ht)
    · exact ⟨t, hts, (stringmatchlen_true_iff hnil).2 ht⟩
  · rintro ⟨t, hts, ht⟩
    by_cases hnil : t = []
    · subst hnil
      rw [stringmatchlen_nil, Option.some.injEq, decide_eq_true_eq] at ht
      subst ht
      exact ⟨[], hts, .nil⟩
    · exact ⟨t, hts, (stringmatchlen_true_iff hnil).1 ht⟩

theorem stringmatchlen_star_iff_empty : ([42] : List UInt8) ≠ [] ∧
    (stringmatchlen (fun c => c.toNat) false [42, 42] [] = some true ↔
      ∃ t, t <:+ [] ∧ stringmatchlen (fun c => c.toNat) false [42] t = some true) :=
  ⟨by decide, stringmatchlen_star_iff _ _ (.inl (by decide))⟩

/-- The empty pattern matches the empty string, `*` and `**` do not. -/
theorem stringmatchlen_star_misses_empty :
    stringmatchlen (fun c => c.toNat) false [] [] = some true ∧
      stringmatchlen (fun c => c.toNat) false [42] [] = some false ∧
      stringmatchlen (fun c => c.toNat) false [42, 42] [] = some false := by
  decide

end Redis.Glob
