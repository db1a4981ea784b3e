import Mathlib.Data.Option.Basic

/-! # One set of records, indexed twice

Records are found by key in a main index and in the index of the owner that each record points back
to. `Twin` says that the indexes agree, and the lemmas say which changes of the three maps keep it. -/

namespace Redis

variable {I R O : Type}

/-- The main index, the back pointers of the records and the indexes of the owners agree. -/
structure Twin (main : I → Option R) (owner : R → Option O) (owns : O → I → Option R) : Prop where
  down : ∀ i r, main i = some r → ∃ o, owner r = some o ∧ owns o i = some r
  up : ∀ o i r, owns o i = some r → main i = some r ∧ owner r = some o
  inj : ∀ i j r, main i = some r → main j = some r → i = j

namespace Twin
variable {main main' : I → Option R} {owner owner' : R → Option O} {owns owns' : O → I → Option R}
  {i : I} {r : R} {o : O}

section
variable (h : Twin main owner owns)
include h

theorem unique {o' : O} {r' : R} (ho : owns o i = some r) (ho' : owns o' i = some r') : o = o' := by
  have hr := (h.up o i r ho).1
  obtain ⟨hr', hown'⟩ := h.up o' i r' ho'
  obtain rfl : r = r' := Option.some.inj (hr.symm.trans hr')
  exact Option.some.inj ((h.up o i r ho).2.symm.trans hown')

theorem change (hmain' : ∀ j, j ≠ i → main' j = main j)
    (howner' : ∀ j s, j ≠ i → main j = some s → owner' s = owner s) (howns' : ∀ b j, j ≠ i → owns' b j = owns b j)
    (hdown : ∀ s, main' i = some s → (∃ b, owner' s = some b ∧ owns' b i = some s) ∧ ∀ j, j ≠ i → main j ≠ some s)
    (hup : ∀ b s, owns' b i = some s → main' i = some s ∧ owner' s = some b) : Twin main' owner' owns' := by
  refine ⟨fun j s hs => ?_, fun b j s hs => ?_, fun j k s hj hk => ?_⟩
  · by_cases hj : j = i
    · subst hj
      exact (hdown s hs).1
    · rw [hmain' j hj] at hs
      obtain ⟨b, hb, hown⟩ := h.down j s hs
      exact ⟨b, by rw [howner' j s hj hs, hb], by rw [howns' b j hj, hown]⟩
  · by_cases hj : j = i
    · subst hj
      exact hup b s hs
    · rw [howns' b j hj] at hs
      obtain ⟨hm, hown⟩ := h.up b j s hs
      exact ⟨by rw [hmain' j hj, hm], by rw [howner' j s hj hm, hown]⟩
  · by_cases hji : j = i <;> by_cases hki : k = i
    · rw [hji, hki]
    · exact absurd (hmain' k hki ▸ hk) ((hdown s (hji ▸ hj)).2 k hki)
    · exact absurd (hmain' j hji ▸ hj) ((hdown s (hki ▸ hk)).2 j hji)
    · rw [hmain' j hji] at hj
      rw [hmain' k hki] at hk
      exact h.inj j k s hj hk

theorem assign (hr : ∀ j, j ≠ i → main j ≠ some r) (hmain : main' i = some r)
    (hmain' : ∀ j, j ≠ i → main' j = main j) (howner : owner' r = some o)
    (howner' : ∀ j s, j ≠ i → main j = some s → owner' s = owner s) (howns : owns' o i = some r)
    (hothers : ∀ b, b ≠ o → owns' b i = none) (howns' : ∀ b j, j ≠ i → owns' b j = owns b j) :
    Twin main' owner' owns' := by
  refine h.change hmain' howner' howns' (fun s hs => ?_) fun b s hs => ?_
  · obtain rfl : r = s := Option.some.inj (hmain.symm.trans hs)
    exact ⟨⟨o, howner, howns⟩, hr⟩
  by_cases hb : b = o
  · subst hb
    obtain rfl : r = s := Option.some.inj (howns.symm.trans hs)
    exact ⟨hmain, howner⟩
  · rw [hothers b hb] at hs
    cases hs

theorem drop (hmain : main' i = none) (hmain' : ∀ j, j ≠ i → main' j = main j)
    (howner' : ∀ j s, j ≠ i → main j = some s → owner' s = owner s) (howns : ∀ b, owns' b i = none)
    (howns' : ∀ b j, j ≠ i → owns' b j = owns b j) : Twin main' owner' owns' := by
  refine h.change hmain' howner' howns' (fun s hs => ?_) fun b s hs => ?_
  · rw [hmain] at hs
    cases hs
  · rw [howns b] at hs
    cases hs

theorem dropOwner (o : O) (hmain : ∀ i, (owns o i).isSome → main' i = none)
    (hmain' : ∀ i, owns o i = none → main' i = main i) (howner : ∀ r, owner r ≠ some o → owner' r = owner r)
    (howns : ∀ i, owns' o i = none) (howns' : ∀ b, b ≠ o → owns' b = owns b) : Twin main' owner' owns' := by
  have hkey : ∀ i r, main' i = some r → owns o i = none ∧ main i = some r := by
    intro i r hi
    cases ho : owns o i with
    | none => exact ⟨rfl, hmain' i ho ▸ hi⟩
    | some s =>
      rw [hmain i (by rw [ho]; rfl)] at hi
      cases hi
  refine ⟨fun i r hi => ?_, fun b i r hb => ?_, fun i j r hi hj => h.inj i j r (hkey i r hi).2 (hkey j r hj).2⟩
  · obtain ⟨hn, hi⟩ := hkey i r hi
    obtain ⟨b, hb, hown⟩ := h.down i r hi
    have hbo : b ≠ o := by
      rintro rfl
      rw [hn] at hown
      cases hown
    exact ⟨b, by rw [howner r (by rw [hb]; simpa using hbo), hb], by rw [howns' b hbo, hown]⟩
  · have hbo : b ≠ o := by
      rintro rfl
      rw [howns i] at hb
      cases hb
    rw [howns' b hbo] at hb
    obtain ⟨hm, hown⟩ := h.up b i r hb
    have hn : owns o i = none := by
      cases ho : owns o i with
      | none => rfl
      | some s => exact absurd (h.unique hb ho) hbo
    exact ⟨by rw [hmain' i hn, hm], by rw [howner r (by rw [hown]; simpa using hbo), hown]⟩

end

end Twin
end Redis
