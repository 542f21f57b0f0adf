import Workflow.Proofs.Literal

/-! How far a literal reaches. The scanner takes characters of literals from the front of a text, and
what it takes does not depend on the text behind the first other character. -/

namespace Workflow.Json.Literal

/-- The character may stand in a literal. -/
def isPart (c : Char) : Bool := (digit? c).isSome || c ∈ ['-', '+', '.', 'e', 'E']

/-- No character of a literal stands at the front. -/
def Stops (cs : List Char) : Prop := ∀ c ∈ cs.head?, isPart c = false

/-- The sign of an exponent, and what follows it. -/
def exponentSign : List Char → Bool × List Char
  | '+' :: r => (false, r)
  | '-' :: r => (true, r)
  | r => (false, r)

theorem scanExponent_cons (c : Char) (r : List Char) : scanExponent (c :: r) =
    if c = 'e' ∨ c = 'E' then
      (someDigits (exponentSign r).2).map fun p =>
        (some (if (exponentSign r).1 then -(ofDigits p.1 : Int) else ofDigits p.1), p.2)
    else some (none, c :: r) := by
  cases r with
  | nil =>
    simp only [scanExponent]
    split <;> rfl
  | cons d s =>
    by_cases hplus : d = '+'
    · subst hplus
      simp only [scanExponent, exponentSign]
      split
      · cases someDigits s <;> rfl
      · rfl
    by_cases hminus : d = '-'
    · subst hminus
      simp only [scanExponent, exponentSign]
      split
      · cases someDigits s <;> rfl
      · rfl
    have hsign : exponentSign (d :: s) = (false, d :: s) := by simp [exponentSign, hplus, hminus]
    rw [hsign]
    cases hdigits : someDigits (d :: s) <;> simp [scanExponent, hplus, hminus, hdigits]

section Append

variable {rest : List Char} (h : Stops rest) (cs : List Char)
include h

theorem Stops.endsDigits : EndsDigits rest := by
  intro c hc
  have hpart := h c hc
  simp only [isPart, Bool.or_eq_false_iff, Option.isSome_eq_false_iff, Option.isNone_iff_eq_none]
    at hpart
  exact hpart.1

theorem Stops.ne {c d : Char} {r : List Char} (hc : isPart d = true) (hr : rest = c :: r) : c ≠ d := by
  rintro rfl
  have hpart := h c (hr ▸ rfl)
  rw [hc] at hpart
  cases hpart

theorem spanDigits_append :
    spanDigits (cs ++ rest) = ((spanDigits cs).1, (spanDigits cs).2 ++ rest) := by
  induction cs with
  | nil => exact h.endsDigits.spanDigits_eq
  | cons c r ih =>
    simp only [List.cons_append, spanDigits, ih]
    cases digit? c <;> rfl

theorem someDigits_append :
    someDigits (cs ++ rest) = (someDigits cs).map fun p => (p.1, p.2 ++ rest) := by
  unfold someDigits
  rw [spanDigits_append h]
  obtain ⟨_ | _, r⟩ := spanDigits cs <;> rfl

theorem scanSign_append : scanSign (cs ++ rest) = ((scanSign cs).1, (scanSign cs).2 ++ rest) := by
  cases cs with
  | nil =>
    cases rest with
    | nil => rfl
    | cons c r =>
      have hc : c ≠ '-' := h.ne rfl rfl
      simp [scanSign, hc]
  | cons c r => by_cases hc : c = '-' <;> simp [scanSign, hc]

theorem scanWhole_append :
    scanWhole (cs ++ rest) = (scanWhole cs).map fun p => (p.1, p.2 ++ rest) := by
  unfold scanWhole
  rw [someDigits_append h]
  obtain _ | ⟨_ | ⟨_ | _, _ | _⟩, r⟩ := someDigits cs <;> rfl

theorem scanFraction_append :
    scanFraction (cs ++ rest) = (scanFraction cs).map fun p => (p.1, p.2 ++ rest) := by
  cases cs with
  | nil =>
    cases rest with
    | nil => rfl
    | cons c r =>
      have hc : c ≠ '.' := h.ne rfl rfl
      simp [scanFraction, hc]
  | cons c r =>
    by_cases hc : c = '.'
    · subst hc
      exact someDigits_append h r
    · simp [scanFraction, hc]

theorem exponentSign_append :
    exponentSign (cs ++ rest) = ((exponentSign cs).1, (exponentSign cs).2 ++ rest) := by
  cases cs with
  | nil =>
    cases rest with
    | nil => rfl
    | cons c r =>
      have hplus : c ≠ '+' := h.ne rfl rfl
      have hminus : c ≠ '-' := h.ne rfl rfl
      simp [exponentSign, hplus, hminus]
  | cons c r =>
    by_cases hplus : c = '+'
    · simp [exponentSign, hplus]
    · by_cases hminus : c = '-' <;> simp [exponentSign, hplus, hminus]

theorem scanExponent_append :
    scanExponent (cs ++ rest) = (scanExponent cs).map fun p => (p.1, p.2 ++ rest) := by
  cases cs with
  | nil =>
    cases rest with
    | nil => rfl
    | cons c r =>
      have hlower : c ≠ 'e' := h.ne rfl rfl
      have hupper : c ≠ 'E' := h.ne rfl rfl
      simp [scanExponent, hlower, hupper]
  | cons c r =>
    rw [List.cons_append, scanExponent_cons, scanExponent_cons, exponentSign_append h,
      someDigits_append h]
    split
    · cases someDigits (exponentSign r).2 <;> rfl
    · rfl

theorem scan_append : scan (cs ++ rest) = (scan cs).map fun p => (p.1, p.2 ++ rest) := by
  simp only [scan, scanSign_append h, scanWhole_append h, scanFraction_append h,
    scanExponent_append h, Option.bind_eq_bind, Option.bind_map, Option.map_bind, Function.comp_def,
    Option.pure_def, Option.map_some]

end Append

theorem spanDigits_suffix (cs : List Char) : (spanDigits cs).2 <:+ cs := by
  induction cs with
  | nil => exact List.suffix_rfl
  | cons c r ih =>
    rw [spanDigits]
    split
    · exact ih.trans (List.suffix_cons c r)
    · exact List.suffix_rfl

theorem scanSign_suffix (cs : List Char) : (scanSign cs).2 <:+ cs := by
  unfold scanSign
  split
  · exact List.suffix_cons _ _
  · exact List.suffix_rfl

theorem exponentSign_suffix (cs : List Char) : (exponentSign cs).2 <:+ cs := by
  unfold exponentSign
  split
  · exact List.suffix_cons _ _
  · exact List.suffix_cons _ _
  · exact List.suffix_rfl

section Suffix

variable {cs r : List Char}

theorem someDigits_suffix {ds : List Nat} (h : someDigits cs = some (ds, r)) : r <:+ cs := by
  have hspan := spanDigits_suffix cs
  unfold someDigits at h
  split at h
  · cases h
  · rename_i hds
    cases h
    rwa [hds] at hspan

theorem scanWhole_suffix {ds : List Nat} (h : scanWhole cs = some (ds, r)) : r <:+ cs := by
  unfold scanWhole at h
  split at h
  · cases h
  · exact someDigits_suffix h

theorem scanFraction_suffix {ds : List Nat} (h : scanFraction cs = some (ds, r)) : r <:+ cs := by
  unfold scanFraction at h
  split at h
  · exact (someDigits_suffix h).trans (List.suffix_cons _ _)
  · cases h
    exact List.suffix_rfl

theorem scanExponent_suffix {e : Option Int} (h : scanExponent cs = some (e, r)) : r <:+ cs := by
  cases cs with
  | nil =>
    cases h
    exact List.suffix_rfl
  | cons c s =>
    rw [scanExponent_cons] at h
    split at h
    · obtain ⟨⟨ds, r⟩, hds, heq⟩ := Option.map_eq_some_iff.1 h
      cases heq
      exact ((someDigits_suffix hds).trans (exponentSign_suffix s)).trans (List.suffix_cons c s)
    · cases h
      exact List.suffix_rfl

theorem scan_suffix {l : Literal} (h : scan cs = some (l, r)) : r <:+ cs := by
  unfold scan at h
  obtain ⟨⟨whole, s⟩, hwhole, h⟩ := Option.bind_eq_some_iff.1 h
  obtain ⟨⟨fraction, t⟩, hfraction, h⟩ := Option.bind_eq_some_iff.1 h
  obtain ⟨⟨exponent, u⟩, hexponent, h⟩ := Option.bind_eq_some_iff.1 h
  cases h
  have hrest := (scanExponent_suffix hexponent).trans (scanFraction_suffix hfraction)
  exact (hrest.trans (scanWhole_suffix hwhole)).trans (scanSign_suffix cs)

end Suffix

/-- A literal that no character goes on with is read alike whatever follows it. -/
theorem exists_word_of_scan {cs r : List Char} {l : Literal} (h : scan cs = some (l, r))
    (hr : Stops r) : ∃ w, cs = w ++ r ∧ w ≠ [] ∧ (∀ c ∈ w, isPart c = true) ∧
      ∀ rest, Stops rest → scan (w ++ rest) = some (l, rest) := by
  have hcs := List.takeWhile_append_dropWhile (p := isPart) (l := cs)
  have hword := List.all_takeWhile (p := isPart) (l := cs)
  have hstops : Stops (cs.dropWhile isPart) := by
    intro c hc
    have hnot := List.head?_dropWhile_not isPart cs
    rw [Option.mem_def.1 hc] at hnot
    exact hnot
  generalize cs.takeWhile isPart = w at hcs hword
  generalize cs.dropWhile isPart = front at hcs hstops
  subst hcs
  rw [scan_append hstops] at h
  obtain ⟨⟨_, s⟩, hscan, heq⟩ := Option.map_eq_some_iff.1 h
  cases heq
  obtain rfl : s = [] := by
    rcases s with _ | ⟨c, s⟩
    · rfl
    · have hc := List.all_eq_true.1 hword c ((scan_suffix hscan).subset List.mem_cons_self)
      exact absurd rfl (hr.ne hc rfl)
  refine ⟨w, rfl, ?_, List.all_eq_true.1 hword, fun rest hrest => ?_⟩
  · rintro rfl
    cases hscan
  · rw [scan_append hrest, hscan]
    rfl

end Workflow.Json.Literal
