import Mathlib.Tactic.IntervalCases
import Workflow.Json.Literal
import Workflow.Number.Layout

/-! Number literals as text. A literal is written digit by digit, and the scanner gives it back
whatever follows, unless what follows could go on with it. -/

namespace Workflow.Json.Literal

def printDigits (ds : List Nat) : List Char := ds.map Nat.digitChar

/-- The point is left out with the fraction. -/
def printFraction (ds : List Nat) : List Char := if ds = [] then [] else '.' :: printDigits ds

def printExponent : Option Int → List Char
  | none => []
  | some e => Layout.exponentText e

def print (l : Literal) : List Char :=
  (if l.negative then ['-'] else []) ++ printDigits l.whole ++ printFraction l.fraction ++
    printExponent l.exponent

/-- The grammar: digits are digits, there is a whole part, and a leading zero stands alone. -/
structure Grammatical (l : Literal) : Prop where
  whole_digits : ∀ d ∈ l.whole, d < 10
  fraction_digits : ∀ d ∈ l.fraction, d < 10
  whole_ne_nil : l.whole ≠ []
  leading : ∀ r, l.whole = 0 :: r → r = []

/-- No digit stands at the front. -/
def EndsDigits (cs : List Char) : Prop := ∀ c ∈ cs.head?, digit? c = none

/-- Nothing at the front could go on with a literal. -/
structure EndsLiteral (cs : List Char) : Prop where
  digits : EndsDigits cs
  fraction : ∀ c ∈ cs.head?, c ≠ '.'
  exponent : ∀ c ∈ cs.head?, c ≠ 'e' ∧ c ≠ 'E'

theorem endsLiteral_nil : EndsLiteral [] := ⟨nofun, nofun, nofun⟩

theorem digit?_digitChar {d : Nat} (h : d < 10) : digit? (Nat.digitChar d) = some d := by
  interval_cases d <;> rfl

theorem EndsDigits.spanDigits_eq {cs : List Char} (h : EndsDigits cs) : spanDigits cs = ([], cs) := by
  cases cs with
  | nil => rfl
  | cons c r =>
    have hc : digit? c = none := h c rfl
    simp [spanDigits, hc]

theorem spanDigits_printDigits {ds : List Nat} (h : ∀ d ∈ ds, d < 10) {rest : List Char}
    (hrest : EndsDigits rest) : spanDigits (printDigits ds ++ rest) = (ds, rest) := by
  induction ds with
  | nil => exact hrest.spanDigits_eq
  | cons d r ih =>
    obtain ⟨hd, hr⟩ := List.forall_mem_cons.1 h
    simp only [printDigits, List.map_cons, List.cons_append, spanDigits, digit?_digitChar hd]
    rw [← printDigits, ih hr]

theorem someDigits_printDigits {ds : List Nat} (h : ∀ d ∈ ds, d < 10) (hne : ds ≠ [])
    {rest : List Char} (hrest : EndsDigits rest) :
    someDigits (printDigits ds ++ rest) = some (ds, rest) := by
  unfold someDigits
  rw [spanDigits_printDigits h hrest]
  cases ds with
  | nil => exact absurd rfl hne
  | cons d r => rfl

theorem scanWhole_printDigits {ds : List Nat} (h : ∀ d ∈ ds, d < 10) (hne : ds ≠ [])
    (hlead : ∀ r, ds = 0 :: r → r = []) {rest : List Char} (hrest : EndsDigits rest) :
    scanWhole (printDigits ds ++ rest) = some (ds, rest) := by
  unfold scanWhole
  rw [someDigits_printDigits h hne hrest]
  split
  · rename_i hzero
    cases hzero
    cases hlead _ rfl
  · rfl

theorem scanFraction_printFraction {ds : List Nat} (h : ∀ d ∈ ds, d < 10) {rest : List Char}
    (hdigits : EndsDigits rest) (hpoint : ∀ c ∈ rest.head?, c ≠ '.') :
    scanFraction (printFraction ds ++ rest) = some (ds, rest) := by
  unfold printFraction
  split
  · rename_i hnil
    subst hnil
    cases rest with
    | nil => rfl
    | cons c r =>
      have hc : c ≠ '.' := hpoint c rfl
      simp [scanFraction, hc]
  · rename_i hne
    exact someDigits_printDigits h hne hdigits

/-! The digits of a natural. -/

def decimalDigits (n : Nat) : List Nat :=
  if n < 10 then [n] else decimalDigits (n / 10) ++ [n % 10]

theorem decimalDigits_of_lt {n : Nat} (h : n < 10) : decimalDigits n = [n] := by
  rw [decimalDigits, if_pos h]

theorem decimalDigits_of_le {n : Nat} (h : 10 ≤ n) :
    decimalDigits n = decimalDigits (n / 10) ++ [n % 10] := by
  rw [decimalDigits, if_neg (Nat.not_lt.2 h)]

theorem printDigits_decimalDigits (n : Nat) : printDigits (decimalDigits n) = Layout.digitsOf n := by
  induction n using decimalDigits.induct with
  | case1 n h =>
    rw [decimalDigits_of_lt h, Layout.digitsOf, Nat.toDigits_of_lt_base h]
    rfl
  | case2 n h ih =>
    have h := Nat.not_lt.1 h
    rw [decimalDigits_of_le h, Layout.digitsOf, Nat.toDigits_of_base_le (by decide) h, ← Layout.digitsOf,
      ← ih, printDigits, List.map_append]
    rfl

theorem lt_ten_of_mem_decimalDigits {n d : Nat} (h : d ∈ decimalDigits n) : d < 10 := by
  induction n using decimalDigits.induct with
  | case1 n hn =>
    rw [decimalDigits_of_lt hn, List.mem_singleton] at h
    rwa [h]
  | case2 n hn ih =>
    rw [decimalDigits_of_le (Nat.not_lt.1 hn), List.mem_append, List.mem_singleton] at h
    rcases h with h | rfl
    · exact ih h
    · exact Nat.mod_lt _ (by decide)

theorem decimalDigits_ne_nil (n : Nat) : decimalDigits n ≠ [] := by
  rw [decimalDigits]
  split <;> simp

theorem ofDigits_decimalDigits (n : Nat) : ofDigits (decimalDigits n) = n := by
  induction n using decimalDigits.induct with
  | case1 n h =>
    rw [decimalDigits_of_lt h]
    exact Nat.zero_add n
  | case2 n h ih =>
    rw [decimalDigits_of_le (Nat.not_lt.1 h)]
    unfold ofDigits at ih ⊢
    rw [List.foldl_append, ih]
    exact Nat.div_add_mod' n 10

theorem head?_decimalDigits_ne_zero {n : Nat} (h : 0 < n) : (decimalDigits n).head? ≠ some 0 := by
  induction n using decimalDigits.induct with
  | case1 n hn =>
    rw [decimalDigits_of_lt hn]
    simp only [List.head?_cons, ne_eq, Option.some.injEq]
    omega
  | case2 n hn ih =>
    obtain ⟨d, r, hdr⟩ := List.exists_cons_of_ne_nil (decimalDigits_ne_nil (n / 10))
    rw [decimalDigits_of_le (Nat.not_lt.1 hn), hdr]
    rw [hdr] at ih
    exact ih (by omega)

/-! Exponents, and whole literals. -/

theorem scanExponent_printExponent (e : Option Int) {rest : List Char} (h : EndsLiteral rest) :
    scanExponent (printExponent e ++ rest) = some (e, rest) := by
  cases e with
  | none =>
    cases rest with
    | nil => rfl
    | cons c r =>
      have hc : ¬ (c = 'e' ∨ c = 'E') := not_or.2 (h.exponent c rfl)
      simp [printExponent, scanExponent, hc]
  | some e =>
    have hdigits : someDigits (Layout.digitsOf e.natAbs ++ rest) =
        some (decimalDigits e.natAbs, rest) := by
      rw [← printDigits_decimalDigits]
      exact someDigits_printDigits (fun _ => lt_ten_of_mem_decimalDigits) (decimalDigits_ne_nil _)
        h.digits
    unfold printExponent Layout.exponentText
    by_cases hneg : e < 0
    · have habs : -(e.natAbs : Int) = e := by omega
      simp only [hneg, if_true, List.cons_append, scanExponent, true_or, hdigits,
        ofDigits_decimalDigits, habs]
    · have habs : (e.natAbs : Int) = e := by omega
      simp only [hneg, if_false, List.cons_append, scanExponent, true_or, if_true, hdigits,
        ofDigits_decimalDigits, Bool.false_eq_true, habs]

theorem endsDigits_printExponent (e : Option Int) {rest : List Char} (h : EndsDigits rest) :
    EndsDigits (printExponent e ++ rest) := by
  cases e with
  | none => exact h
  | some e =>
    rintro c ⟨⟩
    rfl

theorem endsDigits_printFraction (ds : List Nat) {rest : List Char} (h : EndsDigits rest) :
    EndsDigits (printFraction ds ++ rest) := by
  unfold printFraction
  split
  · exact h
  · rintro c ⟨⟩
    rfl

/-- The first digit is no sign. -/
theorem digitChar_ne_minus {d : Nat} (h : d < 10) : Nat.digitChar d ≠ '-' := by
  interval_cases d <;> decide

theorem scanSign_print {l : Literal} (hl : l.Grammatical) (rest : List Char) :
    scanSign (l.print ++ rest) = (l.negative, printDigits l.whole ++
      (printFraction l.fraction ++ (printExponent l.exponent ++ rest))) := by
  unfold print
  simp only [List.append_assoc]
  cases l.negative with
  | true => rfl
  | false =>
    obtain ⟨d, r, hdr⟩ := List.exists_cons_of_ne_nil hl.whole_ne_nil
    have hd : d < 10 := hl.whole_digits d (hdr ▸ List.mem_cons_self)
    rw [hdr]
    unfold scanSign
    split
    · rename_i hcons
      exact absurd (List.cons.inj hcons).1 (digitChar_ne_minus hd)
    · rfl

theorem ne_point_printExponent (e : Option Int) {rest : List Char} (h : EndsLiteral rest) :
    ∀ c ∈ (printExponent e ++ rest).head?, c ≠ '.' := by
  cases e with
  | none => exact h.fraction
  | some e =>
    rintro c ⟨⟩
    decide

/-- A literal is scanned to its end and no further. -/
theorem scan_print {l : Literal} (hl : l.Grammatical) {rest : List Char} (hrest : EndsLiteral rest) :
    scan (l.print ++ rest) = some (l, rest) := by
  have hdigits := endsDigits_printExponent l.exponent hrest.digits
  have hexponent := scanExponent_printExponent l.exponent hrest
  have hfraction := scanFraction_printFraction hl.fraction_digits hdigits
    (ne_point_printExponent l.exponent hrest)
  have hwhole := scanWhole_printDigits hl.whole_digits hl.whole_ne_nil hl.leading
    (endsDigits_printFraction l.fraction hdigits)
  unfold scan
  rw [scanSign_print hl]
  simp [hwhole, hfraction, hexponent]

end Workflow.Json.Literal
