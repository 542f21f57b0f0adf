import Mathlib
import Workflow.Condition

/-! Values as they are displayed in a line of text. A number is one word of few characters, and a text
without blanks and parentheses is one word in quotes; neither is a word of the line's own. -/

namespace Workflow

/-- What separates the words of a line. -/
def delimiters : List Char := [' ', '(', ')']

/-- One word. -/
def Plain (cs : List Char) : Prop := ∀ c ∈ cs, c ∉ delimiters

namespace Value

/-- A text is one word. -/
def Plain : Value → Prop
  | text s => Workflow.Plain s.toList
  | _ => True

/-- The characters that numbers are displayed with. -/
def InNumber (c : Char) : Prop := c.isDigit = true ∨ c ∈ ['-', '.', 'N', 'a', 'i', 'n', 'f']

theorem inNumber_of_mem_digitsOf {n : Nat} {c : Char} (h : c ∈ Layout.digitsOf n) : InNumber c :=
  .inl (Nat.isDigit_of_mem_toDigits (by decide) (by decide) h)

theorem inNumber_of_mem_zeros {n : Nat} {c : Char} (h : c ∈ List.replicate n '0') : InNumber c := by
  obtain rfl := List.eq_of_mem_replicate h
  exact .inl rfl

theorem inNumber_of_mem_unsigned {d : Decimal} {c : Char} (h : c ∈ layout.unsigned d) :
    InNumber c := by
  have hpoint : InNumber '.' := .inr (by decide)
  have hzero : InNumber '0' := .inl rfl
  have hdigits {c : Char} (hc : c ∈ Layout.digitsOf d.digits) := inNumber_of_mem_digitsOf hc
  unfold Layout.unsigned at h
  simp only [layout, if_true] at h
  split at h
  · simp only [List.cons_append, List.mem_cons, List.mem_append] at h
    rcases h with rfl | rfl | h | h
    · exact hzero
    · exact hpoint
    · exact inNumber_of_mem_zeros h
    · exact hdigits h
  · split at h
    · simp only [List.append_nil, List.mem_append] at h
      rcases h with h | h
      · exact hdigits h
      · exact inNumber_of_mem_zeros h
    · simp only [List.mem_append, List.mem_cons] at h
      rcases h with h | rfl | h
      · exact hdigits (List.mem_of_mem_take h)
      · exact hpoint
      · exact hdigits (List.mem_of_mem_drop h)

theorem inNumber_of_mem_showNumber {x : Binary64} {c : Char} (h : c ∈ showNumber x) :
    InNumber c := by
  have hwords : ∀ w ∈ [['N', 'a', 'N'], ['i', 'n', 'f'], ['-', 'i', 'n', 'f']], ∀ c ∈ w,
      c ∈ ['-', '.', 'N', 'a', 'i', 'n', 'f'] := by simp
  unfold showNumber at h
  split at h
  · exact .inr (hwords _ (by simp) c h)
  split at h
  · split at h
    · exact .inr (hwords _ (by simp) c h)
    · exact .inr (hwords _ (by simp) c h)
  split at h
  · obtain rfl := List.mem_singleton.1 h
    exact .inl rfl
  · rename_i hzero
    rw [Layout.finite, if_neg hzero] at h
    split at h
    · rcases List.mem_cons.1 h with rfl | h
      · exact .inr (by decide)
      · exact inNumber_of_mem_unsigned h
    · exact inNumber_of_mem_unsigned h

theorem plain_of_inNumber {cs : List Char} (h : ∀ c ∈ cs, InNumber c) : Workflow.Plain cs := by
  have hnone : ∀ d ∈ delimiters, ¬ InNumber d := by simp [delimiters, InNumber]
  intro c hc hdelimiter
  exact hnone c hdelimiter (h c hc)

end Value

/-- One word that the line does not use for anything else. -/
structure Displayed (s : String) : Prop where
  plain : Plain s.toList
  ne_undefined : s ≠ "undefined"
  ne_name : ∀ c : Connective, s ≠ c.name

theorem Displayed.of_head {s : String} (hplain : Plain s.toList)
    (hhead : ∀ c ∈ s.toList.head?, c ∉ ['u', 'A', 'O']) : Displayed s where
  plain := hplain
  ne_undefined := by
    rintro rfl
    exact hhead 'u' rfl (by decide)
  ne_name c := by
    rintro rfl
    cases c with
    | and => exact hhead 'A' rfl (by decide)
    | or => exact hhead 'O' rfl (by decide)

/-- A value is displayed as one word. -/
theorem Value.Plain.displayed {v : Value} (h : v.Plain) : Displayed v.display := by
  have hchars : v.display.toList = v.print := String.toList_ofList
  cases v with
  | boolean b =>
    cases b with
    | false => apply Displayed.of_head <;> simp [hchars, print, Workflow.Plain, delimiters]
    | true => apply Displayed.of_head <;> simp [hchars, print, Workflow.Plain, delimiters]
  | text s =>
    apply Displayed.of_head
    · rw [hchars]
      intro c hc
      simp only [print, List.cons_append, List.mem_cons, List.mem_append, List.not_mem_nil,
        or_false] at hc
      rcases hc with rfl | hc | rfl
      · decide
      · exact h c hc
      · decide
    · rw [hchars]
      rintro c ⟨⟩
      decide
  | number x =>
    have hnumber : ∀ c ∈ (number x).display.toList, InNumber c := by
      rw [hchars]
      intro c hc
      exact inNumber_of_mem_showNumber hc
    apply Displayed.of_head (plain_of_inNumber hnumber)
    intro c hc hword
    have hnone : ∀ d ∈ ['u', 'A', 'O'], ¬ InNumber d := by simp [InNumber]
    exact hnone c hword (hnumber c (List.mem_of_mem_head? hc))

end Workflow
