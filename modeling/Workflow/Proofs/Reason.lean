import Mathlib
import Workflow.Trace
import Workflow.Proofs.Display

/-! Reasons: what the line of a trace shows. A group of one item is shown as that item, and values as
they are displayed. Two lists of reasons that are joined to one text are the same, as the text of a
reason cannot go on with another reason where it ends. -/

namespace Workflow

inductive Reason where
  /-- Without `found` if the field has no value. -/
  | comparison (field : String) (comparison : Comparison) (found : Option String)
      (expected : String)
  | group (connective : Connective) (children : List Reason)

namespace Reason

/-- A single item stands for itself. -/
def ofItems (c : Connective) : List Reason → Reason
  | [r] => r
  | rs => group c rs

theorem ofItems_eq_group (c : Connective) {rs : List Reason} (h : 1 < rs.length) :
    ofItems c rs = group c rs := by
  unfold ofItems
  split
  · exact absurd h (by simp)
  · rfl

mutual

/-- The text of an item. -/
def text : Reason → List Char
  | comparison field op found expected =>
    '$' :: (field.toList ++ ' ' :: '(' :: 'w' :: 'a' :: 's' :: ' ' ::
      ((found.getD "undefined").toList ++ ')' :: ' ' ::
        (op.symbol.toList ++ ' ' :: expected.toList)))
  | group c rs => '(' :: (joined c rs ++ [')'])

/-- The texts of items with the name of their connective between them. -/
def joined (c : Connective) : List Reason → List Char
  | [] => []
  | [r] => r.text
  | r :: rs => r.text ++ ' ' :: (c.name.toList ++ ' ' :: joined c rs)

end

/-- Groups have several items, and what is shown is made of words. -/
inductive Legible : Reason → Prop
  | comparison {field : String} {op : Comparison} {found : Option String} {expected : String}
      (hfield : Plain field.toList) (hfound : ∀ s ∈ found, Displayed s)
      (hexpected : Displayed expected) : Legible (.comparison field op found expected)
  | group {c : Connective} {rs : List Reason} (hseveral : 1 < rs.length)
      (h : ∀ r ∈ rs, Legible r) : Legible (.group c rs)

theorem joined_cons (c : Connective) (r : Reason) {rs : List Reason} (h : rs ≠ []) :
    joined c (r :: rs) = r.text ++ ' ' :: (c.name.toList ++ ' ' :: joined c rs) := by
  cases rs with
  | nil => exact absurd rfl h
  | cons => rfl

/-- What stands at the front, if anything does, ends a word. -/
def Delimited (x : List Char) : Prop := ∀ c ∈ x.head?, c ∈ delimiters

theorem delimited_cons {c : Char} (h : c ∈ delimiters) (x : List Char) : Delimited (c :: x) := by
  rintro d ⟨⟩
  exact h

/-- A word ends in one place. -/
theorem cut_word {a b x y : List Char} (ha : Plain a) (hb : Plain b) (hx : Delimited x)
    (hy : Delimited y) (h : a ++ x = b ++ y) : a = b ∧ x = y := by
  induction a generalizing b with
  | nil =>
    cases b with
    | nil => exact ⟨rfl, h⟩
    | cons d b =>
      rw [List.nil_append] at h
      rw [h] at hx
      exact absurd (hx d rfl) (hb d List.mem_cons_self)
  | cons c a ih =>
    cases b with
    | nil =>
      rw [List.nil_append] at h
      rw [← h] at hy
      exact absurd (hy c rfl) (ha c List.mem_cons_self)
    | cons d b =>
      obtain ⟨rfl, htail⟩ := List.cons.inj h
      obtain ⟨rfl, hxy⟩ := ih (List.forall_mem_cons.1 ha).2 (List.forall_mem_cons.1 hb).2 htail
      exact ⟨rfl, hxy⟩

theorem cut_at {d : Char} (hd : d ∈ delimiters) {a b x y : List Char} (ha : Plain a) (hb : Plain b)
    (h : a ++ d :: x = b ++ d :: y) : a = b ∧ x = y := by
  obtain ⟨hword, hrest⟩ := cut_word ha hb (delimited_cons hd x) (delimited_cons hd y) h
  exact ⟨hword, (List.cons.inj hrest).2⟩

theorem blank_mem : ' ' ∈ delimiters := by simp [delimiters]

theorem close_mem : ')' ∈ delimiters := by simp [delimiters]

theorem plain_name (c : Connective) : Plain c.name.toList := by
  cases c <;> simp [Plain, Connective.name, delimiters]

theorem plain_symbol (op : Comparison) : Plain op.symbol.toList := by
  cases op <;> simp [Plain, Comparison.symbol, delimiters]

theorem name_injective {c d : Connective} (h : c.name.toList = d.name.toList) : c = d := by
  revert h
  cases c <;> cases d <;> simp [Connective.name]

theorem symbol_injective {op op' : Comparison} (h : op.symbol.toList = op'.symbol.toList) :
    op = op' := by
  revert h
  cases op <;> cases op' <;> simp [Comparison.symbol]

/-- Nothing follows, or the end of a group. -/
def Closes (x : List Char) : Prop := ∀ c ∈ x.head?, c = ')'

theorem closes_nil : Closes [] := nofun

theorem Closes.delimited {x : List Char} (h : Closes x) : Delimited x := by
  intro c hc
  rw [h c hc]
  exact close_mem

theorem Closes.ne_blank {x : List Char} (h : Closes x) (y : List Char) : x ≠ ' ' :: y := by
  rintro rfl
  exact absurd (h ' ' rfl) (by decide)

/-- The text of the reason is the text of no other and the beginning of none, whatever follows. -/
def Separates (r : Reason) : Prop :=
  ∀ s : Reason, s.Legible → ∀ x y, Delimited x → Delimited y → r.text ++ x = s.text ++ y →
    r = s ∧ x = y

theorem getD_toList_injective {a b : Option String} (ha : ∀ s ∈ a, Displayed s)
    (hb : ∀ s ∈ b, Displayed s)
    (h : (a.getD "undefined").toList = (b.getD "undefined").toList) : a = b := by
  rw [String.toList_inj] at h
  cases a with
  | none =>
    cases b with
    | none => rfl
    | some t => exact absurd h.symm (hb t rfl).ne_undefined
  | some s =>
    cases b with
    | none => exact absurd h (ha s rfl).ne_undefined
    | some t => exact congrArg some h

theorem plain_getD {a : Option String} (ha : ∀ s ∈ a, Displayed s) :
    Plain (a.getD "undefined").toList := by
  cases a with
  | none => simp [Plain, delimiters]
  | some s => exact (ha s rfl).plain

theorem separates_comparison {field : String} {op : Comparison} {found : Option String}
    {expected : String} (hfield : Plain field.toList) (hfound : ∀ s ∈ found, Displayed s)
    (hexpected : Displayed expected) : Separates (.comparison field op found expected) := by
  intro s hs x y hx hy h
  cases hs with
  | group =>
    rw [text, text] at h
    cases h
  | @comparison field' op' found' expected' hfield' hfound' hexpected' =>
    simp only [text, List.cons_append, List.append_assoc] at h
    have hline := (List.cons.inj h).2
    obtain ⟨hname, hline⟩ := cut_at blank_mem hfield hfield' hline
    simp only [List.cons.injEq, true_and] at hline
    obtain ⟨hvalue, hline⟩ := cut_at close_mem (plain_getD hfound) (plain_getD hfound') hline
    simp only [List.cons.injEq, true_and] at hline
    obtain ⟨hop, hline⟩ := cut_at blank_mem (plain_symbol op) (plain_symbol op') hline
    obtain ⟨hliteral, hrest⟩ := cut_word hexpected.plain hexpected'.plain hx hy hline
    refine ⟨?_, hrest⟩
    rw [String.toList_inj.1 hname, symbol_injective hop, String.toList_inj.1 hliteral,
      getD_toList_injective hfound hfound' hvalue]

/-- Joined items are told apart one after the other, and their connective if there are several. -/
theorem joined_cancel {rs ss : List Reason} (hrs : ∀ r ∈ rs, Separates r)
    (hss : ∀ s ∈ ss, s.Legible) (hr : rs ≠ []) (hs : ss ≠ []) {c d : Connective} {x y : List Char}
    (hx : Closes x) (hy : Closes y) (h : joined c rs ++ x = joined d ss ++ y) :
    rs = ss ∧ x = y ∧ (1 < rs.length → c = d) := by
  induction rs generalizing ss with
  | nil => exact absurd rfl hr
  | cons r rs ih =>
    obtain ⟨s, ss, rfl⟩ := List.exists_cons_of_ne_nil hs
    obtain ⟨hfirst, hothers⟩ := List.forall_mem_cons.1 hrs
    obtain ⟨hlegible, hlegible'⟩ := List.forall_mem_cons.1 hss
    have hblank (z : List Char) : Delimited (' ' :: z) := delimited_cons blank_mem z
    -- after the first items either both lists end, or the same connective goes on
    by_cases hlast : rs = []
    · subst hlast
      by_cases hlast' : ss = []
      · subst hlast'
        obtain ⟨rfl, rfl⟩ := hfirst s hlegible x y hx.delimited hy.delimited h
        exact ⟨rfl, rfl, fun hlen => absurd hlen (by simp)⟩
      · rw [joined_cons d s hlast', List.append_assoc] at h
        obtain ⟨-, hrest⟩ := hfirst s hlegible _ _ hx.delimited (hblank _) h
        exact absurd hrest (hx.ne_blank _)
    · rw [joined_cons c r hlast, List.append_assoc] at h
      by_cases hlast' : ss = []
      · subst hlast'
        obtain ⟨-, hrest⟩ := hfirst s hlegible _ _ (hblank _) hy.delimited h
        exact absurd hrest.symm (hy.ne_blank _)
      · rw [joined_cons d s hlast', List.append_assoc] at h
        simp only [List.cons_append, List.append_assoc] at h
        obtain ⟨rfl, hrest⟩ := hfirst s hlegible _ _ (hblank _) (hblank _) h
        obtain ⟨hname, htail⟩ := cut_at blank_mem (plain_name c) (plain_name d)
          (List.cons.inj hrest).2
        obtain ⟨rfl, hxy, -⟩ := ih hothers hlegible' hlast hlast' htail
        exact ⟨rfl, hxy, fun _ => name_injective hname⟩

theorem Legible.separates {r : Reason} (hr : r.Legible) : r.Separates := by
  induction hr with
  | comparison hfield hfound hexpected => exact separates_comparison hfield hfound hexpected
  | @group c rs hseveral _ ih =>
    intro s hs x y hx hy h
    cases hs with
    | comparison =>
      rw [text, text] at h
      cases h
    | @group d ss hseveral' hss =>
      simp only [text, List.cons_append, List.append_assoc, List.nil_append] at h
      have hclose (z : List Char) : Closes (')' :: z) := by
        rintro _ ⟨⟩
        rfl
      obtain ⟨rfl, hxy, hconnective⟩ := joined_cancel ih hss (List.ne_nil_of_length_pos (by omega))
        (List.ne_nil_of_length_pos (by omega)) (hclose x) (hclose y) (List.cons.inj h).2
      rw [hconnective hseveral]
      exact ⟨rfl, (List.cons.inj hxy).2⟩

/-- Items that are joined to one text make one reason. -/
theorem ofItems_eq_of_joined_eq {rs ss : List Reason} (hrs : ∀ r ∈ rs, r.Legible)
    (hss : ∀ s ∈ ss, s.Legible) (hr : rs ≠ []) (hs : ss ≠ []) {c d : Connective}
    (h : joined c rs = joined d ss) : ofItems c rs = ofItems d ss := by
  have hseparate : ∀ r ∈ rs, Separates r := fun r hmem => (hrs r hmem).separates
  have hend : joined c rs ++ [] = joined d ss ++ [] := by rw [h]
  obtain ⟨rfl, -, hconnective⟩ :=
    joined_cancel hseparate hss hr hs closes_nil closes_nil hend
  by_cases hseveral : 1 < rs.length
  · rw [hconnective hseveral]
  · have hpos := List.length_pos_iff.2 hr
    obtain ⟨r, rfl⟩ := List.length_eq_one_iff.1 (by omega : rs.length = 1)
    rfl

end Reason

end Workflow
