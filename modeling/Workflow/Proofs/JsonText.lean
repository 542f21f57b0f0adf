import Workflow.Proofs.NumberText
import Workflow.Proofs.StringText
import Workflow.Proofs.Traverse

/-! JSON texts. The text of a value is read to its end, and gives a tree of the shape of the value, in
which numbers are what their own texts name. -/

namespace Workflow.Json

mutual

/-- The tree that the text of a value spells where `depth` more arrays and objects may be opened. -/
def spelled : Nat → Json → Tree
  | _, null => .null
  | _, bool b => .bool b
  | _, number n => Parser.ofNumber n.reread?
  | _, text s => .text s
  | depth, array items => Parser.nested depth (.array (spelledItems (depth - 1) items))
  | depth, object members => Parser.nested depth (.object (spelledMembers (depth - 1) members))

def spelledItems : Nat → List Json → List Tree
  | _, [] => []
  | depth, v :: r => spelled depth v :: spelledItems depth r

def spelledMembers : Nat → List (String × Json) → List (String × Tree)
  | _, [] => []
  | depth, (k, v) :: r => (k, spelled depth v) :: spelledMembers depth r

end

theorem spelledItems_eq_map (depth : Nat) (l : List Json) :
    spelledItems depth l = l.map (spelled depth) := by
  induction l with
  | nil => rfl
  | cons v r ih => rw [spelledItems, ih, List.map_cons]

theorem spelledMembers_eq_map (depth : Nat) (l : List (String × Json)) :
    spelledMembers depth l = l.map fun m => (m.1, m.2.spelled depth) := by
  induction l with
  | nil => rfl
  | cons m r ih => rw [spelledMembers, ih, List.map_cons]

theorem spelled_array (depth : Nat) (l : List Json) :
    (array l).spelled (depth + 1) = .array (l.map (spelled depth)) := by
  rw [spelled, spelledItems_eq_map]
  rfl

theorem spelled_object (depth : Nat) (l : List (String × Json)) :
    (object l).spelled (depth + 1) = .object (l.map fun m => (m.1, m.2.spelled depth)) := by
  rw [spelled, spelledMembers_eq_map]
  rfl

/-- A value begins with no blank, and not with the end of an array. -/
def Opens (c : Char) : Prop := Parser.isBlank c = false ∧ c ≠ ']'

instance (c : Char) : Decidable (Opens c) := inferInstanceAs (Decidable (_ ∧ _))

/-- A number begins with a sign or a digit. -/
def OpensNumber (c : Char) : Prop := c = '-' ∨ ∃ d < 10, c = Nat.digitChar d

theorem exists_head_number (n : JsonNumber) : ∃ c r, Printer.number n = c :: r ∧ OpensNumber c := by
  obtain ⟨l, hl, hprint⟩ := n.exists_literal
  obtain ⟨d, r, hdr⟩ := List.exists_cons_of_ne_nil hl.whole_ne_nil
  have hd : d < 10 := hl.whole_digits d (hdr ▸ List.mem_cons_self)
  rw [hprint, Literal.print, hdr]
  cases l.negative with
  | true => exact ⟨_, _, rfl, .inl rfl⟩
  | false => exact ⟨_, _, rfl, .inr ⟨d, hd, rfl⟩⟩

theorem OpensNumber.opens {c : Char} (h : OpensNumber c) : Opens c := by
  rcases h with rfl | ⟨d, hd, rfl⟩
  · decide
  · interval_cases d <;> decide

theorem exists_head_print (v : Json) : ∃ c r, v.print = c :: r ∧ Opens c := by
  cases v with
  | number n =>
    obtain ⟨c, r, hr, hc⟩ := exists_head_number n
    exact ⟨c, r, hr, hc.opens⟩
  | bool b => cases b <;> exact ⟨_, _, rfl, by decide⟩
  | _ => exact ⟨_, _, rfl, by decide⟩

theorem exists_head_printItems (v : Json) (r : List Json) :
    ∃ c s, printItems (v :: r) = c :: s ∧ Opens c := by
  obtain ⟨c, s, hs, hc⟩ := exists_head_print v
  cases r with
  | nil => exact ⟨c, s, hs, hc⟩
  | cons w r => exact ⟨c, s ++ ',' :: printItems (w :: r), by simp [printItems, hs], hc⟩

theorem exists_tail_printMembers (k : String) (v : Json) (r : List (String × Json)) :
    ∃ s, printMembers ((k, v) :: r) = '"' :: s := by
  cases r <;> exact ⟨_, rfl⟩

/-- What follows a value within another. -/
theorem endsLiteral_cons {c : Char} (h : c = ',' ∨ c = ']' ∨ c = '}') (r : List Char) :
    Literal.EndsLiteral (c :: r) := by
  rcases h with rfl | rfl | rfl <;> constructor <;> rintro _ ⟨⟩ <;> decide

namespace Parser

theorem object_map_some (ms : List (String × Tree)) :
    object (ms.map fun m => (some m.1, m.2)) = .object ms := by
  unfold object
  rw [mapM_map_eq_some]
  exact fun _ _ => rfl

theorem skipBlanks_cons {c : Char} (h : Opens c) (r : List Char) : skipBlanks (c :: r) = c :: r := by
  rw [skipBlanks, List.dropWhile_cons_of_neg (by simp [h.1])]

theorem printText_append (s : String) (r : List Char) :
    Printer.text s ++ r = '"' :: (s.toList.flatMap Printer.escape ++ '"' :: r) := by
  simp [Printer.text]

variable (fuel depth : Nat)

theorem value_number {c : Char} (h : OpensNumber c) (r : List Char) :
    value (fuel + 1) depth (c :: r) =
      (Literal.scan (c :: r)).bind fun (l, r) => some (ofNumber l.number?, r) := by
  rcases h with rfl | ⟨d, hd, rfl⟩
  · rfl
  · interval_cases d <;> rfl

theorem value_text (s : String) (r : List Char) :
    value (fuel + 1) depth (Printer.text s ++ r) = some (.text s, r) := by
  rw [printText_append]
  show (text (s.toList.flatMap Printer.escape ++ '"' :: r)).bind _ = _
  rw [text_escape]
  rfl

theorem value_array {cs : List Char} (h : ∃ c r, cs = c :: r ∧ Opens c) :
    value (fuel + 1) depth ('[' :: cs) =
      (items fuel (depth - 1) cs).bind fun (ts, r) => some (nested depth (.array ts), r) := by
  obtain ⟨c, r, rfl, hc⟩ := h
  rw [value, skipBlanks_cons (by decide)]
  simp only [skipBlanks_cons hc]
  split
  · rename_i hend
    exact absurd (List.cons.inj hend).1 hc.2
  · rfl

theorem value_object {cs : List Char} (h : ∃ r, cs = '"' :: r) :
    value (fuel + 1) depth ('{' :: cs) =
      (members fuel (depth - 1) cs).bind fun (ms, r) => some (nested depth (object ms), r) := by
  obtain ⟨r, rfl⟩ := h
  rfl

variable {fuel depth}

theorem items_last {cs r : List Char} {t : Tree} (h : value fuel depth cs = some (t, ']' :: r)) :
    items (fuel + 1) depth cs = some ([t], r) := by
  rw [items, h]
  rfl

theorem items_more {cs r : List Char} {t : Tree} (h : value fuel depth cs = some (t, ',' :: r)) :
    items (fuel + 1) depth cs = (items fuel depth r).bind fun (ts, r) => some (t :: ts, r) := by
  rw [items, h]
  rfl

section Member

variable {name cs r : List Char} {k : Option String} {t : Tree}
  (hname : text name = some (k, ':' :: cs))
include hname

theorem members_last (ht : value fuel depth cs = some (t, '}' :: r)) :
    members (fuel + 1) depth ('"' :: name) = some ([(k, t)], r) := by
  have hquote : skipBlanks ('"' :: name) = '"' :: name := rfl
  have hcolon : skipBlanks (':' :: cs) = ':' :: cs := rfl
  rw [members, hquote]
  simp only [hname, Option.bind_eq_bind, Option.bind_some, hcolon, ht]
  rfl

theorem members_more (ht : value fuel depth cs = some (t, ',' :: r)) :
    members (fuel + 1) depth ('"' :: name) =
      (members fuel depth r).bind fun (ms, r) => some ((k, t) :: ms, r) := by
  have hquote : skipBlanks ('"' :: name) = '"' :: name := rfl
  have hcolon : skipBlanks (':' :: cs) = ':' :: cs := rfl
  rw [members, hquote]
  simp only [hname, Option.bind_eq_bind, Option.bind_some, hcolon, ht]
  rfl

end Member

end Parser

/-- The text of a value is read to its end by at most `fuel` calls if it is short enough. -/
def ReadsPrinted (fuel : Nat) : Prop :=
  ∀ (v : Json) (depth : Nat) (rest : List Char), 2 * v.print.length ≤ fuel →
    Literal.EndsLiteral rest →
      Parser.value fuel depth (v.print ++ rest) = some (v.spelled depth, rest)

theorem items_print {fuel : Nat} (h : ∀ f < fuel, ReadsPrinted f) (v : Json) (l : List Json)
    (hfuel : 2 * (printItems (v :: l)).length < fuel) (depth : Nat) (rest : List Char) :
    Parser.items fuel depth (printItems (v :: l) ++ ']' :: rest) =
      some (spelledItems depth (v :: l), rest) := by
  obtain ⟨fuel, rfl⟩ : ∃ f, fuel = f + 1 := ⟨fuel - 1, by omega⟩
  have hv := h fuel (Nat.lt_succ_self fuel) v depth
  induction l generalizing v fuel with
  | nil =>
    rw [printItems] at hfuel ⊢
    exact Parser.items_last (hv _ (by omega) (endsLiteral_cons (.inr (.inl rfl)) rest))
  | cons w r ih =>
    simp only [printItems, List.length_append, List.length_cons] at hfuel
    obtain ⟨fuel, rfl⟩ : ∃ f, fuel = f + 1 := ⟨fuel - 1, by omega⟩
    have hr := ih w fuel (fun f hf => h f (by omega)) (by omega)
      (h fuel (by omega) w depth)
    rw [printItems, List.append_assoc, List.cons_append,
      Parser.items_more (hv _ (by omega) (endsLiteral_cons (.inl rfl) _)), hr]
    · rfl
    · simp

theorem members_print {fuel : Nat} (h : ∀ f < fuel, ReadsPrinted f) (k : String) (v : Json)
    (l : List (String × Json)) (hfuel : 2 * (printMembers ((k, v) :: l)).length < fuel) (depth : Nat)
    (rest : List Char) :
    Parser.members fuel depth (printMembers ((k, v) :: l) ++ '}' :: rest) =
      some ((spelledMembers depth ((k, v) :: l)).map fun m => (some m.1, m.2), rest) := by
  obtain ⟨fuel, rfl⟩ : ∃ f, fuel = f + 1 := ⟨fuel - 1, by omega⟩
  have hv := h fuel (Nat.lt_succ_self fuel) v depth
  induction l generalizing k v fuel with
  | nil =>
    simp only [printMembers, List.length_append, List.length_cons] at hfuel
    rw [printMembers, List.append_assoc, List.cons_append, Parser.printText_append,
      Parser.members_last (Parser.text_escape _ _)
        (hv _ (by omega) (endsLiteral_cons (.inr (.inr rfl)) rest))]
    rfl
  | cons m r ih =>
    obtain ⟨l, w⟩ := m
    simp only [printMembers, List.length_append, List.length_cons] at hfuel
    obtain ⟨fuel, rfl⟩ : ∃ f, fuel = f + 1 := ⟨fuel - 1, by omega⟩
    have hr := ih l w fuel (fun f hf => h f (by omega)) (by omega) (h fuel (by omega) w depth)
    rw [printMembers, List.append_assoc, List.append_assoc, List.cons_append, List.cons_append,
      Parser.printText_append, Parser.members_more (Parser.text_escape _ _)
        (hv _ (by omega) (endsLiteral_cons (.inl rfl) _)), hr]
    · rfl
    · simp

theorem value_print (fuel : Nat) : ReadsPrinted fuel := by
  induction fuel using Nat.strongRecOn with
  | _ fuel ih =>
    intro v depth rest hfuel hrest
    obtain ⟨fuel, rfl⟩ : ∃ f, fuel = f + 1 := by
      obtain ⟨c, r, hr, -⟩ := exists_head_print v
      rw [hr, List.length_cons] at hfuel
      exact ⟨fuel - 1, by omega⟩
    have hless (f : Nat) (hf : f < fuel) : ReadsPrinted f := ih f (by omega)
    -- an array or object needs two calls for its brackets, which leaves enough for what is inside
    cases v with
    | null => rfl
    | bool b => cases b <;> rfl
    | number n =>
      obtain ⟨c, r, hr, hc⟩ := exists_head_number n
      obtain ⟨l, hscan, hl⟩ := n.scan_number hrest
      rw [hr] at hscan
      rw [print, hr, List.cons_append, Parser.value_number _ _ hc, ← List.cons_append, hscan, spelled,
        ← hl]
      rfl
    | text s =>
      rw [print, Parser.value_text]
      rfl
    | array items =>
      cases items with
      | nil => cases depth <;> rfl
      | cons v l =>
        have htext : (array (v :: l)).print ++ rest =
            '[' :: (printItems (v :: l) ++ ']' :: rest) := by simp [print]
        simp only [print, List.length_cons, List.length_append] at hfuel
        obtain ⟨c, r, hr, hc⟩ := exists_head_printItems v l
        rw [htext, Parser.value_array _ _ ⟨c, _, by rw [hr, List.cons_append], hc⟩,
          items_print hless v l (by omega)]
        rfl
    | object members =>
      cases members with
      | nil => cases depth <;> rfl
      | cons m l =>
        obtain ⟨k, v⟩ := m
        have htext : (object ((k, v) :: l)).print ++ rest =
            '{' :: (printMembers ((k, v) :: l) ++ '}' :: rest) := by simp [print]
        simp only [print, List.length_cons, List.length_append] at hfuel
        obtain ⟨r, hr⟩ := exists_tail_printMembers k v l
        rw [htext, Parser.value_object _ _ ⟨_, by rw [hr, List.cons_append]⟩,
          members_print hless k v l (by omega), Option.bind_some]
        simp only [Parser.object_map_some]
        rfl

theorem Tree.parse?_ofList (cs : List Char) :
    parse? (String.ofList cs) = (Parser.value (2 * cs.length + 2) Parser.maxDepth cs).bind fun x =>
      if Parser.skipBlanks x.2 = [] then some x.1 else none := by
  rw [parse?, String.toList_ofList]
  cases Parser.value (2 * cs.length + 2) Parser.maxDepth cs <;> rfl

/-- Every value has a text that is read. -/
theorem parse?_render (v : Json) : Tree.parse? v.render = some (v.spelled Parser.maxDepth) := by
  have hread := value_print (2 * v.print.length + 2) v Parser.maxDepth [] (by omega)
    Literal.endsLiteral_nil
  rw [List.append_nil] at hread
  rw [render, Tree.parse?_ofList, hread, Option.bind_some]
  rfl

end Workflow.Json
