import Workflow.Proofs.JsonText
import Workflow.Proofs.Scanning

/-! Blanks between the tokens of a text. A text spells the same tree without them. -/

namespace Workflow.Json

namespace Parser

/-- Where a character of a text stands: between strings, in one, or there after a backslash. -/
inductive Place where
  | between
  | quoted
  | escaped
deriving DecidableEq

namespace Place

/-- Where the next character stands. -/
def next : Place → Char → Place
  | between, c => if c = '"' then quoted else between
  | quoted, c => if c = '"' then between else if c = '\\' then escaped else quoted
  | escaped, _ => quoted

end Place

/-- The text from a place on, without the blanks between strings. -/
def condenseFrom : Place → List Char → List Char
  | _, [] => []
  | p, c :: r =>
    if p = .between ∧ isBlank c then condenseFrom p r else c :: condenseFrom (p.next c) r

def condense (cs : List Char) : List Char := condenseFrom .between cs

section Blanks

variable {c : Char}

theorem skipBlanks_blank (h : isBlank c = true) (r : List Char) :
    skipBlanks (c :: r) = skipBlanks r := List.dropWhile_cons_of_pos h

theorem skipBlanks_token (h : isBlank c = false) (r : List Char) : skipBlanks (c :: r) = c :: r :=
  List.dropWhile_cons_of_neg (by simp [h])

theorem condense_blank (h : isBlank c = true) (r : List Char) :
    condense (c :: r) = condense r := if_pos ⟨rfl, h⟩

theorem condense_token (h : isBlank c = false) (r : List Char) :
    condense (c :: r) = c :: condenseFrom (Place.between.next c) r :=
  if_neg fun hc => by simp [h] at hc

theorem condense_cons (hblank : isBlank c = false) (hquote : c ≠ '"') (r : List Char) :
    condense (c :: r) = c :: condense r := by
  rw [condense_token hblank, Place.next, if_neg hquote]
  rfl

theorem condense_quoted (hquote : c ≠ '"') (hescape : c ≠ '\\') (r : List Char) :
    condenseFrom .quoted (c :: r) = c :: condenseFrom .quoted r := by
  rw [condenseFrom, if_neg (by simp), Place.next, if_neg hquote, if_neg hescape]

theorem condense_escape (c : Char) (r : List Char) :
    condenseFrom .quoted ('\\' :: c :: r) = '\\' :: c :: condenseFrom .quoted r := rfl

theorem condense_hexDigit {n : Nat} (h : hexDigit? c = some n) (r : List Char) :
    condenseFrom .quoted (c :: r) = c :: condenseFrom .quoted r := by
  refine condense_quoted ?_ ?_ r
  all_goals
    rintro rfl
    cases h

end Blanks

theorem condense_skipBlanks (cs : List Char) : condense (skipBlanks cs) = condense cs := by
  induction cs with
  | nil => rfl
  | cons c r ih =>
    cases hc : isBlank c with
    | true => rw [skipBlanks_blank hc, condense_blank hc, ih]
    | false => rw [skipBlanks_token hc]

theorem head?_condense (cs : List Char) : (condense cs).head? = (skipBlanks cs).head? := by
  induction cs with
  | nil => rfl
  | cons c r ih =>
    cases hc : isBlank c with
    | true => rw [condense_blank hc, skipBlanks_blank hc, ih]
    | false => rw [condense_token hc, skipBlanks_token hc, List.head?_cons, List.head?_cons]

theorem skipBlanks_condense (cs : List Char) : skipBlanks (condense cs) = condense cs := by
  induction cs with
  | nil => rfl
  | cons c r ih =>
    cases hc : isBlank c with
    | true => rw [condense_blank hc, ih]
    | false => rw [condense_token hc, skipBlanks_token hc]

theorem pieces_condense {cs r : List Char} {ps : List Piece} (h : pieces cs = some (ps, r)) :
    pieces (condenseFrom .quoted cs) = some (ps, condense r) ∧
      (condense r).length < (condenseFrom .quoted cs).length := by
  induction cs using pieces.induct generalizing ps r with
  | case1 => cases h
  | case2 r =>
    cases h
    exact ⟨rfl, Nat.lt_succ_self _⟩
  | case3 a b c d s ih =>
    rw [pieces] at h
    obtain ⟨n, hn, h⟩ := Option.bind_eq_some_iff.1 h
    obtain ⟨⟨qs, s'⟩, hs, h⟩ := Option.bind_eq_some_iff.1 h
    cases h
    obtain ⟨hs, hlt⟩ := ih hs
    have hcondense : condenseFrom .quoted ('\\' :: 'u' :: a :: b :: c :: d :: s) =
        '\\' :: 'u' :: a :: b :: c :: d :: condenseFrom .quoted s := by
      obtain ⟨_, ha, hn⟩ := Option.bind_eq_some_iff.1 hn
      obtain ⟨_, hb, hn⟩ := Option.bind_eq_some_iff.1 hn
      obtain ⟨_, hc, hn⟩ := Option.bind_eq_some_iff.1 hn
      obtain ⟨_, hd, -⟩ := Option.bind_eq_some_iff.1 hn
      rw [condense_escape, condense_hexDigit ha, condense_hexDigit hb, condense_hexDigit hc,
        condense_hexDigit hd]
    rw [hcondense, pieces, hn, hs]
    exact ⟨rfl, by simp only [List.length_cons]; omega⟩
  | case4 e s hcode ih =>
    rw [pieces.eq_4 e s hcode] at h
    obtain ⟨c, hc, h⟩ := Option.bind_eq_some_iff.1 h
    obtain ⟨⟨qs, s'⟩, hs, h⟩ := Option.bind_eq_some_iff.1 h
    cases h
    obtain ⟨hs, hlt⟩ := ih hs
    rw [condense_escape, pieces_short hc, hs]
    exact ⟨rfl, by simp only [List.length_cons]; omega⟩
  | case5 c s hquote hcode hescape hno =>
    rw [pieces.eq_5 c s hquote hcode hescape, if_pos hno] at h
    cases h
  | case6 c s hquote hcode hescape hno ih =>
    rw [pieces.eq_5 c s hquote hcode hescape, if_neg hno] at h
    obtain ⟨⟨qs, s'⟩, hs, h⟩ := Option.bind_eq_some_iff.1 h
    cases h
    obtain ⟨hs, hlt⟩ := ih hs
    rw [not_or] at hno
    rw [condense_quoted hquote hno.1, pieces_plain hquote hno.1 hno.2, hs]
    exact ⟨rfl, by simp only [List.length_cons]; omega⟩

theorem text_condense {cs r : List Char} {k : Option String} (h : text cs = some (k, r)) :
    text (condenseFrom .quoted cs) = some (k, condense r) ∧
      (condense r).length < (condenseFrom .quoted cs).length := by
  obtain ⟨⟨ps, s⟩, hpieces, h⟩ := Option.bind_eq_some_iff.1 h
  cases h
  obtain ⟨hpieces, hlt⟩ := pieces_condense hpieces
  refine ⟨?_, hlt⟩
  rw [text, hpieces]
  rfl

theorem isBlank_of_isPart {c : Char} (h : Literal.isPart c = true) : isBlank c = false ∧ c ≠ '"' := by
  refine ⟨Bool.eq_false_iff.2 fun hblank => ?_, ?_⟩
  · simp only [isBlank, Bool.or_eq_true, decide_eq_true_eq, or_assoc] at hblank
    rcases hblank with rfl | rfl | rfl | rfl <;> cases h
  · rintro rfl
    cases h

theorem condense_word {w : List Char} (h : ∀ c ∈ w, Literal.isPart c = true) (r : List Char) :
    condense (w ++ r) = w ++ condense r := by
  induction w with
  | nil => rfl
  | cons c w ih =>
    obtain ⟨hc, hw⟩ := List.forall_mem_cons.1 h
    obtain ⟨hblank, hquote⟩ := isBlank_of_isPart hc
    rw [List.cons_append, condense_cons hblank hquote, ih hw, List.cons_append]

/-- After the literal come blanks, and then nothing that could go on with it. -/
theorem scan_condense {cs r : List Char} {l : Literal} (h : Literal.scan cs = some (l, r))
    (hr : Literal.Stops (skipBlanks r)) :
    Literal.scan (condense cs) = some (l, condense r) ∧
      (condense r).length < (condense cs).length := by
  have hstops : Literal.Stops r := by
    intro c hc
    cases r with
    | nil => cases hc
    | cons d s =>
      cases hc
      cases hblank : isBlank c with
      | true =>
        refine Bool.eq_false_iff.2 fun hpart => ?_
        rw [(isBlank_of_isPart hpart).1] at hblank
        cases hblank
      | false =>
        rw [skipBlanks_token hblank] at hr
        exact hr c rfl
  obtain ⟨w, rfl, hne, hword, hscan⟩ := Literal.exists_word_of_scan h hstops
  rw [condense_word hword]
  refine ⟨hscan _ fun c hc => hr c (head?_condense r ▸ hc), ?_⟩
  have hpos := List.length_pos_iff.2 hne
  rw [List.length_append]
  omega

/-- What is read from a text is read from it without its blanks, by as many calls as there are
characters in what is read. -/
def Condenses {α : Type} (read : Nat → List Char → Option (α × List Char)) (cs : List Char) (a : α)
    (r : List Char) : Prop :=
  (condense r).length < (condense cs).length ∧
    ∀ fuel, (condense cs).length ≤ fuel + (condense r).length →
      read fuel (condense cs) = some (a, condense r)

theorem Condenses.of_succ {α : Type} {read : Nat → List Char → Option (α × List Char)}
    {cs r : List Char} {a : α} (hlt : (condense r).length < (condense cs).length)
    (h : ∀ fuel, (condense cs).length ≤ fuel + 1 + (condense r).length →
      read (fuel + 1) (condense cs) = some (a, condense r)) : Condenses read cs a r := by
  refine ⟨hlt, fun fuel hfuel => ?_⟩
  obtain ⟨k, rfl⟩ : ∃ k, fuel = k + 1 := ⟨fuel - 1, by omega⟩
  exact h k hfuel

/-- The first call alone reads some characters, none of them a blank. -/
theorem Condenses.of_front {α : Type} {read : Nat → List Char → Option (α × List Char)}
    {cs w r : List Char} {a : α} (hcs : condense cs = w ++ condense r) (hw : 0 < w.length)
    (h : ∀ fuel, read (fuel + 1) (w ++ condense r) = some (a, condense r)) : Condenses read cs a r := by
  refine .of_succ ?_ fun fuel _ => hcs ▸ h fuel
  rw [hcs, List.length_append]
  omega

/-- The first call reads a character and leaves the rest to others. -/
theorem Condenses.of_open {α : Type} {read : Nat → List Char → Option (α × List Char)}
    {cs cs' r : List Char} {a : α} {c : Char} (hopen : condense cs = c :: cs')
    (hle : (condense r).length ≤ cs'.length)
    (h : ∀ fuel, cs'.length ≤ fuel + (condense r).length →
      read (fuel + 1) (c :: cs') = some (a, condense r)) : Condenses read cs a r := by
  have hlength : (condense cs).length = cs'.length + 1 := by rw [hopen, List.length_cons]
  refine .of_succ (by omega) fun fuel hfuel => ?_
  rw [hopen]
  exact h fuel (by omega)

/-- At most `fuel` calls read values that blanks do not change. -/
def ReadsCondensed (fuel : Nat) : Prop :=
  ∀ (d : Nat) (cs : List Char) (t : Tree) (r : List Char), value fuel d cs = some (t, r) →
    Literal.Stops (skipBlanks r) → Condenses (value · d) cs t r

theorem stops_cons {c : Char} (h : c = ',' ∨ c = ']' ∨ c = '}') (r : List Char) :
    Literal.Stops (c :: r) := by
  rcases h with rfl | rfl | rfl <;> rintro _ ⟨⟩ <;> rfl

theorem condense_of_skipBlanks {cs r : List Char} {c : Char} (h : skipBlanks cs = c :: r)
    (hblank : isBlank c = false) (hquote : c ≠ '"') : condense cs = c :: condense r := by
  rw [← condense_skipBlanks, h, condense_cons hblank hquote]

/-- The value is followed by blanks and then by `c`. -/
theorem ReadsCondensed.before {fuel d : Nat} {cs s r : List Char} {t : Tree} {c : Char}
    (h : ReadsCondensed fuel) (hread : value fuel d cs = some (t, s)) (hs : skipBlanks s = c :: r)
    (hc : c = ',' ∨ c = ']' ∨ c = '}') :
    (condense r).length + 1 < (condense cs).length ∧
      ∀ g, (condense cs).length ≤ g + ((condense r).length + 1) →
        value g d (condense cs) = some (t, c :: condense r) := by
  have hcondense : condense s = c :: condense r := by
    rcases hc with rfl | rfl | rfl <;> exact condense_of_skipBlanks hs rfl (by decide)
  have hvalue := h d cs t s hread (hs ▸ stops_cons hc r)
  rwa [Condenses, hcondense, List.length_cons] at hvalue

-- By induction on the calls: the comma pays for the one that reads the rest.
theorem items_condenses {fuel : Nat} (h : ∀ f < fuel, ReadsCondensed f) {d : Nat} {cs : List Char}
    {ts : List Tree} {r : List Char} (hread : items fuel d cs = some (ts, r)) :
    Condenses (items · d) cs ts r := by
  induction fuel generalizing cs ts r with
  | zero => cases hread
  | succ fuel ih =>
    rw [items] at hread
    obtain ⟨⟨t, cs'⟩, ht, hread⟩ := Option.bind_eq_some_iff.1 hread
    dsimp only at hread
    have hvalue := h fuel (Nat.lt_succ_self fuel)
    split at hread
    · rename_i s hcs'
      obtain ⟨⟨us, s'⟩, hus, hread⟩ := Option.bind_eq_some_iff.1 hread
      cases hread
      obtain ⟨hlt, hvalue⟩ := hvalue.before ht hcs' (.inl rfl)
      obtain ⟨hlt', hitems⟩ := ih (fun f hf => h f (by omega)) hus
      dsimp only at hitems ⊢
      refine .of_succ (by omega) fun g hg => ?_
      rw [items_more (hvalue g (by omega)), hitems g (by omega)]
      rfl
    · rename_i s hcs'
      cases hread
      obtain ⟨hlt, hvalue⟩ := hvalue.before ht hcs' (.inr (.inl rfl))
      exact .of_succ (by omega) fun g hg => items_last (hvalue g (by omega))
    · cases hread

theorem members_condenses {fuel : Nat} (h : ∀ f < fuel, ReadsCondensed f) {d : Nat} {cs : List Char}
    {ms : List (Option String × Tree)} {r : List Char} (hread : members fuel d cs = some (ms, r)) :
    Condenses (members · d) cs ms r := by
  induction fuel generalizing cs ms r with
  | zero => cases hread
  | succ fuel ih =>
    rw [members] at hread
    split at hread
    · rename_i name hname
      obtain ⟨⟨k, cs₁⟩, hk, hread⟩ := Option.bind_eq_some_iff.1 hread
      dsimp only at hread
      split at hread
      · rename_i cs₂ hcolon
        obtain ⟨⟨t, cs₃⟩, ht, hread⟩ := Option.bind_eq_some_iff.1 hread
        dsimp only at hread
        have hvalue := h fuel (Nat.lt_succ_self fuel)
        have hopen : condense cs = '"' :: condenseFrom .quoted name := by
          rw [← condense_skipBlanks, hname]
          rfl
        obtain ⟨hk, hklt⟩ := text_condense hk
        have hcolon : condense cs₁ = ':' :: condense cs₂ :=
          condense_of_skipBlanks hcolon rfl (by decide)
        rw [hcolon] at hk hklt
        rw [List.length_cons] at hklt
        split at hread
        · rename_i s hcs₃
          obtain ⟨⟨ns, s'⟩, hns, hread⟩ := Option.bind_eq_some_iff.1 hread
          cases hread
          obtain ⟨hlt, hvalue⟩ := hvalue.before ht hcs₃ (.inl rfl)
          obtain ⟨hlt', hmembers⟩ := ih (fun f hf => h f (by omega)) hns
          dsimp only at hmembers ⊢
          refine .of_open hopen (by omega) fun g hg => ?_
          rw [members_more hk (hvalue g (by omega)), hmembers g (by omega)]
          rfl
        · rename_i s hcs₃
          cases hread
          obtain ⟨hlt, hvalue⟩ := hvalue.before ht hcs₃ (.inr (.inr rfl))
          exact .of_open hopen (by omega) fun g hg => members_last hk (hvalue g (by omega))
        · cases hread
      · cases hread
    · cases hread

theorem value_bracket (fuel d : Nat) (r : List Char) : value fuel d (']' :: r) = none := by
  cases fuel <;> rfl

theorem items_bracket (fuel d : Nat) (r : List Char) : items fuel d (']' :: r) = none := by
  cases fuel with
  | zero => rfl
  | succ fuel => rw [items, value_bracket]; rfl

theorem members_brace (fuel d : Nat) (r : List Char) : members fuel d ('}' :: r) = none := by
  cases fuel <;> rfl

section Value

variable {fuel d : Nat} {cs r : List Char} (hcs : skipBlanks cs = cs)
include hcs

theorem value_items {ts : List Tree} (h : items fuel (d - 1) cs = some (ts, r)) :
    value (fuel + 1) d ('[' :: cs) = some (nested d (.array ts), r) := by
  rw [value, skipBlanks_token rfl]
  simp only [hcs]
  split
  · rw [items_bracket] at h
    cases h
  · rw [h]
    rfl

theorem value_members {ms : List (Option String × Tree)} (h : members fuel (d - 1) cs = some (ms, r)) :
    value (fuel + 1) d ('{' :: cs) = some (nested d (object ms), r) := by
  rw [value, skipBlanks_token rfl]
  simp only [hcs]
  split
  · rw [members_brace] at h
    cases h
  · rw [h]
    rfl

theorem value_scan {l : Literal} (h : Literal.scan cs = some (l, r)) :
    value (fuel + 1) d cs = some (ofNumber l.number?, r) := by
  rw [value, hcs]
  split
  · cases h
  · cases h
  · cases h
  · cases h
  · cases h
  · cases h
  · rw [h]
    rfl

end Value

theorem value_condenses (fuel : Nat) : ReadsCondensed fuel := by
  induction fuel using Nat.strongRecOn with
  | _ fuel ih =>
    intro d cs t r hread hr
    cases fuel with
    | zero => cases hread
    | succ fuel =>
      have hless (f : Nat) (hf : f < fuel) : ReadsCondensed f := ih f (by omega)
      rw [value] at hread
      have hfront {w s : List Char} (hs : skipBlanks cs = s) (hw : condense s = w ++ condense r) :
          condense cs = w ++ condense r := by
        rw [← condense_skipBlanks, hs, hw]
      split at hread
      · rename_i hs
        cases hread
        exact .of_front (hfront hs (w := ['n', 'u', 'l', 'l']) rfl) (by decide) fun _ => rfl
      · rename_i hs
        cases hread
        exact .of_front (hfront hs (w := ['t', 'r', 'u', 'e']) rfl) (by decide) fun _ => rfl
      · rename_i hs
        cases hread
        exact .of_front (hfront hs (w := ['f', 'a', 'l', 's', 'e']) rfl) (by decide) fun _ => rfl
      · rename_i s hs
        obtain ⟨⟨k, r'⟩, htext, hread⟩ := Option.bind_eq_some_iff.1 hread
        cases hread
        obtain ⟨htext, hlt⟩ := text_condense htext
        have hopen : condense cs = '"' :: condenseFrom .quoted s := by
          rw [← condense_skipBlanks, hs]
          rfl
        refine .of_open hopen (by omega) fun g _ => ?_
        show (text (condenseFrom .quoted s)).bind _ = _
        rw [htext]
        rfl
      · rename_i s hs
        have hopen : condense cs = '[' :: condense s := condense_of_skipBlanks hs rfl (by decide)
        split at hread
        · rename_i s' hs'
          cases hread
          rw [condense_of_skipBlanks hs' rfl (by decide)] at hopen
          exact .of_front (w := ['[', ']']) hopen (by decide) fun _ => rfl
        · obtain ⟨⟨ts, r⟩, hts, hread⟩ := Option.bind_eq_some_iff.1 hread
          cases hread
          obtain ⟨hlt, hitems⟩ := items_condenses hless hts
          rw [condense_skipBlanks] at hlt hitems
          exact .of_open hopen (by omega) fun g hg =>
            value_items (skipBlanks_condense s) (hitems g hg)
      · rename_i s hs
        have hopen : condense cs = '{' :: condense s := condense_of_skipBlanks hs rfl (by decide)
        split at hread
        · rename_i s' hs'
          cases hread
          rw [condense_of_skipBlanks hs' rfl (by decide)] at hopen
          exact .of_front (w := ['{', '}']) hopen (by decide) fun _ => rfl
        · obtain ⟨⟨ms, r⟩, hms, hread⟩ := Option.bind_eq_some_iff.1 hread
          cases hread
          obtain ⟨hlt, hmembers⟩ := members_condenses hless hms
          rw [condense_skipBlanks] at hlt hmembers
          exact .of_open hopen (by omega) fun g hg =>
            value_members (skipBlanks_condense s) (hmembers g hg)
      · obtain ⟨⟨l, r⟩, hscan, hread⟩ := Option.bind_eq_some_iff.1 hread
        cases hread
        obtain ⟨hscan, hlt⟩ := scan_condense hscan hr
        rw [condense_skipBlanks] at hscan hlt
        exact .of_succ hlt fun g _ => value_scan (skipBlanks_condense _) hscan

end Parser

/-- The text without the blanks outside its strings. -/
def condensed (s : String) : String := String.ofList (Parser.condense s.toList)

/-- A text spells the same tree without the blanks outside its strings. -/
theorem Tree.parse?_condensed {s : String} {t : Tree} (h : parse? s = some t) :
    parse? (condensed s) = some t := by
  unfold parse? at h
  split at h
  · rename_i u r hread
    split at h
    · rename_i hr
      cases h
      have hrest : Parser.condense r = [] := by
        rw [← Parser.condense_skipBlanks, hr]
        rfl
      obtain ⟨-, hvalue⟩ := Parser.value_condenses _ _ _ _ _ hread (by rw [hr]; nofun)
      have hlist : (condensed s).toList = Parser.condense s.toList := String.toList_ofList
      rw [hrest, List.length_nil] at hvalue
      have hread : Parser.value (2 * (Parser.condense s.toList).length + 2) Parser.maxDepth
          (Parser.condense s.toList) = some (t, []) := hvalue _ (by omega)
      unfold parse?
      rw [hlist, hread]
      rfl
    · cases h
  · cases h

end Workflow.Json
