import Mathlib
import Workflow.Proofs.Reason

/-! The connectives between the parentheses of a line. A line is read from left to right with the
connective that each open pair of parentheses has had, and the reading breaks off where a pair has
another one. Joined reasons are read to their end, so no pair has both. -/

namespace Workflow

/-- How many more parentheses are opened than closed. -/
def nesting (cs : List Char) : Int := cs.count '(' - cs.count ')'

/-- Each parenthesis that is opened is closed again, and none from outside is closed. -/
structure Balanced (cs : List Char) : Prop where
  opened : ∀ p, p <+: cs → 0 ≤ nesting p
  closed : nesting cs = 0

instance (cs : List Char) : Decidable (Balanced cs) :=
  decidable_of_iff ((∀ p ∈ cs.inits, 0 ≤ nesting p) ∧ nesting cs = 0)
    ⟨fun h => ⟨fun p hp => h.1 p ((List.mem_inits p cs).2 hp), h.2⟩,
      fun h => ⟨fun p hp => h.opened p ((List.mem_inits p cs).1 hp), h.closed⟩⟩

/-- The names of the connectives stand in the line in this order, with as many pairs of parentheses
open at the one as at the other, and none of them closed in between. -/
def AtOneLevel (c d : Connective) (line : List Char) : Prop :=
  ∃ front inner back, Balanced inner ∧ line = front ++ ' ' :: (c.name.toList ++
    ' ' :: (inner ++ ' ' :: (d.name.toList ++ ' ' :: back)))

theorem nesting_cons (c : Char) (cs : List Char) : nesting (c :: cs) = nesting [c] + nesting cs := by
  simp only [nesting, List.count_cons, List.count_nil]
  push_cast
  ring

/-- A place in a line: the characters since the last blank, and for each pair of parentheses that is
open the connective it has had, the innermost first. The line counts as a pair. -/
structure Place where
  word : List Char
  levels : List (Option Connective)

namespace Place

def connective? (w : List Char) : Option Connective := Connective.all.find? (·.name.toList = w)

/-- Gives a connective to the innermost pair, if it has had no other. -/
def mark (c : Connective) : List (Option Connective) → Option (List (Option Connective))
  | [] => none
  | none :: l => some (some c :: l)
  | some d :: l => if c = d then some (some d :: l) else none

def step (p : Place) (c : Char) : Option Place :=
  if c = ' ' then
    match connective? p.word with
    | none => some ⟨[], p.levels⟩
    | some d => (mark d p.levels).map (⟨[], ·⟩)
  else if c = '(' then some ⟨p.word ++ [c], none :: p.levels⟩
  else if c = ')' then some ⟨p.word ++ [c], p.levels.tail⟩
  else some ⟨p.word ++ [c], p.levels⟩

def read (p : Place) (cs : List Char) : Option Place := cs.foldlM step p

theorem read_cons (p : Place) (c : Char) (cs : List Char) :
    p.read (c :: cs) = (p.step c).bind (·.read cs) := rfl

theorem read_append (p : Place) (a b : List Char) :
    p.read (a ++ b) = (p.read a).bind (·.read b) := List.foldlM_append

/-- The word is no connective's name. -/
def NotName (w : List Char) : Prop := ∀ c : Connective, w ≠ c.name.toList

theorem connective?_eq_none {w : List Char} (h : NotName w) : connective? w = none := by
  apply List.find?_eq_none.2
  intro c _ hc
  exact h c (of_decide_eq_true hc).symm

theorem connective?_name (c : Connective) : connective? c.name.toList = some c := by
  cases c <;> rfl

theorem notName_of_mem {x : Char} (hx : x ∈ ['$', '(', ')']) {w : List Char} (h : x ∈ w) :
    NotName w := by
  have hnone : ∀ c : Connective, ∀ y ∈ ['$', '(', ')'], y ∉ c.name.toList := by
    intro c
    cases c <;> simp [Connective.name]
  rintro c rfl
  exact hnone c x hx h

section

variable (u : List Char) (l : List (Option Connective)) (rest : List Char)

theorem read_blank {u : List Char} (h : NotName u) :
    (Place.mk u l).read (' ' :: rest) = (Place.mk [] l).read rest := by
  rw [read_cons, step, if_pos rfl, connective?_eq_none h]
  rfl

theorem read_open :
    (Place.mk u l).read ('(' :: rest) = (Place.mk (u ++ ['(']) (none :: l)).read rest := rfl

theorem read_close (a : Option Connective) :
    (Place.mk u (a :: l)).read (')' :: rest) = (Place.mk (u ++ [')']) l).read rest := rfl

theorem read_plain {w : List Char} (h : Plain w) :
    (Place.mk u l).read (w ++ rest) = (Place.mk (u ++ w) l).read rest := by
  induction w generalizing u with
  | nil => rw [List.append_nil, List.nil_append]
  | cons c w ih =>
    obtain ⟨hc, hw⟩ := List.forall_mem_cons.1 h
    simp only [delimiters, List.mem_cons, List.not_mem_nil, or_false, not_or] at hc
    rw [List.cons_append, read_cons, step, if_neg hc.1, if_neg hc.2.1, if_neg hc.2.2]
    show (Place.mk (u ++ [c]) l).read (w ++ rest) = _
    rw [ih _ hw, List.append_assoc, List.singleton_append]

theorem read_word {w : List Char} (h : Plain w) (hname : NotName (u ++ w)) :
    (Place.mk u l).read (w ++ ' ' :: rest) = (Place.mk [] l).read rest := by
  rw [read_plain u l _ h, read_blank l rest hname]

theorem read_name {a : Option Connective} {c : Connective} (ha : a = none ∨ a = some c) :
    (Place.mk [] (a :: l)).read (c.name.toList ++ ' ' :: rest) =
      (Place.mk [] (some c :: l)).read rest := by
  have hmark : mark c (a :: l) = some (some c :: l) := by
    rcases ha with rfl | rfl
    · rfl
    · exact if_pos rfl
  rw [read_plain _ _ _ (Reason.plain_name c), List.nil_append, read_cons, step, if_pos rfl,
    connective?_name]
  simp only [hmark, Option.map_some, Option.bind_some]

end

/-- The text is read to its end at any place, and leaves the pairs that are open there as they are. -/
def Passes (r : Reason) : Prop :=
  ∀ u l, ∃ w, NotName w ∧ ∀ rest, (Place.mk u l).read (r.text ++ rest) = (Place.mk w l).read rest

theorem passes_comparison {field : String} {op : Comparison} {found : Option String}
    {expected : String} (hfield : Plain field.toList) (hfound : ∀ s ∈ found, Displayed s)
    (hexpected : Displayed expected) : Passes (.comparison field op found expected) := by
  intro u l
  have hname : NotName expected.toList := fun c hc =>
    hexpected.ne_name c (String.toList_inj.1 hc)
  refine ⟨expected.toList, hname, fun rest => ?_⟩
  have hdollar : Plain ('$' :: field.toList) :=
    List.forall_mem_cons.2 ⟨by simp [delimiters], hfield⟩
  have hfirst : NotName (u ++ '$' :: field.toList) := notName_of_mem (x := '$') (by simp) (by simp)
  have hwas (rest : List Char) : (Place.mk [] l).read ('(' :: 'w' :: 'a' :: 's' :: ' ' :: rest) =
      (Place.mk [] (none :: l)).read rest :=
    read_word ['('] (none :: l) rest (w := ['w', 'a', 's']) (by simp [Plain, delimiters])
      (notName_of_mem (x := '(') (by simp) (by simp))
  have hclosed : NotName ([] ++ (found.getD "undefined").toList ++ [')']) :=
    notName_of_mem (x := ')') (by simp) (by simp)
  have hsymbol : NotName ([] ++ op.symbol.toList) := by
    cases op <;> intro c <;> cases c <;> decide
  simp only [Reason.text, List.cons_append, List.append_assoc]
  rw [← List.cons_append, read_word u l _ hdollar hfirst, hwas,
    read_plain _ _ _ (Reason.plain_getD hfound), read_close, read_blank _ _ hclosed,
    read_word _ _ _ (Reason.plain_symbol op) hsymbol, read_plain _ _ _ hexpected.plain,
    List.nil_append]

/-- Between its items a group has one connective. -/
theorem read_joined {c : Connective} {rs : List Reason} (h : ∀ r ∈ rs, Passes r) (hne : rs ≠ [])
    (u : List Char) {a : Option Connective} (ha : a = none ∨ a = some c)
    (l : List (Option Connective)) : ∃ w b, NotName w ∧ ∀ rest,
      (Place.mk u (a :: l)).read (Reason.joined c rs ++ rest) = (Place.mk w (b :: l)).read rest := by
  induction rs generalizing u a with
  | nil => exact absurd rfl hne
  | cons r rs ih =>
    obtain ⟨hr, hrs⟩ := List.forall_mem_cons.1 h
    obtain ⟨w, hw, hread⟩ := hr u (a :: l)
    by_cases hlast : rs = []
    · subst hlast
      exact ⟨w, a, hw, hread⟩
    · obtain ⟨w', b, hw', hread'⟩ := ih hrs hlast [] (.inr rfl)
      refine ⟨w', b, hw', fun rest => ?_⟩
      rw [Reason.joined_cons c r hlast]
      simp only [List.append_assoc, List.cons_append]
      rw [hread, read_blank _ _ hw, read_name l _ ha, hread']

theorem passes_of_legible {r : Reason} (hr : r.Legible) : Passes r := by
  induction hr with
  | comparison hfield hfound hexpected => exact passes_comparison hfield hfound hexpected
  | @group c rs hseveral _ ih =>
    intro u l
    have hne : rs ≠ [] := List.ne_nil_of_length_pos (by omega)
    obtain ⟨w, b, -, hread⟩ := read_joined ih hne (u ++ ['(']) (c := c) (.inl rfl) l
    refine ⟨w ++ [')'], notName_of_mem (x := ')') (by simp) (by simp), fun rest => ?_⟩
    simp only [Reason.text, List.cons_append, List.append_assoc, List.nil_append]
    rw [read_open, hread, read_close]

/-! What a reading that does not break off says of the line. -/

theorem mark_eq_some {c : Connective} {l l' : List (Option Connective)} (h : mark c l = some l') :
    ∃ a r, l = a :: r ∧ l' = some c :: r ∧ (a = none ∨ a = some c) := by
  unfold mark at h
  split at h
  · cases h
  · cases h
    exact ⟨_, _, rfl, rfl, .inl rfl⟩
  · rename_i d r
    by_cases hd : c = d
    · rw [if_pos hd] at h
      cases h
      exact ⟨_, _, rfl, by rw [hd], .inr (by rw [hd])⟩
    · rw [if_neg hd] at h
      cases h

theorem step_cases {p q : Place} {c : Char} (h : p.step c = some q) :
    (c = ' ' ∧ q = ⟨[], p.levels⟩) ∨
    (c = ' ' ∧ ∃ d a l, p.levels = a :: l ∧ (a = none ∨ a = some d) ∧ q = ⟨[], some d :: l⟩) ∨
    (c = '(' ∧ q = ⟨p.word ++ [c], none :: p.levels⟩) ∨
    (c = ')' ∧ q = ⟨p.word ++ [c], p.levels.tail⟩) ∨
    (c ∉ delimiters ∧ q = ⟨p.word ++ [c], p.levels⟩) := by
  unfold step at h
  split at h
  · rename_i hc
    split at h
    · cases h
      exact .inl ⟨hc, rfl⟩
    · rename_i d hd
      obtain ⟨l', hl', rfl⟩ := Option.map_eq_some_iff.1 h
      obtain ⟨a, r, hl, rfl, ha⟩ := mark_eq_some hl'
      exact .inr (.inl ⟨hc, d, a, r, hl, ha, rfl⟩)
  · split at h
    · rename_i hc
      cases h
      exact .inr (.inr (.inl ⟨hc, rfl⟩))
    · split at h
      · rename_i hc
        cases h
        exact .inr (.inr (.inr (.inl ⟨hc, rfl⟩)))
      · cases h
        exact .inr (.inr (.inr (.inr ⟨by simp_all [delimiters], rfl⟩)))

theorem nesting_of_not_mem {c : Char} (h : c ∉ delimiters) : nesting [c] = 0 := by
  simp only [delimiters, List.mem_cons, List.not_mem_nil, or_false, not_or] at h
  simp [nesting, h]

variable {u : List Char} {d : Connective} {l : List (Option Connective)} {q : Place}

/-- A pair that has had a connective keeps it while it is open. Inside it are the pairs `inner`. -/
theorem step_inside {c : Char} (inner : List (Option Connective))
    (h : (Place.mk u (inner ++ some d :: l)).step c = some q)
    (hopen : 0 ≤ inner.length + nesting [c]) :
    ∃ w inner', q = ⟨w, inner' ++ some d :: l⟩ ∧
      (inner'.length : Int) = inner.length + nesting [c] := by
  rcases step_cases h with
    ⟨rfl, rfl⟩ | ⟨rfl, e, a, r, hl, ha, rfl⟩ | ⟨rfl, rfl⟩ | ⟨rfl, rfl⟩ | ⟨hc, rfl⟩
  · exact ⟨_, inner, rfl, rfl⟩
  · cases inner with
    | nil =>
      cases hl
      rcases ha with ha | ha
      · cases ha
      · cases ha
        exact ⟨_, [], rfl, rfl⟩
    | cons x inner =>
      cases hl
      exact ⟨_, some e :: inner, rfl, rfl⟩
  · exact ⟨_, none :: inner, rfl, by simp [nesting]⟩
  · cases inner with
    | nil => simp [nesting] at hopen
    | cons x inner => exact ⟨_, inner, rfl, by simp [nesting]⟩
  · exact ⟨_, inner, rfl, by rw [nesting_of_not_mem hc, add_zero]⟩

theorem read_inside {cs : List Char} (inner : List (Option Connective))
    (h : (Place.mk u (inner ++ some d :: l)).read cs = some q)
    (hopen : ∀ p, p <+: cs → 0 ≤ inner.length + nesting p) :
    ∃ w inner', q = ⟨w, inner' ++ some d :: l⟩ ∧
      (inner'.length : Int) = inner.length + nesting cs := by
  induction cs generalizing u inner with
  | nil =>
    cases h
    exact ⟨u, inner, rfl, (add_zero _).symm⟩
  | cons c cs ih =>
    rw [read_cons] at h
    obtain ⟨p, hstep, hrest⟩ := Option.bind_eq_some_iff.1 h
    have hfirst : [c] <+: c :: cs := ⟨cs, rfl⟩
    obtain ⟨v, inner', rfl, hlen⟩ := step_inside inner hstep (hopen [c] hfirst)
    have hopen' : ∀ p, p <+: cs → 0 ≤ inner'.length + nesting p := by
      intro p hp
      have hlonger := hopen (c :: p) (List.prefix_cons_inj c |>.2 hp)
      rw [nesting_cons] at hlonger
      omega
    obtain ⟨w, inner'', rfl, hlen'⟩ := ih inner' hrest hopen'
    refine ⟨w, inner'', rfl, ?_⟩
    rw [nesting_cons]
    omega

theorem exists_of_read_blank {p : Place} {rest : List Char} (h : p.read (' ' :: rest) = some q) :
    ∃ l', p.step ' ' = some ⟨[], l'⟩ ∧ (Place.mk [] l').read rest = some q := by
  rw [read_cons] at h
  obtain ⟨p', hstep, hrest⟩ := Option.bind_eq_some_iff.1 h
  rcases step_cases hstep with ⟨-, rfl⟩ | ⟨-, e, a, r, -, -, rfl⟩ | ⟨hc, -⟩ | ⟨hc, -⟩ | ⟨hc, -⟩
  · exact ⟨_, hstep, hrest⟩
  · exact ⟨_, hstep, hrest⟩
  · cases hc
  · cases hc
  · exact absurd Reason.blank_mem hc

theorem exists_of_read_name {c : Connective} {rest : List Char}
    (h : (Place.mk [] l).read (c.name.toList ++ ' ' :: rest) = some q) :
    ∃ a r, l = a :: r ∧ (a = none ∨ a = some c) ∧
      (Place.mk [] (some c :: r)).read rest = some q := by
  rw [read_plain _ _ _ (Reason.plain_name c), List.nil_append, read_cons, step, if_pos rfl,
    connective?_name] at h
  obtain ⟨p, hmarked, hrest⟩ := Option.bind_eq_some_iff.1 h
  obtain ⟨l', hmark, rfl⟩ := Option.map_eq_some_iff.1 hmarked
  obtain ⟨a, r, rfl, rfl, ha⟩ := mark_eq_some hmark
  exact ⟨a, r, rfl, ha, hrest⟩

/-- Connectives at one level stand in one pair, so they are one. -/
theorem connective_eq_of_read {c d : Connective} {line : List Char} {p q : Place}
    (hlevel : AtOneLevel c d line) (h : p.read line = some q) : c = d := by
  obtain ⟨front, inner, back, hinner, rfl⟩ := hlevel
  rw [read_append] at h
  obtain ⟨p, -, h⟩ := Option.bind_eq_some_iff.1 h
  obtain ⟨l, -, h⟩ := exists_of_read_blank h
  obtain ⟨a, r, -, -, h⟩ := exists_of_read_name h
  rw [read_append] at h
  obtain ⟨p, hread, h⟩ := Option.bind_eq_some_iff.1 h
  obtain ⟨w, opened, rfl, hlen⟩ := read_inside [] hread (by simpa using hinner.opened)
  have hnone : opened = [] := by
    rw [hinner.closed] at hlen
    simpa using hlen
  subst hnone
  obtain ⟨l, hstep, h⟩ := exists_of_read_blank h
  obtain ⟨w', opened, hplace, hlen⟩ := step_inside [] hstep (by simp [nesting])
  have hnone : opened = [] := by simpa [nesting] using hlen
  subst hnone
  cases hplace
  obtain ⟨a', r', hl, ha, -⟩ := exists_of_read_name h
  cases hl
  rcases ha with ha | ha
  · cases ha
  · exact Option.some.inj ha

end Place

/-- In a line of joined reasons no pair of parentheses has both connectives. -/
theorem Reason.connective_eq_of_joined {rs : List Reason} (hrs : ∀ r ∈ rs, r.Legible)
    (hne : rs ≠ []) {b c d : Connective} (h : AtOneLevel c d (joined b rs)) : c = d := by
  have hpasses : ∀ r ∈ rs, Place.Passes r := fun r hr => Place.passes_of_legible (hrs r hr)
  obtain ⟨w, a, -, hread⟩ := Place.read_joined hpasses hne [] (c := b) (.inl rfl) []
  have hline := hread []
  rw [List.append_nil] at hline
  exact Place.connective_eq_of_read h hline

end Workflow
