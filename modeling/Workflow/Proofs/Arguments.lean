import Workflow.CommandLine.Arguments
import Workflow.Proofs.Checking

/-! What a list of arguments asks for. What is done with an argument depends on nothing before it,
so a list that asks to compile a text asks for the artifact once the two differ at their ends. -/

namespace Workflow

namespace Arguments

/-- What is done with an argument. -/
inductive Reading where
  | position
  | rest
  | value (o : Setting)
  | assign (o : Setting) (v : String)
  | switch (o : Switch)
  | refuse (r : Refusal)

/-- What is done with an argument depends on nothing that was read before. -/
def reading (s : String) : Reading :=
  match form s with
  | .plain => .position
  | .escape => .rest
  | .short ('e' :: []) | .long "element" .none => .value .element
  | .long "compile" .none => .value .compile
  | .long "max-steps" .none => .value .maxSteps
  | .short ('e' :: v) => .assign .element (attached v)
  | .short ('h' :: _) => .refuse .help
  | .short ('V' :: _) => .refuse .version
  | .short _ => .refuse (.unknownArgument s)
  | .long name value =>
    match LongOption.ofName? name, value with
    | some (.setting o), some v => .assign o v
    | some (.setting _), .none => .refuse (.missingValue s)
    | some (.switch o), .none => .switch o
    | some .help, .none => .refuse .help
    | some .version, .none => .refuse .version
    | some _, some _ => .refuse (.unexpectedValue s)
    | .none, _ => .refuse (.unknownArgument s)

theorem read_cons (a : Arguments) (s : String) (r : List String) :
    read a (s :: r) =
      match reading s with
      | .position => do read (← a.addPositional s) r
      | .rest => r.foldlM addPositional a
      | .value o => read.readValue a s o r
      | .assign o v => do read (← a.addSetting s o v) r
      | .switch o => do read (← a.addSwitch s o) r
      | .refuse e => .error e := by
  rw [read, reading]
  generalize form s = f
  split
  case h_7 => simp_all
  case h_10 => simp_all
  case h_11 _ name value _ _ _ =>
    cases ho : LongOption.ofName? name with
    | none => simp_all only
    | some o => cases o <;> cases value <;> simp_all only
  all_goals rfl

theorem readValue_cons_eq_ok_iff {a c : Arguments} {name v : String} {o : Setting}
    {r : List String} :
    read.readValue a name o (v :: r) = .ok c ↔
      isPlain v ∧ ∃ b, a.addSetting name o v = .ok b ∧ read b r = .ok c := by
  rw [read.readValue]
  split
  · cases a.addSetting name o v <;> simp_all [bind, Except.bind]
  · simp_all

/-- An argument, with its value if that follows, is taken in and leads from `a` to `b`. -/
inductive Takes (a : Arguments) : List String → Arguments → Prop
  | position {b : Arguments} {s : String} (hs : reading s = .position)
      (h : a.addPositional s = .ok b) : Takes a [s] b
  | value {b : Arguments} {s v : String} {o : Setting} (hs : reading s = .value o) (hv : isPlain v)
      (h : a.addSetting s o v = .ok b) : Takes a [s, v] b
  | assign {b : Arguments} {s v : String} {o : Setting} (hs : reading s = .assign o v)
      (h : a.addSetting s o v = .ok b) : Takes a [s] b
  | switch {b : Arguments} {s : String} {o : Switch} (hs : reading s = .switch o)
      (h : a.addSwitch s o = .ok b) : Takes a [s] b

/-- All of the arguments are taken in. There is no `--` among them. -/
inductive TakesAll : Arguments → List String → Arguments → Prop
  | nil (a : Arguments) : TakesAll a [] a
  | cons {a b c : Arguments} {l r : List String} (h : Takes a l b) (hr : TakesAll b r c) :
      TakesAll a (l ++ r) c

theorem Takes.read {a b : Arguments} {l : List String} (h : Takes a l b) (r : List String) :
    a.read (l ++ r) = b.read r := by
  cases h with
  | position hs h => rw [List.singleton_append, read_cons, hs]; simp only [h]; rfl
  | value hs hv h =>
    rw [List.cons_append, List.singleton_append, read_cons, hs]
    simp only [read.readValue, hv, h]
    rfl
  | assign hs h => rw [List.singleton_append, read_cons, hs]; simp only [h]; rfl
  | switch hs h => rw [List.singleton_append, read_cons, hs]; simp only [h]; rfl

theorem TakesAll.read {a b : Arguments} {l : List String} (h : TakesAll a l b) (r : List String) :
    a.read (l ++ r) = b.read r := by
  induction h with
  | nil => rfl
  | cons h _ ih => rw [List.append_assoc, h.read, ih]

/-- The same arguments with another first path. -/
def withDefinition (a : Arguments) (path : String) : Arguments :=
  { a with positional := path :: a.positional.tail }

@[simp] theorem withDefinition_positional (a : Arguments) (path : String) :
    (a.withDefinition path).positional = path :: a.positional.tail := rfl

@[simp] theorem withDefinition_withDefinition (a : Arguments) (path other : String) :
    (a.withDefinition path).withDefinition other = a.withDefinition other := rfl

theorem addPositional_eq_ok_iff {a b : Arguments} {s : String} :
    a.addPositional s = .ok b ↔
      a.positional.length < 2 ∧ b = { a with positional := a.positional ++ [s] } := by
  by_cases hlt : a.positional.length < 2 <;> simp [addPositional, hlt, eq_comm]

theorem addSwitch_eq_ok_iff {a b : Arguments} {s : String} {o : Switch} :
    a.addSwitch s o = .ok b ↔ o ∉ a.switches ∧ b = { a with switches := o :: a.switches } := by
  unfold addSwitch
  split <;> simp_all [eq_comm]

theorem addSetting_positional {a b : Arguments} {s v : String} {o : Setting}
    (h : a.addSetting s o v = .ok b) : b.positional = a.positional := by
  unfold addSetting at h
  split at h <;> split at h <;> try split at h
  all_goals cases h
  all_goals rfl

theorem addSetting_withDefinition {a b : Arguments} {s v : String} {o : Setting} (path : String)
    (h : a.addSetting s o v = .ok b) :
    (a.withDefinition path).addSetting s o v = .ok (b.withDefinition path) := by
  unfold addSetting withDefinition at *
  split at h <;> split at h <;> try split at h
  all_goals cases h
  all_goals simp_all

theorem Takes.positional_ne_nil {a b : Arguments} {l : List String} (h : Takes a l b)
    (ha : a.positional ≠ []) : b.positional ≠ [] := by
  cases h with
  | position hs h => simp [(addPositional_eq_ok_iff.1 h).2]
  | value hs hv h => exact addSetting_positional h ▸ ha
  | assign hs h => exact addSetting_positional h ▸ ha
  | switch hs h => rwa [(addSwitch_eq_ok_iff.1 h).2]

/-- The first path changes nothing in how what follows is taken in. -/
theorem Takes.withDefinition {a b : Arguments} {l : List String} (h : Takes a l b)
    (ha : a.positional ≠ []) (path : String) :
    Takes (a.withDefinition path) l (b.withDefinition path) := by
  cases h with
  | position hs h =>
    obtain ⟨hlt, rfl⟩ := addPositional_eq_ok_iff.1 h
    obtain ⟨d, r, hp⟩ := List.exists_cons_of_ne_nil ha
    refine .position hs (addPositional_eq_ok_iff.2 ?_)
    simp_all [Arguments.withDefinition]
  | value hs hv h => exact .value hs hv (addSetting_withDefinition path h)
  | assign hs h => exact .assign hs (addSetting_withDefinition path h)
  | switch hs h =>
    obtain ⟨hfree, rfl⟩ := addSwitch_eq_ok_iff.1 h
    exact .switch hs (addSwitch_eq_ok_iff.2 ⟨hfree, rfl⟩)

theorem TakesAll.withDefinition {a b : Arguments} {l : List String} (h : TakesAll a l b)
    (ha : a.positional ≠ []) (path : String) :
    TakesAll (a.withDefinition path) l (b.withDefinition path) := by
  induction h with
  | nil a => exact .nil _
  | cons h _ ih => exact .cons (h.withDefinition ha path) (ih (h.positional_ne_nil ha))

theorem length_le_of_foldlM_addPositional {a b : Arguments} {l : List String}
    (h : l.foldlM addPositional a = .ok b) : l.length ≤ 2 - a.positional.length := by
  induction l generalizing a with
  | nil => exact Nat.zero_le _
  | cons s r ih =>
    obtain ⟨b', hb, hr⟩ := exceptBind_eq_ok_iff.1 h
    obtain ⟨hlt, rfl⟩ := addPositional_eq_ok_iff.1 hb
    have hle := ih hr
    simp only [List.length_append, List.length_cons, List.length_nil] at hle ⊢
    omega

/-- What is in front of `--compile` is taken in, once there is a first path. -/
theorem exists_takes_of_read {a c : Arguments} {s out : String} {r : List String}
    (ha : a.positional ≠ []) (h : a.read (s :: r ++ ["--compile", out]) = .ok c) :
    ∃ l rest b, s :: r = s :: l ++ rest ∧ Takes a (s :: l) b ∧
      b.read (rest ++ ["--compile", out]) = .ok c := by
  rw [List.cons_append, read_cons] at h
  cases hs : reading s with
  | position =>
    obtain ⟨b, hb, h⟩ := exceptBind_eq_ok_iff.1 (hs ▸ h)
    exact ⟨[], r, b, rfl, .position hs hb, h⟩
  | rest =>
    -- after a first path there is no room for the two arguments at the end
    have hle := length_le_of_foldlM_addPositional (hs ▸ h)
    have hpos := List.length_pos_iff.2 ha
    simp only [List.length_append, List.length_cons, List.length_nil] at hle
    omega
  | value o =>
    rw [hs] at h
    cases r with
    | nil =>
      -- the name of an option is no value
      obtain ⟨hv, -⟩ := readValue_cons_eq_ok_iff.1 h
      exact absurd hv (by decide)
    | cons v r =>
      obtain ⟨hv, b, hb, h⟩ := readValue_cons_eq_ok_iff.1 h
      exact ⟨[v], r, b, rfl, .value hs hv hb, h⟩
  | assign o v =>
    obtain ⟨b, hb, h⟩ := exceptBind_eq_ok_iff.1 (hs ▸ h)
    exact ⟨[], r, b, rfl, .assign hs hb, h⟩
  | switch o =>
    obtain ⟨b, hb, h⟩ := exceptBind_eq_ok_iff.1 (hs ▸ h)
    exact ⟨[], r, b, rfl, .switch hs hb, h⟩
  | refuse e => cases hs ▸ h

theorem takesAll_of_read {a c : Arguments} {out : String} {l : List String}
    (ha : a.positional ≠ []) (h : a.read (l ++ ["--compile", out]) = .ok c) :
    ∃ b, TakesAll a l b ∧ b.read ["--compile", out] = .ok c := by
  -- what is taken in at once has one or two arguments
  induction hn : l.length using Nat.strongRecOn generalizing l a with
  | ind n ih =>
    cases l with
    | nil => exact ⟨a, .nil a, h⟩
    | cons s r =>
      obtain ⟨l, rest, b, hl, hb, h⟩ := exists_takes_of_read ha h
      have hlt : rest.length < n := by
        rw [← hn, hl, List.length_append, List.length_cons]
        omega
      obtain ⟨b', hrest, hread⟩ := ih _ hlt (hb.positional_ne_nil ha) h rfl
      exact ⟨b', hl ▸ .cons hb hrest, hread⟩

theorem reading_compile : reading "--compile" = .value .compile := rfl

theorem reading_artifact : reading "--artifact" = .switch .artifact := rfl

theorem read_compile_eq_ok_iff {a b : Arguments} {out : String} :
    a.read ["--compile", out] = .ok b ↔
      isPlain out ∧ a.compile = .none ∧ b = { a with compile := some out } := by
  rw [read_cons, reading_compile]
  cases hc : a.compile with
  | none => simp [readValue_cons_eq_ok_iff, addSetting, hc, read, @eq_comm _ b]
  | some c => simp [readValue_cons_eq_ok_iff, addSetting, hc]

theorem read_artifact_of_not_mem {a : Arguments} (h : Switch.artifact ∉ a.switches) :
    a.read ["--artifact"] = .ok { a with switches := .artifact :: a.switches } := by
  rw [read_cons, reading_artifact]
  simp [addSwitch, h, read, bind, Except.bind]

theorem reading_of_isPlain {s : String} (h : isPlain s) : reading s = .position := by
  unfold isPlain at h
  unfold reading
  split at h
  · simp [*]
  · cases h

theorem read_path {path : String} (h : isPlain path) (r : List String) :
    none.read (path :: r) = (none.withDefinition path).read r := by
  rw [read_cons, reading_of_isPlain h]
  rfl

/-- Where a text is to be compiled, the artifact can be asked for with the arguments that are in
between. -/
theorem read_artifact_of_read_compile {path out : String} {options : List String} {c : Arguments}
    (hpath : isPlain path) (h : none.read (path :: options ++ ["--compile", out]) = .ok c)
    (hc : Switch.artifact ∉ c.switches) :
    c = c.withDefinition path ∧ c.compile = some out ∧
    none.read (out :: options ++ ["--artifact"]) = .ok
      { c.withDefinition out with compile := .none, switches := .artifact :: c.switches } := by
  rw [List.cons_append, read_path hpath] at h
  obtain ⟨b, htakes, hb⟩ := takesAll_of_read (by simp) h
  obtain ⟨hout, hnone, rfl⟩ := read_compile_eq_ok_iff.1 hb
  have hout' := htakes.withDefinition (by simp) out
  have hpath' := htakes.withDefinition (by simp) path
  rw [withDefinition_withDefinition] at hout' hpath'
  -- arguments are taken in in one way only, so the first path is still there
  have hfirst : b = b.withDefinition path := by
    simpa [read] using (htakes.read []).symm.trans (hpath'.read [])
  have hfree : Switch.artifact ∉ (b.withDefinition out).switches := hc
  have hread := hout'.read ["--artifact"]
  rw [read_artifact_of_not_mem hfree] at hread
  refine ⟨congrArg (fun a => { a with compile := some out }) hfirst, rfl, ?_⟩
  rw [List.cons_append, read_path hout, hread]
  simp [withDefinition, hnone]

end Arguments

theorem Invocation.ofArguments_artifact_of_compile {path out : String} {options : List String}
    {i : Invocation} (hpath : Arguments.isPlain path)
    (h : ofArguments (path :: options ++ ["--compile", out]) = .ok i) (hi : i.artifact = false) :
    i.definitionPath = path ∧ i.compile = some out ∧
    ofArguments (out :: options ++ ["--artifact"]) =
      .ok { i with definitionPath := out, artifact := true, compile := none } := by
  obtain ⟨c, hc, hinv⟩ := exceptBind_eq_ok_iff.1 h
  have hfirst : c.positional ≠ [] := fun he => by simp [Arguments.invocation, he] at hinv
  have hfree : Switch.artifact ∉ c.switches := by
    cases hp : c.positional with
    | nil => exact absurd hp hfirst
    | cons d r =>
      simp only [Arguments.invocation, hp, Except.ok.injEq] at hinv
      simpa [← hinv] using hi
  obtain ⟨hpath, hout, hread⟩ := Arguments.read_artifact_of_read_compile hpath hc hfree
  rw [hpath] at hinv
  cases hinv
  refine ⟨rfl, hout, ?_⟩
  rw [ofArguments, hread]
  simp only [Arguments.invocation, Arguments.withDefinition, bind, Except.bind, List.mem_cons,
    reduceCtorEq, false_or, true_or, decide_true]
  congr

end Workflow
