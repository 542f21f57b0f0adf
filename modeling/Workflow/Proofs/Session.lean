import Workflow.CommandLine.Session
import Workflow.Proofs.Artifact
import Workflow.Proofs.Resolution

/-! What the parts of the program do, on any host whose files are a directory: what each gives, what
it says and which directory it leaves. What is done with an engine and a context does not depend on
files. -/

namespace Workflow

variable {σ α β ε : Type}

theorem mapError_eq_ok_iff {x : Except ε α} {f : ε → β} {a : α} :
    x.mapError f = .ok a ↔ x = .ok a := by
  cases x <;> simp [Except.mapError]

section

variable {m : Type → Type} [Monad m] [LawfulMonad m] (fs : FileSystem m) (path : String)

/-- The text of what was read. -/
def FileSystem.textRead : Except String Bytes → Except String String
  | .error e => .error e
  | .ok bs => (Codec.ofUtf8? bs).elim (.error "not a text") .ok

/-- The artifact of what was read. -/
def Artifact.ofRead : Except String Bytes → Except ArtifactError Artifact
  | .error e => .error (.io path e)
  | .ok bs => ofBytes bs

/-- The context of what was read. -/
def Context.ofRead (r : Except String Bytes) : Except ContextError Context :=
  match FileSystem.textRead r with
  | .error e => .error (.io path e)
  | .ok s => ofText s

theorem FileSystem.textRead_eq_ok_iff {r : Except String Bytes} {s : String} :
    textRead r = .ok s ↔ ∃ bs, r = .ok bs ∧ Codec.ofUtf8? bs = some s := by
  cases r with
  | error e => simp [textRead]
  | ok bs => cases h : Codec.ofUtf8? bs <;> simp [textRead, h]

theorem FileSystem.readText_eq_map : fs.readText path = textRead <$> fs.read path := by
  rw [readText, map_eq_pure_bind]
  refine bind_congr fun r => ?_
  cases r with
  | error e => rfl
  | ok bs => cases h : Codec.ofUtf8? bs <;> simp [textRead, h]

theorem Artifact.load_eq_map : load fs path = ofRead path <$> fs.read path := by
  rw [load, map_eq_pure_bind]
  refine bind_congr fun r => ?_
  cases r <;> rfl

theorem Artifact.save_eq_map (a : Artifact) :
    a.save fs path = Except.mapError (.io path) <$> fs.write path a.toBytes := by
  rw [save, map_eq_pure_bind]
  refine bind_congr fun r => ?_
  cases r <;> rfl

theorem Context.load_eq_map : load fs path = ofRead path <$> fs.read path := by
  rw [load, FileSystem.readText_eq_map, map_eq_pure_bind, map_eq_pure_bind, bind_assoc]
  refine bind_congr fun r => ?_
  rw [pure_bind, ofRead]
  cases FileSystem.textRead r <;> rfl

end

/-- The line, whatever time it gives. -/
def Line.timeless : Line → Line
  | text s => text s
  | elapsed w _ => elapsed w 0

/-- The lines, whatever times they give. -/
def Transcript.timeless (t : Transcript) : List Line := t.lines.map Line.timeless

/-- The files of the host are a directory, which is a part of its state. The clock may show
anything. -/
structure Host.On (h : Host (StateM σ)) (dir : σ → Directory) : Prop where
  now : ∀ s, ∃ n s', h.now.run s = (n, s') ∧ dir s' = dir s
  read : ∀ path s, ∃ s', (h.files.read path).run s = ((dir s).read path, s') ∧ dir s' = dir s
  write : ∀ path bs s, ∃ s',
    (h.files.write path bs).run s = (((dir s).write path bs).map fun _ => (), s') ∧
      dir s' = ((dir s).write path bs).toOption.getD (dir s)

theorem Directory.host_on : Directory.host.On id where
  now d := ⟨0, d, rfl, rfl⟩
  read path d := ⟨d, rfl, rfl⟩
  write path bs d := by
    rw [host, fileSystem]
    cases hw : d.write path bs with
    | ok d' => exact ⟨d', by simp [hw]; rfl, by simp [hw]; rfl⟩
    | error e => exact ⟨d, by simp [hw]; rfl, by simp [hw]; rfl⟩

/-- The file is the text of this process. -/
def Directory.Describes (d : Directory) (path : String) (p : Definition) : Prop :=
  ∃ bs s, d.read path = .ok bs ∧ Codec.ofUtf8? bs = some s ∧ Definition.ofText s = .ok p

namespace Session

/-- Started with the directory `d`, whatever was said before, the session gives `r`, says `ls` and
leaves `d'`. -/
def Runs (dir : σ → Directory) (x : Session (StateM σ) α) (d : Directory) (r : Except String α)
    (ls : List Line) (d' : Directory) : Prop :=
  ∀ said s, dir s = d → ∃ more s', (x.run.run said).run s = ((r, said ++ more), s') ∧
    more.map Line.timeless = ls ∧ dir s' = d'

namespace Runs

variable {dir : σ → Directory} {d d' d'' : Directory} {x : Session (StateM σ) α}
  {f : α → Session (StateM σ) β} {l m : List Line} {e : String}

theorem pure (a : α) : Runs dir (pure a) d (.ok a) [] d := by
  intro said s hs
  exact ⟨[], s, by rw [List.append_nil]; rfl, rfl, hs⟩

theorem throw (e : String) : Runs dir (throw e : Session (StateM σ) α) d (.error e) [] d := by
  intro said s hs
  exact ⟨[], s, by rw [List.append_nil]; rfl, rfl, hs⟩

theorem say (ls : List Line) : Runs dir (say ls) d (.ok ()) (ls.map Line.timeless) d :=
  fun _ s hs => ⟨ls, s, rfl, rfl, hs⟩

theorem say_elapsed (ls : List Line) (w : Stopwatch) (t : Nat) :
    Runs dir (Session.say (ls ++ [.elapsed w t])) d (.ok ())
      (ls.map Line.timeless ++ [.elapsed w 0]) d := by
  have h : Runs dir _ d _ _ d := say (ls ++ [.elapsed w t])
  rwa [List.map_append] at h

theorem orFail (message : ε → String) (r : Except ε α) :
    Runs dir (orFail message r) d (r.mapError message) [] d := by
  cases r with
  | ok a => exact pure a
  | error e => exact throw (message e)

theorem bind {a : α} {r : Except String β} (hx : Runs dir x d (.ok a) l d')
    (hf : Runs dir (f a) d' r m d'') : Runs dir (x >>= f) d r (l ++ m) d'' := by
  intro said s hs
  obtain ⟨more, s', hrun, rfl, hs'⟩ := hx said s hs
  obtain ⟨more', s'', hrun', rfl, hs''⟩ := hf (said ++ more) s' hs'
  refine ⟨more ++ more', s'', ?_, List.map_append, hs''⟩
  rw [← List.append_assoc, ← hrun', ExceptT.run_bind, StateT.run_bind, StateT.run_bind, hrun]
  rfl

theorem bind_error (hx : Runs dir x d (.error e) l d') :
    Runs dir (x >>= f) d (.error e) l d' := by
  intro said s hs
  obtain ⟨more, s', hrun, hmore, hs'⟩ := hx said s hs
  refine ⟨more, s', ?_, hmore, hs'⟩
  rw [ExceptT.run_bind, StateT.run_bind, StateT.run_bind, hrun]
  rfl

theorem orFail_ok {message : ε → String} {a : α} {r : Except String β}
    (hf : Runs dir (f a) d r l d') : Runs dir (Session.orFail message (.ok a) >>= f) d r l d' :=
  hf

theorem orFail_error (message : ε → String) (e : ε) :
    Runs dir (Session.orFail message (.error e) >>= f) d (.error (message e)) [] d :=
  bind_error (throw (message e))

variable {h : Host (StateM σ)}

theorem run_perform (x : StateM σ α) (said : List Line) (s : σ) :
    ((perform x).run.run said).run s = ((.ok (x.run s).1, said), (x.run s).2) := rfl

/-- The clock has an effect on nothing but the times that are given. -/
theorem now (hh : h.On dir) {f : Nat → Session (StateM σ) α} {r : Except String α}
    (hf : ∀ t, Runs dir (f t) d r l d') : Runs dir (perform h.now >>= f) d r l d' := by
  intro said s hs
  obtain ⟨t, s', hnow, hs'⟩ := hh.now s
  obtain ⟨more, s'', hrun, hmore⟩ := hf t said s' (hs'.trans hs)
  refine ⟨more, s'', ?_, hmore⟩
  rw [← hrun, ExceptT.run_bind, StateT.run_bind, StateT.run_bind, run_perform, hnow]
  rfl

theorem read (hh : h.On dir) (path : String) (g : Except String Bytes → α) :
    Runs dir (perform (g <$> h.files.read path)) d (.ok (g (d.read path))) [] d := by
  intro said s hs
  obtain ⟨s', hread, hs'⟩ := hh.read path s
  refine ⟨[], s', ?_, rfl, hs'.trans hs⟩
  rw [run_perform, StateT.run_map, hread, hs, List.append_nil]
  rfl

theorem write (hh : h.On dir) (path : String) (bs : Bytes) (g : Except String Unit → α) :
    Runs dir (perform (g <$> h.files.write path bs)) d
      (.ok (g ((d.write path bs).map fun _ => ()))) [] ((d.write path bs).toOption.getD d) := by
  intro said s hs
  obtain ⟨s', hwrite, hs'⟩ := hh.write path bs s
  refine ⟨[], s', ?_, rfl, hs ▸ hs'⟩
  rw [run_perform, StateT.run_map, hwrite, hs, List.append_nil]
  rfl

end Runs

section stages

variable {h : Host (StateM σ)} {dir : σ → Directory} {d : Directory}

theorem loadText_runs (hh : h.On dir) (path : String) (d : Directory) :
    ∃ r, Runs dir (loadText h.files path) d r [] d ∧ ∀ p, r = .ok p → d.Describes path p := by
  have hread := Runs.read hh path FileSystem.textRead (d := d)
  rw [← FileSystem.readText_eq_map] at hread
  cases hs : FileSystem.textRead (d.read path) with
  | error e =>
    rw [hs] at hread
    exact ⟨_, hread.bind (Runs.orFail_error _ e), nofun⟩
  | ok s =>
    rw [hs] at hread
    obtain ⟨bs, hbs, htext⟩ := FileSystem.textRead_eq_ok_iff.1 hs
    refine ⟨_, hread.bind (Runs.orFail_ok (Runs.orFail _ (Definition.ofText s))), ?_⟩
    exact fun p hp => ⟨bs, s, hbs, htext, mapError_eq_ok_iff.1 hp⟩

theorem loadArtifact_runs (hh : h.On dir) (path : String) (d : Directory) :
    ∃ r, Runs dir (loadArtifact h.files path) d r [] d ∧ ∀ bs a, d.read path = .ok bs →
      Artifact.ofBytes bs = .ok a → r = .ok a.definition := by
  have hread := Runs.read hh path (Artifact.ofRead path) (d := d)
  rw [← Artifact.load_eq_map] at hread
  cases ha : Artifact.ofRead path (d.read path) with
  | error e =>
    rw [ha] at hread
    refine ⟨_, hread.bind (Runs.orFail_error _ e), ?_⟩
    intro bs a hbs hok
    rw [hbs] at ha
    exact nomatch ha.symm.trans hok
  | ok a =>
    rw [ha] at hread
    refine ⟨_, hread.bind (Runs.orFail_ok (Runs.pure a.definition)), ?_⟩
    intro bs a' hbs hok
    rw [hbs] at ha
    cases ha.symm.trans hok
    rfl

/-- A line that does not start with a space reports no artifact. -/
theorem ne_written {s : String} (hs : s.toList.head? ≠ some ' ') (out : String) :
    written out ≠ .text s := by
  intro h
  apply hs
  rw [← Line.text.inj h]
  simp only [String.toList_append]
  rfl

/-- The line for a process that was loaded. -/
def loaded (p : Definition) : Line :=
  let name := p.name
  let count := p.elements.length
  .text s!"Loaded process '{name}' with {count} elements"

theorem written_ne_loaded (out : String) (p : Definition) : written out ≠ loaded p := by
  apply ne_written
  simp only [String.toList_append]
  exact nofun

theorem loadContext_runs (hh : h.On dir) (o : Option String) (d : Directory) :
    ∃ r ls, (∀ d', (∀ path ∈ o, d'.read path = d.read path) →
      Runs dir (loadContext h.files o) d' r ls d') ∧ ∀ out, written out ∉ ls := by
  cases o with
  | none =>
    refine ⟨_, _, fun d' _ => (Runs.say _).bind (Runs.pure _), ?_⟩
    intro out
    rw [List.append_nil, List.map_singleton, List.mem_singleton]
    exact ne_written (by decide) out
  | some path =>
    have hread (d' : Directory) := Runs.read hh path (Context.ofRead path) (d := d')
    simp only [← Context.load_eq_map] at hread
    have hrun (d' : Directory) (hd' : ∀ p ∈ some path, d'.read p = d.read p) :=
      (hd' path rfl ▸ hread d').bind (Runs.orFail (fun e : ContextError =>
        s!"Failed to load data context: {e.message}") (Context.ofRead path (d.read path)))
    exact ⟨_, [], hrun, fun _ => List.not_mem_nil⟩

theorem buildEngine_runs (dir : σ → Directory) (p : Definition) (s : Settings) (d : Directory) :
    (∃ m, Runs dir (buildEngine p s) d (.error m) [] d) ∨
    ∃ g, g.definition = p ∧ ∀ d', Runs dir (buildEngine p s) d' (.ok g) [loaded p] d' := by
  unfold buildEngine
  cases hg : Engine.build p s with
  | error e => exact .inl ⟨_, Runs.orFail_error _ e⟩
  | ok g =>
    obtain ⟨hp, -⟩ := Engine.build_eq_ok hg
    exact .inr ⟨g, hp, fun d' => Runs.orFail_ok ((Runs.say [loaded p]).bind (Runs.pure g))⟩

/-- Either nothing is written, or the bytes of the process are, and it is said so. -/
theorem compile_runs (hh : h.On dir) (p : Definition) (o : Option String) (d : Directory) :
    (∃ r, Runs dir (compile h.files p o) d r [] d ∧ (r = .ok () → o = none)) ∨
    ∃ out q, o = some out ∧ Path.resolve? out = some q ∧
      Runs dir (compile h.files p o) d (.ok ()) [written out]
        (d.insert q (Artifact.toBytes ⟨p⟩)) := by
  cases o with
  | none => exact .inl ⟨.ok (), Runs.pure (), fun _ => rfl⟩
  | some out =>
    unfold compile
    cases ha : Artifact.ofDefinition p with
    | error e => exact .inl ⟨_, Runs.orFail_error _ e, nofun⟩
    | ok a =>
      obtain ⟨rfl, -⟩ := Artifact.ofDefinition_eq_ok_iff.1 ha
      have hwrite := Runs.write hh out (Artifact.toBytes ⟨p⟩)
        (Except.mapError (ArtifactError.io out)) (d := d)
      rw [← Artifact.save_eq_map] at hwrite
      cases hq : Path.resolve? out with
      | none =>
        simp only [Directory.write, hq] at hwrite
        exact .inl ⟨_, Runs.orFail_ok (hwrite.bind (Runs.orFail_error _ _)), nofun⟩
      | some q =>
        simp only [Directory.write, hq] at hwrite
        exact .inr ⟨out, q, rfl, hq, Runs.orFail_ok (hwrite.bind (Runs.orFail_ok (Runs.say _)))⟩

theorem resolveElement_runs (hh : h.On dir) (g : Engine) (name : String) (c : Context) :
    ∃ r ls, ∀ d, Runs dir (resolveElement h g name c) d r ls d := by
  unfold resolveElement
  cases (g.resolve name).run c.lookup with
  | error e => exact ⟨_, _, fun d => Runs.now hh fun _ => Runs.orFail_error _ e⟩
  | ok r =>
    exact ⟨_, _, fun d => Runs.now hh fun _ => Runs.orFail_ok (Runs.now hh fun _ =>
      Runs.say_elapsed _ _ _)⟩

theorem chooseElement_runs (dir : σ → Directory) (g : Engine) (o : Option String) :
    ∃ r, ∀ d, Runs dir (chooseElement (m := StateM σ) g o) d r [] d := by
  unfold chooseElement
  cases o with
  | some name => exact ⟨_, fun d => Runs.pure name⟩
  | none =>
    cases g.start with
    | error e => exact ⟨_, fun d => Runs.orFail_error _ e⟩
    | ok e => exact ⟨_, fun d => Runs.orFail_ok (Runs.pure e.name)⟩

theorem decide_runs (hh : h.On dir) (i : Invocation) (g : Engine) (c : Context) :
    ∃ r ls, ∀ d, Runs dir (decide h i g c) d r ls d := by
  unfold decide
  split
  · unfold runFromStart
    cases (g.run Executor.passthrough () c).result with
    | error e => exact ⟨_, _, fun d => Runs.orFail_error _ e⟩
    | ok o => exact ⟨_, _, fun d => Runs.orFail_ok (Runs.say _)⟩
  · obtain ⟨_ | name, hname⟩ := chooseElement_runs dir g i.element
    · exact ⟨_, _, fun d => Runs.bind_error (hname d)⟩
    · obtain ⟨r, ls, hr⟩ := resolveElement_runs hh g name c
      exact ⟨_, _, fun d => (hname d).bind (hr d)⟩

/-- What is done with an engine and a context, once all files are read and written. -/
def answer (h : Host (StateM σ)) (i : Invocation) (g : Engine) (c : Context) (started : Nat) :
    Session (StateM σ) Unit := do
  decide h i g c
  let finished ← perform h.now
  say [.text "", .elapsed .total (finished - started)]

theorem answer_runs (hh : h.On dir) (i : Invocation) (g : Engine) (c : Context) :
    ∃ r ls, ∀ started d, Runs dir (answer h i g c started) d r ls d := by
  obtain ⟨_ | _, ls, hr⟩ := decide_runs hh i g c
  · exact ⟨_, _, fun _ d => Runs.bind_error (hr d)⟩
  · exact ⟨_, _, fun _ d => (hr d).bind (Runs.now hh fun _ => Runs.say_elapsed [.text ""] _ _)⟩

end stages

end Session

end Workflow
