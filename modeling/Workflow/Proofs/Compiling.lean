import Workflow.Proofs.Arguments
import Workflow.Proofs.Session

/-! Compiling and then running what was compiled. A call with a text that writes an artifact is
followed by a call with that artifact: the two differ in one line of output, whatever becomes of
them, and no call changes another file. -/

namespace Workflow

namespace Path

/-- The paths do not lead to one file. -/
def Apart (a b : String) : Prop := ∀ q, resolve? a = some q → resolve? b ≠ some q

theorem eq_of_resolve? {path q : String} (hs : '/' ∉ path.toList) (h : resolve? path = some q) :
    path = q := by
  unfold resolve? at h
  split at h
  · cases h
  · rw [parts_of_no_slash _ fun c hc he => hs (he ▸ hc)] at h
    simp only [follow] at h
    split at h
    · simpa using h
    · cases h

/-- Different names are paths to different files. -/
theorem apart_of_ne {a b : String} (ha : '/' ∉ a.toList) (hb : '/' ∉ b.toList) (h : a ≠ b) :
    Apart a b := by
  intro q hqa hqb
  exact h ((eq_of_resolve? ha hqa).trans (eq_of_resolve? hb hqb).symm)

end Path

namespace Directory

theorem read_insert {path q : String} (h : Path.resolve? path = some q) (d : Directory)
    (bs : Bytes) : read (d.insert q bs) path = .ok bs := by
  simp [read, h, Keyed.find?_insert]

theorem read_insert_of_ne {path q : String} (h : Path.resolve? path ≠ some q) (d : Directory)
    (bs : Bytes) : read (d.insert q bs) path = d.read path := by
  unfold read
  cases hp : Path.resolve? path with
  | none => rfl
  | some r =>
    have hne : ¬ q = r := fun he => h (he ▸ hp)
    simp [Keyed.find?_insert, hne]

end Directory

variable {σ : Type} {h : Host (StateM σ)} {dir : σ → Directory} {d d' : Directory}
  {i : Invocation} {g : Engine} {c : Context} {before : List Line}

/-- A process that an engine was built for is read back from its artifact. -/
theorem Engine.ofBytes_toBytes (g : Engine) (hsized : g.definition.Sized) :
    Artifact.ofBytes (Artifact.toBytes ⟨g.definition⟩) = .ok ⟨g.definition⟩ :=
  Artifact.ofBytes_toBytes (Artifact.ofDefinition_eq_ok_iff.2 ⟨rfl, g.index, g.indexed⟩) hsized

namespace Session

/-- In the directory `d` the call has an engine and a context, and has said `before` of the
context. -/
structure Prepared (dir : σ → Directory) (h : Host (StateM σ)) (i : Invocation) (d : Directory)
    (g : Engine) (c : Context) (before : List Line) : Prop where
  definition : Runs dir (loadDefinition h.files i) d (.ok g.definition) [] d
  context : ∀ d', (∀ path ∈ i.contextPath, d'.read path = d.read path) →
    Runs dir (loadContext h.files i.contextPath) d' (.ok c) before d'
  engine : ∀ d', Runs dir (buildEngine g.definition i.settings) d' (.ok g) [loaded g.definition] d'
  unreported : ∀ out, written out ∉ before
  described : i.artifact = false → d.Describes i.definitionPath g.definition

/-- A text that is loaded is one that the file has. -/
theorem loadDefinition_runs (hh : h.On dir) (i : Invocation) (d : Directory) :
    ∃ r, Runs dir (loadDefinition h.files i) d r [] d ∧
      ∀ p, r = .ok p → i.artifact = false → d.Describes i.definitionPath p := by
  unfold loadDefinition
  split
  · rename_i hi
    obtain ⟨r, hr, -⟩ := loadArtifact_runs hh i.definitionPath d
    exact ⟨r, hr, fun p _ hi' => absurd (hi.symm.trans hi') nofun⟩
  · obtain ⟨r, hr, hdescribed⟩ := loadText_runs hh i.definitionPath d
    exact ⟨r, hr, fun p hp _ => hdescribed p hp⟩

/-- What fails before there is an engine has reported no artifact. -/
theorem prepared_or_fails (hh : h.On dir) (i : Invocation) (d : Directory) :
    (∃ g c before, Prepared dir h i d g c before) ∨
    ∃ m ls, Runs dir (whole h i) d (.error m) ls d ∧ ∀ out, written out ∉ ls := by
  obtain ⟨rp, hp, hdescribed⟩ := loadDefinition_runs hh i d
  obtain ⟨rc, before, hc, hbefore⟩ := loadContext_runs hh i.contextPath d
  have hcd := hc d fun _ _ => rfl
  match rp, rc with
  | .error m, _ =>
    exact .inr ⟨m, [], Runs.now hh fun _ => hp.bind_error, fun _ => List.not_mem_nil⟩
  | .ok p, .error m =>
    exact .inr ⟨m, before, Runs.now hh fun _ => hp.bind hcd.bind_error, hbefore⟩
  | .ok p, .ok c =>
    obtain ⟨m, hm⟩ | ⟨g, rfl, hg⟩ := buildEngine_runs dir p i.settings d
    · refine .inr ⟨m, before ++ [], Runs.now hh fun _ => hp.bind (hcd.bind hm.bind_error), ?_⟩
      rwa [List.append_nil]
    · exact .inl ⟨g, c, before, hp, hc, hg, hbefore, hdescribed _ rfl⟩

namespace Prepared

theorem whole_runs (hi : Prepared dir h i d g c before) (hh : h.On dir) {mid after : List Line}
    {r : Except String Unit}
    (hw : Runs dir (compile h.files g.definition i.compile) d (.ok ()) mid d')
    (hr : ∀ started, Runs dir (answer h i g c started) d' r after d') :
    Runs dir (whole h i) d r (before ++ loaded g.definition :: (mid ++ after)) d' :=
  Runs.now hh fun t => hi.definition.bind ((hi.context d fun _ _ => rfl).bind
    ((hi.engine d).bind (hw.bind (hr t))))

theorem whole_runs_error (hi : Prepared dir h i d g c before) (hh : h.On dir) {m : String}
    (hw : Runs dir (compile h.files g.definition i.compile) d (.error m) [] d) :
    Runs dir (whole h i) d (.error m) (before ++ [loaded g.definition]) d :=
  Runs.now hh fun _ => hi.definition.bind ((hi.context d fun _ _ => rfl).bind
    ((hi.engine d).bind hw.bind_error))

/-- A call with the artifact of the process is prepared as the call with its text was. -/
theorem replay (hi : Prepared dir h i d g c before) (hh : h.On dir) {out q : String}
    (hq : Path.resolve? out = some q) (hapart : ∀ c ∈ i.contextPath, Path.Apart out c)
    (hsized : g.definition.Sized) :
    Prepared dir h { i with definitionPath := out, artifact := true, compile := none }
      (d.insert q (Artifact.toBytes ⟨g.definition⟩)) g c before where
  definition := by
    obtain ⟨r, hrun, hr⟩ := loadArtifact_runs hh out (d.insert q (Artifact.toBytes ⟨g.definition⟩))
    rw [hr _ _ (Directory.read_insert hq _ _) (g.ofBytes_toBytes hsized)] at hrun
    exact hrun
  context d' hd' := hi.context d' fun path hpath =>
    (hd' path hpath).trans (Directory.read_insert_of_ne (hapart path hpath q hq) _ _)
  engine := hi.engine
  unreported := hi.unreported
  described := nofun

end Prepared

/-- A call leaves the directory as it is and reports no artifact, or it writes the artifact of its
process and reports that, and goes on in a way that does not depend on files. -/
theorem whole_cases (hh : h.On dir) (i : Invocation) (d : Directory) :
    (∃ r ls, Runs dir (whole h i) d r ls d ∧ ∀ out ∈ i.compile, written out ∉ ls) ∨
    ∃ out q g c before r after, out ∈ i.compile ∧ Path.resolve? out = some q ∧
      Prepared dir h i d g c before ∧ (∀ t d', Runs dir (answer h i g c t) d' r after d') ∧
      Runs dir (whole h i) d r (before ++ loaded g.definition :: written out :: after)
        (d.insert q (Artifact.toBytes ⟨g.definition⟩)) := by
  obtain ⟨g, c, before, hi⟩ | ⟨m, ls, hrun, hls⟩ := prepared_or_fails hh i d
  · obtain ⟨r, after, hr⟩ := answer_runs hh i g c
    obtain ⟨_ | _, hw, hnone⟩ | ⟨out, q, hout, hq, hw⟩ := compile_runs hh g.definition i.compile d
    · refine .inl ⟨_, _, hi.whole_runs_error hh hw, fun out _ => ?_⟩
      simp [hi.unreported, written_ne_loaded]
    · refine .inl ⟨_, _, hi.whole_runs hh hw fun t => hr t d, fun out hout => ?_⟩
      rw [hnone rfl] at hout
      cases hout
    · have hrun := hi.whole_runs hh hw fun t => hr t _
      exact .inr ⟨out, q, g, c, before, r, after, hout, hq, hi, hr, hrun⟩
  · exact .inl ⟨_, ls, hrun, fun out _ => hls out⟩

/-- A call changes no more than the file whose artifact it reports. -/
theorem whole_frame (hh : h.On dir) (i : Invocation) (d : Directory) :
    ∃ r ls d', Runs dir (whole h i) d r ls d' ∧
      (d' = d ∨ ∃ out q bs, out ∈ i.compile ∧ Path.resolve? out = some q ∧
        d' = d.insert q bs ∧ written out ∈ ls) := by
  obtain ⟨r, ls, hrun, -⟩ | ⟨out, q, _, _, _, r, _, hout, hq, _, _, hrun⟩ := whole_cases hh i d
  · exact ⟨r, ls, d, hrun, .inl rfl⟩
  · exact ⟨r, _, _, hrun, .inr ⟨out, q, _, hout, hq, rfl, by simp⟩⟩

/-- A call that reports an artifact, and a call with that artifact after it. -/
theorem whole_replay (hh : h.On dir) {out : String} (d : Directory)
    (htext : i.artifact = false) (hout : i.compile = some out)
    (hapart : ∀ c ∈ i.contextPath, Path.Apart out c)
    (hsized : ∀ p, d.Describes i.definitionPath p → p.Sized) :
    ∃ r ls d', Runs dir (whole h i) d r ls d' ∧ (written out ∈ ls → ∃ before after,
      ls = before ++ written out :: after ∧
      Runs dir (whole h { i with definitionPath := out, artifact := true, compile := none }) d' r
        (before ++ after) d') := by
  obtain ⟨r, ls, hrun, hls⟩ | ⟨out', q, g, c, before, r, after, hout', hq, hi, hr, hrun⟩ :=
    whole_cases hh i d
  · exact ⟨_, ls, d, hrun, fun hmem => absurd hmem (hls out hout)⟩
  · cases hout.symm.trans hout'
    have hj := hi.replay hh hq hapart (hsized _ (hi.described htext))
    have hrun' := hj.whole_runs hh (Runs.pure ()) fun t => hr t _
    refine ⟨r, _, _, hrun, fun _ => ⟨before ++ [loaded g.definition], after, by simp, ?_⟩⟩
    simpa using hrun'

end Session

theorem Transcript.text_mem_timeless_iff {t : Transcript} {x : String} :
    .text x ∈ t.timeless ↔ .text x ∈ t.lines := by
  rw [timeless, List.mem_map]
  constructor
  · rintro ⟨l, hl, hx⟩
    cases l with
    | text y => exact hx ▸ hl
    | elapsed w n => cases hx
  · exact fun hx => ⟨_, hx, rfl⟩

namespace Invocation

/-- The message of what failed. -/
def failure? : Except String Unit → Option String
  | .ok _ => none
  | .error m => some m

theorem execute_of_runs {r : Except String Unit} {ls : List Line} {s s' : σ} {t : Transcript}
    (hrun : Session.Runs dir (Session.whole h i) d r ls d') (hs : dir s = d)
    (ht : (i.execute h).run s = (t, s')) :
    t.timeless = ls ∧ t.failure = failure? r ∧ dir s' = d' := by
  obtain ⟨more, s'', hr, hmore, hs''⟩ := hrun [] s hs
  rw [execute, StateT.run_bind, hr] at ht
  cases r with
  | ok _ =>
    cases ht
    exact ⟨hmore, rfl, hs''⟩
  | error m =>
    cases ht
    exact ⟨hmore, rfl, hs''⟩

/-- Compiling a text and then asking for the artifact, with the same arguments in between. Refused
arguments execute nothing. Of what is executed, a call that reports no artifact changes no file, and
no call changes any but the one it was to write. Where a call with a text has reported the artifact
as written, the call with the artifact in the directory that it left, on a clock that may show
anything, ends with the same exit code and the same error, changes no file, and says the same but
for that report and for times. The lengths in an artifact are below `2 ^ 64`, and so are those of
the process. -/
theorem compiled_call_agrees (hh : h.On dir) :
    (∀ i s t s', (execute h i).run s = (t, s') →
      ((∀ out ∈ i.compile, Session.written out ∉ t.lines) → dir s' = dir s) ∧
      ∀ q, (∀ out ∈ i.compile, Path.resolve? out ≠ some q) →
        (dir s').find? q = (dir s).find? q) ∧
    ∀ path out options i, Arguments.isPlain path →
      ofArguments (path :: options ++ ["--compile", out]) = .ok i → i.artifact = false →
      (∀ c ∈ i.contextPath, Path.Apart out c) →
      ∃ j, ofArguments (out :: options ++ ["--artifact"]) = .ok j ∧
        ∀ s t s', (execute h i).run s = (t, s') → Session.written out ∈ t.lines →
          (∀ p, (dir s).Describes path p → p.Sized) →
          ∀ r u r', dir r = dir s' → (execute h j).run r = (u, r') →
            u.exitCode = t.exitCode ∧ u.standardError = t.standardError ∧
            (∃ before after, t.timeless = before ++ Session.written out :: after ∧
              u.timeless = before ++ after) ∧
            dir r' = dir r := by
  constructor
  · intro i s t s' ht
    obtain ⟨r, ls, d', hrun, hframe⟩ := Session.whole_frame hh i (dir s)
    obtain ⟨rfl, -, rfl⟩ := execute_of_runs hrun rfl ht
    obtain hsame | ⟨out, q, bs, hout, hq, hs', hmem⟩ := hframe
    · rw [hsame]
      exact ⟨fun _ => rfl, fun _ _ => rfl⟩
    · constructor
      · intro hunreported
        exact absurd (Transcript.text_mem_timeless_iff.1 hmem) (hunreported out hout)
      · intro q' hq'
        have hne : ¬ q = q' := fun he => hq' out hout (he ▸ hq)
        rw [hs', Keyed.find?_insert, if_neg hne]
  · intro path out options i hpath hi htext hapart
    obtain ⟨rfl, hout, hj⟩ := ofArguments_artifact_of_compile hpath hi htext
    refine ⟨_, hj, fun s t s' ht hwritten hsized r u r' hr hu => ?_⟩
    obtain ⟨e, ls, d', hrun, hreplay⟩ := Session.whole_replay hh (dir s) htext hout hapart hsized
    obtain ⟨rfl, hfailure, rfl⟩ := execute_of_runs hrun rfl ht
    obtain ⟨before, after, hlines, hrun'⟩ :=
      hreplay (Transcript.text_mem_timeless_iff.2 hwritten)
    obtain ⟨hlines', hfailure', hr'⟩ := execute_of_runs hrun' hr hu
    have hsame := hfailure'.trans hfailure.symm
    refine ⟨?_, ?_, ⟨before, after, hlines, hlines'⟩, hr'.trans hr.symm⟩
    · rw [Transcript.exitCode, hsame, Transcript.exitCode]
    · rw [Transcript.standardError, hsame, Transcript.standardError]

/-- A process of one gateway, all records written as arrays. -/
def consentText : String :=
  "[\"signup\", \"\", [[\"gateway\", \"consent\", \"\", \"\",
    [false, null, null, [\"agreed\", \"equal\", true]]]]]"

def consentTree : Json.Tree :=
  .array [.text "signup", .text "", .array [.array [.text "gateway", .text "consent", .text "",
    .text "", .array [.bool false, .null, .null,
      .array [.text "agreed", .text "equal", .bool true]]]]]

/-- A directory with the text of a process and that of a context. -/
def signup : Directory :=
  (Keyed.empty.insert "facts.json" (Codec.utf8 "\x7b\"agreed\": true\x7d")).insert "signup.json"
    (Codec.utf8 consentText)

/-- The process of that text. -/
def consent : Definition where
  name := "signup"
  label := ""
  elements := [⟨"consent", "", .gateway
    ⟨"", .single ⟨"agreed", .equal, .boolean true⟩, none, none⟩⟩]

theorem ofText_consentText : Definition.ofText consentText = .ok consent := by
  have htree : Json.Tree.parse? consentText = some consentTree := by cbv
  rw [Definition.ofText, htree]
  rfl

theorem signup_describes {p : Definition} (h : signup.Describes "signup.json" p) : p = consent := by
  obtain ⟨bs, s, hbs, hs, hp⟩ := h
  have hread : signup.read "signup.json" = .ok (Codec.utf8 consentText) :=
    Directory.read_insert (by decide) _ _
  rw [hread] at hbs
  cases hbs
  rw [Codec.ofUtf8?_utf8] at hs
  cases hs
  rw [ofText_consentText] at hp
  exact (Except.ok.inj hp).symm

/-- The call that compiles the text and resolves its gateway. -/
def signupCall : Invocation where
  definitionPath := "signup.json"
  contextPath := some "facts.json"
  element := some "consent"
  run := false
  artifact := false
  compile := some "signup.bin"
  settings := {}

theorem compiled_call_agrees_of_signup :
    ofArguments ["signup.json", "facts.json", "-e", "consent", "--compile", "signup.bin"] =
      .ok signupCall ∧
    ∃ j t d u d', ofArguments ["signup.bin", "facts.json", "-e", "consent", "--artifact"] = .ok j ∧
      (signupCall.execute Directory.host).run signup = (t, d) ∧
      Session.written "signup.bin" ∈ t.lines ∧
      (j.execute Directory.host).run d = (u, d') ∧
      u.exitCode = t.exitCode ∧ u.standardError = t.standardError ∧ d' = d ∧
      d.find? "signup.json" = signup.find? "signup.json" := by
  obtain ⟨hframe, hreplay⟩ := compiled_call_agrees Directory.host_on
  have hapart : ∀ c ∈ signupCall.contextPath, Path.Apart "signup.bin" c := by
    rintro c ⟨⟩
    exact Path.apart_of_ne (by decide) (by decide) (by decide)
  obtain ⟨j, hj, hagree⟩ := hreplay "signup.json" "signup.bin" ["facts.json", "-e", "consent"]
    signupCall rfl rfl rfl hapart
  have hwritten : Session.written "signup.bin" ∈
      ((signupCall.execute Directory.host).run signup).1.lines := by decide +kernel
  obtain ⟨t, d, ht⟩ : ∃ t d, (signupCall.execute Directory.host).run signup = (t, d) :=
    ⟨_, _, (Prod.eta _).symm⟩
  obtain ⟨u, d', hu⟩ : ∃ u d', (j.execute Directory.host).run d = (u, d') :=
    ⟨_, _, (Prod.eta _).symm⟩
  rw [ht] at hwritten
  have hsized (p) (hp : signup.Describes "signup.json" p) : p.Sized :=
    signup_describes hp ▸ by decide
  obtain ⟨hcode, herror, -, hsame⟩ := hagree signup t d ht hwritten hsized d u d' rfl hu
  obtain ⟨-, hother⟩ := hframe signupCall signup t d ht
  refine ⟨rfl, j, t, d, u, d', hj, ht, hwritten, hu, hcode, herror, hsame, hother _ ?_⟩
  rintro out ⟨⟩
  decide

end Invocation

end Workflow
