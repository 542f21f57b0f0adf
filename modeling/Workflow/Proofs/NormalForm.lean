import Workflow.Proofs.Artifact
import Workflow.Proofs.Form

/-! Every artifact that is accepted has a normal form. What is read depends on a part at its front
that cannot be cut short, and writing it again gives bytes that are no longer than that part, read
back the same and cannot be cut short either. -/

namespace Workflow

open Codec

theorem Value.codec_delimited : Value.codec.Delimited := by
  intro bs v rest h
  simp only [Value.codec, Option.bind_eq_bind, Option.bind_eq_some_iff, Prod.exists] at h
  obtain ⟨i, bs', hi, h⟩ := h
  obtain ⟨p, rfl, hp⟩ := shortNatural_delimited _ _ _ hi
  split at h
  · exact exists_form_of_tagged hp number_delimited h (fun x hx => hx) (fun x => rfl)
      fun r t hr => by simp [Value.codec, hr]
  · exact exists_form_of_tagged hp flag_delimited h (fun b hb => hb) (fun b => rfl)
      fun r t hr => by simp [Value.codec, hr]
  · exact exists_form_of_tagged hp text_delimited h (fun s hs => hs) (fun s => rfl)
      fun r t hr => by simp [Value.codec, hr]
  · cases h

theorem Condition.codec_delimited : Condition.codec.Delimited :=
  (text_delimited.both ((oneOf_delimited (by decide)).both Value.codec_delimited)).via fun _ => rfl

theorem Connective.codec_delimited : Connective.codec.Delimited := oneOf_delimited (by decide)

theorem Group.codec_delimited : Group.codec.Delimited :=
  (Connective.codec_delimited.both Condition.codec_delimited.list).via fun _ => rfl

theorem Rule.codec_delimited : Rule.codec.Delimited :=
  (Condition.codec_delimited.either
    (Connective.codec_delimited.both Group.codec_delimited.list)).via
    fun r => by cases r <;> rfl

theorem Payload.codec_delimited : Payload.codec.Delimited := text_delimited.via fun _ => rfl

theorem QueryParameter.codec_delimited : QueryParameter.codec.Delimited :=
  (text_delimited.both text_delimited).via fun _ => rfl

theorem Request.codec_delimited : Request.codec.Delimited :=
  (text_delimited.both (text_delimited.both (QueryParameter.codec_delimited.list.both
    text_delimited.list))).via fun _ => rfl

theorem Task.codec_delimited : Task.codec.Delimited :=
  (text_delimited.both (flag_delimited.both (flag_delimited.both (flag_delimited.both
    (text_delimited.option.both (Payload.codec_delimited.both (Payload.codec_delimited.both
      (Request.codec_delimited.option.both text_delimited.list)))))))).via fun _ => rfl

theorem Gateway.codec_delimited : Gateway.codec.Delimited :=
  (text_delimited.both (Rule.codec_delimited.both (text_delimited.option.both
    text_delimited.option))).via fun _ => rfl

theorem ElementKind.codec_delimited : ElementKind.codec.Delimited :=
  (Task.codec_delimited.either Gateway.codec_delimited).via fun k => by cases k <;> rfl

theorem Element.codec_delimited : Element.codec.Delimited :=
  (text_delimited.both (text_delimited.both ElementKind.codec_delimited)).via fun _ => rfl

theorem Definition.codec_delimited : Definition.codec.Delimited :=
  (text_delimited.both (text_delimited.both Element.codec_delimited.list)).via fun _ => rfl

namespace Artifact

theorem versioned_delimited : versioned.Delimited :=
  shortNatural_delimited.both Definition.codec_delimited

/-- What is accepted begins with a form of the one version and of the process that is read. -/
theorem exists_form_of_ofBytes {bs : Bytes} {a : Artifact} (h : ofBytes bs = .ok a) :
    ∃ p rest, bs = p ++ rest ∧ versioned.Form p (version, a.definition) ∧
      ∃ i, Index.build a.definition = .ok i := by
  unfold ofBytes at h
  split at h
  · cases h
  · rename_i v q rest hread
    obtain ⟨p, rfl, hp⟩ := versioned_delimited _ _ _ hread
    split at h
    · rename_i hv
      subst hv
      obtain ⟨rfl, hi⟩ := ofDefinition_eq_ok_iff.1 h
      exact ⟨p, rest, rfl, hp, hi⟩
    · cases h

theorem ofBytes_of_form {p : Bytes} {a : Artifact} (hp : versioned.Form p (version, a.definition))
    {i : Index} (hi : Index.build a.definition = .ok i) (rest : Bytes) :
    ofBytes (p ++ rest) = .ok a := by
  rw [ofBytes, hp.decode]
  exact (if_pos rfl).trans (ofDefinition_eq_ok_iff.2 ⟨rfl, i, hi⟩)

theorem ofBytes_of_cut_form {p q : Bytes} {x : Nat × Definition} (hp : versioned.Form p x)
    (hq : q <+: p) (hne : q ≠ p) : ofBytes q = .error .malformed := by
  obtain ⟨s, rfl⟩ := hq
  have hs : s ≠ [] := by
    rintro rfl
    exact hne (List.append_nil q).symm
  rw [ofBytes, hp.decode_eq_none versioned_delimited rfl hs]

/-- Bytes that are accepted begin with one part that is read alike whatever follows and is refused
when cut short. Writing what was read gives its normal form: no longer than that part, read back as
the same process, which is written as the same bytes again, and refused as malformed when cut short.
-/
theorem ofBytes_normal_form {bs : Bytes} {a : Artifact} (h : ofBytes bs = .ok a) :
    (∃ i, Index.build a.definition = .ok i) ∧
    (∃ p, p <+: bs ∧ (∀ rest, ofBytes (p ++ rest) = .ok a) ∧
      (∀ q, q <+: p → q ≠ p → ofBytes q = .error .malformed) ∧
      a.toBytes.length ≤ p.length ∧
      ∀ p', p' <+: bs → (∀ rest, ofBytes (p' ++ rest) = .ok a) →
        (∀ q, q <+: p' → q ≠ p' → ∃ e, ofBytes q = .error e) → p' = p) ∧
    ofBytes a.toBytes = .ok a ∧
    (∀ a', ofBytes a.toBytes = .ok a' → a'.toBytes = a.toBytes) ∧
    ∀ q, q <+: a.toBytes → q ≠ a.toBytes → ofBytes q = .error .malformed := by
  obtain ⟨p, rest, rfl, hp, i, hi⟩ := exists_form_of_ofBytes h
  have hself : versioned.Form a.toBytes (version, a.definition) := versioned_lossless.form hp.fits
  have hexact {q : Bytes} (hq : ∀ rest, ofBytes (q ++ rest) = .ok a) : ofBytes q = .ok a := by
    rw [← hq [], List.append_nil]
  have hread := hexact (ofBytes_of_form hself hi)
  refine ⟨⟨i, hi⟩, ⟨p, List.prefix_append p rest, ofBytes_of_form hp hi,
    fun q => ofBytes_of_cut_form hp, hp.length_le, fun p' hp' hall hcut => ?_⟩, hread,
    fun a' ha' => ?_, fun q => ofBytes_of_cut_form hself⟩
  · by_contra hne
    rcases List.prefix_or_prefix_of_prefix hp' (List.prefix_append p rest) with hshort | hlong
    · have hbad := ofBytes_of_cut_form hp hshort hne
      rw [hexact hall] at hbad
      cases hbad
    · obtain ⟨e, hbad⟩ := hcut p hlong (Ne.symm hne)
      rw [hexact (ofBytes_of_form hp hi)] at hbad
      cases hbad
  · rw [hread] at ha'
    cases ha'
    rfl

/-- A process of one task. -/
def lone : Definition :=
  ⟨"p", "", [⟨"a", "", .task ⟨"", true, true, false, none, ⟨""⟩, ⟨""⟩, none, []⟩⟩]⟩

def loneBytes : Bytes := [1, 1, 112, 0, 1, 1, 97, 0, 0, 0, 1, 1, 0, 0, 0, 0, 0, 0]

/-- The version, and in the task the length of its name and its kind, take more bytes than they need,
and a byte follows. -/
def longBytes : Bytes :=
  [251, 1, 0, 1, 112, 0, 1, 252, 1, 0, 0, 0, 97, 0, 251, 0, 0, 0, 1, 1, 0, 0, 0, 0, 0, 0, 9]

theorem ofBytes_normal_form_of_long_numbers :
    ofBytes longBytes = .ok ⟨lone⟩ ∧
    (∃ p, p <+: longBytes ∧ (∀ rest, ofBytes (p ++ rest) = .ok ⟨lone⟩) ∧
      loneBytes.length ≤ p.length) ∧
    ofBytes loneBytes = .ok ⟨lone⟩ ∧ ofBytes loneBytes.dropLast = .error .malformed := by
  have hread : ofBytes longBytes = .ok ⟨lone⟩ := rfl
  obtain ⟨-, ⟨p, hp, hall, -, hlen, -⟩, hagain, -, hcut⟩ := ofBytes_normal_form hread
  have hbytes : toBytes ⟨lone⟩ = loneBytes := by decide
  rw [hbytes] at hlen hagain hcut
  exact ⟨hread, ⟨p, hp, hall, hlen⟩, hagain, hcut _ (List.dropLast_prefix _) (by decide)⟩

end Artifact

end Workflow
