import Workflow.Artifact.Basic
import Workflow.Proofs.Codec
import Workflow.Proofs.Equality
import Workflow.Proofs.Index
import Workflow.Proofs.Sizes

/-! Processes as bytes. Every process is read back as it was written, to the last bit of its numbers,
and is then refused just if it has no index. -/

namespace Workflow

open Codec

theorem Value.codec_lossless : Value.codec.Lossless := by
  intro v h rest
  cases v with
  | number x =>
    have hx := number_lossless x h rest
    simp [Value.codec, decode_tag, hx]
  | boolean b =>
    have hb := flag_lossless b h rest
    simp [Value.codec, decode_tag, hb]
  | text s =>
    have hs := text_lossless s h rest
    simp [Value.codec, decode_tag, hs]

theorem Condition.codec_lossless : Condition.codec.Lossless :=
  (text_lossless.both ((oneOf_lossless _).both Value.codec_lossless)).via fun _ => rfl

theorem Connective.codec_lossless : Connective.codec.Lossless := oneOf_lossless _

theorem Group.codec_lossless : Group.codec.Lossless :=
  (Connective.codec_lossless.both Condition.codec_lossless.list).via fun _ => rfl

theorem Rule.codec_lossless : Rule.codec.Lossless :=
  (Condition.codec_lossless.either (Connective.codec_lossless.both Group.codec_lossless.list)).via
    fun r => by cases r <;> rfl

theorem Payload.codec_lossless : Payload.codec.Lossless := text_lossless.via fun _ => rfl

theorem QueryParameter.codec_lossless : QueryParameter.codec.Lossless :=
  (text_lossless.both text_lossless).via fun _ => rfl

theorem Request.codec_lossless : Request.codec.Lossless :=
  (text_lossless.both (text_lossless.both (QueryParameter.codec_lossless.list.both
    text_lossless.list))).via fun _ => rfl

theorem Task.codec_lossless : Task.codec.Lossless :=
  (text_lossless.both (flag_lossless.both (flag_lossless.both (flag_lossless.both
    (text_lossless.option.both (Payload.codec_lossless.both (Payload.codec_lossless.both
      (Request.codec_lossless.option.both text_lossless.list)))))))).via fun _ => rfl

theorem Gateway.codec_lossless : Gateway.codec.Lossless :=
  (text_lossless.both (Rule.codec_lossless.both (text_lossless.option.both
    text_lossless.option))).via fun _ => rfl

theorem ElementKind.codec_lossless : ElementKind.codec.Lossless :=
  (Task.codec_lossless.either Gateway.codec_lossless).via fun k => by cases k <;> rfl

theorem Element.codec_lossless : Element.codec.Lossless :=
  (text_lossless.both (text_lossless.both ElementKind.codec_lossless)).via fun _ => rfl

theorem Definition.codec_lossless : Definition.codec.Lossless :=
  (text_lossless.both (text_lossless.both Element.codec_lossless.list)).via fun _ => rfl

namespace Artifact

theorem versioned_lossless : versioned.Lossless :=
  shortNatural_lossless.both Definition.codec_lossless

theorem ofDefinition_eq_ok_iff {p : Definition} {a : Artifact} :
    ofDefinition p = .ok a ↔ a = ⟨p⟩ ∧ ∃ i, Index.build p = .ok i := by
  unfold ofDefinition
  cases Index.build p <;> simp [eq_comm]

theorem ofDefinition_eq_error_iff {p : Definition} {e : ArtifactError} :
    ofDefinition p = .error e ↔ ∃ d, Index.build p = .error d ∧ e = .definition d := by
  unfold ofDefinition
  cases Index.build p <;> simp [eq_comm]

theorem ofBytes_encode {v : Nat} {p : Definition} (h : versioned.fits (v, p)) (rest : Bytes) :
    ofBytes (versioned.encode (v, p) ++ rest) =
      if v = version then ofDefinition p else .error (.unsupportedVersion v version) := by
  rw [ofBytes, versioned_lossless _ h]

theorem ofBytes_toBytes {p : Definition} {a : Artifact} (h : ofDefinition p = .ok a)
    (hp : p.Sized) : ofBytes a.toBytes = .ok a := by
  obtain ⟨rfl, -⟩ := ofDefinition_eq_ok_iff.1 h
  have hone : versioned.fits (version, p) := versioned_fits_iff.2 ⟨by decide, hp⟩
  have hread := ofBytes_encode hone []
  rwa [List.append_nil, if_pos rfl, h] at hread

/-- What was written is read back: refused for its version if that is another, else refused just as
its process has no index, else unchanged. No encoding begins another. A process that is read back
equals the one that was written just if it compares with nothing that is no number. -/
theorem ofBytes_versioned_encode {v : Nat} {p : Definition} (hv : v < 2 ^ 32) (hp : p.Sized) :
    (∀ rest,
      (v ≠ version → ofBytes (versioned.encode (v, p) ++ rest) =
        .error (.unsupportedVersion v version)) ∧
      (v = version →
        (∀ e, Index.build p = .error e →
          ofBytes (versioned.encode (v, p) ++ rest) = .error (.definition e)) ∧
        (∀ i, Index.build p = .ok i → ofBytes (versioned.encode (v, p) ++ rest) = .ok ⟨p⟩)) ∧
      (∀ a, ofBytes (versioned.encode (v, p) ++ rest) = .ok a →
        (a.definition.equal p = true ↔ ∀ c ∈ p.conditions, ¬ c.literal.IsNaN))) ∧
    (∀ w q rest, w < 2 ^ 32 → q.Sized →
      versioned.encode (w, q) = versioned.encode (v, p) ++ rest → w = v ∧ q = p ∧ rest = []) ∧
    (∀ a, ofDefinition p = .ok a → a.definition = p ∧ ofBytes a.toBytes = .ok a) ∧
    (∀ a, ofDefinition p = .ok a ↔ a = ⟨p⟩ ∧ ∃ i, Index.build p = .ok i) ∧
    (∀ e, ofDefinition p = .error e ↔ ∃ d, Index.build p = .error d ∧ e = .definition d) := by
  have hfits : versioned.fits (v, p) := versioned_fits_iff.2 ⟨hv, hp⟩
  refine ⟨fun rest => ?_, fun w q rest hw hq he => ?_, fun a ha => ?_,
    fun a => ofDefinition_eq_ok_iff, fun e => ofDefinition_eq_error_iff⟩
  · rw [ofBytes_encode hfits]
    refine ⟨fun hne => if_neg hne, fun heq => ?_, fun a ha => ?_⟩
    · rw [if_pos heq]
      exact ⟨fun e he => ofDefinition_eq_error_iff.2 ⟨e, he, rfl⟩,
        fun i hi => ofDefinition_eq_ok_iff.2 ⟨rfl, i, hi⟩⟩
    · split at ha
      · rw [(ofDefinition_eq_ok_iff.1 ha).1, Definition.equal_self_iff]
      · cases ha
  · have hwq : versioned.fits (w, q) := versioned_fits_iff.2 ⟨hw, hq⟩
    obtain ⟨heq, hrest⟩ := versioned_lossless.eq_of_append hfits hwq he
    cases heq
    exact ⟨rfl, rfl, hrest⟩
  · obtain ⟨rfl, -⟩ := ofDefinition_eq_ok_iff.1 ha
    have hone : versioned.fits (version, p) := versioned_fits_iff.2 ⟨by decide, hp⟩
    have hread := ofBytes_encode hone []
    rw [List.append_nil, if_pos rfl, ha] at hread
    exact ⟨rfl, hread⟩

/-- A process that compares a field with what is no number. -/
def unanswerable : Definition where
  name := "unanswerable"
  label := ""
  elements := [
    ⟨"ask", "Ask", .task
      ⟨"manual", true, false, false, some "check", ⟨"null"⟩, ⟨"null"⟩, none, ["score"]⟩⟩,
    ⟨"check", "Check", .gateway
      ⟨"or", .single ⟨"score", .lessThan, .number ⟨0x7FF8000000000000⟩⟩, some "ask", none⟩⟩]

theorem ofBytes_versioned_encode_of_unanswerable :
    (2 < 2 ^ 32 ∧ unanswerable.Sized) ∧
    ofBytes (versioned.encode (2, unanswerable) ++ [7]) = .error (.unsupportedVersion 2 1) ∧
    ofBytes (versioned.encode (1, unanswerable) ++ [7]) = .ok ⟨unanswerable⟩ ∧
    unanswerable.equal unanswerable = false := by
  have hsized : unanswerable.Sized := by decide
  obtain ⟨hread, -⟩ := ofBytes_versioned_encode (v := 1) (by decide) hsized
  obtain ⟨-, haccept, hequal⟩ := hread [7]
  have hok := (haccept rfl).2 _ rfl
  refine ⟨⟨by decide, hsized⟩, ?_, hok, ?_⟩
  · exact ((ofBytes_versioned_encode (v := 2) (by decide) hsized).1 [7]).1 (by decide)
  · rw [Bool.eq_false_iff, ne_eq, hequal _ hok]
    intro h
    exact h _ (by decide : (⟨"score", .lessThan, .number ⟨0x7FF8000000000000⟩⟩ : Condition) ∈
      unanswerable.conditions) ⟨_, rfl, by decide⟩

end Artifact

end Workflow
