import Mathlib.Data.List.Nodup
import Mathlib.Tactic.SplitIfs
import Workflow.Proofs.Codec

/-! What a decoder takes from the front of its input is a form of what it reads. A form is read
alike whatever follows, no part of it that ends early is read at all, and the encoding is one of the
shortest. -/

namespace Workflow.Codec

variable {α β γ : Type}

/-- Bytes that are read as `a` whatever follows. No form is shorter than what is written for `a`. -/
structure Form (c : Codec α) (p : Bytes) (a : α) : Prop where
  fits : c.fits a
  decode : ∀ rest, c.decode (p ++ rest) = some (a, rest)
  length_le : (c.encode a).length ≤ p.length

/-- Whatever is read stands in front of the rest in some form. -/
def Delimited (c : Codec α) : Prop :=
  ∀ bs a rest, c.decode bs = some (a, rest) → ∃ p, bs = p ++ rest ∧ c.Form p a

theorem Lossless.form {c : Codec α} (h : c.Lossless) {a : α} (ha : c.fits a) :
    c.Form (c.encode a) a := ⟨ha, h a ha, Nat.le_refl _⟩

/-- A form that ends early is not read, not even as something else. -/
theorem Form.decode_eq_none {c : Codec α} (h : c.Delimited) {p q s : Bytes} {a : α}
    (hp : c.Form p a) (hq : p = q ++ s) (hs : s ≠ []) : c.decode q = none := by
  rw [Option.eq_none_iff_forall_ne_some]
  rintro ⟨b, r⟩ hread
  obtain ⟨front, rfl, hfront⟩ := h _ _ _ hread
  have hlong := hp.decode []
  rw [List.append_nil, hq, List.append_assoc, hfront.decode] at hlong
  -- what was left over would have to be empty, and `s` is part of it
  have hrest : r ++ s = [] := congrArg Prod.snd (Option.some.inj hlong)
  exact hs (List.append_eq_nil_iff.1 hrest).2

theorem length_littleEndian (k n : Nat) : (littleEndian k n).length = k := by
  induction k generalizing n with
  | zero => rfl
  | succ k ih => rw [littleEndian, List.length_cons, ih]

theorem exists_of_readLittleEndian {k n : Nat} {bs rest : Bytes}
    (h : readLittleEndian k bs = some (n, rest)) : ∃ p, bs = p ++ rest ∧ p.length = k ∧
      n < 256 ^ k ∧ ∀ t, readLittleEndian k (p ++ t) = some (n, t) := by
  induction k generalizing bs n with
  | zero =>
    cases h
    exact ⟨[], rfl, rfl, by simp, fun t => rfl⟩
  | succ k ih =>
    cases bs with
    | nil => cases h
    | cons b bs =>
      obtain ⟨⟨m, r⟩, hm, heq⟩ := Option.map_eq_some_iff.1 h
      cases heq
      obtain ⟨p, rfl, rfl, hlt, hread⟩ := ih hm
      have hb : b.toNat < 256 := b.toNat_lt
      refine ⟨b :: p, rfl, rfl, ?_, fun t => ?_⟩
      · rw [Nat.pow_succ]
        omega
      · rw [List.cons_append, readLittleEndian, hread, Option.map_some]

theorem length_encodeNat_le {n k : Nat} (hk : k = 2 ∨ k = 4 ∨ k = 8) (hn : n < 256 ^ k) :
    (encodeNat n).length ≤ k + 1 := by
  unfold encodeNat
  rcases hk with rfl | rfl | rfl <;> split_ifs <;>
    simp only [List.length_cons, List.length_nil, length_littleEndian] <;> omega

theorem exists_of_decodeNat {widest n : Nat} {bs rest : Bytes}
    (h : decodeNat widest bs = some (n, rest)) : ∃ p, bs = p ++ rest ∧
      (n < 0x100000000 ∨ n < wordLimit ∧ 8 ≤ widest) ∧
      (∀ t, decodeNat widest (p ++ t) = some (n, t)) ∧ (encodeNat n).length ≤ p.length := by
  cases bs with
  | nil => cases h
  | cons b bs =>
    rw [decodeNat] at h
    split at h
    · rename_i hb
      cases h
      have hlt : b.toNat < 251 := UInt8.lt_iff_toNat_lt.1 hb
      refine ⟨[b], rfl, Or.inl (by omega), fun t => ?_, ?_⟩
      · rw [List.singleton_append, decodeNat, if_pos hb]
      · rw [encodeNat, if_pos hlt]
        exact Nat.le_refl 1
    · rename_i hb
      obtain ⟨k, hk, hread⟩ := Option.bind_eq_some_iff.1 h
      obtain ⟨p, rfl, hlen, hn, hread⟩ := exists_of_readLittleEndian hread
      have hwidth : k = 2 ∨ k = 4 ∨ k = 8 ∧ 8 ≤ widest := by
        unfold width? at hk
        split at hk
        · exact Or.inl (Option.some.inj hk).symm
        · split at hk
          · exact Or.inr (Or.inl (Option.some.inj hk).symm)
          · split at hk
            · rename_i hw
              exact Or.inr (Or.inr ⟨(Option.some.inj hk).symm, hw.2⟩)
            · cases hk
      refine ⟨b :: p, rfl, ?_, fun t => ?_, ?_⟩
      · rcases hwidth with rfl | rfl | ⟨rfl, hw⟩
        · exact Or.inl (by omega)
        · exact Or.inl hn
        · exact Or.inr ⟨hn, hw⟩
      · rw [List.cons_append, decodeNat, if_neg hb, hk, Option.bind_some, hread]
      · rw [List.length_cons, hlen]
        exact length_encodeNat_le (by omega) hn

theorem natural_delimited : natural.Delimited := by
  intro bs n rest h
  obtain ⟨p, hp, hn, hread, hlen⟩ := exists_of_decodeNat h
  refine ⟨p, hp, ?_, hread, hlen⟩
  show n < wordLimit
  unfold wordLimit at hn ⊢
  omega

theorem shortNatural_delimited : shortNatural.Delimited := by
  intro bs n rest h
  obtain ⟨p, hp, hn, hread, hlen⟩ := exists_of_decodeNat h
  exact ⟨p, hp, hn.resolve_right (by omega), hread, hlen⟩

theorem flag_delimited : flag.Delimited := by
  intro bs b rest h
  simp only [flag] at h
  split at h
  · cases h
    exact ⟨[0], rfl, trivial, fun t => rfl, Nat.le_refl 1⟩
  · cases h
    exact ⟨[1], rfl, trivial, fun t => rfl, Nat.le_refl 1⟩
  · cases h

theorem number_delimited : number.Delimited := by
  intro bs x rest h
  obtain ⟨⟨n, r⟩, hn, heq⟩ := Option.map_eq_some_iff.1 h
  cases heq
  obtain ⟨p, rfl, hlen, -, hread⟩ := exists_of_readLittleEndian hn
  refine ⟨p, rfl, trivial, fun t => ?_, ?_⟩
  · simp only [number, hread, Option.map_some]
  · rw [hlen]
    exact Nat.le_of_eq (length_littleEndian 8 _)

theorem exists_of_readExactly {n : Nat} {bs front rest : Bytes}
    (h : readExactly n bs = some (front, rest)) : bs = front ++ rest ∧ front.length = n := by
  induction n generalizing bs front with
  | zero =>
    cases h
    exact ⟨rfl, rfl⟩
  | succ n ih =>
    cases bs with
    | nil => cases h
    | cons b bs =>
      obtain ⟨⟨f, r⟩, hf, heq⟩ := Option.map_eq_some_iff.1 h
      cases heq
      obtain ⟨rfl, rfl⟩ := ih hf
      exact ⟨rfl, rfl⟩

theorem utf8_of_ofUtf8? {bs : Bytes} {s : String} (h : ofUtf8? bs = some s) : utf8 s = bs := by
  unfold ofUtf8? String.fromUTF8? at h
  split at h
  · cases h
    rfl
  · cases h

theorem text_delimited : text.Delimited := by
  intro bs s rest h
  simp only [text, Option.bind_eq_bind, Option.bind_eq_some_iff, Prod.exists] at h
  obtain ⟨n, bs', hn, front, r, hfront, s', hs, heq⟩ := h
  cases heq
  obtain ⟨p, rfl, hp⟩ := natural_delimited _ _ _ hn
  obtain ⟨rfl, rfl⟩ := exists_of_readExactly hfront
  obtain rfl := utf8_of_ofUtf8? hs
  refine ⟨p ++ utf8 s, (List.append_assoc _ _ _).symm, hp.fits, fun t => ?_, ?_⟩
  · simp [text, hp.decode, readExactly_append, hs]
  · simp only [text, List.length_append]
    have := hp.length_le
    omega

theorem exists_of_decodeAll {c : Codec α} (hc : c.Delimited) {n : Nat} {bs rest : Bytes}
    {l : List α} (h : decodeAll c n bs = some (l, rest)) : ∃ p, bs = p ++ rest ∧ l.length = n ∧
      (∀ a ∈ l, c.fits a) ∧ (∀ t, decodeAll c n (p ++ t) = some (l, t)) ∧
      (encodeAll c l).length ≤ p.length := by
  induction n generalizing bs l with
  | zero =>
    cases h
    exact ⟨[], rfl, rfl, by simp, fun t => rfl, Nat.le_refl 0⟩
  | succ n ih =>
    simp only [decodeAll, Option.bind_eq_bind, Option.bind_eq_some_iff, Prod.exists] at h
    obtain ⟨a, bs', ha, r, bs'', hr, heq⟩ := h
    cases heq
    obtain ⟨p, rfl, hp⟩ := hc _ _ _ ha
    obtain ⟨q, rfl, rfl, hfits, hread, hlen⟩ := ih hr
    refine ⟨p ++ q, (List.append_assoc _ _ _).symm, rfl, List.forall_mem_cons.2 ⟨hp.fits, hfits⟩,
      fun t => ?_, ?_⟩
    · simp [decodeAll, hp.decode, hread]
    · have := hp.length_le
      simp only [encodeAll, List.length_append]
      omega

theorem Delimited.list {c : Codec α} (hc : c.Delimited) : (list c).Delimited := by
  intro bs l rest h
  simp only [Codec.list, Option.bind_eq_bind, Option.bind_eq_some_iff, Prod.exists] at h
  obtain ⟨n, bs', hn, hl⟩ := h
  obtain ⟨p, rfl, hp⟩ := natural_delimited _ _ _ hn
  obtain ⟨q, rfl, rfl, hfits, hread, hlen⟩ := exists_of_decodeAll hc hl
  refine ⟨p ++ q, (List.append_assoc _ _ _).symm, ⟨hp.fits, hfits⟩, fun t => ?_, ?_⟩
  · simp [Codec.list, hp.decode, hread]
  · have := hp.length_le
    simp only [Codec.list, List.length_append]
    omega

theorem Form.both {c : Codec α} {d : Codec β} {p q : Bytes} {a : α} {b : β} (hp : c.Form p a)
    (hq : d.Form q b) : (c.both d).Form (p ++ q) (a, b) := by
  refine ⟨⟨hp.fits, hq.fits⟩, fun t => ?_, ?_⟩
  · simp [Codec.both, hp.decode, hq.decode]
  · have := hp.length_le
    have := hq.length_le
    simp only [Codec.both, List.length_append]
    omega

theorem Delimited.both {c : Codec α} {d : Codec β} (hc : c.Delimited) (hd : d.Delimited) :
    (c.both d).Delimited := by
  intro bs x rest h
  simp only [Codec.both, Option.bind_eq_bind, Option.bind_eq_some_iff, Prod.exists] at h
  obtain ⟨a, bs', ha, b, bs'', hb, heq⟩ := h
  cases heq
  obtain ⟨p, rfl, hp⟩ := hc _ _ _ ha
  obtain ⟨q, rfl, hq⟩ := hd _ _ _ hb
  exact ⟨p ++ q, (List.append_assoc _ _ _).symm, hp.both hq⟩

theorem Delimited.via {c : Codec α} (hc : c.Delimited) {view : α → β} {back : β → α}
    (h : ∀ a, back (view a) = a) : (c.via view back).Delimited := by
  intro bs b rest hread
  obtain ⟨⟨a, r⟩, ha, heq⟩ := Option.map_eq_some_iff.1 hread
  cases heq
  obtain ⟨p, rfl, hp⟩ := hc _ _ _ ha
  refine ⟨p, rfl, ?_, fun t => ?_, ?_⟩
  · simpa [Codec.via, h] using hp.fits
  · simp [Codec.via, hp.decode]
  · simpa [Codec.via, h] using hp.length_le

theorem oneOf_delimited [DecidableEq α] {all : List α} (hall : all.Nodup) :
    (oneOf all).Delimited := by
  intro bs a rest h
  simp only [oneOf, Option.bind_eq_bind, Option.bind_eq_some_iff, Prod.exists] at h
  obtain ⟨i, bs', hi, a', ha, heq⟩ := h
  cases heq
  obtain ⟨p, rfl, hp⟩ := shortNatural_delimited _ _ _ hi
  have hidx : all.idxOf a = i := by
    obtain ⟨hlt, rfl⟩ := List.getElem?_eq_some_iff.1 ha
    exact hall.idxOf_getElem i hlt
  refine ⟨p, rfl, ⟨List.mem_of_getElem? ha, ?_⟩, fun t => ?_, ?_⟩
  · rw [hidx]
    exact hp.fits
  · simp [oneOf, hp.decode, ha]
  · simpa [oneOf, hidx] using hp.length_le

/-- A value that is written as a tag and a content has for a form that of its tag and that of its
content. -/
theorem exists_form_of_tagged {tag : Codec α} {c : Codec β} {d : Codec γ} {i : α} {f : β → γ}
    {p bs rest : Bytes} {x : γ} (hp : tag.Form p i) (hc : c.Delimited)
    (h : (c.decode bs).map (fun r => (f r.1, r.2)) = some (x, rest))
    (hfits : ∀ b, c.fits b → d.fits (f b))
    (hencode : ∀ b, d.encode (f b) = tag.encode i ++ c.encode b)
    (hdecode : ∀ r t, tag.decode r = some (i, t) →
      d.decode r = (c.decode t).map fun r => (f r.1, r.2)) :
    ∃ q, p ++ bs = q ++ rest ∧ d.Form q x := by
  obtain ⟨⟨b, r⟩, hb, heq⟩ := Option.map_eq_some_iff.1 h
  cases heq
  obtain ⟨q, rfl, hq⟩ := hc _ _ _ hb
  refine ⟨p ++ q, (List.append_assoc _ _ _).symm, hfits b hq.fits, fun t => ?_, ?_⟩
  · rw [List.append_assoc, hdecode _ _ (hp.decode _), hq.decode]
    rfl
  · have := hp.length_le
    have := hq.length_le
    simp only [hencode, List.length_append]
    omega

theorem Delimited.option {c : Codec α} (hc : c.Delimited) : (option c).Delimited := by
  intro bs o rest h
  simp only [Codec.option, Option.bind_eq_bind, Option.bind_eq_some_iff, Prod.exists] at h
  obtain ⟨given, bs', hgiven, h⟩ := h
  obtain ⟨p, rfl, hp⟩ := flag_delimited _ _ _ hgiven
  cases given with
  | false =>
    cases h
    refine ⟨p, rfl, by simp [Codec.option], fun t => ?_, hp.length_le⟩
    simp [Codec.option, hp.decode]
  | true =>
    have hmap : (c.decode bs').map (fun r => (some r.1, r.2)) = some (o, rest) := by
      rw [← h, Option.map_eq_bind]
      rfl
    refine exists_form_of_tagged hp hc hmap (fun a ha => ?_) (fun a => rfl) fun r t hr => ?_
    · simpa [Codec.option] using ha
    · simp only [Codec.option, hr, Option.map_eq_bind]
      rfl

theorem Delimited.either {c : Codec α} {d : Codec β} (hc : c.Delimited) (hd : d.Delimited) :
    (c.either d).Delimited := by
  intro bs x rest h
  simp only [Codec.either, Option.bind_eq_bind, Option.bind_eq_some_iff, Prod.exists] at h
  obtain ⟨i, bs', hi, h⟩ := h
  obtain ⟨p, rfl, hp⟩ := shortNatural_delimited _ _ _ hi
  split at h
  · exact exists_form_of_tagged hp hc h (fun a ha => ha) (fun a => rfl) fun r t hr => by
      simp [Codec.either, hr]
  · exact exists_form_of_tagged hp hd h (fun b hb => hb) (fun b => rfl) fun r t hr => by
      simp [Codec.either, hr]
  · cases h

end Workflow.Codec
