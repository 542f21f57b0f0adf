import Mathlib.Algebra.Group.Nat.Defs
import Workflow.Artifact.Codec

/-! What a codec writes, it reads back, whatever follows. So two encodings agree, or one begins the
other, only if they encode the same. -/

namespace Workflow.Codec

variable {α β : Type}

/-- What fits is read back as it was written, and what follows it is left over. -/
def Lossless (c : Codec α) : Prop :=
  ∀ a, c.fits a → ∀ rest, c.decode (c.encode a ++ rest) = some (a, rest)

theorem Lossless.eq_of_append {c : Codec α} (h : c.Lossless) {a b : α} (ha : c.fits a)
    (hb : c.fits b) {rest : Bytes} (he : c.encode b = c.encode a ++ rest) : a = b ∧ rest = [] := by
  have hread := h b hb []
  rw [List.append_nil, he, h a ha rest] at hread
  cases hread
  exact ⟨rfl, rfl⟩

theorem readLittleEndian_littleEndian (k : Nat) {n : Nat} (h : n < 256 ^ k) (rest : Bytes) :
    readLittleEndian k (littleEndian k n ++ rest) = some (n, rest) := by
  induction k generalizing n with
  | zero =>
    have : n = 0 := by simpa using h
    subst this
    rfl
  | succ k ih =>
    have hhigh : n / 256 < 256 ^ k := by
      rw [Nat.div_lt_iff_lt_mul (by decide), ← Nat.pow_succ]
      exact h
    have hlow : (UInt8.ofNat (n % 256)).toNat = n % 256 := by
      rw [UInt8.toNat_ofNat']
      omega
    simp only [littleEndian, List.cons_append, readLittleEndian, ih hhigh, Option.map_some, hlow,
      Nat.mod_add_div]

theorem decodeNat_encodeNat {widest n : Nat}
    (h : n < 0x100000000 ∨ n < wordLimit ∧ 8 ≤ widest) (rest : Bytes) :
    decodeNat widest (encodeNat n ++ rest) = some (n, rest) := by
  unfold encodeNat
  split
  · rename_i hn
    have hb : (UInt8.ofNat n).toNat = n := by
      rw [UInt8.toNat_ofNat']
      omega
    have hlt : UInt8.ofNat n < 251 := by
      rw [UInt8.lt_iff_toNat_lt, hb]
      exact hn
    simp only [List.cons_append, List.nil_append, decodeNat, if_pos hlt, hb]
  · split
    · rename_i hn
      exact readLittleEndian_littleEndian 2 (by omega) rest
    · split
      · rename_i hn
        exact readLittleEndian_littleEndian 4 (by omega) rest
      · rename_i hn
        obtain ⟨hw, hwide⟩ : n < wordLimit ∧ 8 ≤ widest := by omega
        have hwidth : width? widest 253 = some 8 := by simp [width?, hwide]
        have hread := readLittleEndian_littleEndian 8 hw rest
        simp only [List.cons_append, decodeNat, hwidth, Option.bind_some, hread]
        rfl

theorem natural_lossless : natural.Lossless :=
  fun _ h rest => decodeNat_encodeNat (Or.inr ⟨h, Nat.le_refl _⟩) rest

theorem shortNatural_lossless : shortNatural.Lossless :=
  fun _ h rest => decodeNat_encodeNat (Or.inl h) rest

theorem decode_tag {i : Nat} (h : i < 251) (rest : Bytes) :
    shortNatural.decode (shortNatural.encode i ++ rest) = some (i, rest) :=
  decodeNat_encodeNat (Or.inl (by omega)) rest

theorem flag_lossless : flag.Lossless := by
  intro b _ rest
  cases b <;> rfl

theorem number_lossless : number.Lossless := by
  intro x _ rest
  have hx : x.bits.toNat < 256 ^ 8 := x.bits.toNat_lt
  simp only [number, readLittleEndian_littleEndian 8 hx rest, Option.map_some, UInt64.ofNat_toNat]

theorem readExactly_append (front rest : Bytes) :
    readExactly front.length (front ++ rest) = some (front, rest) := by
  induction front with
  | nil => cases rest <;> rfl
  | cons b front ih => simp only [List.length_cons, List.cons_append, readExactly, ih, Option.map_some]

theorem ofUtf8?_utf8 (s : String) : ofUtf8? (utf8 s) = some s := by
  have hbytes : (⟨(utf8 s).toArray⟩ : ByteArray) = s.toByteArray := by
    rw [utf8, Array.toArray_toList]
  rw [ofUtf8?, hbytes, String.fromUTF8?, dif_pos s.isValidUTF8]
  rfl

theorem text_lossless : text.Lossless := by
  intro s h rest
  simp only [text, List.append_assoc, natural_lossless _ h]
  simp [readExactly_append, ofUtf8?_utf8]

theorem decodeAll_encodeAll {c : Codec α} (hc : c.Lossless) {l : List α} (h : ∀ a ∈ l, c.fits a)
    (rest : Bytes) : decodeAll c l.length (encodeAll c l ++ rest) = some (l, rest) := by
  induction l with
  | nil => rfl
  | cons a r ih =>
    have ha := hc a (h a List.mem_cons_self)
    have hr := ih fun b hb => h b (List.mem_cons_of_mem _ hb)
    simp [encodeAll, decodeAll, ha, hr]

theorem Lossless.list {c : Codec α} (hc : c.Lossless) : (list c).Lossless := by
  intro l h rest
  simp only [Codec.list, List.append_assoc, natural_lossless _ h.1]
  exact decodeAll_encodeAll hc h.2 rest

theorem Lossless.option {c : Codec α} (hc : c.Lossless) : (option c).Lossless := by
  intro o h rest
  cases o with
  | none => rfl
  | some a =>
    have ha := hc a (h a rfl) rest
    simp [Codec.option, flag_lossless _ trivial, ha]

theorem Lossless.both {c : Codec α} {d : Codec β} (hc : c.Lossless) (hd : d.Lossless) :
    (c.both d).Lossless := by
  intro x h rest
  simp [Codec.both, hc _ h.1, hd _ h.2]

theorem Lossless.via {c : Codec α} (hc : c.Lossless) {view : α → β} {back : β → α}
    (h : ∀ b, view (back b) = b) : (c.via view back).Lossless := by
  intro b hb rest
  simp [Codec.via, hc _ hb, h]

theorem oneOf_lossless [DecidableEq α] (all : List α) : (oneOf all).Lossless := by
  intro a h rest
  have ha : all[all.idxOf a]? = some a := by
    rw [List.getElem?_eq_getElem (List.idxOf_lt_length_of_mem h.1), List.getElem_idxOf]
  simp [oneOf, shortNatural_lossless _ h.2, ha]

theorem Lossless.either {c : Codec α} {d : Codec β} (hc : c.Lossless) (hd : d.Lossless) :
    (c.either d).Lossless := by
  intro x h rest
  cases x with
  | inl a =>
    have ha := hc a h rest
    simp [Codec.either, decode_tag, ha]
  | inr b =>
    have hb := hd b h rest
    simp [Codec.either, decode_tag, hb]

end Workflow.Codec
