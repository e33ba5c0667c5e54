import DerTemplate.Proofs.Content.Integer
import DerTemplate.Proofs.Encoding.Tree

namespace DerTemplate

namespace Encoding

open Stencil

theorem wholeBits_boolean (entry : Entry) : wholeBits entry Tag.boolean = none := by
  have h : isBits entry Tag.boolean = false := by simp [isBits, Tag.boolean, Tag.bitString]
  rw [wholeBits, h]
  rfl

theorem wholeBits_number {entry : Entry} {tag : Tag} (hnumber : isNumber entry tag = true) :
    wholeBits entry tag = none := by
  have htag : tag ≠ Tag.bitString := by
    rintro rfl
    simp [isNumber, Tag.isInteger, Tag.bitString, Tag.integer, Tag.enumerated] at hnumber
  simp [wholeBits, isBits, htag]

theorem length_numberOctets (entry : Entry) (tag : Tag) (n : Nat) :
    (numberOctets entry tag n).length = if tag = Tag.boolean then 1 else
      if isNumber entry tag then Content.unsignedSize n else octetCount n := by
  unfold numberOctets
  split
  · rfl
  · rw [Bytes.length_ofNat]

theorem smallLayout_eq_ok {entry : Entry} {tag : Tag} {n index : Nat} {l : Layout}
    (h : smallLayout entry tag n index = .ok l) :
    (∀ j, smallLayout entry tag n j = .ok l) ∧ l.lead = wholeBits entry tag ∧
      l.payload = (numberOctets entry tag n).length ∧
      smallPayload tag n l.payload = numberOctets entry tag n := by
  rw [length_numberOctets]
  unfold smallLayout at h ⊢
  unfold smallPayload numberOctets
  by_cases htag : tag = Tag.boolean
  · subst htag
    rw [if_pos rfl] at h
    split at h
    · cases h
    · rename_i hrange
      cases h
      refine ⟨fun j => ?_, (wholeBits_boolean entry).symm, rfl, rfl⟩
      rw [if_pos rfl, if_neg hrange]
  · rw [if_neg htag] at h
    cases h
    simp only [htag, if_false, implies_true, true_and]

theorem layout_eq_ok {entry : Entry} {tag : Tag} {value : Value} {index : Nat} {l : Layout}
    (h : layout entry tag value index = .ok l) :
    (∀ j, layout entry tag value j = .ok l) ∧ l.lead = value.lead entry tag ∧
      l.payload = (value.body entry tag).length := by
  cases value with
  | uint8 n | uint16 n | uint32 n =>
    obtain ⟨hindex, hlead, hpayload, _⟩ := smallLayout_eq_ok h
    exact ⟨hindex, hlead, by simpa [Value.body] using hpayload⟩
  | none | replace _ =>
    cases h
    exact ⟨fun _ => rfl, rfl, by simp [Value.body]⟩
  | placeholder _ =>
    cases h
    exact ⟨fun _ => rfl, rfl, by simp [Value.body]⟩
  | integer n =>
    cases h
    exact ⟨fun _ => rfl, rfl, by simp [Value.body, Bytes.length_ofInt]⟩
  | bytes data =>
    simp only [layout] at h
    split at h
    · rename_i hpad
      cases h
      exact ⟨fun _ => if_pos hpad, (if_pos hpad).symm, by simp [Value.body]⟩
    · rename_i hpad
      cases h
      exact ⟨fun _ => if_neg hpad, (if_neg hpad).symm, by simp [Value.body]⟩
  | bits data unused =>
    simp only [layout, refuse] at h
    split at h
    · cases h
    · rename_i hrange
      cases h
      exact ⟨fun _ => if_neg hrange, rfl, by simp [Value.body, Content.length_cleared]⟩
  | oid category sum =>
    simp only [layout, refuse] at h ⊢
    cases hknown : category.bySum? sum with
    | none => simp [hknown] at h
    | some known =>
      simp only [hknown] at h
      cases h
      exact ⟨fun _ => rfl, rfl, by simp [Value.body, hknown]⟩

theorem smallLayout_cases (entry : Entry) (tag : Tag) (n index : Nat) :
    (∃ error, smallLayout entry tag n index = refuse error) ∨
      ∃ l, smallLayout entry tag n index = .ok l := by
  unfold smallLayout
  split
  · split
    · exact .inl ⟨_, rfl⟩
    · exact .inr ⟨_, rfl⟩
  · exact .inr ⟨_, rfl⟩

theorem layout_cases (entry : Entry) (tag : Tag) (value : Value) (index : Nat) :
    (∃ error, layout entry tag value index = refuse error) ∨
      ∃ l, layout entry tag value index = .ok l := by
  cases value with
  | uint8 n | uint16 n | uint32 n => exact smallLayout_cases entry tag n.toNat index
  | none | integer _ | replace _ | placeholder _ => exact .inr ⟨_, rfl⟩
  | bytes data =>
    simp only [layout]
    split
    · exact .inr ⟨_, rfl⟩
    · exact .inr ⟨_, rfl⟩
  | bits data unused =>
    simp only [layout]
    split
    · exact .inl ⟨_, rfl⟩
    · exact .inr ⟨_, rfl⟩
  | oid category sum =>
    simp only [layout]
    cases category.bySum? sum with
    | none => exact .inl ⟨_, rfl⟩
    | some known => exact .inr ⟨_, rfl⟩

theorem payload_of_layout {entry : Entry} {tag : Tag} {value : Value} {index : Nat} {l : Layout}
    (h : layout entry tag value index = .ok l) (hreplace : ∀ encoded, value ≠ .replace encoded)
    (j : Nat) :
    ∃ written, payload tag value l.payload j = .ok written ∧
      value.body entry tag = written.elim (gap l.payload) solid := by
  cases value with
  | uint8 n | uint16 n | uint32 n =>
    obtain ⟨_, _, _, hsmall⟩ := smallLayout_eq_ok h
    exact ⟨_, rfl, by rw [hsmall]; rfl⟩
  | none =>
    cases h
    exact ⟨none, rfl, rfl⟩
  | replace encoded => exact absurd rfl (hreplace encoded)
  | placeholder length =>
    cases h
    exact ⟨none, rfl, rfl⟩
  | integer n =>
    have hlength : (Bytes.ofInt n).length = l.payload := by
      cases h
      exact Bytes.length_ofInt n
    exact ⟨some (Bytes.ofInt n), by rw [payload, if_pos hlength], rfl⟩
  | bytes data => exact ⟨some data, rfl, rfl⟩
  | bits data unused =>
    simp only [layout, refuse] at h
    split at h
    · cases h
    · rename_i hrange
      have hclear := Content.clearUnused_of_le data fun hlt => hrange (.inl hlt)
      exact ⟨some (Content.cleared data unused), by rw [payload, hclear]; rfl, rfl⟩
  | oid category sum =>
    simp only [layout, refuse] at h
    cases hknown : category.bySum? sum with
    | none => simp [hknown] at h
    | some known => exact ⟨some known.der, by simp [payload, hknown], by simp [Value.body, hknown]⟩

end Encoding

end DerTemplate
