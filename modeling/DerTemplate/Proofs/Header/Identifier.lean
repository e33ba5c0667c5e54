import DerTemplate.Header.Identifier
import DerTemplate.Proofs.Bytes.Window

namespace DerTemplate.Header

inductive IsNumber : Bytes → Prop where
  | last (b : UInt8) (hb : b &&& 0x80 = 0) : IsNumber [b]
  | more (b : UInt8) {rest : Bytes} (hb : b &&& 0x80 ≠ 0) (hrest : IsNumber rest) :
    IsNumber (b :: rest)

structure Identifier where
  first : Tag
  number : Bytes
  first_ne : first ≠ Tag.endOfContent
  number_of_long : first.hasLongNumber = true → IsNumber number
  number_of_short : first.hasLongNumber = false → number = []
  length_number : number.length ≤ numberOctetLimit

namespace Identifier

def octets (identifier : Identifier) : Bytes := identifier.first :: identifier.number

theorem length_octets (identifier : Identifier) :
    identifier.octets.length = identifier.number.length + 1 := rfl

def single (first : Tag) (first_ne : first ≠ Tag.endOfContent)
    (hshort : first.hasLongNumber = false) : Identifier :=
  ⟨first, [], first_ne, fun hlong => absurd (hlong.symm.trans hshort) (by decide), fun _ => rfl,
    Nat.zero_le _⟩

end Identifier

variable {input : Bytes} {idx bound : Nat}

theorem numberOctets_isNumber {number : Bytes} {start pos room : Nat} (h : IsNumber number)
    (hinput : input.Holds pos number) (hroom : number.length ≤ room)
    (hbound : pos + number.length ≤ bound) :
    numberOctets input start bound room pos = .ok number.length := by
  induction h generalizing pos room with
  | last b hb =>
    cases room with
    | zero => exact absurd hroom (by simp)
    | succ room =>
      rw [List.length_singleton] at hbound
      rw [numberOctets, if_pos (by omega), hinput.fetch, ok_bind, if_pos hb]
      rfl
  | more b hb hrest ih =>
    cases room with
    | zero => exact absurd hroom (by simp)
    | succ room =>
      rw [List.length_cons] at hroom hbound
      rw [numberOctets, if_pos (by omega), hinput.fetch, ok_bind, if_neg hb,
        ih (Bytes.holds_cons_iff.mp hinput).2 (by omega) (by omega)]
      rfl

theorem holds_of_numberOctets {start pos room n : Nat}
    (h : numberOctets input start bound room pos = .ok n) :
    ∃ number, IsNumber number ∧ input.Holds pos number ∧ number.length = n ∧ n ≤ room ∧
      pos + n ≤ bound := by
  induction room generalizing pos n with
  | zero => cases h
  | succ room ih =>
    unfold numberOctets at h
    split at h
    · rename_i hpos
      obtain ⟨b, hfetch, h⟩ := bind_eq_ok_iff.mp h
      have hget := fetch_eq_ok_iff.mp hfetch
      split at h
      · rename_i hb
        cases h
        exact ⟨[b], .last b hb, Bytes.holds_singleton_iff.mpr hget, rfl, by omega, by omega⟩
      · rename_i hb
        obtain ⟨more, hmore, h⟩ := bind_eq_ok_iff.mp h
        obtain ⟨rest, hrest, hholds, hlength, hroom, hbound⟩ := ih hmore
        cases h
        exact ⟨b :: rest, .more b hb hrest, Bytes.holds_cons_iff.mpr ⟨hget, hholds⟩,
          by rw [List.length_cons, hlength], by omega, by omega⟩
    · cases h

theorem identifierSize_octets (identifier : Identifier) (hinput : input.Holds idx identifier.octets)
    (hbound : idx + identifier.octets.length ≤ bound) :
    identifierSize input idx bound = .ok identifier.octets.length := by
  obtain ⟨_, hnumber⟩ := Bytes.holds_cons_iff.mp hinput
  have hroom := hnumber.1
  rw [Identifier.length_octets] at hbound ⊢
  rw [identifierSize, readTag, if_pos (by omega), hinput.fetch, ok_bind]
  cases hlong : identifier.first.hasLongNumber with
  | true =>
    rw [if_pos rfl, numberOctets_isNumber (identifier.number_of_long hlong) hnumber
      identifier.length_number (by omega)]
    rfl
  | false =>
    rw [identifier.number_of_short hlong]
    rfl

theorem holds_of_identifierSize {tag : Tag} {n : Nat} (htag : fetch input idx = .ok tag)
    (hne : tag ≠ Tag.endOfContent) (h : identifierSize input idx bound = .ok n) :
    ∃ identifier : Identifier, identifier.first = tag ∧ input.Holds idx identifier.octets ∧
      n = identifier.octets.length ∧ idx + n ≤ bound := by
  obtain ⟨found, hfound, h⟩ := bind_eq_ok_iff.mp h
  unfold readTag at hfound
  split at hfound
  · rename_i hidx
    rw [htag] at hfound
    cases hfound
    have hget := fetch_eq_ok_iff.mp htag
    split at h
    · rename_i hlong
      obtain ⟨size, hsize, h⟩ := bind_eq_ok_iff.mp h
      obtain ⟨number, hnumber, hholds, hlength, hroom, hbound⟩ := holds_of_numberOctets hsize
      cases h
      exact ⟨⟨tag, number, hne, fun _ => hnumber, fun h => absurd h (by simp [hlong]),
          hlength ▸ hroom⟩, rfl, Bytes.holds_cons_iff.mpr ⟨hget, hholds⟩,
        by rw [Identifier.length_octets, hlength], by omega⟩
    · rename_i hshort
      cases h
      exact ⟨⟨tag, [], hne, fun h => absurd h hshort, fun _ => rfl, Nat.zero_le _⟩, rfl,
        Bytes.holds_singleton_iff.mpr hget, rfl, by omega⟩
  · cases hfound

end DerTemplate.Header
