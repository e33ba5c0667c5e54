import DerTemplate.Header.Length
import DerTemplate.Proofs.Bytes.Digits
import DerTemplate.Proofs.Bytes.Window

namespace DerTemplate.Header

inductive IsLength : Bytes → Nat → Prop where
  | short (first : UInt8) (hfirst : first.toNat < 0x80) : IsLength [first] first.toNat
  | long (first : UInt8) (digits : Bytes) (hfirst : first.toNat = 0x80 + digits.length)
    (hdigits : digits ≠ []) (hcount : digits.length ≤ lengthOctetLimit)
    (hlength : digits.toNat < lengthLimit) : IsLength (first :: digits) digits.toNat

theorem octetCount_le_of_lt {n : Nat} (h : n < lengthLimit) : octetCount n ≤ lengthOctetLimit :=
  octetCount_le_iff.mpr ⟨by decide, Nat.lt_trans h (by decide)⟩

theorem lengthSize_pos (n : Nat) : 1 ≤ lengthSize n := by
  unfold lengthSize
  split <;> omega

theorem lengthSize_mono {m n : Nat} (h : m ≤ n) : lengthSize m ≤ lengthSize n := by
  have hcount := octetCount_mono h
  unfold lengthSize
  split <;> split <;> omega

theorem lengthSize_add_le (m n : Nat) : lengthSize (m + n) ≤ lengthSize m + lengthSize n := by
  have hsum := octetCount_add_le m n
  have hm := octetCount_pos m
  have hn := octetCount_pos n
  unfold lengthSize
  split
  · split <;> omega
  · rename_i hlong
    by_cases hboth : m < 0x80 ∧ n < 0x80
    · have hone : octetCount (m + n) ≤ 1 := octetCount_le_iff.mpr ⟨Nat.le_refl 1, by omega⟩
      rw [if_pos hboth.1, if_pos hboth.2]
      omega
    · split
      · have hsmall : octetCount m ≤ 1 := octetCount_le_iff.mpr ⟨Nat.le_refl 1, by omega⟩
        split <;> omega
      · split
        · have hsmall : octetCount n ≤ 1 := octetCount_le_iff.mpr ⟨Nat.le_refl 1, by omega⟩
          omega
        · omega

theorem lengthSize_le_nine {n : Nat} (h : n < wordLimit) : lengthSize n ≤ 9 := by
  have hcount : octetCount n ≤ 8 := octetCount_le_iff.mpr ⟨by decide, h⟩
  unfold lengthSize
  split <;> omega

theorem isLength_lengthOctets {n : Nat} (h : n < lengthLimit) : IsLength (lengthOctets n) n := by
  unfold lengthOctets
  split
  · rename_i hshort
    have hfirst : (UInt8.ofNat n).toNat = n := by
      rw [UInt8.toNat_ofNat']
      omega
    have hlength := IsLength.short (UInt8.ofNat n) (by omega)
    rwa [hfirst] at hlength
  · have hcount := octetCount_le_of_lt h
    have hpos := octetCount_pos n
    have hdigits : (Bytes.ofNat (octetCount n) n).toNat = n :=
      Bytes.toNat_ofNat_of_lt (lt_pow_octetCount n)
    have hwidth : (Bytes.ofNat (octetCount n) n).length = octetCount n := Bytes.length_ofNat _ _
    have hlimit : lengthOctetLimit = 8 := rfl
    have hfirst : (UInt8.ofNat (0x80 + octetCount n)).toNat = 0x80 + octetCount n := by
      rw [UInt8.toNat_ofNat']
      omega
    have hlength := IsLength.long (UInt8.ofNat (0x80 + octetCount n))
      (Bytes.ofNat (octetCount n) n) (by rw [hfirst, hwidth])
      (List.length_pos_iff.mp (by omega)) (by omega) (by rwa [hdigits])
    rwa [hdigits] at hlength

theorem lt_of_isLength {octets : Bytes} {n : Nat} (h : IsLength octets n) : n < lengthLimit := by
  cases h with
  | short first hfirst => exact Nat.lt_trans hfirst (by decide)
  | long first digits _ _ _ hlength => exact hlength

theorem isLength_ne_nil {octets : Bytes} {n : Nat} (h : IsLength octets n) : octets ≠ [] := by
  cases h <;> simp

theorem lengthSize_le {octets : Bytes} {n : Nat} (h : IsLength octets n) :
    lengthSize n ≤ octets.length := by
  unfold lengthSize
  cases h with
  | short first hfirst => simp [hfirst]
  | long first digits _ hdigits _ _ =>
    have hcount := Bytes.octetCount_toNat_le hdigits
    have hpos := List.length_pos_iff.mpr hdigits
    rw [List.length_cons]
    split <;> omega

theorem eq_lengthOctets {octets : Bytes} {n : Nat} (h : IsLength octets n)
    (hsize : octets.length = lengthSize n) : octets = lengthOctets n := by
  unfold lengthSize at hsize
  unfold lengthOctets
  cases h with
  | short first hfirst =>
    rw [if_pos hfirst, UInt8.ofNat_toNat]
  | long first digits hfirst hdigits _ _ =>
    have hpos := List.length_pos_iff.mpr hdigits
    rw [List.length_cons] at hsize
    split at hsize
    · omega
    · rename_i hlong
      have hwidth : octetCount digits.toNat = digits.length := by omega
      rw [if_neg hlong, hwidth, Bytes.ofNat_toNat, ← hfirst, UInt8.ofNat_toNat]

theorem readAnyLength_isLength {input octets : Bytes} {idx bound n : Nat}
    (h : IsLength octets n) (hinput : input.Holds idx octets)
    (hbound : idx + octets.length ≤ bound) :
    readAnyLength input idx bound = .ok (.definite n, idx + octets.length) := by
  have hroom := hinput.1
  have hpos := List.length_pos_iff.mpr (isLength_ne_nil h)
  rw [readAnyLength, if_neg (by omega)]
  cases h with
  | short first hfirst =>
    rw [hinput.fetch, ok_bind, if_pos ((topBit_clear_iff first).mpr hfirst)]
    rfl
  | long first digits hfirst hdigits hcount hlength =>
    have hdigitsPos := List.length_pos_iff.mpr hdigits
    have htop : ¬first &&& 0x80 = 0 := topBit_set (by omega)
    have hindefinite : first ≠ 0x80 := by
      rintro rfl
      have h80 : (0x80 : UInt8).toNat = 0x80 := rfl
      omega
    have hfield : (first &&& 0x7F).toNat = digits.length := by
      have hlimit : lengthOctetLimit = 8 := rfl
      rw [lowBits_toNat]
      omega
    have hslice := (Bytes.holds_cons_iff.mp hinput).2.slice
    rw [List.length_cons] at hroom hbound ⊢
    rw [hinput.fetch, ok_bind, if_neg htop, if_neg hindefinite]
    simp only [hfield]
    rw [if_neg (by omega), if_neg (by omega), hslice, ok_bind, if_neg (by omega), Nat.add_assoc,
      Nat.add_comm 1]
    rfl

theorem isLength_unique {input first second : Bytes} {idx m n : Nat} (hfirst : IsLength first m)
    (hsecond : IsLength second n) (hholds : input.Holds idx first)
    (hother : input.Holds idx second) : first = second ∧ m = n := by
  have hread := readAnyLength_isLength hfirst hholds hholds.1
  rw [readAnyLength_isLength hsecond hother hother.1] at hread
  obtain ⟨hform, hnext⟩ := Prod.mk.inj (Except.ok.inj hread)
  exact ⟨hholds.unique hother (by omega), (Length.definite.inj hform).symm⟩

theorem lengthOctets_append_inj {m n : Nat} {a b : Bytes} (hm : m < lengthLimit)
    (hn : n < lengthLimit) (h : lengthOctets m ++ a = lengthOctets n ++ b) : m = n := by
  have hfirst := (Bytes.holds_append_iff.mp (Bytes.holds_self (lengthOctets m ++ a))).1
  have hsecond := (Bytes.holds_append_iff.mp (Bytes.holds_self (lengthOctets n ++ b))).1
  rw [h] at hfirst
  exact (isLength_unique (isLength_lengthOctets hm) (isLength_lengthOctets hn) hfirst hsecond).2

theorem content_unique {input octets raw other content : Bytes} {idx : Nat}
    (hoctets : IsLength octets raw.length) (hother : IsLength other content.length)
    (hraw : input.Holds idx (octets ++ raw)) (hcontent : input.Holds idx (other ++ content)) :
    octets = other ∧ raw = content := by
  obtain ⟨hfront, hbehind⟩ := Bytes.holds_append_iff.mp hraw
  obtain ⟨hfrontOther, hbehindOther⟩ := Bytes.holds_append_iff.mp hcontent
  obtain ⟨rfl, hlength⟩ := isLength_unique hoctets hother hfront hfrontOther
  exact ⟨rfl, hbehind.unique hbehindOther hlength⟩

theorem readAnyLength_indefinite {input : Bytes} {idx bound : Nat}
    (hinput : input.Holds idx [0x80]) (hbound : idx < bound) :
    readAnyLength input idx bound = .ok (.indefinite, idx + 1) := by
  have hroom := hinput.1
  rw [List.length_singleton] at hroom
  rw [readAnyLength, if_neg (by omega), hinput.fetch]
  rfl

theorem not_indefinite_of_isLength {input octets : Bytes} {idx n : Nat} (h : IsLength octets n)
    (hholds : input.Holds idx octets) : ¬input.Holds idx [0x80] := by
  intro hindefinite
  have hread := readAnyLength_isLength h hholds hholds.1
  have hroom := hholds.1
  have hpos := List.length_pos_iff.mpr (isLength_ne_nil h)
  rw [readAnyLength_indefinite hindefinite (by omega)] at hread
  cases hread

theorem holds_of_readAnyLength {input : Bytes} {idx bound next : Nat} {length : Length}
    (h : readAnyLength input idx bound = .ok (length, next)) :
    ∃ octets, input.Holds idx octets ∧ next = idx + octets.length ∧ next ≤ bound ∧
      match length with
      | .definite n => IsLength octets n
      | .indefinite => octets = [0x80] := by
  unfold readAnyLength at h
  split at h
  · cases h
  · rename_i hroom
    obtain ⟨first, hfirst, h⟩ := bind_eq_ok_iff.mp h
    have hsingle := Bytes.holds_singleton_iff.mpr (fetch_eq_ok_iff.mp hfirst)
    split at h
    · rename_i htop
      cases h
      exact ⟨[first], hsingle, rfl, by omega, .short first ((topBit_clear_iff first).mp htop)⟩
    · rename_i htop
      rw [topBit_clear_iff] at htop
      split at h
      · rename_i hindefinite
        cases h
        exact ⟨[0x80], hindefinite ▸ hsingle, rfl, by omega, rfl⟩
      · rename_i hindefinite
        dsimp only at h
        split at h
        · cases h
        · rename_i hcount
          split at h
          · cases h
          · rename_i hfield
            obtain ⟨digits, hdigits, h⟩ := bind_eq_ok_iff.mp h
            obtain ⟨hholds, hlength⟩ := Bytes.holds_of_slice hdigits
            split at h
            · cases h
            · rename_i hlimit
              cases h
              have hbits := lowBits_toNat first
              have hmax := first.toNat_lt
              have hne : first.toNat ≠ 0x80 := fun heq =>
                hindefinite (UInt8.toNat_inj.mp heq)
              refine ⟨first :: digits, Bytes.holds_cons_iff.mpr ⟨fetch_eq_ok_iff.mp hfirst, hholds⟩,
                by rw [List.length_cons]; omega, by omega, ?_⟩
              exact .long first digits (by omega) (List.length_pos_iff.mp (by omega)) (by omega)
                (by omega)

theorem readLength_isLength {input octets : Bytes} {idx bound n : Nat} (h : IsLength octets n)
    (hinput : input.Holds idx octets) (hbound : idx + octets.length + n ≤ min bound input.length) :
    readLength input idx bound true = .ok (n, idx + octets.length) := by
  rw [readLength, readAnyLength_isLength h hinput (by omega), ok_bind]
  dsimp only
  rw [if_neg (by omega)]
  rfl

theorem length_codec :
    (∀ (n : Nat) (front suffix : Bytes) (bound : Nat), n < lengthLimit →
      front.length + lengthSize n ≤ bound →
      (lengthOctets n).length = lengthSize n ∧
        readAnyLength (front ++ (lengthOctets n ++ suffix)) front.length bound =
          .ok (.definite n, front.length + lengthSize n)) ∧
    ∀ (input : Bytes) (idx bound n next : Nat),
      readAnyLength input idx bound = .ok (.definite n, next) →
      ∃ octets, input.Holds idx octets ∧ next = idx + octets.length ∧
        lengthSize n ≤ octets.length ∧
        (octets.length = lengthSize n ↔ octets = lengthOctets n) := by
  constructor
  · intro n front suffix bound hn hbound
    have hlength := isLength_lengthOctets hn
    have hsize := length_lengthOctets n
    have hread := readAnyLength_isLength hlength
      (Bytes.holds_inside front (lengthOctets n) suffix) (hsize ▸ hbound)
    rw [hsize] at hread
    exact ⟨hsize, hread⟩
  · intro input idx bound n next hread
    obtain ⟨octets, hholds, hnext, _, hlength⟩ := holds_of_readAnyLength hread
    refine ⟨octets, hholds, hnext, lengthSize_le hlength, eq_lengthOctets hlength, ?_⟩
    rintro rfl
    exact length_lengthOctets n

theorem length_codec_redundant :
    200 < lengthLimit ∧ List.length ([0x04] : Bytes) + lengthSize 200 ≤ 3 ∧
    readAnyLength [0x04, 0x81, 0xC8, 0xFF] 1 3 = .ok (.definite 200, 3) ∧
    readAnyLength [0x82, 0x00, 0x05] 0 3 = .ok (.definite 5, 3) ∧
    ∃ octets, Bytes.Holds [0x82, 0x00, 0x05] 0 octets ∧ 3 = 0 + octets.length ∧
      lengthSize 5 ≤ octets.length ∧ (octets.length = lengthSize 5 ↔ octets = lengthOctets 5) := by
  obtain ⟨hwritten, hread⟩ := length_codec
  have hredundant : readAnyLength [0x82, 0x00, 0x05] 0 3 = .ok (.definite 5, 3) := by decide
  exact ⟨by decide, by decide, (hwritten 200 [0x04] [0xFF] 3 (by decide) (by decide)).2, hredundant,
    hread _ _ _ _ _ hredundant⟩

end DerTemplate.Header
