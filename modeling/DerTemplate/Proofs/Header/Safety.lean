import DerTemplate.Content.Integer
import DerTemplate.Header.Identifier
import DerTemplate.Proofs.Content.BitString
import DerTemplate.Proofs.Header.Length
import DerTemplate.Proofs.Outcome

namespace DerTemplate

namespace Header

open Error

theorem meets_numberOctets {input : Bytes} {bound : Nat} (start : Nat) {room pos : Nat}
    (hbound : bound ≤ input.length) :
    (numberOctets input start bound room pos).Meets BlamesInput fun n => pos + n ≤ bound := by
  induction room generalizing pos with
  | zero => exact Outcome.meets_refuse (blamesInput_invalid _)
  | succ room ih =>
    unfold numberOctets
    split
    · rename_i hpos
      refine (meets_fetch (by omega)).bind fun b _ _ => ?_
      split
      · exact Outcome.meets_ok (by omega)
      · refine ih.bind fun more _ hmore => Outcome.meets_ok ?_
        omega
    · exact Outcome.meets_refuse (blamesInput_truncated _)

theorem meets_identifierSize (input : Bytes) (idx bound : Nat) :
    (identifierSize input idx bound).Meets BlamesInput fun n =>
      0 < n ∧ idx + n ≤ min bound input.length := by
  have htag : (readTag input idx bound).Meets BlamesInput fun _ => idx < min bound input.length := by
    unfold readTag
    split
    · rename_i hidx
      exact (meets_fetch (by omega)).imp fun _ _ => hidx
    · exact Outcome.meets_refuse (blamesInput_truncated _)
  refine htag.bind fun tag _ hidx => ?_
  split
  · refine (meets_numberOctets idx (Nat.min_le_right _ _)).bind fun n _ hn => Outcome.meets_ok ?_
    omega
  · exact Outcome.meets_ok (by omega)

theorem meets_readAnyLength (input : Bytes) (idx bound : Nat) :
    (readAnyLength input idx bound).Meets BlamesInput fun (_, next) =>
      idx < next ∧ next ≤ min bound input.length := by
  unfold readAnyLength
  split
  · exact Outcome.meets_refuse (blamesInput_truncated _)
  · refine (meets_fetch (by omega)).bind fun first _ _ => ?_
    split
    · exact Outcome.meets_ok (by omega)
    · split
      · exact Outcome.meets_ok (by omega)
      · dsimp only
        split
        · exact Outcome.meets_refuse (blamesInput_invalid _)
        · split
          · exact Outcome.meets_refuse (blamesInput_truncated _)
          · refine (Bytes.meets_slice (by omega) (by omega)).bind fun digits _ _ => ?_
            split
            · exact Outcome.meets_refuse (blamesInput_invalid _)
            · exact Outcome.meets_ok (by omega)

theorem meets_readLength (input : Bytes) (idx bound : Nat) :
    (readLength input idx bound true).Meets BlamesInput fun (length, next) =>
      idx < next ∧ next + length ≤ min bound input.length := by
  refine (meets_readAnyLength input idx bound).bind fun (form, next) _ hnext => ?_
  cases form with
  | indefinite => exact Outcome.meets_refuse (blamesInput_invalid _)
  | definite n =>
    dsimp only at hnext ⊢
    split
    · exact Outcome.meets_refuse (blamesInput_truncated _)
    · rename_i hfits
      rw [eq_self, true_and] at hfits
      exact Outcome.meets_ok (by omega)

end Header

namespace Content

open Error

theorem meets_lowBits {unused : UInt8} (h : ¬7 < unused) :
    (lowBits unused).Meets BlamesInput fun _ => True := by
  rw [lowBits_of_le h]
  trivial

theorem meets_unusedBitCount (content : Bytes) :
    (unusedBitCount content).Meets BlamesInput fun _ => 0 < content.length := by
  unfold unusedBitCount
  split
  · exact Outcome.meets_refuse (blamesInput_invalid _)
  · rename_i unused bits
    have hpos : 0 < (unused :: bits).length := Nat.zero_lt_succ _
    split
    · exact Outcome.meets_refuse (blamesInput_invalid _)
    · rename_i hrange
      split
      · split
        · exact Outcome.meets_ok hpos
        · exact Outcome.meets_refuse (blamesInput_invalid _)
      · refine (meets_lowBits hrange).bind fun mask _ _ => ?_
        split
        · exact Outcome.meets_ok hpos
        · exact Outcome.meets_refuse (blamesInput_invalid _)

theorem meets_isPadded (content : Bytes) (policy : IntegerPolicy) :
    (isPadded content policy).Meets BlamesInput fun _ => 0 < content.length := by
  unfold isPadded
  split
  · exact Outcome.meets_refuse (blamesInput_invalid _)
  · exact Outcome.meets_ok Nat.one_pos
  · split
    · split
      · exact Outcome.meets_refuse (blamesInput_invalid _)
      · exact Outcome.meets_ok (Nat.zero_lt_succ _)
    · split
      · exact Outcome.meets_refuse (blamesInput_invalid _)
      · exact Outcome.meets_ok (Nat.zero_lt_succ _)

theorem meets_readUnsigned (content : Bytes) (width : Nat) :
    (readUnsigned content width).Meets BlamesInput fun _ => True := by
  unfold readUnsigned
  split
  · exact Outcome.meets_refuse (blamesInput_invalid _)
  · split
    · exact Outcome.meets_refuse (blamesInput_invalid _)
    · trivial

end Content

end DerTemplate
