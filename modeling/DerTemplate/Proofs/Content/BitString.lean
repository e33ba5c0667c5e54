import DerTemplate.Content.BitString
import DerTemplate.Proofs.Bytes.Digits

namespace DerTemplate.Content

def cleared (bits : Bytes) (unused : UInt8) : Bytes :=
  match bits.getLast? with
  | none => []
  | some last => bits.dropLast ++ [last &&& ~~~UInt8.ofNat (2 ^ unused.toNat - 1)]

theorem lowBits_of_le {unused : UInt8} (h : ¬7 < unused) :
    lowBits unused = .ok (UInt8.ofNat (2 ^ unused.toNat - 1)) := by
  have hlt : unused < 16 := by
    rw [UInt8.lt_iff_toNat_lt] at h ⊢
    have h7 : (7 : UInt8).toNat = 7 := rfl
    have h16 : (16 : UInt8).toNat = 16 := rfl
    omega
  rw [lowBits, if_pos hlt, Nat.one_shiftLeft]

theorem clearUnused_of_le (data : Bytes) {unused : UInt8} (h : ¬7 < unused) :
    clearUnused data unused = .ok (cleared data unused) := by
  unfold clearUnused cleared
  cases data.getLast? with
  | none => rfl
  | some last =>
    simp only [lowBits_of_le h]
    rfl

theorem length_cleared (data : Bytes) (unused : UInt8) :
    (cleared data unused).length = data.length := by
  unfold cleared
  cases hlast : data.getLast? with
  | none =>
    rw [List.getLast?_eq_none_iff.mp hlast]
  | some last =>
    obtain ⟨init, rfl⟩ := List.getLast?_eq_some_iff.mp hlast
    simp

theorem lowBits_zero : lowBits 0 = .ok 0 := rfl

theorem unusedBitCount_zero (data : Bytes) : unusedBitCount (0 :: data) = .ok 0 := by
  unfold unusedBitCount
  dsimp only
  rw [if_neg (by decide)]
  cases data.getLast? with
  | none => rfl
  | some last =>
    dsimp only
    rw [lowBits_zero, ok_bind, if_pos (UInt8.and_zero)]
    rfl

theorem and_not_and (b mask : UInt8) : b &&& ~~~mask &&& mask = 0 := by
  rw [UInt8.and_assoc, UInt8.not_and_self, UInt8.and_zero]

theorem and_not_of_clear {b mask : UInt8} (h : b &&& mask = 0) : b &&& ~~~mask = b := by
  have hsplit : b &&& (mask ||| ~~~mask) = b &&& mask ||| b &&& ~~~mask :=
    UInt8.eq_of_toBitVec_eq (BitVec.and_or_distrib_left ..)
  rw [UInt8.or_not_self, UInt8.and_neg_one, h, UInt8.zero_or] at hsplit
  exact hsplit.symm

theorem unusedBitCount_eq_ok {raw : Bytes} {unused : UInt8} (h : unusedBitCount raw = .ok unused) :
    ∃ bits, raw = unused :: bits ∧ ¬7 < unused ∧ (bits = [] → unused = 0) ∧
      cleared bits unused = bits := by
  cases raw with
  | nil => cases h
  | cons first bits =>
    unfold unusedBitCount at h
    dsimp only at h
    split at h
    · cases h
    · rename_i hrange
      cases hlast : bits.getLast? with
      | none =>
        obtain rfl := List.getLast?_eq_none_iff.mp hlast
        dsimp only [List.getLast?_nil] at h
        split at h
        · rename_i hzero
          cases h
          exact ⟨[], by rw [hzero], by decide, fun _ => rfl, rfl⟩
        · cases h
      | some last =>
        rw [hlast] at h
        dsimp only at h
        rw [lowBits_of_le hrange, ok_bind] at h
        split at h
        · rename_i hclear
          cases h
          obtain ⟨init, rfl⟩ := List.getLast?_eq_some_iff.mp hlast
          refine ⟨_, rfl, hrange, by simp, ?_⟩
          simp only [cleared, hlast, List.dropLast_concat, and_not_of_clear hclear]
        · cases h

theorem unusedBitCount_cleared {data : Bytes} {unused : UInt8} (h : ¬7 < unused)
    (hempty : data = [] → unused = 0) :
    unusedBitCount (unused :: cleared data unused) = .ok unused := by
  unfold unusedBitCount cleared
  dsimp only
  rw [if_neg h]
  cases hlast : data.getLast? with
  | none =>
    have hnil := List.getLast?_eq_none_iff.mp hlast
    simp [hempty hnil]
  | some last =>
    dsimp only
    rw [List.getLast?_concat]
    dsimp only
    rw [lowBits_of_le h, ok_bind, if_pos (and_not_and _ _)]
    rfl

end DerTemplate.Content
