import DerTemplate.Bytes
import Mathlib.Algebra.Group.Nat.Defs
import Mathlib.Data.List.Induction

namespace DerTemplate

theorem forall_octet {p : UInt8 → Prop} (h : ∀ n : Fin 256, p (UInt8.ofFin n)) (b : UInt8) :
    p b := h b.toFin

theorem topBit_clear_iff (b : UInt8) : b &&& 0x80 = 0 ↔ b.toNat < 128 :=
  forall_octet (p := fun b => b &&& 0x80 = 0 ↔ b.toNat < 128) (by decide +kernel) b

theorem topBit_set {b : UInt8} (h : 128 ≤ b.toNat) : ¬b &&& 0x80 = 0 :=
  mt (topBit_clear_iff b).mp (Nat.not_lt.mpr h)

theorem lowBits_toNat (b : UInt8) : (b &&& 0x7F).toNat = b.toNat % 128 :=
  forall_octet (p := fun b => (b &&& 0x7F).toNat = b.toNat % 128) (by decide +kernel) b

theorem bitLength_le_iff {n k : Nat} : bitLength n ≤ k ↔ n < 2 ^ k := by
  unfold bitLength
  split
  · rename_i hzero
    subst hzero
    exact iff_of_true (Nat.zero_le k) (Nat.two_pow_pos k)
  · rename_i hne
    exact Nat.log2_lt hne

theorem octetCount_pos (n : Nat) : 1 ≤ octetCount n := Nat.le_max_left _ _

theorem octetCount_le_iff {n k : Nat} : octetCount n ≤ k ↔ 1 ≤ k ∧ n < 256 ^ k := by
  have hpow : (256 : Nat) ^ k = 2 ^ (8 * k) := by rw [Nat.pow_mul]
  rw [hpow, ← bitLength_le_iff, octetCount]
  omega

theorem lt_pow_octetCount (n : Nat) : n < 256 ^ octetCount n :=
  (octetCount_le_iff.mp (Nat.le_refl _)).2

theorem octetCount_add_le (m n : Nat) :
    octetCount (m + n) ≤ max (octetCount m) (octetCount n) + 1 := by
  have hm : m < 256 ^ max (octetCount m) (octetCount n) :=
    (octetCount_le_iff.mp (Nat.le_max_left _ _)).2
  have hn : n < 256 ^ max (octetCount m) (octetCount n) :=
    (octetCount_le_iff.mp (Nat.le_max_right _ _)).2
  refine octetCount_le_iff.mpr ⟨Nat.le_add_left _ _, ?_⟩
  rw [Nat.pow_succ]
  omega

theorem octetCount_mono {m n : Nat} (h : m ≤ n) : octetCount m ≤ octetCount n :=
  octetCount_le_iff.mpr ⟨octetCount_pos n, Nat.lt_of_le_of_lt h (lt_pow_octetCount n)⟩

namespace Bytes

theorem foldl_toNat (bytes : Bytes) (n : Nat) :
    bytes.foldl (fun n b => n * 256 + b.toNat) n = n * 256 ^ bytes.length + toNat bytes := by
  unfold toNat
  induction bytes generalizing n with
  | nil => simp
  | cons b bytes ih =>
    simp only [List.foldl_cons, List.length_cons]
    rw [ih, ih (0 * 256 + b.toNat), Nat.pow_succ, Nat.zero_mul, Nat.zero_add, Nat.add_mul,
      Nat.mul_assoc, Nat.mul_comm 256, Nat.add_assoc]

@[simp] theorem toNat_nil : toNat [] = 0 := rfl

theorem toNat_cons (b : UInt8) (bytes : Bytes) :
    toNat (b :: bytes) = b.toNat * 256 ^ bytes.length + toNat bytes := by
  have h : toNat (b :: bytes) = bytes.foldl (fun n b => n * 256 + b.toNat) (0 * 256 + b.toNat) :=
    rfl
  rw [h, foldl_toNat, Nat.zero_mul, Nat.zero_add]

theorem toNat_append (high low : Bytes) :
    toNat (high ++ low) = toNat high * 256 ^ low.length + toNat low := by
  have h : toNat (high ++ low) = low.foldl (fun n b => n * 256 + b.toNat) (toNat high) :=
    List.foldl_append
  rw [h, foldl_toNat]

theorem toNat_lt (bytes : Bytes) : toNat bytes < 256 ^ bytes.length := by
  induction bytes with
  | nil => simp
  | cons b bytes ih =>
    have hb : b.toNat + 1 ≤ 256 := b.toNat_lt
    have hmul : (b.toNat + 1) * 256 ^ bytes.length ≤ 256 * 256 ^ bytes.length :=
      Nat.mul_le_mul_right _ hb
    rw [toNat_cons, List.length_cons, Nat.pow_succ]
    rw [Nat.add_mul, Nat.one_mul] at hmul
    omega

theorem digitsBefore_eq (width n : Nat) (rest : Bytes) :
    digitsBefore width n rest = ofNat width n ++ rest := by
  unfold ofNat
  induction width generalizing n rest with
  | zero => rfl
  | succ width ih =>
    simp only [digitsBefore]
    rw [ih, ih _ [_], List.append_assoc, List.singleton_append]

@[simp] theorem ofNat_zero (n : Nat) : ofNat 0 n = [] := rfl

theorem ofNat_succ (width n : Nat) :
    ofNat (width + 1) n = ofNat width (n / 256) ++ [UInt8.ofNat (n % 256)] :=
  digitsBefore_eq width (n / 256) _

theorem toNat_ofNat (width n : Nat) : toNat (ofNat width n) = n % 256 ^ width := by
  induction width generalizing n with
  | zero => simp [Nat.mod_one]
  | succ width ih =>
    have hdigit : (UInt8.ofNat (n % 256)).toNat = n % 256 := by
      rw [UInt8.toNat_ofNat']
      omega
    rw [ofNat_succ, toNat_append, ih, toNat_cons, toNat_nil, hdigit, List.length_singleton,
      List.length_nil, Nat.pow_zero, Nat.pow_one, Nat.mul_one, Nat.add_zero, Nat.pow_succ,
      Nat.mul_comm (256 ^ width) 256, Nat.mod_mul]
    omega

theorem toNat_ofNat_of_lt {width n : Nat} (h : n < 256 ^ width) : toNat (ofNat width n) = n := by
  rw [toNat_ofNat, Nat.mod_eq_of_lt h]

theorem ofNat_toNat (bytes : Bytes) : ofNat bytes.length (toNat bytes) = bytes := by
  induction bytes using List.reverseRecOn with
  | nil => rfl
  | append_singleton bytes b ih =>
    have hb := b.toNat_lt
    have hnat : toNat (bytes ++ [b]) = toNat bytes * 256 + b.toNat := by
      rw [toNat_append, toNat_cons]
      simp
    have hdiv : (toNat bytes * 256 + b.toNat) / 256 = toNat bytes := by omega
    have hmod : (toNat bytes * 256 + b.toNat) % 256 = b.toNat := by omega
    rw [hnat, List.length_append, List.length_singleton, ofNat_succ, hdiv, hmod, ih,
      UInt8.ofNat_toNat]

theorem eq_of_toNat_eq {a b : Bytes} (hlength : a.length = b.length)
    (h : toNat a = toNat b) : a = b := by
  rw [← ofNat_toNat a, ← ofNat_toNat b, hlength, h]

theorem ofNat_succ_high (width n : Nat) :
    ofNat (width + 1) n = UInt8.ofNat (n / 256 ^ width % 256) :: ofNat width n := by
  have hdigit : (UInt8.ofNat (n / 256 ^ width % 256)).toNat = n / 256 ^ width % 256 := by
    rw [UInt8.toNat_ofNat']
    omega
  apply eq_of_toNat_eq
  · rw [length_ofNat, List.length_cons, length_ofNat]
  · rw [toNat_cons, hdigit, length_ofNat, toNat_ofNat, toNat_ofNat, Nat.mod_pow_succ,
      Nat.add_comm, Nat.mul_comm]

theorem octetCount_toNat_le {bytes : Bytes} (h : bytes ≠ []) :
    octetCount (toNat bytes) ≤ bytes.length :=
  octetCount_le_iff.mpr ⟨List.length_pos_iff.mpr h, toNat_lt bytes⟩

end Bytes

end DerTemplate
