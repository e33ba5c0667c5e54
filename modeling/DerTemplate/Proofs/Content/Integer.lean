import DerTemplate.Content.Integer
import DerTemplate.Proofs.Bytes.Digits

namespace DerTemplate

theorem bitLength_div {n : Nat} (h : 128 ≤ n) :
    bitLength n / 8 = bitLength (n / 256) / 8 + 1 := by
  have hlow : ¬bitLength n ≤ 7 := fun hle => by
    have := bitLength_le_iff.mp hle
    omega
  have hpow (k : Nat) : 2 ^ k * 256 = 2 ^ (k + 8) := by rw [Nat.pow_add]
  have hdiv : bitLength (n / 256) = bitLength n - 8 := by
    apply Nat.le_antisymm
    · rw [bitLength_le_iff, Nat.div_lt_iff_lt_mul (by decide), hpow, ← bitLength_le_iff]
      omega
    · have hn : n / 256 < 2 ^ bitLength (n / 256) := bitLength_le_iff.mp (Nat.le_refl _)
      rw [Nat.div_lt_iff_lt_mul (by decide), hpow, ← bitLength_le_iff] at hn
      omega
  omega

namespace Bytes

theorem intBefore_append (n : Int) (rest tail : Bytes) :
    intBefore n (rest ++ tail) = intBefore n rest ++ tail := by
  fun_induction intBefore n rest with
  | case1 n rest h =>
    rw [intBefore, if_pos h]
    rfl
  | case2 n rest h ih =>
    rw [intBefore, if_neg h]
    exact ih

theorem ofInt_small {n : Int} (h : -128 ≤ n ∧ n < 128) :
    ofInt n = [UInt8.ofNat (n % 256).toNat] := by
  rw [ofInt, intBefore, if_pos h]

theorem ofInt_large {n : Int} (h : ¬(-128 ≤ n ∧ n < 128)) :
    ofInt n = ofInt (n / 256) ++ [UInt8.ofNat (n % 256).toNat] := by
  rw [ofInt, intBefore, if_neg h]
  exact intBefore_append (n / 256) [] _

theorem int_induction {motive : Int → Prop} (small : ∀ n, -128 ≤ n ∧ n < 128 → motive n)
    (large : ∀ n, ¬(-128 ≤ n ∧ n < 128) → motive (n / 256) → motive n) (n : Int) : motive n := by
  by_cases h : -128 ≤ n ∧ n < 128
  · exact small n h
  · exact large n h (int_induction small large (n / 256))
termination_by n.natAbs
decreasing_by omega

theorem length_ofInt (n : Int) : (ofInt n).length = Content.integerSize n := by
  induction n using int_induction with
  | small n h =>
    have hbits : bitLength (if n < 0 then n.natAbs - 1 else n.natAbs) ≤ 7 := by
      rw [bitLength_le_iff]
      split <;> omega
    rw [ofInt_small h, Content.integerSize]
    simp only [List.length_singleton]
    omega
  | large n h ih =>
    have hmag : (if n / 256 < 0 then (n / 256).natAbs - 1 else (n / 256).natAbs) =
        (if n < 0 then n.natAbs - 1 else n.natAbs) / 256 := by
      split <;> split <;> omega
    have hbits := bitLength_div (n := if n < 0 then n.natAbs - 1 else n.natAbs) (by split <;> omega)
    rw [ofInt_large h, List.length_append, ih, Content.integerSize, Content.integerSize, hmag,
      List.length_singleton, hbits]

theorem toInt_singleton (b : UInt8) :
    toInt [b] = if b.toNat < 128 then (b.toNat : Int) else (b.toNat : Int) - 256 := by
  simp only [toInt, topBit_clear_iff, toNat_cons, toNat_nil, List.length_nil, Nat.pow_zero,
    Nat.mul_one, Nat.add_zero, Nat.zero_add]
  rfl

theorem toInt_append {bytes : Bytes} (h : bytes ≠ []) (b : UInt8) :
    toInt (bytes ++ [b]) = toInt bytes * 256 + b.toNat := by
  cases bytes with
  | nil => exact absurd rfl h
  | cons first bytes =>
    have hnat : toNat (first :: bytes ++ [b]) = toNat (first :: bytes) * 256 + b.toNat := by
      rw [toNat_append, toNat_cons b]
      simp
    simp only [List.cons_append] at hnat ⊢
    simp only [toInt, hnat, List.length_append, List.length_singleton, Nat.pow_eq]
    split
    · omega
    · rw [Nat.pow_succ 256 (bytes.length + 1)]
      omega

theorem ofInt_ne_nil (n : Int) : ofInt n ≠ [] := by
  have hlength := length_ofInt n
  intro h
  rw [h, List.length_nil, Content.integerSize] at hlength
  omega

theorem toInt_ofInt (n : Int) : toInt (ofInt n) = n := by
  induction n using int_induction with
  | small n h =>
    have hb : (UInt8.ofNat (n % 256).toNat).toNat = (n % 256).toNat := by
      rw [UInt8.toNat_ofNat']
      omega
    rw [ofInt_small h, toInt_singleton, hb]
    split <;> omega
  | large n h ih =>
    have hb : (UInt8.ofNat (n % 256).toNat).toNat = (n % 256).toNat := by
      rw [UInt8.toNat_ofNat']
      omega
    rw [ofInt_large h, toInt_append (ofInt_ne_nil _), ih, hb]
    omega

theorem ofInt_shortest {n : Int} {first next : UInt8} {rest : Bytes}
    (h : ofInt n = first :: next :: rest) :
    (first = 0x00 → ¬(next &&& 0x80 = 0)) ∧ (first = 0xFF → next &&& 0x80 = 0) := by
  induction n using int_induction generalizing rest with
  | small n hn =>
    rw [ofInt_small hn] at h
    cases h
  | large n hn ih =>
    rw [ofInt_large hn] at h
    have hb : (UInt8.ofNat (n % 256).toNat).toNat = (n % 256).toNat := by
      rw [UInt8.toNat_ofNat']
      omega
    cases hhigh : ofInt (n / 256) with
    | nil => exact absurd hhigh (ofInt_ne_nil _)
    | cons c more =>
      rw [hhigh, List.cons_append, List.cons.injEq] at h
      obtain ⟨rfl, h⟩ := h
      cases more with
      | cons d more =>
        obtain ⟨rfl, _⟩ := List.cons.inj h
        exact ih hhigh
      | nil =>
        obtain ⟨rfl, _⟩ := List.cons.inj h
        -- two octets: the first is the quotient, and alone it would not do
        have hquotient := toInt_ofInt (n / 256)
        rw [hhigh, toInt_singleton] at hquotient
        rw [topBit_clear_iff, hb]
        constructor
        · rintro rfl
          have h00 : (0x00 : UInt8).toNat = 0 := rfl
          rw [h00] at hquotient
          simp at hquotient
          omega
        · rintro rfl
          have hFF : (0xFF : UInt8).toNat = 255 := rfl
          rw [hFF] at hquotient
          simp at hquotient
          omega

theorem topBit_ofInt {n : Int} (h : 0 ≤ n) : Content.hasTopBit (ofInt n) = false := by
  have hread := toInt_ofInt n
  cases hbytes : ofInt n with
  | nil => rfl
  | cons b rest =>
    rw [hbytes, toInt] at hread
    split at hread
    · rename_i hb
      simp [Content.hasTopBit, hb]
    · have hlt := toNat_lt (b :: rest)
      have hcast : ((256 ^ (rest.length + 1) : Nat) : Int) = Nat.pow 256 (rest.length + 1) := rfl
      rw [List.length_cons] at hlt
      omega

theorem toNat_ofInt {n : Int} (h : 0 ≤ n) : (toNat (ofInt n) : Int) = n := by
  have hread := toInt_ofInt n
  have htop := topBit_ofInt h
  cases hbytes : ofInt n with
  | nil => exact absurd hbytes (ofInt_ne_nil n)
  | cons b rest =>
    rw [hbytes] at hread htop
    have hb : b &&& 0x80 = 0 := by simpa [Content.hasTopBit] using htop
    rwa [toInt, if_pos hb] at hread

end Bytes

namespace Content

def Shortest (content : Bytes) : Prop :=
  content ≠ [] ∧ ∀ first next rest, content = first :: next :: rest →
    (first = 0x00 → ¬(next &&& 0x80 = 0)) ∧ (first = 0xFF → next &&& 0x80 = 0)

def hasPad : Bytes → Bool
  | first :: _ :: _ => first == 0x00
  | _ => false

def magnitude (content : Bytes) : Bytes := content.drop (if hasPad content then 1 else 0)

theorem isPadded_shortest {content : Bytes} (h : Shortest content) (policy : IntegerPolicy) :
    isPadded content policy = .ok (hasPad content) := by
  obtain ⟨hne, hfirst⟩ := h
  match content, hne, hfirst with
  | [_], _, _ => rfl
  | first :: next :: rest, _, hfirst =>
    obtain ⟨hzero, hones⟩ := hfirst first next rest rfl
    unfold isPadded hasPad
    dsimp only
    by_cases hz : first = 0x00
    · rw [if_pos hz, if_neg fun hlow => hzero hz hlow.1]
      simp [hz]
    · rw [if_neg hz, if_neg fun hhigh => hhigh.2.1 (hones hhigh.1)]
      simp [hz]

theorem toNat_magnitude (content : Bytes) : (magnitude content).toNat = content.toNat := by
  unfold magnitude
  match content with
  | [] | [_] => rfl
  | first :: next :: rest =>
    by_cases hz : first = 0x00
    · simp [hasPad, hz, Bytes.toNat_cons]
    · simp [hasPad, hz]

theorem shortest_ofInt (n : Int) : Shortest (Bytes.ofInt n) :=
  ⟨Bytes.ofInt_ne_nil n, fun _ _ _ h => Bytes.ofInt_shortest h⟩

theorem Shortest.dropLast {init : Bytes} {b : UInt8} (h : Shortest (init ++ [b])) (hne : init ≠ []) :
    Shortest init := by
  refine ⟨hne, fun first next rest hinit => ?_⟩
  exact h.2 first next (rest ++ [b]) (by rw [hinit]; rfl)

theorem ofInt_toInt {raw : Bytes} (h : Shortest raw) : Bytes.ofInt raw.toInt = raw := by
  induction raw using List.reverseRecOn with
  | nil => exact absurd rfl h.1
  | append_singleton init b ih =>
    have hb := b.toNat_lt
    cases init with
    | nil =>
      have hvalue := Bytes.toInt_singleton b
      rw [List.nil_append]
      have hsmall : -128 ≤ Bytes.toInt [b] ∧ Bytes.toInt [b] < 128 := by
        rw [hvalue]
        split <;> omega
      have hlow : (Bytes.toInt [b] % 256).toNat = b.toNat := by
        rw [hvalue]
        split <;> omega
      rw [Bytes.ofInt_small hsmall, hlow, UInt8.ofNat_toNat]
    | cons c init =>
      have hinit := ih (h.dropLast (by simp))
      rw [Bytes.toInt_append (by simp)]
      generalize hhigh : Bytes.toInt (c :: init) = high at hinit ⊢
      -- a number of one octet in front of which another stands would not be the shortest
      have hlarge : ¬(-128 ≤ high * 256 + b.toNat ∧ high * 256 + b.toNat < 128) := by
        intro hsmall
        have hone : -128 ≤ high ∧ high < 128 := by omega
        rw [Bytes.ofInt_small hone] at hinit
        obtain ⟨rfl, rfl⟩ := List.cons.inj hinit
        obtain ⟨hzero, hones⟩ := h.2 _ b [] rfl
        rw [topBit_clear_iff] at hzero hones
        rcases (show high = 0 ∨ high = -1 by omega) with rfl | rfl
        · have := hzero rfl
          omega
        · have := hones rfl
          omega
      have hquotient : (high * 256 + b.toNat) / 256 = high := by omega
      have hlow : ((high * 256 + b.toNat) % 256).toNat = b.toNat := by omega
      rw [Bytes.ofInt_large hlarge, hquotient, hlow, hinit, UInt8.ofNat_toNat]

theorem shortest_of_isPadded {content : Bytes} {padded : Bool}
    (h : isPadded content .strict = .ok padded) : Shortest content := by
  match content, h with
  | [_], _ => exact ⟨by simp, fun _ _ _ heq => by simp at heq⟩
  | first :: next :: rest, h =>
    refine ⟨by simp, fun a b more heq => ?_⟩
    obtain ⟨rfl, htail⟩ := List.cons.inj heq
    obtain ⟨rfl, _⟩ := List.cons.inj htail
    unfold isPadded at h
    dsimp only at h
    constructor
    · intro hzero hlow
      rw [if_pos hzero, if_pos ⟨hlow, rfl⟩] at h
      cases h
    · rintro rfl
      by_contra hhigh
      rw [if_neg (by decide), if_pos ⟨rfl, hhigh, rfl⟩] at h
      cases h

theorem shortest_padded {data : Bytes} (h : ∃ first rest, data = first :: rest ∧
    (first = 0x00 → rest = [])) :
    Shortest ((if hasTopBit data then [0x00] else []) ++ data) ∧
      magnitude ((if hasTopBit data then [0x00] else []) ++ data) = data ∧
      (hasPad ((if hasTopBit data then [0x00] else []) ++ data) = hasTopBit data) := by
  obtain ⟨first, rest, rfl, hzero⟩ := h
  by_cases htop : first &&& 0x80 = 0
  · have hclear : hasTopBit (first :: rest) = false := by simp [hasTopBit, htop]
    rw [hclear]
    simp only [Bool.false_eq_true, if_false, List.nil_append]
    have hpad : hasPad (first :: rest) = false := by
      cases rest with
      | nil => rfl
      | cons next rest =>
        have hne : first ≠ 0x00 := fun hz => by simpa using hzero hz
        simp [hasPad, hne]
    refine ⟨⟨by simp, fun a b more heq => ?_⟩, by simp [magnitude, hpad], hpad⟩
    obtain ⟨rfl, rfl⟩ := List.cons.inj heq
    exact ⟨fun hz => by simpa using hzero hz, fun hones => by rw [hones] at htop; cases htop⟩
  · have hset : hasTopBit (first :: rest) = true := by simp [hasTopBit, htop]
    rw [hset]
    simp only [if_true, List.singleton_append]
    refine ⟨⟨by simp, fun a b more heq => ?_⟩, rfl, rfl⟩
    obtain ⟨rfl, hrest⟩ := List.cons.inj (List.cons.inj heq).2
    obtain rfl : 0x00 = a := (List.cons.inj heq).1
    exact ⟨fun _ => htop, fun hones => by cases hones⟩

theorem ofNat_octetCount (n : Nat) : ∃ first rest, Bytes.ofNat (octetCount n) n = first :: rest ∧
    (first = 0x00 → rest = []) ∧ first.toNat = n / 256 ^ (octetCount n - 1) % 256 := by
  have hpos := octetCount_pos n
  obtain ⟨width, hwidth⟩ : ∃ width, octetCount n = width + 1 := ⟨octetCount n - 1, by omega⟩
  have hdigit : (UInt8.ofNat (n / 256 ^ width % 256)).toNat = n / 256 ^ width % 256 := by
    rw [UInt8.toNat_ofNat']
    omega
  rw [hwidth, Bytes.ofNat_succ_high, Nat.add_sub_cancel]
  refine ⟨_, _, rfl, fun hzero => ?_, hdigit⟩
  rw [hzero] at hdigit
  cases width with
  | zero => rfl
  | succ width =>
    exfalso
    have hlarge : 256 ^ (width + 1) ≤ n := by
      have hnot : ¬octetCount n ≤ width + 1 := by omega
      rw [octetCount_le_iff] at hnot
      omega
    have hsmall : n < 256 ^ (width + 1 + 1) := hwidth ▸ lt_pow_octetCount n
    have hquotient : n / 256 ^ (width + 1) < 256 := by
      rw [Nat.div_lt_iff_lt_mul (Nat.pow_pos (by decide)), Nat.mul_comm, ← Nat.pow_succ]
      exact hsmall
    have hquotientPos : 1 ≤ n / 256 ^ (width + 1) :=
      (Nat.one_le_div_iff (Nat.pow_pos (by decide))).mpr hlarge
    have h00 : (0x00 : UInt8).toNat = 0 := rfl
    omega

theorem ofNat_unsignedSize (n : Nat) :
    Bytes.ofNat (unsignedSize n) n =
      (if hasTopBit (Bytes.ofNat (octetCount n) n) then [0x00] else []) ++
        Bytes.ofNat (octetCount n) n := by
  obtain ⟨first, rest, hbytes, _, hdigit⟩ := ofNat_octetCount n
  have htop : hasTopBit (Bytes.ofNat (octetCount n) n) =
      !decide (n / 256 ^ (octetCount n - 1) % 256 < 0x80) := by
    rw [hbytes, hasTopBit, ← hdigit, bne, Bool.beq_eq_decide_eq]
    exact congrArg _ (decide_eq_decide.mpr (topBit_clear_iff first))
  have hpow : Nat.pow 256 (octetCount n - 1) = 256 ^ (octetCount n - 1) := rfl
  rw [htop, unsignedSize, hpow]
  by_cases hlow : n / 256 ^ (octetCount n - 1) % 256 < 0x80
  · simp [hlow]
  · have hzero : n / 256 ^ octetCount n = 0 := Nat.div_eq_of_lt (lt_pow_octetCount n)
    rw [if_neg hlow, Bytes.ofNat_succ_high, hzero]
    simp [hlow]

theorem shortest_unsigned (n : Nat) :
    Shortest (Bytes.ofNat (unsignedSize n) n) ∧
      magnitude (Bytes.ofNat (unsignedSize n) n) = Bytes.ofNat (octetCount n) n := by
  obtain ⟨first, rest, hbytes, hzero, _⟩ := ofNat_octetCount n
  obtain ⟨hshort, hmagnitude, _⟩ := shortest_padded ⟨first, rest, hbytes, hzero⟩
  rw [ofNat_unsignedSize]
  exact ⟨hshort, hmagnitude⟩

end Content

end DerTemplate
