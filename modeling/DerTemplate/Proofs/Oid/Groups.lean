import DerTemplate.Oid.Dotted
import DerTemplate.Proofs.Bytes.Digits
import DerTemplate.Proofs.Outcome

namespace DerTemplate.Oid

/-- The numbers that `content` spells in base 128, the first of them begun with `value`. What is
left of a number at the end counts for nothing. -/
def identifiersFrom (value : Nat) : Bytes → List Nat
  | [] => []
  | b :: rest =>
    if b.toNat < 128 then (value * 128 + b.toNat) :: identifiersFrom 0 rest
    else identifiersFrom (value * 128 + (b.toNat - 128)) rest

def identifiers (content : Bytes) : List Nat := identifiersFrom 0 content

variable {b : UInt8} {content : Bytes} {n : Nat}

theorem identifiersFrom_last (h : b.toNat < 128) (value : Nat) (rest : Bytes) :
    identifiersFrom value (b :: rest) = (value * 128 + b.toNat) :: identifiersFrom 0 rest :=
  if_pos h

theorem identifiersFrom_more (h : 128 ≤ b.toNat) (value : Nat) (rest : Bytes) :
    identifiersFrom value (b :: rest) = identifiersFrom (value * 128 + (b.toNat - 128)) rest :=
  if_neg (Nat.not_lt.mpr h)

theorem checkGroups_last (h : b.toNat < 128) (atStart : Bool) (rest : Bytes) :
    checkGroups atStart (b :: rest) = checkGroups true rest := by
  have hlead : b ≠ 0x80 := by
    rintro rfl
    exact absurd h (by decide)
  rw [checkGroups, if_neg fun hstart => hlead hstart.2, (topBit_clear_iff b).mpr h]
  rfl

theorem checkGroups_more (h : 128 ≤ b.toNat) {atStart : Bool} (hlead : atStart = true → b ≠ 0x80)
    (rest : Bytes) : checkGroups atStart (b :: rest) = checkGroups false rest := by
  have htop : (b &&& 0x80 == 0) = false := beq_eq_false_iff_ne.mpr (topBit_set h)
  rw [checkGroups, if_neg fun hstart => hlead hstart.1 hstart.2, htop]

theorem subidentifiers_last (h : b.toNat < 128) (value : Nat) (rest : Bytes) :
    subidentifiers value (b :: rest) =
      if wordLimit ≤ value * 128 then refuse (.invalidEncoding .oidOverflow)
      else ((value * 128 + b.toNat) :: ·) <$> subidentifiers 0 rest := by
  rw [subidentifiers, if_pos ((topBit_clear_iff b).mpr h)]
  rfl

theorem subidentifiers_more (h : 128 ≤ b.toNat) (value : Nat) (rest : Bytes) :
    subidentifiers value (b :: rest) =
      if wordLimit ≤ value * 128 then refuse (.invalidEncoding .oidOverflow)
      else subidentifiers (value * 128 + (b.toNat - 128)) rest := by
  have hlt := b.toNat_lt
  have hlow : (b &&& 0x7F).toNat = b.toNat - 128 := by
    rw [lowBits_toNat]
    omega
  rw [subidentifiers, if_neg (topBit_set h), hlow]

theorem groupsBefore_zero (rest : Bytes) : groupsBefore 0 rest = rest := by
  rw [groupsBefore, if_pos rfl]

theorem groupsBefore_append (n : Nat) (front rest : Bytes) :
    groupsBefore n front ++ rest = groupsBefore n (front ++ rest) := by
  fun_induction groupsBefore n front with
  | case1 => rw [groupsBefore_zero]
  | case2 n front hne ih => rw [ih, groupsBefore.eq_def n, if_neg hne, List.cons_append]

theorem subidentifier_append (n : Nat) (rest : Bytes) :
    subidentifier n ++ rest = groupsBefore (n / 128) (UInt8.ofNat (n % 128) :: rest) :=
  groupsBefore_append _ _ _

theorem toNat_last (n : Nat) : (UInt8.ofNat (n % 128)).toNat = n % 128 :=
  UInt8.toNat_ofNat_of_lt' (show n % 128 < 256 by omega)

theorem toNat_more (n : Nat) : (UInt8.ofNat (n % 128 + 128)).toNat = n % 128 + 128 :=
  UInt8.toNat_ofNat_of_lt' (show n % 128 + 128 < 256 by omega)

theorem checkGroups_groupsBefore (n : Nat) (rest : Bytes) :
    checkGroups true (groupsBefore n rest) = checkGroups (n == 0) rest := by
  fun_induction groupsBefore n rest with
  | case1 => rfl
  | case2 n rest hne ih =>
    have hgroup := toNat_more n
    rw [ih, checkGroups_more (by omega), beq_eq_false_iff_ne.mpr hne]
    -- Were the first group zero, there would be no number.
    intro hfirst hlead
    have hzero : n / 128 = 0 := beq_iff_eq.mp hfirst
    have hnone : n % 128 + 128 = 128 := by rw [← hgroup, hlead]; rfl
    omega

theorem identifiersFrom_groupsBefore (n : Nat) (rest : Bytes) :
    identifiersFrom 0 (groupsBefore n rest) = identifiersFrom n rest := by
  fun_induction groupsBefore n rest with
  | case1 => rfl
  | case2 n rest hne ih =>
    have hgroup := toNat_more n
    rw [ih, identifiersFrom_more (by omega), hgroup, Nat.add_sub_cancel, Nat.mul_comm,
      Nat.div_add_mod]

theorem checkGroups_subidentifier (n : Nat) (rest : Bytes) :
    checkGroups true (subidentifier n ++ rest) = checkGroups true rest := by
  have hgroup := toNat_last n
  rw [subidentifier_append, checkGroups_groupsBefore, checkGroups_last (by omega)]

theorem identifiersFrom_subidentifier (n : Nat) (rest : Bytes) :
    identifiersFrom 0 (subidentifier n ++ rest) = n :: identifiersFrom 0 rest := by
  have hgroup := toNat_last n
  rw [subidentifier_append, identifiersFrom_groupsBefore, identifiersFrom_last (by omega), hgroup,
    Nat.mul_comm, Nat.div_add_mod]

theorem identifiers_flatMap (ids : List Nat) : identifiers (ids.flatMap subidentifier) = ids := by
  rw [identifiers]
  induction ids with
  | nil => rfl
  | cons id ids ih => rw [List.flatMap_cons, identifiersFrom_subidentifier, ih]

theorem checkContent_flatMap {ids : List Nat} (h : ids ≠ []) :
    checkContent (ids.flatMap subidentifier) = .ok () := by
  have hgroups : checkGroups true (ids.flatMap subidentifier) = .ok () := by
    clear h
    induction ids with
    | nil => rfl
    | cons id ids ih => rw [List.flatMap_cons, checkGroups_subidentifier, ih]
  have hne : ids.flatMap subidentifier ≠ [] := by
    intro hnil
    have hread := identifiers_flatMap ids
    rw [hnil] at hread
    exact h hread.symm
  rw [checkContent, if_neg hne, hgroups]

theorem subidentifier_last (h : b.toNat < 128) (n : Nat) (rest : Bytes) :
    subidentifier (n * 128 + b.toNat) ++ rest = groupsBefore n (b :: rest) := by
  have hdiv : (n * 128 + b.toNat) / 128 = n := by omega
  have hmod : (n * 128 + b.toNat) % 128 = b.toNat := by omega
  rw [subidentifier_append, hdiv, hmod, UInt8.ofNat_toNat]

theorem groupsBefore_more (h : 128 ≤ b.toNat) (hne : n * 128 + (b.toNat - 128) ≠ 0)
    (rest : Bytes) :
    groupsBefore (n * 128 + (b.toNat - 128)) rest = groupsBefore n (b :: rest) := by
  have hlt := b.toNat_lt
  have hdiv : (n * 128 + (b.toNat - 128)) / 128 = n := by omega
  have hmod : (n * 128 + (b.toNat - 128)) % 128 + 128 = b.toNat := by omega
  rw [groupsBefore.eq_def (n * 128 + _), if_neg hne, hdiv, hmod, UInt8.ofNat_toNat]

-- A number that goes on past its first group is not zero.
theorem under_way {value : Nat} (h : 128 ≤ b.toNat) {rest : Bytes}
    (hcheck : checkGroups (value == 0) (b :: rest) = .ok ()) :
    value * 128 + (b.toNat - 128) ≠ 0 ∧ checkGroups false rest = .ok () := by
  have hlead : (value == 0) = true → b ≠ 0x80 := by
    rintro hstart rfl
    rw [hstart] at hcheck
    cases hcheck
  rw [checkGroups_more h hlead] at hcheck
  refine ⟨fun hzero => ?_, hcheck⟩
  have hfirst : value = 0 := by omega
  have hgroup : b.toNat = (0x80 : UInt8).toNat := show b.toNat = 128 by omega
  exact hlead (beq_iff_eq.mpr hfirst) (UInt8.toNat_inj.mp hgroup)

theorem flatMap_identifiersFrom {value : Nat}
    (h : checkGroups (value == 0) content = .ok ()) :
    (identifiersFrom value content).flatMap subidentifier = groupsBefore value content := by
  induction content generalizing value with
  | nil =>
    cases value with
    | zero => rw [groupsBefore_zero]; rfl
    | succ value => cases h
  | cons b rest ih =>
    rcases Nat.lt_or_ge b.toNat 128 with hlast | hmore
    · have hrest : checkGroups (0 == 0) rest = .ok () := by rwa [checkGroups_last hlast] at h
      rw [identifiersFrom_last hlast, List.flatMap_cons, ih hrest, groupsBefore_zero,
        subidentifier_last hlast]
    · obtain ⟨hne, hrest⟩ := under_way hmore h
      rw [← beq_eq_false_iff_ne.mpr hne] at hrest
      rw [identifiersFrom_more hmore, ih hrest, groupsBefore_more hmore hne]

theorem checkContent_eq_ok (h : checkContent content = .ok ()) :
    content ≠ [] ∧ checkGroups (0 == 0) content = .ok () := by
  rw [checkContent] at h
  split at h
  · cases h
  · rename_i hne
    exact ⟨hne, h⟩

theorem checkContent_iff :
    checkContent content = .ok () ↔
      content ≠ [] ∧ (identifiers content).flatMap subidentifier = content := by
  constructor
  · intro h
    obtain ⟨hne, hgroups⟩ := checkContent_eq_ok h
    exact ⟨hne, (flatMap_identifiersFrom hgroups).trans (groupsBefore_zero content)⟩
  · rintro ⟨hne, hsame⟩
    rw [← hsame]
    refine checkContent_flatMap fun hnone => hne ?_
    rw [← hsame, hnone]
    rfl

theorem exists_ge_of_checkGroups {value : Nat} (h : checkGroups false content = .ok ()) :
    ∃ id ∈ identifiersFrom value content, value ≤ id := by
  induction content generalizing value with
  | nil => cases h
  | cons b rest ih =>
    rcases Nat.lt_or_ge b.toNat 128 with hlast | hmore
    · rw [identifiersFrom_last hlast]
      exact ⟨_, List.mem_cons_self, by omega⟩
    · have hlead : false = true → b ≠ 0x80 := nofun
      rw [checkGroups_more hmore hlead] at h
      obtain ⟨id, hmem, hle⟩ := ih h
      rw [identifiersFrom_more hmore]
      exact ⟨id, hmem, by omega⟩

theorem subidentifiers_eq {value : Nat} (h : checkGroups (value == 0) content = .ok ()) :
    subidentifiers value content =
      if ∀ id ∈ identifiersFrom value content, id < wordLimit then
        .ok (identifiersFrom value content)
      else refuse (.invalidEncoding .oidOverflow) := by
  induction content generalizing value with
  | nil => rfl
  | cons b rest ih =>
    have hword : wordLimit = 2 ^ 57 * 128 := rfl
    rcases Nat.lt_or_ge b.toNat 128 with hlast | hmore
    · have hrest : checkGroups (0 == 0) rest = .ok () := by rwa [checkGroups_last hlast] at h
      rw [subidentifiers_last hlast, ih hrest, identifiersFrom_last hlast]
      simp only [List.forall_mem_cons]
      by_cases hlarge : wordLimit ≤ value * 128
      · rw [if_pos hlarge, if_neg fun hall => by omega]
      · have hfits : value * 128 + b.toNat < wordLimit := by omega
        rw [if_neg hlarge]
        simp only [hfits, true_and]
        split <;> rfl
    · obtain ⟨hne, hrest⟩ := under_way hmore h
      rw [subidentifiers_more hmore, identifiersFrom_more hmore]
      by_cases hlarge : wordLimit ≤ value * 128
      · obtain ⟨id, hmem, hle⟩ := exists_ge_of_checkGroups hrest
        rw [if_pos hlarge, if_neg fun hall => by have := hall id hmem; omega]
      · rw [if_neg hlarge, ih]
        rwa [beq_eq_false_iff_ne.mpr hne]

theorem subidentifiers_content (h : checkContent content = .ok ()) :
    subidentifiers 0 content =
      if ∀ id ∈ identifiers content, id < wordLimit then .ok (identifiers content)
      else refuse (.invalidEncoding .oidOverflow) :=
  subidentifiers_eq (checkContent_eq_ok h).2

end DerTemplate.Oid
