import DerTemplate.Proofs.Oid.Groups

namespace DerTemplate.Oid

def dottedText (arcs : List Nat) : String := ".".intercalate (arcs.map toString)

structure Encodable (root second : Nat) (more : List Nat) : Prop where
  root_le : root ≤ 2
  second_lt : root < 2 → second < 40
  first_fits : root = 2 → 80 + second < wordLimit
  words : ∀ arc ∈ root :: second :: more, arc < wordLimit

section Numerals

variable {c : Char} {cs field : List Char}

theorem exists_digitChar (h : c.isDigit = true) : ∃ digit < 10, c = Nat.digitChar digit := by
  have hrange : 48 ≤ c.toNat ∧ c.toNat ≤ 57 := Char.isDigit_iff_toNat.mp h
  refine ⟨c.toNat - 48, by omega, Char.toNat_inj.mp ?_⟩
  rw [Nat.toNat_digitChar_of_lt_ten (by omega)]
  omega

theorem numeralValue_eq (field : List Char) : numeralValue field = Nat.ofDigitChars 10 field 0 := by
  simp only [numeralValue, Nat.ofDigitChars_eq_foldl, Nat.mul_comm]

theorem numeralValue_toDigits (n : Nat) : numeralValue (Nat.toDigits 10 n) = n := by
  rw [numeralValue_eq, Nat.ofDigitChars_ten_toDigits]

theorem toDigits_ofDigitChars {n : Nat} (hpos : 0 < n) (hdigits : ∀ c ∈ cs, c.isDigit = true) :
    Nat.toDigits 10 (Nat.ofDigitChars 10 cs n) = Nat.toDigits 10 n ++ cs := by
  induction cs generalizing n with
  | nil => simp
  | cons c cs ih =>
    obtain ⟨hdigit, hrest⟩ := List.forall_mem_cons.mp hdigits
    obtain ⟨digit, hlt, rfl⟩ := exists_digitChar hdigit
    rw [Nat.ofDigitChars_cons_digitChar_of_lt_ten hlt, ih (by omega) hrest,
      ← Nat.toDigits_append_toDigits (by decide) hpos hlt, Nat.toDigits_of_lt_base hlt]
    simp

theorem toDigits_numeralValue (h : isNumeral field = true) :
    Nat.toDigits 10 (numeralValue field) = field := by
  rw [numeralValue_eq]
  cases field with
  | nil => cases h
  | cons c cs =>
    obtain ⟨hdigits, hlead⟩ : (∀ c' ∈ c :: cs, c'.isDigit = true) ∧ (c ≠ '0' ∨ cs = []) := by
      simpa [isNumeral] using h
    obtain ⟨hdigit, hrest⟩ := List.forall_mem_cons.mp hdigits
    obtain ⟨digit, hlt, rfl⟩ := exists_digitChar hdigit
    rw [Nat.ofDigitChars_cons_digitChar_of_lt_ten hlt]
    rcases hlead with hlead | rfl
    · have hpos : 0 < digit := Nat.pos_of_ne_zero fun hzero => hlead (by rw [hzero]; rfl)
      rw [toDigits_ofDigitChars (by omega) hrest, Nat.mul_zero, Nat.zero_add,
        Nat.toDigits_of_lt_base hlt]
      rfl
    · rw [Nat.ofDigitChars_nil, Nat.mul_zero, Nat.zero_add, Nat.toDigits_of_lt_base hlt]

theorem head_toDigits {n : Nat} (hpos : 0 < n) : (Nat.toDigits 10 n).head? ≠ some '0' := by
  induction n using Nat.base_induction 10 (by decide) with
  | single n hlt =>
    rw [Nat.toDigits_of_lt_base hlt]
    simp
    omega
  | digit n digit hlt hn ih =>
    obtain ⟨c, cs, hcons⟩ := List.exists_cons_of_ne_nil (Nat.toDigits_ne_nil (n := n) (b := 10))
    rw [← Nat.toDigits_append_toDigits (by decide) hn hlt, hcons]
    rw [hcons] at ih
    exact ih hn

theorem isNumeral_toDigits (n : Nat) : isNumeral (Nat.toDigits 10 n) = true := by
  have hdigits : (Nat.toDigits 10 n).all Char.isDigit = true :=
    List.all_eq_true.mpr fun c hmem => Nat.isDigit_of_mem_toDigits (by decide) (by decide) hmem
  rw [isNumeral, hdigits, Bool.true_and]
  rcases Nat.eq_zero_or_pos n with rfl | hpos
  · rfl
  · have hhead := head_toDigits hpos
    obtain ⟨c, cs, hcons⟩ := List.exists_cons_of_ne_nil (Nat.toDigits_ne_nil (n := n) (b := 10))
    rw [hcons] at hhead ⊢
    simp at hhead
    simp [hhead]

end Numerals

section Fields

variable {field cs : List Char} {l : List (List Char)}

theorem fields_ne_nil (cs : List Char) : fields cs ≠ [] := by
  cases cs with
  | nil => simp [fields]
  | cons c cs =>
    simp only [fields]
    split
    · simp
    · split <;> simp

theorem fields_cons (c : Char) (cs : List Char) :
    ∃ first more, fields cs = first :: more ∧
      fields (c :: cs) = if c = '.' then [] :: first :: more else (c :: first) :: more := by
  obtain ⟨first, more, hcons⟩ := List.exists_cons_of_ne_nil (fields_ne_nil cs)
  refine ⟨first, more, hcons, ?_⟩
  rw [fields, hcons]

theorem joinFields_fields (cs : List Char) : joinFields (fields cs) = cs := by
  induction cs with
  | nil => rfl
  | cons c cs ih =>
    obtain ⟨first, more, hcons, hstep⟩ := fields_cons c cs
    rw [hcons] at ih
    rw [hstep]
    split
    · rename_i hdot
      rw [hdot, joinFields, ih]
      · rfl
      · simp
    · cases more with
      | nil => rw [joinFields, ← ih]; rfl
      | cons second more => rw [← ih]; rfl

theorem fields_of_free (h : '.' ∉ field) : fields field = [field] := by
  induction field with
  | nil => rfl
  | cons c field ih =>
    obtain ⟨hdot, hrest⟩ := List.ne_and_not_mem_of_not_mem_cons h
    rw [fields, ih hrest]
    exact if_neg fun hsame => hdot hsame.symm

theorem fields_append (h : '.' ∉ field) (rest : List Char) :
    fields (field ++ '.' :: rest) = field :: fields rest := by
  induction field with
  | nil =>
    obtain ⟨first, more, hcons, hstep⟩ := fields_cons '.' rest
    rw [List.nil_append, hstep, if_pos rfl, hcons]
  | cons c field ih =>
    obtain ⟨hdot, hrest⟩ := List.ne_and_not_mem_of_not_mem_cons h
    rw [List.cons_append, fields, ih hrest]
    exact if_neg fun hsame => hdot hsame.symm

theorem fields_joinFields (hne : l ≠ []) (h : ∀ field ∈ l, '.' ∉ field) :
    fields (joinFields l) = l := by
  induction l with
  | nil => exact absurd rfl hne
  | cons field more ih =>
    obtain ⟨hfield, hmore⟩ := List.forall_mem_cons.mp h
    cases more with
    | nil => exact fields_of_free hfield
    | cons second more =>
      have hjoin : joinFields (field :: second :: more) =
          field ++ '.' :: joinFields (second :: more) := rfl
      rw [hjoin, fields_append hfield, ih (by simp) hmore]

theorem intercalate_eq_joinFields (l : List (List Char)) :
    List.intercalate ['.'] l = joinFields l := by
  induction l with
  | nil => rfl
  | cons field more ih =>
    cases more with
    | nil => exact List.intercalate_singleton
    | cons second more => rw [List.intercalate_cons_cons, ih]; simp [joinFields]

end Fields

section Text

variable {numbers : List Nat} {text : String}

theorem dot_not_mem_toDigits (n : Nat) : '.' ∉ Nat.toDigits 10 n := by
  intro hmem
  have hdigit := Nat.isDigit_of_mem_toDigits (by decide) (by decide) hmem
  cases hdigit

theorem toList_dottedText (numbers : List Nat) :
    (dottedText numbers).toList = joinFields (numbers.map (Nat.toDigits 10)) := by
  have hmap : (numbers.map toString).map String.toList = numbers.map (Nat.toDigits 10) := by
    simp [Function.comp_def]
  rw [dottedText, String.toList_intercalate, hmap, ← intercalate_eq_joinFields]
  rfl

theorem fields_eq_iff (hne : numbers ≠ []) :
    fields text.toList = numbers.map (Nat.toDigits 10) ↔ text = dottedText numbers := by
  constructor
  · intro h
    rw [← String.toList_inj, toList_dottedText, ← h, joinFields_fields]
  · rintro rfl
    have hfree : ∀ field ∈ numbers.map (Nat.toDigits 10), '.' ∉ field :=
      List.forall_mem_map.mpr fun n _ => dot_not_mem_toDigits n
    rw [toList_dottedText, fields_joinFields (by simpa using hne) hfree]

theorem map_toDigits_numeralValue {l : List (List Char)} (h : ∀ field ∈ l, isNumeral field = true) :
    (l.map numeralValue).map (Nat.toDigits 10) = l := by
  rw [List.map_map]
  exact (List.map_congr_left fun field hmem => toDigits_numeralValue (h field hmem)).trans
    (List.map_id l)

theorem isDotted_iff {l : List (List Char)} :
    isDotted l = true ↔ ∃ root second more,
      root ≤ 2 ∧ l = (root :: second :: more).map (Nat.toDigits 10) := by
  constructor
  · intro h
    match l with
    | [] | [_] => cases h
    | first :: second :: more =>
      obtain ⟨hfirst, hrest⟩ := Bool.and_eq_true_iff.mp h
      have hroot : ∃ root ≤ 2, first = Nat.toDigits 10 root := by
        have hone : first = ['0'] ∨ first = ['1'] ∨ first = ['2'] := by simpa using hfirst
        rcases hone with rfl | rfl | rfl
        · exact ⟨0, by decide, rfl⟩
        · exact ⟨1, by decide, rfl⟩
        · exact ⟨2, by decide, rfl⟩
      obtain ⟨root, hle, rfl⟩ := hroot
      have hnumerals := map_toDigits_numeralValue (List.all_eq_true.mp hrest)
      exact ⟨root, _, _, hle, congrArg (_ :: ·) hnumerals.symm⟩
  · rintro ⟨root, second, more, hroot, rfl⟩
    have hfirst : [['0'], ['1'], ['2']].contains (Nat.toDigits 10 root) = true :=
      match root, hroot with
      | 0, _ | 1, _ | 2, _ => rfl
    have hrest : ((second :: more).map (Nat.toDigits 10)).all isNumeral = true := by
      simp [isNumeral_toDigits]
    exact Bool.and_eq_true_iff.mpr ⟨hfirst, hrest⟩

theorem readArc_toDigits (n : Nat) :
    readArc (Nat.toDigits 10 n) =
      if n < wordLimit then .ok n
      else refuse (.invalidEncoding (.oidArcTooLarge (toString n))) := by
  rw [readArc, numeralValue_toDigits]
  rfl

theorem mapM_readArc {found : List Nat} :
    (numbers.map (Nat.toDigits 10)).mapM readArc = .ok found ↔
      found = numbers ∧ ∀ n ∈ numbers, n < wordLimit := by
  induction numbers generalizing found with
  | nil =>
    constructor
    · rintro ⟨⟩
      exact ⟨rfl, nofun⟩
    · rintro ⟨rfl, _⟩
      rfl
  | cons n numbers ih =>
    rw [List.map_cons, List.mapM_cons, readArc_toDigits]
    constructor
    · intro h
      split at h
      · rename_i hlt
        rw [ok_bind] at h
        obtain ⟨more, hmore, hfound⟩ := bind_eq_ok_iff.mp h
        obtain ⟨rfl, hwords⟩ := ih.mp hmore
        obtain rfl := Except.ok.inj hfound
        exact ⟨rfl, List.forall_mem_cons.mpr ⟨hlt, hwords⟩⟩
      · cases h
    · rintro ⟨rfl, hwords⟩
      obtain ⟨hlt, hwords⟩ := List.forall_mem_cons.mp hwords
      rw [if_pos hlt, ok_bind, ih.mpr ⟨rfl, hwords⟩]
      rfl

end Text

section Arcs

variable {root second : Nat} {more : List Nat} {text : String} {content : Bytes}

theorem Encodable.first_lt (h : Encodable root second more) : root * 40 + second < wordLimit := by
  rcases Nat.lt_or_ge root 2 with hlt | hge
  · have hsecond := h.second_lt hlt
    rw [wordLimit]
    omega
  · obtain rfl : root = 2 := Nat.le_antisymm h.root_le hge
    exact h.first_fits rfl

def arcOctets (root second : Nat) (more : List Nat) : Bytes :=
  ((root * 40 + second) :: more).flatMap subidentifier

theorem ofDotted_eq_ok_iff :
    ofDotted text = .ok content ↔ ∃ root second more, Encodable root second more ∧
      text = dottedText (root :: second :: more) ∧ content = arcOctets root second more := by
  rw [ofDotted]
  constructor
  · intro h
    split at h
    · rename_i hdotted
      obtain ⟨root, second, more, hroot, hfields⟩ := isDotted_iff.mp hdotted
      obtain ⟨found, hfound, h⟩ := bind_eq_ok_iff.mp h
      rw [hfields] at hfound
      obtain ⟨rfl, hwords⟩ := mapM_readArc.mp hfound
      dsimp only at h
      split at h
      · cases h
      · rename_i hsecond
        split at h
        · cases h
        · rename_i hfirst
          obtain rfl := Except.ok.inj h
          have hsound : Encodable root second more :=
            ⟨hroot, fun hlt => by omega, fun htwo => by omega, hwords⟩
          exact ⟨root, second, more, hsound, (fields_eq_iff (by simp)).mp hfields, rfl⟩
    · cases h
  · rintro ⟨root, second, more, hsound, rfl, rfl⟩
    have hfields : fields (dottedText (root :: second :: more)).toList =
        (root :: second :: more).map (Nat.toDigits 10) := (fields_eq_iff (by simp)).mpr rfl
    have hdotted := isDotted_iff.mpr ⟨root, second, more, hsound.root_le, rfl⟩
    have hsecond : ¬(root < 2 ∧ 40 ≤ second) := fun h => by
      have := hsound.second_lt h.1
      omega
    rw [hfields, if_pos hdotted, mapM_readArc.mpr ⟨rfl, hsound.words⟩, ok_bind]
    dsimp only
    rw [if_neg hsecond, if_neg (Nat.not_le.mpr hsound.first_lt)]
    rfl

theorem arcs_first (hsound : Encodable root second more) :
    arcs ((root * 40 + second) :: more) = root :: second :: more := by
  have hroot := hsound.root_le
  have hsecond := hsound.second_lt
  rw [arcs]
  obtain rfl | rfl | rfl : root = 0 ∨ root = 1 ∨ root = 2 := by omega
  · rw [if_pos (by omega), Nat.zero_mul, Nat.zero_add]
  · rw [if_neg (by omega), if_pos (by omega), Nat.add_sub_cancel_left]
  · rw [if_neg (by omega), if_neg (by omega), Nat.add_sub_cancel_left]

theorem encodable_of_first (hroot : root ≤ 2) (hsecond : root < 2 → second < 40)
    (hfirst : root * 40 + second < wordLimit) (hmore : ∀ arc ∈ more, arc < wordLimit) :
    Encodable root second more where
  root_le := hroot
  second_lt := hsecond
  first_fits := fun htwo => by omega
  words := by
    have hword : 2 < wordLimit := by decide
    exact List.forall_mem_cons.mpr ⟨by omega, List.forall_mem_cons.mpr ⟨by omega, hmore⟩⟩

theorem exists_encodable {ids : List Nat} (hne : ids ≠ []) (hwords : ∀ id ∈ ids, id < wordLimit) :
    ∃ root second more, Encodable root second more ∧ ids = (root * 40 + second) :: more := by
  cases ids with
  | nil => exact absurd rfl hne
  | cons id more =>
    obtain ⟨hfirst, hmore⟩ := List.forall_mem_cons.mp hwords
    have hsplit : ∃ root second, root ≤ 2 ∧ (root < 2 → second < 40) ∧ root * 40 + second = id := by
      rcases Nat.lt_or_ge id 80 with hlow | hhigh
      · exact ⟨id / 40, id % 40, by omega, fun _ => by omega, by omega⟩
      · exact ⟨2, id - 80, by omega, fun _ => by omega, by omega⟩
    obtain ⟨root, second, hroot, hsecond, rfl⟩ := hsplit
    exact ⟨root, second, more, encodable_of_first hroot hsecond hfirst hmore, rfl⟩

theorem toDotted_eq_ok_iff :
    toDotted content = .ok text ↔ checkContent content = .ok () ∧
      (∀ id ∈ identifiers content, id < wordLimit) ∧
      text = dottedText (arcs (identifiers content)) := by
  have hjoin (numbers : List Nat) :
      String.ofList (joinFields (numbers.map (Nat.toDigits 10))) = dottedText numbers := by
    rw [← toList_dottedText, String.ofList_toList]
  cases hcheck : checkContent content with
  | error failure =>
    rw [toDotted, hcheck]
    exact iff_of_false nofun nofun
  | ok _ =>
    rw [toDotted, hcheck, ok_bind, subidentifiers_content hcheck]
    constructor
    · intro h
      split at h
      · rename_i hwords
        rw [ok_bind, hjoin] at h
        exact ⟨rfl, hwords, (Except.ok.inj h).symm⟩
      · cases h
    · rintro ⟨_, hwords, rfl⟩
      rw [if_pos hwords, ok_bind, hjoin]
      rfl

theorem toDotted_eq_ok_iff_exists :
    toDotted content = .ok text ↔ ∃ root second more, Encodable root second more ∧
      text = dottedText (root :: second :: more) ∧ content = arcOctets root second more := by
  rw [toDotted_eq_ok_iff]
  constructor
  · rintro ⟨hcheck, hwords, rfl⟩
    obtain ⟨hne, hagain⟩ := checkContent_iff.mp hcheck
    have hids : identifiers content ≠ [] := fun hnone => hne (by rw [← hagain, hnone]; rfl)
    obtain ⟨root, second, more, hsound, heq⟩ := exists_encodable hids hwords
    refine ⟨root, second, more, hsound, ?_, ?_⟩
    · rw [heq, arcs_first hsound]
    · rw [arcOctets, ← heq, hagain]
  · rintro ⟨root, second, more, hsound, rfl, rfl⟩
    have hids := identifiers_flatMap ((root * 40 + second) :: more)
    have hmore : ∀ arc ∈ more, arc < wordLimit := fun arc hmem =>
      hsound.words arc (List.mem_cons_of_mem _ (List.mem_cons_of_mem _ hmem))
    rw [arcOctets, hids, arcs_first hsound]
    exact ⟨checkContent_flatMap (by simp), List.forall_mem_cons.mpr ⟨hsound.first_lt, hmore⟩, rfl⟩

theorem dotted_bijection :
    (∀ text, (∃ content, ofDotted text = .ok content) ↔
      ∃ root second more, Encodable root second more ∧
        text = dottedText (root :: second :: more)) ∧
    (∀ content, (∃ text, toDotted content = .ok text) ↔
      checkContent content = .ok () ∧ ∀ id ∈ identifiers content, id < wordLimit) ∧
    ∀ text content, ofDotted text = .ok content ↔ toDotted content = .ok text := by
  refine ⟨fun text => ?_, fun content => ?_, fun text content => ?_⟩
  · constructor
    · rintro ⟨content, h⟩
      obtain ⟨root, second, more, hsound, htext, _⟩ := ofDotted_eq_ok_iff.mp h
      exact ⟨root, second, more, hsound, htext⟩
    · rintro ⟨root, second, more, hsound, htext⟩
      exact ⟨_, ofDotted_eq_ok_iff.mpr ⟨root, second, more, hsound, htext, rfl⟩⟩
  · constructor
    · rintro ⟨text, h⟩
      obtain ⟨hcheck, hwords, _⟩ := toDotted_eq_ok_iff.mp h
      exact ⟨hcheck, hwords⟩
    · rintro ⟨hcheck, hwords⟩
      exact ⟨_, toDotted_eq_ok_iff.mpr ⟨hcheck, hwords, rfl⟩⟩
  · rw [ofDotted_eq_ok_iff, toDotted_eq_ok_iff_exists]

-- A second arc of 40 or more goes with the root 2 only.
example : ofDotted "2.999.3" = .ok [0x88, 0x37, 0x03] := by cbv

end Arcs

end DerTemplate.Oid
