import DerTemplate.Proofs.Decoding.Leaf
import DerTemplate.Proofs.Decoding.Safety
import DerTemplate.Proofs.Oid.Known

namespace DerTemplate

namespace Oid

def total : Bytes → Nat
  | [] => 0
  | b :: rest => b.toNat + total rest

theorem foldl_total (content : Bytes) (n : Nat) :
    content.foldl (fun n b => n + b.toNat) n = n + total content := by
  induction content generalizing n with
  | nil => rfl
  | cons b rest ih =>
    rw [List.foldl_cons, ih, Nat.add_assoc]
    rfl

theorem octetSum_total (content : Bytes) :
    octetSum content = if total content < 2 ^ 32 then .ok (total content) else fault := by
  rw [octetSum, foldl_total, Nat.zero_add]
  rfl

theorem total_le (content : Bytes) : total content ≤ 255 * content.length := by
  have hfold := foldl_octets_le content 0
  rwa [foldl_total, Nat.zero_add, Nat.zero_add] at hfold

theorem total_der {category : Category} {known : Known} (h : known ∈ category.table) :
    total known.der = known.sum ∧ total known.der < 2 ^ 32 := by
  have hsum := (table_sound category known h).1
  rw [octetSum_total] at hsum
  split at hsum
  · rename_i hlt
    exact ⟨Except.ok.inj hsum, hlt⟩
  · cases hsum

theorem verify_total {content : Bytes} (h : total content < 2 ^ 32) (category : Category) :
    category.verify (total content) content =
      if category ≠ .ignore ∧ ∀ known ∈ category.table, known.der ≠ content then
        refuse (.unknownOid category (total content))
      else .ok () := by
  have hknown : (category.known? (total content) content).isSome = true ↔
      ∃ known ∈ category.table, known.der = content := by
    rw [Category.known?, List.find?_isSome]
    constructor
    · rintro ⟨known, hmem, hsame⟩
      exact ⟨known, hmem, beq_iff_eq.mp (Bool.and_eq_true_iff.mp hsame).2⟩
    · rintro ⟨known, hmem, rfl⟩
      exact ⟨known, hmem, by simpa using (total_der hmem).1.symm⟩
  unfold Category.verify
  by_cases hignore : category = .ignore
  · rw [if_pos (.inl hignore), if_neg fun hunknown => hunknown.1 hignore]
  · by_cases hlisted : ∃ known ∈ category.table, known.der = content
    · rw [if_pos (.inr (hknown.mpr hlisted)), if_neg]
      rintro ⟨_, hnone⟩
      obtain ⟨known, hmem, hsame⟩ := hlisted
      exact hnone known hmem hsame
    · rw [if_neg fun hfound => hfound.elim hignore fun h => hlisted (hknown.mp h), if_pos]
      exact ⟨hignore, fun known hmem hsame => hlisted ⟨known, hmem, hsame⟩⟩

def ones (n : Nat) : Bytes := List.replicate n 0xFF ++ [0x7F]

theorem length_ones (n : Nat) : (ones n).length = n + 1 := by
  rw [ones, List.length_append, List.length_replicate, List.length_singleton]

theorem checkContent_ones (n : Nat) : checkContent (ones n) = .ok () := by
  have hgroups (atStart : Bool) : checkGroups atStart (ones n) = .ok () := by
    induction n generalizing atStart with
    | zero => cases atStart <;> rfl
    | succ n ih =>
      rw [ones, List.replicate_succ, List.cons_append, checkGroups, if_neg fun h => nomatch h.2]
      exact ih _
  have hne : ones n ≠ [] := List.length_pos_iff.mp (by rw [length_ones]; exact Nat.succ_pos n)
  rw [checkContent, if_neg hne, hgroups]

theorem total_ones (n : Nat) : total (ones n) = 255 * n + 127 := by
  induction n with
  | zero => rfl
  | succ n ih =>
    have hstep : total (ones (n + 1)) = 255 + total (ones n) := rfl
    rw [hstep, ih]
    omega

end Oid

namespace Decoding

open Header

variable {options : Options} {input : Bytes} {item : Item} {index : Nat}

def Value.Summed : Value → Prop
  | .oid sum content => sum = Oid.total content ∧ sum < 2 ^ 32
  | _ => True

theorem blank_summed (destination : Destination) : destination.blank.Summed := by
  cases destination with
  | oid category => exact ⟨rfl, by decide⟩
  | none | content | choice | uint8 | uint16 | uint32 | integer | expect | bounded => trivial

theorem readOid_eq_ok {category : Oid.Category} {value : Value}
    (h : readOid options category item = .ok value) :
    value = .oid (Oid.total item.content) item.content ∧ Oid.total item.content < 2 ^ 32 := by
  obtain ⟨_, _, h⟩ := bind_eq_ok_iff.mp h
  obtain ⟨sum, hsum, h⟩ := bind_eq_ok_iff.mp h
  obtain ⟨_, _, h⟩ := bind_eq_ok_iff.mp h
  rw [Oid.octetSum_total] at hsum
  split at hsum
  · rename_i hlt
    cases hsum
    exact ⟨(Except.ok.inj h).symm, hlt⟩
  · cases hsum

theorem readValue_summed {destination : Destination} {value : Value}
    (h : readValue options destination item index = .ok value) : value.Summed := by
  unfold readValue at h
  cases destination with
  | none | content | choice =>
    cases h
    trivial
  | uint8 | uint16 | uint32 | integer =>
    obtain ⟨_, _, rfl⟩ := Outcome.map_eq_ok_iff.mp h
    trivial
  | oid category =>
    obtain ⟨rfl, hlt⟩ := readOid_eq_ok h
    exact ⟨rfl, hlt⟩
  | expect | bounded =>
    dsimp only at h
    split at h <;> cases h
    trivial

theorem readContent_summed {entry : Entry} {destination : Destination} {value : Value}
    (h : readContent options entry destination item index = .ok value) : value.Summed := by
  unfold readContent at h
  split at h
  · unfold readHeader at h
    split at h <;> cases h <;> trivial
  · exact readValue_summed h

theorem summed_of_descends {forest : Forest Slot} {stop : Nat} {more : Bool} {met : Option Nat}
    {pos reached : Nat} {slots : List Slot}
    (h : Descends options input forest index stop more met pos slots reached)
    (hforest : ∀ slot ∈ forest.slots, slot.value.Summed) : ∀ slot ∈ slots, slot.value.Summed := by
  have hread {entry : Entry} {destination : Destination} {start bound i : Nat} {tag : Tag}
      {read : Slot} {item : Item}
      (hread : readItem options entry destination input start bound tag i = .ok (read, item)) :
      read.value.Summed := by
    obtain ⟨_, _, _, value, _, _, _, _, _, hvalue, rfl⟩ := readItem_eq_ok_iff.mp hread
    exact readContent_summed hvalue
  induction h with
  | nil => exact hforest
  | passed _ _ _ ih =>
    simp only [Forest.slots, List.forall_mem_cons, List.forall_mem_append, List.forall_mem_map]
      at hforest ⊢
    exact ⟨hforest.1, hforest.2.1, ih hforest.2.2⟩
  | leaf _ hitem _ _ ih =>
    simp only [Forest.slots, List.forall_mem_cons, List.forall_mem_append] at hforest ⊢
    exact ⟨hread hitem, hforest.2.1, ih hforest.2.2⟩
  | header _ hitem _ _ _ _ ihInner ihNext =>
    simp only [Forest.slots, List.forall_mem_cons, List.forall_mem_append] at hforest ⊢
    exact ⟨hread hitem, ihInner hforest.2.1, ihNext hforest.2.2⟩

theorem summed_of_decode {session found : Session} {schema : Schema} {complete : Bool}
    {maxIndex : Nat} (hinput : input.length < wordLimit)
    (h : session.decode options schema input complete maxIndex = .ok found) :
    ∀ value ∈ found.values, value.Summed := by
  obtain ⟨hcheck, hdescend, _⟩ := (decode_eq_ok_iff hinput).mp h
  obtain ⟨hvalid, hlength⟩ := check_eq_ok hcheck
  have hforest : ∀ slot ∈ (Forest.plant schema (session.slots.map Slot.clear)).slots,
      slot.value.Summed := by
    rw [Forest.slots_plant (by rw [List.length_map, hlength])]
    exact List.forall_mem_map.mpr fun slot _ => blank_summed slot.destination
  exact List.forall_mem_map.mpr (summed_of_descends (descends_of_descend hdescend) hforest)

theorem readOid_total {category : Oid.Category} (htag : item.tag = Tag.objectIdentifier)
    (hcontent : Oid.checkContent item.content = .ok ()) :
    readOid options category item =
      if 2 ^ 32 ≤ Oid.total item.content then fault
      else if options.verifyOids = true ∧ category ≠ .ignore ∧
          ∀ known ∈ category.table, known.der ≠ item.content then
        refuse (.unknownOid category (Oid.total item.content))
      else .ok (.oid (Oid.total item.content) item.content) := by
  rw [readOid, if_pos htag, hcontent, ok_bind, Oid.octetSum_total]
  split
  · rename_i hlt
    rw [if_neg (Nat.not_le.mpr hlt), ok_bind, Oid.verify_total hlt]
    cases options.verifyOids with
    | false => rfl
    | true =>
      rw [if_pos rfl]
      simp only [true_and]
      split <;> rfl
  · rename_i hlarge
    rw [if_pos (Nat.not_lt.mp hlarge)]
    rfl

theorem values_oid {entry : Entry} {content : Bytes} (options : Options) (category : Oid.Category)
    (hvalid : Schema.validate [entry] = .ok ()) (hleaf : entry.headerOnly = false)
    (htag : entry.wireTag = Tag.objectIdentifier) (hcontent : Oid.checkContent content = .ok ())
    (hlimit : 1 + lengthSize content.length + content.length < lengthLimit) :
    Session.values <$> (readLeaf entry (.oid category) options content).outcome =
      if 2 ^ 32 ≤ Oid.total content then fault
      else if options.verifyOids = true ∧ category ≠ .ignore ∧
          ∀ known ∈ category.table, known.der ≠ content then
        refuse (.unknownOid category (Oid.total content))
      else .ok [.oid (Oid.total content) content] := by
  have hchoice (tags : List Tag) : Destination.oid category ≠ .choice tags := nofun
  have hlead : Lead.ofContent options.integerPolicy entry.wireTag content = .ok .absent := by
    rw [htag]
    rfl
  have hbehind : (Item.holding entry.wireTag 0 (lengthOctets content.length) content .absent).content =
      content := rfl
  rw [values_readLeaf options hvalid hleaf hchoice hlimit, hlead, ok_bind, readValue,
    readOid_total htag hcontent, hbehind]
  by_cases hlarge : 2 ^ 32 ≤ Oid.total content
  · rw [if_pos hlarge, if_pos hlarge]
    rfl
  · rw [if_neg hlarge, if_neg hlarge]
    split <;> rfl

theorem decode_oid_sum {entry : Entry} {content : Bytes} (options : Options)
    (category : Oid.Category) (hvalid : Schema.validate [entry] = .ok ())
    (hleaf : entry.headerOnly = false) (htag : entry.wireTag = Tag.objectIdentifier)
    (hcontent : Oid.checkContent content = .ok ())
    (hlimit : 1 + lengthSize content.length + content.length < lengthLimit) :
    (content.length ≤ 16843009 → Oid.total content < 2 ^ 32) ∧
      Session.values <$> (readLeaf entry (.oid category) options content).outcome =
        if 2 ^ 32 ≤ Oid.total content then fault
        else if options.verifyOids = true ∧ category ≠ .ignore ∧
            ∀ known ∈ category.table, known.der ≠ content then
          refuse (.unknownOid category (Oid.total content))
        else .ok [.oid (Oid.total content) content] := by
  refine ⟨fun hshort => ?_, values_oid options category hvalid hleaf htag hcontent hlimit⟩
  have hbound := Oid.total_le content
  omega

theorem decode_oid_sum_sha1 :
    Session.values <$> (readLeaf (.leaf 0 Tag.objectIdentifier) (.oid .hash) .strict
        [0x2B, 0x0E, 0x03, 0x02, 0x1A]).outcome =
      .ok [.oid 88 [0x2B, 0x0E, 0x03, 0x02, 0x1A]] :=
  (decode_oid_sum .strict .hash rfl rfl rfl rfl (by decide)).2.trans (by decide)

theorem sum_fault :
    Oid.checkContent (Oid.ones 16843009) = .ok () ∧ (Oid.ones 16843009).length = 16843010 ∧
      Session.values <$> (readLeaf (.leaf 0 Tag.objectIdentifier) (.oid .hash) .strict
        (Oid.ones 16843009)).outcome = fault := by
  have hcontent := Oid.checkContent_ones 16843009
  have hlength := Oid.length_ones 16843009
  have htotal := Oid.total_ones 16843009
  have hlimit : 1 + lengthSize (Oid.ones 16843009).length + (Oid.ones 16843009).length <
      lengthLimit := by
    have hword : (Oid.ones 16843009).length < wordLimit := by
      rw [hlength]
      decide
    have hnine := lengthSize_le_nine hword
    rw [lengthLimit]
    omega
  refine ⟨hcontent, hlength, ?_⟩
  rw [values_oid .strict .hash rfl rfl rfl hcontent hlimit, htotal, if_pos (by decide)]

end Decoding

end DerTemplate
