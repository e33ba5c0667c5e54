import DerTemplate.Canonical.Ledger
import DerTemplate.Content.BitString
import DerTemplate.Proofs.Header.Identifier
import DerTemplate.Proofs.Header.Length

namespace DerTemplate.Canonical

open Header (Identifier IsLength lengthOctets lengthSize)

structure Fragment where
  length : Bytes
  content : Bytes

namespace Fragment

def octets (tag : Tag) (fragment : Fragment) : Bytes :=
  tag :: (fragment.length ++ fragment.content)

def join (tag : Tag) (fragments : List Fragment) : Bytes := fragments.flatMap (octets tag)

def Valid (bits : Bool) : List Fragment → Prop
  | [] => True
  | fragment :: rest =>
    IsLength fragment.length fragment.content.length ∧
      (bits = true → ∃ unused, Content.unusedBitCount fragment.content = .ok unused ∧
        (rest ≠ [] → unused = 0)) ∧ Valid bits rest

def leadSize (bits : Bool) : Nat := if bits then 1 else 0

def contents (bits : Bool) (fragments : List Fragment) : Bytes :=
  fragments.flatMap fun fragment => fragment.content.drop (leadSize bits)

def unused (bits : Bool) (fragments : List Fragment) : UInt8 :=
  if bits then (fragments.getLast?.elim 0 fun fragment => fragment.content.headD 0) else 0

def merged (bits : Bool) (fragments : List Fragment) : Bytes :=
  (if bits then [unused bits fragments] else []) ++ contents bits fragments

end Fragment

def isBits (identifier : Identifier) : Bool := identifier.first.base == Tag.bitString

/-- A sequence of BER items, each with the items after it. Without length octets, a length is of the
indefinite form. -/
inductive Ber where
  | nil
  | primitive (identifier : Identifier) (length content : Bytes) (next : Ber)
  | nested (identifier : Identifier) (length : Option Bytes) (inner next : Ber)
  | string (identifier : Identifier) (length : Option Bytes) (fragments : List Fragment)
    (next : Ber)

def opening (length : Option Bytes) : Bytes := length.getD [0x80]

def closing (length : Option Bytes) : Bytes := length.elim [0x00, 0x00] fun _ => []

def header (identifier : Identifier) (length : Option Bytes) : Bytes :=
  identifier.octets ++ opening length

def whole (identifier : Identifier) (length : Option Bytes) (content : Bytes) : Bytes :=
  header identifier length ++ (content ++ closing length)

def shortest (identifier content : Bytes) : Bytes :=
  identifier ++ (lengthOctets content.length ++ content)

def kept (length : Option Bytes) (content : Bool) (size : Nat) : Bool :=
  content && length.map List.length == some (lengthSize size)

section

variable (identifier : Identifier) (length : Option Bytes) (content : Bytes)

theorem length_header :
    (header identifier length).length = identifier.octets.length + (opening length).length :=
  List.length_append

theorem length_whole :
    (whole identifier length content).length =
      (header identifier length).length + content.length + (closing length).length := by
  rw [whole, List.length_append, List.length_append, Nat.add_assoc]

theorem length_shortest (tag : Bytes) :
    (shortest tag content).length = tag.length + lengthSize content.length + content.length := by
  rw [shortest, List.length_append, List.length_append, Header.length_lengthOctets, Nat.add_assoc]

theorem whole_definite (octets : Bytes) :
    whole identifier (some octets) content = identifier.octets ++ (octets ++ content) := by
  simp [whole, header, opening, closing]

theorem length_header_pos : 0 < (header identifier length).length := by
  rw [length_header, Identifier.length_octets]
  omega

variable {length}

theorem kept_eq_true {content : Bool} {size : Nat} (h : kept length content size = true) :
    content = true ∧ ∃ octets, length = some octets ∧ octets.length = lengthSize size := by
  obtain ⟨hcontent, hlength⟩ := Bool.and_eq_true_iff.mp h
  obtain ⟨octets, rfl, hsize⟩ := Option.map_eq_some_iff.mp (beq_iff_eq.mp hlength)
  exact ⟨hcontent, octets, rfl, hsize⟩

theorem length_opening_pos {size : Nat} (h : ∀ octets, length = some octets → IsLength octets size) :
    0 < (opening length).length := by
  cases length with
  | none => exact Nat.one_pos
  | some octets => exact List.length_pos_iff.mpr (Header.isLength_ne_nil (h octets rfl))

end

theorem Fragment.length_contents_le (tag : Tag) (bits : Bool) (fragments : List Fragment) :
    (contents bits fragments).length ≤ (join tag fragments).length := by
  induction fragments with
  | nil => exact Nat.le_refl 0
  | cons fragment rest ih =>
    rw [contents, join, List.flatMap_cons, List.flatMap_cons, List.length_append,
      List.length_append, List.length_drop, octets, List.length_cons, List.length_append]
    rw [contents, join] at ih
    omega

theorem Fragment.length_merged (bits : Bool) (fragments : List Fragment) :
    (merged bits fragments).length = leadSize bits + (contents bits fragments).length := by
  rw [merged, List.length_append]
  cases bits <;> rfl

theorem Fragment.leadSize_le_one (bits : Bool) : leadSize bits ≤ 1 := by
  unfold leadSize
  split <;> omega

theorem Fragment.leadSize_le {bits : Bool} {content : Bytes}
    (h : bits = true → ∃ unused, Content.unusedBitCount content = .ok unused) :
    leadSize bits ≤ content.length := by
  cases bits with
  | false => exact Nat.zero_le _
  | true =>
    obtain ⟨unused, hunused⟩ := h rfl
    cases content with
    | nil => cases hunused
    | cons lead rest => exact Nat.le_add_left 1 _

theorem Fragment.length_merged_le (tag : Tag) {bits : Bool} {fragments : List Fragment}
    (h : Valid bits fragments) :
    lengthSize (merged bits fragments).length + (merged bits fragments).length ≤
      (join tag fragments).length + 2 := by
  rw [length_merged]
  induction fragments with
  | nil =>
    have hlead := leadSize_le_one bits
    have hone : lengthSize (leadSize bits) = 1 := by cases bits <;> rfl
    show lengthSize (leadSize bits) + leadSize bits ≤ 2
    omega
  | cons fragment rest ih =>
    obtain ⟨hlength, hunused, hrest⟩ := h
    have hlead := leadSize_le fun hbits => (hunused hbits).imp fun _ h => h.1
    have hcontents : leadSize bits + (contents bits (fragment :: rest)).length =
        fragment.content.length + (contents bits rest).length := by
      rw [contents, List.flatMap_cons, List.length_append, List.length_drop, contents]
      omega
    have hjoin : (join tag (fragment :: rest)).length =
        1 + fragment.length.length + fragment.content.length + (join tag rest).length := by
      rw [join, List.flatMap_cons, List.length_append, octets, List.length_cons,
        List.length_append, join]
      omega
    have hsum := Header.lengthSize_add_le fragment.content.length (contents bits rest).length
    have hmono : lengthSize (contents bits rest).length ≤
        lengthSize (leadSize bits + (contents bits rest).length) :=
      Header.lengthSize_mono (Nat.le_add_left _ _)
    have hshortest := Header.lengthSize_le hlength
    have := ih hrest
    rw [hcontents, hjoin]
    omega

namespace Ber

def octets : Ber → Bytes
  | nil => []
  | primitive identifier length content next => whole identifier (some length) content ++ next.octets
  | nested identifier length inner next => whole identifier length inner.octets ++ next.octets
  | string identifier length fragments next =>
    whole identifier length (Fragment.join identifier.first.base fragments) ++ next.octets

def Valid : Ber → Prop
  | nil => True
  | primitive identifier length content next =>
    identifier.first.isConstructed = false ∧ IsLength length content.length ∧ next.Valid
  | nested identifier length inner next =>
    (identifier.first.isConstructed = true ∧ identifier.first.isFragmentable = false) ∧
      (∀ octets, length = some octets → IsLength octets inner.octets.length) ∧ inner.Valid ∧
      next.Valid
  | string identifier length fragments next =>
    (identifier.first.isConstructed = true ∧ identifier.first.isFragmentable = true) ∧
      (∀ octets, length = some octets →
        IsLength octets (Fragment.join identifier.first.base fragments).length) ∧
      Fragment.Valid (isBits identifier) fragments ∧ next.Valid

def der : Ber → Bytes
  | nil => []
  | primitive identifier _ content next => shortest identifier.octets content ++ next.der
  | nested identifier _ inner next => shortest identifier.octets inner.der ++ next.der
  | string identifier _ fragments next =>
    shortest (identifier.first.base :: identifier.number)
      (Fragment.merged (isBits identifier) fragments) ++ next.der

section

variable (identifier : Identifier) (length : Option Bytes)

theorem octets_primitive (octets content : Bytes) :
    (primitive identifier octets content nil).octets = whole identifier (some octets) content :=
  List.append_nil _

theorem octets_nested (inner : Ber) :
    (nested identifier length inner nil).octets = whole identifier length inner.octets :=
  List.append_nil _

theorem octets_string (fragments : List Fragment) :
    (string identifier length fragments nil).octets =
      whole identifier length (Fragment.join identifier.first.base fragments) :=
  List.append_nil _

theorem der_primitive (octets content : Bytes) :
    (primitive identifier octets content nil).der = shortest identifier.octets content :=
  List.append_nil _

theorem der_nested (inner : Ber) :
    (nested identifier length inner nil).der = shortest identifier.octets inner.der :=
  List.append_nil _

theorem der_string (fragments : List Fragment) :
    (string identifier length fragments nil).der =
      shortest (identifier.first.base :: identifier.number)
        (Fragment.merged (isBits identifier) fragments) :=
  List.append_nil _

end

def nesting : Ber → Nat
  | nil => 0
  | primitive _ _ _ next => next.nesting
  | nested _ _ inner next => max (1 + inner.nesting) next.nesting
  | string _ _ _ next => max 1 next.nesting

def indefiniteNesting : Ber → Nat
  | nil => 0
  | primitive _ _ _ next => next.indefiniteNesting
  | nested _ length inner next =>
    max ((if length.isNone then 1 else 0) + inner.indefiniteNesting) next.indefiniteNesting
  | string _ length _ next => max (if length.isNone then 1 else 0) next.indefiniteNesting

def canonical : Ber → Bool
  | nil => true
  | primitive _ length content next => kept (some length) true content.length && next.canonical
  | nested _ length inner next => kept length inner.canonical inner.der.length && next.canonical
  | string .. => false

def rewritten : Ber → Nat
  | nil => 0
  | primitive _ _ _ next => next.rewritten
  | nested _ length inner next =>
    inner.rewritten + (if kept length inner.canonical inner.der.length then 0 else 1) +
      next.rewritten
  | string _ _ _ next => 1 + next.rewritten

/-- The records of the items that are rewritten, in the order in which the items end. The first
item begins at `idx`, with `depth` open items around it. -/
def records : Ber → (idx depth : Nat) → List Record
  | nil, _, _ => []
  | primitive identifier length content next, idx, depth =>
    next.records (idx + (whole identifier (some length) content).length) depth
  | nested identifier length inner next, idx, depth =>
    inner.records (idx + (header identifier length).length) (depth + 1) ++
      ((if kept length inner.canonical inner.der.length then []
        else [⟨idx, identifier.octets.length, depth, inner.der.length, 0⟩]) ++
        next.records (idx + (whole identifier length inner.octets).length) depth)
  | string identifier length fragments next, idx, depth =>
    ⟨idx, identifier.octets.length, depth,
      (Fragment.merged (isBits identifier) fragments).length,
      Fragment.unused (isBits identifier) fragments⟩ ::
        next.records (idx + (whole identifier length
          (Fragment.join identifier.first.base fragments)).length) depth

@[simp] theorem length_records (tree : Ber) (idx depth : Nat) :
    (tree.records idx depth).length = tree.rewritten := by
  induction tree generalizing idx depth with
  | nil => rfl
  | primitive identifier length content next ih => exact ih _ _
  | nested identifier length inner next ihInner ihNext =>
    simp only [records, rewritten, List.length_append, ihInner, ihNext]
    split <;> simp only [List.length_nil, List.length_singleton] <;> omega
  | string identifier length fragments next ih =>
    simp only [records, rewritten, List.length_cons, ih]
    omega

theorem start_of_mem_records {tree : Ber} {idx depth : Nat} {record : Record}
    (h : record ∈ tree.records idx depth) :
    idx ≤ record.start ∧ record.start < idx + tree.octets.length := by
  induction tree generalizing idx depth with
  | nil => exact nomatch h
  | primitive identifier length content next ih =>
    have hnext := ih h
    rw [octets, List.length_append]
    omega
  | nested identifier length inner next ihInner ihNext =>
    have hpos := length_header_pos identifier length
    have hwhole := length_whole identifier length inner.octets
    rw [octets, List.length_append]
    rcases List.mem_append.mp h with h | h
    · have hinner := ihInner h
      omega
    · rcases List.mem_append.mp h with h | h
      · split at h
        · exact nomatch h
        · rw [List.mem_singleton.mp h]
          dsimp only
          omega
      · have hnext := ihNext h
        omega
  | string identifier length fragments next ih =>
    have hpos := length_header_pos identifier length
    have hwhole := length_whole identifier length (Fragment.join identifier.first.base fragments)
    rw [octets, List.length_append]
    rcases List.mem_cons.mp h with rfl | h
    · dsimp only
      omega
    · have hnext := ih h
      omega

theorem nodup_records (tree : Ber) (idx depth : Nat) :
    ((tree.records idx depth).map Record.start).Nodup := by
  induction tree generalizing idx depth with
  | nil => exact List.nodup_nil
  | primitive identifier length content next ih => exact ih _ _
  | nested identifier length inner next ihInner ihNext =>
    have hpos := length_header_pos identifier length
    have hwhole := length_whole identifier length inner.octets
    have hown (start : Nat) (h : start ∈ ((if kept length inner.canonical inner.der.length then []
        else [⟨idx, identifier.octets.length, depth, inner.der.length, 0⟩] :
          List Record)).map Record.start) : start = idx := by
      split at h
      · exact nomatch h
      · exact List.mem_singleton.mp h
    rw [records, List.map_append, List.map_append, List.nodup_append, List.nodup_append]
    refine ⟨ihInner _ _, ⟨by split <;> simp, ihNext _ _, fun start hstart other hother => ?_⟩,
      fun start hstart other hother => ?_⟩
    · obtain ⟨record, hrecord, rfl⟩ := List.mem_map.mp hother
      have := start_of_mem_records hrecord
      have := hown start hstart
      omega
    · obtain ⟨record, hrecord, rfl⟩ := List.mem_map.mp hstart
      have := start_of_mem_records hrecord
      rcases List.mem_append.mp hother with hother | hother
      · have := hown other hother
        omega
      · obtain ⟨record', hrecord', rfl⟩ := List.mem_map.mp hother
        have := start_of_mem_records hrecord'
        omega
  | string identifier length fragments next ih =>
    have hpos := length_header_pos identifier length
    have hwhole := length_whole identifier length (Fragment.join identifier.first.base fragments)
    refine List.nodup_cons.mpr ⟨fun hmem => ?_, ih _ _⟩
    obtain ⟨record, hrecord, hstart⟩ := List.mem_map.mp hmem
    have := start_of_mem_records hrecord
    dsimp only at hstart
    omega

theorem der_of_canonical {tree : Ber} (hvalid : tree.Valid) (h : tree.canonical = true) :
    tree.der = tree.octets := by
  induction tree with
  | nil => rfl
  | primitive identifier length content next ih =>
    obtain ⟨_, hlength, hnext⟩ := hvalid
    obtain ⟨hkept, hcanonical⟩ := Bool.and_eq_true_iff.mp h
    obtain ⟨_, _, ⟨⟩, hsize⟩ := kept_eq_true hkept
    rw [der, octets, ih hnext hcanonical, whole_definite, shortest,
      Header.eq_lengthOctets hlength hsize]
  | nested identifier length inner next ihInner ihNext =>
    obtain ⟨_, hlength, hinner, hnext⟩ := hvalid
    obtain ⟨hkept, hcanonical⟩ := Bool.and_eq_true_iff.mp h
    obtain ⟨hinnerCanonical, octets, rfl, hsize⟩ := kept_eq_true hkept
    rw [ihInner hinner hinnerCanonical] at hsize
    rw [der, Ber.octets, ihInner hinner hinnerCanonical, ihNext hnext hcanonical, whole_definite,
      shortest, Header.eq_lengthOctets (hlength octets rfl) hsize]
  | string identifier length fragments next ih => cases h

theorem length_der_le {tree : Ber} (hvalid : tree.Valid)
    (hsmall : tree.octets.length + 9 * tree.rewritten < wordLimit) :
    tree.der.length ≤ tree.octets.length + 9 * tree.rewritten := by
  induction tree with
  | nil => exact Nat.zero_le _
  | primitive identifier length content next ih =>
    obtain ⟨_, hlength, hnext⟩ := hvalid
    have hsize := Header.lengthSize_le hlength
    rw [octets, rewritten, whole_definite, List.length_append, List.length_append,
      List.length_append] at hsmall ⊢
    have hder := ih hnext (by omega)
    rw [der, List.length_append, length_shortest]
    omega
  | nested identifier length inner next ihInner ihNext =>
    obtain ⟨_, hlength, hinner, hnext⟩ := hvalid
    have hopening := length_opening_pos hlength
    rw [octets, rewritten, List.length_append, length_whole, length_header] at hsmall ⊢
    have hderInner := ihInner hinner (by omega)
    have hderNext := ihNext hnext (by omega)
    have hnine := Header.lengthSize_le_nine (show inner.der.length < wordLimit by omega)
    rw [der, List.length_append, length_shortest]
    split
    · rename_i hkept
      obtain ⟨_, octets, rfl, hsize⟩ := kept_eq_true hkept
      have hsize : (opening (some octets)).length = lengthSize inner.der.length := hsize
      omega
    · omega
  | string identifier length fragments next ih =>
    obtain ⟨_, hlength, _, hnext⟩ := hvalid
    have hopening := length_opening_pos hlength
    have hcontents := Fragment.length_contents_le identifier.first.base (isBits identifier) fragments
    have hmerged := Fragment.length_merged (isBits identifier) fragments
    have hidentifier : (identifier.first.base :: identifier.number).length =
        identifier.octets.length := rfl
    rw [octets, rewritten, List.length_append, length_whole, length_header] at hsmall ⊢
    have hder := ih hnext (by omega)
    have hlead := Fragment.leadSize_le_one (isBits identifier)
    have hnine := Header.lengthSize_le_nine
      (show (Fragment.merged (isBits identifier) fragments).length < wordLimit by omega)
    rw [der, List.length_append, length_shortest, hidentifier]
    omega

structure Joins (first next tree : Ber) : Prop where
  octets : tree.octets = first.octets ++ next.octets
  der : tree.der = first.der ++ next.der
  canonical : tree.canonical = (first.canonical && next.canonical)
  rewritten : tree.rewritten = first.rewritten + next.rewritten
  nesting : tree.nesting = max first.nesting next.nesting
  indefiniteNesting :
    tree.indefiniteNesting = max first.indefiniteNesting next.indefiniteNesting
  records : ∀ idx depth, tree.records idx depth =
    first.records idx depth ++ next.records (idx + first.octets.length) depth
  valid : tree.Valid ↔ first.Valid ∧ next.Valid

theorem joins_primitive (identifier : Identifier) (length content : Bytes) (next : Ber) :
    Joins (primitive identifier length content nil) next (primitive identifier length content next) :=
  by constructor <;>
    simp [octets, der, canonical, rewritten, nesting, indefiniteNesting, records, Valid, and_assoc]

theorem joins_nested (identifier : Identifier) (length : Option Bytes) (inner next : Ber) :
    Joins (nested identifier length inner nil) next (nested identifier length inner next) := by
  constructor <;>
    simp [octets, der, canonical, rewritten, nesting, indefiniteNesting, records, Valid, and_assoc]

theorem joins_string (identifier : Identifier) (length : Option Bytes) (fragments : List Fragment)
    (next : Ber) :
    Joins (string identifier length fragments nil) next (string identifier length fragments next) :=
  by constructor <;>
    simp [octets, der, canonical, rewritten, nesting, indefiniteNesting, records, Valid, and_assoc]

end Ber

end DerTemplate.Canonical
