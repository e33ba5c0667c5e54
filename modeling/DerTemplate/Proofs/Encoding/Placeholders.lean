import DerTemplate.Proofs.Encoding.Location
import DerTemplate.Proofs.Encoding.Revisions

namespace DerTemplate

namespace Encoding

open Stencil

namespace Stencil

theorem getElem?_onto {stencil : Stencil} {under : Bytes} (h : stencil.length ≤ under.length)
    (p : Nat) : (stencil.onto under)[p]? = stencil[p]?.join.or under[p]? := by
  induction stencil generalizing under p with
  | nil => rfl
  | cons mark marks ih =>
    cases under with
    | nil => simp at h
    | cons b under =>
      have hrest := ih (Nat.le_of_succ_le_succ h)
      cases p with
      | zero => cases mark <;> rfl
      | succ p => exact hrest p

theorem length_onto {stencil : Stencil} {under : Bytes} (h : stencil.length ≤ under.length) :
    (stencil.onto under).length = under.length := by
  rw [onto, List.length_append, length_fill, List.length_drop]
  omega

theorem getElem?_solid_ne (bytes : Bytes) (p : Nat) : (solid bytes)[p]? ≠ some none := by
  simp [solid]

theorem getElem?_gap_iff (length p : Nat) : (gap length)[p]? = some none ↔ p < length := by
  simp [gap, List.getElem?_replicate]

theorem getElem?_append_iff (front back : Stencil) (p : Nat) :
    (front ++ back)[p]? = some none ↔
      front[p]? = some none ∨ front.length ≤ p ∧ back[p - front.length]? = some none := by
  rw [List.getElem?_append]
  split
  · rename_i hlt
    simp [Nat.not_le.mpr hlt]
  · rename_i hle
    have hle := Nat.not_lt.mp hle
    simp [hle]

end Stencil

variable {entry : Entry} {slot : Slot}

def Slot.Frees (slot : Slot) (entry : Entry) (length : Nat) : Prop :=
  entry.headerOnly = false ∧ slot.value = .placeholder length

theorem own_of_frees {length : Nat} (h : slot.Frees entry length) (nested : Nat) :
    slot.own entry nested = solid (slot.head entry nested) ++ gap length := by
  obtain ⟨hleaf, hvalue⟩ := h
  rw [own_eq_head entry (by simp [hvalue]), hleaf, if_neg Bool.false_ne_true, Slot.body, hvalue,
    Value.body]

theorem own_of_not_frees (h : ∀ length, ¬slot.Frees entry length) (nested : Nat) :
    ∃ bytes, slot.own entry nested = solid bytes := by
  have hsolid (a b : Bytes) : solid a ++ solid b = solid (a ++ b) := List.map_append.symm
  by_cases hreplace : ∃ encoded, slot.value = .replace encoded
  · obtain ⟨encoded, hvalue⟩ := hreplace
    exact ⟨encoded, own_of_replace entry hvalue nested⟩
  rw [own_eq_head entry (not_exists.mp hreplace)]
  cases hheader : entry.headerOnly with
  | true => exact ⟨slot.head entry nested, List.append_nil _⟩
  | false =>
    obtain ⟨bytes, hbody⟩ : ∃ bytes, slot.body entry = solid bytes := by
      cases hvalue : slot.value with
      | placeholder length => exact absurd ⟨hheader, hvalue⟩ (h length)
      | none => exact ⟨[], by rw [Slot.body, hvalue]; rfl⟩
      | _ => exact ⟨_, by rw [Slot.body, hvalue, Value.body]⟩
    rw [if_neg Bool.false_ne_true, hbody]
    exact ⟨_, hsolid _ _⟩

theorem own_gap_iff (nested p : Nat) :
    (slot.own entry nested)[p]? = some none ↔
      ∃ length, slot.Frees entry length ∧ (slot.own entry nested).length ≤ p + length ∧
        p < (slot.own entry nested).length := by
  by_cases h : ∃ length, slot.Frees entry length
  · obtain ⟨length, hfrees⟩ := h
    have hunique (other : Nat) : slot.Frees entry other ↔ other = length := by
      simp [Slot.Frees, hfrees.1, hfrees.2, eq_comm]
    simp only [hunique, exists_eq_left]
    rw [own_of_frees hfrees, getElem?_append_iff, getElem?_gap_iff, List.length_append,
      length_solid, length_gap]
    have hsolid := getElem?_solid_ne (slot.head entry nested) p
    simp only [hsolid, false_or]
    omega
  · obtain ⟨bytes, hown⟩ := own_of_not_frees (not_exists.mp h) nested
    rw [hown]
    simp only [not_exists.mp h, false_and, exists_false, iff_false]
    exact getElem?_solid_ne bytes p

theorem frees_le {length : Nat} (h : slot.Frees entry length) (nested : Nat) :
    length ≤ (slot.own entry nested).length := by
  rw [own_of_frees h, List.length_append, length_gap]
  exact Nat.le_add_left _ _

theorem placeholderRange_eq_some_iff (hleaf : entry.headerOnly = false) {stop first last : Nat} :
    Slot.placeholderRange { slot with placeholderAt := placeholderStart entry slot stop } =
        some (first, last) ↔
      ∃ length, slot.Frees entry length ∧ first = stop - length ∧ last = first + length := by
  simp only [Slot.Frees, hleaf, true_and]
  cases hvalue : slot.value with
  | placeholder length =>
    simp only [Slot.placeholderRange, placeholderStart, hvalue, hleaf, Bool.false_eq_true, if_false,
      Option.some.injEq, Prod.mk.injEq, Value.placeholder.injEq, exists_eq_left']
    omega
  | _ => simp [Slot.placeholderRange]

end Encoding

namespace Forest

open Encoding

variable {start i first last : Nat} {entry : Entry} {slot : Slot} {below next : Forest Slot}

def Reserves (start : Nat) (forest : Forest Slot) (i first last : Nat) : Prop :=
  ∃ entry kept, forest.schema[i]? = some entry ∧ entry.headerOnly = false ∧
    forest.excludes false i = false ∧ (forest.marked start).slots[i]? = some kept ∧
      kept.placeholderRange = some (first, last)

def ownEnd (start : Nat) (entry : Entry) (slot : Slot) (below : Forest Slot) : Nat :=
  start + (slot.own entry (slot.held entry below.stencil.length)).length

def rootEnd (start : Nat) (entry : Entry) (slot : Slot) (below : Forest Slot) : Nat :=
  if slot.suppressed then start else ownEnd start entry slot below + below.stencil.length

theorem marked_suppressed (h : slot.suppressed = true) (start : Nat) :
    (node entry slot below next).marked start = node entry slot below (next.marked start) := by
  rw [marked, if_pos h]

theorem marked_shown (h : slot.suppressed = false) (start : Nat) :
    (node entry slot below next).marked start =
      node entry
        { slot with placeholderAt := placeholderStart entry slot (ownEnd start entry slot below) }
        (below.marked (ownEnd start entry slot below))
        (next.marked (ownEnd start entry slot below + below.stencil.length)) := by
  rw [marked, if_neg (by simp [h])]
  rfl

theorem reserves_root :
    (node entry slot below next).Reserves start 0 first last ↔
      slot.suppressed = false ∧ ∃ length, slot.Frees entry length ∧
        first = ownEnd start entry slot below - length ∧ last = first + length := by
  constructor
  · rintro ⟨e, kept, he, hleaf, hshown, hkept, hrange⟩
    cases he
    have hslot : slot.suppressed = false := by simpa [excludes] using hshown
    rw [marked_shown hslot] at hkept
    cases hkept
    exact ⟨hslot, (placeholderRange_eq_some_iff hleaf).mp hrange⟩
  · rintro ⟨hslot, length, hfrees, hrange⟩
    refine ⟨entry, _, rfl, hfrees.1, by simp [excludes, hslot], ?_,
      (placeholderRange_eq_some_iff hfrees.1).mpr ⟨length, hfrees, hrange⟩⟩
    rw [marked_shown hslot]
    rfl

theorem reserves_below (hi : i < below.size) :
    (node entry slot below next).Reserves start (i + 1) first last ↔
      slot.suppressed = false ∧ below.Reserves (ownEnd start entry slot below) i first last := by
  unfold Reserves
  simp only [getElem?_schema_below hi, excludes_below hi, Bool.or_false]
  cases hslot : slot.suppressed with
  | true => simp [excludes_hidden hi]
  | false =>
    rw [marked_shown hslot, getElem?_slots_below (by simpa using hi)]
    simp

theorem getElem_marked_next (start i : Nat) :
    ((node entry slot below next).marked start).slots[i + below.size + 1]? =
      (next.marked (rootEnd start entry slot below)).slots[i]? := by
  unfold rootEnd
  cases hslot : slot.suppressed with
  | true => rw [marked_suppressed hslot, getElem?_slots_next, if_pos rfl]
  | false =>
    have hsize : below.size = (below.marked (ownEnd start entry slot below)).size := by simp
    rw [marked_shown hslot, hsize, getElem?_slots_next, if_neg Bool.false_ne_true]

theorem reserves_next (i : Nat) :
    (node entry slot below next).Reserves start (i + below.size + 1) first last ↔
      next.Reserves (rootEnd start entry slot below) i first last := by
  unfold Reserves
  simp only [getElem?_schema_next, excludes_next, getElem_marked_next]

theorem frees_le_ownEnd {length : Nat} (h : slot.Frees entry length) (start : Nat)
    (below : Forest Slot) : start + length ≤ ownEnd start entry slot below :=
  Nat.add_le_add_left (frees_le h _) start

theorem rootEnd_add (hheld : slot.suppressed = false → slot.nests entry = false → below.stencil = [])
    (start : Nat) (next : Forest Slot) :
    rootEnd start entry slot below + next.stencil.length =
      start + (node entry slot below next).stencil.length := by
  unfold rootEnd
  cases hslot : slot.suppressed with
  | true => simp [stencil, hslot]
  | false =>
    rw [stencil_node hslot (hheld hslot), List.length_append, List.length_append, ownEnd,
      if_neg Bool.false_ne_true]
    omega

theorem reserves_within {forest : Forest Slot} (hwritable : forest.Writable)
    (h : forest.Reserves start i first last) :
    start ≤ first ∧ first ≤ last ∧ last ≤ start + forest.stencil.length := by
  induction forest generalizing start i with
  | nil =>
    obtain ⟨_, _, hentry, _⟩ := h
    exact nomatch hentry
  | node entry slot below next ihb ihn =>
    obtain ⟨hroot, hnext⟩ := hwritable
    have hend := rootEnd_add (fun hslot => (hroot hslot).2.1) start next
    have hle : start ≤ ownEnd start entry slot below := Nat.le_add_right _ _
    rw [← hend]
    rcases index_cases below.size i with rfl | ⟨j, hj, rfl⟩ | ⟨j, rfl⟩
    · obtain ⟨hslot, length, hfrees, rfl, rfl⟩ := reserves_root.mp h
      have := frees_le_ownEnd hfrees start below
      rw [rootEnd, hslot, if_neg Bool.false_ne_true]
      omega
    · obtain ⟨hslot, hbelow⟩ := (reserves_below hj).mp h
      have := ihb (hroot hslot).2.2 hbelow
      rw [rootEnd, hslot, if_neg Bool.false_ne_true]
      omega
    · have := ihn hnext ((reserves_next j).mp h)
      have : start ≤ rootEnd start entry slot below := by
        unfold rootEnd
        split <;> omega
      omega

theorem reserves_ordered {forest : Forest Slot} (hwritable : forest.Writable)
    (h : forest.Reserves start i first last) {j afterFirst afterLast : Nat}
    (hlater : forest.Reserves start j afterFirst afterLast) (hij : i < j) : last ≤ afterFirst := by
  induction forest generalizing start i j with
  | nil =>
    obtain ⟨_, _, hentry, _⟩ := h
    exact nomatch hentry
  | node entry slot below next ihb ihn =>
    obtain ⟨hroot, hnext⟩ := hwritable
    have hshown (hslot : slot.suppressed = false) :
        rootEnd start entry slot below =
          ownEnd start entry slot below + below.stencil.length := by
      rw [rootEnd, hslot, if_neg Bool.false_ne_true]
    rcases index_cases below.size i with rfl | ⟨k, hk, rfl⟩ | ⟨k, rfl⟩
    · obtain ⟨hslot, length, hfrees, rfl, rfl⟩ := reserves_root.mp h
      have hlength := frees_le_ownEnd hfrees start below
      rcases index_cases below.size j with rfl | ⟨l, hl, rfl⟩ | ⟨l, rfl⟩
      · omega
      · have := reserves_within (hroot hslot).2.2 ((reserves_below hl).mp hlater).2
        omega
      · have := reserves_within hnext ((reserves_next l).mp hlater)
        rw [hshown hslot] at this
        omega
    · obtain ⟨hslot, hbelow⟩ := (reserves_below hk).mp h
      rcases index_cases below.size j with rfl | ⟨l, hl, rfl⟩ | ⟨l, rfl⟩
      · omega
      · exact ihb (hroot hslot).2.2 hbelow ((reserves_below hl).mp hlater).2 (by omega)
      · have := reserves_within (hroot hslot).2.2 hbelow
        have := reserves_within hnext ((reserves_next l).mp hlater)
        rw [hshown hslot] at this
        omega
    · obtain ⟨l, rfl⟩ : ∃ l, j = l + below.size + 1 := ⟨j - below.size - 1, by omega⟩
      exact ihn hnext ((reserves_next k).mp h) ((reserves_next l).mp hlater) (by omega)

def Frees (start : Nat) (forest : Forest Slot) (pos : Nat) : Prop :=
  ∃ i first last, forest.Reserves start i first last ∧ first ≤ pos ∧ pos < last

theorem lt_size_of_reserves {forest : Forest Slot} (h : forest.Reserves start i first last) :
    i < forest.size := by
  obtain ⟨_, _, hentry, _⟩ := h
  exact lt_size hentry

theorem frees_node_iff (start pos : Nat) :
    (node entry slot below next).Frees start pos ↔
      (slot.suppressed = false ∧
        ((∃ length, slot.Frees entry length ∧ ownEnd start entry slot below ≤ pos + length ∧
            pos < ownEnd start entry slot below) ∨
          below.Frees (ownEnd start entry slot below) pos)) ∨
      next.Frees (rootEnd start entry slot below) pos := by
  constructor
  · rintro ⟨i, first, last, h, hpos⟩
    rcases index_cases below.size i with rfl | ⟨j, hj, rfl⟩ | ⟨j, rfl⟩
    · obtain ⟨hslot, length, hfrees, rfl, rfl⟩ := reserves_root.mp h
      have := frees_le_ownEnd hfrees start below
      exact .inl ⟨hslot, .inl ⟨length, hfrees, by omega, by omega⟩⟩
    · obtain ⟨hslot, hbelow⟩ := (reserves_below hj).mp h
      exact .inl ⟨hslot, .inr ⟨j, first, last, hbelow, hpos⟩⟩
    · exact .inr ⟨j, first, last, (reserves_next j).mp h, hpos⟩
  · rintro (⟨hslot, ⟨length, hfrees, hfirst, hlast⟩ | ⟨j, first, last, hbelow, hpos⟩⟩ |
      ⟨j, first, last, hnext, hpos⟩)
    · have := frees_le_ownEnd hfrees start below
      exact ⟨0, _, _, reserves_root.mpr ⟨hslot, length, hfrees, rfl, rfl⟩, by omega, by omega⟩
    · exact ⟨j + 1, first, last,
        (reserves_below (lt_size_of_reserves hbelow)).mpr ⟨hslot, hbelow⟩, hpos⟩
    · exact ⟨_, first, last, (reserves_next j).mpr hnext, hpos⟩

theorem frees_iff {forest : Forest Slot} (hwritable : forest.Writable) (start pos : Nat) :
    forest.Frees start pos ↔ start ≤ pos ∧ forest.stencil[pos - start]? = some none := by
  induction forest generalizing start with
  | nil =>
    constructor
    · rintro ⟨_, _, _, ⟨_, _, h, _⟩, _⟩
      exact nomatch h
    · exact fun h => nomatch h.2
  | node entry slot below next ihb ihn =>
    obtain ⟨hroot, hnext⟩ := hwritable
    rw [frees_node_iff, ihn hnext, rootEnd]
    cases hslot : slot.suppressed with
    | true => simp [stencil, hslot]
    | false =>
      obtain ⟨_, hheld, hbelow⟩ := hroot hslot
      have hfits (length : Nat) (h : slot.Frees entry length) :=
        frees_le h (slot.held entry below.stencil.length)
      rw [ihb hbelow, stencil_node hslot hheld, Stencil.getElem?_append_iff,
        Stencil.getElem?_append_iff, own_gap_iff, if_neg Bool.false_ne_true, List.length_append,
        ownEnd]
      generalize (slot.own entry (slot.held entry below.stencil.length)).length = own at hfits
      rcases Nat.lt_or_ge pos start with hlt | hle
      · refine iff_of_false ?_ (fun h => Nat.not_le.mpr hlt h.1)
        rintro (⟨_, ⟨length, hfrees, hfirst, _⟩ | ⟨hstart, _⟩⟩ | ⟨hstart, _⟩)
        · have := hfits length hfrees
          omega
        · omega
        · omega
      · obtain ⟨p, rfl⟩ := Nat.exists_eq_add_of_le hle
        simp only [true_and, hle, Nat.add_assoc, Nat.add_le_add_iff_left, Nat.add_lt_add_iff_left,
          Nat.add_sub_add_left, Nat.add_sub_cancel_left]

theorem exists_reserves {forest : Forest Slot} {length : Nat} (hentry : forest.schema[i]? = some entry)
    (hslot : forest.slots[i]? = some slot) (hshown : forest.excludes false i = false)
    (hfrees : slot.Frees entry length) (start : Nat) :
    ∃ first, forest.Reserves start i first (first + length) := by
  induction forest generalizing start i with
  | nil => exact nomatch hentry
  | node root rootSlot below next ihb ihn =>
    rcases index_cases below.size i with rfl | ⟨j, hj, rfl⟩ | ⟨j, rfl⟩
    · cases hentry
      cases hslot
      exact ⟨_, reserves_root.mpr ⟨by simpa [excludes] using hshown, length, hfrees, rfl, rfl⟩⟩
    · rw [excludes_below hj, Bool.or_false] at hshown
      rw [getElem?_schema_below hj] at hentry
      rw [getElem?_slots_below hj] at hslot
      have hroot := not_hidden_of_excludes hj hshown
      obtain ⟨first, hbelow⟩ :=
        ihb hentry hslot (hroot ▸ hshown) (ownEnd start root rootSlot below)
      exact ⟨first, (reserves_below hj).mpr ⟨hroot, hbelow⟩⟩
    · rw [excludes_next] at hshown
      rw [getElem?_schema_next] at hentry
      rw [getElem?_slots_next] at hslot
      obtain ⟨first, hnext⟩ := ihn hentry hslot hshown (rootEnd start root rootSlot below)
      exact ⟨first, (reserves_next j).mpr hnext⟩

theorem value_sized (hidden : Bool) (after : Nat) (forest : Forest Slot) :
    (forest.sized hidden after).slots.map Slot.value = forest.slots.map Slot.value :=
  map_sized (fun _ _ _ _ => rfl) hidden after forest

end Forest

namespace Encoding

open Schema

variable {schema : Schema} {slots : List Slot} {sizing : Sizing} {written : Written} {i : Nat}

def Written.Reserves (written : Written) (schema : Schema) (i first last : Nat) : Prop :=
  ∃ entry kept, schema[i]? = some entry ∧ entry.headerOnly = false ∧
    excluded schema written.slots i = false ∧ written.slots[i]? = some kept ∧
      kept.placeholderRange = some (first, last)

def Written.Frees (written : Written) (schema : Schema) (pos : Nat) : Prop :=
  ∃ i first last, written.Reserves schema i first last ∧ first ≤ pos ∧ pos < last

theorem placeholderRange_eq_some {slot : Slot} {first last : Nat} :
    slot.placeholderRange = some (first, last) ↔
      ∃ length, slot.value = .placeholder length ∧ slot.placeholderAt = some first ∧
        last = first + length := by
  unfold Slot.placeholderRange
  split
  · rename_i length start hvalue hstart
    simp only [hvalue, hstart, Option.some.injEq, Prod.mk.injEq, Value.placeholder.injEq,
      exists_eq_left']
    omega
  · rename_i hnone
    refine iff_of_false nofun ?_
    rintro ⟨length, hvalue, hstart, _⟩
    exact hnone length first hvalue hstart

section Sized

variable (h : size schema slots = .ok sizing)
include h

theorem excluded_sizing (i : Nat) :
    excluded schema sizing.slots i = excluded schema slots i := by
  obtain ⟨_, hlength, hsizing, _⟩ := size_eq_ok h
  apply excluded_congr
  rw [hsizing, Forest.suppressed_sized, Forest.slots_plant hlength]

theorem excludes_sized (hi : i < schema.length) :
    ((Forest.plant schema slots).sized false 0).excludes false i = excluded schema slots i := by
  rw [← excluded_sizing h, excluded_plant (size_eq_ok h).1 (length_sizing h) hi, plant_sized h]

theorem schema_sizing : ((Forest.plant schema slots).sized false 0).schema = schema := by
  rw [Forest.schema_sized, Forest.schema_plant (size_eq_ok h).2.1]

variable (hwritten : written.slots = (((Forest.plant schema slots).sized false 0).marked 0).slots)
include hwritten

theorem excluded_written (i : Nat) :
    excluded schema written.slots i = excluded schema slots i := by
  obtain ⟨_, _, hsizing, _⟩ := size_eq_ok h
  rw [← excluded_sizing h]
  apply excluded_congr
  rw [hwritten, hsizing, Forest.map_marked fun _ _ => rfl]

theorem value_written {kept : Slot} (hkept : written.slots[i]? = some kept) :
    ∃ slot, slots[i]? = some slot ∧ slot.value = kept.value := by
  obtain ⟨_, hlength, _⟩ := size_eq_ok h
  have hvalues : written.slots.map Slot.value = slots.map Slot.value := by
    rw [hwritten, Forest.map_marked fun _ _ => rfl, Forest.value_sized, Forest.slots_plant hlength]
  have hget := congrArg (fun values => values[i]?) hvalues
  rw [List.getElem?_map, List.getElem?_map, hkept, Option.map_some] at hget
  exact Option.map_eq_some_iff.mp hget.symm

theorem reserves_written (first last : Nat) :
    written.Reserves schema i first last ↔
      ((Forest.plant schema slots).sized false 0).Reserves 0 i first last := by
  have hexcludes (hi : i < schema.length) : excluded schema written.slots i =
      ((Forest.plant schema slots).sized false 0).excludes false i := by
    rw [excluded_written h hwritten, excludes_sized h hi]
  unfold Written.Reserves Forest.Reserves
  rw [schema_sizing h, hwritten]
  refine exists_congr fun entry => exists_congr fun kept => and_congr_right fun hentry => ?_
  rw [← hwritten, hexcludes (List.getElem?_eq_some_iff.mp hentry).1]

theorem frees_written (pos : Nat) :
    written.Frees schema pos ↔ (Forest.plant schema slots).stencil[pos]? = some none := by
  have hwritable := Forest.writable_of_ready (Forest.ready_sized (size_eq_ok h).2.2.2.1 0)
  have hfrees := Forest.frees_iff hwritable 0 pos
  rw [Forest.stencil_sized, Nat.sub_zero, Forest.Frees] at hfrees
  simp only [Written.Frees, reserves_written h hwritten, hfrees, Nat.zero_le, true_and]

theorem reserves_asked {entry : Entry} {slot : Slot} {length : Nat}
    (hentry : schema[i]? = some entry) (hslot : slots[i]? = some slot)
    (hfrees : slot.Frees entry length) (hshown : excluded schema slots i = false) :
    ∃ first, written.Reserves schema i first (first + length) := by
  obtain ⟨_, hlength, _⟩ := size_eq_ok h
  have hi := (List.getElem?_eq_some_iff.mp hentry).1
  have hvalues := congrArg (fun values => values[i]?)
    (Forest.value_sized false 0 (Forest.plant schema slots))
  rw [Forest.slots_plant hlength, List.getElem?_map, List.getElem?_map, hslot,
    Option.map_some] at hvalues
  obtain ⟨given, hgiven, hvalue⟩ := Option.map_eq_some_iff.mp hvalues
  rw [← excludes_sized h hi] at hshown
  obtain ⟨first, hreserves⟩ :=
    Forest.exists_reserves ((schema_sizing h).symm ▸ hentry) hgiven hshown
      ⟨hfrees.1, hvalue.trans hfrees.2⟩ 0
  exact ⟨first, (reserves_written h hwritten _ _).mpr hreserves⟩

theorem reserves_granted {first last : Nat} (hreserves : written.Reserves schema i first last) :
    last ≤ sizing.total ∧ ∃ slot length, slots[i]? = some slot ∧
      slot.value = .placeholder length ∧ last = first + length := by
  have ⟨_, kept, _, _, _, hkept, hrange⟩ := hreserves
  obtain ⟨_, _, hsizing, hwritable, _⟩ := size_eq_ok h
  have hwithin := Forest.reserves_within (Forest.writable_of_ready (Forest.ready_sized hwritable 0))
    ((reserves_written h hwritten first last).mp hreserves)
  rw [Forest.stencil_sized, Nat.zero_add] at hwithin
  obtain ⟨length, hvalue, _, hlast⟩ := placeholderRange_eq_some.mp hrange
  obtain ⟨slot, hslot, hsame⟩ := value_written h hwritten hkept
  rw [hsizing]
  exact ⟨hwithin.2.2, slot, length, hslot, hsame.trans hvalue, hlast⟩

end Sized

theorem write_frame (h : size schema slots = .ok sizing) {buffer : Bytes}
    (hbuffer : sizing.total ≤ buffer.length) :
    ∃ written, write schema sizing.slots buffer = .ok written ∧
      written.output.limit = sizing.total ∧
      written.output.buffer.length = buffer.length ∧
      (∀ pos, sizing.total ≤ pos ∨ written.Frees schema pos →
        written.output.buffer[pos]? = buffer[pos]?) ∧
      (∀ other : Bytes, sizing.total ≤ other.length → ∃ rewritten,
        write schema sizing.slots other = .ok rewritten ∧ rewritten.slots = written.slots ∧
          ∀ pos < sizing.total, ¬written.Frees schema pos →
            rewritten.output.buffer[pos]? = written.output.buffer[pos]?) ∧
      (∀ i entry slot length, schema[i]? = some entry → entry.headerOnly = false →
        slots[i]? = some slot → slot.value = .placeholder length →
        excluded schema slots i = false →
          ∃ first, written.Reserves schema i first (first + length)) ∧
      (∀ i first last, written.Reserves schema i first last → last ≤ sizing.total ∧
        ∃ slot length, slots[i]? = some slot ∧ slot.value = .placeholder length ∧
          last = first + length) ∧
      ∀ i j first last afterFirst afterLast, i < j → written.Reserves schema i first last →
        written.Reserves schema j afterFirst afterLast → last ≤ afterFirst := by
  obtain ⟨_, hlength, hsizing, hwritable, _⟩ := size_eq_ok h
  have htotal : sizing.total = (Forest.plant schema slots).stencil.length := by rw [hsizing]
  have hfits := Forest.writable_of_ready (Forest.ready_sized hwritable 0)
  generalize hslots : (((Forest.plant schema slots).sized false 0).marked 0).slots = marked
  have hwrite {under : Bytes} (hunder : sizing.total ≤ under.length) :
      write schema sizing.slots under =
        .ok ⟨marked, ⟨(Forest.plant schema slots).stencil.onto under, sizing.total⟩⟩ :=
    hslots ▸ write_of_size h hunder
  have hoctet {under : Bytes} (hunder : sizing.total ≤ under.length) (pos : Nat) :
      ((Forest.plant schema slots).stencil.onto under)[pos]? =
        (Forest.plant schema slots).stencil[pos]?.join.or under[pos]? :=
    Stencil.getElem?_onto (htotal ▸ hunder) pos
  refine ⟨_, hwrite hbuffer, rfl, Stencil.length_onto (htotal ▸ hbuffer), ?_, ?_, ?_, ?_, ?_⟩
  · rintro pos (hpos | hpos)
    · rw [hoctet hbuffer, List.getElem?_eq_none (htotal ▸ hpos)]
      rfl
    · rw [hoctet hbuffer, (frees_written h hslots.symm pos).mp hpos]
      rfl
  · intro other hother
    refine ⟨_, hwrite hother, rfl, fun pos hpos hfree => ?_⟩
    rw [frees_written h hslots.symm] at hfree
    rw [hoctet hother, hoctet hbuffer]
    cases hmark : (Forest.plant schema slots).stencil[pos]? with
    | none =>
      rw [htotal] at hpos
      exact absurd (List.getElem?_eq_none_iff.mp hmark) (Nat.not_le.mpr hpos)
    | some mark =>
      cases mark with
      | none => exact absurd hmark hfree
      | some octet => rfl
  · intro i entry slot length hentry hleaf hslot hvalue hshown
    exact reserves_asked h hslots.symm hentry hslot ⟨hleaf, hvalue⟩ hshown
  · intro i first last hreserves
    exact reserves_granted h hslots.symm hreserves
  · intro i j first last afterFirst afterLast hij hreserves hlater
    exact Forest.reserves_ordered hfits ((reserves_written h hslots.symm first last).mp hreserves)
      ((reserves_written h hslots.symm afterFirst afterLast).mp hlater) hij

def heldSchema : Schema := [.sequence 0, .leaf 1 0x04, .leaf 1 Tag.integer]

def heldSlots : List Slot := [.ofValue .none, .ofValue (.placeholder 2), .ofValue (.uint8 5)]

theorem write_frame_held :
    ∃ sizing, size heldSchema heldSlots = .ok sizing ∧
      ∃ written, write heldSchema sizing.slots (List.replicate 11 0xEE) = .ok written ∧
        written.output = ⟨[0x30, 7, 4, 2, 0xEE, 0xEE, 2, 1, 5, 0xEE, 0xEE], 9⟩ ∧
        written.Reserves heldSchema 1 4 6 := by
  obtain ⟨sizing, h, htotal⟩ :
      ∃ sizing, size heldSchema heldSlots = .ok sizing ∧ sizing.total = 9 := ⟨_, rfl, rfl⟩
  have hbuffer : sizing.total ≤ (List.replicate 11 (0xEE : UInt8)).length := by
    rw [htotal]
    decide
  obtain ⟨written, hwrite, _, _, _, _, hasked, _⟩ := write_frame h hbuffer
  obtain ⟨first, hreserves⟩ := hasked 1 _ _ 2 rfl rfl rfl rfl (by decide)
  obtain rfl := Except.ok.inj (hwrite.symm.trans (write_of_size h hbuffer))
  have hslots : (((Forest.plant heldSchema heldSlots).sized false 0).marked 0).slots[1]?.bind
      Slot.placeholderRange = some (4, 6) := by decide +kernel
  obtain ⟨_, kept, _, _, _, hkept, hrange⟩ := id hreserves
  rw [hkept, Option.bind_some, hrange] at hslots
  cases hslots
  exact ⟨sizing, h, _, hwrite, by rw [htotal]; decide +kernel, hreserves⟩

end Encoding

end DerTemplate
