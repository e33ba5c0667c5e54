import DerTemplate.Proofs.Canonical.Relength
import DerTemplate.Proofs.Encoding.Revisions
import DerTemplate.Proofs.Encoding.Sizable
import DerTemplate.Proofs.Header.Length

namespace DerTemplate

def Entry.whole (entry : Entry) : Entry := { entry with headerOnly := false }

@[simp] theorem Entry.depth_whole (entry : Entry) : entry.whole.depth = entry.depth := rfl

namespace Schema

theorem checkFrom_leaf {i : Nat} {entry : Entry} {rest : List Entry}
    (h : checkFrom i (some entry) rest = .ok ())
    (hleaf : ∀ e ∈ rest.head?, e.depth ≤ entry.depth) :
    checkFrom i (some entry.whole) rest = .ok () := by
  cases rest with
  | nil => rfl
  | cons e rest =>
    have hdepth : ¬entry.depth < e.depth := Nat.not_lt.mpr (hleaf e rfl)
    simp only [checkFrom, checkNesting, Entry.depth_whole, hdepth, false_and, if_false] at h ⊢
    exact h

theorem checkFrom_set {i k : Nat} {before : Option Entry} {entries : List Entry} {entry : Entry}
    (h : checkFrom i before entries = .ok ()) (hentry : entries[k]? = some entry)
    (hleaf : ∀ e, entries[k + 1]? = some e → e.depth ≤ entry.depth) :
    checkFrom i before (entries.set k entry.whole) = .ok () := by
  induction entries generalizing i before k with
  | nil => exact nomatch hentry
  | cons first rest ih =>
    unfold checkFrom at h
    split at h
    · cases h
    · rename_i hdepth
      obtain ⟨_, hnest, h⟩ := bind_eq_ok_iff.mp h
      obtain ⟨_, hgroup, hrest⟩ := bind_eq_ok_iff.mp h
      cases k with
      | zero =>
        cases hentry
        have hhead : ∀ e ∈ rest.head?, e.depth ≤ entry.depth := by
          intro e he
          apply hleaf
          rwa [List.getElem?_cons_succ, ← List.head?_eq_getElem?]
        have hnest : checkNesting i entry.whole before = .ok () := by
          cases before <;> exact hnest
        rw [List.set_cons_zero, checkFrom, Entry.depth_whole, if_neg hdepth]
        exact bind_eq_ok_iff.mpr ⟨_, hnest, bind_eq_ok_iff.mpr ⟨_, hgroup,
          checkFrom_leaf hrest hhead⟩⟩
      | succ k =>
        rw [List.set_cons_succ, checkFrom, if_neg hdepth]
        exact bind_eq_ok_iff.mpr ⟨_, hnest, bind_eq_ok_iff.mpr ⟨_, hgroup, ih hrest hentry hleaf⟩⟩

end Schema

namespace Encoding

open Schema

variable {schema : Schema} {slots : List Slot} {entry : Entry}

def Value.streamed : Value → Option Bytes
  | .bytes data => some data
  | .bits data unused => some (Content.cleared data unused)
  | _ => Option.none

structure Slot.Streams (slot : Slot) (entry : Entry) (payload : Bytes) : Prop where
  header : entry.headerOnly = true
  shown : slot.suppressed = false
  value : slot.value.streamed = some payload

namespace Slot.Streams

open Stencil

variable {slot : Slot} {payload : Bytes} (h : slot.Streams entry payload)
include h

theorem ne_replace (encoded : Bytes) : slot.value ≠ .replace encoded := by
  intro hvalue
  have hstreamed := h.value
  rw [hvalue] at hstreamed
  cases hstreamed

theorem nests_eq_false (other : Entry) : slot.nests other = false := by
  have hstreamed := h.value
  cases hvalue : slot.value <;> rw [hvalue] at hstreamed <;> cases hstreamed <;>
    simp [Slot.nests, hvalue, Value.isNone]

theorem body (other : Entry) : slot.body other = solid payload := by
  have hstreamed := h.value
  cases hvalue : slot.value <;> rw [hvalue] at hstreamed <;> cases hstreamed <;>
    rw [Slot.body, hvalue, Value.body]

theorem own (nested : Nat) : slot.own entry nested = solid (slot.head entry nested) := by
  rw [own_eq_head entry h.ne_replace, h.header, if_pos rfl, List.append_nil]

theorem own_whole (nested : Nat) :
    slot.own entry.whole nested = slot.own entry nested ++ solid payload := by
  rw [own_eq_head entry.whole h.ne_replace, h.own, h.body]
  rfl

theorem writable_whole (hwritable : slot.Writable entry) : slot.Writable entry.whole := by
  intro _
  exact hwritable (h.nests_eq_false entry)

end Slot.Streams

end Encoding

namespace Forest

open Encoding Stencil Header

/-- Of the first forest, `entry` is the last that is written, `level` levels below the roots; in the
second it has its content. -/
inductive Streamed (entry : Entry) (slot : Slot) : Nat → Forest Slot → Forest Slot → Prop where
  | last {next : Forest Slot} (hnext : next.stencil = []) :
    Streamed entry slot 0 (node entry slot nil next) (node entry.whole slot nil next)
  | inside {root : Entry} {rootSlot : Slot} {level : Nat} {below other next : Forest Slot}
    (hshown : rootSlot.suppressed = false) (hnests : rootSlot.nests root = true)
    (hnext : next.stencil = []) (hbelow : Streamed entry slot level below other) :
    Streamed entry slot (level + 1) (node root rootSlot below next) (node root rootSlot other next)
  | after {root : Entry} {rootSlot : Slot} {level : Nat} {below next other : Forest Slot}
    (hnext : Streamed entry slot level next other) :
    Streamed entry slot level (node root rootSlot below next) (node root rootSlot below other)

namespace Streamed

variable {entry : Entry} {slot : Slot} {payload : Bytes} {level : Nat} {forest other : Forest Slot}

theorem slots_eq (h : Streamed entry slot level forest other) : other.slots = forest.slots := by
  induction h with
  | last => rfl
  | inside _ _ _ _ ih => rw [slots, slots, ih]
  | after _ ih => rw [slots, slots, ih]

theorem nested {depth : Nat} (h : Streamed entry slot level forest other)
    (hnested : forest.Nested depth) : other.Nested depth := by
  induction h generalizing depth with
  | last =>
    obtain ⟨hdepth, _, _, hnext⟩ := hnested
    exact ⟨hdepth, fun _ => rfl, trivial, hnext⟩
  | @inside root rootSlot level below other next _ hnests _ _ ih =>
    obtain ⟨hdepth, _, hbelow, hnext⟩ := hnested
    obtain ⟨hheader, _⟩ := Slot.nests_eq_true_iff.mp hnests
    exact ⟨hdepth, fun h => absurd (hheader.symm.trans h) (by decide), ih hbelow, hnext⟩
  | after _ ih =>
    obtain ⟨hdepth, hleaf, hbelow, hnext⟩ := hnested
    exact ⟨hdepth, hleaf, hbelow, ih hnext⟩

variable (hstreams : slot.Streams entry payload)
include hstreams

theorem writable (h : Streamed entry slot level forest other) (hwritable : forest.Writable) :
    other.Writable := by
  induction h with
  | last =>
    obtain ⟨hroot, hnext⟩ := hwritable
    exact ⟨fun hslot => ⟨hstreams.writable_whole (hroot hslot).1, fun _ => rfl, trivial⟩, hnext⟩
  | inside hshown hnests _ _ ih =>
    obtain ⟨hroot, hnext⟩ := hwritable
    obtain ⟨hwrites, _, hbelow⟩ := hroot hshown
    exact ⟨fun _ => ⟨hwrites, fun h => absurd (hnests.symm.trans h) (by decide), ih hbelow⟩, hnext⟩
  | after _ ih => exact ⟨hwritable.1, ih hwritable.2⟩

theorem kept (h : Streamed entry slot level forest other) (hkept : forest.Shown HeaderKept) :
    other.Shown HeaderKept := by
  induction h with
  | last => exact ⟨fun _ => ⟨fun _ => hstreams.ne_replace, trivial⟩, hkept.2⟩
  | inside hshown _ _ _ ih => exact ⟨fun _ => ⟨(hkept.1 hshown).1, ih (hkept.1 hshown).2⟩, hkept.2⟩
  | after _ ih => exact ⟨hkept.1, ih hkept.2⟩

theorem stencil_last {next : Forest Slot} (hnext : next.stencil = []) :
    (node entry slot nil next).stencil = slot.own entry 0 ∧
      (node entry.whole slot nil next).stencil = slot.own entry 0 ++ solid payload := by
  have hitem (e : Entry) : (node e slot nil next).stencil = slot.own e 0 := by
    rw [stencil, hstreams.shown, hnext, Slot.item, hstreams.nests_eq_false]
    simp
  rw [hitem, hitem, hstreams.own_whole]
  exact ⟨rfl, rfl⟩

omit hstreams in
theorem stencil_inside {root : Entry} {rootSlot : Slot} {next : Forest Slot}
    (hshown : rootSlot.suppressed = false) (hnests : rootSlot.nests root = true)
    (hnext : next.stencil = []) (below : Forest Slot) :
    (node root rootSlot below next).stencil =
      solid (rootSlot.wireTag root ::
        lengthOctets ((rootSlot.leadBytes root).length + below.stencil.length)) ++
          (solid (rootSlot.leadBytes root) ++ below.stencil) := by
  obtain ⟨hheader, hvalue⟩ := Slot.nests_eq_true_iff.mp hnests
  have hbody := Slot.body_none root hvalue
  have hreplace (encoded : Bytes) : rootSlot.value ≠ .replace encoded := by simp [hvalue]
  have hown := own_eq_head root hreplace below.stencil.length
  rw [hheader, if_pos rfl, List.append_nil, Slot.head, Slot.declared, hbody, List.length_nil,
    Nat.add_zero] at hown
  rw [stencil_node hshown (fun h => absurd (hnests.symm.trans h) (by decide)), Slot.held, hnests,
    if_pos rfl, hown, hnext, List.append_nil]
  simp [solid]

theorem ne_nil (h : Streamed entry slot level forest other) : forest.stencil ≠ [] := by
  induction h with
  | last hnext =>
    rw [(stencil_last hstreams hnext).1, hstreams.own]
    simp [Slot.head, solid]
  | inside hshown hnests hnext _ _ =>
    rw [stencil_inside hshown hnests hnext]
    simp [solid]
  | after _ ih =>
    rw [stencil]
    simp [ih]

theorem stencil_eq (h : Streamed entry slot level forest other)
    (hlevel : level = 0 ∨ payload = []) : other.stencil = forest.stencil ++ solid payload := by
  induction h with
  | last hnext =>
    obtain ⟨hheader, hwhole⟩ := stencil_last hstreams hnext
    rw [hheader, hwhole]
  | inside hshown hnests hnext _ ih =>
    have hempty : payload = [] := hlevel.resolve_left (by omega)
    have hbelow := ih (.inr hempty)
    rw [hempty, solid, List.map_nil, List.append_nil] at hbelow ⊢
    rw [stencil_inside hshown hnests hnext, stencil_inside hshown hnests hnext, hbelow]
  | after _ ih => rw [stencil, ih hlevel, stencil, List.append_assoc]

theorem length_le (h : Streamed entry slot level forest other) :
    forest.stencil.length + payload.length ≤ other.stencil.length := by
  induction h with
  | last hnext =>
    obtain ⟨hheader, hwhole⟩ := stencil_last hstreams hnext
    rw [hheader, hwhole, List.length_append, length_solid]
  | @inside root rootSlot level below other next hshown hnests hnext _ ih =>
    have hmono := lengthSize_mono (Nat.add_le_add_left
      (Nat.le_trans (Nat.le_add_right _ _) ih) (rootSlot.leadBytes root).length)
    rw [stencil_inside hshown hnests hnext, stencil_inside hshown hnests hnext]
    simp only [List.length_append, length_solid, List.length_cons, length_lengthOctets]
    omega
  | after _ ih =>
    rw [stencil, stencil, List.length_append, List.length_append]
    omega

theorem le_length (h : Streamed entry slot level forest other)
    (hroom : forest.stencil.length + payload.length + 8 * level < lengthLimit) :
    other.stencil.length ≤ forest.stencil.length + payload.length + 8 * level := by
  induction h with
  | last hnext =>
    obtain ⟨hheader, hwhole⟩ := stencil_last hstreams hnext
    rw [hheader, hwhole, List.length_append, length_solid]
    omega
  | @inside root rootSlot level below other next hshown hnests hnext _ ih =>
    rw [stencil_inside hshown hnests hnext] at hroom ⊢
    rw [stencil_inside hshown hnests hnext]
    simp only [List.length_append, length_solid, List.length_cons, length_lengthOctets] at hroom ⊢
    have hbelow := ih (by omega)
    have hnine := Header.lengthSize_le_nine (lt_wordLimit
      (show (rootSlot.leadBytes root).length + other.stencil.length < lengthLimit by omega))
    have hone := Header.lengthSize_pos ((rootSlot.leadBytes root).length + below.stencil.length)
    omega
  | after _ ih =>
    rw [stencil, List.length_append] at hroom ⊢
    rw [stencil, List.length_append]
    have := ih (by omega)
    omega

theorem apart (h : Streamed entry slot level forest other) (hlevel : level ≠ 0)
    (hpayload : payload ≠ []) :
    ∃ (front : Stencil) (tag : Tag) (m n : Nat) (back behind : Stencil),
      m < n ∧ n ≤ other.stencil.length ∧
      forest.stencil = front ++ (solid (tag :: lengthOctets m) ++ back) ∧
      other.stencil = front ++ (solid (tag :: lengthOctets n) ++ behind) := by
  induction h with
  | last => exact absurd rfl hlevel
  | @inside root rootSlot level below other next hshown hnests hnext hbelow _ =>
    have hlength := length_le hstreams hbelow
    have hpos := List.length_pos_iff.mpr hpayload
    have hwhole := stencil_inside hshown hnests hnext other
    refine ⟨[], _, _, _, _, _, ?_, ?_, stencil_inside hshown hnests hnext below, hwhole⟩
    · omega
    · rw [hwhole]
      simp only [List.length_append, length_solid]
      omega
  | @after root rootSlot level below next other _ ih =>
    obtain ⟨front, tag, m, n, back, behind, hlt, hle, hforest, hother⟩ := ih hlevel
    refine ⟨(if rootSlot.suppressed then [] else rootSlot.item root below.stencil) ++ front, tag, m,
      n, back, behind, hlt, ?_, ?_, ?_⟩
    · rw [stencil, List.length_append]
      omega
    · rw [stencil, hforest, List.append_assoc]
    · rw [stencil, hother, List.append_assoc]

theorem encoding_eq (h : Streamed entry slot level forest other)
    (hlevel : level = 0 ∨ payload = []) : other.encoding = forest.encoding ++ payload := by
  rw [encoding, stencil_eq hstreams h hlevel, fill_append, fill_solid]
  rfl

theorem encoding_ne (h : Streamed entry slot level forest other) (hlevel : level ≠ 0)
    (hpayload : payload ≠ []) (hlimit : other.stencil.length < lengthLimit) :
    forest.encoding ++ payload ≠ other.encoding := by
  obtain ⟨front, tag, m, n, back, behind, hlt, hle, hforest, hother⟩ :=
    apart hstreams h hlevel hpayload
  intro hsame
  rw [encoding, encoding, hforest, hother, fill_append, fill_append, fill_append, fill_append,
    fill_solid, fill_solid] at hsame
  simp only [List.cons_append, List.append_assoc] at hsame
  have hsame := (List.cons.inj (List.append_cancel_left hsame)).2
  exact absurd (lengthOctets_append_inj (by omega) (by omega) hsame) (by omega)

end Streamed

theorem stencil_of_excluded {forest : Forest Slot}
    (h : ∀ i < forest.size, forest.excludes false i = true) : forest.stencil = [] := by
  induction forest with
  | nil => rfl
  | node entry slot below next _ ihn =>
    have hslot : slot.suppressed = true := by
      simpa [excludes] using h 0 (by simp only [size]; omega)
    have hnext : next.stencil = [] := by
      refine ihn fun i hi => ?_
      have hexcluded := h (i + below.size + 1) (by simp only [size]; omega)
      rwa [excludes_next] at hexcluded
    rw [stencil, if_pos hslot, hnext, List.append_nil]

theorem exists_streamed {entry : Entry} {slot : Slot} {payload : Bytes} {forest : Forest Slot}
    {depth k : Nat} (hstreams : slot.Streams entry payload) (hnested : forest.Nested depth)
    (hwritable : forest.Writable) (hentry : forest.schema[k]? = some entry)
    (hslot : forest.slots[k]? = some slot) (hshown : forest.excludes false k = false)
    (hleaf : ∀ e, forest.schema[k + 1]? = some e → e.depth ≤ entry.depth)
    (hlast : ∀ j, k < j → j < forest.size → forest.excludes false j = true) :
    ∃ level other, Streamed entry slot level forest other ∧
      other.schema = forest.schema.set k entry.whole ∧ entry.depth = depth + level := by
  induction forest generalizing depth k with
  | nil => exact nomatch hentry
  | node root rootSlot below next ihb ihn =>
    obtain ⟨hdepth, _, hnestedBelow, hnestedNext⟩ := hnested
    obtain ⟨hroot, hwritableNext⟩ := hwritable
    have hbehind (hk : k < below.size + 1) : next.stencil = [] := by
      apply stencil_of_excluded
      intro j hj
      have hexcluded := hlast (j + below.size + 1) (by omega) (by simp only [size]; omega)
      rwa [excludes_next] at hexcluded
    rcases index_cases below.size k with rfl | ⟨j, hj, rfl⟩ | ⟨j, rfl⟩
    · cases hentry
      cases hslot
      cases below with
      | nil => exact ⟨0, _, .last (hbehind (by omega)), rfl, hdepth⟩
      | node e s inner beside =>
        have hdeeper : e.depth = depth + 1 := hnestedBelow.1
        have hle : e.depth ≤ entry.depth := hleaf e rfl
        omega
    · rw [getElem?_schema_below hj] at hentry
      rw [getElem?_slots_below hj] at hslot
      rw [excludes_below hj, Bool.or_false] at hshown
      have hrootShown := not_hidden_of_excludes hj hshown
      obtain ⟨_, hheld, hwritableBelow⟩ := hroot hrootShown
      rw [hrootShown] at hshown
      obtain ⟨level, other, hstreamed, hschema, hlevel⟩ := ihb hnestedBelow hwritableBelow hentry
        hslot hshown
        (fun e he => hleaf e ((getElem?_schema_below (lt_size he)).trans he))
        (fun i hi hlt => by
          have hexcluded := hlast (i + 1) (by omega) (by simp only [size]; omega)
          rwa [excludes_below hlt, hrootShown] at hexcluded)
      -- a root that nests nothing would have no written entry below it
      have hnests : rootSlot.nests root = true := by
        cases hnests : rootSlot.nests root with
        | true => rfl
        | false => exact absurd (hheld hnests) (hstreamed.ne_nil hstreams)
      refine ⟨level + 1, _, .inside hrootShown hnests (hbehind (by omega)) hstreamed, ?_, by omega⟩
      rw [schema, hschema, schema, List.set_cons_succ, List.set_append_left _ _ (by simpa using hj)]
    · rw [getElem?_schema_next] at hentry
      rw [getElem?_slots_next] at hslot
      rw [excludes_next] at hshown
      obtain ⟨level, other, hstreamed, hschema, hlevel⟩ := ihn hnestedNext hwritableNext hentry
        hslot hshown
        (fun e he => hleaf e (by
          rw [show j + below.size + 1 + 1 = j + 1 + below.size + 1 by omega, getElem?_schema_next]
          exact he))
        (fun i hi hlt => by
          have hexcluded := hlast (i + below.size + 1) (by omega) (by simp only [size]; omega)
          rwa [excludes_next] at hexcluded)
      refine ⟨level, _, .after hstreamed, ?_, hlevel⟩
      rw [schema, hschema, schema, List.set_cons_succ, List.set_append_right _ _ (by simp),
        length_schema, Nat.add_sub_cancel]

end Forest

namespace Encoding

theorem plant_streamed {schema : Schema} {slots : List Slot} {k : Nat} {entry : Entry} {slot : Slot}
    {payload : Bytes} (hvalid : schema.validate = .ok ()) (hlength : slots.length = schema.length)
    (hwritable : (Forest.plant schema slots).Writable) (hentry : schema[k]? = some entry)
    (hslot : slots[k]? = some slot) (hstreams : slot.Streams entry payload)
    (hshown : excluded schema slots k = false)
    (hleaf : ∀ e, schema[k + 1]? = some e → e.depth ≤ entry.depth)
    (hlast : ∀ j, k < j → j < schema.length → excluded schema slots j = true) :
    Forest.Streamed entry slot entry.depth (Forest.plant schema slots)
      (Forest.plant (schema.set k entry.whole) slots) := by
  have hnested := Schema.nested_plant hvalid slots
  have hentries := Forest.schema_plant hlength
  have hgiven := Forest.slots_plant hlength
  have hsize : (Forest.plant schema slots).size = schema.length := by
    rw [← Forest.length_schema, hentries]
  have hk := (List.getElem?_eq_some_iff.mp hentry).1
  obtain ⟨level, other, hstreamed, hschema, hdepth⟩ := Forest.exists_streamed hstreams hnested
    hwritable (hentries.symm ▸ hentry) (hgiven.symm ▸ hslot)
    (excluded_plant hvalid hlength hk ▸ hshown) (hentries.symm ▸ hleaf)
    (fun j hkj hj => by
      rw [hsize] at hj
      exact excluded_plant hvalid hlength hj ▸ hlast j hkj hj)
  have hplant : Forest.plant (schema.set k entry.whole) slots = other := by
    have hother := Forest.plant_of_nested (hstreamed.nested hnested)
    rwa [hschema, hstreamed.slots_eq, hentries, hgiven] at hother
  rw [hplant, show entry.depth = level by omega]
  exact hstreamed

theorem size_streamed {schema : Schema} {slots : List Slot} {k : Nat} {entry : Entry} {slot : Slot}
    {payload : Bytes} {sizing : Sizing} (hsize : size schema slots = .ok sizing)
    (hentry : schema[k]? = some entry) (hstreams : slot.Streams entry payload)
    (hleaf : ∀ e, schema[k + 1]? = some e → e.depth ≤ entry.depth)
    (hstreamed : Forest.Streamed entry slot entry.depth (Forest.plant schema slots)
      (Forest.plant (schema.set k entry.whole) slots))
    (hroom : (Forest.plant schema slots).stencil.length + payload.length + 8 * entry.depth <
      lengthLimit) :
    ∃ whole, size (schema.set k entry.whole) slots = .ok whole ∧ whole.total < lengthLimit := by
  obtain ⟨hvalid, hlength, _, hwritable, _⟩ := size_eq_ok hsize
  have hlimit := Nat.lt_of_le_of_lt (hstreamed.le_length hstreams hroom) hroom
  have hchoices : checkChoices (schema.set k entry.whole) slots = .ok () := by
    rw [checkChoices_set hentry entry.depth_whole rfl]
    exact checkChoices_of_size hsize
  exact ⟨_, size_of_writable (Schema.checkFrom_set hvalid hentry hleaf)
    (hlength.trans List.length_set.symm) hchoices (hstreamed.writable hstreams hwritable)
    (hstreamed.kept hstreams (shown_kept_of_size hsize)) (lt_wordLimit hlimit), hlimit⟩

theorem append_payload {schema : Schema} {slots : List Slot} {k : Nat} {entry : Entry} {slot : Slot}
    {payload : Bytes} {written : Written} (hencode : encode schema slots = .ok written)
    (hentry : schema[k]? = some entry) (hslot : slots[k]? = some slot)
    (hheader : entry.headerOnly = true) (hpayload : slot.value.streamed = some payload)
    (hshown : excluded schema slots k = false) (hleaf : schema.subtreeEnd k = k + 1)
    (hlast : ∀ j, k < j → j < schema.length → excluded schema slots j = true) :
    (written.output.buffer.length + payload.length + 8 * entry.depth < lengthLimit →
      ∃ buffered, encode (schema.set k entry.whole) slots = .ok buffered) ∧
    ∀ buffered, encode (schema.set k entry.whole) slots = .ok buffered →
      (written.output.buffer ++ payload = buffered.output.buffer ↔
        entry.depth = 0 ∨ payload = []) := by
  obtain ⟨sizing, hsize, _⟩ := bind_eq_ok_iff.mp hencode
  obtain ⟨hvalid, hlength, hwritable, _, hbuffer⟩ := encode_eq_ok hencode
  have hstreams : slot.Streams entry payload := by
    refine ⟨hheader, ?_, hpayload⟩
    rw [excluded, List.any_cons, hslot] at hshown
    exact (Bool.or_eq_false_iff.mp hshown).1
  -- what follows on the entry is not nested in it, since its subtree ends there
  have hafter : ∀ e, schema[k + 1]? = some e → e.depth ≤ entry.depth := by
    intro e he
    by_contra hdeep
    have hnests : schema.Nests k (k + 1) := by
      refine Schema.nests_of_deeper hentry (Nat.lt_succ_self k)
        (List.getElem?_eq_some_iff.mp he).1 ?_
      intro m other hkm hmk hother
      obtain rfl : m = k + 1 := by omega
      cases he.symm.trans hother
      omega
    have hend := hnests.2
    omega
  have hstreamed := plant_streamed hvalid hlength hwritable hentry hslot hstreams hshown hafter
    hlast
  constructor
  · intro hroom
    rw [hbuffer, Forest.length_encoding] at hroom
    obtain ⟨whole, hwhole, hlimit⟩ := size_streamed hsize hentry hstreams hafter hstreamed hroom
    exact ⟨_, (encode_of_size hwhole).trans (if_pos hlimit)⟩
  · intro buffered hbuffered
    obtain ⟨_, _, _, hlimit, hoctets⟩ := encode_eq_ok hbuffered
    rw [Forest.length_encoding] at hlimit
    rw [hbuffer, hoctets]
    constructor
    · intro hsame
      by_contra hnone
      obtain ⟨hdepth, hsome⟩ := not_or.mp hnone
      exact hstreamed.encoding_ne hstreams hdepth hsome hlimit hsame
    · intro hlevel
      exact (hstreamed.encoding_eq hstreams hlevel).symm

def trailerSchema : Schema := [.leaf 0 Tag.integer, (Entry.leaf 0 Tag.bitString).header]

def trailerSlots : List Slot := [.ofValue (.uint8 5), .ofValue (.bits [0xAF] 3)]

theorem append_payload_trailer :
    ∃ written, encode trailerSchema trailerSlots = .ok written ∧
      ∃ buffered, encode (trailerSchema.set 1 (.leaf 0 Tag.bitString)) trailerSlots =
          .ok buffered ∧
        written.output.buffer = [0x02, 0x01, 0x05, 0x03, 0x02, 0x03] ∧
        written.output.buffer ++ [0xA8] = buffered.output.buffer := by
  obtain ⟨sizing, hsize, htotal⟩ :
      ∃ sizing, size trailerSchema trailerSlots = .ok sizing ∧ sizing.total = 6 := ⟨_, rfl, rfl⟩
  have hencode := encode_of_size hsize
  rw [htotal, if_pos (by decide)] at hencode
  have hlast : ∀ j, 1 < j → j < trailerSchema.length →
      excluded trailerSchema trailerSlots j = true := by
    intro j hfirst hj
    exact absurd hj (Nat.not_lt.mpr hfirst)
  have hpayload : (Value.bits [0xAF] 3).streamed = some [0xA8] := by decide
  obtain ⟨hroom, hsame⟩ := append_payload hencode rfl rfl rfl hpayload (by decide) rfl hlast
  obtain ⟨buffered, hbuffered⟩ := hroom (by decide +kernel)
  exact ⟨_, hencode, buffered, hbuffered, by decide +kernel, (hsame _ hbuffered).mpr (.inl rfl)⟩

def wrappedSchema : Schema := [.sequence 0, (Entry.leaf 1 0x04).header]

def wrappedSlots : List Slot := [.ofValue .none, .ofValue (.bytes [0xAA])]

theorem payload_uncounted :
    ∃ written, encode wrappedSchema wrappedSlots = .ok written ∧
      ∃ buffered, encode (wrappedSchema.set 1 (.leaf 1 0x04)) wrappedSlots = .ok buffered ∧
        written.output.buffer = [0x30, 0x02, 0x04, 0x01] ∧
        buffered.output.buffer = [0x30, 0x03, 0x04, 0x01, 0xAA] ∧
        written.output.buffer ++ [0xAA] ≠ buffered.output.buffer := by
  obtain ⟨sizing, hsize, htotal⟩ :
      ∃ sizing, size wrappedSchema wrappedSlots = .ok sizing ∧ sizing.total = 4 := ⟨_, rfl, rfl⟩
  obtain ⟨whole, hwhole, hlength⟩ : ∃ sizing,
      size (wrappedSchema.set 1 (.leaf 1 0x04)) wrappedSlots = .ok sizing ∧ sizing.total = 5 :=
    ⟨_, rfl, rfl⟩
  have hencode := encode_of_size hsize
  have hbuffered := encode_of_size hwhole
  rw [htotal, if_pos (by decide)] at hencode
  rw [hlength, if_pos (by decide)] at hbuffered
  exact ⟨_, hencode, _, hbuffered, by decide +kernel, by decide +kernel, by decide +kernel⟩

end Encoding

end DerTemplate
