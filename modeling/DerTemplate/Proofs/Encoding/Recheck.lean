import DerTemplate.Proofs.Encoding.Sizable

namespace DerTemplate

namespace Encoding

open Header

structure Slot.Revised (before now : Slot) : Prop where
  suppressed : now.suppressed = before.suppressed
  length : now.length = before.length
  contentLength : now.contentLength = before.contentLength
  offset : now.offset = before.offset
  sized : now.sized = before.sized

structure Slot.KeepsKind (entry : Entry) (before now : Slot) : Prop where
  replacement : ∀ encoded, before.value = .replace encoded → ∃ other, now.value = .replace other
  header : HeaderKept entry now
  nests : now.nests entry = before.nests entry
  lead : entry.headerOnly = true → (now.leadBytes entry).length = (before.leadBytes entry).length
  fits : (now.leadBytes entry).length + (now.body entry).length < wordLimit

variable {entry : Entry} {slot before now : Slot} {done rest : Bytes} {limit index : Nat}

theorem writeItem_checked (rest : Bytes) (index : Nat)
    (hvalue : ∀ encoded, slot.value ≠ .replace encoded) (hnests : slot.nests entry = false)
    (hfits : (slot.leadBytes entry).length + (slot.body entry).length < wordLimit)
    (hroom : done.length + (1 + lengthSize slot.contentLength) ≤ limit) :
    (∃ error, writeItem entry slot ⟨done ++ rest, limit⟩ done.length index = refuse error) ∨
      (slot.Writable entry ∧ slot.contentLength = slot.declared entry 0) := by
  unfold writeItem
  split
  · rename_i encoded h
    exact absurd h (hvalue encoded)
  have hheader : done.length + (slot.wireTag entry :: lengthOctets slot.contentLength).length ≤
      limit := by
    rwa [List.length_cons, length_lengthOctets, Nat.add_comm (lengthSize _)]
  dsimp only
  rw [put_append _ rfl hheader, ok_bind, if_neg (by simpa [Slot.nests] using hnests)]
  rcases layout_cases entry (slot.baseTag entry) slot.value index with ⟨error, hl⟩ | ⟨l, hl⟩
  · refine .inl ⟨error, ?_⟩
    rw [show layout entry (slot.wireTag entry).base slot.value index = refuse error from hl]
    rfl
  · have hsize := layout_size hl hfits
    rw [show layout entry (slot.wireTag entry).base slot.value index = .ok l from hl, ok_bind,
      hsize, ok_bind]
    by_cases hsame : slot.declared entry 0 = slot.contentLength
    · exact .inr ⟨fun _ => .inr ⟨l, (layout_eq_ok hl).1, hsize⟩, hsame.symm⟩
    · rw [if_neg hsame]
      exact .inl ⟨_, rfl⟩

theorem Slot.KeepsKind.ne_replace (h : before.KeepsKind entry now)
    (hvalue : ∀ encoded, now.value ≠ .replace encoded) (encoded : Bytes) :
    before.value ≠ .replace encoded := by
  intro hbefore
  obtain ⟨other, hother⟩ := h.replacement encoded hbefore
  exact hvalue other hother

theorem Slot.KeepsKind.held (h : before.KeepsKind entry now) (children : Nat) :
    now.held entry children = before.held entry children := by
  rw [Slot.held, Slot.held, h.nests]

section Kind

variable {children after : Nat}
variable (hready : before.Ready entry children after) (hrevised : before.Revised now)
include hready hrevised

theorem ready_replacement {encoded : Bytes} (hvalue : now.value = .replace encoded)
    (hlength : encoded.length = now.length) : now.Ready entry children after := by
  have hnests : now.nests entry = false := by simp [Slot.nests, hvalue, Value.isNone]
  refine ⟨fun _ => .inl ⟨encoded, hvalue⟩, fun h => absurd hvalue (h encoded), ?_, ?_⟩
  · rw [own_of_replace entry hvalue, Slot.held, hnests]
    simp [hlength]
  · rw [hrevised.offset, hready.offset, hrevised.length]

variable (hkind : before.KeepsKind entry now)
include hkind

theorem ready_laid_out (hvalue : ∀ encoded, now.value ≠ .replace encoded)
    (hwritable : now.Writable entry)
    (hcontent : now.contentLength = now.declared entry (now.held entry children)) :
    now.Ready entry children after := by
  have hbefore := hkind.ne_replace hvalue
  have hheld := hkind.held children
  have hdeclared : now.declared entry (before.held entry children) =
      before.declared entry (before.held entry children) := by
    rw [← hheld, ← hcontent, hrevised.contentLength, hready.contentLength hbefore, hheld]
  have hown : (now.own entry (before.held entry children)).length =
      (before.own entry (before.held entry children)).length := by
    rw [length_own entry hvalue, length_own entry hbefore, hdeclared]
    cases hheader : entry.headerOnly with
    | true => rw [hkind.lead hheader, if_pos rfl, if_pos rfl]
    | false =>
      rw [if_neg Bool.false_ne_true, if_neg Bool.false_ne_true]
      unfold Slot.declared at hdeclared
      omega
  refine ⟨hwritable, fun _ => hcontent, ?_, ?_⟩
  · rw [hheld, hown, hrevised.length, hready.length]
  · rw [hrevised.offset, hready.offset, hrevised.length]

theorem ready_nested (hnests : now.nests entry = true) : now.Ready entry children after := by
  have hnested : before.nests entry = true := hkind.nests ▸ hnests
  obtain ⟨hheader, hnone⟩ := Slot.nests_eq_true_iff.mp hnests
  obtain ⟨_, hbefore⟩ := Slot.nests_eq_true_iff.mp hnested
  have hvalue : ∀ encoded, now.value ≠ .replace encoded := by simp [hnone]
  have hcontent := hready.contentLength (by simp [hbefore])
  refine ready_laid_out hready hrevised hkind hvalue ?_ ?_
  · intro h
    rw [hnests] at h
    cases h
  · rw [hrevised.contentLength, hcontent, Slot.declared, Slot.declared, hkind.lead hheader,
      Slot.body_none entry hnone, Slot.body_none entry hbefore, Slot.held, Slot.held, hkind.nests]

theorem ready_revised (rest : Bytes) (index : Nat)
    (hroom : done.length + (before.own entry (before.held entry children)).length ≤ limit) :
    (∃ error, writeItem entry now ⟨done ++ rest, limit⟩ done.length index = refuse error) ∨
      now.Ready entry children after := by
  by_cases hreplace : ∃ encoded, now.value = .replace encoded
  · obtain ⟨encoded, hvalue⟩ := hreplace
    by_cases hlength : encoded.length = now.length
    · exact .inr (ready_replacement hready hrevised hvalue hlength)
    · refine .inl ⟨.internalError (.replacementResized index), ?_⟩
      rw [writeItem, hvalue]
      exact if_neg hlength
  · have hvalue := not_exists.mp hreplace
    cases hnests : now.nests entry with
    | true => exact .inr (ready_nested hready hrevised hkind hnests)
    | false =>
      have hheld : before.held entry children = 0 ∧ now.held entry children = 0 := by
        simp [Slot.held, hnests, ← hkind.nests]
      have hbefore := hkind.ne_replace hvalue
      have hheader : done.length + (1 + lengthSize now.contentLength) ≤ limit := by
        rw [length_own entry hbefore, ← hready.contentLength hbefore] at hroom
        rw [hrevised.contentLength]
        omega
      rcases writeItem_checked rest index hvalue hnests hkind.fits hheader with
        hrefused | ⟨hwritable, hcontent⟩
      · exact .inl hrefused
      · have hkept : now.contentLength = now.declared entry (now.held entry children) := by
          rw [hheld.2, hcontent]
        exact .inr (ready_laid_out hready hrevised hkind hvalue hwritable hkept)

end Kind

end Encoding

namespace Forest

open Encoding

def Kept : Forest (Slot × Slot) → Prop
  | nil => True
  | node entry (before, now) below next =>
    before.Revised now ∧ (now.suppressed = false → before.KeepsKind entry now ∧ below.Kept) ∧
      next.Kept

theorem kept_of_excludes {forest : Forest (Slot × Slot)}
    (h : ∀ i entry before now, forest.schema[i]? = some entry →
      forest.slots[i]? = some (before, now) → before.Revised now ∧
        ((forest.map Prod.snd).excludes false i = false → before.KeepsKind entry now)) :
    forest.Kept := by
  induction forest with
  | nil => trivial
  | node entry pair below next ihb ihn =>
    obtain ⟨before, now⟩ := pair
    obtain ⟨hrevised, hkind⟩ := h 0 entry before now rfl rfl
    refine ⟨hrevised, ?_, ihn ?_⟩
    · intro hshown
      refine ⟨hkind (by simp [map, excludes, hshown]), ihb ?_⟩
      intro i e b n he hpair
      have hi := lt_size he
      have hbelow := h (i + 1) e b n
      rw [getElem?_schema_below hi, getElem?_slots_below hi, map,
        excludes_below (by simpa using hi), hshown] at hbelow
      exact hbelow he hpair
    · intro i e b n he hpair
      have hnext := h (i + below.size + 1) e b n
      rw [getElem?_schema_next, getElem?_slots_next, map, ← size_map Prod.snd below,
        excludes_next] at hnext
      exact hnext he hpair

theorem shown_of_kept {forest : Forest (Slot × Slot)} (h : forest.Kept) :
    (forest.map Prod.snd).Shown HeaderKept := by
  induction forest with
  | nil => trivial
  | node entry pair below next ihb ihn =>
    obtain ⟨_, hshown, hnext⟩ := h
    refine ⟨?_, ihn hnext⟩
    intro hslot
    obtain ⟨hkind, hbelow⟩ := hshown hslot
    exact ⟨hkind.header, ihb hbelow⟩

theorem writable_of_ready {forest : Forest Slot} {after : Nat} (h : forest.Ready after) :
    forest.Writable := by
  induction forest generalizing after with
  | nil => trivial
  | node entry slot below next ihb ihn =>
    obtain ⟨hshown, hnext⟩ := h
    refine ⟨?_, ihn hnext⟩
    intro hslot
    obtain ⟨hready, hheld, hbelow⟩ := hshown hslot
    exact ⟨hready.writable, hheld, ihb hbelow⟩

theorem ready_node_revised {entry : Entry} {before now : Slot}
    {below inner next later : Forest Slot} {after : Nat} (hready : (node entry before below next).Ready after)
    (hrevised : before.Revised now) (hshown : now.suppressed = false)
    (hkind : before.KeepsKind entry now)
    (hnow : now.Ready entry below.stencil.length (after + next.stencil.length))
    (hinner : inner.Ready (after + next.stencil.length))
    (hinside : inner.stencil.length = below.stencil.length) (hlater : later.Ready after)
    (hbehind : later.stencil.length = next.stencil.length) :
    (node entry now inner later).Ready after ∧
      (node entry now inner later).stencil.length =
        (node entry before below next).stencil.length := by
  have hbefore : before.suppressed = false := hrevised.suppressed ▸ hshown
  obtain ⟨hslot, hheld, _⟩ := hready.1 hbefore
  have hnil : now.nests entry = false → inner.stencil = [] := by
    intro h
    rw [← List.length_eq_zero_iff, hinside, hheld (hkind.nests ▸ h), List.length_nil]
  refine ⟨⟨fun _ => ⟨?_, hnil, hbehind ▸ hinner⟩, hlater⟩, ?_⟩
  · rw [hinside, hbehind]
    exact hnow
  · have hnowLength := hnow.length
    have hlength := hslot.length
    have hsame := hrevised.length
    have hkeep := hkind.held below.stencil.length
    rw [stencil_node hshown hnil, stencil_node hbefore hheld]
    simp only [List.length_append, hinside, hbehind]
    omega

end Forest

namespace Encoding

open Schema Stencil

variable {schema : Schema} {slots : List Slot} {place : Place Slot} {done rest : Bytes}
variable {entry : Entry} {before now : Slot} {limit : Nat}

theorem writeEntry_refused {index : Nat} {error : Error} (hdone : done.length + now.offset = limit)
    (h : writeItem entry now ⟨done ++ rest, limit⟩ done.length index = refuse error) :
    writeEntry ⟨slots, ⟨done ++ rest, limit⟩⟩ index entry now = refuse error := by
  have hstart : Word.sub limit now.offset = .ok done.length := by
    rw [Word.sub, if_pos (by omega)]
    congr 1
    omega
  rw [writeEntry, hstart, ok_bind, h]
  rfl

theorem writeEntry_revised {children after : Nat} (hready : before.Ready entry children after)
    (hrevised : before.Revised now) (hkind : before.KeepsKind entry now)
    (hdone : done.length + before.offset = limit) (slots : List Slot) (rest : Bytes) (index : Nat) :
    (∃ error, writeEntry ⟨slots, ⟨done ++ rest, limit⟩⟩ index entry now = refuse error) ∨
      now.Ready entry children after := by
  have hoffset := hready.offset
  have hlength := hready.length
  have hroom : done.length + (before.own entry (before.held entry children)).length ≤ limit := by
    omega
  rcases ready_revised hready hrevised hkind rest index hroom with ⟨error, hitem⟩ | hnow
  · exact .inl ⟨error, writeEntry_refused (by rw [hrevised.offset]; omega) hitem⟩
  · exact .inr hnow

/-- Wherever the revised forest stands, the second pass turns it down, or finds it as if it had just
been sized. -/
def Rechecked (schema : Schema) (limit : Nat) (forest : Forest (Slot × Slot)) : Prop :=
  ∀ (place : Place Slot) (slots : List Slot) (done rest : Bytes) (after : Nat),
    place.Holds schema slots (forest.map Prod.snd) → (forest.map Prod.fst).Ready after →
    forest.Kept → done.length + (forest.map Prod.fst).stencil.length + after = limit →
    limit ≤ done.length + rest.length →
      (∃ error left, writeFrom schema ⟨slots, ⟨done ++ rest, limit⟩⟩ place.index =
        .error ⟨.refused error, left⟩) ∨
      ((forest.map Prod.snd).Ready after ∧
        (forest.map Prod.snd).stencil.length = (forest.map Prod.fst).stencil.length)

section Node

variable {below next : Forest (Slot × Slot)} (hnext : Rechecked schema limit next)
include hnext

theorem rechecked_suppressed (hsuppressed : now.suppressed = true) :
    Rechecked schema limit (.node entry (before, now) below next) := by
  intro place slots done rest after h hready hkept hdone hrest
  obtain ⟨hrevised, _, hkeptNext⟩ := hkept
  have hbefore : before.suppressed = true := hrevised.suppressed ▸ hsuppressed
  simp only [Forest.map, Forest.stencil, hbefore, hsuppressed, if_true, List.nil_append]
    at h hready hdone ⊢
  rw [writeFrom_eq h.getElem_schema h.getElem_slots, hsuppressed, if_pos rfl, h.subtreeEnd]
  rcases hnext _ _ _ _ _ h.holds_skip hready.2 hkeptNext hdone hrest with
    hrefused | ⟨hlater, hlength⟩
  · exact .inl hrefused
  · refine .inr ⟨⟨fun hslot => ?_, hlater⟩, hlength⟩
    rw [hsuppressed] at hslot
    cases hslot

variable (hbelow : Rechecked schema limit below)
include hbelow

-- Once the entry is written, what it nests comes first, then the siblings after it.
theorem rechecked_behind {mark : Slot} {after : Nat}
    (h : place.Holds schema slots (.node entry mark (below.map Prod.snd) (next.map Prod.snd)))
    (hreadyBelow : (below.map Prod.fst).Ready (after + (next.map Prod.fst).stencil.length))
    (hreadyNext : (next.map Prod.fst).Ready after) (hkeptBelow : below.Kept)
    (hkeptNext : next.Kept)
    (hdone : done.length + (below.map Prod.fst).stencil.length +
      (after + (next.map Prod.fst).stencil.length) = limit)
    (hrest : limit ≤ done.length + rest.length) :
    (∃ error left, writeFrom schema ⟨slots, ⟨done ++ rest, limit⟩⟩ (place.index + 1) =
      .error ⟨.refused error, left⟩) ∨
    (((below.map Prod.snd).Ready (after + (next.map Prod.fst).stencil.length) ∧
        (below.map Prod.snd).stencil.length = (below.map Prod.fst).stencil.length) ∧
      (next.map Prod.snd).Ready after ∧
        (next.map Prod.snd).stencil.length = (next.map Prod.fst).stencil.length) := by
  have hholds := h.holds_enter
  rcases hbelow _ _ _ _ _ hholds hreadyBelow hkeptBelow hdone hrest with
    hrefused | ⟨hreadyInner, hinner⟩
  · exact .inl hrefused
  rw [← hinner] at hdone
  have hpass := writeFrom_forest hholds hreadyInner hdone hrest
  have hmine : (mark :: ((below.map Prod.snd).marked done.length).slots).length =
      1 + (below.map Prod.snd).size := by
    simp [Nat.add_comm]
  have hdoneNext : (done ++ (below.map Prod.snd).stencil.fill rest).length +
      (next.map Prod.fst).stencil.length + after = limit := by
    rw [List.length_append, length_fill]
    omega
  rcases hnext _ _ _ _ _ (h.holds_next hmine) hreadyNext hkeptNext hdoneNext
      (limit_behind (below.map Prod.snd).stencil hrest) with
    ⟨error, left, hrefused⟩ | hlater
  · refine .inl ⟨error, left, hpass.trans ?_⟩
    rw [onto, ← List.append_assoc]
    simpa [Place.below, Place.next, Nat.add_assoc] using hrefused
  · exact .inr ⟨⟨hreadyInner, hinner⟩, hlater⟩

theorem rechecked_written (hshown : now.suppressed = false) :
    Rechecked schema limit (.node entry (before, now) below next) := by
  intro place slots done rest after h hready hkept hdone hrest
  obtain ⟨hrevised, hkeptShown, hkeptNext⟩ := hkept
  obtain ⟨hkind, hkeptBelow⟩ := hkeptShown hshown
  have hbefore : before.suppressed = false := hrevised.suppressed ▸ hshown
  simp only [Forest.map] at h hready hdone ⊢
  obtain ⟨hslot, hheld, hreadyBelow⟩ := hready.1 hbefore
  rw [Forest.stencil_node hbefore hheld, List.length_append, List.length_append] at hdone
  have hsize : before.held entry (below.map Prod.fst).stencil.length =
      (below.map Prod.fst).stencil.length :=
    Slot.held_eq fun h => List.length_eq_zero_iff.mpr (hheld h)
  have hoffset := hslot.offset
  have hlength := hslot.length
  have hstart : done.length + before.offset = limit := by omega
  rcases writeEntry_revised hslot hrevised hkind hstart slots rest place.index with
    ⟨error, hentry⟩ | hnow
  · refine .inl ⟨error, slots, ?_⟩
    rw [writeFrom_eq h.getElem_schema h.getElem_slots, hshown, if_neg Bool.false_ne_true, hentry]
    rfl
  have hnowLength := hnow.length
  have hsame := hrevised.length
  have hkeep := (hkind.held _).trans hsize
  have hdoneBelow : (done ++ (now.own entry (now.held entry
      (below.map Prod.fst).stencil.length)).fill rest).length +
        (below.map Prod.fst).stencil.length + (after + (next.map Prod.fst).stencil.length) =
          limit := by
    rw [List.length_append, length_fill]
    omega
  rw [writeFrom_entry h hshown hnow (hrevised.offset ▸ hstart) hrest]
  rcases rechecked_behind hnext hbelow (h.holds_mark _) hreadyBelow hready.2 hkeptBelow hkeptNext
      hdoneBelow (limit_behind _ hrest) with hrefused | ⟨⟨hreadyInner, hinner⟩, hlater, hbehind⟩
  · exact .inl hrefused
  · exact .inr (Forest.ready_node_revised hready hrevised hshown hkind hnow hreadyInner hinner
      hlater hbehind)

end Node

theorem rechecked (schema : Schema) (limit : Nat) (forest : Forest (Slot × Slot)) :
    Rechecked schema limit forest := by
  induction forest with
  | nil => exact fun _ _ _ _ _ _ _ _ _ _ => .inr ⟨trivial, rfl⟩
  | node entry pair below next ihb ihn =>
    cases hsuppressed : pair.2.suppressed with
    | true => exact rechecked_suppressed ihn hsuppressed
    | false => exact rechecked_written ihn ihb hsuppressed

end Encoding

end DerTemplate
