import DerTemplate.Proofs.Encoding.FirstPass

namespace DerTemplate

namespace Encoding

open Stencil Header Schema

variable {entry : Entry} {slot : Slot} {done rest : Bytes} {limit : Nat}

structure Slot.Ready (slot : Slot) (entry : Entry) (children after : Nat) : Prop where
  writable : slot.Writable entry
  contentLength : (∀ encoded, slot.value ≠ .replace encoded) →
    slot.contentLength = slot.declared entry (slot.held entry children)
  length : slot.length =
    (slot.own entry (slot.held entry children)).length + slot.held entry children
  offset : slot.offset = after + slot.length

theorem put_append {pos : Nat} (bytes : Bytes) (hpos : pos = done.length)
    (h : pos + bytes.length ≤ limit) :
    Output.put ⟨done ++ rest, limit⟩ pos bytes =
      .ok ⟨done ++ bytes ++ rest.drop bytes.length, limit⟩ := by
  subst hpos
  rw [Output.put, if_pos h]
  simp only [Bytes.overlay, List.take_left, List.drop_append, Nat.add_sub_cancel_left,
    List.drop_eq_nil_of_le (Nat.le_add_right done.length bytes.length), List.nil_append]

def Slot.head (slot : Slot) (entry : Entry) (nested : Nat) : Bytes :=
  slot.wireTag entry :: lengthOctets (slot.declared entry nested) ++ slot.leadBytes entry

theorem own_of_replace (entry : Entry) {encoded : Bytes} (hvalue : slot.value = .replace encoded)
    (nested : Nat) :
    slot.own entry nested = solid encoded := by
  unfold Slot.own
  rw [hvalue]

theorem own_eq_head (entry : Entry) (hvalue : ∀ encoded, slot.value ≠ .replace encoded)
    (nested : Nat) :
    slot.own entry nested =
      solid (slot.head entry nested) ++ if entry.headerOnly then [] else slot.body entry := by
  unfold Slot.own
  split
  · rename_i encoded h
    exact absurd h (hvalue encoded)
  · rfl

theorem onto_solid_append (bytes : Bytes) (stencil : Stencil) (rest : Bytes) :
    (solid bytes ++ stencil).onto rest = bytes ++ stencil.onto (rest.drop bytes.length) := by
  simp only [onto, fill_append, fill_solid, length_solid, List.length_append, List.append_assoc,
    List.drop_drop]

theorem onto_gap {length : Nat} (h : length ≤ rest.length) : (gap length).onto rest = rest := by
  rw [onto, fill_gap h, length_gap, List.take_append_drop]

theorem writeBody (done rest : Bytes) (limit : Nat) {l : Layout} {index : Nat}
    (hvalue : ∀ encoded, slot.value ≠ .replace encoded)
    (hl : layout entry (slot.baseTag entry) slot.value index = .ok l)
    (hroom : done.length + (slot.body entry).length ≤ limit)
    (hlimit : limit ≤ done.length + rest.length) :
    (do
      let out ← Output.keep ⟨done ++ rest, limit⟩ done.length l.payload
      match ← payload (slot.baseTag entry) slot.value l.payload index with
      | none => return (out, done.length + l.payload)
      | some bytes =>
        let out ← out.put done.length bytes
        return (out, done.length + l.payload) : Outcome (Output × Nat)) =
      .ok (⟨done ++ (slot.body entry).onto rest, limit⟩,
        done.length + (slot.body entry).length) := by
  have hlength : l.payload = (slot.body entry).length := (layout_eq_ok hl).2.2
  obtain ⟨written, hpayload, hbody⟩ := payload_of_layout hl hvalue index
  have hbody : slot.body entry = written.elim (gap l.payload) solid := hbody
  rw [← hlength] at hroom
  rw [Output.keep, if_pos hroom, ok_bind, hpayload, ok_bind]
  cases written with
  | none =>
    have hover : (slot.body entry).onto rest = rest := by
      rw [hbody]
      exact onto_gap (by omega)
    rw [hover, ← hlength]
    rfl
  | some bytes =>
    have hbytes : slot.body entry = solid bytes := hbody
    have hsize : bytes.length = l.payload := by rw [hlength, hbytes, length_solid]
    dsimp only
    rw [put_append bytes rfl (by omega), ok_bind, ← hlength, hbytes, onto, fill_solid,
      length_solid, List.append_assoc]
    rfl

theorem writeItem_replace {index : Nat} {encoded : Bytes} (hvalue : slot.value = .replace encoded)
    (hlength : encoded.length = slot.length) (hroom : done.length + encoded.length ≤ limit) :
    writeItem entry slot ⟨done ++ rest, limit⟩ done.length index =
      .ok (⟨done ++ (solid encoded).onto rest, limit⟩, done.length + encoded.length) := by
  rw [writeItem, hvalue]
  dsimp only
  rw [if_pos hlength, put_append encoded rfl hroom, ok_bind, onto, fill_solid, length_solid,
    List.append_assoc]
  rfl

theorem writeItem_whole {index children after : Nat} (hready : slot.Ready entry children after)
    (hvalue : ∀ encoded, slot.value ≠ .replace encoded)
    (hroom : done.length + (slot.own entry (slot.held entry children)).length ≤ limit)
    (hlimit : limit ≤ done.length + rest.length) :
    writeItem entry slot ⟨done ++ rest, limit⟩ done.length index =
      .ok (⟨done ++ (slot.own entry (slot.held entry children)).onto rest, limit⟩,
        done.length + (slot.own entry (slot.held entry children)).length) := by
  unfold writeItem
  split
  · rename_i encoded h
    exact absurd h (hvalue encoded)
  have hown := own_eq_head entry hvalue (slot.held entry children)
  rw [hready.contentLength hvalue]
  dsimp only
  rw [hown, List.length_append, length_solid, Slot.head] at hroom
  rw [hown, Slot.head]
  generalize slot.wireTag entry ::
    lengthOctets (slot.declared entry (slot.held entry children)) = header at hroom ⊢
  rw [List.length_append] at hroom
  rw [put_append _ rfl (by omega), ok_bind]
  cases hnests : slot.nests entry with
  | true =>
    obtain ⟨hheader, hempty⟩ := Slot.nests_eq_true_iff.mp hnests
    have hnone : slot.value.isNone = true := by rw [hempty, Value.isNone]
    have hlead : leadBytes (wholeBits entry (slot.wireTag entry).base) = slot.leadBytes entry :=
      (Slot.leadBytes_none entry hempty).symm
    rw [if_pos ⟨hheader, hnone⟩, hlead, put_append _ (by simp) (by omega), ok_bind, hheader,
      if_pos rfl, List.append_nil, onto, fill_solid, length_solid]
    simp only [List.length_append, List.append_assoc, List.drop_drop, Nat.add_assoc]
    rfl
  | false =>
    rcases hready.writable hnests with ⟨encoded, h⟩ | ⟨l, hl, hsize⟩
    · exact absurd h (hvalue encoded)
    have hheld : slot.held entry children = 0 := by simp [Slot.held, hnests]
    have hlead : leadBytes l.lead = slot.leadBytes entry := by
      rw [(layout_eq_ok (hl 0)).2.1]
      rfl
    have hl : layout entry (slot.wireTag entry).base slot.value index = .ok l := hl index
    rw [if_neg (by simpa [Slot.nests] using hnests), hl, ok_bind, hsize, ok_bind, hheld,
      if_pos rfl, hlead, put_append _ (by simp) (by omega), ok_bind]
    cases hheader : entry.headerOnly with
    | true =>
      rw [if_pos rfl, if_pos rfl, List.append_nil, onto, fill_solid, length_solid]
      simp only [List.length_append, List.append_assoc, List.drop_drop, Nat.add_assoc]
      rfl
    | false =>
      rw [hheader, if_neg Bool.false_ne_true] at hroom
      have hbody := writeBody (done ++ header ++ slot.leadBytes entry)
        ((rest.drop header.length).drop (slot.leadBytes entry).length) limit hvalue hl
        (by simp; omega) (by simp; omega)
      rw [if_neg Bool.false_ne_true, if_neg Bool.false_ne_true, onto_solid_append]
      simp only [List.length_append, List.append_assoc, List.drop_drop, Nat.add_assoc,
        length_solid] at hbody ⊢
      exact hbody

theorem writeItem_ready {index children after : Nat} (hready : slot.Ready entry children after)
    (hroom : done.length + (slot.own entry (slot.held entry children)).length ≤ limit)
    (hlimit : limit ≤ done.length + rest.length) :
    writeItem entry slot ⟨done ++ rest, limit⟩ done.length index =
      .ok (⟨done ++ (slot.own entry (slot.held entry children)).onto rest, limit⟩,
        done.length + (slot.own entry (slot.held entry children)).length) := by
  by_cases hreplace : ∃ encoded, slot.value = .replace encoded
  · obtain ⟨encoded, hvalue⟩ := hreplace
    have hown := own_of_replace entry hvalue (slot.held entry children)
    have hnests : slot.nests entry = false := by simp [Slot.nests, hvalue, Value.isNone]
    have hlength : encoded.length = slot.length := by
      rw [hready.length, hown, Slot.held, hnests]
      simp
    rw [hown, length_solid] at hroom ⊢
    exact writeItem_replace hvalue hlength hroom
  · exact writeItem_whole hready (not_exists.mp hreplace) hroom hlimit

end Encoding

namespace Forest

open Encoding

def Ready : Nat → Forest Slot → Prop
  | _, nil => True
  | after, node entry slot below next =>
    (slot.suppressed = false →
      slot.Ready entry below.stencil.length (after + next.stencil.length) ∧
        (slot.nests entry = false → below.stencil = []) ∧
        below.Ready (after + next.stencil.length)) ∧ next.Ready after

def marked : Nat → Forest Slot → Forest Slot
  | _, nil => nil
  | start, node entry slot below next =>
    if slot.suppressed then node entry slot below (next.marked start)
    else
      let stop := start + (slot.own entry (slot.held entry below.stencil.length)).length
      node entry { slot with placeholderAt := placeholderStart entry slot stop }
        (below.marked stop) (next.marked (stop + below.stencil.length))

@[simp] theorem size_marked (start : Nat) (forest : Forest Slot) :
    (forest.marked start).size = forest.size := by
  induction forest generalizing start with
  | nil => rfl
  | node entry slot below next ihb ihn =>
    unfold marked
    split <;> simp only [size, ihb, ihn]

theorem stencil_node {entry : Entry} {slot : Slot} (h : slot.suppressed = false)
    {below : Forest Slot} (hheld : slot.nests entry = false → below.stencil = [])
    (next : Forest Slot) :
    (node entry slot below next).stencil =
      slot.own entry (slot.held entry below.stencil.length) ++ below.stencil ++ next.stencil := by
  rw [stencil, h, if_neg Bool.false_ne_true, Slot.item, Slot.held]
  cases hnests : slot.nests entry with
  | true => simp
  | false => simp [hheld hnests]

end Forest

namespace Encoding

open Stencil Schema

theorem writeFrom_eq {schema : Schema} {written : Written} {i : Nat} {entry : Entry} {slot : Slot}
    (hentry : schema[i]? = some entry) (hslot : written.slots[i]? = some slot) :
    writeFrom schema written i =
      if slot.suppressed then writeFrom schema written (schema.subtreeEnd i)
      else (writeEntry written i entry slot).leaving written.slots >>= fun next =>
        writeFrom schema next (i + 1) := by
  obtain ⟨hlt, hget⟩ := List.getElem?_eq_some_iff.mp hentry
  rw [writeFrom, dif_pos hlt]
  simp only [hslot, hget]

theorem writeFrom_length {schema : Schema} {written : Written} {i : Nat}
    (h : schema.length ≤ i) : writeFrom schema written i = .ok written := by
  rw [writeFrom, dif_neg (Nat.not_lt.mpr h)]

theorem onto_append (a b : Stencil) (rest : Bytes) :
    (a ++ b).onto rest = a.fill rest ++ b.onto (rest.drop a.length) := by
  simp only [onto, fill_append, List.length_append, List.append_assoc, List.drop_drop]

variable {schema : Schema} {slots : List Slot} {place : Place Slot}
variable {entry : Entry} {slot : Slot} {below next : Forest Slot} {done rest : Bytes}

theorem writeEntry_ready {children after limit : Nat}
    (h : place.Holds schema slots (.node entry slot below next))
    (hready : slot.Ready entry children after)
    (hdone : done.length + slot.offset = limit) (hrest : limit ≤ done.length + rest.length) :
    writeEntry ⟨slots, ⟨done ++ rest, limit⟩⟩ place.index entry slot =
      .ok ⟨place.preSlots ++ { slot with
          placeholderAt := placeholderStart entry slot
            (done.length + (slot.own entry (slot.held entry children)).length) } ::
          (below.slots ++ (next.slots ++ place.postSlots)),
        ⟨done ++ (slot.own entry (slot.held entry children)).onto rest, limit⟩⟩ := by
  have hoffset := hready.offset
  have hlength := hready.length
  have hstart : Word.sub limit slot.offset = .ok done.length := by
    rw [Word.sub, if_pos (by omega)]
    congr 1
    omega
  rw [writeEntry, hstart, ok_bind, writeItem_ready hready (by omega) hrest, ok_bind]
  dsimp only
  rw [h.set_slots]
  rfl

theorem writeFrom_entry {children after limit : Nat}
    (h : place.Holds schema slots (.node entry slot below next))
    (hshown : slot.suppressed = false) (hready : slot.Ready entry children after)
    (hdone : done.length + slot.offset = limit) (hrest : limit ≤ done.length + rest.length) :
    writeFrom schema ⟨slots, ⟨done ++ rest, limit⟩⟩ place.index =
      writeFrom schema ⟨place.preSlots ++ { slot with
          placeholderAt := placeholderStart entry slot
            (done.length + (slot.own entry (slot.held entry children)).length) } ::
          (below.slots ++ (next.slots ++ place.postSlots)),
        ⟨done ++ (slot.own entry (slot.held entry children)).fill rest ++
          rest.drop (slot.own entry (slot.held entry children)).length, limit⟩⟩
        (place.index + 1) := by
  have hnot : ¬slot.suppressed = true := by simp [hshown]
  rw [writeFrom_eq h.getElem_schema h.getElem_slots, if_neg hnot,
    writeEntry_ready h hready hdone hrest, Outcome.leaving_ok, ok_bind, onto, List.append_assoc]

theorem limit_behind {limit : Nat} (stencil : Stencil) (hrest : limit ≤ done.length + rest.length) :
    limit ≤ (done ++ stencil.fill rest).length + (rest.drop stencil.length).length := by
  simp only [List.length_append, length_fill, List.length_drop]
  omega

theorem writeFrom_forest {forest : Forest Slot} {after limit : Nat}
    (h : place.Holds schema slots forest) (hready : forest.Ready after)
    (hdone : done.length + forest.stencil.length + after = limit)
    (hrest : limit ≤ done.length + rest.length) :
    writeFrom schema ⟨slots, ⟨done ++ rest, limit⟩⟩ place.index =
      writeFrom schema
        ⟨place.preSlots ++ ((forest.marked done.length).slots ++ place.postSlots),
          ⟨done ++ forest.stencil.onto rest, limit⟩⟩ (place.index + forest.size) := by
  induction forest generalizing place slots done rest after with
  | nil =>
    rw [h.slots]
    rfl
  | node entry slot below next ihb ihn =>
    obtain ⟨hreadyEntry, hreadyNext⟩ := hready
    cases hsuppressed : slot.suppressed with
    | true =>
      have hstencil : (Forest.node entry slot below next).stencil = next.stencil := by
        simp [Forest.stencil, hsuppressed]
      rw [hstencil] at hdone ⊢
      rw [writeFrom_eq h.getElem_schema h.getElem_slots, hsuppressed, if_pos rfl, h.subtreeEnd]
      refine (ihn h.holds_skip hreadyNext hdone hrest).trans ?_
      simp [Place.next, Forest.marked, hsuppressed, Forest.slots, Forest.size, Nat.add_assoc]
    | false =>
      obtain ⟨hslotReady, hheld, hreadyBelow⟩ := hreadyEntry hsuppressed
      have hstencil := Forest.stencil_node hsuppressed hheld next
      rw [hstencil] at hdone ⊢
      rw [List.length_append, List.length_append] at hdone
      have hoffset := hslotReady.offset
      have hlength := hslotReady.length
      have hsize : slot.held entry below.stencil.length = below.stencil.length :=
        Slot.held_eq fun h => List.length_eq_zero_iff.mpr (hheld h)
      rw [writeFrom_entry h hsuppressed hslotReady (by omega) hrest]
      generalize hown : slot.own entry (slot.held entry below.stencil.length) = own at *
      generalize hmark : ({ slot with
        placeholderAt := placeholderStart entry slot (done.length + own.length) } : Slot) = mark
      -- what the entry nests follows its own octets, and the siblings after it follow that
      have hrestBelow := limit_behind own hrest
      have hbelow := ihb (h.holds_below mark rfl) hreadyBelow
        (show (done ++ own.fill rest).length + below.stencil.length + _ = limit by simp; omega)
        hrestBelow
      generalize hbelowMarked : below.marked (done ++ own.fill rest).length = belowMarked at hbelow
      have hmine : (mark :: belowMarked.slots).length = 1 + below.size := by
        simp [← hbelowMarked, Nat.add_comm]
      have hnext := ihn (h.holds_next hmine) hreadyNext
        (show (done ++ own.fill rest ++ below.stencil.fill (rest.drop own.length)).length +
          next.stencil.length + after = limit by simp; omega)
        (limit_behind below.stencil hrestBelow)
      have hmarked : ((Forest.node entry slot below next).marked done.length).slots =
          mark :: (belowMarked.slots ++ (next.marked
            (done ++ own.fill rest ++ below.stencil.fill (rest.drop own.length)).length).slots) := by
        rw [Forest.marked, if_neg (by simp [hsuppressed]), hown, ← hmark, ← hbelowMarked]
        simp [Forest.slots, Nat.add_assoc]
      rw [hmarked, onto_append, fill_append]
      simp only [List.append_assoc, Place.below, List.cons_append, List.nil_append, onto,
        List.drop_drop, Nat.add_assoc, Place.next, List.length_append, length_fill,
        Forest.size] at hbelow hnext ⊢
      exact hbelow.trans hnext

end Encoding

end DerTemplate
