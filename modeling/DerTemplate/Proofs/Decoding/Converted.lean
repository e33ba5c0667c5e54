import DerTemplate.Proofs.Canonical.Conversion
import DerTemplate.Proofs.Canonical.Relength
import DerTemplate.Proofs.Decoding.Simulation
import DerTemplate.Proofs.Decoding.Steps
import Mathlib.Data.List.Forall2

namespace DerTemplate.Decoding

open Canonical (Ber Relengthed)
open Header (Identifier IsLength lengthOctets)

structure Congruent (entry : Entry) : Prop where
  header : entry.wireTag.isConstructed = true → entry.headerOnly = true
  whole : entry.wireTag.isConstructed = true → entry.wireTag.isFragmentable = false
  number : entry.wireTag.hasLongNumber = false

def Legible (entry : Entry) (slot : Slot) : Prop :=
  Congruent entry ∧ ∀ tags, slot.destination ≠ .choice tags

/-- Two slots that hold the same, up to the places of their items. What is kept of a constructed
item may differ in its length octets. -/
structure Agrees (slot other : Slot) : Prop where
  destination : other.destination = slot.destination
  present : other.present = slot.present
  tag : other.tag = slot.tag
  unusedBits : other.unusedBits = slot.unusedBits
  zeroPadded : other.zeroPadded = slot.zeroPadded
  value : other.value = slot.value ∨
    slot.destination = .content ∧ slot.tag.isConstructed = true ∧
      ∃ content shorter, slot.value = .bytes content ∧ other.value = .bytes shorter ∧
        Relengthed content shorter

theorem Agrees.absent (slot : Slot) (pos other : Nat) :
    Agrees (slot.markAbsent pos) (slot.markAbsent other) := ⟨rfl, rfl, rfl, rfl, rfl, .inl rfl⟩

theorem Agrees.refl (slot : Slot) : Agrees slot slot := ⟨rfl, rfl, rfl, rfl, rfl, .inl rfl⟩

variable {options : Options} {input output octets raw : Bytes} {forest : Forest Slot}
variable {entry : Entry} {destination : Destination} {index pos stop : Nat} {more : Bool}
variable {met : Option Nat} {slots : List Slot} {reached : Nat} {tag : Tag}

section Definite

variable {tree : Ber}

theorem holds_behind {behind : Bytes} (h : input.Holds pos (tag :: (octets ++ raw) ++ behind)) :
    input.Holds (pos + 1 + octets.length + raw.length) behind := by
  have hbehind := (Bytes.holds_append_iff.mp h).2
  rw [List.length_cons, List.length_append] at hbehind
  convert hbehind using 1
  omega

theorem single_of_holds {identifier : Identifier} {behind : Bytes}
    (hholds : input.Holds pos (identifier.octets ++ behind)) (htag : input[pos]? = some tag)
    (hnumber : tag.hasLongNumber = false) :
    identifier.first = tag ∧ identifier.octets = [tag] ∧ input.Holds (pos + 1) behind := by
  have hfirst := (Bytes.holds_cons_iff.mp (Bytes.holds_append_iff.mp hholds).1).1
  obtain rfl : identifier.first = tag := Option.some.inj (hfirst.symm.trans htag)
  have hoctets : identifier.octets = [identifier.first] := by
    rw [Identifier.octets, identifier.number_of_short hnumber]
  rw [hoctets] at hholds
  exact ⟨rfl, hoctets, (Bytes.holds_cons_iff.mp hholds).2⟩

theorem head_of_item (hvalid : tree.Valid) (hholds : input.Holds pos tree.octets)
    (hpeek : peekAt input (pos + tree.octets.length) pos = some tag)
    (hnumber : tag.hasLongNumber = false)
    (hwhole : tag.isConstructed = true → tag.isFragmentable = false)
    (hlength : IsLength octets raw.length) (hraw : input.Holds (pos + 1) (octets ++ raw)) :
    ∃ inner next : Ber, next.Valid ∧ tree.octets = tag :: (octets ++ raw) ++ next.octets ∧
      (tag.isConstructed = true → inner.Valid ∧ inner.octets = raw) ∧
      ((tag.isConstructed = true → inner.Definite) → next.Definite → tree.Definite) := by
  obtain ⟨hpos, htag⟩ := peekAt_eq_some_iff.mp hpeek
  cases tree with
  | nil => exact absurd hpos (Nat.lt_irrefl pos)
  | primitive identifier length content next =>
    obtain ⟨hprimitive, hdeclared, hnext⟩ := hvalid
    rw [Ber.octets, Canonical.whole_definite] at hholds ⊢
    obtain ⟨rfl, hoctets, hbehind⟩ :=
      single_of_holds (Bytes.holds_append_iff.mp hholds).1 htag hnumber
    obtain ⟨rfl, rfl⟩ := Header.content_unique hlength hdeclared hraw hbehind
    refine ⟨.nil, next, hnext, by rw [hoctets]; rfl, ?_, fun _ hdefinite => hdefinite⟩
    rw [hprimitive]
    intro h
    cases h
  | nested identifier length inner next =>
    obtain ⟨⟨hconstructed, _⟩, hdeclared, hinner, hnext⟩ := hvalid
    cases length with
    | none =>
      rw [Ber.octets, Canonical.whole, Canonical.header, List.append_assoc] at hholds
      obtain ⟨_, _, hbehind⟩ :=
        single_of_holds (Bytes.holds_append_iff.mp hholds).1 htag hnumber
      exact absurd (Bytes.holds_append_iff.mp hbehind).1
        (Header.not_indefinite_of_isLength hlength (Bytes.holds_append_iff.mp hraw).1)
    | some length =>
      rw [Ber.octets, Canonical.whole_definite] at hholds ⊢
      obtain ⟨rfl, hoctets, hbehind⟩ :=
        single_of_holds (Bytes.holds_append_iff.mp hholds).1 htag hnumber
      obtain ⟨rfl, rfl⟩ := Header.content_unique hlength (hdeclared length rfl) hraw hbehind
      exact ⟨inner, next, hnext, by rw [hoctets]; rfl, fun _ => ⟨hinner, rfl⟩,
        fun hinside hdefinite => ⟨rfl, hinside hconstructed, hdefinite⟩⟩
  | string identifier length fragments next =>
    obtain ⟨⟨hconstructed, hfragmentable⟩, _⟩ := hvalid
    rw [Ber.octets, Canonical.whole, Canonical.header, List.append_assoc] at hholds
    obtain ⟨rfl, _⟩ := single_of_holds (Bytes.holds_append_iff.mp hholds).1 htag hnumber
    rw [hwhole hconstructed] at hfragmentable
    cases hfragmentable

theorem eq_nil_of_octets (h : tree.octets.length = 0) : tree = .nil := by
  cases tree with
  | nil => rfl
  | primitive identifier length content next =>
    have hpos := Canonical.length_header_pos identifier (some length)
    rw [Ber.octets, List.length_append, Canonical.length_whole] at h
    omega
  | nested identifier length inner next =>
    have hpos := Canonical.length_header_pos identifier length
    rw [Ber.octets, List.length_append, Canonical.length_whole] at h
    omega
  | string identifier length fragments next =>
    have hpos := Canonical.length_header_pos identifier length
    rw [Ber.octets, List.length_append, Canonical.length_whole] at h
    omega

theorem head_of_taken {slot read : Slot} {item : Item} {taken : Bool}
    (hlegible : Legible entry slot) (hvalid : tree.Valid) (hholds : input.Holds pos tree.octets)
    (hstop : stop = pos + tree.octets.length)
    (hseek : seek entry slot.destination input index stop taken pos = .ok (some tag))
    (hread : readItem options entry slot.destination input pos stop tag index = .ok (read, item)) :
    ∃ inner next : Ber, next.Valid ∧ input.Holds item.stop next.octets ∧
      stop = item.stop + next.octets.length ∧
      (entry.wireTag.isConstructed = true → inner.Valid ∧
        input.Holds item.contentStart inner.octets ∧
        item.stop = item.contentStart + inner.octets.length) ∧
      ((entry.wireTag.isConstructed = true → inner.Definite) → next.Definite → tree.Definite) := by
  obtain ⟨hcongruent, hchoice⟩ := hlegible
  obtain ⟨octets, raw, lead, value, hlength, hraw, _, hlead, rfl, _⟩ := readItem_eq_ok_iff.mp hread
  obtain rfl := tag_of_seek hchoice hseek
  have hpeek := (seek_eq_some hseek).1
  rw [hstop] at hpeek
  obtain ⟨inner, next, hvalidNext, hoctets, hinner, hdefinite⟩ := head_of_item hvalid hholds hpeek
    hcongruent.number hcongruent.whole hlength hraw
  have hsize := congrArg List.length hoctets
  simp only [List.length_append, List.length_cons] at hsize
  refine ⟨inner, next, hvalidNext, holds_behind (hoctets ▸ hholds), ?_, ?_, hdefinite⟩
  · rw [hstop, Item.holding]
    dsimp only
    omega
  · intro hconstructed
    obtain ⟨hvalidInner, rfl⟩ := hinner hconstructed
    rw [Lead.ofContent, hconstructed, if_pos rfl] at hlead
    cases hlead
    exact ⟨hvalidInner, (Bytes.holds_append_iff.mp hraw).2, rfl⟩

theorem definite_of_descends
    (h : Descends options input forest index stop more met pos slots reached)
    (hlegible : forest.All Legible) (hmore : more = true) (hreached : reached = stop)
    (hvalid : tree.Valid) (hholds : input.Holds pos tree.octets)
    (hstop : stop = pos + tree.octets.length) : tree.Definite := by
  -- on the descent: every item that it takes is the first of what is left of the tree
  induction h generalizing tree with
  | nil =>
    rw [eq_nil_of_octets (show tree.octets.length = 0 by omega)]
    trivial
  | passed hseek hrun hnext ih => exact ih hlegible.2.2 hmore hreached hvalid hholds hstop
  | leaf hseek hread hheader hnext ih =>
    obtain ⟨hentry, _, hlegibleNext⟩ := hlegible
    obtain ⟨inner, next, hvalidNext, hbehind, hstopNext, _, hdefinite⟩ :=
      head_of_taken hentry hvalid hholds hstop hseek hread
    apply hdefinite
    · intro hconstructed
      rw [hentry.1.header hconstructed] at hheader
      cases hheader
    · exact ih hlegibleNext hmore hreached hvalidNext hbehind hstopNext
  | header hseek hread hheader hinside hend hnext ihInner ihNext =>
    obtain ⟨hentry, hlegibleBelow, hlegibleNext⟩ := hlegible
    obtain ⟨inner, next, hvalidNext, hbehind, hstopNext, hinner, hdefinite⟩ :=
      head_of_taken hentry hvalid hholds hstop hseek hread
    have hclosed := checkEnd_eq_ok_iff.mp hend (by rw [hmore]; rfl)
    apply hdefinite
    · intro hconstructed
      obtain ⟨hvalidInner, hcontent, hstopInner⟩ := hinner hconstructed
      exact ihInner hlegibleBelow (by rw [hmore]; rfl) hclosed hvalidInner hcontent hstopInner
    · rw [hclosed] at ihNext
      exact ihNext hlegibleNext hmore hreached hvalidNext hbehind hstopNext

end Definite

def Facing (input output : Bytes) (pos stop other otherStop : Nat) : Prop :=
  ∃ part shorter, Relengthed part shorter ∧ input.Holds pos part ∧ output.Holds other shorter ∧
    stop = pos + part.length ∧ otherStop = other + shorter.length

section Facing

variable {other otherStop : Nat}

theorem peekAt_of_holds {part : Bytes} (hholds : input.Holds pos part) :
    peekAt input (pos + part.length) pos = part.head? := by
  cases part with
  | nil => exact if_neg (Nat.lt_irrefl pos)
  | cons b rest =>
    rw [peekAt, if_pos (by simp), (Bytes.holds_cons_iff.mp hholds).1]
    rfl

theorem head_relengthed {part shorter : Bytes} (h : Relengthed part shorter) :
    shorter.head? = part.head? := by
  cases h <;> rfl

theorem Facing.peekAt_eq (h : Facing input output pos stop other otherStop) :
    peekAt output otherStop other = peekAt input stop pos := by
  obtain ⟨part, shorter, hrelengthed, hholds, hother, rfl, rfl⟩ := h
  rw [peekAt_of_holds hholds, peekAt_of_holds hother, head_relengthed hrelengthed]

theorem Facing.closed (h : Facing input output pos stop other otherStop) (hpos : pos = stop) :
    other = otherStop := by
  obtain ⟨part, shorter, hrelengthed, _, _, hstop, hotherStop⟩ := h
  have hle := hrelengthed.length_le
  omega

theorem facing_drop {part : Bytes} {k : Nat} (hk : k ≤ part.length)
    (hholds : input.Holds pos part) (hother : output.Holds other part) :
    Facing input output (pos + k) (pos + part.length) (other + k) (other + part.length) := by
  refine ⟨part.drop k, part.drop k, .same _, hholds.drop hk, hother.drop hk, ?_, ?_⟩ <;>
  · rw [List.length_drop]
    omega

theorem Facing.item (h : Facing input output pos stop other otherStop)
    (hpeek : peekAt input stop pos = some tag) (hnumber : tag.hasLongNumber = false)
    (hlength : IsLength octets raw.length) (hraw : input.Holds (pos + 1) (octets ++ raw))
    (hbound : pos + 1 + octets.length + raw.length ≤ stop) :
    ∃ octets' raw', IsLength octets' raw'.length ∧ output.Holds (other + 1) (octets' ++ raw') ∧
      other + 1 + octets'.length + raw'.length ≤ otherStop ∧ Relengthed raw raw' ∧
      (tag.isConstructed = false → raw' = raw) ∧
      Facing input output (pos + 1 + octets.length + raw.length) stop
        (other + 1 + octets'.length + raw'.length) otherStop := by
  obtain ⟨hpos, htag⟩ := peekAt_eq_some_iff.mp hpeek
  obtain ⟨part, shorter, hrelengthed, hholds, hother, rfl, rfl⟩ := h
  cases hrelengthed with
  | same =>
    have hitem : input.Holds pos (tag :: (octets ++ raw)) := Bytes.holds_cons_iff.mpr ⟨htag, hraw⟩
    obtain ⟨behind, rfl⟩ := hholds.exists_append hitem (by
      rw [List.length_cons, List.length_append]
      omega)
    have hcopy := (Bytes.holds_cons_iff.mp (Bytes.holds_append_iff.mp hother).1).2
    refine ⟨octets, raw, hlength, hcopy, ?_, .same raw, fun _ => rfl, behind, behind, .same behind,
      holds_behind hholds, holds_behind hother, ?_, ?_⟩ <;>
      · simp only [List.length_append, List.length_cons]
        omega
  | item identifier length hdeclared hcontent hprimitive hnext =>
    rename_i content shorter next behind
    rw [← List.append_assoc length, ← List.append_assoc] at hholds
    obtain ⟨rfl, hidentifier, hfront⟩ :=
      single_of_holds (Bytes.holds_append_iff.mp hholds).1 htag hnumber
    obtain ⟨rfl, rfl⟩ := Header.content_unique hlength hdeclared hraw hfront
    rw [← List.append_assoc (lengthOctets _), ← List.append_assoc] at hother
    rw [hidentifier, List.singleton_append] at hholds hother
    have hshorter : shorter.length < lengthLimit :=
      Nat.lt_of_le_of_lt hcontent.length_le (Header.lt_of_isLength hlength)
    have hcopy := (Bytes.holds_cons_iff.mp (Bytes.holds_append_iff.mp hother).1).2
    refine ⟨lengthOctets shorter.length, shorter, Header.isLength_lengthOctets hshorter, hcopy, ?_,
      hcontent, hprimitive, next, behind, hnext, holds_behind hholds, holds_behind hother, ?_, ?_⟩ <;>
      · simp only [List.length_append, List.length_cons, hidentifier, List.length_nil]
        omega

end Facing

section Reading

variable {lead : Lead} {start : Nat}

theorem readSmall_holding {width n : Nat} (start' : Nat) (octets' : Bytes)
    (h : readSmall (.holding tag start octets raw lead) width index = .ok n) :
    readSmall (.holding tag start' octets' raw lead) width index = .ok n := by
  unfold readSmall at h ⊢
  dsimp only [Item.holding] at h ⊢
  rcases ite_eq_iff.mp h with ⟨_, hrefused⟩ | ⟨hwidth, h⟩
  · cases hrefused
  · exact (if_neg hwidth).trans h

theorem readContent_holding {value : Value} (start' : Nat) (octets' : Bytes)
    (h : readContent options entry destination (.holding tag start octets raw lead) index =
      .ok value) :
    readContent options entry destination (.holding tag start' octets' raw lead) index =
      .ok value := by
  have hsmall (width : Nat)
      (h : Value.number <$> readSmall (.holding tag start octets raw lead) width index =
        .ok value) :
      Value.number <$> readSmall (.holding tag start' octets' raw lead) width index =
        .ok value := by
    cases hn : readSmall (.holding tag start octets raw lead) width index with
    | error failure =>
      rw [hn] at h
      cases h
    | ok n =>
      rw [readSmall_holding start' octets' hn, ← hn]
      exact h
  unfold readContent at h ⊢
  cases hheader : entry.headerOnly with
  | true =>
    rw [hheader, if_pos rfl] at h
    rw [if_pos rfl]
    cases destination <;> exact h
  | false =>
    rw [hheader, if_neg Bool.false_ne_true] at h
    rw [if_neg Bool.false_ne_true]
    cases destination with
    | uint8 => exact hsmall 1 h
    | uint16 => exact hsmall 2 h
    | uint32 => exact hsmall 4 h
    | _ => exact h

end Reading

section Taken

variable {other otherStop : Nat}

theorem taken_relengthed {slot read : Slot} {item : Item} {taken : Bool}
    (hlegible : Legible entry slot) (hfacing : Facing input output pos stop other otherStop)
    (hseek : seek entry slot.destination input index stop taken pos = .ok (some tag))
    (hread : readItem options entry slot.destination input pos stop tag index = .ok (read, item)) :
    ∃ read' item',
      readItem options entry slot.destination output other otherStop tag index =
        .ok (read', item') ∧
      Agrees read read' ∧ Facing input output item.stop stop item'.stop otherStop ∧
      Facing input output item.contentStart item.stop item'.contentStart item'.stop := by
  obtain ⟨hcongruent, hchoice⟩ := hlegible
  obtain ⟨octets, raw, lead, value, hlength, hraw, hbound, hlead, rfl, hvalue, rfl⟩ :=
    readItem_eq_ok_iff.mp hread
  obtain rfl := tag_of_seek hchoice hseek
  obtain ⟨octets', raw', hlength', hraw', hbound', hcontent, hprimitive, hbehind⟩ :=
    hfacing.item (seek_eq_some hseek).1 hcongruent.number hlength hraw hbound
  obtain ⟨_, hinput⟩ := Bytes.holds_append_iff.mp hraw
  obtain ⟨_, houtput⟩ := Bytes.holds_append_iff.mp hraw'
  cases hconstructed : entry.wireTag.isConstructed with
  | true =>
    rw [Lead.ofContent, hconstructed, if_pos rfl] at hlead
    cases hlead
    have hlead' : Lead.ofContent options.integerPolicy entry.wireTag raw' = .ok .absent := by
      rw [Lead.ofContent, hconstructed, if_pos rfl]
    rw [readContent, hcongruent.header hconstructed, if_pos rfl] at hvalue
    obtain ⟨value', hvalue', hagrees⟩ : ∃ value',
        readContent options entry slot.destination
          (.holding entry.wireTag other octets' raw' .absent) index = .ok value' ∧
        Agrees (.holding slot.destination value (.holding entry.wireTag pos octets raw .absent))
          (.holding slot.destination value'
            (.holding entry.wireTag other octets' raw' .absent)) := by
      rw [readContent, hcongruent.header hconstructed, if_pos rfl]
      cases hdestination : slot.destination with
      | none =>
        rw [hdestination] at hvalue
        exact ⟨value, hvalue, rfl, rfl, rfl, rfl, rfl, .inl rfl⟩
      | content =>
        rw [hdestination] at hvalue
        cases hvalue
        exact ⟨.bytes raw', rfl, rfl, rfl, rfl, rfl, rfl,
          .inr ⟨rfl, hconstructed, raw, raw', rfl, rfl, hcontent⟩⟩
      | _ =>
        rw [hdestination] at hvalue
        cases hvalue
    exact ⟨_, _, readItem_eq_ok_iff.mpr ⟨octets', raw', .absent, value', hlength', hraw', hbound',
      hlead', rfl, hvalue', rfl⟩, hagrees, hbehind, raw, raw', hcontent, hinput, houtput, rfl, rfl⟩
  | false =>
    obtain rfl := hprimitive hconstructed
    have hsame := facing_drop (Lead.size_le_of_ofContent hlead) hinput houtput
    exact ⟨_, _, readItem_eq_ok_iff.mpr ⟨octets', raw', lead, value, hlength', hraw', hbound',
      hlead, rfl, readContent_holding other octets' hvalue, rfl⟩,
      ⟨rfl, rfl, rfl, rfl, rfl, .inl rfl⟩, hbehind, hsame⟩

theorem descends_relengthed
    (h : Descends options input forest index stop more met pos slots reached)
    (hlegible : forest.All Legible) (hmore : more = true)
    (hfacing : Facing input output pos stop other otherStop) :
    ∃ slots' reached',
      Descends options output forest index otherStop more met other slots' reached' ∧
      List.Forall₂ Agrees slots slots' ∧
      Facing input output reached stop reached' otherStop := by
  induction h generalizing other otherStop with
  | nil => exact ⟨[], other, .nil, .nil, hfacing⟩
  | passed hseek hrun hnext ih =>
    rename_i entry slot below next index stop more met pos slots reached
    obtain ⟨slots', reached', hdescends, hslots, hreached⟩ := ih hlegible.2.2 hmore hfacing
    have habsent : List.Forall₂ Agrees (below.slots.map fun s => s.markAbsent pos)
        (below.slots.map fun s => s.markAbsent other) := by
      rw [List.forall₂_map_left_iff, List.forall₂_map_right_iff, List.forall₂_same]
      exact fun s _ => .absent s pos other
    exact ⟨_, reached', .passed (seek_congr hfacing.peekAt_eq hseek) hrun hdescends,
      .cons (.absent slot pos other) (List.rel_append habsent hslots), hreached⟩
  | leaf hseek hread hheader hnext ih =>
    obtain ⟨hentry, _, hlegibleNext⟩ := hlegible
    obtain ⟨read', item', hread', hagrees, hbehind, _⟩ :=
      taken_relengthed hentry hfacing hseek hread
    obtain ⟨slots', reached', hdescends, hslots, hreached⟩ := ih hlegibleNext hmore hbehind
    exact ⟨_, reached', .leaf (seek_congr hfacing.peekAt_eq hseek) hread' hheader hdescends,
      .cons hagrees (List.rel_append (List.forall₂_same.mpr fun s _ => .refl s) hslots), hreached⟩
  | header hseek hread hheader hinside hend hnext ihInner ihNext =>
    obtain ⟨hentry, hlegibleBelow, hlegibleNext⟩ := hlegible
    obtain ⟨read', item', hread', hagrees, hbehind, hcontent⟩ :=
      taken_relengthed hentry hfacing hseek hread
    -- something comes after the content, so that it was taken to its end
    have hclosed := checkEnd_eq_ok_iff.mp hend (by rw [hmore]; rfl)
    obtain ⟨inner', last', hinside', hinner, hlast⟩ :=
      ihInner hlegibleBelow (by rw [hmore]; rfl) hcontent
    obtain rfl := hlast.closed hclosed
    obtain ⟨slots', reached', hdescends, hslots, hreached⟩ :=
      ihNext hlegibleNext hmore (hclosed ▸ hbehind)
    exact ⟨_, reached', .header (seek_congr hfacing.peekAt_eq hseek) hread' hheader hinside'
      (checkEnd_eq_ok_iff.mpr fun _ => rfl) hdescends,
      .cons hagrees (List.rel_append hinner hslots), hreached⟩

end Taken

variable {schema : Schema} {session found : Session}

theorem decode_convert {maxIndex otherMax : Nat} (hinput : input.length < lengthLimit)
    (hentries : ∀ entry ∈ schema, Congruent entry)
    (hchoice : ∀ slot ∈ session.slots, ∀ tags, slot.destination ≠ .choice tags)
    (hcursor : session.cursor = 0) (hmax : input.length ≤ maxIndex)
    (hdecode : session.decode options schema input true maxIndex = .ok found)
    (hconvert : Canonical.convert input = .ok output) (hother : output.length ≤ otherMax) :
    ∃ slots, session.decode options schema output true otherMax = .ok ⟨output.length, slots⟩ ∧
      List.Forall₂ Agrees found.slots slots := by
  obtain ⟨tree, hvalid, rfl, hlimited, hfits, rfl⟩ := Canonical.tree_of_convert hinput hconvert
  have hword : tree.octets.length < wordLimit := lt_wordLimit hinput
  obtain ⟨hcheck, hdescend, hend⟩ := (decode_eq_ok_iff hword).mp hdecode
  rw [Nat.min_eq_right hmax, hcursor] at hdescend
  rw [Nat.min_eq_right hmax] at hcheck hend
  obtain ⟨hschema, hlength⟩ := check_eq_ok hcheck
  have hdescends := descends_of_descend hdescend
  have hreached := checkEnd_eq_ok_iff.mp hend rfl
  have hlegible : (Forest.plant schema (session.slots.map Slot.clear)).All Legible := by
    apply Forest.all_of_forall
    rw [Forest.schema_plant (by simpa using hlength), Forest.slots_plant (by simpa using hlength)]
    intro pair hpair
    obtain ⟨hentry, hslot⟩ := List.of_mem_zip hpair
    obtain ⟨slot, hslot, hclear⟩ := List.mem_map.mp hslot
    refine ⟨hentries _ hentry, ?_⟩
    rw [← hclear]
    exact hchoice slot hslot
  have hdefinite : tree.Definite := definite_of_descends hdescends hlegible rfl hreached hvalid
    (Bytes.holds_self _) (Nat.zero_add _).symm
  have hfacing : Facing tree.octets tree.der 0 tree.octets.length 0 tree.der.length :=
    ⟨tree.octets, tree.der, Ber.relengthed_of_definite hvalid hdefinite, Bytes.holds_self _,
      Bytes.holds_self _, (Nat.zero_add _).symm, (Nat.zero_add _).symm⟩
  obtain ⟨slots, reached, hagain, hslots, hlast⟩ := descends_relengthed hdescends hlegible rfl hfacing
  obtain rfl := hlast.closed hreached
  refine ⟨slots, (decode_eq_ok_iff (lt_wordLimit hfits)).mpr ⟨?_, ?_, ?_⟩, hslots⟩
  · exact check_ok hschema hlength (by omega)
  · rw [Nat.min_eq_right hother, hcursor]
    exact descend_of_descends hagain
  · rw [Nat.min_eq_right hother]
    exact checkEnd_eq_ok_iff.mpr fun _ => rfl

def stretchedSchema : Schema :=
  [.sequence 0, .leaf 1 Tag.integer, (Entry.leaf 1 Tag.boolean).optional, .explicit 1 0,
    .leaf 2 Tag.bitString]

def stretchedSession : Session :=
  ⟨0, [.ofDestination .content, .ofDestination .uint8, .ofDestination .none, .ofDestination .none,
    .ofDestination .content]⟩

def stretchedSlots : List Slot :=
  [⟨.content, .bytes [0x02, 0x81, 0x01, 0x05, 0xA0, 0x82, 0x00, 0x04, 0x03, 0x02, 0x03, 0xA8], true,
      0x30, 0, 3, 12, 0, false⟩,
    ⟨.uint8, .number 5, true, 0x02, 3, 6, 1, 0, false⟩,
    ⟨.none, .nothing, false, 0, 7, 7, 0, 0, false⟩,
    ⟨.none, .nothing, true, 0xA0, 7, 11, 4, 0, false⟩,
    ⟨.content, .bytes [0xA8], true, 0x03, 11, 14, 1, 3, false⟩]

def stretched : Bytes :=
  [0x30, 0x81, 0x0C, 0x02, 0x81, 0x01, 0x05, 0xA0, 0x82, 0x00, 0x04, 0x03, 0x02, 0x03, 0xA8]

theorem convert_stretched :
    Canonical.convert stretched =
      .ok [0x30, 0x09, 0x02, 0x01, 0x05, 0xA0, 0x04, 0x03, 0x02, 0x03, 0xA8] := by
  have hsequence : IsLength [0x81, 0x0C] 12 :=
    .long 0x81 [0x0C] rfl (by decide) (by decide) (by decide)
  have hinteger : IsLength [0x81, 0x01] 1 :=
    .long 0x81 [0x01] rfl (by decide) (by decide) (by decide)
  have hexplicit : IsLength [0x82, 0x00, 0x04] 4 :=
    .long 0x82 [0x00, 0x04] rfl (by decide) (by decide) (by decide)
  have hbits : IsLength [0x02] 2 := .short 0x02 (by decide)
  let tree : Ber := .nested (.single 0x30 (by decide) rfl) (some [0x81, 0x0C])
    (.primitive (.single 0x02 (by decide) rfl) [0x81, 0x01] [0x05]
      (.nested (.single 0xA0 (by decide) rfl) (some [0x82, 0x00, 0x04])
        (.primitive (.single 0x03 (by decide) rfl) [0x02] [0x03, 0xA8] .nil) .nil)) .nil
  have hvalid : tree.Valid := by
    refine ⟨by decide, ?_, ⟨rfl, hinteger, by decide, ?_, ⟨rfl, hbits, trivial⟩, trivial⟩, trivial⟩
    · rintro _ ⟨⟩
      exact hsequence
    · rintro _ ⟨⟩
      exact hexplicit
  exact (Canonical.convert_octets hvalid (by decide) ⟨by decide, by decide, by decide⟩).trans
    (if_pos (by decide))

theorem decode_convert_stretched :
    stretchedSession.decode .strict stretchedSchema
        [0x30, 0x81, 0x0C, 0x02, 0x81, 0x01, 0x05, 0xA0, 0x82, 0x00, 0x04, 0x03, 0x02, 0x03, 0xA8]
        true 15 = .ok ⟨15, stretchedSlots⟩ ∧
      ∃ slots, stretchedSession.decode .strict stretchedSchema
          [0x30, 0x09, 0x02, 0x01, 0x05, 0xA0, 0x04, 0x03, 0x02, 0x03, 0xA8] true 11 =
            .ok ⟨11, slots⟩ ∧
        List.Forall₂ Agrees stretchedSlots slots := by
  have hdecode : stretchedSession.decode .strict stretchedSchema stretched true 15 =
      .ok ⟨15, stretchedSlots⟩ := (decode_eq_ok_iff (by decide)).mpr ⟨rfl, rfl, rfl⟩
  have hentries : ∀ entry ∈ stretchedSchema, Congruent entry := by
    simp only [stretchedSchema, List.forall_mem_cons]
    exact ⟨⟨by decide, by decide, by decide⟩, ⟨by decide, by decide, by decide⟩,
      ⟨by decide, by decide, by decide⟩, ⟨by decide, by decide, by decide⟩,
      ⟨by decide, by decide, by decide⟩, nofun⟩
  have hchoice : ∀ slot ∈ stretchedSession.slots, ∀ tags, slot.destination ≠ .choice tags := by
    simp [stretchedSession, Slot.ofDestination]
  exact ⟨hdecode, decode_convert (by decide) hentries hchoice rfl (by decide) hdecode
    convert_stretched (by decide)⟩

end DerTemplate.Decoding
