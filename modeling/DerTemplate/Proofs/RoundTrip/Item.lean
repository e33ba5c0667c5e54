import DerTemplate.Proofs.Decoding.Item
import DerTemplate.Proofs.Encoding.Items
import DerTemplate.Proofs.Header.Length
import DerTemplate.Proofs.RoundTrip.Value

namespace DerTemplate

namespace Encoding

structure Plain (entry : Entry) (slot : Slot) : Prop where
  base : entry.tag.base = entry.tag
  tag : slot.tag = none
  readable : slot.value.Readable entry
  header : entry.headerOnly = true → slot.value = .none

def Slot.raw (slot : Slot) (entry : Entry) (nested : Bytes) : Bytes :=
  slot.value.content entry ++ nested

variable {entry : Entry} {slot : Slot}

theorem Plain.wireTag (h : Plain entry slot) : slot.wireTag entry = entry.wireTag := by
  rw [Slot.wireTag, h.tag]
  rfl

theorem Plain.baseTag (h : Plain entry slot) : slot.baseTag entry = entry.tag := by
  rw [Slot.baseTag, h.wireTag, Entry.base_wireTag h.base]

theorem Plain.content (h : Plain entry slot) (nested : Bytes) :
    slot.content entry nested = slot.raw entry nested := by
  rw [Slot.content, Slot.raw, Slot.leadBytes, Slot.body, h.baseTag, Value.content,
    List.append_assoc]

theorem Plain.ne_replace (h : Plain entry slot) (encoded : Bytes) :
    slot.value ≠ .replace encoded := by
  intro hvalue
  have hreadable := h.readable
  rw [hvalue] at hreadable
  exact hreadable

end Encoding

namespace Forest

open Encoding

variable {entry : Entry} {slot : Slot}

theorem encoding_written (hslot : slot.suppressed = false) (hplain : Plain entry slot)
    {below : Forest Slot} (hleaf : entry.headerOnly = false → below = nil) (next : Forest Slot) :
    (node entry slot below next).encoding =
      (entry.wireTag :: (Header.lengthOctets (slot.raw entry below.encoding).length ++
        slot.raw entry below.encoding)) ++ next.encoding := by
  have hshown := encoding_shown hslot hplain.ne_replace hplain.header hleaf next
  rwa [hplain.wireTag, hplain.content] at hshown

end Forest

namespace RoundTrip

open Encoding (Plain Value)
open Decoding (Destination Item readHeader readItem readItem_eq_ok_iff readValue)

def Suits (entry : Entry) (given : Encoding.Slot) (destination : Destination) : Prop :=
  Plain entry given ∧ (given.value.returned [] destination).isSome

structure Recovers (entry : Entry) (given : Encoding.Slot) (nested : Bytes)
    (destination : Destination) (found : Decoding.Slot) : Prop where
  present : found.present = true
  tag : found.tag = entry.wireTag
  unusedBits : found.unusedBits = given.value.unusedBits
  value : given.value.returned nested destination = some found.value
  asked : found.destination = destination

variable {entry : Entry} {given : Encoding.Slot} {destination : Destination} {nested : Bytes}

theorem returned_none (nested : Bytes) {got : Decoding.Value}
    (h : Value.returned [] .none destination = some got) :
    ∃ kept, Value.returned nested .none destination = some kept ∧
      ∀ (item : Item) (index : Nat), item.content = nested →
        readHeader destination item index = .ok kept := by
  cases destination <;> cases h
  · exact ⟨.nothing, rfl, fun _ _ _ => rfl⟩
  · exact ⟨.bytes nested, rfl, fun item index hcontent => by rw [readHeader, hcontent]⟩

theorem reads_raw (policy : IntegerPolicy) (hsuits : Suits entry given destination)
    (hwritable : given.Writable entry) (hleaf : entry.headerOnly = false → nested = []) :
    ∃ lead content got, Splits entry policy (given.raw entry nested) lead content ∧
      lead.unused = given.value.unusedBits ∧ (entry.headerOnly = true → content = nested) ∧
      given.value.returned nested destination = some got ∧
      ∀ (options : Options) (item : Item) (index : Nat), item.tag = entry.wireTag →
        item.lead = lead → item.raw = given.raw entry nested → item.content = content →
          (if entry.headerOnly then readHeader destination item index
            else readValue options destination item index) = .ok got := by
  obtain ⟨hplain, hkept⟩ := hsuits
  obtain ⟨got, hgot⟩ := Option.isSome_iff_exists.mp hkept
  have hreadable := hplain.readable
  cases hheader : entry.headerOnly with
  | true =>
    rw [hplain.header hheader] at hreadable hgot
    have hraw : given.raw entry nested =
        (Encoding.wholeBits entry entry.tag).toList ++ nested := by
      simp [Encoding.Slot.raw, Value.content, hplain.header hheader, Value.body, Value.lead,
        Encoding.Stencil.fill]
    obtain ⟨lead, hsplits, hunused⟩ := splits_whole policy hplain.base hreadable nested
    obtain ⟨kept, hreturned, hread⟩ := returned_none nested hgot
    rw [hplain.header hheader]
    exact ⟨lead, nested, kept, hraw ▸ hsplits, hunused, fun _ => rfl, hreturned,
      fun _ item index _ _ _ hcontent => hread item index hcontent⟩
  | false =>
    have hnests : given.nests entry = false := by simp [Encoding.Slot.nests, hheader]
    obtain rfl := hleaf hheader
    have hraw : given.raw entry [] = given.value.content entry := by
      rw [Encoding.Slot.raw, List.append_nil]
    rcases hwritable hnests with ⟨encoded, hreplace⟩ | ⟨l, hlayout, _⟩
    · exact absurd hreplace (hplain.ne_replace encoded)
    · rw [hplain.baseTag] at hlayout
      obtain ⟨lead, content, hsplits, hunused, hread⟩ :=
        readsBack policy hplain.base hreadable (hlayout 0)
      rw [hraw]
      exact ⟨lead, content, got, hsplits, hunused, fun h => absurd h Bool.false_ne_true, hgot,
        fun options item index htag hlead hitem hcontent =>
          hread options item index destination got htag hlead hitem hcontent hgot⟩

theorem readItem_encoding (options : Options) (index : Nat) {input : Bytes} {pos bound : Nat}
    (hsuits : Suits entry given destination) (hwritable : given.Writable entry)
    (hleaf : entry.headerOnly = false → nested = [])
    (hinput : input.Holds pos (entry.wireTag ::
      (Header.lengthOctets (given.raw entry nested).length ++ given.raw entry nested)))
    (hlimit : (given.raw entry nested).length < lengthLimit)
    (hbound : pos + (1 + ((Header.lengthOctets (given.raw entry nested).length).length +
      (given.raw entry nested).length)) ≤ bound) :
    ∃ found item, readItem options entry destination input pos bound entry.wireTag index =
        .ok (found, item) ∧
      Recovers entry given nested destination found ∧
      item.stop = pos + (1 + ((Header.lengthOctets (given.raw entry nested).length).length +
        (given.raw entry nested).length)) ∧
      (entry.headerOnly = true →
        input.Holds item.contentStart nested ∧ item.stop = item.contentStart + nested.length) := by
  obtain ⟨lead, content, got, hsplits, hunused, hcontent, hgot, hread⟩ :=
    reads_raw options.integerPolicy hsuits hwritable hleaf
  generalize given.raw entry nested = raw at *
  obtain ⟨_, hbehind⟩ := Bytes.holds_cons_iff.mp hinput
  obtain ⟨_, hraw⟩ := Bytes.holds_append_iff.mp hbehind
  have hsize := Decoding.Lead.size_le_of_ofContent hsplits.read
  let item := Item.holding entry.wireTag pos (Header.lengthOctets raw.length) raw lead
  have hitem : readItem options entry destination input pos bound entry.wireTag index =
      .ok (.holding destination got item, item) :=
    readItem_eq_ok_iff.mpr ⟨_, raw, lead, got, Header.isLength_lengthOctets hlimit, hbehind,
      by omega, hsplits.read, rfl, hread options item index rfl rfl rfl hsplits.behind, rfl⟩
  refine ⟨_, item, hitem, ⟨rfl, rfl, hunused, hgot, rfl⟩, ?_, ?_⟩
  · simp only [item, Item.holding]
    omega
  · intro hheader
    have hnested := hraw.drop hsize
    rw [hsplits.behind, hcontent hheader] at hnested
    have hlengths := congrArg List.length hsplits.behind
    rw [hcontent hheader, List.length_drop] at hlengths
    refine ⟨hnested, ?_⟩
    simp only [item, Item.holding]
    omega

end RoundTrip

end DerTemplate
