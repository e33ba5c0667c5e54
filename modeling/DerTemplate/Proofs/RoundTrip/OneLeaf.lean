import DerTemplate.Proofs.Encoding.Overflow
import DerTemplate.Proofs.RoundTrip.Leaf

namespace DerTemplate

open Header (lengthOctets lengthSize length_lengthOctets)

variable {entry : Entry}

def Entry.octets (entry : Entry) (content : Bytes) : Bytes :=
  entry.wireTag :: (lengthOctets content.length ++ content)

theorem Entry.length_octets (entry : Entry) (content : Bytes) :
    (entry.octets content).length = 1 + lengthSize content.length + content.length := by
  simp only [octets, List.length_cons, List.length_append, length_lengthOctets]
  omega

namespace Encoding

variable {value : Value}

def encoded (schema : Schema) (slots : List Slot) : Outcome Bytes :=
  (fun written => written.output.buffer) <$> (encode schema slots).outcome

def writeLeaf (entry : Entry) (value : Value) : Outcome Bytes := encoded [entry] [.ofValue value]

theorem plant_leaf (entry : Entry) (value : Value) :
    Forest.plant [entry] [Slot.ofValue value] = .node entry (.ofValue value) .nil .nil := rfl

theorem stencil_leaf (hleaf : entry.headerOnly = false) (value : Value) :
    (Forest.plant [entry] [Slot.ofValue value]).stencil = (Slot.ofValue value).own entry 0 := by
  have hnests : (Slot.ofValue value).nests entry = false := by simp [Slot.nests, hleaf]
  rw [plant_leaf, Forest.stencil, Slot.item, hnests]
  exact List.append_nil _

theorem length_stencil_leaf (hleaf : entry.headerOnly = false)
    (hreplace : ∀ encoded, value ≠ .replace encoded) :
    (Forest.plant [entry] [Slot.ofValue value]).stencil.length =
      (entry.octets ((Slot.ofValue value).content entry [])).length := by
  have hvalue : ∀ encoded, (Slot.ofValue value).value ≠ .replace encoded := hreplace
  have hcontent := declared_content entry (.ofValue value) []
  rw [stencil_leaf hleaf, length_own entry hvalue, hleaf, if_neg Bool.false_ne_true,
    Entry.length_octets, ← hcontent]
  simp only [Slot.declared, List.length_nil]
  omega

theorem fits_leaf (hleaf : entry.headerOnly = false)
    (hreplace : ∀ encoded, value ≠ .replace encoded)
    (h : (Forest.plant [entry] [Slot.ofValue value]).overflows 0 = false) :
    (Forest.plant [entry] [Slot.ofValue value]).stencil.length < wordLimit := by
  have hvalue : ∀ encoded, (Slot.ofValue value).value ≠ .replace encoded := hreplace
  have hword : 0 < wordLimit := by decide
  have hshown : (Slot.ofValue value).suppressed = false := rfl
  rw [plant_leaf] at h
  have hfits : (Slot.ofValue value).fits entry 0 = true := by
    simpa [Forest.overflows, Forest.stencil, hshown, hword] using h
  have hheld : (Slot.ofValue value).held entry 0 = 0 := by simp [Slot.held]
  have hlength := ((fits_iff hvalue).mp hfits).2
  rwa [hheld, ← stencil_leaf hleaf] at hlength

-- The first pass comes to the fault where the size is no word, and else there is no such buffer.
theorem encode_leaf_fault (hvalid : Schema.validate [entry] = .ok ())
    (hleaf : entry.headerOnly = false) (hreplace : ∀ encoded, value ≠ .replace encoded)
    (hlayout : ∃ l, ∀ index,
      layout entry ((Slot.ofValue value).baseTag entry) value index = .ok l)
    (hlimit : ¬(entry.octets ((Slot.ofValue value).content entry [])).length < lengthLimit) :
    (encode [entry] [.ofValue value]).outcome = fault := by
  rw [← length_stencil_leaf hleaf hreplace] at hlimit
  rcases size_cases hvalid rfl (checkChoices_leaf entry (.ofValue value)) with
    ⟨_, hsize⟩ | ⟨⟨failure, left⟩, hsize, hwhy⟩
  · rw [encode_of_size hsize, if_neg hlimit]
    rfl
  · have hencode : encode [entry] [.ofValue value] = .error ⟨failure, left⟩ := by
      rw [encode, hsize]
      rfl
    rw [hencode]
    cases hwhy with
    | fault _ => rfl
    | exhausted hfits hlong =>
      have hword := fits_leaf hleaf hreplace hfits
      omega
    | unsound error hunsound =>
      have hkept : HeaderKept entry (.ofValue value) := fun _ => hreplace
      exact absurd ⟨fun _ => ⟨⟨hkept, fun _ => rfl, fun _ => hlayout⟩, trivial⟩, trivial⟩ hunsound

theorem writeLeaf_eq (hvalid : Schema.validate [entry] = .ok ()) (hleaf : entry.headerOnly = false)
    (hreplace : ∀ encoded, value ≠ .replace encoded)
    (hlayout : ∃ l, ∀ index,
      layout entry ((Slot.ofValue value).baseTag entry) value index = .ok l) :
    writeLeaf entry value =
      if (entry.octets ((Slot.ofValue value).content entry [])).length < lengthLimit then
        .ok (entry.octets ((Slot.ofValue value).content entry []))
      else fault := by
  split
  · rename_i hlimit
    rw [Entry.length_octets] at hlimit
    obtain ⟨l, hl⟩ := hlayout
    have hvalue : ∀ encoded, (Slot.ofValue value).value ≠ .replace encoded := hreplace
    obtain ⟨written, hencode, hbuffer⟩ := encode_leaf hvalid hleaf rfl hvalue (hl 0) hlimit
    rw [writeLeaf, encoded, hencode]
    exact congrArg Except.ok hbuffer
  · rename_i hlimit
    rw [writeLeaf, encoded, encode_leaf_fault hvalid hleaf hreplace hlayout hlimit]
    rfl

end Encoding

namespace Decoding

def readOctets (entry : Entry) (destination : Destination) (options : Options) (octets : Bytes) :
    Outcome (List Value) :=
  Session.values <$> (Session.decode ⟨0, [.ofDestination destination]⟩ options [entry] octets true
    octets.length).outcome

theorem readOctets_eq {destination : Destination} {content : Bytes} (options : Options)
    (hvalid : Schema.validate [entry] = .ok ()) (hleaf : entry.headerOnly = false)
    (hchoice : ∀ tags, destination ≠ .choice tags)
    (hlimit : (entry.octets content).length < lengthLimit) :
    readOctets entry destination options (entry.octets content) = List.singleton <$> (do
      let lead ← Lead.ofContent options.integerPolicy entry.wireTag content
      readValue options destination
        (.holding entry.wireTag 0 (lengthOctets content.length) content lead) 0) := by
  rw [Entry.length_octets] at hlimit
  rw [← values_readLeaf options hvalid hleaf hchoice hlimit, readOctets, readLeaf,
    Entry.length_octets]
  rfl

end Decoding

end DerTemplate
